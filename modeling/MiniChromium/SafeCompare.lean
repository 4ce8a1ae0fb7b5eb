import MiniChromium.Promotion

/-!
# Comparisons of any two integer types

`SafeCompare` compares in a wider type where there is one that holds both operand types,
and hands the operands to the range checks where there is none. The operators of
`StrictNumeric` and `ClampedNumeric` are `SafeCompare` of the six predicates.
-/
namespace MiniChromium

open IntegralType MiniChromium.Num

variable {L R : IntegralType}

/-- `IsEqual`. -/
def isEqual (lhs : Num L) (rhs : Num R) : Bool :=
  decide (dstRangeRelationToSrcRange (numericLimits R) lhs =
      dstRangeRelationToSrcRange (numericLimits L) rhs) &&
    decide ((staticCast (L.sumType R) lhs.val).val = (staticCast (L.sumType R) rhs.val).val)

/-- `IsNotEqual`. -/
def isNotEqual (lhs : Num L) (rhs : Num R) : Bool :=
  decide (dstRangeRelationToSrcRange (numericLimits R) lhs ≠
      dstRangeRelationToSrcRange (numericLimits L) rhs) ||
    decide ((staticCast (L.sumType R) lhs.val).val ≠ (staticCast (L.sumType R) rhs.val).val)

/-- `BigEnoughPromotion<L, R>::is_contained`. -/
def bigEnoughPromotionIsContained (L R : IntegralType) : Bool :=
  let M := maxExponentPromotion L R
  (M.isTypeInRange L && M.isTypeInRange R) || decide (M.integerBitsPlusSign ≠ 64)

/-- `SafeCompare<C, L, R>`. -/
def safeCompare (C : ∀ {L R : IntegralType}, Num L → Num R → Bool) (lhs : Num L) (rhs : Num R) :
    Bool :=
  let BigType := bigEnoughPromotion L R
  if bigEnoughPromotionIsContained L R then
    C (staticCast BigType lhs.val) (staticCast BigType rhs.val)
  else C lhs rhs

/-- Two values that stand in the same way to each other's types are in them. -/
theorem inRange_of_flags_eq {lhs : Num L} {rhs : Num R}
    (h : dstRangeRelationToSrcRange (numericLimits R) lhs =
      dstRangeRelationToSrcRange (numericLimits L) rhs) :
    R.InRange lhs.val ∧ L.InRange rhs.val := by
  have hl := lhs.inRange
  have hr := rhs.inRange
  simp only [dstRangeRelationToSrcRange_numericLimits, RangeCheck.mk.injEq, decide_eq_decide] at h
  unfold IntegralType.InRange at *
  omega

@[simp] theorem isEqual_eq (lhs : Num L) (rhs : Num R) :
    isEqual lhs rhs = decide (lhs.val = rhs.val) := by
  rw [isEqual, Bool.eq_iff_iff, Bool.and_eq_true]
  simp only [decide_eq_true_eq]
  constructor
  · rintro ⟨hflags, hcast⟩
    obtain ⟨hl, hr⟩ := inRange_of_flags_eq hflags
    obtain ⟨hlhs, hrhs⟩ := staticCast_sumType lhs rhs hl hr
    rwa [hlhs, hrhs] at hcast
  · intro h
    have hl : R.InRange lhs.val := h ▸ rhs.inRange
    have hr : L.InRange rhs.val := h ▸ lhs.inRange
    exact ⟨by rw [dstRange_of_inRange _ _ hl, dstRange_of_inRange _ _ hr], by rw [h]⟩

theorem isNotEqual_eq_not_isEqual (lhs : Num L) (rhs : Num R) :
    isNotEqual lhs rhs = !isEqual lhs rhs := by
  rw [isNotEqual, isEqual, Bool.not_and, decide_not, decide_not]

@[simp] theorem isNotEqual_eq (lhs : Num L) (rhs : Num R) :
    isNotEqual lhs rhs = decide (lhs.val ≠ rhs.val) := by
  rw [isNotEqual_eq_not_isEqual, isEqual_eq, decide_not]

theorem bigEnoughPromotion_of_isContained (h : bigEnoughPromotionIsContained L R = true) :
    (bigEnoughPromotion L R).isTypeInRange L = true ∧
      (bigEnoughPromotion L R).isTypeInRange R = true := by
  revert L R
  decide

/-- A predicate that decides a relation of integers for all types decides it on both paths. -/
theorem safeCompare_eq (C : ∀ {L R : IntegralType}, Num L → Num R → Bool) (rel : ℤ → ℤ → Bool)
    (hC : ∀ {L R : IntegralType} (lhs : Num L) (rhs : Num R), C lhs rhs = rel lhs.val rhs.val)
    (lhs : Num L) (rhs : Num R) : safeCompare C lhs rhs = rel lhs.val rhs.val := by
  rw [safeCompare]
  split_ifs with hcontained
  · obtain ⟨hL, hR⟩ := bigEnoughPromotion_of_isContained hcontained
    rw [hC, staticCast_of_inRange (lhs.inRange.of_isTypeInRange hL),
      staticCast_of_inRange (rhs.inRange.of_isTypeInRange hR)]
  · exact hC lhs rhs

/-- The six comparisons are those of the integers. -/
theorem safeCompare_exact (lhs : Num L) (rhs : Num R) :
    safeCompare isLess lhs rhs = decide (lhs.val < rhs.val) ∧
    safeCompare isLessOrEqual lhs rhs = decide (lhs.val ≤ rhs.val) ∧
    safeCompare isGreater lhs rhs = decide (lhs.val > rhs.val) ∧
    safeCompare isGreaterOrEqual lhs rhs = decide (lhs.val ≥ rhs.val) ∧
    safeCompare isEqual lhs rhs = decide (lhs.val = rhs.val) ∧
    safeCompare isNotEqual lhs rhs = decide (lhs.val ≠ rhs.val) :=
  ⟨safeCompare_eq isLess (fun a b => decide (a < b)) isLess_eq lhs rhs,
    safeCompare_eq isLessOrEqual (fun a b => decide (a ≤ b)) isLessOrEqual_eq lhs rhs,
    safeCompare_eq isGreater (fun a b => decide (a > b)) isGreater_eq lhs rhs,
    safeCompare_eq isGreaterOrEqual (fun a b => decide (a ≥ b)) isGreaterOrEqual_eq lhs rhs,
    safeCompare_eq isEqual (fun a b => decide (a = b)) isEqual_eq lhs rhs,
    safeCompare_eq isNotEqual (fun a b => decide (a ≠ b)) isNotEqual_eq lhs rhs⟩

/-- No type is wider than both of `int64_t` and `uint64_t`. -/
example : bigEnoughPromotionIsContained .int64 .uint64 = false ∧
    safeCompare isLess (⟨-1, by decide⟩ : Num .int64) (⟨1, by decide⟩ : Num .uint64) = true := by
  decide

end MiniChromium
