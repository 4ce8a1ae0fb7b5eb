import MiniChromium.ClampedOperations
import MiniChromium.PortableArithmetic

/-!
# Saturation of the other clamped operations

Subtraction, the negation, the absolute value and the shifts have bodies of their own. All but
the subtraction are the exact results saturated to their type; the subtraction chooses its bound
by the sign of the second operand, as the addition does.
-/
namespace MiniChromium

open IntegralType MiniChromium.Num

variable {T U V : IntegralType}

/-- The `static_assert` of `ClampedSubOp`. -/
def ClampedSubOpAdmits (V T U : IntegralType) : Prop := ClampedAddOpAdmits V T U

instance (V T U : IntegralType) : Decidable (ClampedSubOpAdmits V T U) :=
  inferInstanceAs (Decidable (ClampedAddOpAdmits V T U))

/-- The difference does not leave the result type on the side that the sign of `y` does not
point to. On the portable path it does not wrap to a value of the result type, and operands or
a difference outside the promotion type come only with a difference beyond the bound that
is chosen. -/
def ClampedSubSafe (tc : Toolchain) (V : IntegralType) (x : Num T) (y : Num U) : Prop :=
  (0 ≤ y.val → x.val - y.val ≤ V.max) ∧ (y.val < 0 → V.lowest ≤ x.val - y.val) ∧
    ¬DifferenceWraps tc V x y ∧
    ((tc.checkedSubFastOpIsSupported = true ∨ OperandsFit (wordPromotion T U) x y ∧
        (wordPromotion T U).InRange (x.val - y.val)) ∨
      if 0 ≤ y.val then x.val - y.val ≤ V.lowest else V.max ≤ x.val - y.val)

instance (tc : Toolchain) (V : IntegralType) (x : Num T) (y : Num U) :
    Decidable (ClampedSubSafe tc V x y) :=
  inferInstanceAs (Decidable (_ ∧ _ ∧ _ ∧ _))

/-- A difference that wraps is taken for valid, and is not the saturated one. -/
theorem clampedSubOp_of_wraps {tc : Toolchain} {x : Num T} {y : Num U}
    (h : DifferenceWraps tc V x y) :
    (clampedSubOp tc V x y).val ≠ V.clamp (x.val - y.val) := by
  obtain ⟨-, -, hlt, hpos, hval⟩ := h.val_staticCast
  obtain ⟨htc, hs, -, hr⟩ := h
  have hcovers : ∀ T U : IntegralType, isIntegerArithmeticSafe (wordPromotion T U) T U = true →
      (wordPromotion T U).isTypeInRange T = true ∧
        (wordPromotion T U).isTypeInRange U = true := by decide
  obtain ⟨hT, hU⟩ := hcovers T U hs
  have hfit : OperandsFit (wordPromotion T U) x y :=
    ⟨x.inRange.of_isTypeInRange hT, y.inRange.of_isTypeInRange hU⟩
  have hnegative : V.clamp (x.val - y.val) ≤ 0 := by
    have hl := V.lowest_nonpos
    unfold clamp BoundedInt.clamp
    omega
  have hx := (isValueInRange_iff _ x).mpr hfit.1
  have hy := (isValueInRange_iff _ y).mpr hfit.2
  have hp := (isValueInRange_iff _ (staticCast (wordPromotion T U) (x.val - y.val))).mpr hr
  have hsub : checkedSubOp tc V x y 0 =
      (true, staticCast V (staticCast (wordPromotion T U) (x.val - y.val)).val) := by
    simp [checkedSubOp, htc, checkedWordOp, hx, hy, hs, hp, staticCast_of_inRange hfit.1,
      staticCast_of_inRange hfit.2]
  rw [clampedSubOp, hsub, if_pos rfl, staticCast_of_inRange hr, hval]
  omega

theorem clampedSubOp_eq_clamp_iff (tc : Toolchain) (V : IntegralType) (x : Num T) (y : Num U) :
    (clampedSubOp tc V x y).val = V.clamp (x.val - y.val) ↔ ClampedSubSafe tc V x y := by
  by_cases hwraps : DifferenceWraps tc V x y
  · exact iff_of_false (clampedSubOp_of_wraps hwraps) fun hsafe => hsafe.2.2.1 hwraps
  have hsat := saturated_in_direction_iff (!y.isValueNegative)
    (checkedSubOp_computes_of_not_wraps hwraps 0)
  rw [clampedSubOp, hsat, ClampedSubSafe]
  simp only [Bool.not_eq_true', ← Bool.not_eq_true, isValueNegative_iff, not_lt, not_le, hwraps,
    not_false_eq_true, true_and]

/-- In an operator and in a compound assignment, whose result types these are, only a 64-bit
unsigned number less a negative one is not saturated exactly, and on the portable path alone. -/
theorem clampedSubSafe_iff (tc : Toolchain)
    (hV : V = maxExponentPromotion T U ∨ V = T ∧ U.isTypeInRange V = true) (x : Num T) (y : Num U) :
    ClampedSubSafe tc V x y ↔ ¬(tc.checkedSubFastOpIsSupported = false ∧ T = .uint64 ∧
      y.val < 0 ∧ x.val - y.val < V.max) := by
  have hbounds : ∀ V T U : IntegralType,
      V = maxExponentPromotion T U ∨ V = T ∧ U.isTypeInRange V = true →
        T.max ≤ V.max ∧ (U.isSigned = true → V.lowest ≤ T.lowest) ∧
          (U = .uint64 → V.lowest = 0) := by decide
  obtain ⟨hmax, hlowest, hzero⟩ := hbounds V T U hV
  have hV' := hV.imp_right And.left
  have hx := x.inRange
  have hy := y.inRange
  have hpositive : 0 ≤ y.val → x.val - y.val ≤ V.max := by
    intro hy0
    have hu := hx.2
    omega
  have hnegative : y.val < 0 → V.lowest ≤ x.val - y.val := by
    intro hy0
    have hl := hx.1
    have hU := hlowest (y.isSigned_of_neg hy0)
    omega
  rw [ClampedSubSafe, and_iff_right hpositive, and_iff_right hnegative,
    and_iff_right (not_differenceWraps tc hV' x y)]
  by_cases hin : V.InRange (x.val - y.val)
  · have hmixed : MixedSignDifference x y ↔ T = .uint64 ∧ y.val < 0 := by
      constructor
      · rintro (⟨-, hU, hlt⟩ | ⟨hT, -, hy0⟩)
        · have hl := hin.1
          rw [hzero hU] at hl
          omega
        · exact ⟨hT, hy0⟩
      · rintro ⟨hT, hy0⟩
        exact .inr ⟨hT, y.isSigned_of_neg hy0, hy0⟩
    rw [fit_difference_iff hV' x y hin, hmixed, ← Bool.not_eq_true]
    by_cases hy0 : y.val < 0
    · rw [if_neg (not_le.mpr hy0)]
      simp only [hy0, and_true, true_and, not_and_or, not_not, not_lt, or_assoc]
    · simp [hy0]
  · -- The difference is beyond the bound that the sign of `y` chooses.
    have hbeyond : if 0 ≤ y.val then x.val - y.val ≤ V.lowest else V.max ≤ x.val - y.val := by
      unfold IntegralType.InRange at hin
      split_ifs <;> omega
    refine iff_of_true (.inr hbeyond) ?_
    rintro ⟨-, -, hy0, hlt⟩
    rw [if_neg (not_le.mpr hy0)] at hbeyond
    omega

/-- The negation and the absolute value leave a signed type at its minimum alone. -/
theorem eq_lowest_of_not_inRange (x : Num T) (h : ¬T.InRange (-x.val)) (hT : T.isSigned = true) :
    x.val = T.lowest := by
  have hs := lowest_of_signed hT
  have hl := x.lowest_le
  have hu := x.le_max
  unfold IntegralType.InRange at h
  omega

/-- Every path saturates the minimum of a signed type, and an unsigned type has zero for the
negation. -/
theorem saturatedNegWrapper_eq_clamp (tc : Toolchain) (mustTreatAsConstexpr : Bool) (x : Num T) :
    (saturatedNegWrapper tc mustTreatAsConstexpr x).val = T.clamp (-x.val) := by
  cases hT : T.isSigned with
  | false =>
    have hx := x.nonneg hT
    rw [saturatedNegWrapper_of_unsigned tc _ hT, clamp_of_le_lowest, lowest_of_unsigned hT,
      val_zero]
    rw [lowest_of_unsigned hT]
    omega
  | true =>
    by_cases hin : T.InRange (-x.val)
    · rw [saturatedNegWrapper_of_inRange tc _ hT x hin, clamp_of_inRange hin]
    · have hx := eq_lowest_of_not_inRange x hin hT
      have hs := lowest_of_signed hT
      have hwrap : (CheckedNumeric.negateWrapper x).val = T.lowest := by
        simpa using mt (CheckedNumeric.negateWrapper_computes x hT).valid_iff.mp hin
      rw [clamp_of_max_le (by omega)]
      simp [saturatedNegWrapper, hT, hwrap, clampedNegFastOp, checkedFastOp, hin]

theorem saturatedAbsWrapper_eq_clamp (x : Num T) :
    (saturatedAbsWrapper x).val = T.clamp |x.val| := by
  by_cases hin : T.InRange |x.val|
  · rw [saturatedAbsWrapper_of_inRange x hin, clamp_of_inRange hin]
  · have hneg : ¬T.InRange (-x.val) ∧ x.val < 0 := by
      obtain hx | hx := lt_or_ge x.val 0
      · rw [abs_of_neg hx] at hin
        exact ⟨hin, hx⟩
      · rw [abs_of_nonneg hx] at hin
        exact absurd x.inRange hin
    have hT := x.isSigned_of_neg hneg.2
    have hx := eq_lowest_of_not_inRange x hneg.1 hT
    have hs := lowest_of_signed hT
    have hm := T.lowest_add_modulus
    have habs : |x.val| = T.max + 1 := by
      rw [abs_of_neg hneg.2]
      omega
    -- The bit pattern of the absolute value is that of the minimum itself.
    have hpattern : |x.val| ≡ x.val [ZMOD T.modulus] := by
      rw [habs, hx, ← hm]
      simp [Int.ModEq]
    have hflag : (staticCast T |x.val|).isValueNegative = true := by
      rw [staticCast_congr hpattern, staticCast_self, isValueNegative_iff]
      exact hneg.2
    have hmax : T.InRange T.max := ⟨T.lowest_lt_max.le, le_rfl⟩
    rw [clamp_of_max_le (by omega)]
    simp only [saturatedAbsWrapper, val_safeUnsignedAbs, hflag, if_true]
    rw [habs, add_sub_cancel_right, staticCast_of_inRange hmax]

/-- A nonzero number shifted out of the type saturates in the direction of its sign. -/
theorem clamp_lsh (x : Num T) {s : ℕ} (h : ¬T.InRange (x.val * 2 ^ s) ∨ T.digits ≤ s) :
    (if x.val ≠ 0 then commonMaxOrMin T T x.isValueNegative else 0).val =
      T.clamp (x.val * 2 ^ s) := by
  have hp : (1 : ℤ) ≤ 2 ^ s := by
    exact_mod_cast Nat.one_le_two_pow
  have hlarge : T.digits ≤ s → T.max + 1 ≤ 2 ^ s := by
    intro hs
    rw [IntegralType.max, sub_add_cancel]
    exact_mod_cast Nat.pow_le_pow_right (by omega) hs
  have hm := T.max_pos
  have hl := T.lowest_nonpos
  unfold IntegralType.InRange at h
  obtain hx | hx | hx := lt_trichotomy x.val 0
  · have hlow : x.val * 2 ^ s ≤ T.lowest := by
      have hs := lowest_of_signed (x.isSigned_of_neg hx)
      have hprod : x.val * 2 ^ s ≤ -2 ^ s := by nlinarith
      obtain h | h := h
      · omega
      · have := hlarge h
        omega
    simp [hx.ne, hx, clamp_of_le_lowest hlow]
  · simp [hx, clamp_of_inRange T.inRange_zero]
  · have hhigh : T.max ≤ x.val * 2 ^ s := by
      have hprod : 2 ^ s ≤ x.val * 2 ^ s := by nlinarith
      obtain h | h := h
      · omega
      · have := hlarge h
        omega
    simp [hx.ne', hx.le, clamp_of_max_le hhigh]

theorem clampedLshOp_eq_clamp (x : Num T) (shift : Num U) (hU : U.isSigned = false) :
    (clampedLshOp T x shift).val = T.clamp (x.val * 2 ^ shift.val.toNat) := by
  have hshift := shift.nonneg hU
  unfold clampedLshOp
  by_cases hlt : shift.val < T.digits
  · have hrev := lsh_reversible x (show shift.val.toNat < T.digits by omega)
    simp only [hlt, if_true, staticCast_lsh, hrev]
    by_cases hin : T.InRange (x.val * 2 ^ shift.val.toNat)
    · rw [if_pos hin, staticCast_of_inRange hin, clamp_of_inRange hin]
    · rw [if_neg hin]
      exact clamp_lsh x (.inl hin)
  · simp only [hlt, if_false]
    exact clamp_lsh x (.inr (by omega))

/-- A shift by the width or more leaves the sign alone. -/
theorem ediv_of_width_le (x : Num T) {s : ℕ} (h : T.integerBitsPlusSign ≤ s) :
    x.val / 2 ^ s = 0 - if x.isValueNegative then 1 else 0 := by
  have hwide : (2 : ℤ) ^ T.integerBitsPlusSign ≤ 2 ^ s := pow_le_pow_right₀ one_le_two h
  have hbounds : -2 ^ T.integerBitsPlusSign ≤ T.lowest ∧ T.max < 2 ^ T.integerBitsPlusSign := by
    cases T <;> decide
  have hl := x.lowest_le
  have hu := x.le_max
  by_cases hx : x.val < 0
  · rw [if_pos ((isValueNegative_iff x).mpr hx)]
    exact Int.ediv_eq_neg_one_of_neg_of_le hx (by omega)
  · rw [if_neg (mt (isValueNegative_iff x).mp hx)]
    exact Int.ediv_eq_zero_of_lt (not_lt.mp hx) (by omega)

theorem clampedRshOp_eq_ediv (isCompileTimeConstant : Bool) (x : Num T) (shift : Num U)
    (hU : U.isSigned = false) :
    (clampedRshOp isCompileTimeConstant T x shift).val = x.val / 2 ^ shift.val.toNat := by
  have hshift := shift.nonneg hU
  by_cases hlt : shift.val < T.integerBitsPlusSign
  · have hc := checkedRshOp_computes x shift 0
    have hvalid := hc.valid_iff.mpr ⟨hshift, hlt⟩
    rw [clampedRshOp_of_valid isCompileTimeConstant x shift hvalid, hc.val_eq hvalid]
  · have hquotient := ediv_of_width_le x (show T.integerBitsPlusSign ≤ shift.val.toNat by omega)
    have hin := inRange_shiftRight x shift.val.toNat
    have hzero : (0 : Num T).asUnsigned.val = 0 := asUnsigned_of_nonneg 0 le_rfl
    rw [hquotient] at hin ⊢
    simp only [clampedRshOp, hlt, if_false, hzero]
    exact staticCast_of_inRange hin

/-- Subtraction is exact saturation exactly when the direction that the sign of the second
operand chooses is the right one and the portable arithmetic suffices. The unary minus, the
absolute value and the shifts by unsigned amounts are exact on every path. -/
theorem clampedNumeric_saturates (tc : Toolchain)
    (mustTreatAsConstexpr isCompileTimeConstant : Bool) (lhs : ClampedNumeric T)
    (rhs : ClampedNumeric U) :
    (∀ V, ClampedSubOpAdmits V T U →
      ((ClampedNumeric.mathOp isCompileTimeConstant (clampedSubOp tc V) lhs rhs).value.val =
          V.clamp (lhs.value.val - rhs.value.val) ↔
        ClampedSubSafe tc V lhs.value rhs.value)) ∧
    (lhs.neg tc mustTreatAsConstexpr isCompileTimeConstant).value.val = T.clamp (-lhs.value.val) ∧
    (lhs.abs isCompileTimeConstant).value.val = T.clamp |lhs.value.val| ∧
    (U.isSigned = false →
      (ClampedNumeric.mathOp isCompileTimeConstant (clampedLshOp T) lhs rhs).value.val =
          T.clamp (lhs.value.val * 2 ^ rhs.value.val.toNat) ∧
        (ClampedNumeric.mathOp isCompileTimeConstant (clampedRshOp isCompileTimeConstant T) lhs
            rhs).value.val =
          lhs.value.val / 2 ^ rhs.value.val.toNat) := by
  simp only [ClampedNumeric.value_mathOp, ClampedNumeric.neg, ClampedNumeric.abs,
    ClampedNumeric.ofNum, saturatedCast_self]
  exact ⟨fun V _ => clampedSubOp_eq_clamp_iff tc V _ _, saturatedNegWrapper_eq_clamp tc _ _,
    saturatedAbsWrapper_eq_clamp _, fun hU => ⟨clampedLshOp_eq_clamp _ _ hU,
      clampedRshOp_eq_ediv isCompileTimeConstant _ _ hU⟩⟩

/-- The minimum of `int8_t` less 100, and shifted both ways by more than its width. -/
theorem clampedNumeric_saturates_int8 :
    (ClampedNumeric.mathOp false (clampedSubOp .other .int8) ⟨lowestValue .int8⟩
        ⟨(⟨100, by decide⟩ : Num .int8)⟩).value.val = -128 ∧
      (ClampedNumeric.mathOp false (clampedLshOp .int8) ⟨lowestValue .int8⟩
        ⟨(⟨9, by decide⟩ : Num .uint8)⟩).value.val = -128 ∧
      (ClampedNumeric.mathOp false (clampedRshOp false .int8) ⟨lowestValue .int8⟩
        ⟨(⟨9, by decide⟩ : Num .uint8)⟩).value.val = -1 := by
  have hsub := clampedNumeric_saturates .other false false ⟨lowestValue .int8⟩
    ⟨(⟨100, by decide⟩ : Num .int8)⟩
  have hshift := clampedNumeric_saturates .other false false ⟨lowestValue .int8⟩
    ⟨(⟨9, by decide⟩ : Num .uint8)⟩
  exact ⟨((hsub.1 .int8 (.inl rfl)).mpr (by decide)).trans (by decide),
    (hshift.2.2.2 rfl).1.trans (by decide), (hshift.2.2.2 rfl).2.trans (by decide)⟩

/-- `ClampedNumeric<uint64_t>(5) - int64_t(-3)` on the portable path, and a difference that the
result type of the `static_assert` does not have on the side that is chosen. -/
theorem clampedSubOp_saturates_wrongly :
    (ClampedSubOpAdmits .uint64 .uint64 .int64 ∧
      (clampedSubOp .other .uint64 (⟨5, by decide⟩ : Num .uint64)
        (⟨-3, by decide⟩ : Num .int64)).val ≠ IntegralType.uint64.clamp (5 - -3)) ∧
    ClampedSubOpAdmits .int8 .int32 .int8 ∧
      (clampedSubOp .gcc .int8 (⟨1000, by decide⟩ : Num .int32) (⟨1, by decide⟩ : Num .int8)).val ≠
        IntegralType.int8.clamp (1000 - 1) := by
  decide

end MiniChromium
