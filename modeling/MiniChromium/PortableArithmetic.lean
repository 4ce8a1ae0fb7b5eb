import MiniChromium.CheckedProduct

/-!
# The portable bodies beside the builtins

Without a builtin, `CheckedAddOp`, `CheckedSubOp` and `CheckedMulOp` work in a
promotion type and fail where it does not hold an operand or the result. Beside the
builtins, which look at the result alone, this shows for a signed type mixed with
`uint64_t`, and nowhere else.
-/
namespace MiniChromium

open IntegralType MiniChromium.Num

variable {T U V : IntegralType}

/-- A difference below zero of a signed and a 64-bit unsigned operand. -/
def MixedSignDifference (x : Num T) (y : Num U) : Prop :=
  (T.isSigned = true ∧ U = .uint64 ∧ x.val < y.val) ∨
    (T = .uint64 ∧ U.isSigned = true ∧ y.val < 0)

/-- One implementation against another: valid where the other is and `C` holds, and
then with the same value. -/
structure Restricts (p q : Bool × Num V) (C : Prop) : Prop where
  valid_iff : p.1 = true ↔ q.1 = true ∧ C
  value_eq : p.1 = true → p.2 = q.2

theorem Computes.restricts {p q : Bool × Num V} {A B C : Prop} {z : ℤ} (hp : Computes p A z)
    (hq : Computes q B z) (h : A ↔ B ∧ C) : Restricts p q C := by
  have hvalid : p.1 = true ↔ q.1 = true ∧ C := by rw [hp.valid_iff, hq.valid_iff, h]
  refine ⟨hvalid, fun hv => Num.ext ?_⟩
  rw [hp.val_eq hv, hq.val_eq (hvalid.mp hv).1]

/-- A difference that fits the destination fits an unsigned promotion type unless it is
negative, and a signed one always. -/
theorem inRange_difference_iff (hV : V = maxExponentPromotion T U ∨ V = T) (x : Num T) (y : Num U)
    (hz : V.InRange (x.val - y.val)) :
    (fastIntegerArithmeticPromotion T U).InRange (x.val - y.val) ↔
      ((fastIntegerArithmeticPromotion T U).isSigned = false → y.val ≤ x.val) := by
  constructor
  · intro hin hP
    have h0 := hin.1
    rw [IntegralType.lowest_of_unsigned hP] at h0
    omega
  · intro h
    exact inRange_promotion (hV.imp_right .inl) hz fun hP => sub_nonneg.mpr (h hP)

/-- The promotion type holds the operands and the difference unless signs are mixed. -/
theorem fit_difference_iff (hV : V = maxExponentPromotion T U ∨ V = T) (x : Num T) (y : Num U)
    (hz : V.InRange (x.val - y.val)) :
    OperandsFit (wordPromotion T U) x y ∧ (wordPromotion T U).InRange (x.val - y.val) ↔
      ¬MixedSignDifference x y := by
  have hcases : ∀ V T U : IntegralType, V = maxExponentPromotion T U ∨ V = T →
      ((fastIntegerArithmeticPromotion T U).isSigned = true →
        ¬(T.isSigned = true ∧ U = .uint64) ∧ ¬(T = .uint64 ∧ U.isSigned = true)) ∧
      ((fastIntegerArithmeticPromotion T U).isSigned = false →
        (T.isSigned = true → U = .uint64) ∧ (T.isSigned = false → V.isSigned = false)) := by decide
  obtain ⟨hsigned, hunsigned⟩ := hcases V T U hV
  rw [wordPromotion_eq, operandsFit_iff_not_mixed x y (.inl rfl), inRange_difference_iff hV x y hz]
  unfold MixedSignWord MixedSignDifference
  cases hP : (fastIntegerArithmeticPromotion T U).isSigned with
  | true =>
    obtain ⟨hTU, hUT⟩ := hsigned hP
    exact iff_of_true ⟨by tauto, by simp⟩ (by tauto)
  | false =>
    obtain ⟨hU, hVs⟩ := hunsigned hP
    cases hT : T.isSigned with
    | true =>
      obtain rfl := hU hT
      have hy := y.nonneg rfl
      have hne : T ≠ .uint64 := fun h => by rw [h] at hT; cases hT
      simp only [hne, true_and, false_and, or_false, forall_const]
      omega
    | false =>
      -- The destination is unsigned as well, so the difference is not negative.
      have hz0 := hz.1
      rw [IntegralType.lowest_of_unsigned (hVs hT)] at hz0
      simp only [Bool.false_eq_true, false_and, false_or, forall_const]
      exact and_iff_left (by omega)

/-- A portable operation is valid exactly where the builtin one is and the promotion
type suffices, and then stores the same value. -/
theorem checkedOps_portable (tc : Toolchain) (hV : V = maxExponentPromotion T U ∨ V = T)
    (x : Num T) (y : Num U) (result : Num V) :
    (tc.checkedAddFastOpIsSupported = false →
      Restricts (checkedAddOp tc V x y result) (checkedAddOp .gcc V x y result)
        (¬MixedSignWord x y)) ∧
    (tc.checkedSubFastOpIsSupported = false →
      Restricts (checkedSubOp tc V x y result) (checkedSubOp .gcc V x y result)
        (¬MixedSignDifference x y)) ∧
    (tc.checkedMulFastOpIsSupported T U = false →
      Restricts (checkedMulOp tc V x y result) (checkedMulOp .gcc V x y result)
        (¬(MixedSignWord x y ∧ x.val ≠ 0 ∧ y.val ≠ 0))) := by
  have hdest : Destination V T U := hV.imp_right .inl
  refine ⟨fun htc => ?_, fun htc => ?_, fun htc => ?_⟩
  · refine (checkedAddOp_computes tc hdest x y result).restricts (checkedFastOp_computes V _) ?_
    rw [wordPromotion_eq, operandsFit_iff_not_mixed x y (.inl rfl)]
    simp only [htc, Bool.false_eq_true, false_or]
    exact and_comm
  · refine (checkedSubOp_computes tc hV x y result).restricts (checkedFastOp_computes V _) ?_
    simp only [htc, Bool.false_eq_true, false_or]
    rw [and_comm]
    exact and_congr_right fun hz => fit_difference_iff hV x y hz
  · refine (checkedMulOp_computes tc hdest x y result).restricts (checkedFastOp_computes V _) ?_
    rw [operandsFit_iff_not_mixed x y (.inl rfl)]
    simp only [htc, Bool.false_eq_true, false_or]
    tauto

/-- Signed operands are never mixed: both implementations store 2, -8 and -15. -/
theorem checkedOps_portable_int32 :
    (checkedAddOp .other .int32 (⟨-3, by decide⟩ : Num .int32) (⟨5, by decide⟩ : Num .int32) 0).2 =
      (checkedAddOp .gcc .int32 (⟨-3, by decide⟩ : Num .int32) (⟨5, by decide⟩ : Num .int32) 0).2 ∧
    (checkedSubOp .other .int32 (⟨-3, by decide⟩ : Num .int32) (⟨5, by decide⟩ : Num .int32) 0).2 =
      (checkedSubOp .gcc .int32 (⟨-3, by decide⟩ : Num .int32) (⟨5, by decide⟩ : Num .int32) 0).2 ∧
    (checkedMulOp .other .int32 (⟨-3, by decide⟩ : Num .int32) (⟨5, by decide⟩ : Num .int32) 0).2 =
      (checkedMulOp .gcc .int32 (⟨-3, by decide⟩ : Num .int32) (⟨5, by decide⟩ : Num .int32) 0).2 :=
  have h := checkedOps_portable .other (.inl rfl) (⟨-3, by decide⟩ : Num .int32)
    (⟨5, by decide⟩ : Num .int32) 0
  ⟨(h.1 rfl).value_eq (by decide), (h.2.1 rfl).value_eq (by decide),
    (h.2.2 rfl).value_eq (by decide)⟩

/-- `int64_t(-1) + uint64_t(5)` is 4 with the builtin and invalid without, and so are
`5 -= uint64_t(10)` and `-1 *= uint64_t(5)` on an `int64_t`. -/
theorem checkedOps_portable_differ :
    ((checkedAddOp .other .uint64 (⟨-1, by decide⟩ : Num .int64) (⟨5, by decide⟩ : Num .uint64)
        0).1 = false ∧
      checkedAddOp .gcc .uint64 (⟨-1, by decide⟩ : Num .int64) (⟨5, by decide⟩ : Num .uint64) 0 =
        (true, ⟨4, by decide⟩)) ∧
    ((checkedSubOp .other .int64 (⟨5, by decide⟩ : Num .int64) (⟨10, by decide⟩ : Num .uint64)
        0).1 = false ∧
      checkedSubOp .gcc .int64 (⟨5, by decide⟩ : Num .int64) (⟨10, by decide⟩ : Num .uint64) 0 =
        (true, ⟨-5, by decide⟩)) ∧
    (checkedMulOp .other .int64 (⟨-1, by decide⟩ : Num .int64) (⟨5, by decide⟩ : Num .uint64)
        0).1 = false ∧
      checkedMulOp .gcc .int64 (⟨-1, by decide⟩ : Num .int64) (⟨5, by decide⟩ : Num .uint64) 0 =
        (true, ⟨-5, by decide⟩) := by
  decide

end MiniChromium
