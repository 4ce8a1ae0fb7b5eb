import MiniChromium.CheckedProduct

/-!
# Clamped integer operations

A clamped operation runs the checked one and falls back to a bound of the result
type chosen in advance. Addition chooses it by the sign of its second operand,
multiplication and division by the signs of both. The results are compared with
the exact ones saturated to the result type.
-/
namespace MiniChromium

open IntegralType MiniChromium.Num

variable {T U V : IntegralType}

/-- `ClampedAddOp<T, U>::Do<V>` without an assembler implementation. -/
def clampedAddOp (tc : Toolchain) (V : IntegralType) (x : Num T) (y : Num U) : Num V :=
  let saturated := commonMaxOrMin V V y.isValueNegative
  let result := checkedAddOp tc V x y 0
  if result.1 then result.2 else saturated

/-- The `static_assert` of `ClampedAddOp`. -/
def ClampedAddOpAdmits (V T U : IntegralType) : Prop :=
  V = maxExponentPromotion T U ∨ U.isTypeInRange V = true

instance (V T U : IntegralType) : Decidable (ClampedAddOpAdmits V T U) :=
  inferInstanceAs (Decidable (_ ∨ _))

/-- `ClampedMulOp<T, U>::Do<V>` without an assembler implementation. -/
def clampedMulOp (tc : Toolchain) (V : IntegralType) (x : Num T) (y : Num U) : Num V :=
  let saturated := commonMaxOrMin V V (x.isValueNegative ^^ y.isValueNegative)
  let result := checkedMulOp tc V x y 0
  if result.1 then result.2 else saturated

/-- `ClampedDivOp<T, U>::Do<V>`. An integer type has a zero for its NaN. -/
def clampedDivOp (V : IntegralType) (x : Num T) (y : Num U) : Num V :=
  let result := checkedDivOp V x y 0
  if result.1 then result.2
  else if x.val ≠ 0 then commonMaxOrMin V V (x.isValueNegative ^^ y.isValueNegative)
  else (saturationDefaultLimits V).nan

/-- `ClampedNumeric<T>`. -/
structure ClampedNumeric (T : IntegralType) where
  value : Num T
  deriving DecidableEq

namespace ClampedNumeric

/-- The constructors; the flag is `IsCompileTimeConstant(value)`. -/
def ofNum (isCompileTimeConstant : Bool) (V : IntegralType) {Src : IntegralType} (value : Num Src) :
    ClampedNumeric V :=
  ⟨saturatedCast isCompileTimeConstant V value⟩

/-- `MathOp`, in its binary and its assignment form; `doOp` is `Math::Do<V>`. -/
def mathOp (isCompileTimeConstant : Bool) (doOp : Num T → Num U → Num V) (lhs : ClampedNumeric T)
    (rhs : ClampedNumeric U) : ClampedNumeric V :=
  ofNum isCompileTimeConstant V (doOp lhs.value rhs.value)

/-- The result already has the type it is stored in. -/
@[simp] theorem value_mathOp (isCompileTimeConstant : Bool) (doOp : Num T → Num U → Num V)
    (lhs : ClampedNumeric T) (rhs : ClampedNumeric U) :
    (mathOp isCompileTimeConstant doOp lhs rhs).value = doOp lhs.value rhs.value :=
  saturatedCast_self isCompileTimeConstant _

end ClampedNumeric

/-- A checked result with a bound to fall back to is saturation exactly when the
fallback is only taken where the exact value is on the side of that bound. -/
theorem saturated_eq_clamp_iff {p : Bool × Num V} {C : Prop} {z : ℤ} (isMin : Bool)
    (h : Computes p (C ∧ V.InRange z) z) :
    (if p.1 then p.2 else commonMaxOrMin V V isMin).val = V.clamp z ↔
      C ∧ V.InRange z ∨ if isMin then z ≤ V.lowest else V.max ≤ z := by
  have hbound : (commonMaxOrMin V V isMin).val = V.clamp z ↔
      if isMin then z ≤ V.lowest else V.max ≤ z := by
    rw [val_commonMaxOrMin_self]
    cases isMin with
    | true => exact eq_comm.trans (BoundedInt.clamp_eq_lo_iff V.lowest_lt_max)
    | false => exact eq_comm.trans (BoundedInt.clamp_eq_hi_iff V.lowest_lt_max)
  by_cases hp : p.1 = true
  · have hC := h.valid_iff.mp hp
    rw [if_pos hp, h.val_eq hp, IntegralType.clamp_of_inRange hC.2]
    exact iff_of_true rfl (.inl hC)
  · rw [if_neg hp, hbound, ← h.valid_iff, or_iff_right hp]

/-- The direction is right where the exact value does not leave the type on the other side, and
a failure for another reason comes only with a value beyond the bound. -/
theorem saturated_in_direction_iff {p : Bool × Num V} {C : Prop} {z : ℤ} (isMin : Bool)
    (h : Computes p (C ∧ V.InRange z) z) :
    (if p.1 then p.2 else commonMaxOrMin V V isMin).val = V.clamp z ↔
      (isMin = true → z ≤ V.max) ∧ (isMin = false → V.lowest ≤ z) ∧
        (C ∨ if isMin then z ≤ V.lowest else V.max ≤ z) := by
  have hm := V.lowest_lt_max
  rw [saturated_eq_clamp_iff isMin h, IntegralType.InRange]
  by_cases hC : C
  · simp only [hC, true_and, true_or, and_true]
    cases isMin <;> simp <;> omega
  · simp only [hC, false_and, false_or]
    cases isMin <;> simp <;> omega

/-- The sum does not leave the result type on the side opposite to the sign of
`y`, and on the portable path an operand that does not fit the promotion type
comes only with a sum beyond the bound on the side of that sign. -/
def ClampedAddSafe (tc : Toolchain) (V : IntegralType) (x : Num T) (y : Num U) : Prop :=
  (y.val < 0 → x.val + y.val ≤ V.max) ∧ (0 ≤ y.val → V.lowest ≤ x.val + y.val) ∧
    ((tc.checkedAddFastOpIsSupported = true ∨ OperandsFit (wordPromotion T U) x y) ∨
      if y.val < 0 then x.val + y.val ≤ V.lowest else V.max ≤ x.val + y.val)

instance (tc : Toolchain) (V : IntegralType) (x : Num T) (y : Num U) :
    Decidable (ClampedAddSafe tc V x y) :=
  inferInstanceAs (Decidable (_ ∧ _ ∧ _))

theorem val_clampedAddOp_iff (tc : Toolchain) (hV : ClampedAddOpAdmits V T U) (x : Num T)
    (y : Num U) :
    (clampedAddOp tc V x y).val = V.clamp (x.val + y.val) ↔ ClampedAddSafe tc V x y := by
  have hsat := saturated_in_direction_iff y.isValueNegative
    (checkedAddOp_computes tc (hV.imp id .inr) x y 0)
  rw [clampedAddOp, hsat, ClampedAddSafe]
  simp only [← Bool.not_eq_true, isValueNegative_iff, not_lt]

/-- Clamped addition is exact saturation exactly when the direction chosen by the
sign of `y` is the right one. -/
theorem clampedAddOp_eq_clamp_iff (tc : Toolchain) (hV : ClampedAddOpAdmits V T U) (x : Num T)
    (y : Num U) :
    (clampedAddOp tc V x y).val = V.clamp (x.val + y.val) ↔ ClampedAddSafe tc V x y :=
  val_clampedAddOp_iff tc hV x y

/-- The hypothesis holds of 8-bit operands, and a sum above the maximum saturates. -/
theorem clampedAddOp_eq_clamp_int8 :
    (clampedAddOp .other .int8 (⟨100, by decide⟩ : Num .int8) (⟨100, by decide⟩ : Num .int8)).val =
      IntegralType.int8.clamp (100 + 100) :=
  (clampedAddOp_eq_clamp_iff .other (.inl rfl) _ _).mpr (by decide)

/-- The sum of a negative `int8_t` and a positive `uint8_t` is below the range of
the result type, and saturates to its maximum. -/
theorem clampedAddOp_saturates_upwards :
    ClampedAddOpAdmits .uint8 .int8 .uint8 ∧
      (clampedAddOp .gcc .uint8 (⟨-5, by decide⟩ : Num .int8) (⟨3, by decide⟩ : Num .uint8)).val ≠
        IntegralType.uint8.clamp (-5 + 3) := by
  decide

/-- A compound assignment to a signed number, below zero, from a positive 64-bit
unsigned one. -/
def SignedByWord (V : IntegralType) (x : Num T) (y : Num U) : Prop :=
  T.isSigned = true ∧ U = .uint64 ∧ V = T ∧ x.val < 0 ∧ 0 < y.val

instance (V : IntegralType) (x : Num T) (y : Num U) : Decidable (SignedByWord V x y) :=
  inferInstanceAs (Decidable (_ ∧ _ ∧ _ ∧ _ ∧ _))

/-- The exclusive or of two sign tests. -/
theorem isValueNegative_xor_iff (x : Num T) (y : Num U) :
    (x.isValueNegative ^^ y.isValueNegative) = true ↔ (x.val < 0 ↔ ¬y.val < 0) := by
  rw [Bool.xor_iff_ne, ne_eq, Bool.eq_iff_iff, isValueNegative_iff, isValueNegative_iff]
  tauto

/-- A fallback chosen by the signs of both operands goes wrong in one case only:
the operation gives up on operands that no promotion type covers, while the exact
result lies above the minimum of a signed result type. -/
theorem saturated_by_signs_iff {p : Bool × Num V} {C : Prop} {z : ℤ} (x : Num T) (y : Num U)
    (hV : V = maxExponentPromotion T U ∨ V = T) (hp : Computes p (C ∧ V.InRange z) z)
    (hneg : (x.val < 0 ↔ ¬y.val < 0) → z ≤ 0) (hpos : ¬(x.val < 0 ↔ ¬y.val < 0) → 0 ≤ z)
    (hmix : ¬C → MixedSignWord x y ∧ x.val ≠ 0 ∧ y.val ≠ 0) :
    (if p.1 then p.2 else commonMaxOrMin V V (x.isValueNegative ^^ y.isValueNegative)).val =
        V.clamp z ↔ ¬(¬C ∧ SignedByWord V x y ∧ V.lowest < z) := by
  have hl := V.lowest_nonpos
  have hm := V.max_pos
  rw [saturated_eq_clamp_iff _ hp, IntegralType.InRange]
  simp only [isValueNegative_xor_iff]
  by_cases hC : C
  · -- The operands are accepted, so only a result out of range falls back.
    simp only [hC, true_and, not_true_eq_false, false_and, not_false_eq_true, iff_true]
    split_ifs with hs
    · have hz := hneg hs
      omega
    · have hz := hpos hs
      omega
  · obtain ⟨hmixed, hx0, hy0⟩ := hmix hC
    have hopp : x.val < 0 ↔ ¬y.val < 0 := by
      rcases hmixed with ⟨_, rfl, hx⟩ | ⟨rfl, _, hy⟩
      · have := y.nonneg rfl
        omega
      · have := x.nonneg rfl
        omega
    have hz := hneg hopp
    simp only [hC, false_and, false_or, not_false_eq_true, true_and, hopp, if_true, not_and, not_lt]
    refine ⟨fun h _ => h, fun h => ?_⟩
    rcases hmixed with ⟨hT, rfl, hx⟩ | ⟨rfl, hU, hy⟩
    · by_cases hVT : V = T
      · exact h ⟨hT, rfl, hVT, hx, lt_of_le_of_ne (y.nonneg rfl) (Ne.symm hy0)⟩
      · have h0 : ∀ T : IntegralType, T.isSigned = true →
            (maxExponentPromotion T .uint64).lowest = 0 := by decide
        rw [hV.resolve_right hVT, h0 T hT]
        exact hz
    · have h0 : ∀ U : IntegralType, U.isSigned = true →
          (maxExponentPromotion .uint64 U).lowest = 0 := by decide
      rcases hV with rfl | rfl
      · rw [h0 U hU]; exact hz
      · exact hz

/-- The product that the signs announce. -/
theorem mul_signs (a b : ℤ) :
    ((a < 0 ↔ ¬b < 0) → a * b ≤ 0) ∧ (¬(a < 0 ↔ ¬b < 0) → 0 ≤ a * b) := by
  rcases lt_or_ge a 0 with ha | ha <;> rcases lt_or_ge b 0 with hb | hb
  · have := mul_pos_of_neg_of_neg ha hb
    constructor <;> intro <;> omega
  · have := mul_nonpos_of_nonpos_of_nonneg ha.le hb
    constructor <;> intro <;> omega
  · have := mul_nonpos_of_nonneg_of_nonpos ha hb.le
    constructor <;> intro <;> omega
  · have := mul_nonneg ha hb
    constructor <;> intro <;> omega

/-- The quotient has the sign of the product. -/
theorem tdiv_signs (a b : ℤ) :
    ((a < 0 ↔ ¬b < 0) → a.tdiv b ≤ 0) ∧ (¬(a < 0 ↔ ¬b < 0) → 0 ≤ a.tdiv b) := by
  rcases lt_or_ge a 0 with ha | ha <;> rcases lt_or_ge b 0 with hb | hb
  · have := Int.tdiv_nonneg_of_nonpos_of_nonpos ha.le hb.le
    constructor <;> intro <;> omega
  · have := Int.tdiv_nonneg (show 0 ≤ -a by omega) hb
    rw [Int.neg_tdiv] at this
    constructor <;> intro <;> omega
  · have := Int.tdiv_nonpos_of_nonneg_of_nonpos ha hb.le
    constructor <;> intro <;> omega
  · have := Int.tdiv_nonneg ha hb
    constructor <;> intro <;> omega

theorem clampedMulOp_eq_clamp (tc : Toolchain) (hV : V = maxExponentPromotion T U ∨ V = T)
    (x : Num T) (y : Num U) :
    (clampedMulOp tc V x y).val = V.clamp (x.val * y.val) ↔
      ¬(tc.checkedMulFastOpIsSupported T U = false ∧ SignedByWord V x y ∧
        V.lowest < x.val * y.val) := by
  obtain ⟨hneg, hpos⟩ := mul_signs x.val y.val
  have hfit := operandsFit_iff_not_mixed x y (.inl rfl)
  unfold clampedMulOp
  rw [saturated_by_signs_iff x y hV (checkedMulOp_computes tc (hV.imp id .inl) x y 0) hneg hpos]
  · rw [not_iff_not, hfit, ← Bool.not_eq_true]
    refine ⟨fun ⟨h, hw⟩ => ⟨fun hs => h (.inl hs), hw⟩, fun ⟨h, hw⟩ => ⟨?_, hw⟩⟩
    obtain ⟨hT, hU, -, hx, hy⟩ := hw.1
    rintro (hs | hnot | h0 | h0)
    · exact h hs
    · exact hnot (.inl ⟨hT, hU, hx⟩)
    · omega
    · omega
  · intro h
    simp only [not_or, hfit, not_not] at h
    exact h.2

/-- The exact quotient, saturated; what a division by zero yields depends on the
sign of the dividend. -/
def clampedQuotient (V : IntegralType) (x y : ℤ) : ℤ :=
  if y = 0 then if 0 < x then V.max else if x < 0 then V.lowest else 0
  else V.clamp (x.tdiv y)

theorem clampedDivOp_eq_clampedQuotient (hV : V = maxExponentPromotion T U ∨ V = T)
    (x : Num T) (y : Num U) :
    (clampedDivOp V x y).val = clampedQuotient V x.val y.val ↔
      ¬(SignedByWord V x y ∧ V.lowest < x.val.tdiv y.val) := by
  have hc := checkedDivOp_computes hV x y 0
  unfold clampedDivOp clampedQuotient
  by_cases hy : y.val = 0
  · have hinv : (checkedDivOp V x y 0).1 = false := by
      rw [← Bool.not_eq_true, hc.valid_iff]
      exact fun h => h.1 hy
    have hrhs : ¬(SignedByWord V x y ∧ V.lowest < x.val.tdiv y.val) := fun h => by
      have := h.1.2.2.2.2
      omega
    have hyn : y.isValueNegative = false := by rw [← Bool.not_eq_true, isValueNegative_iff]; omega
    refine iff_of_true ?_ hrhs
    simp only [hinv, Bool.false_eq_true, if_false, hy, if_true, hyn, Bool.xor_false]
    split_ifs with hx0 hpos hneg hpos hneg
    · rw [val_commonMaxOrMin_self, if_neg (by rw [isValueNegative_iff]; omega)]
    · rw [val_commonMaxOrMin_self, if_pos ((isValueNegative_iff x).mpr hneg)]
    · exact absurd (by omega) hx0
    · omega
    · omega
    · rfl
  rw [if_neg hy]
  by_cases hx : x.val = 0
  · have hvalid : (checkedDivOp V x y 0).1 = true :=
      hc.valid_iff.mpr ⟨hy, .inr hx, by simpa [hx] using V.inRange_zero⟩
    have hval := hc.val_eq hvalid
    have hz := V.clamp_of_inRange V.inRange_zero
    refine iff_of_true ?_ fun h => by have := h.1.2.2.2.1; omega
    rw [if_pos hvalid, hval, hx, Int.zero_tdiv, hz]
  · obtain ⟨hneg, hpos⟩ := tdiv_signs x.val y.val
    have hfit := operandsFit_iff_not_mixed x y (.inr rfl)
    have hp : Computes (checkedDivOp V x y 0)
        (OperandsFit (bigEnoughPromotion T U) x y ∧ V.InRange (x.val.tdiv y.val)) _ :=
      hc.congr_left (by simp [hx, hy])
    rw [if_pos hx, saturated_by_signs_iff x y hV hp hneg hpos, not_iff_not, hfit, not_not]
    · exact and_iff_right_of_imp fun h => .inl ⟨h.1.1, h.1.2.1, h.1.2.2.2.1⟩
    · exact fun h => ⟨not_not.mp (mt hfit.mpr h), hx, hy⟩

/-- Clamped products and quotients, in the binary operators and in the compound
assignments, are exact except when a 64-bit unsigned number is combined into a
negative signed one. -/
theorem clampedNumeric_mul_div (tc : Toolchain) (isCompileTimeConstant : Bool)
    (hV : V = maxExponentPromotion T U ∨ V = T) (lhs : ClampedNumeric T) (rhs : ClampedNumeric U) :
    ((ClampedNumeric.mathOp isCompileTimeConstant (clampedMulOp tc V) lhs rhs).value.val =
        V.clamp (lhs.value.val * rhs.value.val) ↔
      ¬(tc.checkedMulFastOpIsSupported T U = false ∧ SignedByWord V lhs.value rhs.value ∧
        V.lowest < lhs.value.val * rhs.value.val)) ∧
    ((ClampedNumeric.mathOp isCompileTimeConstant (clampedDivOp V) lhs rhs).value.val =
        clampedQuotient V lhs.value.val rhs.value.val ↔
      ¬(SignedByWord V lhs.value rhs.value ∧ V.lowest < lhs.value.val.tdiv rhs.value.val)) := by
  rw [ClampedNumeric.value_mathOp, ClampedNumeric.value_mathOp]
  exact ⟨clampedMulOp_eq_clamp tc hV _ _, clampedDivOp_eq_clampedQuotient hV _ _⟩

/-- The hypothesis holds of 8-bit operands: a product and a quotient by zero saturate. -/
theorem clampedNumeric_mul_div_int8 :
    (ClampedNumeric.mathOp false (clampedMulOp .clang .int8)
        ⟨(⟨-100, by decide⟩ : Num .int8)⟩ ⟨(⟨100, by decide⟩ : Num .int8)⟩).value.val = -128 ∧
      (ClampedNumeric.mathOp true (clampedDivOp .int8)
        ⟨(⟨-100, by decide⟩ : Num .int8)⟩ ⟨(⟨0, by decide⟩ : Num .int8)⟩).value.val = -128 :=
  ⟨(clampedNumeric_mul_div .clang false (.inl rfl) _ _).1.mpr (by decide),
    (clampedNumeric_mul_div .clang true (.inl rfl) _ _).2.mpr (by decide)⟩

/-- `ClampedNumeric<int64_t>(-1) *= uint64_t(5)` and the quotient of the same
operands saturate to the minimum. -/
theorem clampedNumeric_mul_div_word :
    (ClampedNumeric.mathOp false (clampedMulOp .clang .int64)
        ⟨(⟨-1, by decide⟩ : Num .int64)⟩ ⟨(⟨5, by decide⟩ : Num .uint64)⟩).value.val ≠
      IntegralType.int64.clamp (-1 * 5) ∧
      (ClampedNumeric.mathOp false (clampedDivOp .int64)
        ⟨(⟨-10, by decide⟩ : Num .int64)⟩ ⟨(⟨3, by decide⟩ : Num .uint64)⟩).value.val ≠
      clampedQuotient .int64 (-10) 3 := by
  decide

end MiniChromium
