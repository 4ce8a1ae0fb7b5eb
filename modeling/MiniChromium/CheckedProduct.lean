import MiniChromium.CheckedSum
import Mathlib.Tactic.Positivity

/-!
# Checked multiplication, division, shifts and extrema are exact

The multiplication is checked on absolute values. Division can only overflow at
the minimum divided by minus one. The shifts and the extrema have no portable
fallback.
-/
namespace MiniChromium

open IntegralType MiniChromium.Num

variable {T U P V : IntegralType}

namespace Num

/-- A bound on the absolute value, by the type alone. -/
theorem abs_val_le (x : Num T) : |x.val| ≤ max (-T.lowest) T.max := by
  have hl := x.lowest_le
  have hu := x.le_max
  rw [abs_le]
  omega

theorem signBit_of_signed (x : Num T) (h : T.isSigned = true) :
    x.signBit = true ↔ x.val < 0 := by
  have hs : T.makeSigned = T := by cases T <;> first | rfl | cases h
  rw [← staticCast_makeSigned_neg_iff, hs, staticCast_self]

end Num

/-- The sign of a product, from the sign bit of the exclusive or. -/
theorem isNegative_iff (x y : Num P) (h : P.isSigned = true) :
    (staticCast P.makeSigned (bitXor x y).val).val < 0 ↔ (x.val < 0 ↔ ¬y.val < 0) := by
  rw [staticCast_makeSigned_neg_iff, signBit_bitXor, bne_iff_ne, ne_eq, Bool.eq_iff_iff,
    signBit_of_signed x h, signBit_of_signed y h]
  tauto

/-- What the flag of `checkedMulImpl` stands for. -/
def IsNegativeProduct (x y : Num P) (isNegative : Bool) : Prop :=
  isNegative = true ↔ P.isSigned = true ∧ (x.val < 0 ↔ ¬y.val < 0)

/-- The product is the product of the absolute values, up to the sign. -/
theorem mul_eq_abs (x y : Num P) {isNegative : Bool} (h : IsNegativeProduct x y isNegative) :
    x.val * y.val = if isNegative then -(|x.val| * |y.val|) else |x.val| * |y.val| := by
  rw [← abs_mul]
  have hneg : isNegative = true → x.val * y.val ≤ 0 := by
    intro hn
    have hxy := (h.mp hn).2
    rcases lt_or_ge x.val 0 with hx | hx
    · exact mul_nonpos_of_nonpos_of_nonneg hx.le (not_lt.mp (hxy.mp hx))
    · exact mul_nonpos_of_nonneg_of_nonpos hx (by omega)
  have hpos : isNegative = false → 0 ≤ x.val * y.val := by
    intro hn
    cases hP : P.isSigned with
    | false => exact mul_nonneg (x.nonneg hP) (y.nonneg hP)
    | true =>
      have hxy : ¬(x.val < 0 ↔ ¬y.val < 0) := fun h' => by simp [h.mpr ⟨hP, h'⟩] at hn
      rcases lt_or_ge x.val 0 with hx | hx
      · exact mul_nonneg_of_nonpos_of_nonpos hx.le (by omega)
      · exact mul_nonneg hx (by omega)
  cases isNegative with
  | true => rw [if_pos rfl, abs_of_nonpos (hneg rfl), neg_neg]
  | false => rw [if_neg Bool.false_ne_true, abs_of_nonneg (hpos rfl)]

/-- One more value is allowed for a negative product. -/
theorem inRange_mul_iff (x y : Num P) {isNegative : Bool} (h : IsNegativeProduct x y isNegative) :
    P.InRange (x.val * y.val) ↔
      |x.val| * |y.val| ≤ P.max + if isNegative then 1 else 0 := by
  have hl := P.lowest_nonpos
  have hm := P.max_pos
  have hxy := mul_nonneg (abs_nonneg x.val) (abs_nonneg y.val)
  rw [mul_eq_abs x y h, IntegralType.InRange]
  cases isNegative with
  | true =>
    have hs := IntegralType.lowest_of_signed (h.mp rfl).1
    simp only [if_true]
    omega
  | false =>
    simp only [Bool.false_eq_true, if_false]
    omega

/-- The test of `checkedMulImpl`: a division, unless the divisor is trivial. -/
theorem mulTest_iff (a b bound trivial : ℤ) (hb : 0 ≤ b) (hbound : 0 ≤ bound)
    (h0 : 0 ≤ trivial) (h1 : trivial ≤ 1) (hab : b = 1 → trivial = 1 → a ≤ bound) :
    (b ≤ trivial ∨ a ≤ bound / b) ↔ a * b ≤ bound := by
  rcases eq_or_lt_of_le hb with rfl | hpos
  · simp [h0, hbound]
  rw [Int.le_ediv_iff_mul_le hpos, or_iff_right_iff_imp]
  intro hle
  obtain rfl : b = 1 := by omega
  rw [mul_one]
  exact hab rfl (by omega)

theorem checkedMulImpl_eq (x y : Num P) :
    checkedMulImpl x y = (decide (P.InRange (x.val * y.val)), staticCast P (x.val * y.val)) := by
  unfold checkedMulImpl
  simp only [val_safeUnsignedAbs]
  generalize hn : (P.isSigned && decide ((staticCast P.makeSigned (bitXor x y).val).val < 0)) =
    isNegative
  have hneg : IsNegativeProduct x y isNegative := by
    rw [IsNegativeProduct, ← hn, Bool.and_eq_true, decide_eq_true_iff]
    exact and_congr_right fun h => isNegative_iff x y h
  have hm := P.max_pos
  have hx := x.abs_val_le
  have hvalid := mulTest_iff |x.val| |y.val| (P.max + if isNegative then 1 else 0)
    (if !P.isSigned || isNegative then 1 else 0) (abs_nonneg y.val)
    (by split_ifs <;> omega) (by split_ifs <;> omega) (by split_ifs <;> omega) ?_
  · have hr : (staticCast P.makeUnsigned (|x.val| * |y.val|)).val ≡ |x.val| * |y.val|
        [ZMOD P.modulus] := staticCast_makeUnsigned_modEq P _
    refine Prod.ext ?_ (staticCast_congr ?_)
    · rw [← Bool.decide_or, decide_eq_decide, hvalid, inRange_mul_iff x y hneg]
    · rw [mul_eq_abs x y hneg]
      cases isNegative with
      | true => simpa using hr.neg
      | false => simpa using hr
  · intro _ ht
    cases hP : P.isSigned with
    | true =>
      have hl := IntegralType.lowest_of_signed hP
      cases isNegative <;> simp_all
      omega
    | false =>
      have hl := IntegralType.lowest_of_unsigned hP
      split_ifs <;> omega

/-- A product of two values fits a type called safe for their types. -/
theorem inRange_mul_of_safe (x : Num T) (y : Num U)
    (h : isIntegerArithmeticSafe (fastIntegerArithmeticPromotion T U) T U = true) :
    (fastIntegerArithmeticPromotion T U).InRange (x.val * y.val) := by
  have hsafe : ∀ T U : IntegralType,
      isIntegerArithmeticSafe (fastIntegerArithmeticPromotion T U) T U = true →
        max (-T.lowest) T.max * max (-U.lowest) U.max ≤ (fastIntegerArithmeticPromotion T U).max ∧
          ((fastIntegerArithmeticPromotion T U).isSigned = false →
            T.isSigned = false ∧ U.isSigned = false) := by decide
  obtain ⟨hb, hs⟩ := hsafe T U h
  have hx := x.abs_val_le
  have habs : |x.val * y.val| ≤ (fastIntegerArithmeticPromotion T U).max := by
    rw [abs_mul]
    exact (mul_le_mul hx y.abs_val_le (abs_nonneg _) ((abs_nonneg _).trans hx)).trans hb
  obtain ⟨hl, hu⟩ := abs_le.mp habs
  refine ⟨?_, hu⟩
  cases hP : (fastIntegerArithmeticPromotion T U).isSigned with
  | true =>
    have h0 := IntegralType.lowest_of_signed hP
    omega
  | false =>
    obtain ⟨hT, hU⟩ := hs hP
    rw [IntegralType.lowest_of_unsigned hP]
    exact mul_nonneg (x.nonneg hT) (y.nonneg hU)

/-- The guard before a multiplication in the promotion type. -/
theorem mulGuard_eq_false_iff (P : IntegralType) (x : Num T) (y : Num U) :
    ((!isValueInRange P x || !isValueInRange P y) && decide (x.val ≠ 0) &&
      decide (y.val ≠ 0)) = false ↔ OperandsFit P x y ∨ x.val = 0 ∨ y.val = 0 := by
  rw [← operandsFit_iff, Bool.and_eq_false_iff, Bool.and_eq_false_iff, or_assoc]
  simp

/-- The product of the converted operands is the product, also when one is zero. -/
theorem mul_staticCast {P : IntegralType} {x : Num T} {y : Num U}
    (h : OperandsFit P x y ∨ x.val = 0 ∨ y.val = 0) :
    (staticCast P x.val).val * (staticCast P y.val).val = x.val * y.val := by
  rcases h with hfit | h | h
  · rw [staticCast_of_inRange hfit.1, staticCast_of_inRange hfit.2]
  · simp [h]
  · simp [h]

theorem checkedMulOp_computes (tc : Toolchain) (hV : Destination V T U) (x : Num T) (y : Num U)
    (result : Num V) :
    Computes (checkedMulOp tc V x y result)
      ((tc.checkedMulFastOpIsSupported T U = true ∨
          OperandsFit (fastIntegerArithmeticPromotion T U) x y ∨ x.val = 0 ∨ y.val = 0) ∧
        V.InRange (x.val * y.val)) (x.val * y.val) := by
  unfold checkedMulOp
  by_cases htc : tc.checkedMulFastOpIsSupported T U = true
  · rw [if_pos htc]
    exact (checkedFastOp_computes V _).congr_left (by simp [htc])
  rw [if_neg htc]
  set P := fastIntegerArithmeticPromotion T U with hP
  have hguard := mulGuard_eq_false_iff P x y
  by_cases hok : OperandsFit P x y ∨ x.val = 0 ∨ y.val = 0
  · have hin : V.InRange (x.val * y.val) → P.InRange (x.val * y.val) := by
      intro hz
      refine inRange_promotion hV hz fun hs => ?_
      have h0 := IntegralType.lowest_of_unsigned hs
      rcases hok with hfit | h | h
      · exact mul_nonneg (h0 ▸ hfit.1.1) (h0 ▸ hfit.2.1)
      · simp [h]
      · simp [h]
    simp only [hguard.mpr hok, Bool.false_eq_true, if_false, checkedMulImpl_eq, checkedFastOp,
      mul_staticCast hok]
    have hiff : P.InRange (x.val * y.val) ∧ V.InRange (x.val * y.val) ↔
        (tc.checkedMulFastOpIsSupported T U = true ∨ OperandsFit P x y ∨ x.val = 0 ∨ y.val = 0) ∧
          V.InRange (x.val * y.val) :=
      ⟨fun h => ⟨.inr hok, h.2⟩, fun h => ⟨hin h.2, h.2⟩⟩
    refine Computes.congr_left ?_ hiff
    split_ifs with h1 h2
    · exact computes_isValueInRange V _ _ _ (fun h _ => of_decide_eq_true h)
        (fun h => decide_eq_true h) rfl
    · exact computes_isValueInRange V _ _ _ (fun _ _ => inRange_mul_of_safe x y h2)
        (fun _ => rfl) rfl
    · exact computes_isValueInRange V _ _ _ (fun h _ => of_decide_eq_true h)
        (fun h => decide_eq_true h) rfl
  · rw [if_pos (Bool.not_eq_false _ ▸ mt hguard.mp hok)]
    exact Computes.of_eq_false rfl fun h => h.1.elim htc hok

/-- A truncated quotient lies between zero and its dividend, up to the sign. -/
theorem abs_tdiv_le (x y : ℤ) : |x.tdiv y| ≤ |x| := by
  rw [Int.abs_eq_natAbs, Int.abs_eq_natAbs]
  exact_mod_cast Int.natAbs_tdiv_le_natAbs x y

/-- Only the minimum divided by minus one leaves a range. -/
theorem inRange_tdiv {P : IntegralType} {x y : ℤ} (hx : P.InRange x) (hy : P.InRange y)
    (h : P.isSigned = true → ¬(x = P.lowest ∧ y = -1)) : P.InRange (x.tdiv y) := by
  obtain ⟨hl, hu⟩ := abs_le.mp (abs_tdiv_le x y)
  cases hP : P.isSigned with
  | false =>
    have h0 := IntegralType.lowest_of_unsigned hP
    have hx0 : 0 ≤ x := h0 ▸ hx.1
    rw [abs_of_nonneg hx0] at hu
    exact ⟨h0 ▸ Int.tdiv_nonneg hx0 (h0 ▸ hy.1), hu.trans hx.2⟩
  | true =>
    have hs := IntegralType.lowest_of_signed hP
    by_cases hmin : x = P.lowest
    · -- The quotient of the minimum is below its opposite, unless the divisor is minus one.
      have hy1 : y ≠ -1 := fun hy1 => h hP ⟨hmin, hy1⟩
      have hneg : x < 0 := by have := P.max_pos; omega
      rw [abs_of_neg hneg] at hl hu
      refine ⟨by omega, ?_⟩
      rcases lt_or_ge y 0 with hy0 | hy0
      · have hq : x.tdiv y = (-x) / (-y) := by
          rw [← Int.tdiv_eq_ediv_of_nonneg (by omega), Int.neg_tdiv_neg]
        have hlt : (-x) / (-y) < -x := Int.ediv_lt_self_of_pos_of_ne_one (by omega) (by omega)
        omega
      · have hq := Int.tdiv_nonneg (show 0 ≤ -x by omega) hy0
        rw [Int.neg_tdiv] at hq
        have := P.max_pos
        omega
    · have hb : |x| ≤ P.max := by
        have := hx.1
        have := hx.2
        rw [abs_le]
        omega
      exact ⟨by omega, by omega⟩

/-- Signed operands fit their promotion type, and where the first guard of the
division applies, no destination holds the opposite of the minimum. -/
theorem bigEnoughPromotion_signed {V T U : IntegralType} (hT : T.isSigned = true)
    (hU : U.isSigned = true) : (bigEnoughPromotion T U).isTypeInRange T = true ∧
      (T.isTypeInRange (bigEnoughPromotion T U) = true → V = maxExponentPromotion T U ∨ V = T →
        V.max < -(bigEnoughPromotion T U).lowest) := by
  revert V T U; decide

/-- Only with signed operands is the minimum of the promotion type divided by
minus one. -/
theorem bigEnoughPromotion_guard {T U : IntegralType}
    (hP : (bigEnoughPromotion T U).isSigned = true) (hU : U.isSigned = true)
    (hl : T.lowest ≤ (bigEnoughPromotion T U).lowest) :
    T.isSigned = true ∧ T.isTypeInRange (bigEnoughPromotion T U) = true := by
  revert T U; decide

/-- The second guard before a division in the promotion type. -/
theorem divGuard_eq_false_iff (P : IntegralType) (x : Num T) (y : Num U) :
    ((!isValueInRange P x || !isValueInRange P y) && decide (x.val ≠ 0)) = false ↔
      OperandsFit P x y ∨ x.val = 0 := by
  rw [← operandsFit_iff]
  cases (!isValueInRange P x || !isValueInRange P y) <;> simp

theorem staticCast_neg_one (hU : U.isSigned = true) : (staticCast U (-1)).val = -1 := by
  have hmax := U.max_pos
  have hlow := IntegralType.lowest_of_signed hU
  exact staticCast_of_inRange ⟨by omega, by omega⟩

/-- Past the first guard the quotient fits the promotion type. -/
theorem inRange_tdiv_of_guard {x : Num T} {y : Num U}
    (hmin : ¬(T.isSigned = true ∧ U.isSigned = true ∧
      T.isTypeInRange (bigEnoughPromotion T U) = true ∧
      x.val = (bigEnoughPromotion T U).lowest ∧ y.val = -1))
    (hfit : OperandsFit (bigEnoughPromotion T U) x y) :
    (bigEnoughPromotion T U).InRange (x.val.tdiv y.val) := by
  refine inRange_tdiv hfit.1 hfit.2 fun hP ⟨hx, hy⟩ => hmin ?_
  have hU : U.isSigned = true := by
    by_contra hU
    have := y.nonneg (Bool.not_eq_true _ ▸ hU)
    omega
  obtain ⟨hT, hTP⟩ := bigEnoughPromotion_guard hP hU (hx ▸ x.lowest_le)
  exact ⟨hT, hU, hTP, hx, hy⟩

theorem checkedDivOp_computes (hV : V = maxExponentPromotion T U ∨ V = T) (x : Num T) (y : Num U)
    (result : Num V) :
    Computes (checkedDivOp V x y result)
      (y.val ≠ 0 ∧ (OperandsFit (bigEnoughPromotion T U) x y ∨ x.val = 0) ∧
        V.InRange (x.val.tdiv y.val)) (x.val.tdiv y.val) := by
  unfold checkedDivOp
  set P := bigEnoughPromotion T U with hPdef
  have hguard := divGuard_eq_false_iff P x y
  by_cases hy0 : y.val = 0
  · exact Computes.of_eq_false (by simp [hy0]) fun h => h.1 hy0
  simp only [hy0, if_false]
  split_ifs with hmin hfit
  · -- The minimum divided by minus one.
    simp only [Bool.and_eq_true, decide_eq_true_eq] at hmin
    obtain ⟨⟨⟨⟨hT, hU⟩, hTP⟩, hx⟩, hy⟩ := hmin
    obtain ⟨hin, hlt⟩ := bigEnoughPromotion_signed hT hU
    rw [staticCast_of_inRange (x.inRange.of_isTypeInRange hin)] at hx
    rw [staticCast_neg_one hU] at hy
    refine Computes.of_eq_false rfl fun h => ?_
    have hz := h.2.2.2
    rw [hx, hy, Int.tdiv_neg, Int.tdiv_one] at hz
    exact absurd (hlt hTP hV) (not_lt.mpr hz)
  · -- An operand does not fit the promotion type.
    refine Computes.of_eq_false rfl fun h => ?_
    rw [hguard.mpr h.2.1] at hfit
    cases hfit
  · have hok := hguard.mp (Bool.eq_false_iff.mpr hfit)
    have hq : (staticCast P x.val).val.tdiv (staticCast P y.val).val = x.val.tdiv y.val := by
      rcases hok with h | h
      · rw [staticCast_of_inRange h.1, staticCast_of_inRange h.2]
      · simp [h]
    have hin : P.InRange (x.val.tdiv y.val) := by
      rcases hok with h | h
      · refine inRange_tdiv_of_guard ?_ h
        rintro ⟨hT, hU, hTP, hx, hy⟩
        refine hmin ?_
        rw [staticCast_of_inRange h.1, staticCast_neg_one hU]
        simp [hT, hU, hTP, hx, hy, hPdef]
      · simpa [h] using P.inRange_zero
    rw [hq]
    exact (computes_of_inRange V hin).congr_left ⟨fun h => ⟨hy0, hok, h⟩, fun h => h.2.2⟩

/-- A shift count that passes the unsigned comparison is not negative. -/
theorem shift_nonneg (shift : Num U) {n : ℕ} (hn : n ≤ 64) (h : shift.asUnsigned.val ≤ n) :
    0 ≤ shift.val ∧ shift.asUnsigned.val = shift.val := by
  have hb : 64 < U.lowest + U.modulus := by cases U <;> decide
  have hl := shift.lowest_le
  rcases asUnsigned_cases shift with ⟨h0, hv, _⟩ | ⟨_, hv, _⟩
  · exact ⟨h0, hv⟩
  · omega

/-- A shift can be reversed exactly when no significant bit was lost. -/
theorem lsh_reversible (x : Num T) {s : ℕ} (hs : s < T.digits) :
    (staticCast T (x.val * 2 ^ s)).val >>> s = x.val ↔ T.InRange (x.val * 2 ^ s) := by
  have hp : (0 : ℤ) < 2 ^ s := by positivity
  rw [Int.shiftRight_eq_div_pow]
  constructor
  · intro h
    push_cast at h
    -- The stored value is the product plus a remainder, which the modulus divides.
    have hmod := Int.ModEq.dvd (staticCast_modEq T (x.val * 2 ^ s))
    have hdm := Int.mul_ediv_add_emod (staticCast T (x.val * 2 ^ s)).val (2 ^ s)
    have hr0 := Int.emod_nonneg (staticCast T (x.val * 2 ^ s)).val hp.ne'
    have hr1 := Int.emod_lt_of_pos (staticCast T (x.val * 2 ^ s)).val hp
    have hbig : (2 : ℤ) ^ s < T.modulus := by
      have hd : T.digits ≤ T.integerBitsPlusSign := by cases T <;> decide
      have := Nat.pow_lt_pow_right (show 1 < 2 by omega) (hs.trans_le hd)
      unfold modulus
      exact_mod_cast this
    rw [h, mul_comm (2 ^ s : ℤ)] at hdm
    have hz : (staticCast T (x.val * 2 ^ s)).val % 2 ^ s = 0 := by
      refine Int.eq_zero_of_dvd_of_nonneg_of_lt hr0 (hr1.trans hbig) ?_
      have heq : (staticCast T (x.val * 2 ^ s)).val % 2 ^ s =
          -(x.val * 2 ^ s - (staticCast T (x.val * 2 ^ s)).val) := by omega
      exact heq ▸ hmod.neg_right
    rw [hz, add_zero] at hdm
    exact hdm ▸ (staticCast T (x.val * 2 ^ s)).inRange
  · intro h
    rw [staticCast_of_inRange h]
    push_cast
    exact Int.mul_ediv_cancel _ hp.ne'

/-- The shift of the unsigned value stores the product, whatever its sign. -/
theorem staticCast_lsh (x : Num T) (s : ℕ) :
    staticCast T (staticCast T.makeUnsigned.promoted (x.asUnsigned.val * 2 ^ s)).val =
      staticCast T (x.val * 2 ^ s) := by
  have hdvd : T.modulus ∣ T.makeUnsigned.promoted.modulus := by cases T <;> decide
  exact staticCast_congr
    (((staticCast_modEq _ _).of_dvd hdvd).trans (x.asUnsigned_modEq.mul_right _))

/-- `x << shift`, with the one full-width shift of a signed zero. -/
theorem checkedLshOp_computes (x : Num T) (shift : Num U) :
    Computes (checkedLshOp T x shift 0)
      (0 ≤ x.val ∧ 0 ≤ shift.val ∧ T.InRange (x.val * 2 ^ shift.val.toNat) ∧
        (shift.val < T.digits ∨ T.isSigned = true ∧ x.val = 0 ∧ shift.val = T.digits))
      (x.val * 2 ^ shift.val.toNat) := by
  have hd : T.digits ≤ 64 := by cases T <;> decide
  unfold checkedLshOp
  by_cases hin : (!x.isValueNegative && decide (shift.asUnsigned.val < T.digits)) = true
  · rw [if_pos hin]
    simp only [Bool.and_eq_true, Bool.not_eq_true', ← Bool.not_eq_true, isValueNegative_iff, not_lt,
      decide_eq_true_eq] at hin
    obtain ⟨h0, hlt⟩ := hin
    obtain ⟨hs0, hs⟩ := shift_nonneg shift hd hlt.le
    have hlt' : shift.val.toNat < T.digits := by omega
    have hrev := lsh_reversible x hlt'
    simp only [staticCast_lsh]
    refine ⟨?_, fun h => ?_⟩
    · rw [decide_eq_true_iff, hrev]
      exact ⟨fun h => ⟨h0, hs0, h, .inl (by omega)⟩, fun h => h.2.2.1⟩
    · exact staticCast_of_inRange (hrev.mp (of_decide_eq_true h))
  · rw [if_neg hin]
    simp only [Bool.and_eq_true, Bool.not_eq_true', ← Bool.not_eq_true, isValueNegative_iff, not_lt,
      decide_eq_true_eq, not_and] at hin
    refine ⟨?_, fun h => ?_⟩
    · simp only [Bool.and_eq_true, decide_eq_true_eq]
      constructor
      · rintro ⟨⟨hT, hx⟩, hs⟩
        obtain ⟨hs0, hsv⟩ := shift_nonneg shift hd hs.le
        exact ⟨hx.ge, hs0, by simpa [hx] using T.inRange_zero, .inr ⟨hT, hx, by omega⟩⟩
      · rintro ⟨hx0, hs0, -, hlt | ⟨hT, hx, hs⟩⟩
        · rw [asUnsigned_of_nonneg shift hs0] at hin
          exact absurd hlt (not_lt.mpr (hin hx0))
        · exact ⟨⟨hT, hx⟩, by rw [asUnsigned_of_nonneg shift hs0, hs]⟩
    · simp only [Bool.and_eq_true, decide_eq_true_eq] at h
      simp [h.1.2]

/-- A right shift keeps the range of the type. -/
theorem inRange_shiftRight (x : Num T) (s : ℕ) : T.InRange (x.val / 2 ^ s) := by
  have hp : (0 : ℤ) < 2 ^ s := by positivity
  have hl := x.lowest_le
  have hu := x.le_max
  have habs := Int.natAbs_ediv_le_natAbs x.val (2 ^ s)
  have hsign : 0 ≤ x.val / 2 ^ s ↔ 0 ≤ x.val := Int.ediv_nonneg_iff_of_pos hp
  have h0 := T.lowest_nonpos
  have hm := T.max_pos
  unfold IntegralType.InRange
  omega

theorem shiftRight_eq_ediv (z : ℤ) (s : ℕ) : z >>> s = z / 2 ^ s := by
  rw [Int.shiftRight_eq_div_pow]
  push_cast
  rfl

/-- `x >> shift` is floor division by a power of two, and never overflows. -/
theorem checkedRshOp_computes (x : Num T) (shift : Num U) (result : Num T) :
    Computes (checkedRshOp T x shift result)
      (0 ≤ shift.val ∧ shift.val < T.integerBitsPlusSign) (x.val / 2 ^ shift.val.toNat) := by
  have hb : T.integerBitsPlusSign ≤ 64 := by cases T <;> decide
  unfold checkedRshOp
  by_cases hlt : shift.asUnsigned.val < T.integerBitsPlusSign
  · obtain ⟨hs0, hs⟩ := shift_nonneg shift hb hlt.le
    have hin := inRange_shiftRight x shift.val.toNat
    rw [if_pos hlt, shiftRight_eq_ediv]
    exact (computes_of_inRange T hin).congr_left ⟨fun _ => ⟨hs0, by omega⟩, fun _ => hin⟩
  · rw [if_neg hlt]
    refine Computes.of_eq_false rfl fun h => hlt ?_
    rw [asUnsigned_of_nonneg shift h.1]
    exact h.2

/-- The type of a maximum holds the larger of the two values. -/
theorem inRange_max (x : Num T) (y : Num U) :
    (maxExponentPromotion T U).InRange (max x.val y.val) := by
  have hb : ∀ T U : IntegralType, T.max ≤ (maxExponentPromotion T U).max ∧
      U.max ≤ (maxExponentPromotion T U).max ∧ ((maxExponentPromotion T U).lowest ≤ T.lowest ∨
        (maxExponentPromotion T U).lowest ≤ U.lowest) := by decide
  have hT := hb T U
  have hx := x.inRange
  have hy := y.inRange
  unfold IntegralType.InRange at *
  omega

/-- The type of a minimum holds the smaller of the two values. -/
theorem inRange_min (x : Num T) (y : Num U) :
    (lowestValuePromotion T U).InRange (min x.val y.val) := by
  have hb : ∀ T U : IntegralType, (lowestValuePromotion T U).lowest ≤ T.lowest ∧
      (lowestValuePromotion T U).lowest ≤ U.lowest ∧ (T.max ≤ (lowestValuePromotion T U).max ∨
        U.max ≤ (lowestValuePromotion T U).max) := by decide
  have hT := hb T U
  have hx := x.inRange
  have hy := y.inRange
  unfold IntegralType.InRange at *
  omega

theorem checkedMaxOp_computes (x : Num T) (y : Num U) (result : Num (maxExponentPromotion T U)) :
    Computes (checkedMaxOp (maxExponentPromotion T U) x y result) True (max x.val y.val) := by
  have htmp : (if isGreater x y then staticCast (maxExponentPromotion T U) x.val
      else staticCast (maxExponentPromotion T U) y.val) =
        staticCast (maxExponentPromotion T U) (max x.val y.val) := by
    rw [← apply_ite (staticCast (maxExponentPromotion T U)), isGreater_eq]
    congr 1
    split_ifs with h <;> simp only [decide_eq_true_eq] at h <;> omega
  rw [checkedMaxOp, htmp]
  exact (computes_of_inRange _ (inRange_max x y)).congr_left (iff_true_intro (inRange_max x y))

theorem checkedMinOp_computes (x : Num T) (y : Num U) (result : Num (lowestValuePromotion T U)) :
    Computes (checkedMinOp (lowestValuePromotion T U) x y result) True (min x.val y.val) := by
  have htmp : (if isLess x y then staticCast (lowestValuePromotion T U) x.val
      else staticCast (lowestValuePromotion T U) y.val) =
        staticCast (lowestValuePromotion T U) (min x.val y.val) := by
    rw [← apply_ite (staticCast (lowestValuePromotion T U)), isLess_eq]
    congr 1
    split_ifs with h <;> simp only [decide_eq_true_eq] at h <;> omega
  rw [checkedMinOp, htmp]
  exact (computes_of_inRange _ (inRange_min x y)).congr_left (iff_true_intro (inRange_min x y))

end MiniChromium
