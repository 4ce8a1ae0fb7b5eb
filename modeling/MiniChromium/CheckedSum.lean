import MiniChromium.CheckedMath
import Mathlib.Tactic.Linarith

/-!
# Checked addition and subtraction are exact

One theorem for each operation says exactly when it reports a valid result, and
that the value stored then is the result in unbounded integers. The sign-bit
tests of the portable bodies are reduced to inequalities between integers.
-/
namespace MiniChromium

open IntegralType MiniChromium.Num

variable {T U P V : IntegralType}

namespace Num

/-- The most significant bit of the bit pattern. -/
def signBit (x : Num T) : Bool := x.bitPattern.testBit (T.integerBitsPlusSign - 1)

theorem bitPattern_staticCast {n : ℕ} (h : n < 2 ^ T.integerBitsPlusSign) :
    (staticCast T n).bitPattern = n := by
  have hm : T.makeUnsigned.lowest = 0 ∧
      T.makeUnsigned.max = (2 ^ T.integerBitsPlusSign : ℕ) - 1 := by cases T <;> decide
  have hc : (staticCast T n).val ≡ n [ZMOD T.makeUnsigned.modulus] := by
    simpa using staticCast_modEq T n
  unfold bitPattern asUnsigned
  rw [staticCast_congr hc, staticCast_of_inRange ⟨by omega, by omega⟩, Int.toNat_natCast]

@[simp] theorem signBit_bitXor (x y : Num T) :
    (bitXor x y).signBit = (x.signBit ^^ y.signBit) := by
  unfold signBit bitXor
  rw [bitPattern_staticCast (Nat.xor_lt_two_pow x.bitPattern_lt y.bitPattern_lt),
    Nat.testBit_xor]

@[simp] theorem signBit_bitAnd (x y : Num T) :
    (bitAnd x y).signBit = (x.signBit && y.signBit) := by
  unfold signBit bitAnd
  rw [bitPattern_staticCast (Nat.and_lt_two_pow _ y.bitPattern_lt), Nat.testBit_and]

/-- The sign bit is set from half of the modulus on. -/
theorem signBit_iff (x : Num T) : x.signBit = true ↔ T.modulus ≤ 2 * (x.bitPattern : ℤ) := by
  have hlt := x.bitPattern_lt
  have hw : 2 ^ T.integerBitsPlusSign = 2 * 2 ^ (T.integerBitsPlusSign - 1) := by
    cases T <;> rfl
  have hq : x.bitPattern / 2 ^ (T.integerBitsPlusSign - 1) < 2 :=
    Nat.div_lt_of_lt_mul (by omega)
  have hone : 1 ≤ x.bitPattern / 2 ^ (T.integerBitsPlusSign - 1) ↔
      2 ^ (T.integerBitsPlusSign - 1) ≤ x.bitPattern := by
    rw [Nat.le_div_iff_mul_le (Nat.two_pow_pos _), one_mul]
  unfold signBit modulus
  rw [Nat.testBit_eq_decide_div_mod_eq, decide_eq_true_iff]
  generalize x.bitPattern / 2 ^ (T.integerBitsPlusSign - 1) = q at hq hone ⊢
  omega

theorem signBit_of_unsigned (x : Num T) (h : T.isSigned = false) :
    x.signBit = true ↔ T.modulus ≤ 2 * x.val := by
  have hu : T.makeUnsigned = T := by cases T <;> first | rfl | cases h
  have hx : (x.bitPattern : ℤ) = x.val := by
    unfold bitPattern
    rw [asUnsigned_of_nonneg x (x.nonneg h), Int.toNat_of_nonneg (x.nonneg h)]
  rw [signBit_iff, hx]

/-- A pattern read as the signed type of its width is negative when its sign bit
is set. -/
theorem staticCast_makeSigned_neg_iff (x : Num T) :
    (staticCast T.makeSigned x.val).val < 0 ↔ x.signBit = true := by
  have hb : 2 * T.makeSigned.max + 2 = T.modulus ∧
      2 * T.makeSigned.lowest = -T.modulus := by cases T <;> decide
  have hlt := x.bitPattern_lt
  have hm : T.modulus = (2 ^ T.integerBitsPlusSign : ℕ) := rfl
  have hx : (x.bitPattern : ℤ) ≡ x.val [ZMOD T.makeSigned.modulus] := by
    simpa using x.bitPattern_modEq
  rw [signBit_iff, ← staticCast_congr hx]
  by_cases h : T.modulus ≤ 2 * (x.bitPattern : ℤ)
  · have hc : (x.bitPattern : ℤ) - T.modulus ≡ x.bitPattern [ZMOD T.makeSigned.modulus] := by
      simp [Int.ModEq]
    rw [← staticCast_congr hc, staticCast_of_inRange ⟨by omega, by omega⟩]
    omega
  · rw [staticCast_of_inRange ⟨by omega, by omega⟩]
    omega

end Num

/-- The sign test of the portable code: one of the two pairs has equal signs. -/
theorem signTest_iff (a b c d : Num P.makeUnsigned) :
    (staticCast P.makeSigned (bitAnd (bitXor a b) (bitXor c d)).val).val ≥ 0 ↔
      (P.modulus ≤ 2 * a.val ↔ P.modulus ≤ 2 * b.val) ∨
        (P.modulus ≤ 2 * c.val ↔ P.modulus ≤ 2 * d.val) := by
  have hneg := staticCast_makeSigned_neg_iff (bitAnd (bitXor a b) (bitXor c d))
  rw [show P.makeUnsigned.makeSigned = P.makeSigned by cases P <;> rfl] at hneg
  have hbit : ∀ x : Num P.makeUnsigned, x.signBit = decide (P.modulus ≤ 2 * x.val) := fun x => by
    have hx := signBit_of_unsigned x P.isSigned_makeUnsigned
    rw [modulus_makeUnsigned] at hx
    rw [← decide_eq_decide.mpr hx, Bool.decide_coe]
  rw [ge_iff_le, ← not_lt, hneg, signBit_bitAnd, signBit_bitXor, signBit_bitXor]
  simp only [hbit, Bool.not_eq_true, Bool.and_eq_false_iff, bne_eq_false_iff_eq, decide_eq_decide]

/-- Half of the modulus separates the two signs. -/
theorem modulus_of_signed {T : IntegralType} (h : T.isSigned = true) :
    T.modulus = -2 * T.lowest := by
  cases T <;> first | decide | cases h

/-- The unsigned pattern of a signed value, by the sign of the value. -/
theorem asUnsigned_cases (x : Num P) :
    (0 ≤ x.val ∧ x.asUnsigned.val = x.val ∧ x.val < P.modulus) ∨
      (x.val < 0 ∧ x.asUnsigned.val = x.val + P.modulus ∧ 0 ≤ x.val + P.modulus) := by
  have hs := P.lowest_add_modulus
  have h0 := P.lowest_nonpos
  have hx := x.inRange
  unfold InRange at hx
  by_cases h : 0 ≤ x.val
  · exact .inl ⟨h, asUnsigned_of_nonneg x h, by omega⟩
  · exact .inr ⟨not_le.mp h, asUnsigned_of_neg x (not_le.mp h), by have := P.max_pos; omega⟩

/-- The unsigned result of adding or subtracting two values of one type. -/
theorem staticCast_makeUnsigned_cases (P : IntegralType) (z : ℤ) (hl : -P.modulus ≤ z)
    (hu : z < 2 * P.modulus) :
    (staticCast P.makeUnsigned z).val = if z < 0 then z + P.modulus
      else if z < P.modulus then z else z - P.modulus := by
  have hb : P.makeUnsigned.max + 1 = P.modulus ∧ P.makeUnsigned.lowest = 0 := by
    cases P <;> decide
  have hc : ∀ z', z' ≡ z [ZMOD P.modulus] → P.makeUnsigned.InRange z' →
      (staticCast P.makeUnsigned z).val = z' := fun z' h hr => by
    rw [← staticCast_congr (T := P.makeUnsigned) (by simpa using h), staticCast_of_inRange hr]
  split_ifs with h1 h2
  · exact hc _ (by simp [Int.ModEq]) ⟨by omega, by omega⟩
  · exact hc _ (Int.ModEq.refl z) ⟨by omega, by omega⟩
  · exact hc _ (by simp [Int.ModEq]) ⟨by omega, by omega⟩

theorem checkedAddImpl_eq (x y : Num P) :
    checkedAddImpl x y = (decide (P.InRange (x.val + y.val)), staticCast P (x.val + y.val)) := by
  have hmod : (staticCast P.makeUnsigned (x.asUnsigned.val + y.asUnsigned.val)).val ≡
      x.val + y.val [ZMOD P.modulus] :=
    (staticCast_makeUnsigned_modEq P _).trans (x.asUnsigned_modEq.add y.asUnsigned_modEq)
  have hx : P.lowest ≤ x.val ∧ x.val ≤ P.max := x.inRange
  have hy : P.lowest ≤ y.val ∧ y.val ≤ P.max := y.inRange
  have hs := P.lowest_add_modulus
  have hxu := asUnsigned_cases x
  have hyu := asUnsigned_cases y
  have hr := staticCast_makeUnsigned_cases P (x.asUnsigned.val + y.asUnsigned.val)
    (by omega) (by omega)
  simp only [checkedAddImpl, staticCast_congr hmod, Prod.mk.injEq, and_true]
  cases hP : P.isSigned with
  | true =>
    have hm := modulus_of_signed hP
    rw [if_pos rfl, decide_eq_decide, signTest_iff, IntegralType.InRange]
    split_ifs at hr <;> omega
  | false =>
    have h0 := IntegralType.lowest_of_unsigned hP
    rw [if_neg Bool.false_ne_true, decide_eq_decide, IntegralType.InRange]
    split_ifs at hr <;> omega

theorem checkedSubImpl_eq (x y : Num P) :
    checkedSubImpl x y = (decide (P.InRange (x.val - y.val)), staticCast P (x.val - y.val)) := by
  have hmod : (staticCast P.makeUnsigned (x.asUnsigned.val - y.asUnsigned.val)).val ≡
      x.val - y.val [ZMOD P.modulus] :=
    (staticCast_makeUnsigned_modEq P _).trans (x.asUnsigned_modEq.sub y.asUnsigned_modEq)
  have hx : P.lowest ≤ x.val ∧ x.val ≤ P.max := x.inRange
  have hy : P.lowest ≤ y.val ∧ y.val ≤ P.max := y.inRange
  have hs := P.lowest_add_modulus
  have hxu := asUnsigned_cases x
  have hyu := asUnsigned_cases y
  have hr := staticCast_makeUnsigned_cases P (x.asUnsigned.val - y.asUnsigned.val)
    (by omega) (by omega)
  simp only [checkedSubImpl, staticCast_congr hmod, Prod.mk.injEq, and_true]
  cases hP : P.isSigned with
  | true =>
    have hm := modulus_of_signed hP
    rw [if_pos rfl, decide_eq_decide, signTest_iff, IntegralType.InRange]
    split_ifs at hr <;> omega
  | false =>
    have h0 := IntegralType.lowest_of_unsigned hP
    rw [if_neg Bool.false_ne_true, decide_eq_decide, IntegralType.InRange]
    split_ifs at hr <;> omega

/-- The pair is valid exactly under `C`, and then it holds `z`. -/
structure Computes (p : Bool × Num V) (C : Prop) (z : ℤ) : Prop where
  valid_iff : p.1 = true ↔ C
  val_eq : p.1 = true → p.2.val = z

namespace Computes

theorem of_eq_false {p : Bool × Num V} {C : Prop} {z : ℤ} (hp : p.1 = false) (hC : ¬C) :
    Computes p C z :=
  ⟨iff_of_false (by simp [hp]) hC, fun h => by simp [hp] at h⟩

theorem congr_left {p : Bool × Num V} {C D : Prop} {z : ℤ} (h : Computes p C z) (hCD : C ↔ D) :
    Computes p D z := ⟨h.valid_iff.trans hCD, h.val_eq⟩

end Computes

theorem checkedFastOp_computes (V : IntegralType) (z : ℤ) :
    Computes (checkedFastOp V z) (V.InRange z) z :=
  ⟨decide_eq_true_iff, fun h => staticCast_of_inRange (of_decide_eq_true h)⟩

/-- The last two lines of the portable bodies: an intermediate result that is
exact when its own flag is set is range checked and converted. -/
theorem computes_isValueInRange (V : IntegralType) (b : Bool) (p : Num P) (z : ℤ)
    (h : b = true → V.InRange p.val → P.InRange z) (hb : P.InRange z → b = true)
    (hp : p = staticCast P z) :
    Computes (b && isValueInRange V p, staticCast V p.val) (P.InRange z ∧ V.InRange z) z := by
  have hz : P.InRange z → p.val = z := fun hr => by rw [hp, staticCast_of_inRange hr]
  have hv : (b && isValueInRange V p) = true ↔ P.InRange z ∧ V.InRange z := by
    rw [Bool.and_eq_true, isValueInRange_iff]
    constructor
    · intro ⟨hb', hV⟩
      have hr := h hb' hV
      exact ⟨hr, hz hr ▸ hV⟩
    · intro ⟨hr, hV⟩
      exact ⟨hb hr, (hz hr).symm ▸ hV⟩
  refine ⟨hv, fun ht => ?_⟩
  obtain ⟨hr, hV⟩ := hv.mp ht
  show (staticCast V p.val).val = z
  rw [hz hr, staticCast_of_inRange hV]

/-- An exact intermediate result is range checked and converted. -/
theorem computes_of_inRange (V : IntegralType) {z : ℤ} (h : P.InRange z) :
    Computes (isValueInRange V (staticCast P z), staticCast V (staticCast P z).val)
      (V.InRange z) z := by
  have hc := computes_isValueInRange V true (staticCast P z) z (fun _ _ => h) (fun _ => rfl) rfl
  rw [Bool.true_and] at hc
  exact hc.congr_left (and_iff_right h)

/-- Both operands fit the promotion type. -/
def OperandsFit (P : IntegralType) (x : Num T) (y : Num U) : Prop :=
  P.InRange x.val ∧ P.InRange y.val

instance (P : IntegralType) (x : Num T) (y : Num U) : Decidable (OperandsFit P x y) :=
  inferInstanceAs (Decidable (_ ∧ _))

theorem operandsFit_iff (P : IntegralType) (x : Num T) (y : Num U) :
    (!isValueInRange P x || !isValueInRange P y) = false ↔ OperandsFit P x y := by
  simp [OperandsFit]

/-- A negative operand beside a 64-bit unsigned one. -/
def MixedSignWord (x : Num T) (y : Num U) : Prop :=
  (T.isSigned = true ∧ U = .uint64 ∧ x.val < 0) ∨ (T = .uint64 ∧ U.isSigned = true ∧ y.val < 0)

/-- A promotion type that covers both operand types wherever some type does leaves
out only a negative operand beside a 64-bit unsigned one. -/
theorem operandsFit_iff_not_mixed {P : IntegralType} (x : Num T) (y : Num U)
    (hP : P = fastIntegerArithmeticPromotion T U ∨ P = bigEnoughPromotion T U) :
    OperandsFit P x y ↔ ¬MixedSignWord x y := by
  have hcases : ∀ P T U : IntegralType,
      P = fastIntegerArithmeticPromotion T U ∨ P = bigEnoughPromotion T U →
        (P.isTypeInRange T = true ∧ P.isTypeInRange U = true ∧
            ¬(T.isSigned = true ∧ U = .uint64) ∧ ¬(T = .uint64 ∧ U.isSigned = true)) ∨
          (P.lowest = 0 ∧ T.max ≤ P.max ∧ U.max ≤ P.max ∧
            ((T.isSigned = true ∧ U = .uint64) ∨ (T = .uint64 ∧ U.isSigned = true))) := by decide
  rcases hcases P T U hP with ⟨hT, hU, h1, h2⟩ | ⟨h0, hT, hU, hmix⟩
  · refine iff_of_true ⟨x.inRange.of_isTypeInRange hT, y.inRange.of_isTypeInRange hU⟩ ?_
    rintro (⟨hs, hu, _⟩ | ⟨hs, hu, _⟩)
    · exact h1 ⟨hs, hu⟩
    · exact h2 ⟨hs, hu⟩
  · have hx := x.inRange
    have hy := y.inRange
    have hun : IntegralType.uint64.isSigned = false ∧ IntegralType.uint64.lowest = 0 := by decide
    unfold OperandsFit MixedSignWord IntegralType.InRange at *
    rcases hmix with ⟨hs, rfl⟩ | ⟨rfl, hs⟩
    · simp only [hs, hun.1, h0, Bool.false_eq_true, false_and, and_false, or_false, true_and]
      omega
    · simp only [hs, hun.1, h0, Bool.false_eq_true, false_and, false_or, true_and]
      omega

/-- Where the arithmetic is called safe, only an unsigned difference can leave the
promotion type, and it wraps above every value of `V`. -/
theorem checkedWordOp_computes (V : IntegralType) (op : ℤ → ℤ → ℤ)
    (impl : ∀ {P : IntegralType}, Num P → Num P → Bool × Num P)
    (himpl : ∀ {P : IntegralType} (a b : Num P), impl a b =
      (decide (P.InRange (op a.val b.val)), staticCast P (op a.val b.val)))
    (x : Num T) (y : Num U) (result : Num V)
    (hsafe : isIntegerArithmeticSafe (wordPromotion T U) T U = true →
      V.InRange (staticCast (wordPromotion T U) (op x.val y.val)).val →
      (wordPromotion T U).InRange (op x.val y.val)) :
    Computes (checkedWordOp V op impl x y result)
      (OperandsFit (wordPromotion T U) x y ∧ (wordPromotion T U).InRange (op x.val y.val) ∧
        V.InRange (op x.val y.val)) (op x.val y.val) := by
  by_cases hfit : OperandsFit (wordPromotion T U) x y
  · have hx : (staticCast (wordPromotion T U) x.val).val = x.val := staticCast_of_inRange hfit.1
    have hy : (staticCast (wordPromotion T U) y.val).val = y.val := staticCast_of_inRange hfit.2
    simp only [checkedWordOp, (operandsFit_iff _ x y).mpr hfit, Bool.false_eq_true, if_false,
      himpl, hx, hy]
    refine Computes.congr_left ?_ (and_iff_right hfit).symm
    by_cases hs : isIntegerArithmeticSafe (wordPromotion T U) T U = true
    · rw [if_pos hs]
      exact computes_isValueInRange V _ _ _ (fun _ => hsafe hs) (fun _ => rfl) rfl
    · rw [if_neg hs]
      exact computes_isValueInRange V _ _ _ (fun h _ => of_decide_eq_true h)
        (fun h => decide_eq_true h) rfl
  · have hf := mt (operandsFit_iff _ x y).mp hfit
    refine Computes.of_eq_false ?_ fun h => hfit h.1
    simp only [checkedWordOp, Bool.not_eq_false] at hf ⊢
    rw [if_pos hf]

/-- The destinations in use: the result type, the left operand's type, and a type
inside the right operand's. -/
def Destination (V T U : IntegralType) : Prop :=
  V = maxExponentPromotion T U ∨ V = T ∨ U.isTypeInRange V = true

instance (V T U : IntegralType) : Decidable (Destination V T U) :=
  inferInstanceAs (Decidable (_ ∨ _))

/-- A promotion type covers the destination, except below zero when it is unsigned. -/
theorem inRange_promotion {z : ℤ} (hV : Destination V T U) (hz : V.InRange z)
    (h0 : (fastIntegerArithmeticPromotion T U).isSigned = false → 0 ≤ z) :
    (fastIntegerArithmeticPromotion T U).InRange z := by
  have hb : ∀ V T U : IntegralType, Destination V T U →
      V.max ≤ (fastIntegerArithmeticPromotion T U).max ∧
        ((fastIntegerArithmeticPromotion T U).isSigned = true →
          (fastIntegerArithmeticPromotion T U).lowest ≤ V.lowest) := by decide
  obtain ⟨hu, hl⟩ := hb V T U hV
  refine ⟨?_, hz.2.trans hu⟩
  cases hs : (fastIntegerArithmeticPromotion T U).isSigned with
  | true => exact (hl hs).trans hz.1
  | false => rw [IntegralType.lowest_of_unsigned hs]; exact h0 hs

theorem checkedAddOp_computes (tc : Toolchain) (hV : Destination V T U) (x : Num T) (y : Num U)
    (result : Num V) :
    Computes (checkedAddOp tc V x y result)
      ((tc.checkedAddFastOpIsSupported = true ∨ OperandsFit (wordPromotion T U) x y) ∧
        V.InRange (x.val + y.val)) (x.val + y.val) := by
  unfold checkedAddOp
  by_cases htc : tc.checkedAddFastOpIsSupported = true
  · rw [if_pos htc]
    exact (checkedFastOp_computes V _).congr_left (by simp [htc])
  · rw [if_neg htc]
    have hsafe : ∀ T U : IntegralType,
        isIntegerArithmeticSafe (wordPromotion T U) T U = true →
          (wordPromotion T U).lowest ≤ T.lowest + U.lowest ∧
            T.max + U.max ≤ (wordPromotion T U).max := by decide
    refine (checkedWordOp_computes V (· + ·) checkedAddImpl checkedAddImpl_eq x y result
      fun hs _ => ?_).congr_left ?_
    · obtain ⟨hl, hu⟩ := hsafe T U hs
      exact ⟨hl.trans (add_le_add x.lowest_le y.lowest_le),
        (add_le_add x.le_max y.le_max).trans hu⟩
    · simp only [htc, Bool.false_eq_true, false_or, and_congr_right_iff, and_iff_right_iff_imp]
      intro hfit hz
      rw [wordPromotion_eq] at hfit ⊢
      refine inRange_promotion hV hz fun hs => ?_
      have h0 := IntegralType.lowest_of_unsigned hs
      exact add_nonneg (h0 ▸ hfit.1.1) (h0 ▸ hfit.2.1)

/-- The portable difference leaves an unsigned promotion type, where the arithmetic is called
safe, and wraps to a value that the destination has. -/
def DifferenceWraps (tc : Toolchain) (V : IntegralType) (x : Num T) (y : Num U) : Prop :=
  tc.checkedSubFastOpIsSupported = false ∧
    isIntegerArithmeticSafe (wordPromotion T U) T U = true ∧
    ¬(wordPromotion T U).InRange (x.val - y.val) ∧
    V.InRange (staticCast (wordPromotion T U) (x.val - y.val)).val

instance (tc : Toolchain) (V : IntegralType) (x : Num T) (y : Num U) :
    Decidable (DifferenceWraps tc V x y) :=
  inferInstanceAs (Decidable (_ ∧ _ ∧ _ ∧ _))

/-- A difference called safe is in the promotion type unless unsigned operands make it negative. -/
theorem inRange_difference_of_safe
    (h : isIntegerArithmeticSafe (wordPromotion T U) T U = true) (x : Num T) (y : Num U) :
    (wordPromotion T U).InRange (x.val - y.val) ∨
      (wordPromotion T U).lowest = 0 ∧ 0 ≤ x.val ∧ x.val - y.val < 0 ∧
        y.val < (wordPromotion T U).modulus := by
  have hbounds : ∀ T U : IntegralType, isIntegerArithmeticSafe (wordPromotion T U) T U = true →
      T.max - U.lowest ≤ (wordPromotion T U).max ∧
        ((wordPromotion T U).lowest ≤ T.lowest - U.max ∨
          (wordPromotion T U).lowest = 0 ∧ T.lowest = 0 ∧
            U.max < (wordPromotion T U).modulus) := by decide
  have hx := x.inRange
  have hy := y.inRange
  obtain ⟨hu, hl⟩ := hbounds T U h
  unfold IntegralType.InRange at *
  omega

theorem checkedSubOp_computes_of_not_wraps {tc : Toolchain} {x : Num T} {y : Num U}
    (h : ¬DifferenceWraps tc V x y) (result : Num V) :
    Computes (checkedSubOp tc V x y result)
      ((tc.checkedSubFastOpIsSupported = true ∨ OperandsFit (wordPromotion T U) x y ∧
          (wordPromotion T U).InRange (x.val - y.val)) ∧
        V.InRange (x.val - y.val)) (x.val - y.val) := by
  unfold checkedSubOp
  by_cases htc : tc.checkedSubFastOpIsSupported = true
  · rw [if_pos htc]
    exact (checkedFastOp_computes V _).congr_left (by simp [htc])
  · rw [if_neg htc]
    refine (checkedWordOp_computes V (· - ·) checkedSubImpl checkedSubImpl_eq x y result
      fun hs hr => ?_).congr_left ?_
    · by_contra hneg
      exact h ⟨Bool.eq_false_iff.mpr htc, hs, hneg, hr⟩
    · simp only [htc, Bool.false_eq_true, false_or, and_assoc]

/-- What a difference that wraps wraps to. -/
theorem DifferenceWraps.val_staticCast {tc : Toolchain} {x : Num T} {y : Num U}
    (h : DifferenceWraps tc V x y) :
    (wordPromotion T U).lowest = 0 ∧ 0 ≤ x.val ∧ x.val - y.val < 0 ∧
      0 < x.val - y.val + (wordPromotion T U).modulus ∧
      (staticCast (wordPromotion T U) (x.val - y.val)).val =
        x.val - y.val + (wordPromotion T U).modulus := by
  obtain ⟨-, hs, hneg, -⟩ := h
  obtain ⟨h0, hx0, hlt, hy⟩ := (inRange_difference_of_safe hs x y).resolve_left hneg
  have hm := (wordPromotion T U).lowest_add_modulus
  have hc : x.val - y.val + (wordPromotion T U).modulus ≡ x.val - y.val
      [ZMOD (wordPromotion T U).modulus] := by simp [Int.ModEq]
  have hin : (wordPromotion T U).InRange (x.val - y.val + (wordPromotion T U).modulus) := by
    unfold IntegralType.InRange
    omega
  refine ⟨h0, hx0, hlt, by omega, ?_⟩
  rw [← staticCast_congr hc, staticCast_of_inRange hin]

/-- The destinations in use have no value as large as an unsigned difference that wraps. -/
theorem not_differenceWraps (tc : Toolchain) (hV : V = maxExponentPromotion T U ∨ V = T)
    (x : Num T) (y : Num U) : ¬DifferenceWraps tc V x y := by
  intro h
  have hwide : ∀ V T U : IntegralType, V = maxExponentPromotion T U ∨ V = T →
      isIntegerArithmeticSafe (wordPromotion T U) T U = true → (wordPromotion T U).lowest = 0 →
        V.max + U.max < (wordPromotion T U).modulus := by decide
  obtain ⟨h0, hx0, -, -, hval⟩ := h.val_staticCast
  obtain ⟨-, hs, -, hr⟩ := h
  have hVU := hwide V T U hV hs h0
  have hy := y.le_max
  have hu := hr.2
  rw [hval] at hu
  omega

theorem checkedSubOp_computes (tc : Toolchain) (hV : V = maxExponentPromotion T U ∨ V = T)
    (x : Num T) (y : Num U) (result : Num V) :
    Computes (checkedSubOp tc V x y result)
      ((tc.checkedSubFastOpIsSupported = true ∨ OperandsFit (wordPromotion T U) x y ∧
          (wordPromotion T U).InRange (x.val - y.val)) ∧
        V.InRange (x.val - y.val)) (x.val - y.val) :=
  checkedSubOp_computes_of_not_wraps (not_differenceWraps tc hV x y) result

end MiniChromium
