import MiniChromium.IntegralType

/-!
# Range checks and conversions between integer types

The range of a destination type is related to a source type by a `RangeCheck`,
which holds one flag for each side. The comparisons used at compile time and at
run time are built on it, and so are the common bounds of two types. Every
definition follows the template it is named after, branch by branch.
-/
namespace MiniChromium

namespace IntegralType

/-- `MaxExponent<T>::value`, for integers one more than the digits. -/
def maxExponent (T : IntegralType) : ℕ := T.digits + 1

/-- `StaticDstRangeRelationToSrcRange<Dst, Src>::value == NUMERIC_RANGE_CONTAINED`,
which is also `IsTypeInRangeForNumericType<Dst, Src>::value`. -/
def isTypeInRange (Dst Src : IntegralType) : Bool :=
  match Dst.isSigned, Src.isSigned with
  | true, true | false, false => decide (Dst.maxExponent ≥ Src.maxExponent)
  | true, false => decide (Dst.maxExponent > Src.maxExponent)
  | false, true => false

/-- The static relation is the inclusion of the ranges. -/
theorem isTypeInRange_iff (Dst Src : IntegralType) :
    Dst.isTypeInRange Src = true ↔ Dst.lowest ≤ Src.lowest ∧ Src.max ≤ Dst.max := by
  revert Dst Src; decide

theorem InRange.of_isTypeInRange {Dst Src : IntegralType} {z : ℤ} (hz : Src.InRange z)
    (h : Dst.isTypeInRange Src = true) : Dst.InRange z := by
  obtain ⟨hl, hu⟩ := (isTypeInRange_iff Dst Src).mp h
  exact ⟨hl.trans hz.1, hz.2.trans hu⟩

/-- The type of a sum holds every value that both operand types hold. -/
theorem inRange_sumType {L R : IntegralType} {z : ℤ} (hl : L.InRange z) (hr : R.InRange z) :
    (sumType L R).InRange z := by
  have h : (sumType L R).isTypeInRange L = true ∨ (sumType L R).isTypeInRange R = true := by
    clear hl hr; revert L R; decide
  cases h with
  | inl h => exact hl.of_isTypeInRange h
  | inr h => exact hr.of_isTypeInRange h

end IntegralType

/-- `RangeCheck`: whether a value lies below, or above, the destination's bounds. -/
structure RangeCheck where
  isUnderflowFlagSet : Bool
  isOverflowFlagSet : Bool
  deriving DecidableEq

namespace RangeCheck

/-- The constructor takes the two bounds tests and stores their negations. -/
def ofBounds (isInLowerBound isInUpperBound : Bool) : RangeCheck :=
  ⟨!isInLowerBound, !isInUpperBound⟩

def isValid (r : RangeCheck) : Bool := !r.isOverflowFlagSet && !r.isUnderflowFlagSet

def isOverflow (r : RangeCheck) : Bool := r.isOverflowFlagSet && !r.isUnderflowFlagSet

def isUnderflow (r : RangeCheck) : Bool := !r.isOverflowFlagSet && r.isUnderflowFlagSet

/-- The flags of a check whose bounds tests are the negations of `P` and `Q`. -/
theorem ofBounds_eq {a b : Bool} {P Q : Prop} [Decidable P] [Decidable Q]
    (hP : a = true ↔ ¬P) (hQ : b = true ↔ ¬Q) : ofBounds a b = ⟨decide P, decide Q⟩ := by
  cases a <;> cases b <;> simp_all [ofBounds]

end RangeCheck

/-- The limits a destination type is checked against: `std::numeric_limits` or
the limits of a saturation handler. The field is the `static_assert` of
`DstRangeRelationToSrcRange`. -/
structure Bounds (T : IntegralType) where
  lowest : Num T
  max : Num T
  lowest_lt_max : lowest.val < max.val

/-- `std::numeric_limits`. -/
def numericLimits (T : IntegralType) : Bounds T :=
  ⟨Num.lowestValue T, Num.maxValue T, T.lowest_lt_max⟩

namespace Num

variable {T : IntegralType}

/-- `SafeUnsignedAbs`. -/
def safeUnsignedAbs (x : Num T) : Num T.makeUnsigned :=
  if x.isValueNegative then staticCast T.makeUnsigned (0 - x.asUnsigned.val) else x.asUnsigned

/-- `ConditionalNegate`: flip the bits and add one, when the flag is set. -/
def conditionalNegate (x : Num T) (isNegative : Bool) : Num T.makeSigned :=
  let flag : ℤ := if isNegative then 1 else 0
  let mask := staticCast T.makeUnsigned (staticCast T.makeSigned (-flag)).val
  staticCast T.makeSigned ((bitXor x.asUnsigned mask).val + flag)

theorem asUnsigned_modEq (x : Num T) : x.asUnsigned.val ≡ x.val [ZMOD T.modulus] :=
  staticCast_makeUnsigned_modEq T x.val

theorem asUnsigned_of_nonneg (x : Num T) (h : 0 ≤ x.val) : x.asUnsigned.val = x.val := by
  apply staticCast_of_inRange
  have hm : T.max ≤ T.makeUnsigned.max := by cases T <;> decide
  refine ⟨?_, x.le_max.trans hm⟩
  rwa [IntegralType.lowest_of_unsigned T.isSigned_makeUnsigned]

/-- A negative value wraps above the maximum of its own type. -/
theorem asUnsigned_of_neg (x : Num T) (h : x.val < 0) :
    x.asUnsigned.val = x.val + T.modulus := by
  have hb : T.makeUnsigned.max + 1 = T.modulus ∧ T.makeUnsigned.lowest = 0 ∧
      0 ≤ T.lowest + T.modulus := by cases T <;> decide
  have hl := x.lowest_le
  have hc : x.val + T.modulus ≡ x.val [ZMOD T.makeUnsigned.modulus] := by simp [Int.ModEq]
  rw [asUnsigned, ← staticCast_congr hc]
  exact staticCast_of_inRange ⟨by omega, by omega⟩

/-- The absolute value is always representable in the unsigned type. -/
@[simp] theorem val_safeUnsignedAbs (x : Num T) : x.safeUnsignedAbs.val = |x.val| := by
  have hb : T.makeUnsigned.lowest = 0 ∧ T.max ≤ T.makeUnsigned.max ∧
      -T.makeUnsigned.max ≤ T.lowest := by cases T <;> decide
  have hl := x.lowest_le
  have hu := x.le_max
  unfold safeUnsignedAbs
  split_ifs with h
  · rw [isValueNegative_iff] at h
    have hc : (0 : ℤ) - x.asUnsigned.val ≡ -x.val [ZMOD T.makeUnsigned.modulus] := by
      simpa using x.asUnsigned_modEq.neg
    rw [staticCast_congr hc, abs_of_neg h]
    exact staticCast_of_inRange ⟨by omega, by omega⟩
  · rw [isValueNegative_iff, not_lt] at h
    rw [asUnsigned_of_nonneg x h, abs_of_nonneg h]

theorem bitPattern_modEq (x : Num T) : (x.bitPattern : ℤ) ≡ x.val [ZMOD T.modulus] := by
  unfold bitPattern
  rw [Int.toNat_of_nonneg (x.asUnsigned.nonneg T.isSigned_makeUnsigned)]
  exact x.asUnsigned_modEq

theorem bitPattern_lt (x : Num T) : x.bitPattern < 2 ^ T.integerBitsPlusSign := by
  have hu := x.asUnsigned.le_max
  have hm : T.makeUnsigned.max = (2 ^ T.integerBitsPlusSign : ℕ) - 1 := by cases T <;> rfl
  have hp : 0 < 2 ^ T.integerBitsPlusSign := Nat.two_pow_pos _
  unfold bitPattern
  omega

/-- The pattern of minus one is all ones. -/
theorem bitPattern_neg_one (T : IntegralType) :
    (staticCast T (-1)).bitPattern = 2 ^ T.integerBitsPlusSign - 1 := by
  cases T <;> decide

theorem bitAnd_neg_one (x : Num T) : bitAnd x (staticCast T (-1)) = x := by
  unfold bitAnd
  rw [bitPattern_neg_one, Nat.and_two_pow_sub_one_of_lt_two_pow x.bitPattern_lt,
    staticCast_congr x.bitPattern_modEq, staticCast_self]

/-- Flipping every bit of `x` gives `-x - 1`. -/
theorem bitXor_neg_one_modEq (x : Num T) :
    (bitXor x (staticCast T (-1))).val ≡ -x.val - 1 [ZMOD T.modulus] := by
  have hlt := x.bitPattern_lt
  have hc : ((2 ^ T.integerBitsPlusSign - 1 - x.bitPattern : ℕ) : ℤ) =
      T.modulus + (-x.bitPattern - 1) := by
    unfold IntegralType.modulus; omega
  unfold bitXor
  rw [bitPattern_neg_one, BoundedInt.xor_two_pow_sub_one hlt, hc]
  refine (staticCast_modEq T _).trans ?_
  have hm : T.modulus + (-(x.bitPattern : ℤ) - 1) ≡ -(x.bitPattern : ℤ) - 1 [ZMOD T.modulus] := by
    simp [Int.ModEq]
  exact hm.trans (x.bitPattern_modEq.neg.sub_right 1)

/-- `ConditionalNegate` is negation modulo the width of the type. -/
theorem conditionalNegate_modEq (x : Num T) (isNegative : Bool) :
    (x.conditionalNegate isNegative).val ≡ (if isNegative then -x.val else x.val)
      [ZMOD T.modulus] := by
  cases isNegative with
  | false =>
    have hx : bitXor x.asUnsigned (staticCast T.makeUnsigned 0) = x.asUnsigned := by
      have h0 : (staticCast T.makeUnsigned 0).bitPattern = 0 := by cases T <;> rfl
      unfold bitXor
      rw [h0, Nat.xor_zero, staticCast_congr x.asUnsigned.bitPattern_modEq, staticCast_self]
    have h0 : (staticCast T.makeSigned (-0)).val = 0 := by simp
    simp only [conditionalNegate, Bool.false_eq_true, if_false, h0, hx, add_zero]
    exact (staticCast_makeSigned_modEq T _).trans x.asUnsigned_modEq
  | true =>
    have h1 : staticCast T.makeUnsigned (staticCast T.makeSigned (-1)).val =
        staticCast T.makeUnsigned (-1) :=
      staticCast_congr (by simpa using staticCast_makeSigned_modEq T (-1))
    have hx := (bitXor_neg_one_modEq x.asUnsigned).add_right 1
    simp only [IntegralType.modulus_makeUnsigned, sub_add_cancel] at hx
    simp only [conditionalNegate, if_true, h1]
    exact (staticCast_makeSigned_modEq T _).trans (hx.trans x.asUnsigned_modEq.neg)

end Num

namespace NarrowingRange

/-- `kShift`. For integers it is always zero, so `Adjust` masks nothing out. -/
def kShift (Dst Src : IntegralType) : ℕ :=
  if Src.maxExponent > Dst.maxExponent ∧ Src.digits < Dst.digits then Dst.digits - Src.digits
  else 0

/-- `Adjust`. The operands of `&` meet in the type of `make_unsigned<T>() + T()`. -/
def adjust (Dst Src : IntegralType) (value : Num Dst) : Num Dst :=
  let X := IntegralType.sumType Dst.makeUnsigned Dst
  let mask : ℤ := ~~~((2 : ℤ) ^ kShift Dst Src - 1)
  let masked := Num.bitAnd (Num.staticCast X value.safeUnsignedAbs.val) (Num.staticCast X mask)
  Num.staticCast Dst (masked.conditionalNegate value.isValueNegative).val

theorem kShift_eq_zero (Dst Src : IntegralType) : kShift Dst Src = 0 := by
  unfold kShift IntegralType.maxExponent
  rw [if_neg (by omega)]

/-- On integers `Adjust` changes nothing. -/
@[simp] theorem adjust_eq (Dst Src : IntegralType) (value : Num Dst) :
    adjust Dst Src value = value := by
  let X := IntegralType.sumType Dst.makeUnsigned Dst
  have hdvd : Dst.modulus ∣ X.modulus := by
    have h : ∀ T : IntegralType, (T.makeUnsigned.sumType T).modulus % T.modulus = 0 := by decide
    exact Int.dvd_of_emod_eq_zero (h Dst)
  have hneg := (Num.conditionalNegate_modEq (Num.staticCast X value.safeUnsignedAbs.val)
    value.isValueNegative).of_dvd hdvd
  have habs :
      (Num.staticCast X value.safeUnsignedAbs.val).val ≡ |value.val| [ZMOD Dst.modulus] := by
    simpa using (Num.staticCast_modEq X value.safeUnsignedAbs.val).of_dvd hdvd
  have hmask : ~~~((2 : ℤ) ^ kShift Dst Src - 1) = -1 := by rw [kShift_eq_zero]; rfl
  simp only [adjust, hmask, Num.bitAnd_neg_one]
  refine (Num.staticCast_congr (hneg.trans ?_)).trans (Num.staticCast_self value)
  by_cases h : value.isValueNegative = true
  · rw [if_pos h]
    have hv : -|value.val| = value.val := by
      rw [abs_of_neg ((Num.isValueNegative_iff value).mp h), neg_neg]
    simpa only [hv] using habs.neg
  · rw [if_neg h]
    rw [Num.isValueNegative_iff, not_lt] at h
    simpa only [abs_of_nonneg h] using habs

end NarrowingRange

/-- `DstRangeRelationToSrcRange<Dst, Bounds>(value)`, with the specialisations of
`DstRangeRelationToSrcRangeImpl::Check` as branches. -/
def dstRangeRelationToSrcRange {Dst Src : IntegralType} (bounds : Bounds Dst) (value : Num Src) :
    RangeCheck :=
  let lowest := NarrowingRange.adjust Dst Src bounds.lowest
  let max := NarrowingRange.adjust Dst Src bounds.max
  let Promotion := IntegralType.sumType Src Dst
  if Dst.isTypeInRange Src then
    .ofBounds
      (decide ((Num.staticCast Dst Src.lowest).val ≥ lowest.val) ||
        decide ((Num.staticCast Dst value.val).val ≥ lowest.val))
      (decide ((Num.staticCast Dst Src.max).val ≤ max.val) ||
        decide ((Num.staticCast Dst value.val).val ≤ max.val))
  else match Dst.isSigned, Src.isSigned with
    | true, true =>
      .ofBounds (decide (value.val ≥ lowest.val)) (decide (value.val ≤ max.val))
    | false, false =>
      .ofBounds (decide (lowest.val = 0) || decide (value.val ≥ lowest.val))
        (decide (value.val ≤ max.val))
    | true, false =>
      .ofBounds
        (decide (lowest.val ≤ 0) ||
          decide ((Num.staticCast Promotion value.val).val ≥
            (Num.staticCast Promotion lowest.val).val))
        (decide ((Num.staticCast Promotion value.val).val ≤
          (Num.staticCast Promotion max.val).val))
    | false, true =>
      .ofBounds
        (decide (value.val ≥ 0) && (decide (lowest.val = 0) ||
          decide ((Num.staticCast Dst value.val).val ≥ lowest.val)))
        (decide ((Num.staticCast Promotion Src.max).val ≤ (Num.staticCast Promotion max.val).val) ||
          decide ((Num.staticCast Promotion value.val).val ≤
            (Num.staticCast Promotion max.val).val))

/-- Against the limits of the destination type the two flags say on which side,
if any, the value falls outside. -/
theorem dstRangeRelationToSrcRange_numericLimits (Dst : IntegralType) {Src : IntegralType}
    (value : Num Src) :
    dstRangeRelationToSrcRange (numericLimits Dst) value =
      ⟨decide (value.val < Dst.lowest), decide (Dst.max < value.val)⟩ := by
  have hvl := value.lowest_le
  have hvu := value.le_max
  have hcast : ∀ {P : IntegralType} {z : ℤ}, P.InRange z → (Num.staticCast P z).val = z :=
    fun h => Num.staticCast_of_inRange h
  simp only [dstRangeRelationToSrcRange, NarrowingRange.adjust_eq, numericLimits,
    Num.val_lowestValue, Num.val_maxValue]
  by_cases hc : Dst.isTypeInRange Src = true
  · obtain ⟨hl, hu⟩ := (IntegralType.isTypeInRange_iff Dst Src).mp hc
    have hSl : Dst.InRange Src.lowest := ⟨hl, Src.lowest_lt_max.le.trans hu⟩
    have hSu : Dst.InRange Src.max := ⟨hl.trans Src.lowest_lt_max.le, hu⟩
    rw [if_pos hc, hcast hSl, hcast hSu]
    apply RangeCheck.ofBounds_eq <;> simp [hl, hu] <;> omega
  rw [if_neg hc]
  cases hd : Dst.isSigned <;> cases hs : Src.isSigned <;> simp only
  · have h0 := IntegralType.lowest_of_unsigned hd
    have h0' := IntegralType.lowest_of_unsigned hs
    apply RangeCheck.ofBounds_eq <;> simp [h0]
    omega
  · -- A signed source is compared in the common type, unless its maximum already fits.
    have hP : (Src.sumType Dst).InRange Src.max ∧ (Src.sumType Dst).InRange Dst.max ∧
        (Src.max ≤ Dst.max ∨ (Src.sumType Dst).isTypeInRange Src = true) := by
      clear hvl hvu hc value; revert Dst Src; decide
    have h0 := IntegralType.lowest_of_unsigned hd
    rw [hcast hP.1, hcast hP.2.1]
    refine RangeCheck.ofBounds_eq (by simp [h0]) ?_
    cases hP.2.2 with
    | inl hle => simp [hle]; omega
    | inr hin =>
      rw [hcast (value.inRange.of_isTypeInRange hin)]
      simp; omega
  · have hP : (Src.sumType Dst).isTypeInRange Src = true ∧ (Src.sumType Dst).InRange Dst.max := by
      clear hvl hvu value; revert Dst Src; decide
    have h0 := IntegralType.lowest_of_unsigned hs
    have hl := Dst.lowest_nonpos
    rw [hcast (value.inRange.of_isTypeInRange hP.1), hcast hP.2]
    apply RangeCheck.ofBounds_eq <;> simp [hl]
    omega
  · apply RangeCheck.ofBounds_eq <;> simp

section Comparison

variable {L R : IntegralType}

/-- `IsLessImpl`, `IsLessOrEqualImpl`: `op` compares in the type of `lhs + rhs`. -/
def isBelowImpl (op : ℤ → ℤ → Bool) (lhs : Num L) (rhs : Num R) (lRange rRange : RangeCheck) :
    Bool :=
  lRange.isUnderflow || rRange.isOverflow ||
    (decide (lRange = rRange) &&
      op (Num.staticCast (L.sumType R) lhs.val).val (Num.staticCast (L.sumType R) rhs.val).val)

/-- `IsGreaterImpl`, `IsGreaterOrEqualImpl`. -/
def isAboveImpl (op : ℤ → ℤ → Bool) (lhs : Num L) (rhs : Num R) (lRange rRange : RangeCheck) :
    Bool :=
  lRange.isOverflow || rRange.isUnderflow ||
    (decide (lRange = rRange) &&
      op (Num.staticCast (L.sumType R) lhs.val).val (Num.staticCast (L.sumType R) rhs.val).val)

def isLess (lhs : Num L) (rhs : Num R) : Bool :=
  isBelowImpl (fun a b => decide (a < b)) lhs rhs
    (dstRangeRelationToSrcRange (numericLimits R) lhs)
    (dstRangeRelationToSrcRange (numericLimits L) rhs)

def isLessOrEqual (lhs : Num L) (rhs : Num R) : Bool :=
  isBelowImpl (fun a b => decide (a ≤ b)) lhs rhs
    (dstRangeRelationToSrcRange (numericLimits R) lhs)
    (dstRangeRelationToSrcRange (numericLimits L) rhs)

def isGreater (lhs : Num L) (rhs : Num R) : Bool :=
  isAboveImpl (fun a b => decide (a > b)) lhs rhs
    (dstRangeRelationToSrcRange (numericLimits R) lhs)
    (dstRangeRelationToSrcRange (numericLimits L) rhs)

def isGreaterOrEqual (lhs : Num L) (rhs : Num R) : Bool :=
  isAboveImpl (fun a b => decide (a ≥ b)) lhs rhs
    (dstRangeRelationToSrcRange (numericLimits R) lhs)
    (dstRangeRelationToSrcRange (numericLimits L) rhs)

/-- Values that each fit the other's type survive the conversion to the common
type, so there the machine comparison is the comparison of integers. -/
theorem staticCast_sumType (lhs : Num L) (rhs : Num R)
    (hl : R.InRange lhs.val) (hr : L.InRange rhs.val) :
    (Num.staticCast (L.sumType R) lhs.val).val = lhs.val ∧
      (Num.staticCast (L.sumType R) rhs.val).val = rhs.val :=
  ⟨Num.staticCast_of_inRange (IntegralType.inRange_sumType lhs.inRange hl),
    Num.staticCast_of_inRange (IntegralType.inRange_sumType hr rhs.inRange)⟩

/-- The flags of a value that lies inside the destination's range. -/
theorem dstRange_of_inRange (Dst : IntegralType) {Src : IntegralType} (v : Num Src)
    (h : Dst.InRange v.val) :
    dstRangeRelationToSrcRange (numericLimits Dst) v = ⟨false, false⟩ := by
  rw [dstRangeRelationToSrcRange_numericLimits, decide_eq_false (not_lt.mpr h.1),
    decide_eq_false (not_lt.mpr h.2)]

theorem dstRange_of_lt (Dst : IntegralType) {Src : IntegralType} (v : Num Src)
    (h : v.val < Dst.lowest) :
    dstRangeRelationToSrcRange (numericLimits Dst) v = ⟨true, false⟩ := by
  have hd := Dst.lowest_lt_max
  rw [dstRangeRelationToSrcRange_numericLimits, decide_eq_true h, decide_eq_false (by omega)]

theorem dstRange_of_gt (Dst : IntegralType) {Src : IntegralType} (v : Num Src)
    (h : Dst.max < v.val) : dstRangeRelationToSrcRange (numericLimits Dst) v = ⟨false, true⟩ := by
  have hd := Dst.lowest_lt_max
  rw [dstRangeRelationToSrcRange_numericLimits, decide_eq_true h, decide_eq_false (by omega)]

/-- How two values lie in each other's types: either both fit, or the end of one
type separates them, which settles their order. -/
theorem cross_range (lhs : Num L) (rhs : Num R) :
    (R.InRange lhs.val ∧ L.InRange rhs.val) ∨
    (lhs.val < rhs.val ∧ (lhs.val < R.lowest ∨ L.max < rhs.val)) ∨
    (rhs.val < lhs.val ∧ (rhs.val < L.lowest ∨ R.max < lhs.val)) := by
  have hl := lhs.inRange
  have hr := rhs.inRange
  unfold IntegralType.InRange at *
  omega

/-- Comparing through the range checks decides the order of the integers. -/
theorem isBelowImpl_eq (op : ℤ → ℤ → Bool) (hlt : ∀ a b, a < b → op a b = true)
    (hgt : ∀ a b, b < a → op a b = false) (lhs : Num L) (rhs : Num R) :
    isBelowImpl op lhs rhs (dstRangeRelationToSrcRange (numericLimits R) lhs)
      (dstRangeRelationToSrcRange (numericLimits L) rhs) = op lhs.val rhs.val := by
  have hll := lhs.inRange
  have hrr := rhs.inRange
  unfold IntegralType.InRange at hll hrr
  obtain ⟨hl, hr⟩ | ⟨hlr, hl | hr⟩ | ⟨hlr, hr | hl⟩ := cross_range lhs rhs
  · obtain ⟨h1, h2⟩ := staticCast_sumType lhs rhs hl hr
    simp [isBelowImpl, dstRange_of_inRange _ _ hl, dstRange_of_inRange _ _ hr, h1, h2,
      RangeCheck.isUnderflow, RangeCheck.isOverflow]
  · simp [isBelowImpl, dstRange_of_lt _ _ hl, hlt _ _ hlr, RangeCheck.isUnderflow]
  · simp [isBelowImpl, dstRange_of_gt _ _ hr, hlt _ _ hlr, RangeCheck.isOverflow]
  · have hn : R.lowest ≤ lhs.val := by omega
    simp [isBelowImpl, dstRange_of_lt _ _ hr, dstRangeRelationToSrcRange_numericLimits R lhs,
      hgt _ _ hlr, hn, RangeCheck.isUnderflow, RangeCheck.isOverflow]
  · have hn : rhs.val ≤ L.max := by omega
    simp [isBelowImpl, dstRange_of_gt _ _ hl, dstRangeRelationToSrcRange_numericLimits L rhs,
      hgt _ _ hlr, hn, RangeCheck.isUnderflow, RangeCheck.isOverflow]

/-- The upward comparisons are the downward ones with the operands exchanged. -/
theorem isAboveImpl_swap (op : ℤ → ℤ → Bool) (lhs : Num L) (rhs : Num R)
    (lRange rRange : RangeCheck) :
    isAboveImpl op lhs rhs lRange rRange =
      isBelowImpl (fun a b => op b a) rhs lhs rRange lRange := by
  have hc : L.sumType R = R.sumType L := by
    clear lhs rhs; revert L R; decide
  rw [isAboveImpl, isBelowImpl, hc, Bool.or_comm lRange.isOverflow]
  simp only [eq_comm (a := lRange)]

@[simp] theorem isLess_eq (lhs : Num L) (rhs : Num R) :
    isLess lhs rhs = decide (lhs.val < rhs.val) :=
  isBelowImpl_eq _ (fun _ _ h => decide_eq_true h) (fun _ _ h => decide_eq_false h.not_gt) lhs rhs

@[simp] theorem isLessOrEqual_eq (lhs : Num L) (rhs : Num R) :
    isLessOrEqual lhs rhs = decide (lhs.val ≤ rhs.val) :=
  isBelowImpl_eq _ (fun _ _ h => decide_eq_true h.le) (fun _ _ h => decide_eq_false h.not_ge)
    lhs rhs

@[simp] theorem isGreater_eq (lhs : Num L) (rhs : Num R) :
    isGreater lhs rhs = decide (lhs.val > rhs.val) := by
  rw [isGreater, isAboveImpl_swap]
  exact isBelowImpl_eq _ (fun _ _ h => decide_eq_true h) (fun _ _ h => decide_eq_false h.not_gt)
    rhs lhs

@[simp] theorem isGreaterOrEqual_eq (lhs : Num L) (rhs : Num R) :
    isGreaterOrEqual lhs rhs = decide (lhs.val ≥ rhs.val) := by
  rw [isGreaterOrEqual, isAboveImpl_swap]
  exact isBelowImpl_eq _ (fun _ _ h => decide_eq_true h.le)
    (fun _ _ h => decide_eq_false h.not_ge) rhs lhs

end Comparison

/-- `IsMaxInRangeForNumericType`. -/
def isMaxInRange (Dst Src : IntegralType) : Bool :=
  isGreaterOrEqual (Num.maxValue Dst) (Num.maxValue Src)

/-- `IsMinInRangeForNumericType`. -/
def isMinInRange (Dst Src : IntegralType) : Bool :=
  isLessOrEqual (Num.lowestValue Dst) (Num.lowestValue Src)

def commonMax (Dst Src : IntegralType) : Num Dst :=
  if !isMaxInRange Dst Src then Num.staticCast Dst Dst.max else Num.staticCast Dst Src.max

def commonMin (Dst Src : IntegralType) : Num Dst :=
  if !isMinInRange Dst Src then Num.staticCast Dst Dst.lowest else Num.staticCast Dst Src.lowest

def commonMaxOrMin (Dst Src : IntegralType) (isMin : Bool) : Num Dst :=
  if isMin then commonMin Dst Src else commonMax Dst Src

theorem val_commonMax (Dst Src : IntegralType) : (commonMax Dst Src).val = min Dst.max Src.max := by
  have hs := Src.max_pos
  have hd := Dst.inRange_zero.1
  have hcast := @Num.staticCast_of_inRange
  simp only [commonMax, isMaxInRange, isGreaterOrEqual_eq, Num.val_maxValue]
  by_cases h : Dst.max ≥ Src.max
  · simpa [h] using hcast ⟨by omega, h⟩
  · simpa [h, (not_le.mp h).le] using hcast (Num.maxValue Dst).inRange

theorem val_commonMin (Dst Src : IntegralType) :
    (commonMin Dst Src).val = max Dst.lowest Src.lowest := by
  have hs := Src.lowest_nonpos
  have hd := Dst.inRange_zero.2
  have hcast := @Num.staticCast_of_inRange
  simp only [commonMin, isMinInRange, isLessOrEqual_eq, Num.val_lowestValue]
  by_cases h : Dst.lowest ≤ Src.lowest
  · simpa [h] using hcast ⟨h, by omega⟩
  · simpa [h, (not_le.mp h).le] using hcast (Num.lowestValue Dst).inRange

@[simp] theorem val_commonMaxOrMin_self (T : IntegralType) (isMin : Bool) :
    (commonMaxOrMin T T isMin).val = if isMin then T.lowest else T.max := by
  cases isMin <;> simp [commonMaxOrMin, val_commonMax, val_commonMin]

/-- `IsValueInRangeFastOp<Dst, Src>::Do`, where it is supported. -/
def isValueInRangeFastOp (Dst : IntegralType) {Src : IntegralType} (value : Num Src) :
    Option Bool :=
  if Src.isSigned && !Dst.isTypeInRange Src then
    if Dst.isSigned then some (decide (value.val = (Num.staticCast Dst value.val).val))
    else some (decide (value.asUnsigned.val ≤ (commonMax Src Dst).asUnsigned.val))
  else none

/-- `IsValueInRangeForNumericType`: the generic range check, where there is no fast path. -/
def isValueInRange (Dst : IntegralType) {Src : IntegralType} (value : Num Src) : Bool :=
  (isValueInRangeFastOp Dst value).getD
    (dstRangeRelationToSrcRange (numericLimits Dst) value).isValid

/-- The check holds exactly for the values in the destination's range. -/
@[simp] theorem isValueInRange_iff (Dst : IntegralType) {Src : IntegralType} (value : Num Src) :
    isValueInRange Dst value = true ↔ Dst.InRange value.val := by
  unfold isValueInRange isValueInRangeFastOp
  cases hf : Src.isSigned && !Dst.isTypeInRange Src with
  | false =>
    simp only [Bool.false_eq_true, if_false, Option.getD_none,
      dstRangeRelationToSrcRange_numericLimits, RangeCheck.isValid,
      IntegralType.InRange]
    simp [and_comm]
  | true =>
    simp only [Bool.and_eq_true, Bool.not_eq_true'] at hf
    rw [if_pos rfl]
    cases hd : Dst.isSigned with
    | true =>
      rw [if_pos rfl, Option.getD_some]
      refine decide_eq_true_iff.trans
        ⟨fun h => h ▸ (Num.staticCast Dst value.val).inRange, fun h => ?_⟩
      exact (Num.staticCast_of_inRange h).symm
    | false =>
      rw [if_neg Bool.false_ne_true, Option.getD_some]
      have h0 := IntegralType.lowest_of_unsigned hd
      have hmax : (commonMax Src Dst).asUnsigned.val = min Src.max Dst.max := by
        have hm := Src.max_pos
        have hm' := Dst.max_pos
        rw [Num.asUnsigned_of_nonneg _ (by rw [val_commonMax]; omega), val_commonMax]
      have hu := value.le_max
      simp only [hmax, decide_eq_true_eq, IntegralType.InRange, h0]
      by_cases hn : 0 ≤ value.val
      · rw [Num.asUnsigned_of_nonneg value hn]
        omega
      · have hl := value.lowest_le
        have hs := Src.lowest_add_modulus
        rw [Num.asUnsigned_of_neg value (not_le.mp hn)]
        omega

/-- A saturation handler: the limits a value is checked against and the results
on either side. `nan` is what an integer type has in place of a NaN. -/
structure SaturationHandler (T : IntegralType) extends Bounds T where
  overflow : Num T
  underflow : Num T
  nan : Num T

/-- `SaturationDefaultLimits`; an integer type has neither infinity nor NaN. -/
def saturationDefaultLimits (T : IntegralType) : SaturationHandler T where
  toBounds := numericLimits T
  overflow := Num.maxValue T
  underflow := Num.lowestValue T
  nan := 0

/-- `saturated_cast_impl`. An integral source is never NaN. -/
def saturatedCastImpl {Dst Src : IntegralType} (handler : SaturationHandler Dst) (value : Num Src)
    (constraint : RangeCheck) : Num Dst :=
  if !constraint.isOverflowFlagSet then
    if !constraint.isUnderflowFlagSet then Num.staticCast Dst value.val else handler.underflow
  else handler.overflow

/-- `SaturateFastOp::Do` without an assembler implementation. -/
def saturateFastOp (Dst : IntegralType) {Src : IntegralType} (value : Num Src) : Num Dst :=
  let saturated := commonMaxOrMin Dst Src
    (isMaxInRange Dst Src || (!isMinInRange Dst Src && value.isValueNegative))
  if isValueInRange Dst value then Num.staticCast Dst value.val else saturated

/-- `saturated_cast<Dst>` with the default handler; the flag is
`IsCompileTimeConstant(value)`. -/
def saturatedCast (isCompileTimeConstant : Bool) (Dst : IntegralType) {Src : IntegralType}
    (value : Num Src) : Num Dst :=
  if !isCompileTimeConstant then saturateFastOp Dst value
  else
    saturatedCastImpl (saturationDefaultLimits Dst) value
      (dstRangeRelationToSrcRange (saturationDefaultLimits Dst).toBounds value)

/-- A value that the destination holds passes through on both paths. -/
theorem val_saturatedCast_of_inRange (isCompileTimeConstant : Bool) (Dst : IntegralType)
    {Src : IntegralType} (value : Num Src) (h : Dst.InRange value.val) :
    (saturatedCast isCompileTimeConstant Dst value).val = value.val := by
  cases isCompileTimeConstant with
  | false =>
    simp [saturatedCast, saturateFastOp, (isValueInRange_iff Dst value).mpr h,
      Num.staticCast_of_inRange h]
  | true =>
    simp [saturatedCast, saturatedCastImpl, saturationDefaultLimits, dstRange_of_inRange Dst _ h,
      Num.staticCast_of_inRange h]

@[simp] theorem saturatedCast_self (isCompileTimeConstant : Bool) {T : IntegralType} (x : Num T) :
    saturatedCast isCompileTimeConstant T x = x :=
  Num.ext (val_saturatedCast_of_inRange _ _ x x.inRange)

end MiniChromium
