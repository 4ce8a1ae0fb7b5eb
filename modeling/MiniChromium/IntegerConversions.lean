import MiniChromium.SafeConversions

/-!
# The conversions between integer types

The range test has two fast paths and a generic one, `checked_cast` is built on the test,
and `saturated_cast` has a path for constants and one for other values. All of them are
exact.
-/
namespace MiniChromium

open IntegralType MiniChromium.Num

variable {Src : IntegralType}

/-- `checked_cast<Dst>`; nothing where the value does not fit and `HandleFailure` ends
the process. -/
def checkedCast (Dst : IntegralType) (value : Num Src) : Option (Num Dst) :=
  if isValueInRange Dst value then some (staticCast Dst value.val) else none

theorem isValueInRangeFastOp_iff {Dst : IntegralType} {value : Num Src} {b : Bool}
    (h : isValueInRangeFastOp Dst value = some b) : b = true ↔ Dst.InRange value.val := by
  rw [← isValueInRange_iff, isValueInRange, h, Option.getD_some]

/-- The generic test, which the fast paths leave unused for signed types. -/
theorem isValid_dstRangeRelationToSrcRange_iff (Dst : IntegralType) (value : Num Src) :
    (dstRangeRelationToSrcRange (numericLimits Dst) value).isValid = true ↔
      Dst.InRange value.val := by
  rw [dstRangeRelationToSrcRange_numericLimits]
  simp [RangeCheck.isValid, IntegralType.InRange, and_comm]

theorem checkedCast_eq (Dst : IntegralType) (value : Num Src) :
    (checkedCast Dst value).map Num.val =
      if Dst.InRange value.val then some value.val else none := by
  rw [checkedCast]
  by_cases h : Dst.InRange value.val
  · rw [if_pos h, if_pos ((isValueInRange_iff Dst value).mpr h), Option.map_some,
      staticCast_of_inRange h]
  · rw [if_neg h, if_neg (mt (isValueInRange_iff Dst value).mp h), Option.map_none]

theorem clamp_of_lt {T : IntegralType} {z : ℤ} (h : z < T.lowest) : T.clamp z = T.lowest :=
  (BoundedInt.clamp_eq_lo_iff T.lowest_lt_max).mpr h.le

theorem clamp_of_gt {T : IntegralType} {z : ℤ} (h : T.max < z) : T.clamp z = T.max :=
  (BoundedInt.clamp_eq_hi_iff T.lowest_lt_max).mpr h.le

/-- A value is below the range, above it, or in it. -/
theorem inRange_cases (T : IntegralType) (z : ℤ) : z < T.lowest ∨ T.max < z ∨ T.InRange z := by
  unfold IntegralType.InRange
  omega

theorem isMaxInRange_iff (Dst Src : IntegralType) :
    isMaxInRange Dst Src = true ↔ Src.max ≤ Dst.max := by
  rw [isMaxInRange, isGreaterOrEqual_eq]
  exact decide_eq_true_iff

theorem isMinInRange_iff (Dst Src : IntegralType) :
    isMinInRange Dst Src = true ↔ Dst.lowest ≤ Src.lowest := by
  rw [isMinInRange, isLessOrEqual_eq]
  exact decide_eq_true_iff

/-- The bound is chosen before the test, by what the two types leave possible. -/
theorem val_saturateFastOp (Dst : IntegralType) (value : Num Src) :
    (saturateFastOp Dst value).val = Dst.clamp value.val := by
  have hlow := value.lowest_le
  have hmax := value.le_max
  have hDst := Dst.lowest_lt_max
  simp only [saturateFastOp, isValueInRange_iff]
  obtain h | h | h := inRange_cases Dst value.val
  · have hneg : value.isValueNegative = true := by
      rw [isValueNegative_iff]
      exact h.trans_le Dst.lowest_nonpos
    have hmin : isMinInRange Dst Src = false := by
      rw [← Bool.not_eq_true, isMinInRange_iff]
      omega
    rw [if_neg (fun hin => absurd hin.1 (not_le.mpr h)), clamp_of_lt h, hneg, hmin,
      Bool.not_false, Bool.and_true, Bool.or_true, commonMaxOrMin, if_pos rfl, val_commonMin]
    omega
  · have hneg : value.isValueNegative = false := by
      rw [← Bool.not_eq_true, isValueNegative_iff]
      exact (Dst.max_pos.trans h).not_gt
    have hle : isMaxInRange Dst Src = false := by
      rw [← Bool.not_eq_true, isMaxInRange_iff]
      omega
    rw [if_neg (fun hin => absurd hin.2 (not_le.mpr h)), clamp_of_gt h, hneg, hle,
      Bool.and_false, Bool.or_false, commonMaxOrMin, if_neg Bool.false_ne_true, val_commonMax]
    omega
  · rw [if_pos h, staticCast_of_inRange h, clamp_of_inRange h]

theorem val_saturatedCastImpl_default (Dst : IntegralType) (value : Num Src) :
    (saturatedCastImpl (saturationDefaultLimits Dst) value
      (dstRangeRelationToSrcRange (saturationDefaultLimits Dst).toBounds value)).val =
        Dst.clamp value.val := by
  have hbounds : (saturationDefaultLimits Dst).toBounds = numericLimits Dst := rfl
  rw [hbounds, saturatedCastImpl]
  obtain h | h | h := inRange_cases Dst value.val
  · rw [dstRange_of_lt Dst value h, clamp_of_lt h]
    rfl
  · rw [dstRange_of_gt Dst value h, clamp_of_gt h]
    rfl
  · rw [dstRange_of_inRange Dst value h, clamp_of_inRange h]
    exact staticCast_of_inRange h

@[simp] theorem val_saturatedCast (isCompileTimeConstant : Bool) (Dst : IntegralType)
    (value : Num Src) :
    (saturatedCast isCompileTimeConstant Dst value).val = Dst.clamp value.val := by
  cases isCompileTimeConstant with
  | false => exact val_saturateFastOp Dst value
  | true => exact val_saturatedCastImpl_default Dst value

/-- The range test on every path, `checked_cast` and `saturated_cast` are exact. -/
theorem integerConversions_exact (Dst : IntegralType) (value : Num Src) :
    (isValueInRange Dst value = true ↔ Dst.lowest ≤ value.val ∧ value.val ≤ Dst.max) ∧
    (∀ b ∈ isValueInRangeFastOp Dst value,
      b = true ↔ Dst.lowest ≤ value.val ∧ value.val ≤ Dst.max) ∧
    ((dstRangeRelationToSrcRange (numericLimits Dst) value).isValid = true ↔
      Dst.lowest ≤ value.val ∧ value.val ≤ Dst.max) ∧
    (checkedCast Dst value).map Num.val =
      (if Dst.lowest ≤ value.val ∧ value.val ≤ Dst.max then some value.val else none) ∧
    ∀ isCompileTimeConstant,
      (saturatedCast isCompileTimeConstant Dst value).val = Dst.clamp value.val :=
  ⟨isValueInRange_iff Dst value, fun _ hb => isValueInRangeFastOp_iff hb,
    isValid_dstRangeRelationToSrcRange_iff Dst value, checkedCast_eq Dst value,
    fun isConstant => val_saturatedCast isConstant Dst value⟩

end MiniChromium
