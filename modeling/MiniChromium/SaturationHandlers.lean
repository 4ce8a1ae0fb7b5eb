import MiniChromium.IntegerConversions

/-!
# Saturation to other limits

A saturation handler has limits of its own. The range checks compare them in types chosen
for the standard limits, where a negative maximum or a negative value may wrap, and then
`saturated_cast` picks the wrong side.
-/
namespace MiniChromium

open IntegralType MiniChromium.Num

variable {Dst Src : IntegralType}

/-- `saturated_cast<Dst, SaturationHandler>` of a handler other than the default one. -/
def saturatedCastWith (handler : SaturationHandler Dst) (value : Num Src) : Num Dst :=
  saturatedCastImpl handler value (dstRangeRelationToSrcRange handler.toBounds value)

/-- The value within the limits, and otherwise what the handler has for its side. -/
def PicksSide (handler : SaturationHandler Dst) (value : Num Src) : Prop :=
  (handler.lowest.val ≤ value.val → value.val ≤ handler.max.val →
    (saturatedCastWith handler value).val = value.val) ∧
  (handler.max.val < value.val → saturatedCastWith handler value = handler.overflow) ∧
  (value.val < handler.lowest.val → saturatedCastWith handler value = handler.underflow)

/-- The range check of the types compares in an unsigned type, `decltype(Src() + Dst())`. -/
def ComparesUnsigned (Dst Src : IntegralType) : Prop :=
  Dst.isTypeInRange Src = false ∧ Dst.isSigned ≠ Src.isSigned ∧ (Src.sumType Dst).isSigned = false

instance (Dst Src : IntegralType) : Decidable (ComparesUnsigned Dst Src) :=
  inferInstanceAs (Decidable (_ ∧ _ ∧ _))

/-- An unsigned value is not above a negative maximum that has wrapped. -/
def MaximumWraps (bounds : Bounds Dst) (value : Num Src) : Prop :=
  ComparesUnsigned Dst Src ∧ bounds.max.val < 0 ∧ value.val ≤ bounds.max.val + Src.modulus

instance (bounds : Bounds Dst) (value : Num Src) : Decidable (MaximumWraps bounds value) :=
  inferInstanceAs (Decidable (_ ∧ _ ∧ _))

/-- A negative value has wrapped, and is above a maximum that a value of its type may
exceed. -/
def ValueWraps (bounds : Bounds Dst) (value : Num Src) : Prop :=
  ComparesUnsigned Dst Src ∧ value.val < 0 ∧ bounds.max.val < Src.max

instance (bounds : Bounds Dst) (value : Num Src) : Decidable (ValueWraps bounds value) :=
  inferInstanceAs (Decidable (_ ∧ _ ∧ _))

/-- Where the values are compared, for a destination of the other sign. -/
theorem sumType_cases (Dst Src : IntegralType) (hsign : Dst.isSigned ≠ Src.isSigned)
    (hnot : Dst.isTypeInRange Src = false) :
    ((Src.sumType Dst).isSigned = true ∧ (Src.sumType Dst).isTypeInRange Src = true ∧
      (Src.sumType Dst).isTypeInRange Dst = true) ∨
    ((Src.sumType Dst).isSigned = false ∧
      (Dst.isSigned = true →
        Src.sumType Dst = Src ∧ -Src.modulus ≤ Dst.lowest ∧ Dst.max ≤ Src.max) ∧
      (Dst.isSigned = false →
        Src.sumType Dst = Dst ∧ Src.max - Dst.modulus < Src.lowest ∧ Src.max ≤ Dst.max)) := by
  revert Dst Src
  decide

/-- A destination that holds the whole source type, or has its sign, compares the integers. -/
theorem flags_of_sameSign (bounds : Bounds Dst) (value : Num Src)
    (h : Dst.isTypeInRange Src = true ∨ Dst.isSigned = Src.isSigned) :
    dstRangeRelationToSrcRange bounds value =
      ⟨decide (value.val < bounds.lowest.val), decide (bounds.max.val < value.val)⟩ := by
  simp only [dstRangeRelationToSrcRange, NarrowingRange.adjust_eq]
  by_cases hc : Dst.isTypeInRange Src = true
  · have hcast : ∀ x : Num Src, (staticCast Dst x.val).val = x.val := fun x =>
      staticCast_of_inRange (x.inRange.of_isTypeInRange hc)
    have hl := hcast (lowestValue Src)
    have hu := hcast (maxValue Src)
    have hvl := value.lowest_le
    have hvu := value.le_max
    simp only [val_lowestValue, val_maxValue] at hl hu
    rw [if_pos hc, hl, hu, hcast value]
    apply RangeCheck.ofBounds_eq <;> simp <;> omega
  · have hsign := h.resolve_left hc
    rw [if_neg hc]
    cases hs : Src.isSigned with
    | true =>
      rw [hs] at hsign
      simp only [hsign]
      apply RangeCheck.ofBounds_eq <;> simp
    | false =>
      rw [hs] at hsign
      have hpos := value.nonneg hs
      simp only [hsign]
      apply RangeCheck.ofBounds_eq <;> simp
      omega

/-- A negative number wraps to the upper end of an unsigned type. -/
theorem staticCast_of_neg {T : IntegralType} {z : ℤ} (h : T.isSigned = false) (hz : z < 0)
    (hl : -T.modulus ≤ z) : (staticCast T z).val = z + T.modulus := by
  have hm := T.lowest_add_modulus
  have h0 := lowest_of_unsigned h
  have hc : z + T.modulus ≡ z [ZMOD T.modulus] := by simp [Int.ModEq]
  rw [← staticCast_congr hc]
  exact staticCast_of_inRange ⟨by omega, by omega⟩

/-- An unsigned source, against the limits of a signed type. -/
theorem overflow_of_unsigned (bounds : Bounds Dst) (value : Num Src) (hd : Dst.isSigned = true)
    (hs : Src.isSigned = false) (hnot : Dst.isTypeInRange Src = false) :
    (dstRangeRelationToSrcRange bounds value).isOverflowFlagSet = true ↔
      bounds.max.val < value.val ∧ ¬MaximumWraps bounds value := by
  have hpos := value.nonneg hs
  have hrange := bounds.max.inRange
  have hP := sumType_cases Dst Src (by simp [hd, hs]) hnot
  simp only [dstRangeRelationToSrcRange, NarrowingRange.adjust_eq, hnot, hd, hs,
    Bool.false_eq_true, if_false, RangeCheck.ofBounds, Bool.not_eq_true', decide_eq_false_iff_not,
    not_le]
  cases hP with
  | inl hP =>
    have hv := staticCast_of_inRange (value.inRange.of_isTypeInRange hP.2.1)
    have hm := staticCast_of_inRange (hrange.of_isTypeInRange hP.2.2)
    simp [hv, hm, MaximumWraps, ComparesUnsigned, hP.1]
  | inr hP =>
    obtain ⟨hsame, hmod, hmax⟩ := hP.2.1 hd
    have hwraps : MaximumWraps bounds value ↔
        bounds.max.val < 0 ∧ value.val ≤ bounds.max.val + Src.modulus := by
      simp [MaximumWraps, ComparesUnsigned, hP.1, hnot, hd, hs]
    rw [hwraps, hsame, staticCast_self]
    by_cases hneg : bounds.max.val < 0
    · rw [staticCast_of_neg hs hneg (hmod.trans hrange.1)]
      omega
    · rw [staticCast_of_inRange ⟨by have := lowest_of_unsigned hs; omega, hrange.2.trans hmax⟩]
      omega

/-- A signed source, against the limits of an unsigned type. -/
theorem overflow_of_signed (bounds : Bounds Dst) (value : Num Src) (hd : Dst.isSigned = false)
    (hs : Src.isSigned = true) :
    (dstRangeRelationToSrcRange bounds value).isOverflowFlagSet = true ↔
      bounds.max.val < value.val ∨ ValueWraps bounds value := by
  have hnot : Dst.isTypeInRange Src = false := by simp [isTypeInRange, hd, hs]
  have hpos := bounds.max.nonneg hd
  have hvalue := value.inRange
  have hP := sumType_cases Dst Src (by simp [hd, hs]) hnot
  simp only [dstRangeRelationToSrcRange, NarrowingRange.adjust_eq, hnot, hd, hs,
    Bool.false_eq_true, if_false, RangeCheck.ofBounds, Bool.not_eq_true', Bool.or_eq_false_iff,
    decide_eq_false_iff_not, not_le]
  cases hP with
  | inl hP =>
    have hv := staticCast_of_inRange (hvalue.of_isTypeInRange hP.2.1)
    have hS := staticCast_of_inRange ((maxValue Src).inRange.of_isTypeInRange hP.2.1)
    have hm := staticCast_of_inRange (bounds.max.inRange.of_isTypeInRange hP.2.2)
    simp only [val_maxValue] at hS
    simp only [hv, hS, hm, ValueWraps, ComparesUnsigned, hP.1]
    have hu := value.le_max
    simp
    omega
  | inr hP =>
    obtain ⟨hsame, hmod, hmax⟩ := hP.2.2 hd
    have hwraps : ValueWraps bounds value ↔ value.val < 0 ∧ bounds.max.val < Src.max := by
      simp [ValueWraps, ComparesUnsigned, hP.1, hnot, hd, hs]
    have h0 := lowest_of_unsigned hd
    have hpos' := Src.max_pos
    have hS : (staticCast Dst Src.max).val = Src.max := staticCast_of_inRange ⟨by omega, hmax⟩
    rw [hwraps, hsame, staticCast_self, hS]
    have hl := value.lowest_le
    have hu := value.le_max
    by_cases hneg : value.val < 0
    · rw [staticCast_of_neg hd hneg (by omega)]
      omega
    · rw [staticCast_of_inRange ⟨by omega, by omega⟩]
      omega

/-- The overflow flag is right for a value above the limits unless the maximum wraps, and it
is set by mistake where the value wraps. -/
theorem overflow_iff (bounds : Bounds Dst) (value : Num Src) :
    (dstRangeRelationToSrcRange bounds value).isOverflowFlagSet = true ↔
      (bounds.max.val < value.val ∧ ¬MaximumWraps bounds value) ∨ ValueWraps bounds value := by
  by_cases hsame : Dst.isTypeInRange Src = true ∨ Dst.isSigned = Src.isSigned
  · have hnot : ¬ComparesUnsigned Dst Src := fun h =>
      hsame.elim (fun hc => by simp [h.1] at hc) h.2.1
    simp [flags_of_sameSign bounds value hsame, MaximumWraps, ValueWraps, hnot]
  · obtain ⟨hc, hsign⟩ := not_or.mp hsame
    cases hs : Src.isSigned with
    | false =>
      have hd : Dst.isSigned = true := by simpa [hs] using hsign
      have hno : ¬ValueWraps bounds value := fun h => (value.nonneg hs).not_gt h.2.1
      simp [overflow_of_unsigned bounds value hd hs (by simpa using hc), hno]
    | true =>
      have hd : Dst.isSigned = false := by simpa [hs] using hsign
      have hno : ¬MaximumWraps bounds value := fun h => (bounds.max.nonneg hd).not_gt h.2.1
      simp [overflow_of_signed bounds value hd hs, hno]

/-- For a value that is not above the destination type the underflow flag is right; for a
signed destination it is always right. -/
theorem underflow_iff (bounds : Bounds Dst) (value : Num Src)
    (h : Dst.isSigned = true ∨ value.val ≤ Dst.max) :
    (dstRangeRelationToSrcRange bounds value).isUnderflowFlagSet = true ↔
      value.val < bounds.lowest.val := by
  by_cases hsame : Dst.isTypeInRange Src = true ∨ Dst.isSigned = Src.isSigned
  · simp [flags_of_sameSign bounds value hsame]
  obtain ⟨hc, hsign⟩ := not_or.mp hsame
  have hrange := bounds.lowest.inRange
  simp only [dstRangeRelationToSrcRange, NarrowingRange.adjust_eq, hc, Bool.false_eq_true, if_false]
  cases hs : Src.isSigned with
  | false =>
    have hd : Dst.isSigned = true := by simpa [hs] using hsign
    have hpos := value.nonneg hs
    simp only [hd, RangeCheck.ofBounds, Bool.not_eq_true', Bool.or_eq_false_iff,
      decide_eq_false_iff_not, not_le]
    by_cases hneg : bounds.lowest.val ≤ 0
    · omega
    · -- A positive lower limit is compared in a type that holds both values.
      have hP : (Src.sumType Dst).isTypeInRange Src = true ∧ Dst.max ≤ (Src.sumType Dst).max := by
        clear * -hd hs
        revert Dst Src
        decide
      have h0 := (Src.sumType Dst).lowest_nonpos
      rw [staticCast_of_inRange (value.inRange.of_isTypeInRange hP.1),
        staticCast_of_inRange ⟨by omega, hrange.2.trans hP.2⟩]
      omega
  | true =>
    have hd : Dst.isSigned = false := by simpa [hs] using hsign
    have hlow := bounds.lowest.nonneg hd
    have hmax : value.val ≤ Dst.max := h.resolve_left (by simp [hd])
    simp only [hd, RangeCheck.ofBounds, Bool.not_eq_true', Bool.and_eq_false_iff,
      Bool.or_eq_false_iff, decide_eq_false_iff_not, not_le]
    by_cases hneg : value.val < 0
    · omega
    · have h0 := lowest_of_unsigned hd
      rw [staticCast_of_inRange ⟨by omega, hmax⟩]
      omega

/-- Only the maximum of a signed type wraps, and only for an unsigned source. -/
theorem MaximumWraps.signs {bounds : Bounds Dst} {value : Num Src}
    (h : MaximumWraps bounds value) : Dst.isSigned = true ∧ Src.isSigned = false := by
  have hne := h.1.2.1
  cases hd : Dst.isSigned with
  | false => exact absurd h.2.1 (bounds.max.nonneg hd).not_gt
  | true => simpa [hd] using hne.symm

/-- A negative value that wraps lies below the limits. -/
theorem ValueWraps.lt_lowest {bounds : Bounds Dst} {value : Num Src}
    (h : ValueWraps bounds value) : value.val < bounds.lowest.val := by
  have hd : Dst.isSigned = false := by
    cases hs : Src.isSigned with
    | false => exact absurd h.2.1 (value.nonneg hs).not_gt
    | true => simpa [hs] using h.1.2.1
  exact h.2.1.trans_le (bounds.lowest.nonneg hd)

/-- Above the limits the cast takes the overflow value, but truncates where the maximum
wraps. -/
theorem saturatedCastWith_of_gt (handler : SaturationHandler Dst) (value : Num Src)
    (h : handler.max.val < value.val) :
    saturatedCastWith handler value =
      if MaximumWraps handler.toBounds value then staticCast Dst value.val
      else handler.overflow := by
  have hO := overflow_iff handler.toBounds value
  by_cases hwraps : MaximumWraps handler.toBounds value
  · obtain ⟨hd, hs⟩ := hwraps.signs
    have hno : ¬ValueWraps handler.toBounds value := fun hv => (value.nonneg hs).not_gt hv.2.1
    have hU := underflow_iff handler.toBounds value (.inl hd)
    have hlow : ¬value.val < handler.lowest.val := not_lt.mpr (handler.lowest_lt_max.trans h).le
    simp only [hwraps, hno, not_true_eq_false, and_false, or_false, iff_false] at hO
    simp only [hlow, iff_false] at hU
    simp [saturatedCastWith, saturatedCastImpl, hO, hU, hwraps]
  · have hset := hO.mpr (.inl ⟨h, hwraps⟩)
    simp [saturatedCastWith, saturatedCastImpl, hset, hwraps]

/-- Otherwise it takes the side of the value, but the overflow value where the value wraps. -/
theorem saturatedCastWith_of_le (handler : SaturationHandler Dst) (value : Num Src)
    (h : value.val ≤ handler.max.val) :
    saturatedCastWith handler value =
      if ValueWraps handler.toBounds value then handler.overflow
      else if value.val < handler.lowest.val then handler.underflow
      else staticCast Dst value.val := by
  have hO := overflow_iff handler.toBounds value
  have hU := underflow_iff handler.toBounds value (.inr (h.trans handler.max.le_max))
  simp only [not_lt.mpr h, false_and, false_or] at hO
  by_cases hwraps : ValueWraps handler.toBounds value
  · simp [saturatedCastWith, saturatedCastImpl, hO, hwraps]
  · simp only [hwraps, iff_false, Bool.not_eq_true] at hO
    by_cases hlow : value.val < handler.lowest.val <;>
      simp [saturatedCastWith, saturatedCastImpl, hO, hU, hwraps, hlow]

/-- The cast picks the right side, except that it truncates a value above a negative maximum
that wraps and takes the overflow value for a negative value that wraps. -/
theorem picksSide_iff (handler : SaturationHandler Dst) (value : Num Src) :
    PicksSide handler value ↔
      (MaximumWraps handler.toBounds value → staticCast Dst value.val = handler.overflow) ∧
        (ValueWraps handler.toBounds value → handler.overflow = handler.underflow) := by
  have hlt := handler.lowest_lt_max
  constructor
  · rintro ⟨-, habove, hbelow⟩
    constructor
    · intro hwraps
      have hmax : handler.max.val < value.val :=
        hwraps.2.1.trans_le (value.nonneg hwraps.signs.2)
      have hcast := habove hmax
      rwa [saturatedCastWith_of_gt handler value hmax, if_pos hwraps] at hcast
    · intro hwraps
      have hlow := hwraps.lt_lowest
      have hcast := hbelow hlow
      rwa [saturatedCastWith_of_le handler value (by omega), if_pos hwraps] at hcast
  · rintro ⟨hmaximum, hvalue⟩
    refine ⟨fun hl hu => ?_, fun hmax => ?_, fun hlow => ?_⟩
    · have hno : ¬ValueWraps handler.toBounds value := fun h => hl.not_gt h.lt_lowest
      rw [saturatedCastWith_of_le handler value hu, if_neg hno, if_neg hl.not_gt]
      exact staticCast_of_inRange ⟨handler.lowest.lowest_le.trans hl, hu.trans handler.max.le_max⟩
    · rw [saturatedCastWith_of_gt handler value hmax]
      split_ifs with hwraps
      · exact hmaximum hwraps
      · rfl
    · rw [saturatedCastWith_of_le handler value (by omega)]
      split_ifs with hwraps
      · exact hvalue hwraps
      · rfl

/-- Limits below zero. -/
def negativeLimits : SaturationHandler .int32 where
  lowest := staticCast .int32 (-10)
  max := staticCast .int32 (-1)
  lowest_lt_max := by decide
  overflow := staticCast .int32 (-1)
  underflow := staticCast .int32 (-10)
  nan := 0

/-- Limits with a maximum that a value of the signed type may exceed. -/
def smallLimits : SaturationHandler .uint32 where
  lowest := 0
  max := staticCast .uint32 10
  lowest_lt_max := by decide
  overflow := staticCast .uint32 10
  underflow := 0
  nan := 0

/-- The cast of 5 to the limits from -10 to -1 is 5, and that of -1 to the limits from 0 to 10
is the overflow value. -/
theorem not_picksSide :
    (saturatedCastWith negativeLimits (staticCast .uint32 5)).val = 5 ∧
      ¬PicksSide negativeLimits (staticCast .uint32 5) ∧
      saturatedCastWith smallLimits (staticCast .int32 (-1)) = smallLimits.overflow ∧
      ¬PicksSide smallLimits (staticCast .int32 (-1)) := by
  unfold PicksSide
  decide

end MiniChromium
