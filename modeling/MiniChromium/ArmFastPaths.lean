import MiniChromium.ClampedSaturation
import MiniChromium.IntegerConversions
import MiniChromium.SafeCompare

/-!
# The assembler paths of 32-bit ARM

On that target conversions saturate with `ssat` and `usat`, clamped sums and differences go
through `qadd` and `qsub`, and a product is computed in a type of twice the width. Each path is
taken for the pairs of types that its template supports, and is compared with the portable one.
-/
namespace MiniChromium.Arm

open IntegralType MiniChromium.Num

variable {Dst Src T U V : IntegralType}

/-- `ssat dst, #n, src`: the range of an `n`-bit signed integer. -/
def ssat (n : ℕ) (src : Num .int32) : Num .int32 :=
  staticCast .int32 (BoundedInt.clamp (-2 ^ (n - 1)) (2 ^ (n - 1) - 1) src.val)

/-- `usat dst, #n, src`: the range of an `n`-bit unsigned integer. -/
def usat (n : ℕ) (src : Num .int32) : Num .uint32 :=
  staticCast .uint32 (BoundedInt.clamp 0 (2 ^ n - 1) src.val)

def qadd (x y : Num .int32) : Num .int32 := staticCast .int32 (int32.clamp (x.val + y.val))

def qsub (x y : Num .int32) : Num .int32 := staticCast .int32 (int32.clamp (x.val - y.val))

/-- `SaturateFastAsmOp<Dst, Src>::is_supported`. -/
def saturateFastAsmOpIsSupported (Dst Src : IntegralType) : Bool :=
  Src.isSigned && decide (Src.integerBitsPlusSign ≤ int32.integerBitsPlusSign) &&
    decide (Dst.integerBitsPlusSign ≤ int32.integerBitsPlusSign) && !Dst.isTypeInRange Src

/-- `SaturateFastAsmOp<Dst, Src>::Do`. -/
def saturateFastAsmOp (Dst : IntegralType) (value : Num Src) : Num Dst :=
  let src := staticCast .int32 value.val
  if Dst.isSigned then
    staticCast Dst (ssat (if Dst.integerBitsPlusSign ≤ 32 then Dst.integerBitsPlusSign else 32)
      src).val
  else
    staticCast Dst (usat (if Dst.integerBitsPlusSign < 32 then Dst.integerBitsPlusSign else 31)
      src).val

/-- `saturated_cast<Dst>` with the default handler, where the assembler is available. -/
def saturatedCast (isCompileTimeConstant : Bool) (Dst : IntegralType) (value : Num Src) : Num Dst :=
  if !isCompileTimeConstant && saturateFastAsmOpIsSupported Dst Src then saturateFastAsmOp Dst value
  else MiniChromium.saturatedCast isCompileTimeConstant Dst value

/-- `FastIntegerArithmeticPromotion<Lhs, Rhs>::is_contained`. -/
def fastIntegerArithmeticPromotionIsContained (Lhs Rhs : IntegralType) : Bool :=
  let M := maxExponentPromotion Lhs Rhs
  isIntegerArithmeticSafe (if Lhs.isSigned || Rhs.isSigned then int64 else uint64) M M

/-- `static_cast<Promotion>(x) * static_cast<Promotion>(y)`, of the type of the promoted
operands. -/
def promotedProduct (P : IntegralType) (x : Num T) (y : Num U) : Num P.promoted :=
  staticCast P.promoted ((staticCast P x.val).val * (staticCast P y.val).val)

/-- `CheckedMulFastAsmOp<T, U>::Do`. -/
def checkedMulFastAsmOp (V : IntegralType) (x : Num T) (y : Num U) : Bool × Num V :=
  let Promotion := fastIntegerArithmeticPromotion T U
  let presult := staticCast Promotion (promotedProduct Promotion x y).val
  (isValueInRange V presult, staticCast V presult.val)

/-- `ClampedMulFastAsmOp<T, U>::Do`. -/
def clampedMulFastAsmOp (isCompileTimeConstant : Bool) (V : IntegralType) (x : Num T) (y : Num U) :
    Num V :=
  if !isIntegerArithmeticSafe int32 T U && !isIntegerArithmeticSafe uint32 T U then
    let result := checkedMulFastAsmOp V x y
    if result.1 then result.2 else commonMaxOrMin V V (x.isValueNegative ^^ y.isValueNegative)
  else
    saturatedCast isCompileTimeConstant V (promotedProduct (fastIntegerArithmeticPromotion T U) x y)

/-- `ClampedAddFastAsmOp<T, U>::is_supported`, and that of `ClampedSubFastAsmOp`. -/
def clampedWordFastAsmOpIsSupported (T U : IntegralType) : Bool :=
  bigEnoughPromotionIsContained T U && int32.isTypeInRange (bigEnoughPromotion T U)

/-- The body of `ClampedAddFastAsmOp::Do` and `ClampedSubFastAsmOp::Do`, with the operator and
its instruction. -/
def clampedWordFastAsmOp (op : ℤ → ℤ → ℤ) (instruction : Num .int32 → Num .int32 → Num .int32)
    (isCompileTimeConstant : Bool) (V : IntegralType) (x : Num T) (y : Num U) : Num V :=
  if isIntegerArithmeticSafe int32 T U then
    saturatedCast isCompileTimeConstant V (staticCast (T.sumType U)
      (op (staticCast (T.sumType U) x.val).val (staticCast (T.sumType U) y.val).val))
  else
    saturatedCast isCompileTimeConstant V
      (instruction (staticCast .int32 x.val) (staticCast .int32 y.val))

def clampedAddFastAsmOp (isCompileTimeConstant : Bool) (V : IntegralType) (x : Num T) (y : Num U) :
    Num V :=
  clampedWordFastAsmOp (· + ·) qadd isCompileTimeConstant V x y

def clampedSubFastAsmOp (isCompileTimeConstant : Bool) (V : IntegralType) (x : Num T) (y : Num U) :
    Num V :=
  clampedWordFastAsmOp (· - ·) qsub isCompileTimeConstant V x y

/-- `ClampedNegFastOp<T>::Do` where `ClampedSubFastAsmOp<T, T>` is supported. -/
def clampedNegFastOp (isCompileTimeConstant : Bool) (value : Num T) : Num T :=
  clampedSubFastAsmOp isCompileTimeConstant T (0 : Num T) value

theorem val_staticCast_clamp (T : IntegralType) (z : ℤ) :
    (staticCast T (T.clamp z)).val = T.clamp z :=
  staticCast_of_inRange (BoundedInt.clamp_mem T.lowest_lt_max.le z)

/-- A value saturated first to a type that holds the whole of `V`. -/
theorem clamp_clamp_of_isTypeInRange (h : T.isTypeInRange V = true) (z : ℤ) :
    V.clamp (T.clamp z) = V.clamp z := by
  obtain ⟨hl, hu⟩ := (isTypeInRange_iff T V).mp h
  exact BoundedInt.clamp_clamp V.lowest_lt_max.le hl hu z

theorem val_ssat (hs : Dst.isSigned = true) (hn : Dst.integerBitsPlusSign ≤ 32)
    (src : Num .int32) : (ssat Dst.integerBitsPlusSign src).val = Dst.clamp src.val := by
  have hbounds : ∀ T : IntegralType, T.isSigned = true → T.integerBitsPlusSign ≤ 32 →
      -2 ^ (T.integerBitsPlusSign - 1) = T.lowest ∧ 2 ^ (T.integerBitsPlusSign - 1) - 1 = T.max ∧
        int32.isTypeInRange T = true := by decide
  obtain ⟨hl, hu, hin⟩ := hbounds Dst hs hn
  have hclamp : Dst.InRange (Dst.clamp src.val) := BoundedInt.clamp_mem Dst.lowest_lt_max.le _
  rw [ssat, hl, hu]
  exact staticCast_of_inRange (hclamp.of_isTypeInRange hin)

/-- A value of the register is at most `2 ^ 31 - 1`, which is where `usat` stops for
`uint32_t`. -/
theorem val_usat (hs : Dst.isSigned = false) (hn : Dst.integerBitsPlusSign ≤ 32)
    (src : Num .int32) :
    (usat (if Dst.integerBitsPlusSign < 32 then Dst.integerBitsPlusSign else 31) src).val =
      Dst.clamp src.val := by
  have hbounds : ∀ T : IntegralType, T.isSigned = false → T.integerBitsPlusSign ≤ 32 →
      2 ^ (if T.integerBitsPlusSign < 32 then T.integerBitsPlusSign else 31) - 1 =
          min T.max int32.max ∧ uint32.isTypeInRange T = true := by decide
  obtain ⟨hu, hin⟩ := hbounds Dst hs hn
  have hclamp : Dst.InRange (Dst.clamp src.val) := BoundedInt.clamp_mem Dst.lowest_lt_max.le _
  have hmin : BoundedInt.clamp 0 (min Dst.max int32.max) src.val = Dst.clamp src.val := by
    have hsrc := src.le_max
    rw [clamp, lowest_of_unsigned hs]
    unfold BoundedInt.clamp
    omega
  rw [usat, hu, hmin]
  exact staticCast_of_inRange (hclamp.of_isTypeInRange hin)

theorem val_saturateFastAsmOp (h : saturateFastAsmOpIsSupported Dst Src = true) (value : Num Src) :
    (saturateFastAsmOp Dst value).val = Dst.clamp value.val := by
  have hsupported : Dst.integerBitsPlusSign ≤ 32 ∧ int32.isTypeInRange Src = true := by
    clear value
    revert Dst Src
    decide
  have hsrc := staticCast_of_inRange (value.inRange.of_isTypeInRange hsupported.2)
  unfold saturateFastAsmOp
  cases hs : Dst.isSigned with
  | true => simp [hsupported.1, val_ssat hs hsupported.1, hsrc, val_staticCast_clamp]
  | false => simp [val_usat hs hsupported.1, hsrc, val_staticCast_clamp]

theorem val_saturatedCast (isCompileTimeConstant : Bool) (Dst : IntegralType) (value : Num Src) :
    (saturatedCast isCompileTimeConstant Dst value).val = Dst.clamp value.val := by
  unfold saturatedCast
  split_ifs with h
  · exact val_saturateFastAsmOp (Bool.and_eq_true_iff.mp h).2 value
  · exact MiniChromium.val_saturatedCast isCompileTimeConstant Dst value

/-- Where the template finds a type of twice the width, it holds every product. -/
theorem promotion_of_contained (h : fastIntegerArithmeticPromotionIsContained T U = true) :
    isIntegerArithmeticSafe (fastIntegerArithmeticPromotion T U) T U = true ∧
      (fastIntegerArithmeticPromotion T U).isTypeInRange T = true ∧
      (fastIntegerArithmeticPromotion T U).isTypeInRange U = true ∧
      (fastIntegerArithmeticPromotion T U).promoted.isTypeInRange
        (fastIntegerArithmeticPromotion T U) = true := by
  revert T U
  decide

/-- The operands, and their product, in the promotion type. -/
theorem product_in_promotion (h : fastIntegerArithmeticPromotionIsContained T U = true) (x : Num T)
    (y : Num U) :
    (staticCast (fastIntegerArithmeticPromotion T U) x.val).val = x.val ∧
      (staticCast (fastIntegerArithmeticPromotion T U) y.val).val = y.val ∧
      (fastIntegerArithmeticPromotion T U).InRange (x.val * y.val) := by
  obtain ⟨hsafe, hT, hU, -⟩ := promotion_of_contained h
  exact ⟨staticCast_of_inRange (x.inRange.of_isTypeInRange hT),
    staticCast_of_inRange (y.inRange.of_isTypeInRange hU), inRange_mul_of_safe x y hsafe⟩

theorem val_promotedProduct (h : fastIntegerArithmeticPromotionIsContained T U = true) (x : Num T)
    (y : Num U) :
    (promotedProduct (fastIntegerArithmeticPromotion T U) x y).val = x.val * y.val := by
  obtain ⟨hx, hy, hin⟩ := product_in_promotion h x y
  rw [promotedProduct, hx, hy]
  exact staticCast_of_inRange (hin.of_isTypeInRange (promotion_of_contained h).2.2.2)

theorem isValueInRange_staticCast {P : IntegralType} {z : ℤ} (h : P.InRange z) (V : IntegralType) :
    (isValueInRange V (staticCast P z), staticCast V (staticCast P z).val) = checkedFastOp V z := by
  refine Prod.ext ?_ (by rw [staticCast_of_inRange h, checkedFastOp])
  rw [checkedFastOp, Bool.eq_iff_iff, isValueInRange_iff, staticCast_of_inRange h,
    decide_eq_true_iff]

/-- The product is what the overflow builtin computes, also the value that is stored when it
does not fit. -/
theorem checkedMulFastAsmOp_eq (h : fastIntegerArithmeticPromotionIsContained T U = true)
    (V : IntegralType) (x : Num T) (y : Num U) :
    checkedMulFastAsmOp V x y = checkedFastOp V (x.val * y.val) := by
  unfold checkedMulFastAsmOp
  simp only [val_promotedProduct h]
  exact isValueInRange_staticCast (product_in_promotion h x y).2.2 V

/-- On these pairs of types all the bodies of the checked multiplication are the builtin. -/
theorem checkedMulOp_eq (tc : Toolchain) (h : fastIntegerArithmeticPromotionIsContained T U = true)
    (V : IntegralType) (x : Num T) (y : Num U) (result : Num V) :
    checkedMulOp tc V x y result = checkedFastOp V (x.val * y.val) := by
  obtain ⟨hx, hy, hin⟩ := product_in_promotion h x y
  have hguard := (mulGuard_eq_false_iff (fastIntegerArithmeticPromotion T U) x y).mpr
    (.inl ⟨x.inRange.of_isTypeInRange (promotion_of_contained h).2.1,
      y.inRange.of_isTypeInRange (promotion_of_contained h).2.2.1⟩)
  unfold checkedMulOp
  split_ifs with htc
  · rfl
  · simp only [hguard, Bool.false_eq_true, if_false, hx, hy, (promotion_of_contained h).1, if_true,
      checkedFastOp, hin, decide_true, ite_self, Bool.true_and]
    exact isValueInRange_staticCast hin V

/-- The signs of the operands point to the bound that a product leaves the type by. -/
theorem val_commonMaxOrMin_of_product (V : IntegralType) (x : Num T) (y : Num U)
    (h : ¬V.InRange (x.val * y.val)) :
    (commonMaxOrMin V V (x.isValueNegative ^^ y.isValueNegative)).val =
      V.clamp (x.val * y.val) := by
  have hl := V.lowest_nonpos
  have hm := V.max_pos
  obtain ⟨hneg, hpos⟩ := mul_signs x.val y.val
  unfold InRange at h
  rw [val_commonMaxOrMin_self]
  split_ifs with hs
  · have hz := hneg ((isValueNegative_xor_iff x y).mp hs)
    exact (clamp_of_le_lowest (by omega)).symm
  · have hz := hpos (mt (isValueNegative_xor_iff x y).mpr hs)
    exact (clamp_of_max_le (by omega)).symm

/-- A checked product with that bound to fall back to. -/
theorem val_checkedFastOp_or_bound (V : IntegralType) (x : Num T) (y : Num U) :
    (if (checkedFastOp V (x.val * y.val)).1 then (checkedFastOp V (x.val * y.val)).2
      else commonMaxOrMin V V (x.isValueNegative ^^ y.isValueNegative)).val =
      V.clamp (x.val * y.val) := by
  unfold checkedFastOp
  by_cases hin : V.InRange (x.val * y.val)
  · simp [hin, staticCast_of_inRange hin, clamp_of_inRange hin]
  · simpa [hin] using val_commonMaxOrMin_of_product V x y hin

theorem val_clampedMulFastAsmOp (h : fastIntegerArithmeticPromotionIsContained T U = true)
    (isCompileTimeConstant : Bool) (V : IntegralType) (x : Num T) (y : Num U) :
    (clampedMulFastAsmOp isCompileTimeConstant V x y).val = V.clamp (x.val * y.val) := by
  unfold clampedMulFastAsmOp
  split_ifs with hwide
  · rw [checkedMulFastAsmOp_eq h]
    exact val_checkedFastOp_or_bound V x y
  · rw [val_saturatedCast, val_promotedProduct h x y]

/-- The instruction saturates to 32 bits, which is wider than the result type that the
`static_assert` leaves. The operator of the other branch is exact. -/
theorem val_clampedWordFastAsmOp (op : ℤ → ℤ → ℤ)
    {instruction : Num .int32 → Num .int32 → Num .int32}
    (hinstruction : ∀ x y, (instruction x y).val = int32.clamp (op x.val y.val))
    (hop : ∀ (x : Num T) (y : Num U), isIntegerArithmeticSafe int32 T U = true →
      int32.InRange (op x.val y.val))
    (hs : clampedWordFastAsmOpIsSupported T U = true) (hV : ClampedAddOpAdmits V T U)
    (isCompileTimeConstant : Bool) (x : Num T) (y : Num U) :
    (clampedWordFastAsmOp op instruction isCompileTimeConstant V x y).val =
      V.clamp (op x.val y.val) := by
  have htypes : int32.isTypeInRange T = true ∧ int32.isTypeInRange U = true ∧
      int32.isTypeInRange V = true ∧
      (isIntegerArithmeticSafe int32 T U = true → T.sumType U = int32) := by
    clear hop x y
    revert V T U
    decide
  obtain ⟨hT, hU, hin, hsum⟩ := htypes
  have hx := staticCast_of_inRange (x.inRange.of_isTypeInRange hT)
  have hy := staticCast_of_inRange (y.inRange.of_isTypeInRange hU)
  unfold clampedWordFastAsmOp
  split_ifs with hsafe
  · rw [val_saturatedCast, hsum hsafe, hx, hy, staticCast_of_inRange (hop x y hsafe)]
  · rw [val_saturatedCast, hinstruction, hx, hy, clamp_clamp_of_isTypeInRange hin]

/-- Operands of at most half the width have a sum and a difference of the whole width. -/
theorem inRange_int32_of_safe (h : isIntegerArithmeticSafe int32 T U = true) (x : Num T)
    (y : Num U) : int32.InRange (x.val + y.val) ∧ int32.InRange (x.val - y.val) := by
  have hbounds : int32.lowest ≤ T.lowest + U.lowest ∧ int32.lowest ≤ T.lowest - U.max ∧
      T.max + U.max ≤ int32.max ∧ T.max - U.lowest ≤ int32.max := by
    clear x y
    revert T U
    decide
  have hx := x.inRange
  have hy := y.inRange
  unfold InRange at hx hy ⊢
  omega

theorem val_clampedAddFastAsmOp (hs : clampedWordFastAsmOpIsSupported T U = true)
    (hV : ClampedAddOpAdmits V T U) (isCompileTimeConstant : Bool) (x : Num T) (y : Num U) :
    (clampedAddFastAsmOp isCompileTimeConstant V x y).val = V.clamp (x.val + y.val) :=
  val_clampedWordFastAsmOp (· + ·) (fun _ _ => val_staticCast_clamp _ _)
    (fun x y h => (inRange_int32_of_safe h x y).1) hs hV isCompileTimeConstant x y

theorem val_clampedSubFastAsmOp (hs : clampedWordFastAsmOpIsSupported T U = true)
    (hV : ClampedSubOpAdmits V T U) (isCompileTimeConstant : Bool) (x : Num T) (y : Num U) :
    (clampedSubFastAsmOp isCompileTimeConstant V x y).val = V.clamp (x.val - y.val) :=
  val_clampedWordFastAsmOp (· - ·) (fun _ _ => val_staticCast_clamp _ _)
    (fun x y h => (inRange_int32_of_safe h x y).2) hs hV isCompileTimeConstant x y

/-- `saturated_cast` gives the same value with and without the saturating instructions, for
every pair of types. -/
theorem saturatedCast_eq_portable (isCompileTimeConstant : Bool) (Dst : IntegralType)
    (value : Num Src) :
    saturatedCast isCompileTimeConstant Dst value =
      MiniChromium.saturatedCast isCompileTimeConstant Dst value :=
  Num.ext (by rw [val_saturatedCast, MiniChromium.val_saturatedCast])

/-- Sums, differences and negations through the instructions are the exact ones saturated to
the result type. The portable bodies agree with them exactly where they choose the right
bound. -/
theorem clampedWordOps_eq_portable_iff (tc : Toolchain) (isCompileTimeConstant : Bool)
    (hs : clampedWordFastAsmOpIsSupported T U = true) (hV : ClampedAddOpAdmits V T U) (x : Num T)
    (y : Num U) :
    (clampedAddFastAsmOp isCompileTimeConstant V x y).val = V.clamp (x.val + y.val) ∧
    (clampedSubFastAsmOp isCompileTimeConstant V x y).val = V.clamp (x.val - y.val) ∧
    (clampedNegFastOp isCompileTimeConstant x).val = T.clamp (-x.val) ∧
    (clampedAddFastAsmOp isCompileTimeConstant V x y = clampedAddOp tc V x y ↔
      ClampedAddSafe tc V x y) ∧
    (clampedSubFastAsmOp isCompileTimeConstant V x y = clampedSubOp tc V x y ↔
      ClampedSubSafe tc V x y) := by
  have hadd := val_clampedAddFastAsmOp hs hV isCompileTimeConstant x y
  have hsub := val_clampedSubFastAsmOp hs hV isCompileTimeConstant x y
  have hself : clampedWordFastAsmOpIsSupported T T = true ∧ ClampedAddOpAdmits T T T := by
    clear hadd hsub hV x y
    revert T U
    decide
  have hneg := val_clampedSubFastAsmOp hself.1 hself.2 isCompileTimeConstant (0 : Num T) x
  rw [val_zero, zero_sub] at hneg
  refine ⟨hadd, hsub, hneg, ?_, ?_⟩
  · rw [Num.ext_iff, hadd, eq_comm]
    exact val_clampedAddOp_iff tc hV x y
  · rw [Num.ext_iff, hsub, eq_comm]
    exact clampedSubOp_eq_clamp_iff tc V x y

/-- The hypotheses hold of `int32_t` operands: a sum and a difference that saturate in the
register. -/
theorem clampedWordOps_eq_portable_int32 :
    (clampedAddFastAsmOp false .int32 (maxValue .int32) (maxValue .int32)).val = int32.max ∧
      (clampedSubFastAsmOp false .int32 (lowestValue .int32) (maxValue .int32)).val =
        int32.lowest :=
  ⟨(clampedWordOps_eq_portable_iff .other false rfl (.inl rfl) _ _).1.trans (by decide),
    (clampedWordOps_eq_portable_iff .other false rfl (.inl rfl) _ _).2.1.trans (by decide)⟩

/-- Products in the wide type are those of every portable body, the checked with the value
that they store and the clamped saturated exactly. -/
theorem mulOps_eq_portable (tc : Toolchain) (isCompileTimeConstant : Bool)
    (h : fastIntegerArithmeticPromotionIsContained T U = true) (V : IntegralType) (x : Num T)
    (y : Num U) (result : Num V) :
    checkedMulFastAsmOp V x y = checkedMulOp tc V x y result ∧
    clampedMulFastAsmOp isCompileTimeConstant V x y = clampedMulOp tc V x y ∧
    (clampedMulFastAsmOp isCompileTimeConstant V x y).val = V.clamp (x.val * y.val) := by
  have hclamped := val_clampedMulFastAsmOp h isCompileTimeConstant V x y
  refine ⟨?_, Num.ext ?_, hclamped⟩
  · rw [checkedMulFastAsmOp_eq h, checkedMulOp_eq tc h]
  · rw [hclamped, clampedMulOp, checkedMulOp_eq tc h]
    exact (val_checkedFastOp_or_bound V x y).symm

/-- The hypothesis holds of 32-bit operands of both signs. -/
theorem mulOps_eq_portable_int32 :
    (clampedMulFastAsmOp false .int32 (lowestValue .int32) (maxValue .uint32)).val =
      int32.lowest :=
  (mulOps_eq_portable .other false rfl .int32 (lowestValue .int32) (maxValue .uint32) 0).2.2.trans
    (by decide)

end MiniChromium.Arm
