import MiniChromium.CheckedExpression
import MiniChromium.ClampedMath

/-!
# Clamped against checked operations

Some clamped operations call the checked ones. Subtraction, the shifts, the bitwise
operations, maximum and minimum and the unary members have bodies of their own. Wherever the
checked operation is valid the clamped one has its value, except for the negation of an
unsigned number.
-/
namespace MiniChromium

open IntegralType MiniChromium.Num

variable {T U V : IntegralType}

/-- `CheckedAndOp<T, U>::Do` and its siblings, which differ in the operator. -/
def checkedBitwiseOp (op : ∀ {R : IntegralType}, Num R → Num R → Num R) (V : IntegralType)
    (x : Num T) (y : Num U) (_result : Num V) : Bool × Num V :=
  let resultType := (maxExponentPromotion T U).makeUnsigned
  let tmp := op (staticCast resultType x.val) (staticCast resultType y.val)
  (isValueInRange V tmp, staticCast V tmp.val)

/-- `CheckedAndOp<T, U>::Do`. -/
def checkedAndOp (V : IntegralType) (x : Num T) (y : Num U) (result : Num V) : Bool × Num V :=
  checkedBitwiseOp bitAnd V x y result

/-- `CheckedOrOp<T, U>::Do`. -/
def checkedOrOp (V : IntegralType) (x : Num T) (y : Num U) (result : Num V) : Bool × Num V :=
  checkedBitwiseOp bitOr V x y result

/-- `CheckedXorOp<T, U>::Do`. -/
def checkedXorOp (V : IntegralType) (x : Num T) (y : Num U) (result : Num V) : Bool × Num V :=
  checkedBitwiseOp bitXor V x y result

/-- `ClampedSubOp<T, U>::Do<V>` without an assembler implementation. -/
def clampedSubOp (tc : Toolchain) (V : IntegralType) (x : Num T) (y : Num U) : Num V :=
  let saturated := commonMaxOrMin V V (!y.isValueNegative)
  let result := checkedSubOp tc V x y 0
  if result.1 then result.2 else saturated

/-- `ClampedLshOp<T, U>::Do<V>`. The shift is done unsigned, in the promoted type. -/
def clampedLshOp (V : IntegralType) (x : Num T) (shift : Num U) : Num V :=
  let saturated := if x.val ≠ 0 then commonMaxOrMin V V x.isValueNegative else 0
  if shift.val < T.digits then
    let shifted := staticCast T.makeUnsigned.promoted (x.asUnsigned.val * 2 ^ shift.val.toNat)
    let result := staticCast V shifted.val
    if result.val >>> shift.val.toNat = x.val then result else saturated
  else saturated

/-- `ClampedRshOp<T, U>::Do<V>`; the flag is `IsCompileTimeConstant` of the shifted value. -/
def clampedRshOp (isCompileTimeConstant : Bool) (V : IntegralType) (x : Num T) (shift : Num U) :
    Num V :=
  let saturated := staticCast V
    ((0 : Num V).asUnsigned.val - if x.isValueNegative then 1 else 0)
  if shift.val < T.integerBitsPlusSign then
    saturatedCast isCompileTimeConstant V (staticCast T.promoted (x.val >>> shift.val.toNat))
  else saturated

/-- `ClampedAndOp<T, U>::Do<V>` and its siblings, which differ in the operator. -/
def clampedBitwiseOp (op : ∀ {R : IntegralType}, Num R → Num R → Num R) (V : IntegralType)
    (x : Num T) (y : Num U) : Num V :=
  let resultType := (maxExponentPromotion T U).makeUnsigned
  staticCast V (op (staticCast resultType x.val) (staticCast resultType y.val)).val

/-- `ClampedAndOp<T, U>::Do<V>`. -/
def clampedAndOp (V : IntegralType) (x : Num T) (y : Num U) : Num V := clampedBitwiseOp bitAnd V x y

/-- `ClampedOrOp<T, U>::Do<V>`. -/
def clampedOrOp (V : IntegralType) (x : Num T) (y : Num U) : Num V := clampedBitwiseOp bitOr V x y

/-- `ClampedXorOp<T, U>::Do<V>`. -/
def clampedXorOp (V : IntegralType) (x : Num T) (y : Num U) : Num V := clampedBitwiseOp bitXor V x y

/-- `ClampedMaxOp<T, U>::Do<V>`. -/
def clampedMaxOp (isCompileTimeConstant : Bool) (V : IntegralType) (x : Num T) (y : Num U) :
    Num V :=
  if isGreater x y then saturatedCast isCompileTimeConstant V x
  else saturatedCast isCompileTimeConstant V y

/-- `ClampedMinOp<T, U>::Do<V>`. -/
def clampedMinOp (isCompileTimeConstant : Bool) (V : IntegralType) (x : Num T) (y : Num U) :
    Num V :=
  if isLess x y then saturatedCast isCompileTimeConstant V x
  else saturatedCast isCompileTimeConstant V y

/-- `ClampedNegFastOp<T>::is_supported`. -/
def Toolchain.clampedNegFastOpIsSupported (T : IntegralType) : Toolchain → Bool
  | gcc | clang => T.isSigned
  | other => false

/-- `ClampedNegFastOp<T>::Do` without an assembler implementation. -/
def clampedNegFastOp (value : Num T) : Num T :=
  let result := checkedFastOp T (0 - value.val)
  if result.1 then result.2 else Num.maxValue T

/-- `SaturatedNegWrapper`, of a signed and of an unsigned type; the flag is
`MustTreatAsConstexpr(value)`. -/
def saturatedNegWrapper (tc : Toolchain) (mustTreatAsConstexpr : Bool) (value : Num T) : Num T :=
  if T.isSigned then
    if mustTreatAsConstexpr || !tc.clampedNegFastOpIsSupported T then
      if (CheckedNumeric.negateWrapper value).val ≠ T.lowest then CheckedNumeric.negateWrapper value
      else Num.maxValue T
    else clampedNegFastOp value
  else 0

/-- `SaturatedAbsWrapper`. -/
def saturatedAbsWrapper (value : Num T) : Num T :=
  let isNegative := (staticCast T value.safeUnsignedAbs.val).isValueNegative
  staticCast T (value.safeUnsignedAbs.val - if isNegative then 1 else 0)

namespace ClampedNumeric

/-- `operator-()`. -/
def neg (tc : Toolchain) (mustTreatAsConstexpr isCompileTimeConstant : Bool)
    (c : ClampedNumeric T) : ClampedNumeric T :=
  ofNum isCompileTimeConstant T (saturatedNegWrapper tc mustTreatAsConstexpr c.value)

/-- `Abs()`. -/
def abs (isCompileTimeConstant : Bool) (c : ClampedNumeric T) : ClampedNumeric T :=
  ofNum isCompileTimeConstant T (saturatedAbsWrapper c.value)

/-- `Max(rhs)`. -/
def max (isCompileTimeConstant : Bool) (c : ClampedNumeric T) (rhs : ClampedNumeric U) :
    ClampedNumeric (maxExponentPromotion T U) :=
  ofNum isCompileTimeConstant _ (clampedMaxOp isCompileTimeConstant (maxExponentPromotion T U)
    c.value rhs.value)

/-- `Min(rhs)`. -/
def min (isCompileTimeConstant : Bool) (c : ClampedNumeric T) (rhs : ClampedNumeric U) :
    ClampedNumeric (lowestValuePromotion T U) :=
  ofNum isCompileTimeConstant _ (clampedMinOp isCompileTimeConstant (lowestValuePromotion T U)
    c.value rhs.value)

end ClampedNumeric

/-- The binary operations that both kinds of number have. -/
inductive NumericOp
  | arith (op : CheckedArithOp)
  | and | or | xor | max | min
  deriving DecidableEq

namespace NumericOp

/-- `Math::result_type`, the same for both. -/
def resultType : NumericOp → IntegralType → IntegralType → IntegralType
  | arith op, T, U => op.resultType T U
  | and, T, U | or, T, U | xor, T, U => (maxExponentPromotion T U).makeUnsigned
  | max, T, U => maxExponentPromotion T U
  | min, T, U => lowestValuePromotion T U

/-- The type of the result: `result_type` in an operator or a function and the left type in a
compound assignment. The amount of a clamped shift is unsigned. -/
def Admits (op : NumericOp) (V T U : IntegralType) : Prop :=
  match op with
  | arith .lsh | arith .rsh => V = T ∧ U.isSigned = false
  | arith _ | and | or | xor => V = op.resultType T U ∨ V = T
  | max | min => V = op.resultType T U

/-- `Checked*Op::Do`. -/
def checkedDo (tc : Toolchain) (V : IntegralType) (op : NumericOp) (x : Num T) (y : Num U)
    (result : Num V) : Bool × Num V :=
  match op with
  | arith op => op.doOp tc V x y result
  | and => checkedAndOp V x y result
  | or => checkedOrOp V x y result
  | xor => checkedXorOp V x y result
  | max => checkedMaxOp V x y result
  | min => checkedMinOp V x y result

/-- `Clamped*Op::Do<V>`. -/
def clampedDo (tc : Toolchain) (isCompileTimeConstant : Bool) (V : IntegralType) (op : NumericOp)
    (x : Num T) (y : Num U) : Num V :=
  match op with
  | arith .add => clampedAddOp tc V x y
  | arith .sub => clampedSubOp tc V x y
  | arith .mul => clampedMulOp tc V x y
  | arith .div => clampedDivOp V x y
  | arith .lsh => clampedLshOp V x y
  | arith .rsh => clampedRshOp isCompileTimeConstant V x y
  | and => clampedAndOp V x y
  | or => clampedOrOp V x y
  | xor => clampedXorOp V x y
  | max => clampedMaxOp isCompileTimeConstant V x y
  | min => clampedMinOp isCompileTimeConstant V x y

end NumericOp

/-- A valid checked shift takes the branch that the clamped one takes, or shifts a zero. -/
theorem clampedLshOp_of_valid (x : Num T) (shift : Num U) (hU : U.isSigned = false)
    (h : (checkedLshOp T x shift 0).1 = true) :
    clampedLshOp T x shift = (checkedLshOp T x shift 0).2 := by
  have hs := asUnsigned_of_nonneg shift (shift.nonneg hU)
  unfold checkedLshOp at h ⊢
  unfold clampedLshOp
  by_cases hin : (!x.isValueNegative && decide (shift.asUnsigned.val < T.digits)) = true
  · rw [if_pos hin] at h ⊢
    have hlt : shift.val < T.digits := by
      simpa [hs] using (Bool.and_eq_true_iff.mp hin).2
    simp only [hlt, if_true, of_decide_eq_true h]
  · rw [if_neg hin] at h ⊢
    simp only [Bool.and_eq_true, decide_eq_true_eq, hs] at h
    simp [h.1.2, h.2]

theorem clampedRshOp_of_valid (isCompileTimeConstant : Bool) (x : Num T) (shift : Num U)
    (h : (checkedRshOp T x shift 0).1 = true) :
    clampedRshOp isCompileTimeConstant T x shift = (checkedRshOp T x shift 0).2 := by
  have hc := checkedRshOp_computes x shift 0
  have hs := hc.valid_iff.mp h
  have hin := inRange_shiftRight x shift.val.toNat
  have hT : T.promoted.isTypeInRange T = true := by
    clear hc hs hin h x
    revert T
    decide
  have hshifted := staticCast_of_inRange (hin.of_isTypeInRange hT)
  apply Num.ext
  simp only [clampedRshOp, hs.2, if_true, shiftRight_eq_ediv, hc.val_eq h]
  rw [val_saturatedCast_of_inRange _ _ _ (by rwa [hshifted]), hshifted]

/-- The larger operand, saturated to a type that holds it. -/
theorem clampedMaxOp_of_valid (isCompileTimeConstant : Bool) (x : Num T) (y : Num U) :
    (clampedMaxOp isCompileTimeConstant (maxExponentPromotion T U) x y).val =
      Max.max x.val y.val := by
  have hin := inRange_max x y
  unfold clampedMaxOp
  split_ifs with h <;> simp only [isGreater_eq, decide_eq_true_eq, gt_iff_lt, not_lt] at h
  · rw [max_eq_left h.le] at hin ⊢
    exact val_saturatedCast_of_inRange _ _ x hin
  · rw [max_eq_right h] at hin ⊢
    exact val_saturatedCast_of_inRange _ _ y hin

theorem clampedMinOp_of_valid (isCompileTimeConstant : Bool) (x : Num T) (y : Num U) :
    (clampedMinOp isCompileTimeConstant (lowestValuePromotion T U) x y).val =
      Min.min x.val y.val := by
  have hin := inRange_min x y
  unfold clampedMinOp
  split_ifs with h <;> simp only [isLess_eq, decide_eq_true_eq, not_lt] at h
  · rw [min_eq_left h.le] at hin ⊢
    exact val_saturatedCast_of_inRange _ _ x hin
  · rw [min_eq_right h] at hin ⊢
    exact val_saturatedCast_of_inRange _ _ y hin

/-- The clamped operation on the operands of a valid checked one. -/
theorem NumericOp.clampedDo_of_valid (tc : Toolchain) (isCompileTimeConstant : Bool)
    (op : NumericOp) (hV : op.Admits V T U) (x : Num T) (y : Num U)
    (h : (op.checkedDo tc V x y 0).1 = true) :
    op.clampedDo tc isCompileTimeConstant V x y = (op.checkedDo tc V x y 0).2 := by
  cases op with
  | arith op =>
    cases op with
    | add | sub | mul | div => exact if_pos h
    | lsh =>
      obtain ⟨rfl, hU⟩ := hV
      exact clampedLshOp_of_valid x y hU h
    | rsh =>
      obtain ⟨rfl, -⟩ := hV
      exact clampedRshOp_of_valid isCompileTimeConstant x y h
  | and | or | xor => rfl
  | max =>
    obtain rfl : V = maxExponentPromotion T U := hV
    exact Num.ext
      ((clampedMaxOp_of_valid _ x y).trans ((checkedMaxOp_computes x y 0).val_eq h).symm)
  | min =>
    obtain rfl : V = lowestValuePromotion T U := hV
    exact Num.ext
      ((clampedMinOp_of_valid _ x y).trans ((checkedMinOp_computes x y 0).val_eq h).symm)

/-- Negation of a signed number saturates on the minimum alone, on every path. -/
theorem saturatedNegWrapper_of_inRange (tc : Toolchain) (mustTreatAsConstexpr : Bool)
    (hT : T.isSigned = true) (x : Num T) (h : T.InRange (-x.val)) :
    (saturatedNegWrapper tc mustTreatAsConstexpr x).val = -x.val := by
  have hneg := CheckedNumeric.negateWrapper_computes x hT
  have hne := of_decide_eq_true (hneg.valid_iff.mpr h)
  simp only [saturatedNegWrapper, hT, if_true]
  split_ifs
  · exact hneg.val_eq (hneg.valid_iff.mpr h)
  · simp only [clampedNegFastOp, checkedFastOp, zero_sub, h, decide_true, if_true]
    exact staticCast_of_inRange h

theorem saturatedNegWrapper_of_unsigned (tc : Toolchain) (mustTreatAsConstexpr : Bool)
    (hT : T.isSigned = false) (x : Num T) : saturatedNegWrapper tc mustTreatAsConstexpr x = 0 := by
  simp [saturatedNegWrapper, hT]

/-- An absolute value that the type holds is not taken for the overflow. -/
theorem saturatedAbsWrapper_of_inRange (x : Num T) (h : T.InRange |x.val|) :
    (saturatedAbsWrapper x).val = |x.val| := by
  have hcast := staticCast_of_inRange h
  have hn : (staticCast T |x.val|).isValueNegative = false := by
    rw [← Bool.not_eq_true, isValueNegative_iff, hcast, not_lt]
    exact abs_nonneg x.val
  simp only [saturatedAbsWrapper, val_safeUnsignedAbs, hn, Bool.false_eq_true, if_false, sub_zero,
    hcast]

/-- What the checked negation of an unsigned number holds. -/
theorem CheckedNumeric.neg_of_unsigned (tc : Toolchain) (mustTreatAsConstexpr : Bool)
    (c : CheckedNumeric T) (hT : T.isSigned = false) :
    c.neg tc mustTreatAsConstexpr = ⟨c.isValid, negateWrapper c.value⟩ := by
  have hin := (isValueInRange_iff T (negateWrapper c.value)).mpr (negateWrapper c.value).inRange
  simp [neg, ofState, hT, hin]

/-- It is zero only for zero, as no other value of the type is a multiple of the modulus. -/
theorem CheckedNumeric.negateWrapper_eq_zero_iff (x : Num T) (hT : T.isSigned = false) :
    negateWrapper x = 0 ↔ x.val = 0 := by
  constructor
  · intro h
    have hmod := negateWrapper_modEq x
    have hlt : x.val < T.modulus := by
      have hu := x.le_max
      have hm := T.lowest_add_modulus
      rw [lowest_of_unsigned hT] at hm
      omega
    rw [h, val_zero] at hmod
    exact Int.eq_zero_of_dvd_of_nonneg_of_lt (x.nonneg hT) hlt
      (by simpa using hmod.dvd)
  · intro h
    have hin : T.InRange (-x.val) := by simpa [h] using T.inRange_zero
    apply Num.ext
    rw [negateWrapper_of_inRange hin, h, neg_zero, val_zero]

/-- The negations agree except on the nonzero values of an unsigned type. The compiler may
treat the two values differently. -/
theorem ClampedNumeric.neg_eq_iff (tc : Toolchain)
    (mustTreatAsConstexpr mustTreatAsConstexpr' isCompileTimeConstant : Bool)
    (c : CheckedNumeric T) (h : (c.neg tc mustTreatAsConstexpr).isValid = true) :
    (ClampedNumeric.neg tc mustTreatAsConstexpr' isCompileTimeConstant ⟨c.value⟩).value =
        (c.neg tc mustTreatAsConstexpr).value ↔ (T.isSigned = false → c.value.val = 0) := by
  simp only [ClampedNumeric.neg, ClampedNumeric.ofNum, saturatedCast_self]
  cases hT : T.isSigned with
  | true =>
    have hneg := CheckedNumeric.neg_holds tc mustTreatAsConstexpr c hT
    have hin := (hneg.valid_iff.mp h).2
    simp only [Bool.true_eq_false, false_imp_iff, iff_true]
    exact Num.ext ((saturatedNegWrapper_of_inRange tc _ hT c.value hin).trans (hneg.val_eq h).symm)
  | false =>
    rw [saturatedNegWrapper_of_unsigned tc _ hT, CheckedNumeric.neg_of_unsigned tc _ c hT, eq_comm,
      CheckedNumeric.negateWrapper_eq_zero_iff _ hT]
    simp

/-- The absolute values agree on every type. -/
theorem ClampedNumeric.abs_eq (tc : Toolchain) (mustTreatAsConstexpr isCompileTimeConstant : Bool)
    (c : CheckedNumeric T) (h : (c.abs tc mustTreatAsConstexpr).isValid = true) :
    (ClampedNumeric.abs isCompileTimeConstant ⟨c.value⟩).value =
      (c.abs tc mustTreatAsConstexpr).value := by
  simp only [ClampedNumeric.abs, ClampedNumeric.ofNum, saturatedCast_self]
  have habs : T.InRange |c.value.val| ∧
      (c.abs tc mustTreatAsConstexpr).value.val = |c.value.val| := by
    cases hT : T.isSigned with
    | true =>
      have hh := CheckedNumeric.abs_holds tc mustTreatAsConstexpr c hT
      exact ⟨(hh.valid_iff.mp h).2, hh.val_eq h⟩
    | false =>
      have h0 := c.value.nonneg hT
      have hn : c.value.isValueNegative = false := by
        rwa [← Bool.not_eq_true, isValueNegative_iff, not_lt]
      rw [abs_of_nonneg h0]
      exact ⟨c.value.inRange, by simp [CheckedNumeric.abs, hn]⟩
  exact Num.ext ((saturatedAbsWrapper_of_inRange c.value habs.1).trans habs.2.symm)

/-- Wherever a checked operation is valid the clamped one has its value, except that the
negation of a nonzero unsigned number wraps when it is checked and is zero when it is clamped. -/
theorem clamped_eq_checked (tc : Toolchain)
    (mustTreatAsConstexpr mustTreatAsConstexpr' isCompileTimeConstant : Bool)
    (l : CheckedNumeric T) (r : CheckedNumeric U) :
    (∀ op : NumericOp, ∀ V, op.Admits V T U →
      (CheckedNumeric.mathOp (op.checkedDo tc V) l r).isValid = true →
        (ClampedNumeric.mathOp isCompileTimeConstant (op.clampedDo tc isCompileTimeConstant V)
          ⟨l.value⟩ ⟨r.value⟩).value = (CheckedNumeric.mathOp (op.checkedDo tc V) l r).value) ∧
    ((l.max r).isValid = true →
      (ClampedNumeric.max isCompileTimeConstant ⟨l.value⟩ ⟨r.value⟩).value = (l.max r).value) ∧
    ((l.min r).isValid = true →
      (ClampedNumeric.min isCompileTimeConstant ⟨l.value⟩ ⟨r.value⟩).value = (l.min r).value) ∧
    ((l.abs tc mustTreatAsConstexpr).isValid = true →
      (ClampedNumeric.abs isCompileTimeConstant ⟨l.value⟩).value =
        (l.abs tc mustTreatAsConstexpr).value) ∧
    ((l.neg tc mustTreatAsConstexpr).isValid = true →
      ((ClampedNumeric.neg tc mustTreatAsConstexpr' isCompileTimeConstant ⟨l.value⟩).value =
        (l.neg tc mustTreatAsConstexpr).value ↔ (T.isSigned = false → l.value.val = 0))) := by
  refine ⟨fun op V hV h => ?_, fun h => Num.ext ?_, fun h => Num.ext ?_,
    ClampedNumeric.abs_eq tc _ _ l, ClampedNumeric.neg_eq_iff tc _ _ _ l⟩
  · have hm := CheckedNumeric.mathOp_holds (op.checkedDo tc V) l r ⟨Iff.rfl, fun _ => rfl⟩
    rw [ClampedNumeric.value_mathOp,
      op.clampedDo_of_valid tc isCompileTimeConstant hV _ _ (hm.valid_iff.mp h).2]
    exact Num.ext (hm.val_eq h).symm
  · rw [(CheckedNumeric.max_holds l r).val_eq h]
    simp only [ClampedNumeric.max, ClampedNumeric.ofNum, saturatedCast_self]
    exact clampedMaxOp_of_valid isCompileTimeConstant l.value r.value
  · rw [(CheckedNumeric.min_holds l r).val_eq h]
    simp only [ClampedNumeric.min, ClampedNumeric.ofNum, saturatedCast_self]
    exact clampedMinOp_of_valid isCompileTimeConstant l.value r.value

/-- The checked operations are valid on small operands, where the theorem applies. -/
theorem clamped_eq_checked_int8 :
    (ClampedNumeric.mathOp false (NumericOp.clampedDo .clang false .int8 (.arith .lsh))
        ⟨(⟨5, by decide⟩ : Num .int8)⟩ ⟨(⟨2, by decide⟩ : Num .uint8)⟩).value.val = 20 ∧
      (ClampedNumeric.neg .clang false false ⟨(⟨5, by decide⟩ : Num .int8)⟩).value.val = -5 :=
  have h := clamped_eq_checked .clang false false false
    ⟨true, (⟨5, by decide⟩ : Num .int8)⟩ ⟨true, (⟨2, by decide⟩ : Num .uint8)⟩
  ⟨(congrArg Num.val (h.1 (.arith .lsh) .int8 ⟨rfl, rfl⟩ (by decide))).trans (by decide),
    (congrArg Num.val ((h.2.2.2.2 (by decide)).mpr (by decide))).trans (by decide)⟩

/-- The checked negation of an unsigned one is valid and wraps, and the clamped one is zero. -/
theorem clamped_neg_ne_checked :
    (CheckedNumeric.neg .clang false ⟨true, (⟨1, by decide⟩ : Num .uint8)⟩).isValid = true ∧
      (CheckedNumeric.neg .clang false ⟨true, (⟨1, by decide⟩ : Num .uint8)⟩).value.val = 255 ∧
      (ClampedNumeric.neg .clang false false ⟨(⟨1, by decide⟩ : Num .uint8)⟩).value.val = 0 := by
  decide

end MiniChromium
