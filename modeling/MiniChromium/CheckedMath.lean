import MiniChromium.Promotion

/-!
# Checked integer operations

Each `Checked…Op::Do(x, y, result)` returns whether the result is valid and the
value stored through `result`; on an early return the previous value is kept.
The operand types `T` and `U` and the destination type `V` are arbitrary. A
`Toolchain` says which overflow builtins exist, so that the builtin and the
portable bodies are branches of one definition.
-/
namespace MiniChromium

/-- `gcc` has every overflow builtin, `clang` all but the full-width mixed-sign
multiplication, and `other` none of them. -/
inductive Toolchain
  | gcc | clang | other
  deriving DecidableEq, Repr

namespace Toolchain

/-- `CheckedAddFastOp<T, U>::is_supported`. -/
def checkedAddFastOpIsSupported : Toolchain → Bool
  | gcc | clang => true
  | other => false

/-- `CheckedSubFastOp<T, U>::is_supported`. -/
def checkedSubFastOpIsSupported : Toolchain → Bool
  | gcc | clang => true
  | other => false

/-- `CheckedMulFastOp<T, U>::is_supported`; `intptr_t` is `int64` and `uintptr_t`
is `uint64`. -/
def checkedMulFastOpIsSupported (T U : IntegralType) : Toolchain → Bool
  | gcc => true
  | clang =>
    (IntegralType.int64.isTypeInRange T && IntegralType.int64.isTypeInRange U) ||
      (IntegralType.uint64.isTypeInRange T && IntegralType.uint64.isTypeInRange U)
  | other => false

end Toolchain

/-- The result of a builtin that computes in infinite precision: whether the
value fits the destination, and the value wrapped into it. -/
def checkedFastOp (V : IntegralType) (z : ℤ) : Bool × Num V :=
  (decide (V.InRange z), Num.staticCast V z)

section Operations

variable {T U P : IntegralType}

open IntegralType MiniChromium.Num

/-- `CheckedAddImpl`: the sum is computed unsigned; for a signed type it is valid
when its sign is that of `x` or of `y`. -/
def checkedAddImpl (x y : Num P) : Bool × Num P :=
  let ux := x.asUnsigned
  let uy := y.asUnsigned
  let uresult := staticCast P.makeUnsigned (ux.val + uy.val)
  (if P.isSigned then
      decide
        ((staticCast P.makeSigned (bitAnd (bitXor uresult ux) (bitXor uresult uy)).val).val ≥ 0)
    else decide (uresult.val ≥ uy.val),
    staticCast P uresult.val)

/-- `CheckedSubImpl`: for a signed type the difference is valid when `x` and `y`
have the same sign, or `x` and the difference do. -/
def checkedSubImpl (x y : Num P) : Bool × Num P :=
  let ux := x.asUnsigned
  let uy := y.asUnsigned
  let uresult := staticCast P.makeUnsigned (ux.val - uy.val)
  (if P.isSigned then
      decide ((staticCast P.makeSigned (bitAnd (bitXor uresult ux) (bitXor ux uy)).val).val ≥ 0)
    else decide (x.val ≥ y.val),
    staticCast P uresult.val)

/-- The portable body that `CheckedAddOp` and `CheckedSubOp` share: fail when an
operand does not fit the promotion type, then compute there. -/
def checkedWordOp (V : IntegralType) (op : ℤ → ℤ → ℤ)
    (impl : ∀ {P : IntegralType}, Num P → Num P → Bool × Num P) (x : Num T) (y : Num U)
    (result : Num V) : Bool × Num V :=
  let Promotion := wordPromotion T U
  if !isValueInRange Promotion x || !isValueInRange Promotion y then (false, result)
  else
    let px := staticCast Promotion x.val
    let py := staticCast Promotion y.val
    let p := if isIntegerArithmeticSafe Promotion T U then
        (true, staticCast Promotion (op px.val py.val))
      else impl px py
    (p.1 && isValueInRange V p.2, staticCast V p.2.val)

/-- `CheckedAddOp<T, U>::Do`. -/
def checkedAddOp (tc : Toolchain) (V : IntegralType) (x : Num T) (y : Num U) (result : Num V) :
    Bool × Num V :=
  if tc.checkedAddFastOpIsSupported then checkedFastOp V (x.val + y.val)
  else checkedWordOp V (· + ·) checkedAddImpl x y result

/-- `CheckedSubOp<T, U>::Do`. -/
def checkedSubOp (tc : Toolchain) (V : IntegralType) (x : Num T) (y : Num U) (result : Num V) :
    Bool × Num V :=
  if tc.checkedSubFastOpIsSupported then checkedFastOp V (x.val - y.val)
  else checkedWordOp V (· - ·) checkedSubImpl x y result

/-- `CheckedMulImpl`: an unsigned overflow check on the absolute values, with one
more value allowed for a negative result. -/
def checkedMulImpl (x y : Num P) : Bool × Num P :=
  let ux := x.safeUnsignedAbs
  let uy := y.safeUnsignedAbs
  let uresult := staticCast P.makeUnsigned (ux.val * uy.val)
  let isNegative := P.isSigned && decide ((staticCast P.makeSigned (bitXor x y).val).val < 0)
  (decide (uy.val ≤ if !P.isSigned || isNegative then 1 else 0) ||
      decide (ux.val ≤ (P.max + if isNegative then 1 else 0) / uy.val),
    staticCast P (if isNegative then 0 - uresult.val else uresult.val))

/-- `CheckedMulOp<T, U>::Do`. -/
def checkedMulOp (tc : Toolchain) (V : IntegralType) (x : Num T) (y : Num U) (result : Num V) :
    Bool × Num V :=
  if tc.checkedMulFastOpIsSupported T U then checkedFastOp V (x.val * y.val)
  else
    let Promotion := fastIntegerArithmeticPromotion T U
    if (!isValueInRange Promotion x || !isValueInRange Promotion y) &&
        decide (x.val ≠ 0) && decide (y.val ≠ 0) then (false, result)
    else
      let px := staticCast Promotion x.val
      let py := staticCast Promotion y.val
      let p := if tc.checkedMulFastOpIsSupported Promotion Promotion then
          checkedFastOp Promotion (px.val * py.val)
        else if isIntegerArithmeticSafe Promotion T U then
          (true, staticCast Promotion (px.val * py.val))
        else checkedMulImpl px py
      (p.1 && isValueInRange V p.2, staticCast V p.2.val)

/-- `CheckedDivOp<T, U>::Do`. -/
def checkedDivOp (V : IntegralType) (x : Num T) (y : Num U) (result : Num V) : Bool × Num V :=
  let Promotion := bigEnoughPromotion T U
  if y.val = 0 then (false, result)
  else if T.isSigned && U.isSigned && T.isTypeInRange Promotion &&
      decide ((staticCast Promotion x.val).val = Promotion.lowest) &&
      decide (y.val = (staticCast U (-1)).val) then (false, result)
  else if (!isValueInRange Promotion x || !isValueInRange Promotion y) && decide (x.val ≠ 0) then
    (false, result)
  else
    let presult := staticCast Promotion
      ((staticCast Promotion x.val).val.tdiv (staticCast Promotion y.val).val)
    (isValueInRange V presult, staticCast V presult.val)

/-- The operands, in the promotion type, of the `%` that `CheckedModOp` evaluates. -/
def checkedModOpOperands (x : Num T) (y : Num U) :
    Option (Num (bigEnoughPromotion T U) × Num (bigEnoughPromotion T U)) :=
  if y.val ≠ 0 then
    some (staticCast (bigEnoughPromotion T U) x.val, staticCast (bigEnoughPromotion T U) y.val)
  else none

/-- `CheckedModOp<T, U>::Do`. -/
def checkedModOp (V : IntegralType) (x : Num T) (y : Num U) (result : Num V) : Bool × Num V :=
  match checkedModOpOperands x y with
  | some (px, py) =>
    let presult := staticCast (bigEnoughPromotion T U) (px.val.tmod py.val)
    (isValueInRange V presult, staticCast V presult.val)
  | none => (false, result)

/-- `CheckedLshOp<T, U>::Do`. The shift is done unsigned, in the promoted type. -/
def checkedLshOp (V : IntegralType) (x : Num T) (shift : Num U) (result : Num V) : Bool × Num V :=
  if !x.isValueNegative && decide (shift.asUnsigned.val < T.digits) then
    let shifted := staticCast T.makeUnsigned.promoted (x.asUnsigned.val * 2 ^ shift.val.toNat)
    let r := staticCast V shifted.val
    (decide (r.val >>> shift.val.toNat = x.val), r)
  else
    -- The corner case of a full-width shift of a signed zero.
    (T.isSigned && decide (x.val = 0) && decide (shift.asUnsigned.val = T.digits), result)

/-- `CheckedRshOp<T, U>::Do`. A negative shift is pushed out of range by the
conversion to unsigned. -/
def checkedRshOp (V : IntegralType) (x : Num T) (shift : Num U) (result : Num V) : Bool × Num V :=
  if shift.asUnsigned.val < T.integerBitsPlusSign then
    let tmp := staticCast T (x.val >>> shift.val.toNat)
    (isValueInRange V tmp, staticCast V tmp.val)
  else (false, result)

/-- `CheckedMaxOp<T, U>::Do`. -/
def checkedMaxOp (V : IntegralType) (x : Num T) (y : Num U) (_result : Num V) : Bool × Num V :=
  let tmp := if isGreater x y then staticCast (maxExponentPromotion T U) x.val
    else staticCast (maxExponentPromotion T U) y.val
  (isValueInRange V tmp, staticCast V tmp.val)

/-- `CheckedMinOp<T, U>::Do`. -/
def checkedMinOp (V : IntegralType) (x : Num T) (y : Num U) (_result : Num V) : Bool × Num V :=
  let tmp := if isLess x y then staticCast (lowestValuePromotion T U) x.val
    else staticCast (lowestValuePromotion T U) y.val
  (isValueInRange V tmp, staticCast V tmp.val)

end Operations

end MiniChromium
