import MiniChromium.SafeConversions

/-!
# Promotion types of binary operations

The templates that pick, for a pair of operand types, the type of the result and
the type in which it is computed. A 64-bit unsigned operand with a signed one is
the only pair that no promotion type covers.
-/
namespace MiniChromium.IntegralType

/-- `IntegerForDigitsAndSign`; there is no 128-bit specialisation. -/
def integerForDigitsAndSign : ℕ → Bool → Option IntegralType
  | 8, true => some int8
  | 8, false => some uint8
  | 16, true => some int16
  | 16, false => some uint16
  | 32, true => some int32
  | 32, false => some uint32
  | 64, true => some int64
  | 64, false => some uint64
  | _, _ => none

/-- `TwiceWiderInteger`. -/
def twiceWiderInteger (T : IntegralType) (isSigned : Bool) : Option IntegralType :=
  integerForDigitsAndSign (T.integerBitsPlusSign * 2) isSigned

/-- `MaxExponentPromotion`. -/
def maxExponentPromotion (Lhs Rhs : IntegralType) : IntegralType :=
  if Lhs.maxExponent > Rhs.maxExponent then Lhs else Rhs

/-- `LowestValuePromotion`. -/
def lowestValuePromotion (Lhs Rhs : IntegralType) : IntegralType :=
  if Lhs.isSigned then
    if Rhs.isSigned then if Lhs.maxExponent > Rhs.maxExponent then Lhs else Rhs
    else Lhs
  else if Rhs.isSigned then Rhs
  else if Lhs.maxExponent < Rhs.maxExponent then Lhs else Rhs

/-- `BigEnoughPromotion<Lhs, Rhs>::is_contained` is false for the last branch only.
The twice wider type exists whenever it is asked for, see `twiceWiderInteger_isSome`. -/
def bigEnoughPromotion (Lhs Rhs : IntegralType) : IntegralType :=
  let M := maxExponentPromotion Lhs Rhs
  if M.isTypeInRange Lhs && M.isTypeInRange Rhs then M
  else if M.integerBitsPlusSign ≠ 64 then
    (twiceWiderInteger M (Lhs.isSigned || Rhs.isSigned)).getD M
  else M

/-- `IsIntegerArithmeticSafe`. -/
def isIntegerArithmeticSafe (T Lhs Rhs : IntegralType) : Bool :=
  decide (T.isSigned ≥ Lhs.isSigned) &&
  decide (T.integerBitsPlusSign ≥ 2 * Lhs.integerBitsPlusSign) &&
  decide (T.isSigned ≥ Rhs.isSigned) &&
  decide (T.integerBitsPlusSign ≥ 2 * Rhs.integerBitsPlusSign)

/-- `FastIntegerArithmeticPromotion`. -/
def fastIntegerArithmeticPromotion (Lhs Rhs : IntegralType) : IntegralType :=
  let M := maxExponentPromotion Lhs Rhs
  let widest := if Lhs.isSigned || Rhs.isSigned then int64 else uint64
  if isIntegerArithmeticSafe widest M M then
    (twiceWiderInteger M (Lhs.isSigned || Rhs.isSigned)).getD M
  else bigEnoughPromotion Lhs Rhs

/-- The promotion of the portable addition and subtraction: a machine word where
the fast promotion is wider than `intptr_t`. -/
def wordPromotion (Lhs Rhs : IntegralType) : IntegralType :=
  let F := fastIntegerArithmeticPromotion Lhs Rhs
  if F.integerBitsPlusSign > int64.integerBitsPlusSign then bigEnoughPromotion Lhs Rhs else F

theorem wordPromotion_eq (Lhs Rhs : IntegralType) :
    wordPromotion Lhs Rhs = fastIntegerArithmeticPromotion Lhs Rhs := by
  revert Lhs Rhs; decide

end MiniChromium.IntegralType
