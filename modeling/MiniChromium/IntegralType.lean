import MiniChromium.BoundedInt
import Mathlib.Data.Fintype.Basic

/-!
# The built-in integer types and their values

`IntegralType` lists the 8/16/32/64-bit signed and unsigned integers. A `Num T`
is a mathematical integer together with the proof that it lies in the range of
`T`, so a value of a C++ integer type cannot be built out of range. Conversions
wrap modulo a power of two, in two's complement. `intptr_t` and `intmax_t` have
64 bits and `int` has 32.
-/
namespace MiniChromium

inductive IntegralType
  | int8 | uint8 | int16 | uint16 | int32 | uint32 | int64 | uint64
  deriving DecidableEq, Repr

namespace IntegralType

instance : Fintype IntegralType where
  elems := {int8, uint8, int16, uint16, int32, uint32, int64, uint64}
  complete T := by cases T <;> decide

/-- `std::is_signed<T>::value`. -/
def isSigned : IntegralType → Bool
  | int8 | int16 | int32 | int64 => true
  | uint8 | uint16 | uint32 | uint64 => false

/-- `IntegerBitsPlusSign<T>::value`. -/
def integerBitsPlusSign : IntegralType → ℕ
  | int8 | uint8 => 8
  | int16 | uint16 => 16
  | int32 | uint32 => 32
  | int64 | uint64 => 64

/-- `std::numeric_limits<T>::digits`. -/
def digits (T : IntegralType) : ℕ :=
  if T.isSigned then T.integerBitsPlusSign - 1 else T.integerBitsPlusSign

/-- The number of values of the type, two to the number of its bits. -/
def modulus (T : IntegralType) : ℤ := (2 ^ T.integerBitsPlusSign : ℕ)

/-- `std::numeric_limits<T>::lowest()`. -/
def lowest (T : IntegralType) : ℤ := if T.isSigned then -(2 ^ T.digits : ℕ) else 0

/-- `std::numeric_limits<T>::max()`. -/
def max (T : IntegralType) : ℤ := (2 ^ T.digits : ℕ) - 1

/-- `std::make_unsigned<T>::type`. -/
def makeUnsigned : IntegralType → IntegralType
  | int8 | uint8 => uint8
  | int16 | uint16 => uint16
  | int32 | uint32 => uint32
  | int64 | uint64 => uint64

/-- `std::make_signed<T>::type`. -/
def makeSigned : IntegralType → IntegralType
  | int8 | uint8 => int8
  | int16 | uint16 => int16
  | int32 | uint32 => int32
  | int64 | uint64 => int64

theorem modulus_pos (T : IntegralType) : 0 < T.modulus := by cases T <;> decide

theorem lowest_add_modulus (T : IntegralType) : T.lowest + T.modulus = T.max + 1 := by
  cases T <;> decide

theorem lowest_nonpos (T : IntegralType) : T.lowest ≤ 0 := by cases T <;> decide

theorem max_pos (T : IntegralType) : 0 < T.max := by cases T <;> decide

theorem lowest_lt_max (T : IntegralType) : T.lowest < T.max := by cases T <;> decide

/-- A signed range is one longer below zero than above. -/
theorem lowest_of_signed {T : IntegralType} (h : T.isSigned = true) : T.lowest = -T.max - 1 := by
  cases T <;> first | decide | cases h

theorem lowest_of_unsigned {T : IntegralType} (h : T.isSigned = false) : T.lowest = 0 := by
  simp [lowest, h]

@[simp] theorem modulus_makeUnsigned (T : IntegralType) : T.makeUnsigned.modulus = T.modulus := by
  cases T <;> rfl

@[simp] theorem modulus_makeSigned (T : IntegralType) : T.makeSigned.modulus = T.modulus := by
  cases T <;> rfl

@[simp] theorem isSigned_makeUnsigned (T : IntegralType) : T.makeUnsigned.isSigned = false := by
  cases T <;> rfl

/-- The integer lies in the range of the type. -/
def InRange (T : IntegralType) (z : ℤ) : Prop := T.lowest ≤ z ∧ z ≤ T.max

instance (T : IntegralType) (z : ℤ) : Decidable (T.InRange z) :=
  inferInstanceAs (Decidable (T.lowest ≤ z ∧ z ≤ T.max))

theorem inRange_zero (T : IntegralType) : T.InRange 0 := ⟨T.lowest_nonpos, T.max_pos.le⟩

/-- The exact value saturated to the range of the type. -/
def clamp (T : IntegralType) (z : ℤ) : ℤ := BoundedInt.clamp T.lowest T.max z

theorem clamp_of_inRange {T : IntegralType} {z : ℤ} (h : T.InRange z) : T.clamp z = z :=
  BoundedInt.clamp_of_mem h.1 h.2

theorem clamp_of_le_lowest {T : IntegralType} {z : ℤ} (h : z ≤ T.lowest) : T.clamp z = T.lowest :=
  (BoundedInt.clamp_eq_lo_iff T.lowest_lt_max).mpr h

theorem clamp_of_max_le {T : IntegralType} {z : ℤ} (h : T.max ≤ z) : T.clamp z = T.max :=
  (BoundedInt.clamp_eq_hi_iff T.lowest_lt_max).mpr h

end IntegralType

/-- A value of the integer type `T`. -/
@[ext] structure Num (T : IntegralType) where
  val : ℤ
  inRange : T.InRange val
  deriving DecidableEq

namespace Num

variable {T U : IntegralType}

instance : CoeOut (Num T) ℤ := ⟨Num.val⟩

theorem lowest_le (x : Num T) : T.lowest ≤ x.val := x.inRange.1

theorem le_max (x : Num T) : x.val ≤ T.max := x.inRange.2

theorem nonneg (x : Num T) (h : T.isSigned = false) : 0 ≤ x.val := by
  have hx := x.lowest_le
  rwa [IntegralType.lowest_of_unsigned h] at hx

theorem isSigned_of_neg (x : Num T) (h : x.val < 0) : T.isSigned = true := by
  by_contra hT
  exact absurd (x.nonneg (Bool.eq_false_iff.mpr hT)) (not_le.mpr h)

/-- `static_cast<T>(z)`: the value of `T` congruent to `z` modulo its range. -/
def staticCast (T : IntegralType) (z : ℤ) : Num T where
  val := BoundedInt.wrap T.lowest T.modulus z
  inRange := by
    have hl := BoundedInt.le_wrap T.modulus_pos T.lowest z
    have hu := BoundedInt.wrap_lt T.modulus_pos T.lowest z
    have hs := T.lowest_add_modulus
    exact ⟨hl, by omega⟩

theorem staticCast_of_inRange {z : ℤ} (h : T.InRange z) : (staticCast T z).val = z := by
  have hs := T.lowest_add_modulus
  exact BoundedInt.wrap_of_mem h.1 (by have := h.2; omega)

theorem staticCast_modEq (T : IntegralType) (z : ℤ) :
    (staticCast T z).val ≡ z [ZMOD T.modulus] := BoundedInt.wrap_modEq _ _ _

theorem staticCast_makeUnsigned_modEq (T : IntegralType) (z : ℤ) :
    (staticCast T.makeUnsigned z).val ≡ z [ZMOD T.modulus] := by
  simpa using staticCast_modEq T.makeUnsigned z

theorem staticCast_makeSigned_modEq (T : IntegralType) (z : ℤ) :
    (staticCast T.makeSigned z).val ≡ z [ZMOD T.modulus] := by
  simpa using staticCast_modEq T.makeSigned z

theorem staticCast_congr {z z' : ℤ} (h : z ≡ z' [ZMOD T.modulus]) :
    staticCast T z = staticCast T z' := Num.ext (BoundedInt.wrap_congr _ h)

@[simp] theorem staticCast_self (x : Num T) : staticCast T x.val = x :=
  Num.ext (staticCast_of_inRange x.inRange)

@[simp] theorem staticCast_zero (T : IntegralType) : (staticCast T 0).val = 0 :=
  staticCast_of_inRange T.inRange_zero

instance : Zero (Num T) := ⟨⟨0, T.inRange_zero⟩⟩

@[simp] theorem val_zero : (0 : Num T).val = 0 := rfl

/-- `std::numeric_limits<T>::max()` as a value of the type. -/
def maxValue (T : IntegralType) : Num T := ⟨T.max, T.lowest_lt_max.le, le_rfl⟩

/-- `std::numeric_limits<T>::lowest()` as a value of the type. -/
def lowestValue (T : IntegralType) : Num T := ⟨T.lowest, le_rfl, T.lowest_lt_max.le⟩

@[simp] theorem val_maxValue : (maxValue T).val = T.max := rfl

@[simp] theorem val_lowestValue : (lowestValue T).val = T.lowest := rfl

/-- `as_unsigned`: the conversion to the unsigned type of the same width. -/
def asUnsigned (x : Num T) : Num T.makeUnsigned := staticCast T.makeUnsigned x.val

/-- `IsValueNegative`. -/
def isValueNegative (x : Num T) : Bool := if T.isSigned then decide (x.val < 0) else false

@[simp] theorem isValueNegative_iff (x : Num T) : x.isValueNegative = true ↔ x.val < 0 := by
  unfold isValueNegative
  cases h : T.isSigned with
  | true => simp
  | false => simpa using x.nonneg h

/-- The bit pattern of the value, in two's complement, as a natural number. -/
def bitPattern (x : Num T) : ℕ := (x.asUnsigned.val).toNat

/-- `x & y` on operands already converted to a common type. -/
def bitAnd (x y : Num T) : Num T := staticCast T (x.bitPattern &&& y.bitPattern : ℕ)

/-- `x | y` on operands already converted to a common type. -/
def bitOr (x y : Num T) : Num T := staticCast T (x.bitPattern ||| y.bitPattern : ℕ)

/-- `x ^ y` on operands already converted to a common type. -/
def bitXor (x y : Num T) : Num T := staticCast T (x.bitPattern ^^^ y.bitPattern : ℕ)

end Num

namespace IntegralType

/-- Integer promotion: types narrower than `int` become `int`. -/
def promoted (T : IntegralType) : IntegralType :=
  if T.integerBitsPlusSign < 32 then int32 else T

/-- The usual arithmetic conversions: the type of `L() + R()`. -/
def sumType (L R : IntegralType) : IntegralType :=
  let l := L.promoted
  let r := R.promoted
  if l.integerBitsPlusSign < r.integerBitsPlusSign then r
  else if r.integerBitsPlusSign < l.integerBitsPlusSign then l
  else if l.isSigned then r else l

end IntegralType

end MiniChromium
