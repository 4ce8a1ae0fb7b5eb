import MiniChromium.CheckedSum
import MiniChromium.Loops
import Mathlib.Data.Nat.Digits.Lemmas
import Mathlib.Data.Vector.Basic

/-!
# Conversions between integers and arrays of bytes

`SwapBytes`, `FromLittleEndian` and `ToLittleEndian` each have two bodies: one of shifts and
masks, for constant evaluation, and one that calls a builtin or `memcpy`. A parameter says which
of the two is taken. The conversions of each width for native, little and big endian are made of
these. A shift carries the proof that its count is below the width of what is shifted, since
there is no other shift in C++. The overloads for `float` and `double` are not modelled.
-/
namespace MiniChromium

namespace IntegralType

/-- `sizeof(T)`. -/
def sizeof (T : IntegralType) : ℕ := T.integerBitsPlusSign / 8

/-- `MathType<T>`: the type to do the arithmetic in, without a promotion to `int`. -/
def mathType (T : IntegralType) : IntegralType :=
  if T.sizeof ≥ int32.sizeof then T else if T.isSigned then int32 else uint32

theorem integerBitsPlusSign_eq (T : IntegralType) : T.integerBitsPlusSign = 8 * T.sizeof := by
  cases T <;> rfl

theorem two_pow_bits (T : IntegralType) : 2 ^ T.integerBitsPlusSign = 256 ^ T.sizeof := by
  rw [integerBitsPlusSign_eq, pow_mul]
  rfl

theorem sizeof_le_mathType (T : IntegralType) : T.sizeof ≤ T.mathType.sizeof := by
  cases T <;> decide

theorem int_le_promoted (T : IntegralType) : 32 ≤ T.promoted.integerBitsPlusSign := by
  cases T <;> decide

@[simp] theorem isSigned_mathType (T : IntegralType) : T.mathType.isSigned = T.isSigned := by
  cases T <;> rfl

end IntegralType

namespace Num

open IntegralType

variable {T U : IntegralType} {n k : ℕ}

section Patterns

theorem staticCast_bitPattern (x : Num T) : staticCast T (x.bitPattern : ℤ) = x := by
  rw [staticCast_congr x.bitPattern_modEq, staticCast_self]

theorem bitPattern_injective : Function.Injective (bitPattern (T := T)) := fun x y h => by
  rw [← staticCast_bitPattern x, h, staticCast_bitPattern]

theorem bitPattern_lt_pow (x : Num T) : x.bitPattern < 256 ^ T.sizeof :=
  x.bitPattern_lt.trans_eq T.two_pow_bits

theorem bitPattern_of_unsigned (hT : T.isSigned = false) (x : Num T) :
    (x.bitPattern : ℤ) = x.val := by
  have hnonneg := x.nonneg hT
  rw [bitPattern, asUnsigned_of_nonneg x hnonneg, Int.toNat_of_nonneg hnonneg]

/-- A conversion to a type wide enough keeps the pattern of an unsigned value. -/
theorem bitPattern_convert (hT : T.isSigned = false) (x : Num T)
    (h : x.bitPattern < 2 ^ U.integerBitsPlusSign) :
    (staticCast U x.val).bitPattern = x.bitPattern := by
  rw [← bitPattern_of_unsigned hT, bitPattern_staticCast h]

/-- A narrowing conversion keeps the low bits of the pattern. -/
theorem staticCast_val (h : U.integerBitsPlusSign ≤ T.integerBitsPlusSign) (x : Num T) :
    staticCast U x.val = staticCast U x.bitPattern := by
  have hdvd : U.modulus ∣ T.modulus := by
    rw [modulus, modulus, Int.natCast_dvd_natCast]
    exact Nat.pow_dvd_pow 2 h
  exact staticCast_congr (x.bitPattern_modEq.symm.of_dvd hdvd)

end Patterns

section Shifts

/-- `x << k` of an operand that is already promoted. -/
def shiftLeft (x : Num T) (k : ℕ) (_ : k < T.integerBitsPlusSign) : Num T :=
  staticCast T (x.val * 2 ^ k)

/-- `x >> k` of an operand that is already promoted. -/
def shiftRight (x : Num T) (k : ℕ) (_ : k < T.integerBitsPlusSign) : Num T :=
  staticCast T (x.val / 2 ^ k)

theorem bitPattern_shiftLeft (x : Num T) (hk : k < T.integerBitsPlusSign)
    (h : x.bitPattern * 2 ^ k < 2 ^ T.integerBitsPlusSign) :
    (shiftLeft x k hk).bitPattern = x.bitPattern * 2 ^ k := by
  have hmod : x.val * 2 ^ k ≡ ((x.bitPattern * 2 ^ k : ℕ) : ℤ) [ZMOD T.modulus] := by
    push_cast
    exact (x.bitPattern_modEq.symm).mul_right _
  rw [shiftLeft, staticCast_congr hmod, bitPattern_staticCast h]

theorem bitPattern_shiftRight (hT : T.isSigned = false) (x : Num T)
    (hk : k < T.integerBitsPlusSign) : (shiftRight x k hk).bitPattern = x.bitPattern / 2 ^ k := by
  have hval : x.val / 2 ^ k = ((x.bitPattern / 2 ^ k : ℕ) : ℤ) := by
    rw [← bitPattern_of_unsigned hT]
    rfl
  rw [shiftRight, hval, bitPattern_staticCast ((Nat.div_le_self _ _).trans_lt x.bitPattern_lt)]

theorem bitPattern_bitOr (x y : Num T) : (bitOr x y).bitPattern = x.bitPattern ||| y.bitPattern :=
  bitPattern_staticCast (Nat.or_lt_two_pow x.bitPattern_lt y.bitPattern_lt)

/-- The mask of the last byte. -/
theorem bitPattern_bitAnd_last (x : Num T) :
    (bitAnd x (staticCast T 0xff)).bitPattern = x.bitPattern % 256 := by
  have hlast : (staticCast T 0xff).bitPattern = 2 ^ 8 - 1 := by cases T <;> decide
  rw [bitAnd, bitPattern_staticCast (Nat.and_lt_two_pow _ (bitPattern_lt _)), hlast,
    Nat.and_two_pow_sub_one_eq_mod]

end Shifts

end Num

namespace ByteConversions

open IntegralType MiniChromium.Num

section Code

variable {T : IntegralType}

/-- `std::array<uint8_t, sizeof(T)>` and `std::span<const uint8_t, sizeof(T)>`. -/
abbrev Bytes (T : IntegralType) := List.Vector (Num .uint8) T.sizeof

/-- What `memcpy` reads from a variable of type `T` where the host is little-endian: the least
significant byte is at the lowest address. -/
def objectBytes (x : Num T) : Bytes T :=
  List.Vector.ofFn fun i => staticCast .uint8 (x.bitPattern / 256 ^ i.val % 256 : ℕ)

/-- The bytes as numbers, from the lowest address on. -/
def patterns (bytes : Bytes T) : List ℕ := bytes.toList.map bitPattern

/-- What a variable of type `T` holds after `memcpy` has written the bytes to it. -/
def objectValue (bytes : Bytes T) : Num T := staticCast T (Nat.ofDigits 256 (patterns bytes) : ℕ)

/-- `__builtin_bswap16`, `__builtin_bswap32` and `__builtin_bswap64`. -/
def builtinBswap (value : Num T) : Num T := objectValue (objectBytes value).reverse

/-- `(value >> k) & T{0xff}`. -/
def byteAt (value : Num T) (k : ℕ) (hk : k < T.integerBitsPlusSign) : Num T :=
  bitAnd (shiftRight value k hk) (staticCast T 0xff)

/-- The constant-evaluated body of `SwapBytes`, where `sizeof(T)` is 2. -/
def swapTwoBytes (value : Num .uint16) : Num .uint16 :=
  let a := byteAt (staticCast (mathType .uint16) value.val) 0 (by decide)
  let b := byteAt (staticCast (mathType .uint16) value.val) 8 (by decide)
  staticCast .uint16 (bitOr (shiftLeft a 8 (by decide)) (shiftLeft b 0 (by decide))).val

/-- The constant-evaluated body of `SwapBytes`, where `sizeof(T)` is 4. -/
def swapFourBytes (value : Num .uint32) : Num .uint32 :=
  let a := byteAt value 0 (by decide)
  let b := byteAt value 8 (by decide)
  let c := byteAt value 16 (by decide)
  let d := byteAt value 24 (by decide)
  bitOr (bitOr (bitOr (shiftLeft a 24 (by decide)) (shiftLeft b 16 (by decide)))
    (shiftLeft c 8 (by decide))) (shiftLeft d 0 (by decide))

/-- The constant-evaluated body of `SwapBytes`, where `sizeof(T)` is 8. -/
def swapEightBytes (value : Num .uint64) : Num .uint64 :=
  let a := byteAt value 0 (by decide)
  let b := byteAt value 8 (by decide)
  let c := byteAt value 16 (by decide)
  let d := byteAt value 24 (by decide)
  let e := byteAt value 32 (by decide)
  let f := byteAt value 40 (by decide)
  let g := byteAt value 48 (by decide)
  let h := byteAt value 56 (by decide)
  bitOr (bitOr (bitOr (bitOr (bitOr (bitOr (bitOr
    (shiftLeft a 56 (by decide)) (shiftLeft b 48 (by decide))) (shiftLeft c 40 (by decide)))
    (shiftLeft d 32 (by decide))) (shiftLeft e 24 (by decide))) (shiftLeft f 16 (by decide)))
    (shiftLeft g 8 (by decide))) (shiftLeft h 0 (by decide))

/-- `SwapBytes` of an unsigned type. The parameter is `std::is_constant_evaluated()`. -/
def swapUnsignedBytes (constant : Bool) : {T : IntegralType} → T.isSigned = false → Num T → Num T
  | .uint8, _, value => value
  | .uint16, _, value => if constant then swapTwoBytes value else builtinBswap value
  | .uint32, _, value => if constant then swapFourBytes value else builtinBswap value
  | .uint64, _, value => if constant then swapEightBytes value else builtinBswap value
  | .int8, hT, _ | .int16, hT, _ | .int32, hT, _ | .int64, hT, _ => nomatch hT

/-- `SwapBytes`: signed values are byte-swapped as unsigned values. -/
def swapBytes (constant : Bool) (value : Num T) : Num T :=
  match hT : T.isSigned with
  | false => swapUnsignedBytes constant hT value
  | true => staticCast T (swapUnsignedBytes constant T.isSigned_makeUnsigned value.asUnsigned).val

/-- One round of the loop in `FromLittleEndian`: `val |= MathType<T>(bytes[i]) << (8u * i)`. -/
def fromRound (bytes : Bytes T) (val : Num T) (i : Fin T.sizeof) : Num T :=
  have hshift : 8 * i.val < T.mathType.integerBitsPlusSign := by
    have hle := T.sizeof_le_mathType
    rw [integerBitsPlusSign_eq]
    omega
  -- The usual conversions bring `val` to the type of the shift.
  let shifted := shiftLeft (staticCast T.mathType (bytes.get i).val) (8 * i.val) hshift
  staticCast T (bitOr (staticCast T.mathType val.val) shifted).val

/-- `FromLittleEndian`. -/
def fromLittleEndian (constant : Bool) (bytes : Bytes T) : Num T :=
  if constant then Fin.foldl T.sizeof (fromRound bytes) (staticCast T 0) else objectValue bytes

/-- One round of the loop in `ToLittleEndian`. -/
def toRound (s : Bytes T × Num T) (i : Fin T.sizeof) : Bytes T × Num T :=
  let (bytes, val) := s
  let masked := bitAnd (staticCast (sumType T .int32) val.val) (staticCast (sumType T .int32) 0xff)
  let lastByte := staticCast .uint8 masked.val
  have hshift : 8 < T.promoted.integerBitsPlusSign := T.int_le_promoted.trans_lt' (by decide)
  (bytes.set i lastByte,
    if T.sizeof > 1 then staticCast T (shiftRight (staticCast T.promoted val.val) 8 hshift).val
    else val)

/-- `ToLittleEndian`. -/
def toLittleEndian (constant : Bool) (val : Num T) : Bytes T :=
  if constant then (Fin.foldl T.sizeof toRound (List.Vector.replicate _ 0, val)).1
  else objectBytes val

/-- `ByteSwap`. -/
def byteSwap (constant : Bool) (value : Num T) : Num T := swapBytes constant value

end Code

section Memory

variable {T : IntegralType}

/-- The digits of a number make up what its width holds of it. -/
theorem ofDigits_ofFn (n v : ℕ) :
    Nat.ofDigits 256 (List.ofFn fun i : Fin n => v / 256 ^ i.val % 256) = v % 256 ^ n := by
  induction n with
  | zero => simp [Nat.mod_one]
  | succ n ih =>
    rw [List.ofFn_succ', List.concat_eq_append, Nat.ofDigits_append, List.length_ofFn,
      Nat.ofDigits_singleton, Nat.mod_pow_succ]
    exact congrArg (· + _) ih

theorem patterns_objectBytes (x : Num T) : patterns (objectBytes x) =
    List.ofFn fun i : Fin T.sizeof => x.bitPattern / 256 ^ i.val % 256 := by
  rw [patterns, objectBytes, List.Vector.toList_ofFn, List.map_ofFn]
  congr 1
  funext i
  exact bitPattern_staticCast (Nat.mod_lt _ (by decide))

@[simp] theorem length_patterns (bytes : Bytes T) : (patterns bytes).length = T.sizeof := by
  rw [patterns, List.length_map, List.Vector.toList_length]

theorem patterns_lt (bytes : Bytes T) : ∀ d ∈ patterns bytes, d < 256 := by
  intro d hd
  obtain ⟨byte, -, rfl⟩ := List.mem_map.mp hd
  exact byte.bitPattern_lt_pow

theorem ofDigits_lt (bytes : Bytes T) :
    Nat.ofDigits 256 (patterns bytes) < 256 ^ T.sizeof := by
  have hlt := Nat.ofDigits_lt_base_pow_length (by decide) (patterns_lt bytes)
  rwa [length_patterns] at hlt

theorem bitPattern_objectValue (bytes : Bytes T) :
    (objectValue bytes).bitPattern = Nat.ofDigits 256 (patterns bytes) :=
  bitPattern_staticCast ((ofDigits_lt bytes).trans_eq T.two_pow_bits.symm)

@[simp] theorem objectValue_objectBytes (x : Num T) : objectValue (objectBytes x) = x := by
  apply bitPattern_injective
  rw [bitPattern_objectValue, patterns_objectBytes, ofDigits_ofFn,
    Nat.mod_eq_of_lt x.bitPattern_lt_pow]

/-- Two arrays that read as one number are one array. -/
theorem objectValue_injective : Function.Injective (objectValue (T := T)) := by
  intro bytes bytes' h
  have hdigits := congrArg bitPattern h
  rw [bitPattern_objectValue, bitPattern_objectValue] at hdigits
  apply List.Vector.toList_injective
  apply bitPattern_injective.list_map
  exact Nat.ofDigits_inj_of_len_eq (by decide) (by simp) (patterns_lt bytes) (patterns_lt bytes')
    hdigits

@[simp] theorem objectBytes_objectValue (bytes : Bytes T) :
    objectBytes (objectValue bytes) = bytes :=
  objectValue_injective (objectValue_objectBytes _)

theorem objectBytes_builtinBswap (x : Num T) :
    objectBytes (builtinBswap x) = (objectBytes x).reverse :=
  objectBytes_objectValue _

@[simp] theorem reverse_reverse (bytes : Bytes T) : bytes.reverse.reverse = bytes :=
  List.Vector.toList_injective (by simp)

@[simp] theorem builtinBswap_builtinBswap (x : Num T) : builtinBswap (builtinBswap x) = x := by
  rw [builtinBswap, objectBytes_builtinBswap, reverse_reverse, objectValue_objectBytes]

end Memory

section LittleEndian

variable {T : IntegralType}

theorem take_patterns (bytes : Bytes T) (i : Fin T.sizeof) :
    (patterns bytes).take (i + 1) = (patterns bytes).take i ++ [(bytes.get i).bitPattern] := by
  have hi : i.val < (patterns bytes).length := by
    rw [length_patterns]
    exact i.isLt
  rw [← List.take_concat_get' _ _ hi]
  simp [patterns, List.Vector.get_eq_get_toList]

/-- The number that the first `i` bytes make up. -/
def lowValue (bytes : Bytes T) (i : ℕ) : ℕ := Nat.ofDigits 256 ((patterns bytes).take i)

theorem lowValue_lt (bytes : Bytes T) (i : ℕ) : lowValue bytes i < 2 ^ (8 * i) := by
  have hlt := Nat.ofDigits_lt_base_pow_length (l := (patterns bytes).take i)
    (by decide : 1 < 256) fun d hd => patterns_lt bytes d (List.mem_of_mem_take hd)
  have hle : (256 : ℕ) ^ ((patterns bytes).take i).length ≤ 256 ^ i :=
    Nat.pow_le_pow_right (by decide) (List.length_take_le _ _)
  rw [pow_mul]
  exact hlt.trans_le hle

/-- One more byte is joined above those that are there. -/
theorem lowValue_succ (bytes : Bytes T) (i : Fin T.sizeof) :
    lowValue bytes (i + 1) = lowValue bytes i ||| (bytes.get i).bitPattern * 2 ^ (8 * i.val) := by
  have hlength : ((patterns bytes).take i).length = i := by
    rw [List.length_take, length_patterns]
    exact min_eq_left i.isLt.le
  have hjoin := Nat.shiftLeft_add_eq_or_of_lt (lowValue_lt bytes i) (bytes.get i).bitPattern
  rw [Nat.shiftLeft_eq] at hjoin
  rw [Nat.or_comm, ← hjoin, lowValue, take_patterns, Nat.ofDigits_append, hlength,
    Nat.ofDigits_singleton, pow_mul, add_comm, mul_comm]
  rfl

theorem bitPattern_fromRound (hT : T.isSigned = false) (bytes : Bytes T) (i : Fin T.sizeof)
    (val : Num T) (h : val.bitPattern = lowValue bytes i) :
    (fromRound bytes val i).bitPattern = lowValue bytes (i + 1) := by
  have hround : 8 * i.val + 8 ≤ T.integerBitsPlusSign := by
    rw [integerBitsPlusSign_eq]
    omega
  have hmath : T.integerBitsPlusSign ≤ T.mathType.integerBitsPlusSign := by
    rw [integerBitsPlusSign_eq, integerBitsPlusSign_eq]
    exact Nat.mul_le_mul_left 8 T.sizeof_le_mathType
  have hpow := Nat.pow_le_pow_right (n := 2) (by decide) hmath
  have hbyte : (bytes.get i).bitPattern < 2 ^ 8 := (bytes.get i).bitPattern_lt
  have hconvert : (staticCast T.mathType (bytes.get i).val).bitPattern =
      (bytes.get i).bitPattern :=
    bitPattern_convert rfl _ (hbyte.trans_le (Nat.pow_le_pow_right (by decide) (by omega)))
  have hshifted : (bytes.get i).bitPattern * 2 ^ (8 * i.val) <
      2 ^ T.mathType.integerBitsPlusSign := by
    apply lt_of_lt_of_le (Nat.mul_lt_mul_of_pos_right hbyte (Nat.two_pow_pos _))
    rw [← pow_add]
    exact Nat.pow_le_pow_right (by decide) (by omega)
  have hsum : lowValue bytes (i + 1) < 2 ^ T.integerBitsPlusSign :=
    (lowValue_lt bytes _).trans_le (Nat.pow_le_pow_right (by decide) (by omega))
  have hor : (bitOr (staticCast T.mathType val.val) (shiftLeft
      (staticCast T.mathType (bytes.get i).val) (8 * i.val) (by omega))).bitPattern =
      lowValue bytes (i + 1) := by
    rw [bitPattern_bitOr, bitPattern_shiftLeft _ _ (by rwa [hconvert]), hconvert,
      bitPattern_convert hT _ (val.bitPattern_lt.trans_le hpow), h, lowValue_succ]
  rw [fromRound, bitPattern_convert (by rwa [isSigned_mathType]) _ (by rwa [hor]), hor]

/-- The loop and `memcpy` read the same number. -/
theorem fromLittleEndian_eq (hT : T.isSigned = false) (constant : Bool) (bytes : Bytes T) :
    fromLittleEndian constant bytes = objectValue bytes := by
  cases constant with
  | false => rfl
  | true =>
    have hloop : (Fin.foldl T.sizeof (fromRound bytes) (staticCast T 0)).bitPattern =
        lowValue bytes T.sizeof := by
      apply Loops.foldl_induction (fromRound bytes) fun i val => val.bitPattern = lowValue bytes i
      · exact bitPattern_staticCast (Nat.two_pow_pos _)
      · exact fun i val => bitPattern_fromRound hT bytes i val
    apply bitPattern_injective
    rw [bitPattern_objectValue]
    calc (fromLittleEndian true bytes).bitPattern
      _ = lowValue bytes T.sizeof := hloop
      _ = Nat.ofDigits 256 (patterns bytes) := by
        rw [lowValue, List.take_of_length_le (length_patterns bytes).le]

/-- The bytes below `i` are written, and while more are to come the variable holds them. -/
structure Written (x : Num T) (i : ℕ) (s : Bytes T × Num T) : Prop where
  bytes : ∀ j : Fin T.sizeof, j < i → s.1.get j = (objectBytes x).get j
  val : i < T.sizeof → s.2.bitPattern = x.bitPattern / 256 ^ i

theorem get_objectBytes (x : Num T) (i : Fin T.sizeof) :
    (objectBytes x).get i = staticCast .uint8 (x.bitPattern / 256 ^ i.val % 256 : ℕ) :=
  List.Vector.get_ofFn _ i

/-- `static_cast<uint8_t>(val & 0xff)`. -/
theorem lastByte_eq (hT : T.isSigned = false) (val : Num T) :
    staticCast .uint8 (bitAnd (staticCast (sumType T .int32) val.val)
      (staticCast (sumType T .int32) 0xff)).val = staticCast .uint8 (val.bitPattern % 256 : ℕ) := by
  have hbits : T.integerBitsPlusSign ≤ (sumType T .int32).integerBitsPlusSign ∧
      uint8.integerBitsPlusSign ≤ (sumType T .int32).integerBitsPlusSign := by
    cases T <;> decide
  have hpow := Nat.pow_le_pow_right (n := 2) (by decide) hbits.1
  rw [staticCast_val hbits.2, bitPattern_bitAnd_last,
    bitPattern_convert hT val (val.bitPattern_lt.trans_le hpow)]

/-- `val >>= 8u`. -/
theorem bitPattern_shiftedValue (hT : T.isSigned = false) (val : Num T)
    (h : 8 < T.promoted.integerBitsPlusSign) :
    (staticCast T (shiftRight (staticCast T.promoted val.val) 8 h).val).bitPattern =
      val.bitPattern / 256 := by
  have hpromoted : T.promoted.InRange val.val :=
    val.inRange.of_isTypeInRange (by cases T <;> decide)
  have hnonneg := val.nonneg hT
  have hrange : T.promoted.InRange (val.val / 2 ^ 8) :=
    ⟨T.promoted.lowest_nonpos.trans (by omega), (by omega : _ ≤ val.val).trans hpromoted.2⟩
  have hdiv : val.val / 2 ^ 8 = ((val.bitPattern / 256 : ℕ) : ℤ) := by
    rw [← bitPattern_of_unsigned hT]
    rfl
  rw [shiftRight, staticCast_of_inRange hpromoted, staticCast_of_inRange hrange, hdiv,
    bitPattern_staticCast ((Nat.div_le_self _ _).trans_lt val.bitPattern_lt)]

theorem written_toRound (hT : T.isSigned = false) (x : Num T) (i : Fin T.sizeof)
    (s : Bytes T × Num T) (h : Written x i s) : Written x (i + 1) (toRound s i) := by
  have hval := h.val i.isLt
  refine ⟨fun j hj => ?_, fun hi => ?_⟩
  · rw [toRound, List.Vector.get_set_eq_if]
    split_ifs with hij
    · rw [← hij, get_objectBytes, lastByte_eq hT, hval]
    · exact h.bytes j (by omega)
  · have hwidth : T.sizeof > 1 := by omega
    rw [toRound, if_pos hwidth, bitPattern_shiftedValue hT, hval, Nat.div_div_eq_div_mul, pow_succ]

/-- The loop and `memcpy` write the same bytes. -/
theorem toLittleEndian_eq (hT : T.isSigned = false) (constant : Bool) (x : Num T) :
    toLittleEndian constant x = objectBytes x := by
  cases constant with
  | false => rfl
  | true =>
    have hloop : Written x T.sizeof
        (Fin.foldl T.sizeof toRound (List.Vector.replicate _ 0, x)) := by
      apply Loops.foldl_induction toRound (Written x)
      · exact ⟨fun j hj => absurd hj (Nat.not_lt_zero _), fun _ => by rw [pow_zero, Nat.div_one]⟩
      · exact written_toRound hT x
    exact List.Vector.ext fun j => hloop.bytes j j.isLt

end LittleEndian

section Swap

variable {T : IntegralType} {j k : ℕ}

/-- The first `n` bytes of a number, the last of them in front, read as a number. -/
def swapped (v : ℕ) : ℕ → ℕ
  | 0 => 0
  | n + 1 => swapped v n * 256 + v / 256 ^ n % 256

theorem ofDigits_reverse (v n : ℕ) :
    Nat.ofDigits 256 (List.ofFn fun i : Fin n => v / 256 ^ i.val % 256).reverse = swapped v n := by
  induction n with
  | zero => rfl
  | succ n ih =>
    rw [List.ofFn_succ', List.concat_eq_append, List.reverse_append, List.reverse_singleton,
      List.singleton_append, Nat.ofDigits_cons, swapped, add_comm, mul_comm]
    exact congrArg (· * 256 + _) ih

theorem bitPattern_builtinBswap (x : Num T) :
    (builtinBswap x).bitPattern = swapped x.bitPattern T.sizeof := by
  rw [builtinBswap, bitPattern_objectValue, ← ofDigits_reverse, ← patterns_objectBytes, patterns,
    patterns, List.Vector.toList_reverse, List.map_reverse]

theorem bitPattern_byteAt (hT : T.isSigned = false) (value : Num T)
    (hk : 8 * j < T.integerBitsPlusSign) :
    (byteAt value (8 * j) hk).bitPattern = value.bitPattern / 256 ^ j % 256 := by
  rw [byteAt, bitPattern_bitAnd_last, bitPattern_shiftRight hT, pow_mul]
  rfl

/-- A byte that goes as far up as it can, or joins those above it. -/
theorem bitPattern_shiftByte (y : Num T) (hk : k + 8 ≤ T.integerBitsPlusSign)
    (hy : y.bitPattern < 256) :
    (shiftLeft y k (by omega)).bitPattern = y.bitPattern * 2 ^ k := by
  apply bitPattern_shiftLeft
  calc y.bitPattern * 2 ^ k
    _ < 2 ^ 8 * 2 ^ k := Nat.mul_lt_mul_of_pos_right hy (Nat.two_pow_pos k)
    _ = 2 ^ (k + 8) := by rw [pow_add, mul_comm]
    _ ≤ 2 ^ T.integerBitsPlusSign := Nat.pow_le_pow_right (by decide) hk

/-- A byte joins the bytes above it. -/
theorem bitPattern_join (x value : Num T) (hT : T.isSigned = false)
    (hk : k + 8 ≤ T.integerBitsPlusSign) (hj : 8 * j < T.integerBitsPlusSign)
    (hx : x.bitPattern = swapped value.bitPattern j * 2 ^ (k + 8)) :
    (bitOr x (shiftLeft (byteAt value (8 * j) hj) k (by omega))).bitPattern =
      swapped value.bitPattern (j + 1) * 2 ^ k := by
  have hbyte := bitPattern_byteAt hT value hj
  have hlt : value.bitPattern / 256 ^ j % 256 < 2 ^ 8 := Nat.mod_lt _ (by decide)
  have hjoin := Nat.shiftLeft_add_eq_or_of_lt hlt (swapped value.bitPattern j)
  rw [bitPattern_bitOr, bitPattern_shiftByte _ hk (by rwa [hbyte]), hx, hbyte, swapped,
    add_comm k, pow_add, ← mul_assoc, ← Nat.shiftLeft_eq _ 8, ← Nat.shiftLeft_eq,
    ← Nat.shiftLeft_eq,
    ← Nat.shiftLeft_or_distrib, ← hjoin, Nat.shiftLeft_eq, Nat.shiftLeft_eq]

/-- The last byte goes to the front. -/
theorem bitPattern_front (value : Num T) (hT : T.isSigned = false)
    (hk : k + 8 ≤ T.integerBitsPlusSign) :
    (shiftLeft (byteAt value (8 * 0) (by omega)) k (by omega)).bitPattern =
      swapped value.bitPattern 1 * 2 ^ k := by
  have hbyte := bitPattern_byteAt (j := 0) hT value (by omega)
  have hlt : value.bitPattern / 256 ^ 0 % 256 < 256 := Nat.mod_lt _ (by decide)
  rw [bitPattern_shiftByte _ hk (by rwa [hbyte]), hbyte, swapped, swapped, zero_mul, zero_add]

theorem eq_builtinBswap {x value : Num T}
    (h : x.bitPattern = swapped value.bitPattern T.sizeof * 2 ^ 0) : x = builtinBswap value := by
  apply bitPattern_injective
  rw [h, bitPattern_builtinBswap, pow_zero, mul_one]

theorem swapTwoBytes_eq (value : Num .uint16) : swapTwoBytes value = builtinBswap value := by
  have hvalue : (staticCast (mathType .uint16) value.val).bitPattern = value.bitPattern :=
    bitPattern_convert rfl value (value.bitPattern_lt.trans (by decide))
  have hlt := (builtinBswap value).bitPattern_lt
  rw [bitPattern_builtinBswap] at hlt
  have ha := bitPattern_front (k := 8) (staticCast (mathType .uint16) value.val) rfl (by decide)
  have hb := bitPattern_join (j := 1) (k := 0) _ _ rfl (by decide) (by decide) ha
  rw [hvalue] at hb
  apply eq_builtinBswap
  exact (bitPattern_convert rfl _ (hb.trans_lt (by rwa [pow_zero, mul_one]))).trans hb

theorem swapFourBytes_eq (value : Num .uint32) : swapFourBytes value = builtinBswap value := by
  have ha := bitPattern_front (k := 24) value rfl (by decide)
  have hb := bitPattern_join (j := 1) (k := 16) _ value rfl (by decide) (by decide) ha
  have hc := bitPattern_join (j := 2) (k := 8) _ value rfl (by decide) (by decide) hb
  have hd := bitPattern_join (j := 3) (k := 0) _ value rfl (by decide) (by decide) hc
  exact eq_builtinBswap hd

theorem swapEightBytes_eq (value : Num .uint64) : swapEightBytes value = builtinBswap value := by
  have ha := bitPattern_front (k := 56) value rfl (by decide)
  have hb := bitPattern_join (j := 1) (k := 48) _ value rfl (by decide) (by decide) ha
  have hc := bitPattern_join (j := 2) (k := 40) _ value rfl (by decide) (by decide) hb
  have hd := bitPattern_join (j := 3) (k := 32) _ value rfl (by decide) (by decide) hc
  have he := bitPattern_join (j := 4) (k := 24) _ value rfl (by decide) (by decide) hd
  have hf := bitPattern_join (j := 5) (k := 16) _ value rfl (by decide) (by decide) he
  have hg := bitPattern_join (j := 6) (k := 8) _ value rfl (by decide) (by decide) hf
  have hh := bitPattern_join (j := 7) (k := 0) _ value rfl (by decide) (by decide) hg
  exact eq_builtinBswap hh

/-- A single byte has only one order. -/
theorem reverse_of_sizeof_one (hT : T.sizeof = 1) (bytes : Bytes T) : bytes.reverse = bytes := by
  apply List.Vector.toList_injective
  obtain ⟨byte, hbyte⟩ := List.length_eq_one_iff.mp (bytes.toList_length.trans hT)
  rw [List.Vector.toList_reverse, hbyte, List.reverse_singleton]

theorem swapUnsignedBytes_eq (constant : Bool) (hT : T.isSigned = false) (value : Num T) :
    swapUnsignedBytes constant hT value = builtinBswap value := by
  cases T with
  | uint8 =>
    rw [builtinBswap, reverse_of_sizeof_one rfl, objectValue_objectBytes]
    rfl
  | uint16 =>
    cases constant with
    | false => rfl
    | true => exact swapTwoBytes_eq value
  | uint32 =>
    cases constant with
    | false => rfl
    | true => exact swapFourBytes_eq value
  | uint64 =>
    cases constant with
    | false => rfl
    | true => exact swapEightBytes_eq value
  | int8 | int16 | int32 | int64 => cases hT

theorem bitPattern_asUnsigned (value : Num T) :
    value.asUnsigned.bitPattern = value.bitPattern := by
  have hpattern := bitPattern_of_unsigned T.isSigned_makeUnsigned value.asUnsigned
  have hnonneg := value.asUnsigned.nonneg T.isSigned_makeUnsigned
  rw [bitPattern.eq_def value]
  omega

/-- Whatever the type and the body taken, `SwapBytes` reverses the bytes of the object. -/
theorem swapBytes_eq (constant : Bool) (value : Num T) :
    swapBytes constant value = builtinBswap value := by
  unfold swapBytes
  split
  case h_1 hT => exact swapUnsignedBytes_eq constant hT value
  case h_2 hT =>
    have hbits : T.makeUnsigned.integerBitsPlusSign = T.integerBitsPlusSign := by
      cases T <;> rfl
    have hsizeof : T.makeUnsigned.sizeof = T.sizeof := by
      cases T <;> rfl
    apply bitPattern_injective
    rw [swapUnsignedBytes_eq, bitPattern_convert T.isSigned_makeUnsigned _ (by
      rw [← hbits]; exact bitPattern_lt _), bitPattern_builtinBswap, bitPattern_builtinBswap,
      bitPattern_asUnsigned, hsizeof]

theorem byteSwap_eq (constant : Bool) (value : Num T) :
    byteSwap constant value = builtinBswap value :=
  swapBytes_eq constant value

end Swap

section Widths

/-- `U8FromNativeEndian`. -/
def u8FromNativeEndian (bytes : Bytes .uint8) : Num .uint8 := bytes.get ⟨0, by decide⟩

/-- `U16FromNativeEndian`. -/
def u16FromNativeEndian (constant : Bool) (bytes : Bytes .uint16) : Num .uint16 :=
  fromLittleEndian constant bytes

/-- `U32FromNativeEndian`. -/
def u32FromNativeEndian (constant : Bool) (bytes : Bytes .uint32) : Num .uint32 :=
  fromLittleEndian constant bytes

/-- `U64FromNativeEndian`. -/
def u64FromNativeEndian (constant : Bool) (bytes : Bytes .uint64) : Num .uint64 :=
  fromLittleEndian constant bytes

/-- `U8FromLittleEndian`. -/
def u8FromLittleEndian (bytes : Bytes .uint8) : Num .uint8 := bytes.get ⟨0, by decide⟩

/-- `U16FromLittleEndian`. -/
def u16FromLittleEndian (constant : Bool) (bytes : Bytes .uint16) : Num .uint16 :=
  fromLittleEndian constant bytes

/-- `U32FromLittleEndian`. -/
def u32FromLittleEndian (constant : Bool) (bytes : Bytes .uint32) : Num .uint32 :=
  fromLittleEndian constant bytes

/-- `U64FromLittleEndian`. -/
def u64FromLittleEndian (constant : Bool) (bytes : Bytes .uint64) : Num .uint64 :=
  fromLittleEndian constant bytes

/-- `U8FromBigEndian`. -/
def u8FromBigEndian (bytes : Bytes .uint8) : Num .uint8 := bytes.get ⟨0, by decide⟩

/-- `U16FromBigEndian`. -/
def u16FromBigEndian (constant : Bool) (bytes : Bytes .uint16) : Num .uint16 :=
  byteSwap constant (fromLittleEndian constant bytes)

/-- `U32FromBigEndian`. -/
def u32FromBigEndian (constant : Bool) (bytes : Bytes .uint32) : Num .uint32 :=
  byteSwap constant (fromLittleEndian constant bytes)

/-- `U64FromBigEndian`. -/
def u64FromBigEndian (constant : Bool) (bytes : Bytes .uint64) : Num .uint64 :=
  byteSwap constant (fromLittleEndian constant bytes)

/-- `U8ToNativeEndian`. -/
def u8ToNativeEndian (val : Num .uint8) : Bytes .uint8 := ⟨[val], rfl⟩

/-- `U16ToNativeEndian`. -/
def u16ToNativeEndian (constant : Bool) (val : Num .uint16) : Bytes .uint16 :=
  toLittleEndian constant val

/-- `U32ToNativeEndian`. -/
def u32ToNativeEndian (constant : Bool) (val : Num .uint32) : Bytes .uint32 :=
  toLittleEndian constant val

/-- `U64ToNativeEndian`. -/
def u64ToNativeEndian (constant : Bool) (val : Num .uint64) : Bytes .uint64 :=
  toLittleEndian constant val

/-- `U8ToLittleEndian`. -/
def u8ToLittleEndian (val : Num .uint8) : Bytes .uint8 := ⟨[val], rfl⟩

/-- `U16ToLittleEndian`. -/
def u16ToLittleEndian (constant : Bool) (val : Num .uint16) : Bytes .uint16 :=
  toLittleEndian constant val

/-- `U32ToLittleEndian`. -/
def u32ToLittleEndian (constant : Bool) (val : Num .uint32) : Bytes .uint32 :=
  toLittleEndian constant val

/-- `U64ToLittleEndian`. -/
def u64ToLittleEndian (constant : Bool) (val : Num .uint64) : Bytes .uint64 :=
  toLittleEndian constant val

/-- `U8ToBigEndian`. -/
def u8ToBigEndian (val : Num .uint8) : Bytes .uint8 := ⟨[val], rfl⟩

/-- `U16ToBigEndian`. -/
def u16ToBigEndian (constant : Bool) (val : Num .uint16) : Bytes .uint16 :=
  toLittleEndian constant (byteSwap constant val)

/-- `U32ToBigEndian`. -/
def u32ToBigEndian (constant : Bool) (val : Num .uint32) : Bytes .uint32 :=
  toLittleEndian constant (byteSwap constant val)

/-- `U64ToBigEndian`. -/
def u64ToBigEndian (constant : Bool) (val : Num .uint64) : Bytes .uint64 :=
  toLittleEndian constant (byteSwap constant val)

end Widths

section Consistency

variable {T : IntegralType}

/-- Decoding undoes encoding, and encoding undoes decoding. -/
def MutuallyInverse (decode : Bytes T → Num T) (encode : Num T → Bytes T) : Prop :=
  Function.LeftInverse decode encode ∧ Function.RightInverse decode encode

/-- The conversions of one width. -/
structure Conversions (T : IntegralType) where
  fromNativeEndian : Bytes T → Num T
  toNativeEndian : Num T → Bytes T
  fromLittleEndian : Bytes T → Num T
  toLittleEndian : Num T → Bytes T
  fromBigEndian : Bytes T → Num T
  toBigEndian : Num T → Bytes T

/-- Every order has its inverse, and the big-endian one is the little-endian one backwards. -/
structure Conversions.Consistent (c : Conversions T) : Prop where
  native : MutuallyInverse c.fromNativeEndian c.toNativeEndian
  little : MutuallyInverse c.fromLittleEndian c.toLittleEndian
  big : MutuallyInverse c.fromBigEndian c.toBigEndian
  toBigEndian_eq : ∀ val, c.toBigEndian val = (c.toLittleEndian val).reverse

/-- The conversions of `uint8_t`. -/
def u8 : Conversions .uint8 where
  fromNativeEndian := u8FromNativeEndian
  toNativeEndian := u8ToNativeEndian
  fromLittleEndian := u8FromLittleEndian
  toLittleEndian := u8ToLittleEndian
  fromBigEndian := u8FromBigEndian
  toBigEndian := u8ToBigEndian

/-- The conversions of `uint16_t`. -/
def u16 (constant : Bool) : Conversions .uint16 where
  fromNativeEndian := u16FromNativeEndian constant
  toNativeEndian := u16ToNativeEndian constant
  fromLittleEndian := u16FromLittleEndian constant
  toLittleEndian := u16ToLittleEndian constant
  fromBigEndian := u16FromBigEndian constant
  toBigEndian := u16ToBigEndian constant

/-- The conversions of `uint32_t`. -/
def u32 (constant : Bool) : Conversions .uint32 where
  fromNativeEndian := u32FromNativeEndian constant
  toNativeEndian := u32ToNativeEndian constant
  fromLittleEndian := u32FromLittleEndian constant
  toLittleEndian := u32ToLittleEndian constant
  fromBigEndian := u32FromBigEndian constant
  toBigEndian := u32ToBigEndian constant

/-- The conversions of `uint64_t`. -/
def u64 (constant : Bool) : Conversions .uint64 where
  fromNativeEndian := u64FromNativeEndian constant
  toNativeEndian := u64ToNativeEndian constant
  fromLittleEndian := u64FromLittleEndian constant
  toLittleEndian := u64ToLittleEndian constant
  fromBigEndian := u64FromBigEndian constant
  toBigEndian := u64ToBigEndian constant

/-- The object representation is a pair of inverses, the one that the rest is made of. -/
theorem mutuallyInverse_object : MutuallyInverse (T := T) objectValue objectBytes :=
  ⟨objectValue_objectBytes, objectBytes_objectValue⟩

/-- A swap on the side of the number is a second pair. -/
theorem mutuallyInverse_swapped : MutuallyInverse (T := T)
    (fun bytes => builtinBswap (objectValue bytes))
      (fun val => objectBytes (builtinBswap val)) := by
  constructor
  · intro val
    dsimp only
    rw [objectValue_objectBytes, builtinBswap_builtinBswap]
  · intro bytes
    dsimp only
    rw [builtinBswap_builtinBswap, objectBytes_objectValue]

/-- Widths of several bytes all have their conversions made in one way. -/
theorem consistent_of_unsigned (hT : T.isSigned = false) (constant : Bool) :
    Conversions.Consistent (T := T) {
      fromNativeEndian := fromLittleEndian constant
      toNativeEndian := toLittleEndian constant
      fromLittleEndian := fromLittleEndian constant
      toLittleEndian := toLittleEndian constant
      fromBigEndian := fun bytes => byteSwap constant (fromLittleEndian constant bytes)
      toBigEndian := fun val => toLittleEndian constant (byteSwap constant val) } := by
  have hfrom : fromLittleEndian (T := T) constant = objectValue :=
    funext (fromLittleEndian_eq hT constant)
  have hto : toLittleEndian (T := T) constant = objectBytes :=
    funext (toLittleEndian_eq hT constant)
  have hswap : byteSwap (T := T) constant = builtinBswap := funext (byteSwap_eq constant)
  rw [hfrom, hto, hswap]
  exact ⟨mutuallyInverse_object, mutuallyInverse_object, mutuallyInverse_swapped,
    objectBytes_builtinBswap⟩

theorem consistent_u8 : u8.Consistent := by
  have hinverse : MutuallyInverse u8FromLittleEndian u8ToLittleEndian := by
    constructor
    · exact fun val => rfl
    · intro bytes
      obtain ⟨byte, hbyte⟩ := List.length_eq_one_iff.mp bytes.toList_length
      obtain rfl : bytes = ⟨[byte], rfl⟩ := List.Vector.toList_injective hbyte
      rfl
  exact ⟨hinverse, hinverse, hinverse, fun val => rfl⟩

/-- Byte-order conversions are inverse to each other in every order, the two bodies of each
function agree, and a swap reverses the bytes of its operand. -/
theorem byteOrders_consistent :
    (∀ (T : IntegralType) (_ : T.isSigned = false) (bytes : Bytes T) (val : Num T),
      fromLittleEndian true bytes = fromLittleEndian false bytes ∧
      toLittleEndian true val = toLittleEndian false val) ∧
    (∀ constant : Bool, u8.Consistent ∧ (u16 constant).Consistent ∧ (u32 constant).Consistent ∧
      (u64 constant).Consistent) ∧
    ∀ (T : IntegralType) (value : Num T),
      swapBytes true value = swapBytes false value ∧
      ∀ constant : Bool, objectBytes (swapBytes constant value) = (objectBytes value).reverse ∧
        swapBytes constant (swapBytes constant value) = value := by
  refine ⟨fun T hT bytes val => ?_, fun constant => ?_, fun T value => ⟨?_, fun constant => ?_⟩⟩
  · rw [fromLittleEndian_eq hT, fromLittleEndian_eq hT, toLittleEndian_eq hT, toLittleEndian_eq hT]
    exact ⟨rfl, rfl⟩
  · exact ⟨consistent_u8, consistent_of_unsigned rfl constant, consistent_of_unsigned rfl constant,
      consistent_of_unsigned rfl constant⟩
  · rw [swapBytes_eq, swapBytes_eq]
  · rw [swapBytes_eq, swapBytes_eq]
    exact ⟨objectBytes_builtinBswap value, builtinBswap_builtinBswap value⟩

example : (u32ToBigEndian true (staticCast .uint32 0x11223344)).toList.map (·.val) =
    [0x11, 0x22, 0x33, 0x44] := by decide

end Consistency

end ByteConversions

end MiniChromium
