import MiniChromium.StringNumberConversions

/-!
# Bytes from hexadecimal digits

`HexStringToBytes` appends a byte for every two characters of its input. The type `char` may be
signed or not, and its values are compared with the digits as numbers of type `int`.
-/
namespace MiniChromium.HexBytes

open IntegralType MiniChromium.Num

section Code

variable {CHAR : IntegralType}

/-- `BaseCharToDigit<CHAR, BASE, BASE_LTE_10>::Convert`, for any type of characters. -/
def convert (base : ℤ) (baseLte10 : Bool) (c : Num CHAR) : Option (Num .uint8) :=
  if baseLte10 then
    if c.val ≥ 0x30 ∧ c.val < 0x30 + base then some (staticCast .uint8 (c.val - 0x30)) else none
  else if c.val ≥ 0x30 ∧ c.val ≤ 0x39 then some (staticCast .uint8 (c.val - 0x30))
  else if c.val ≥ 0x61 ∧ c.val < 0x61 + base - 10 then
    some (staticCast .uint8 (c.val - 0x61 + 10))
  else if c.val ≥ 0x41 ∧ c.val < 0x41 + base - 10 then
    some (staticCast .uint8 (c.val - 0x41 + 10))
  else none

/-- `CharToDigit`. -/
def charToDigit (base : ℤ) (c : Num CHAR) : Option (Num .uint8) :=
  convert base (decide (base ≤ 10)) c

/-- `static_cast<uint8_t>((msb << 4) | lsb)`. -/
def joinDigits (msb lsb : Num .uint8) : Num .uint8 :=
  staticCast .uint8 (msb.val.toNat <<< 4 ||| lsb.val.toNat : ℕ)

/-- The loop of `HexStringToBytes` from a character on. Behind the last character is a NUL, which
is no digit. -/
def bytesLoop : List (Num CHAR) → List (Num .uint8) → Bool × List (Num .uint8)
  | [], output => (true, output)
  | [_], output => (false, output)
  | c :: c' :: input, output =>
    match charToDigit 16 c with
    | none => (false, output)
    | some msb =>
      match charToDigit 16 c' with
      | none => (false, output)
      | some lsb => bytesLoop input (output ++ [joinDigits msb lsb])

/-- `HexStringToBytes`. -/
def hexStringToBytes (input : List (Num CHAR)) (output : List (Num .uint8)) :
    Bool × List (Num .uint8) :=
  if input.length = 0 ∨ input.length % 2 ≠ 0 then (false, output) else bytesLoop input output

end Code

/-- A hexadecimal digit of either case. -/
def IsHexDigit (c : ℤ) : Prop :=
  0x30 ≤ c ∧ c ≤ 0x39 ∨ 0x41 ≤ c ∧ c ≤ 0x46 ∨ 0x61 ≤ c ∧ c ≤ 0x66

instance (c : ℤ) : Decidable (IsHexDigit c) := inferInstanceAs (Decidable (_ ∨ _))

/-- The hexadecimal digit of lower case for a number. -/
def lowerDigit (d : ℤ) : ℤ := if d < 10 then 0x30 + d else 0x61 + (d - 10)

/-- The character in lower case. -/
def toLower (c : ℤ) : ℤ := if 0x41 ≤ c ∧ c ≤ 0x5A then c + 0x20 else c

/-- The value of a hexadecimal digit. -/
def hexValue (c : ℤ) : ℤ := if c ≤ 0x39 then c - 0x30 else toLower c - 0x61 + 10

/-- The two digits of a byte. -/
def render (byte : Num .uint8) : List ℤ := [lowerDigit (byte.val / 16), lowerDigit (byte.val % 16)]

section Digits

variable {CHAR : IntegralType} {c : ℤ}

theorem hexValue_nonneg (h : IsHexDigit c) : 0 ≤ hexValue c := by
  unfold IsHexDigit at h
  unfold hexValue toLower
  split_ifs <;> omega

theorem hexValue_lt (h : IsHexDigit c) : hexValue c < 16 := by
  unfold IsHexDigit at h
  unfold hexValue toLower
  split_ifs <;> omega

theorem lowerDigit_hexValue (h : IsHexDigit c) : lowerDigit (hexValue c) = toLower c := by
  unfold IsHexDigit at h
  unfold lowerDigit hexValue toLower
  split_ifs <;> omega

theorem charToDigit_of_isHexDigit {c : Num CHAR} (h : IsHexDigit c.val) :
    charToDigit 16 c = some (staticCast .uint8 (hexValue c.val)) := by
  rw [charToDigit, convert, if_neg (by decide)]
  rcases h with h | h | h
  · rw [if_pos h, hexValue, if_pos h.2]
  · rw [if_neg (by omega), if_neg (by omega), if_pos (by omega), hexValue, if_neg (by omega),
      toLower, if_pos (by omega)]
    congr 2
    omega
  · rw [if_neg (by omega), if_pos (by omega), hexValue, if_neg (by omega), toLower,
      if_neg (by omega)]

/-- No other character is taken for a digit, whatever its sign. -/
theorem charToDigit_of_not_isHexDigit {c : Num CHAR} (h : ¬ IsHexDigit c.val) :
    charToDigit 16 c = none := by
  unfold IsHexDigit at h
  rw [charToDigit, convert, if_neg (by decide), if_neg (by omega), if_neg (by omega),
    if_neg (by omega)]

theorem joinDigits_val {msb lsb : Num .uint8} (hmsb : msb.val < 16) (hlsb : lsb.val < 16) :
    (joinDigits msb lsb).val = 16 * msb.val + lsb.val := by
  have hnonneg := msb.nonneg rfl
  have hnonneg' := lsb.nonneg rfl
  have hor : msb.val.toNat <<< 4 ||| lsb.val.toNat = 2 ^ 4 * msb.val.toNat + lsb.val.toNat := by
    rw [← Nat.shiftLeft_add_eq_or_of_lt (by omega), Nat.shiftLeft_eq, Nat.mul_comm]
  have hrange : InRange .uint8 (16 * msb.val + lsb.val) := by
    have hmax : IntegralType.max .uint8 = 255 := by decide
    exact ⟨(lowest_nonpos _).trans (by omega), by omega⟩
  have hsum : ((msb.val.toNat <<< 4 ||| lsb.val.toNat : ℕ) : ℤ) = 16 * msb.val + lsb.val := by
    rw [hor]
    omega
  rw [joinDigits, hsum, staticCast_of_inRange hrange]

/-- The digits are those that the other conversions read, by the byte of the character. -/
theorem charToDigit_byte (hchar : CHAR = .int8 ∨ CHAR = .uint8) (byte : UInt8) :
    (charToDigit 16 (staticCast CHAR byte.toNat)).map (fun digit => digit.val.toNat) =
      MiniChromium.charToDigit 16 byte := by
  have hsigned : ∀ n < 256, (charToDigit 16 (staticCast .int8 (UInt8.ofNat n).toNat)).map
      (fun digit => digit.val.toNat) = MiniChromium.charToDigit 16 (UInt8.ofNat n) := by
    decide +kernel
  have hunsigned : ∀ n < 256, (charToDigit 16 (staticCast .uint8 (UInt8.ofNat n).toNat)).map
      (fun digit => digit.val.toNat) = MiniChromium.charToDigit 16 (UInt8.ofNat n) := by
    decide +kernel
  rw [← UInt8.ofNat_toNat (x := byte)]
  rcases hchar with rfl | rfl
  · exact hsigned _ byte.toNat_lt
  · exact hunsigned _ byte.toNat_lt

end Digits

/-- The pairs of characters of the input. -/
def pairs {α : Type} : List α → List (α × α)
  | c :: c' :: input => (c, c') :: pairs input
  | _ => []

section Pairs

variable {CHAR : IntegralType} {input : List (Num CHAR)} {output : List (Num .uint8)}

/-- Both characters are hexadecimal digits. -/
def BothDigits (pair : Num CHAR × Num CHAR) : Prop := IsHexDigit pair.1.val ∧ IsHexDigit pair.2.val

instance (pair : Num CHAR × Num CHAR) : Decidable (BothDigits pair) :=
  inferInstanceAs (Decidable (_ ∧ _))

/-- The byte that two digits stand for. -/
def pairByte (pair : Num CHAR × Num CHAR) : Num .uint8 :=
  staticCast .uint8 (16 * hexValue pair.1.val + hexValue pair.2.val)

theorem digit_val {c : ℤ} (h : IsHexDigit c) :
    (staticCast .uint8 (hexValue c)).val = hexValue c := by
  have hmax : IntegralType.max .uint8 = 255 := by decide
  have hnonneg := hexValue_nonneg h
  have hlt := hexValue_lt h
  exact staticCast_of_inRange ⟨(lowest_nonpos _).trans hnonneg, by omega⟩

theorem pairByte_val {pair : Num CHAR × Num CHAR} (h : BothDigits pair) :
    (pairByte pair).val = 16 * hexValue pair.1.val + hexValue pair.2.val := by
  have hmax : IntegralType.max .uint8 = 255 := by decide
  have hnonneg := hexValue_nonneg h.1
  have hnonneg' := hexValue_nonneg h.2
  have hlt := hexValue_lt h.1
  have hlt' := hexValue_lt h.2
  exact staticCast_of_inRange ⟨(lowest_nonpos _).trans (by omega), by omega⟩

theorem render_pairByte {pair : Num CHAR × Num CHAR} (h : BothDigits pair) :
    render (pairByte pair) = [toLower pair.1.val, toLower pair.2.val] := by
  have hnonneg := hexValue_nonneg h.2
  have hlt := hexValue_lt h.2
  have hdiv : (pairByte pair).val / 16 = hexValue pair.1.val := by
    rw [pairByte_val h]
    omega
  have hmod : (pairByte pair).val % 16 = hexValue pair.2.val := by
    rw [pairByte_val h]
    omega
  rw [render, hdiv, hmod, lowerDigit_hexValue h.1, lowerDigit_hexValue h.2]

/-- The bytes of the pairs up to the first that has another character. -/
def decoded (input : List (Num CHAR)) : List (Num .uint8) :=
  ((pairs input).takeWhile (BothDigits ·)).map pairByte

theorem decoded_of_bothDigits {c c' : Num CHAR} (h : BothDigits (c, c')) :
    decoded (c :: c' :: input) = pairByte (c, c') :: decoded input := by
  rw [decoded, pairs, List.takeWhile_cons_of_pos (by simpa using h), List.map_cons]
  rfl

theorem decoded_of_not_bothDigits {c c' : Num CHAR} (h : ¬ BothDigits (c, c')) :
    decoded (c :: c' :: input) = [] := by
  rw [decoded, pairs, List.takeWhile_cons_of_neg (by simpa using h), List.map_nil]

theorem bytesLoop_of_bothDigits {c c' : Num CHAR} (h : BothDigits (c, c')) :
    bytesLoop (c :: c' :: input) output = bytesLoop input (output ++ [pairByte (c, c')]) := by
  have hc := digit_val h.1
  have hc' := digit_val h.2
  have hjoin :
      joinDigits (staticCast .uint8 (hexValue c.val)) (staticCast .uint8 (hexValue c'.val)) =
      pairByte (c, c') := by
    have hlt := hexValue_lt h.1
    have hlt' := hexValue_lt h.2
    apply Num.ext
    rw [joinDigits_val (by rwa [hc]) (by rwa [hc']), hc, hc', pairByte_val h]
  rw [bytesLoop, charToDigit_of_isHexDigit h.1, charToDigit_of_isHexDigit h.2]
  dsimp only
  rw [hjoin]

theorem bytesLoop_of_not_bothDigits {c c' : Num CHAR} (h : ¬ BothDigits (c, c')) :
    bytesLoop (c :: c' :: input) output = (false, output) := by
  rw [bytesLoop]
  by_cases hc : IsHexDigit c.val
  · have hc' : ¬ IsHexDigit c'.val := fun hc' => h ⟨hc, hc'⟩
    rw [charToDigit_of_isHexDigit hc, charToDigit_of_not_isHexDigit hc']
  · rw [charToDigit_of_not_isHexDigit hc]

/-- The loop appends what it has decoded when it meets another character. -/
theorem bytesLoop_eq (input : List (Num CHAR)) (output : List (Num .uint8))
    (heven : input.length % 2 = 0) :
    bytesLoop input output =
      (decide (∀ c ∈ input, IsHexDigit c.val), output ++ decoded input) := by
  induction input using pairs.induct generalizing output with
  | case1 c c' input ih =>
    rw [List.length_cons, List.length_cons] at heven
    by_cases hpair : BothDigits (c, c')
    · rw [bytesLoop_of_bothDigits hpair, decoded_of_bothDigits hpair, ih _ (by omega)]
      simp [hpair.1, hpair.2]
    · have hnot : ¬ ∀ d ∈ c :: c' :: input, IsHexDigit d.val := fun hall =>
        hpair ⟨hall c (by simp), hall c' (by simp)⟩
      rw [bytesLoop_of_not_bothDigits hpair, decoded_of_not_bothDigits hpair, List.append_nil,
        decide_eq_false hnot]
  | case2 rest hrest =>
    match rest with
    | [] => simp [bytesLoop, decoded, pairs]
    | [c] => simp at heven
    | c :: c' :: input => exact absurd rfl (hrest c c' input)

theorem render_decoded (input : List (Num CHAR)) (heven : input.length % 2 = 0)
    (hdigits : ∀ c ∈ input, IsHexDigit c.val) :
    (decoded input).flatMap render = input.map fun c => toLower c.val := by
  induction input using pairs.induct with
  | case1 c c' input ih =>
    rw [List.length_cons, List.length_cons] at heven
    have hpair : BothDigits (c, c') := ⟨hdigits c (by simp), hdigits c' (by simp)⟩
    rw [decoded_of_bothDigits hpair, List.flatMap_cons, render_pairByte hpair,
      ih (by omega) fun d hd => hdigits d (by simp [hd])]
    rfl
  | case2 rest hrest =>
    match rest with
    | [] => rfl
    | [c] => simp at heven
    | c :: c' :: input => exact absurd rfl (hrest c c' input)

/-- `HexStringToBytes` accepts just the strings of hexadecimal digits in pairs. It appends the
bytes of the leading pairs, and on success these show the input in lower case. -/
theorem hexStringToBytes_appends (input : List (Num CHAR)) (output : List (Num .uint8)) :
    ((hexStringToBytes input output).1 = true ↔
      input ≠ [] ∧ input.length % 2 = 0 ∧ ∀ c ∈ input, IsHexDigit c.val) ∧
    (hexStringToBytes input output).2 =
      output ++ (if input.length % 2 = 0 then decoded input else []) ∧
    ((hexStringToBytes input output).1 = true →
      (decoded input).flatMap render = input.map fun c => toLower c.val) := by
  unfold hexStringToBytes
  by_cases hodd : input.length % 2 = 0
  · cases input with
    | nil => simp [decoded, pairs]
    | cons c input =>
      have hne : ¬ ((c :: input).length = 0 ∨ (c :: input).length % 2 ≠ 0) := by
        rw [List.length_cons] at hodd ⊢
        omega
      rw [if_neg hne, if_pos hodd, bytesLoop_eq _ output hodd]
      simp only [decide_eq_true_eq, ne_eq, reduceCtorEq, not_false_eq_true, hodd, true_and]
      exact render_decoded _ hodd
  · simp [hodd]

end Pairs

end MiniChromium.HexBytes
