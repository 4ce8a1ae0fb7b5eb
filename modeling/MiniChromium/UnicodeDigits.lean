import Mathlib.Algebra.Ring.Nat
import Mathlib.Data.List.Basic

/-!
# Decimal digits

The digits of a script stand in a row in Unicode, from its zero to its nine. A number can be
written with the digits of any script, also of several. Those of the decimal system are the
characters of ASCII.
-/
namespace MiniChromium.UnicodeDigits

/-- The zeros of Unicode 15. -/
def zeros : List ℕ :=
  [0x0030, 0x0660, 0x06F0, 0x07C0, 0x0966, 0x09E6, 0x0A66, 0x0AE6, 0x0B66, 0x0BE6, 0x0C66, 0x0CE6,
    0x0D66, 0x0DE6, 0x0E50, 0x0ED0, 0x0F20, 0x1040, 0x1090, 0x17E0, 0x1810, 0x1946, 0x19D0, 0x1A80,
    0x1A90, 0x1B50, 0x1BB0, 0x1C40, 0x1C50, 0xA620, 0xA8D0, 0xA900, 0xA9D0, 0xA9F0, 0xAA50, 0xABF0,
    0xFF10, 0x104A0, 0x10D30, 0x11066, 0x110F0, 0x11136, 0x111D0, 0x112F0, 0x11450, 0x114D0,
    0x11650, 0x116C0, 0x11730, 0x118E0, 0x11950, 0x11C50, 0x11D50, 0x11DA0, 0x11F50, 0x16A60,
    0x16AC0, 0x16B50, 0x1D7CE, 0x1D7D8, 0x1D7E2, 0x1D7EC, 0x1D7F6, 0x1E140, 0x1E2F0, 0x1E4F0,
    0x1E950, 0x1FBF0]

/-- The character is in the row from a zero on. -/
def inRow (c : Char) (z : ℕ) : Bool := z ≤ c.toNat && c.toNat < z + 10

/-- The value of a digit. -/
def digitValue (c : Char) : Option ℕ := (zeros.find? (inRow c)).map fun z => c.toNat - z

/-- `str.isdecimal`. -/
def isDecimal (c : Char) : Bool := (digitValue c).isSome

/-- The number that digits stand for. -/
def ofDecimals (text : List Char) : ℕ :=
  text.foldl (fun n c => 10 * n + (digitValue c).getD 0) 0

variable {c : Char} {text : List Char}

theorem toNat_of_isDigit (h : c.isDigit = true) : 48 ≤ c.toNat ∧ c.toNat ≤ 57 :=
  Char.isDigit_iff_toNat.mp h

theorem digitValue_of_isDigit (h : c.isDigit = true) : digitValue c = some (c.toNat - 48) := by
  have hrange := toNat_of_isDigit h
  have hfirst : inRow c 0x30 = true := by
    simp only [inRow, Bool.and_eq_true, decide_eq_true_eq]
    omega
  have hzeros : zeros = 0x30 :: zeros.tail := rfl
  rw [digitValue, hzeros, List.find?_cons_of_pos hfirst]
  rfl

theorem isDecimal_of_isDigit (h : c.isDigit = true) : isDecimal c = true := by
  rw [isDecimal, digitValue_of_isDigit h]
  rfl

/-- Digits of ASCII stand for the number they are the digits of. -/
theorem ofDecimals_of_isDigit (h : ∀ c ∈ text, c.isDigit = true) :
    ofDecimals text = Nat.ofDigitChars 10 text 0 := by
  rw [ofDecimals, Nat.ofDigitChars_eq_foldl]
  refine List.foldl_ext _ _ _ fun n c hc => ?_
  rw [digitValue_of_isDigit (h c hc)]
  rfl

theorem isDigit_of_mem_toDigits {n : ℕ} (h : c ∈ Nat.toDigits 10 n) : c.isDigit = true :=
  Nat.isDigit_of_mem_toDigits (by decide) (by decide) h

theorem ofDecimals_toDigits (n : ℕ) : ofDecimals (Nat.toDigits 10 n) = n := by
  rw [ofDecimals_of_isDigit fun _ => isDigit_of_mem_toDigits, Nat.ofDigitChars_ten_toDigits]

end MiniChromium.UnicodeDigits
