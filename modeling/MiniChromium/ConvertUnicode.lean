import MiniChromium.IntegralType
import MiniChromium.UnicodeForms

/-!
# The template of the conversions

`ConvertUnicode` for any source and destination: it reads the source a character at a
time, by `ReadUnicodeCharacter`, and appends each, by `WriteUnicodeCharacter`. Where these
two are right the loop transcodes, but only as many units as `int32_t` leaves of the length.
-/
namespace MiniChromium

open IntegralType MiniChromium.Num Encoding Unicode

/-- The replacement character. -/
def replacementCharacter : Char := '\uFFFD'

/-- `ReadUnicodeCharacter` for a kind of unit: whether the code point is valid, the code
point, and the index of the last unit consumed. Where the code point is not valid, what
is left in it is not used. -/
structure CharacterReader (α : Type) where
  read : List α → Num .int32 → Num .int32 → Option (Bool × Num .uint32 × Num .int32)
  index : ∀ {src srcLen i j valid codePoint}, i.val < srcLen.val →
    read src srcLen i = some (valid, codePoint, j) → i.val ≤ j.val ∧ j.val < srcLen.val

variable {α β : Type}

/-- `ConvertUnicode`, from an index. -/
def convertUnicodeT (R : CharacterReader α) (write : Num .uint32 → List β → ℕ × List β)
    (src : List α) (srcLen32 i : Num .int32) (success : Bool) (output : List β) :
    Option (Bool × List β) :=
  if _hi : i.val < srcLen32.val then
    match hr : R.read src srcLen32 i with
    | none => none
    | some (valid, codePoint, j) =>
      let next := staticCast .int32 (j.val + 1)
      if valid then
        convertUnicodeT R write src srcLen32 next success (write codePoint output).2
      else
        convertUnicodeT R write src srcLen32 next false
          (write (staticCast .uint32 0xFFFD) output).2
  else some (success, output)
termination_by (srcLen32.val - i.val).toNat
decreasing_by
  all_goals
    obtain ⟨hlo, hhi⟩ := R.index _hi hr
    have hl := i.lowest_le
    have hu := srcLen32.le_max
    rw [staticCast_of_inRange ⟨by omega, by omega⟩]
    omega

section Steps

variable {R : CharacterReader α} {write : Num .uint32 → List β → ℕ × List β} {src : List α}
  {srcLen i j : Num .int32} {success valid : Bool} {output : List β} {codePoint : Num .uint32}

theorem convertUnicodeT_done (hi : ¬i.val < srcLen.val) :
    convertUnicodeT R write src srcLen i success output = some (success, output) := by
  rw [convertUnicodeT, dif_neg hi]

theorem convertUnicodeT_none (hi : i.val < srcLen.val) (hr : R.read src srcLen i = none) :
    convertUnicodeT R write src srcLen i success output = none := by
  rw [convertUnicodeT, dif_pos hi]
  split
  · rfl
  · rename_i h
    rw [hr] at h
    cases h

/-- A round of the loop. -/
theorem convertUnicodeT_some (hi : i.val < srcLen.val)
    (hr : R.read src srcLen i = some (valid, codePoint, j)) :
    convertUnicodeT R write src srcLen i success output =
      convertUnicodeT R write src srcLen (staticCast .int32 (j.val + 1)) (success && valid)
        (write (if valid then codePoint else staticCast .uint32 0xFFFD) output).2 := by
  rw [convertUnicodeT, dif_pos hi]
  split
  · rename_i h
    rw [hr] at h
    cases h
  · rename_i valid' codePoint' j' h
    rw [hr] at h
    obtain ⟨rfl, rfl, rfl⟩ : valid = valid' ∧ codePoint = codePoint' ∧ j = j' := by simpa using h
    cases valid <;> simp

end Steps

/-- The reader takes the items of a scan of the first `srcLen` units, and no other unit. -/
def CharacterReader.Decodes (R : CharacterReader α) (F : EncodingForm Char α) : Prop :=
  ∀ {src : List α} {srcLen i : Num .int32} {o : Option Char} {n : ℕ},
    srcLen.val ≤ src.length → 0 ≤ i.val → i.val < srcLen.val →
    F.Next ((src.take srcLen.val.toNat).drop i.val.toNat) o n →
    ∃ codePoint j, R.read src srcLen i = some (o.isSome, codePoint, j) ∧
      j.val = i.val + n - 1 ∧ ∀ c ∈ o, codePoint.val = c.val.toNat

/-- The writer appends the units of a character. -/
def WritesForm (write : Num .uint32 → List β → ℕ × List β) (G : EncodingForm Char β) : Prop :=
  ∀ {codePoint : Num .uint32} {c : Char} (output : List β), codePoint.val = c.val.toNat →
    (write codePoint output).2 = output ++ G.encode c

variable {R : CharacterReader α} {write : Num .uint32 → List β → ℕ × List β}
  {F : EncodingForm Char α} {G : EncodingForm Char β} {src w : List α}
  {os : List (Option Char)} {srcLen : Num .int32}

/-- The characters of the output. -/
def outputText (os : List (Option Char)) : List Char := text replacementCharacter os

/-- Every read of the loop is one of an item, inside the units. -/
theorem CharacterReader.Decodes.read_inside (hR : R.Decodes F) {i : Num .int32}
    (hlen : srcLen.val ≤ src.length) (h0 : 0 ≤ i.val) (hi : i.val < srcLen.val) :
    ∃ valid codePoint j, R.read src srcLen i = some (valid, codePoint, j) ∧
      i.val ≤ j.val ∧ j.val < srcLen.val := by
  have hne : (src.take srcLen.val.toNat).drop i.val.toNat ≠ [] := by
    rw [Ne, List.drop_eq_nil_iff, List.length_take]
    omega
  obtain ⟨o, n, hn⟩ := F.exists_next hne
  obtain ⟨codePoint, j, hread, -, -⟩ := hR hlen h0 hi hn
  exact ⟨_, codePoint, j, hread, R.index hi hread⟩

/-- From any index the loop appends the rest of the scan. -/
theorem convertUnicodeT_eq (hR : R.Decodes F) (hW : WritesForm write G)
    (hlen : srcLen.val ≤ src.length) (hs : F.Scans w os) (i : Num .int32) (success : Bool)
    (output : List β) (h0 : 0 ≤ i.val) (hw : (src.take srcLen.val.toNat).drop i.val.toNat = w) :
    convertUnicodeT R write src srcLen i success output =
      some (success && os.all Option.isSome, output ++ G.encodeAll (outputText os)) := by
  induction hs generalizing i success output with
  | nil =>
    have hend : ¬i.val < srcLen.val := by
      rw [List.drop_eq_nil_iff, List.length_take] at hw
      omega
    rw [convertUnicodeT_done hend]
    simp [outputText, text, EncodingForm.encodeAll]
  | @cons w o n os hn _ ih =>
    subst hw
    have hle := F.next_le hn
    have hpos := F.next_pos hn
    rw [List.length_drop, List.length_take] at hle
    have hi : i.val < srcLen.val := by omega
    obtain ⟨codePoint, j, hread, hj, hcp⟩ := hR hlen h0 hi hn
    have hmax := srcLen.le_max
    have hlow : IntegralType.int32.lowest = -2 ^ 31 := rfl
    have hnext : (staticCast .int32 (j.val + 1)).val = i.val + n := by
      rw [staticCast_of_inRange ⟨by omega, by omega⟩]
      omega
    have hdrop : (src.take srcLen.val.toNat).drop (staticCast .int32 (j.val + 1)).val.toNat =
        ((src.take srcLen.val.toNat).drop i.val.toNat).drop n := by
      rw [hnext, List.drop_drop, show (i.val + n).toNat = i.val.toNat + n by omega]
    have hitem : G.encodeAll (outputText (o :: os)) =
        G.encode (o.getD replacementCharacter) ++ G.encodeAll (outputText os) := rfl
    have hrep : (staticCast .uint32 0xFFFD).val = replacementCharacter.val.toNat := by decide
    have hwrite : (write (if o.isSome then codePoint else staticCast .uint32 0xFFFD) output).2 =
        output ++ G.encode (o.getD replacementCharacter) := by
      cases o with
      | none => exact hW output hrep
      | some c => exact hW output (hcp c rfl)
    rw [convertUnicodeT_some hi hread, hwrite, ih _ _ _ (by omega) hdrop, hitem]
    simp [Bool.and_assoc]

/-- The number of units that a conversion reads: what `int32_t` leaves of the length. -/
def convertedLength (n : ℕ) : ℕ := (staticCast .int32 n).val.toNat

theorem staticCast_int32_of_lt {n : ℕ} (h : n < 2 ^ 31) :
    (staticCast .int32 (n : ℤ)).val = n := by
  have hlow : IntegralType.int32.lowest = -2 ^ 31 := rfl
  have hmax : IntegralType.int32.max = 2 ^ 31 - 1 := rfl
  exact staticCast_of_inRange ⟨by omega, by omega⟩

theorem convertedLength_of_lt {n : ℕ} (h : n < 2 ^ 31) : convertedLength n = n := by
  rw [convertedLength, staticCast_int32_of_lt h, Int.toNat_natCast]

/-- A conversion scans the units it reads and writes their text. -/
theorem convertUnicodeT_start (hR : R.Decodes F) (hW : WritesForm write G)
    (hs : F.Scans (src.take (convertedLength src.length)) os) :
    convertUnicodeT R write src (staticCast .int32 src.length) 0 true [] =
      some (os.all Option.isSome, G.encodeAll (outputText os)) := by
  have hlen : (staticCast .int32 (src.length : ℤ)).val ≤ src.length := by
    have hlow : IntegralType.int32.lowest = -2 ^ 31 := rfl
    exact BoundedInt.wrap_le IntegralType.int32.modulus_pos (by omega)
  rw [convertUnicodeT_eq hR hW hlen hs 0 true [] le_rfl (by simp [convertedLength])]
  simp

end MiniChromium
