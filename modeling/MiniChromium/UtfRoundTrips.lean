import MiniChromium.UtfLengths

/-!
# Round trips

A conversion and the one back. They agree on the text of the source, unless its UTF-8
encoding, which may be three times as long as the source, has 2^31 bytes or more.
-/
namespace MiniChromium

open IntegralType MiniChromium.Num Encoding Unicode

theorem length_utf16EncodeChar_le (c : Char) :
    (utf16EncodeChar c).length ≤ (String.utf8EncodeChar c).length := by
  unfold utf16EncodeChar String.utf8EncodeChar
  dsimp only
  split_ifs <;> simp only [List.length_cons, List.length_nil] <;> omega

theorem length_utf8EncodeChar_le (c : Char) :
    (String.utf8EncodeChar c).length ≤ 3 * (utf16EncodeChar c).length := by
  unfold utf16EncodeChar String.utf8EncodeChar
  dsimp only
  split_ifs <;> simp only [List.length_cons, List.length_nil] <;> omega

theorem utf8Form_units_le {w : List UInt8} {o : Option Char} {n : ℕ} (h : utf8Form.Next w o n) :
    (utf16Form.encode (o.getD replacementCharacter)).length ≤ 1 * n := by
  rw [Nat.one_mul]
  cases o with
  | none => exact utf8Form.next_pos h
  | some c =>
    obtain ⟨-, rfl⟩ := utf8Form.next_some_iff.mp h
    exact length_utf16EncodeChar_le c

theorem utf8Form_bytes_le {w : List UInt8} {o : Option Char} {n : ℕ} (h : utf8Form.Next w o n) :
    (utf8Form.encode (o.getD replacementCharacter)).length ≤ 3 * n := by
  cases o with
  | none =>
    have hpos := utf8Form.next_pos h
    have hlength : (utf8Form.encode replacementCharacter).length = 3 := by decide
    rw [Option.getD_none, hlength]
    omega
  | some c =>
    obtain ⟨-, rfl⟩ := utf8Form.next_some_iff.mp h
    exact Nat.le_mul_of_pos_left _ (by decide)

theorem utf16Form_bytes_le {w : List UInt16} {o : Option Char} {n : ℕ}
    (h : utf16Form.Next w o n) :
    (utf8Form.encode (o.getD replacementCharacter)).length ≤ 3 * n := by
  cases o with
  | none =>
    have hpos := utf16Form.next_pos h
    have hlength : (utf8Form.encode replacementCharacter).length = 3 := by decide
    rw [Option.getD_none, hlength]
    omega
  | some c =>
    obtain ⟨-, rfl⟩ := utf16Form.next_some_iff.mp h
    exact length_utf8EncodeChar_le c

/-- What the conversion of a string that is too long reads is short. -/
theorem convertedLength_lt_of_le {n m : ℕ} (h : 2 ^ 31 ≤ n) (hle : n ≤ 3 * m) (hm : m < 2 ^ 31) :
    convertedLength n < m := by
  rw [convertedLength_eq]
  split_ifs <;> omega

/-- `UTF16ToUTF8` succeeds on the output of `UTF8ToUTF16`, with a well-formed string that
is the source exactly if that conversion succeeded, and that has the same conversion. -/
def RoundTrips8 (b : List UInt8) : Prop :=
  ∃ success u b', utf8ToUtf16 b [] = some (success, u) ∧ utf16ToUtf8 u [] = some (true, b') ∧
    utf8Form.WellFormed b' ∧ (b' = b ↔ success = true) ∧ utf8ToUtf16 b' [] = some (true, u)

variable {b : List UInt8} {u : List UInt16} {os : List (Option Char)}

theorem all_isSome_map_some (cs : List Char) : (cs.map some).all Option.isSome = true :=
  all_isSome_iff.mpr (by simp)

theorem outputText_map_some (cs : List Char) : outputText (cs.map some) = cs :=
  text_map_some replacementCharacter cs

/-- The output of a conversion of a short string. -/
theorem utf8ToUtf16_of_lt (h : b.length < 2 ^ 31) (hs : utf8Form.Scans b os) :
    utf8ToUtf16 b [] = some (os.all Option.isSome, utf16Form.encodeAll (outputText os)) :=
  utf8ToUtf16_eq [] (by rwa [convertedLength_of_lt h, List.take_length])

theorem utf16ToUtf8_of_lt (h : u.length < 2 ^ 31) (hs : utf16Form.Scans u os) :
    utf16ToUtf8 u [] = some (os.all Option.isSome, utf8Form.encodeAll (outputText os)) :=
  utf16ToUtf8_eq [] (by rwa [convertedLength_of_lt h, List.take_length])

/-- Converting a string that is too long gives less than is converted to it. -/
theorem utf8ToUtf16_short {v : List UInt8} {n : ℕ} (hv : 2 ^ 31 ≤ v.length)
    (hle : v.length ≤ 3 * n) (hn : n < 2 ^ 31)
    (hs : utf8Form.Scans (v.take (convertedLength v.length)) os) :
    (utf16Form.encodeAll (outputText os)).length < n := by
  have hlength := hs.length_encodeAll_text_le (G := utf16Form) utf8Form_units_le
  rw [Nat.one_mul, List.length_take] at hlength
  have hconverted := convertedLength_lt_of_le hv hle hn
  rw [outputText]
  omega

theorem roundTrips8_iff (hb : b.length < 2 ^ 31) (hs : utf8Form.Scans b os) :
    RoundTrips8 b ↔ (utf8Form.encodeAll (outputText os)).length < 2 ^ 31 := by
  set u := utf16Form.encodeAll (outputText os) with hu
  set b' := utf8Form.encodeAll (outputText os) with hb'
  have hlength : u.length < 2 ^ 31 := by
    have hle := hs.length_encodeAll_text_le (G := utf16Form) utf8Form_units_le
    rw [Nat.one_mul] at hle
    exact lt_of_le_of_lt hle hb
  have hscan16 : utf16Form.Scans u ((outputText os).map some) := utf16Form.scans_encodeAll _
  have hscan8 : utf8Form.Scans b' ((outputText os).map some) := utf8Form.scans_encodeAll _
  have hthere : utf8ToUtf16 b [] = some (os.all Option.isSome, u) := utf8ToUtf16_of_lt hb hs
  have hback : utf16ToUtf8 u [] = some (true, b') := by
    have hback := utf16ToUtf8_of_lt hlength hscan16
    rwa [all_isSome_map_some, outputText_map_some] at hback
  constructor
  · rintro ⟨success, u₁, b₁, hu₁, hb₁, -, -, hagain⟩
    obtain ⟨-, rfl⟩ := Prod.mk.inj (Option.some.inj (hthere.symm.trans hu₁))
    obtain ⟨-, rfl⟩ := Prod.mk.inj (Option.some.inj (hback.symm.trans hb₁))
    by_contra hlong
    -- too little of the second string is read
    have hle : b'.length ≤ 3 * u.length := by
      have hle := hscan16.length_encodeAll_text_le (G := utf8Form) utf16Form_bytes_le
      rwa [← outputText, outputText_map_some] at hle
    obtain ⟨os', hos'⟩ := utf8Form.exists_scans (b'.take (convertedLength b'.length))
    have hshort := utf8ToUtf16_short (not_lt.mp hlong) hle hlength hos'
    have heq := (utf8ToUtf16_eq [] hos').symm.trans hagain
    rw [(Prod.mk.inj (Option.some.inj heq)).2] at hshort
    exact lt_irrefl _ hshort
  · intro hshort
    have hagain := utf8ToUtf16_of_lt hshort hscan8
    rw [all_isSome_map_some, outputText_map_some] at hagain
    refine ⟨_, u, b', hthere, hback, ⟨_, rfl⟩, ?_, hagain⟩
    rw [all_isSome_iff]
    exact hs.encodeAll_text_eq_iff

/-- `UTF8ToUTF16` succeeds on the output of `UTF16ToUTF8`, with the source exactly if that
conversion succeeded. -/
def RoundTrips16 (u : List UInt16) : Prop :=
  ∃ success v u', utf16ToUtf8 u [] = some (success, v) ∧ utf8ToUtf16 v [] = some (true, u') ∧
    (u' = u ↔ success = true)

theorem roundTrips16_iff (hu : u.length < 2 ^ 31) (hs : utf16Form.Scans u os)
    {v : List UInt8} (hv : v = utf8Form.encodeAll (outputText os)) :
    RoundTrips16 u ↔ v.length < 2 ^ 31 ∨
      ¬utf16Form.WellFormed u ∧ utf8Form.WellFormed (v.take (convertedLength v.length)) := by
  have hthere : utf16ToUtf8 u [] = some (os.all Option.isSome, v) :=
    hv ▸ utf16ToUtf8_of_lt hu hs
  by_cases hshort : v.length < 2 ^ 31
  · refine iff_of_true ?_ (.inl hshort)
    have hscan8 : utf8Form.Scans v ((outputText os).map some) := hv ▸ utf8Form.scans_encodeAll _
    have hback := utf8ToUtf16_of_lt hshort hscan8
    rw [all_isSome_map_some, outputText_map_some] at hback
    refine ⟨_, v, _, hthere, hback, ?_⟩
    rw [all_isSome_iff]
    exact hs.encodeAll_text_eq_iff
  · rw [or_iff_right hshort, hs.wellFormed_iff, not_not]
    have hle : v.length ≤ 3 * u.length :=
      hv ▸ hs.length_encodeAll_text_le (G := utf8Form) utf16Form_bytes_le
    obtain ⟨os', hos'⟩ := utf8Form.exists_scans (v.take (convertedLength v.length))
    have hless := utf8ToUtf16_short (not_lt.mp hshort) hle hu hos'
    have hback := utf8ToUtf16_eq [] hos'
    have hne : utf16Form.encodeAll (outputText os') ≠ u := fun heq => by
      rw [heq] at hless
      exact lt_irrefl _ hless
    rw [hos'.wellFormed_iff, ← all_isSome_iff]
    constructor
    · rintro ⟨success, v₁, u₁, hv₁, hu₁, hiff⟩
      obtain ⟨rfl, rfl⟩ := Prod.mk.inj (Option.some.inj (hthere.symm.trans hv₁))
      obtain ⟨htrue, rfl⟩ := Prod.mk.inj (Option.some.inj (hback.symm.trans hu₁))
      refine ⟨?_, htrue⟩
      by_contra hnone
      exact hne (hiff.mpr (all_isSome_iff.mpr hnone))
    · rintro ⟨hnone, htrue⟩
      rw [htrue] at hback
      refine ⟨_, v, _, hthere, hback, iff_of_false hne fun hall => ?_⟩
      exact all_isSome_iff.mp hall hnone

/-- A string has one transcoding. -/
theorem forall_isTranscoding {α β : Type} {F : EncodingForm Char α} {G : EncodingForm Char β}
    {src : List α} {P : List β → Prop} (hs : F.Scans src os) :
    (∀ out, IsTranscoding F G src out → P out) ↔ P (G.encodeAll (outputText os)) := by
  constructor
  · exact fun h => h _ ⟨os, hs, rfl⟩
  · rintro h out ⟨os', hos', rfl⟩
    rwa [hos'.unique hs]

/-- The round trips of strings of less than 2^31 units. Let the text of the string have a
UTF-8 encoding of less than 2^31 bytes; then there is nothing to add. If it has more bytes,
the round trip of a byte string fails. That of a string of 16-bit units fails unless it has
an unpaired surrogate, so that it cannot be the result, and the encoding is cut between two
characters. -/
theorem roundTrips_iff (b : List UInt8) (u : List UInt16) (hb : b.length < 2 ^ 31)
    (hu : u.length < 2 ^ 31) :
    (RoundTrips8 b ↔ ∀ b', IsTranscoding utf8Form utf8Form b b' → b'.length < 2 ^ 31) ∧
    (RoundTrips16 u ↔ ∀ v, IsTranscoding utf16Form utf8Form u v → v.length < 2 ^ 31 ∨
      ¬utf16Form.WellFormed u ∧ utf8Form.WellFormed (v.take (convertedLength v.length))) := by
  obtain ⟨os8, hs8⟩ := utf8Form.exists_scans b
  obtain ⟨os16, hs16⟩ := utf16Form.exists_scans u
  rw [forall_isTranscoding hs8, forall_isTranscoding hs16]
  exact ⟨roundTrips8_iff hb hs8, roundTrips16_iff hu hs16 rfl⟩

/-- A character cut off and a stray byte, and two surrogates that are no pair. -/
theorem roundTrips_iff_ill_formed :
    RoundTrips8 [0xE2, 0x82, 0x61, 0xFF] ∧ RoundTrips16 [0xDC00, 0x61, 0xD800, 0x3042] := by
  have hiff := roundTrips_iff [0xE2, 0x82, 0x61, 0xFF] [0xDC00, 0x61, 0xD800, 0x3042] (by decide)
    (by decide)
  constructor
  · refine hiff.1.mpr ?_
    rintro b' ⟨os, hs, rfl⟩
    exact (hs.length_encodeAll_text_le utf8Form_bytes_le).trans_lt (by decide)
  · refine hiff.2.mpr ?_
    rintro v ⟨os, hs, rfl⟩
    exact .inl ((hs.length_encodeAll_text_le utf16Form_bytes_le).trans_lt (by decide))

theorem scans_replicate_0xFF (n : ℕ) :
    utf8Form.Scans (List.replicate n 0xFF) (List.replicate n none) := by
  induction n with
  | zero => exact .nil
  | succ n ih =>
    have hlead : ∀ b ∈ (List.replicate n (0xFF : UInt8)).head?,
        ¬((Lead2 0xFF ∧ Trail b) ∨ Lead3 0xFF b ∨ Lead4 0xFF b) := fun b _ => by
      simp [Lead2, Lead3, Lead4]
    obtain ⟨o, hn, ho⟩ := isNext_one (a := 0xFF) (r := List.replicate n 0xFF) (by decide) hlead
    obtain rfl : o = none := Option.map_eq_none_iff.mp ho.symm
    exact .cons hn ih

/-- Each stray byte becomes three bytes: of 2^30 of them the second conversion back reads
nothing. -/
theorem not_roundTrips8 :
    (List.replicate (2 ^ 30) (0xFF : UInt8)).length < 2 ^ 31 ∧
      ¬RoundTrips8 (List.replicate (2 ^ 30) 0xFF) := by
  generalize hn : 2 ^ 30 = n
  have hlength : (List.replicate n (0xFF : UInt8)).length < 2 ^ 31 := by
    rw [List.length_replicate]
    omega
  refine ⟨hlength, ?_⟩
  rw [roundTrips8_iff hlength (scans_replicate_0xFF n)]
  have htext : outputText (List.replicate n none) = List.replicate n replacementCharacter := by
    simp [outputText, text]
  have hbytes : (utf8Form.encode replacementCharacter).length = 3 := by decide
  rw [htext, EncodingForm.encodeAll, List.length_flatMap, List.map_replicate, hbytes,
    List.sum_replicate_nat]
  omega

end MiniChromium
