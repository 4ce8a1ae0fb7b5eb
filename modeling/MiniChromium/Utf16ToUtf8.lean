import MiniChromium.UtfStringConversions

/-!
# From UTF-16 to UTF-8

`UTF16ToUTF8` pairs surrogates by a look at the next unit, and writes bytes into a string
that is resized before and after. The conversion is the scan of the units by pairs,
unpaired surrogates and other units.
-/
namespace MiniChromium

open IntegralType MiniChromium.Num Encoding Unicode

/-- `ReadUnicodeCharacter` on 16-bit units. A negative index is a read out of bounds. Where
it returns false early it leaves the code point alone, here as zero. -/
def readUnicodeCharacter16 (src : List UInt16) (srcLen charIndex : Num .int32) :
    Option (Bool × Num .uint32 × Num .int32) :=
  match charIndex.val with
  | .negSucc _ => none
  | .ofNat i =>
    src[i]?.bind fun u =>
      if cbuIsSurrogate u.toNat then
        if ¬cbu16IsSurrogateLead u.toNat ∨ charIndex.val + 1 ≥ srcLen.val then
          some (false, 0, charIndex)
        else
          src[i + 1]?.bind fun v =>
            if ¬cbu16IsTrail v.toNat then some (false, 0, charIndex)
            else
              let codePoint := staticCast .uint32 (cbu16GetSupplementary u.toNat v.toNat)
              some (isValidCodepoint codePoint.val, codePoint,
                staticCast .int32 (charIndex.val + 1))
      else
        let codePoint := staticCast .uint32 u.toNat
        some (isValidCodepoint codePoint.val, codePoint, charIndex)

/-- `output->resize(n)`. -/
def resizeString (s : List UInt8) (n : ℕ) : List UInt8 :=
  s.take n ++ List.replicate (n - s.length) 0

/-- `WriteUnicodeCharacter` on a byte string: the number of bytes written, and the string. -/
def writeUtf8Character (codePoint : Num .uint32) (output : List UInt8) : ℕ × List UInt8 :=
  if codePoint.val ≤ 0x7f then (1, output ++ [UInt8.ofNat codePoint.val.toNat])
  else
    let originalCharOffset := output.length
    let output := resizeString output (originalCharOffset + cbu8MaxLength)
    let (output, charOffset) :=
      cbu8AppendUnsafe (output, originalCharOffset) codePoint.val.toNat
    (charOffset - originalCharOffset, resizeString output charOffset)

/-- `PrepareForUTF8Output`: the cleared string and the capacity to reserve, by the first
unit. -/
def prepareForUtf8Output (src : List UInt16) (srcLen : ℕ) (_output : List UInt8) :
    Option (List UInt8 × ℕ) :=
  if srcLen = 0 then some ([], 0)
  else src[0]?.map fun u => if u < 0x80 then ([], srcLen) else ([], srcLen * 3)

/-- The next index of the loop is past the current one. -/
theorem readUnicodeCharacter16_index {src : List UInt16} {srcLen i j : Num .int32} {valid : Bool}
    {codePoint : Num .uint32} (hi : i.val < srcLen.val)
    (h : readUnicodeCharacter16 src srcLen i = some (valid, codePoint, j)) :
    i.val ≤ j.val ∧ j.val < srcLen.val := by
  have hsame : i = j → i.val ≤ j.val ∧ j.val < srcLen.val := fun hij => hij ▸ ⟨le_rfl, hi⟩
  unfold readUnicodeCharacter16 at h
  split at h
  · cases h
  · obtain ⟨u, -, h⟩ := Option.bind_eq_some_iff.mp h
    split_ifs at h with hsurrogate hlead
    · exact hsame (by simpa using congrArg (Option.map (·.2.2)) h)
    · obtain ⟨v, -, h⟩ := Option.bind_eq_some_iff.mp h
      split_ifs at h
      · obtain rfl : staticCast .int32 (i.val + 1) = j := by
          simpa using congrArg (Option.map (·.2.2)) h
        have hl := i.lowest_le
        have hu := srcLen.le_max
        have hlt : i.val + 1 < srcLen.val := by omega
        rw [staticCast_of_inRange ⟨by omega, by omega⟩]
        omega
      · exact hsame (by simpa using congrArg (Option.map (·.2.2)) h)
    · exact hsame (by simpa using congrArg (Option.map (·.2.2)) h)

def utf16Reader : CharacterReader UInt16 where
  read := readUnicodeCharacter16
  index := readUnicodeCharacter16_index

/-- `UTF16ToUTF8(src, src_len, output)`. -/
def utf16ToUtf8 (src : List UInt16) (output : List UInt8) : Option (Bool × List UInt8) :=
  (prepareForUtf8Output src src.length output).bind fun (output, _) =>
    convertUnicodeT utf16Reader writeUtf8Character src (staticCast .int32 src.length) 0 true output

/-- A step reads the next item of the scan, and looks at no unit past the length. -/
theorem utf16Reader_decodes : utf16Reader.Decodes utf16Form := by
  intro src srcLen i o n hlen h0 hi hn
  obtain ⟨k, hk⟩ := Int.eq_ofNat_of_zero_le h0
  have hmax := srcLen.le_max
  have hlow : IntegralType.int32.lowest = -2 ^ 31 := rfl
  rw [show i.val.toNat = k by omega] at hn
  have hread : utf16Reader.read = readUnicodeCharacter16 := rfl
  rw [hread]
  unfold readUnicodeCharacter16
  rw [hk]
  generalize hw : (src.take srcLen.val.toNat).drop k = w at hn
  change Next16 w o n at hn
  have hunit : ∀ m, k + m < srcLen.val.toNat → src[k + m]? = w[m]? := fun m hm => by
    rw [← hw, List.getElem?_drop, List.getElem?_take_of_lt hm]
  cases hn with
  | @single u w c hc =>
    have hbounds := char_bounds c
    have hu : src[k]? = some u := hunit 0 (by omega)
    have hsurrogate : ¬cbuIsSurrogate u.toNat := by
      rw [cbuIsSurrogate_iff]
      omega
    have hlt := u.toNat_lt
    have hcast : (staticCast .uint32 (u.toNat : ℤ)).val = u.toNat :=
      staticCast_of_inRange ⟨Int.natCast_nonneg _, show (u.toNat : ℤ) ≤ 2 ^ 32 - 1 by omega⟩
    have hvalid : isValidCodepoint (u.toNat : ℤ) = true := hc ▸ isValidCodepoint_of_char c
    refine ⟨staticCast .uint32 u.toNat, i, ?_, by omega, fun c' hc' => ?_⟩
    · simp only [hu, Option.bind_some, if_neg hsurrogate, hcast, hvalid, Option.isSome_some]
    · obtain rfl := Option.some.inj hc'
      rw [hcast, hc]
  | @pair u v w c hu hv hc =>
    have hlength := congrArg List.length hw
    rw [List.length_drop, List.length_take, List.length_cons, List.length_cons] at hlength
    have hu' : src[k]? = some u := hunit 0 (by omega)
    have hv' : src[k + 1]? = some v := hunit 1 (by omega)
    unfold LeadSurrogate at hu
    unfold TrailSurrogate at hv
    have hsurrogate : cbuIsSurrogate u.toNat := (cbuIsSurrogate_iff u).mpr (by omega)
    have hlead : cbu16IsSurrogateLead u.toNat := (cbu16IsSurrogateLead_iff hsurrogate).mpr hu.2
    have htrail : cbu16IsTrail v.toNat := (cbu16IsTrail_iff v).mpr hv
    have hcode : cbu16GetSupplementary u.toNat v.toNat = c.val.toNat :=
      (cbu16GetSupplementary_eq hu.1 hv.1).trans (by rw [hc])
    have hcast : (staticCast .uint32 (c.val.toNat : ℤ)).val = c.val.toNat := by
      have hlt := c.val.toNat_lt
      exact staticCast_of_inRange
        ⟨Int.natCast_nonneg _, show (c.val.toNat : ℤ) ≤ 2 ^ 32 - 1 by omega⟩
    refine ⟨staticCast .uint32 c.val.toNat, staticCast .int32 (i.val + 1), ?_, ?_,
      fun c' hc' => ?_⟩
    · have hinside : ¬(¬cbu16IsSurrogateLead u.toNat ∨ i.val + 1 ≥ srcLen.val) :=
        not_or.mpr ⟨not_not.mpr hlead, by omega⟩
      rw [hk] at hinside
      simp only [hu', hv', Option.bind_some, if_pos hsurrogate, if_neg hinside,
        if_neg (not_not.mpr htrail), hcode, hcast, isValidCodepoint_of_char, Option.isSome_some,
        hk]
    · rw [staticCast_of_inRange ⟨by omega, by omega⟩]
      omega
    · obtain rfl := Option.some.inj hc'
      exact hcast
  | @unpaired u w hu hnot =>
    have hu' : src[k]? = some u := hunit 0 (by omega)
    unfold LeadSurrogate TrailSurrogate at hu
    have hsurrogate : cbuIsSurrogate u.toNat := (cbuIsSurrogate_iff u).mpr (by omega)
    refine ⟨0, i, ?_, by omega, nofun⟩
    simp only [hu', Option.bind_some, if_pos hsurrogate, Option.isSome_none]
    by_cases hlook : ¬cbu16IsSurrogateLead u.toNat ∨ (k : ℤ) + 1 ≥ srcLen.val
    · rw [if_pos hlook]
    · -- the next unit is inside, and is no trail surrogate
      obtain ⟨hlead, hinside⟩ := not_or.mp hlook
      have hlead' : LeadSurrogate u :=
        ⟨by omega, (cbu16IsSurrogateLead_iff hsurrogate).mp (not_not.mp hlead)⟩
      have hlength := congrArg List.length hw
      rw [List.length_drop, List.length_take, List.length_cons] at hlength
      obtain ⟨v, w, rfl⟩ : ∃ v w', w = v :: w' :=
        List.exists_cons_of_length_pos (by omega)
      have hv' : src[k + 1]? = some v := hunit 1 (by omega)
      have htrail : ¬cbu16IsTrail v.toNat := fun ht =>
        hnot hlead' v rfl ((cbu16IsTrail_iff v).mp ht)
      rw [if_neg hlook, hv', Option.bind_some, if_pos htrail]

theorem cbu8Put_append (a b : List UInt8) (x : UInt8) (c : ℕ) :
    cbu8Put (a ++ x :: b, a.length) c =
      (a ++ [UInt8.ofNat c] ++ b, (a ++ [UInt8.ofNat c]).length) := by
  simp [cbu8Put]

/-- A trail byte of `CBU8_APPEND_UNSAFE`. -/
theorem cbu8_trail_byte (x : ℕ) : (x &&& 0x3f) ||| 0x80 = x % 0x40 + 0x80 := by
  have hand : x &&& 0x3f = x % 0x40 := Nat.and_two_pow_sub_one_eq_mod x 6
  rw [hand]
  exact or_shiftLeft (k := 6) 2 (Nat.mod_lt x (by decide))

/-- The bytes go into the room behind the string, from its end on. -/
theorem cbu8AppendUnsafe_eq (output : List UInt8) (c : Char) :
    ∃ room, cbu8AppendUnsafe (output ++ List.replicate cbu8MaxLength 0, output.length)
        c.val.toNat =
      (output ++ String.utf8EncodeChar c ++ room, (output ++ String.utf8EncodeChar c).length) := by
  have hbounds := char_bounds c
  unfold cbu8AppendUnsafe String.utf8EncodeChar
  generalize c.val.toNat = v at hbounds ⊢
  dsimp only
  have hroom : List.replicate cbu8MaxLength (0 : UInt8) = [0, 0, 0, 0] := rfl
  rw [hroom]
  simp only [cbu8_trail_byte, Nat.shiftRight_eq_div_pow]
  split_ifs with h7f h7ff hffff
  · exact ⟨[0, 0, 0], cbu8Put_append ..⟩
  · have hlead : v / 2 ^ 6 ||| 0xc0 = v / 64 % 0x20 + 0xc0 :=
      (or_shiftLeft (k := 6) 3 (by omega)).trans (by omega)
    rw [hlead]
    refine ⟨[0, 0], ?_⟩
    simp only [cbu8Put_append]
    simp
  · have hlead : v / 2 ^ 12 ||| 0xe0 = v / 4096 % 0x10 + 0xe0 :=
      (or_shiftLeft (k := 5) 7 (by omega)).trans (by omega)
    rw [hlead]
    refine ⟨[0], ?_⟩
    simp only [cbu8Put_append]
    simp
  · have hlead : v / 2 ^ 18 ||| 0xf0 = v / 262144 % 0x08 + 0xf0 :=
      (or_shiftLeft (k := 4) 15 (by omega)).trans (by omega)
    rw [hlead]
    refine ⟨[], ?_⟩
    simp only [cbu8Put_append]
    simp

theorem writeUtf8Character_writes : WritesForm writeUtf8Character utf8Form := by
  intro codePoint c output h
  have hc : codePoint.val.toNat = c.val.toNat := by omega
  unfold writeUtf8Character
  rw [hc]
  split_ifs with hlen
  · have hascii : String.utf8EncodeChar c = [UInt8.ofNat c.val.toNat] := by
      rw [String.utf8EncodeChar, if_pos (by omega)]
    exact congrArg (output ++ ·) hascii.symm
  · obtain ⟨room, happend⟩ := cbu8AppendUnsafe_eq output c
    have hresize : resizeString output (output.length + cbu8MaxLength) =
        output ++ List.replicate cbu8MaxLength 0 := by simp [resizeString]
    dsimp only
    rw [hresize, happend, resizeString, List.take_left]
    have hpad : (output ++ String.utf8EncodeChar c).length -
        (output ++ String.utf8EncodeChar c ++ room).length = 0 := by
      have hlength : (output ++ String.utf8EncodeChar c ++ room).length =
          (output ++ String.utf8EncodeChar c).length + room.length := List.length_append
      omega
    rw [hpad, List.replicate_zero, List.append_nil]
    rfl

theorem prepareForUtf8Output_eq (src : List UInt16) (output : List UInt8) :
    ∃ n, prepareForUtf8Output src src.length output = some ([], n) := by
  unfold prepareForUtf8Output
  cases src with
  | nil => exact ⟨0, rfl⟩
  | cons u w =>
    refine ⟨if u < 0x80 then (u :: w).length else (u :: w).length * 3, ?_⟩
    rw [if_neg (by simp), List.getElem?_cons_zero, Option.map_some]
    split_ifs <;> rfl

/-- `UTF16ToUTF8` transcodes the units that it reads. -/
theorem utf16ToUtf8_eq {src : List UInt16} {os : List (Option Char)} (output : List UInt8)
    (hs : utf16Form.Scans (src.take (convertedLength src.length)) os) :
    utf16ToUtf8 src output = some (os.all Option.isSome, utf8Form.encodeAll (outputText os)) := by
  obtain ⟨n, hn⟩ := prepareForUtf8Output_eq src output
  unfold utf16ToUtf8
  rw [hn, Option.bind_some]
  exact convertUnicodeT_start utf16Reader_decodes writeUtf8Character_writes hs

/-- `UTF16ToUTF8` is the reference transcoder: its output is the UTF-8 encoding of the
pairs of surrogates and the other units, with a replacement character for each unpaired
surrogate; it returns true exactly if there is none; and no read is outside the input. -/
theorem utf16ToUtf8_eq_scan (src : List UInt16) (output : List UInt8)
    (hlen : src.length < 2 ^ 31) :
    ∃ os success, (utf16Form.Scans src os ∧ ∀ os', utf16Form.Scans src os' → os' = os) ∧
      utf16ToUtf8 src output = some (success, utf8Form.encodeAll (outputText os)) ∧
      (success = true ↔ none ∉ os) ∧
      ∀ i : Num .int32, 0 ≤ i.val → i.val < src.length → ∃ valid codePoint j,
        readUnicodeCharacter16 src (staticCast .int32 src.length) i =
            some (valid, codePoint, j) ∧
          i.val ≤ j.val ∧ j.val < src.length := by
  obtain ⟨os, hos⟩ := utf16Form.exists_scans src
  have htake : src.take (convertedLength src.length) = src := by
    rw [convertedLength_of_lt hlen, List.take_length]
  refine ⟨os, os.all Option.isSome, ⟨hos, fun os' h => h.unique hos⟩, ?_, ?_, ?_⟩
  · exact utf16ToUtf8_eq output (by rwa [htake])
  · exact all_isSome_iff
  · intro i h0 hi
    have hcast := staticCast_int32_of_lt hlen
    obtain ⟨valid, codePoint, j, hread, hlo, hhi⟩ :=
      utf16Reader_decodes.read_inside (le_of_eq hcast) h0 (lt_of_lt_of_eq hi hcast.symm)
    exact ⟨valid, codePoint, j, hread, hlo, lt_of_lt_of_eq hhi hcast⟩

/-- A letter, a pair of surrogates and an unpaired one. -/
theorem utf16ToUtf8_eq_scan_pair :
    ∃ os success, (utf16Form.Scans [0x41, 0xD83D, 0xDE00, 0xD800] os ∧
        ∀ os', utf16Form.Scans [0x41, 0xD83D, 0xDE00, 0xD800] os' → os' = os) ∧
      utf16ToUtf8 [0x41, 0xD83D, 0xDE00, 0xD800] [] =
          some (success, utf8Form.encodeAll (outputText os)) ∧
      (success = true ↔ none ∉ os) ∧
      ∀ i : Num .int32, 0 ≤ i.val → i.val < (4 : ℕ) → ∃ valid codePoint j,
        readUnicodeCharacter16 [0x41, 0xD83D, 0xDE00, 0xD800] (staticCast .int32 (4 : ℕ)) i =
            some (valid, codePoint, j) ∧
          i.val ≤ j.val ∧ j.val < (4 : ℕ) :=
  utf16ToUtf8_eq_scan [0x41, 0xD83D, 0xDE00, 0xD800] [] (by decide)

end MiniChromium
