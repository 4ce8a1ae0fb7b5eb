import MiniChromium.ConvertUnicode
import MiniChromium.IcuUtf

/-!
# From UTF-8 to UTF-16

`UTF8ToUTF16` reads one code point at a time and appends its units, or those of
the replacement character. The conversion is the scan of the byte string by
characters and maximal ill-formed subparts.
-/
namespace MiniChromium

open IntegralType MiniChromium.Num Encoding Unicode

/-- `IsValidCodepoint`. -/
def isValidCodepoint (codePoint : ℤ) : Bool :=
  decide (codePoint < 0xD800) || (decide (codePoint ≥ 0xE000) && decide (codePoint ≤ 0x10FFFF))

/-- `ReadUnicodeCharacter` on bytes: whether the code point is valid, the code point
as an unsigned number, and the index of the last byte consumed. A negative index is
a read out of bounds. -/
def readUnicodeCharacter (src : List UInt8) (srcLen charIndex : Num .int32) :
    Option (Bool × Num .uint32 × Num .int32) :=
  match charIndex.val with
  | .negSucc _ => none
  | .ofNat i =>
    (cbu8Next src i srcLen.val.toNat).map fun (codePoint, next) =>
      let codePointOut := staticCast .uint32 codePoint
      (isValidCodepoint codePointOut.val, codePointOut,
        staticCast .int32 ((staticCast .int32 next).val - 1))

/-- `WriteUTF16Character`, which is `WriteUnicodeCharacter` on a UTF-16 string: the
number of units written, and the string. -/
def writeUtf16Character (codePoint : Num .uint32) (output : List UInt16) : ℕ × List UInt16 :=
  if cbu16Length codePoint.val.toNat = 1 then
    (1, output ++ [UInt16.ofNat codePoint.val.toNat])
  else (2, output ++ cbu16AppendUnsafe codePoint.val.toNat)

/-- `PrepareForUTF16Or32Output`: the cleared string and the capacity to reserve, by
the first byte. -/
def prepareForUtf16Or32Output (src : List UInt8) (srcLen : ℕ) (_output : List UInt16) :
    Option (List UInt16 × ℕ) :=
  if srcLen = 0 then some ([], 0)
  else src[0]?.map fun b => if b < 0x80 then ([], srcLen) else ([], srcLen / 2)

/-- The next index of the loop is past the current one: at least one byte is consumed. -/
theorem readUnicodeCharacter_index {src : List UInt8} {srcLen i j : Num .int32} {valid : Bool}
    {codePoint : Num .uint32} (hi : i.val < srcLen.val)
    (h : readUnicodeCharacter src srcLen i = some (valid, codePoint, j)) :
    i.val ≤ j.val ∧ j.val < srcLen.val := by
  unfold readUnicodeCharacter at h
  match hv : i.val with
  | .negSucc _ => rw [hv] at h; cases h
  | .ofNat n =>
    rw [hv] at h
    obtain ⟨⟨c, next⟩, hp, hr⟩ := Option.map_eq_some_iff.mp h
    obtain rfl : staticCast .int32 ((staticCast .int32 next).val - 1) = j :=
      congrArg (fun r => r.2.2) hr
    have hmax := srcLen.le_max
    have hlow : IntegralType.int32.lowest = -2 ^ 31 := rfl
    have hn : (Int.ofNat n : ℤ) = (n : ℤ) := rfl
    obtain ⟨hlo, hhi⟩ := cbu8Next_within src (show n < srcLen.val.toNat by omega) _ hp
    dsimp only at hlo hhi
    rw [staticCast_of_inRange (z := (next : ℤ)) ⟨by omega, by omega⟩,
      staticCast_of_inRange ⟨by omega, by omega⟩]
    omega

/-- The loop of `ConvertUnicode`. -/
def convertUnicodeLoop (src : List UInt8) (srcLen32 i : Num .int32) (success : Bool)
    (output : List UInt16) : Option (Bool × List UInt16) :=
  if _hi : i.val < srcLen32.val then
    match hr : readUnicodeCharacter src srcLen32 i with
    | none => none
    | some (valid, codePoint, j) =>
      let next := staticCast .int32 (j.val + 1)
      if valid then
        convertUnicodeLoop src srcLen32 next success (writeUtf16Character codePoint output).2
      else
        convertUnicodeLoop src srcLen32 next false
          (writeUtf16Character (staticCast .uint32 0xFFFD) output).2
  else some (success, output)
termination_by (srcLen32.val - i.val).toNat
decreasing_by
  all_goals
    obtain ⟨hlo, hhi⟩ := readUnicodeCharacter_index _hi hr
    have hl := i.lowest_le
    have hu := srcLen32.le_max
    rw [staticCast_of_inRange ⟨by omega, by omega⟩]
    omega

/-- `ConvertUnicode` from bytes. -/
def convertUnicode (src : List UInt8) (srcLen : ℕ) (output : List UInt16) :
    Option (Bool × List UInt16) :=
  convertUnicodeLoop src (staticCast .int32 srcLen) 0 true output

/-- `UTF8ToUTF16(src, src_len, output)`. -/
def utf8ToUtf16 (src : List UInt8) (output : List UInt16) : Option (Bool × List UInt16) :=
  (prepareForUtf16Or32Output src src.length output).bind fun (output, _) =>
    convertUnicode src src.length output

/-- The units that one item of a scan contributes. -/
def itemUnits (o : Option Char) : List UInt16 := utf16EncodeChar (o.getD replacementCharacter)

theorem isValidCodepoint_of_char (c : Char) : isValidCodepoint (c.val.toNat : ℤ) = true := by
  have hv : c.val.toNat < 0xd800 ∨ (0xdfff < c.val.toNat ∧ c.val.toNat < 0x110000) := c.valid
  simp only [isValidCodepoint, Bool.or_eq_true, Bool.and_eq_true, decide_eq_true_eq]
  omega

/-- A step reads the next item of the scan, inside the string. -/
theorem readUnicodeCharacter_eq {src : List UInt8} {srcLen i : Num .int32} {o : Option Char}
    {n : ℕ} (hlen : srcLen.val = src.length) (h0 : 0 ≤ i.val)
    (hn : Next (src.drop i.val.toNat) o n) :
    ∃ codePoint j, readUnicodeCharacter src srcLen i = some (o.isSome, codePoint, j) ∧
      j.val = i.val + n - 1 ∧ ∀ c ∈ o, codePoint.val = c.val.toNat := by
  obtain ⟨k, hk⟩ := Int.eq_ofNat_of_zero_le h0
  have hle := hn.le
  have hpos := hn.pos
  have hmax := srcLen.le_max
  have hlow : IntegralType.int32.lowest = -2 ^ 31 := rfl
  rw [show i.val.toNat = k by omega] at hn hle
  rw [List.length_drop] at hle
  have hne : src.drop k ≠ [] := by
    rw [Ne, List.drop_eq_nil_iff]
    omega
  -- The macro decodes the item that the scan takes here.
  obtain ⟨o', hn', hval⟩ := isNext_decodeNext hne
  obtain ⟨rfl, rfl⟩ := hn.unique hn'
  have hnext := cbu8Next_eq (i := k) rfl hne
  rw [show src.length = srcLen.val.toNat by omega, cbu8Result, hval] at hnext
  have hindex : (staticCast .int32 ((staticCast .int32
      ((k + (decodeNext (src.drop k)).2 : ℕ) : ℤ)).val - 1)).val =
        (k : ℤ) + (decodeNext (src.drop k)).2 - 1 := by
    rw [staticCast_of_inRange (z := ((k + (decodeNext (src.drop k)).2 : ℕ) : ℤ))
      ⟨by omega, by omega⟩, staticCast_of_inRange ⟨by omega, by omega⟩]
    omega
  unfold readUnicodeCharacter
  rw [hk]
  dsimp only
  cases o with
  | none =>
    have hbad : isValidCodepoint (staticCast .uint32 cbuSentinel).val = false := by decide
    refine ⟨staticCast .uint32 cbuSentinel, _, ?_, hindex, fun c hc => nomatch hc⟩
    rw [hnext, Option.map_some]
    simp only [Option.map_none, Option.elim_none, hbad, Option.isSome_none]
  | some c =>
    have hc : (staticCast .uint32 (c.val.toNat : ℤ)).val = c.val.toNat := by
      have hlt := c.val.toNat_lt
      exact staticCast_of_inRange
        ⟨Int.natCast_nonneg _, show (c.val.toNat : ℤ) ≤ 2 ^ 32 - 1 by omega⟩
    refine ⟨staticCast .uint32 (c.val.toNat : ℤ), _, ?_, hindex, fun c' hc' => ?_⟩
    · rw [hnext, Option.map_some]
      simp only [Option.map_some, Option.elim_some, hc, isValidCodepoint_of_char,
        Option.isSome_some]
    · obtain rfl := Option.some.inj hc'
      exact hc

theorem writeUtf16Character_eq {codePoint : Num .uint32} {c : Char} (output : List UInt16)
    (h : codePoint.val = c.val.toNat) :
    (writeUtf16Character codePoint output).2 = output ++ utf16EncodeChar c := by
  have hc : codePoint.val.toNat = c.val.toNat := by omega
  unfold writeUtf16Character
  rw [hc, ← cbu16AppendUnsafe_eq]
  split_ifs with hlen
  · have hle : c.val.toNat ≤ 0xffff := by
      by_contra hle
      rw [cbu16Length, if_neg hle] at hlen
      omega
    rw [cbu16AppendUnsafe, if_pos hle]
  · rfl

def utf8Reader : CharacterReader UInt8 where
  read := readUnicodeCharacter
  index := readUnicodeCharacter_index

theorem readUnicodeCharacter_take (src : List UInt8) {srcLen i : Num .int32}
    (hi : i.val < srcLen.val) :
    readUnicodeCharacter (src.take srcLen.val.toNat) srcLen i =
      readUnicodeCharacter src srcLen i := by
  unfold readUnicodeCharacter
  match hv : i.val with
  | .negSucc _ => rfl
  | .ofNat n =>
    have hn : n < srcLen.val.toNat := by
      rw [hv, Int.ofNat_eq_natCast] at hi
      omega
    dsimp only
    rw [cbu8Next_take src hn]

theorem utf8Reader_decodes : utf8Reader.Decodes utf8Form := by
  intro src srcLen i o n hlen h0 hi hn
  have htake : srcLen.val = (src.take srcLen.val.toNat).length := by
    rw [List.length_take]
    omega
  have hread := readUnicodeCharacter_eq htake h0 hn
  rwa [readUnicodeCharacter_take src hi] at hread

theorem writeUtf16Character_writes : WritesForm writeUtf16Character utf16Form :=
  writeUtf16Character_eq

/-- The conversion from bytes is an instance of the template. -/
theorem convertUnicodeLoop_eq_template (src : List UInt8) (srcLen i : Num .int32) (success : Bool)
    (output : List UInt16) :
    convertUnicodeLoop src srcLen i success output =
      convertUnicodeT utf8Reader writeUtf16Character src srcLen i success output := by
  fun_induction convertUnicodeLoop src srcLen i success output with
  | case1 i success output hi hr => rw [convertUnicodeT_none hi hr]
  | case2 i success output hi codePoint j next hr ih =>
    rw [ih, convertUnicodeT_some hi hr, Bool.and_true, if_pos rfl]
  | case3 i success output hi valid codePoint j hr next hvalid ih =>
    obtain rfl := Bool.eq_false_iff.mpr hvalid
    rw [ih, convertUnicodeT_some hi hr, Bool.and_false, if_neg hvalid]
  | case4 i success output hi => rw [convertUnicodeT_done hi]

theorem prepareForUtf16Or32Output_eq (src : List UInt8) (output : List UInt16) :
    ∃ n, prepareForUtf16Or32Output src src.length output = some ([], n) := by
  unfold prepareForUtf16Or32Output
  cases src with
  | nil => exact ⟨0, rfl⟩
  | cons b w =>
    refine ⟨if b < 0x80 then (b :: w).length else (b :: w).length / 2, ?_⟩
    rw [if_neg (by simp), List.getElem?_cons_zero, Option.map_some]
    split_ifs <;> rfl

/-- `UTF8ToUTF16` transcodes the units that it reads. -/
theorem utf8ToUtf16_eq {src : List UInt8} {os : List (Option Char)} (output : List UInt16)
    (hs : utf8Form.Scans (src.take (convertedLength src.length)) os) :
    utf8ToUtf16 src output =
      some (os.all Option.isSome, utf16Form.encodeAll (outputText os)) := by
  obtain ⟨n, hn⟩ := prepareForUtf16Or32Output_eq src output
  unfold utf8ToUtf16 convertUnicode
  rw [hn, Option.bind_some]
  dsimp only
  rw [convertUnicodeLoop_eq_template]
  exact convertUnicodeT_start utf8Reader_decodes writeUtf16Character_writes hs

theorem encodeAll_outputText (os : List (Option Char)) :
    utf16Form.encodeAll (outputText os) = os.flatMap itemUnits := by
  rw [EncodingForm.encodeAll, outputText, text, List.flatMap_map]
  rfl

/-- `UTF8ToUTF16` is the reference decoder: its output encodes the scan of the input,
it returns true exactly on well-formed input, and every read takes at least one byte
and stays inside the input. -/
theorem utf8ToUtf16_eq_scan (src : List UInt8) (output : List UInt16)
    (hlen : src.length < 2 ^ 31) :
    ∃ os success, (Scans src os ∧ ∀ os', Scans src os' → os' = os) ∧
      utf8ToUtf16 src output = some (success, os.flatMap itemUnits) ∧
      (success = true ↔ WellFormed src) ∧
      ∀ i : Num .int32, 0 ≤ i.val → i.val < src.length → ∃ valid codePoint j,
        readUnicodeCharacter src (staticCast .int32 src.length) i = some (valid, codePoint, j) ∧
          i.val ≤ j.val ∧ j.val < src.length := by
  obtain ⟨os, hos⟩ := exists_scans src
  have htake : src.take (convertedLength src.length) = src := by
    rw [convertedLength_of_lt hlen, List.take_length]
  refine ⟨os, os.all Option.isSome, ⟨hos, fun os' h => h.unique hos⟩, ?_, ?_, ?_⟩
  · rw [utf8ToUtf16_eq output (by rwa [htake, utf8Form_scans_iff]), encodeAll_outputText]
  · rw [hos.wellFormed_iff, all_isSome_iff]
  · intro i h0 hi
    have hcast := staticCast_int32_of_lt hlen
    obtain ⟨valid, codePoint, j, hread, hlo, hhi⟩ :=
      utf8Reader_decodes.read_inside (le_of_eq hcast) h0 (lt_of_lt_of_eq hi hcast.symm)
    exact ⟨valid, codePoint, j, hread, hlo, lt_of_lt_of_eq hhi hcast⟩

/-- The bound holds of a short string, here a euro sign and a stray byte. -/
theorem utf8ToUtf16_eq_scan_euro :
    ∃ os success, (Scans [0xE2, 0x82, 0xAC, 0xFF] os ∧
        ∀ os', Scans [0xE2, 0x82, 0xAC, 0xFF] os' → os' = os) ∧
      utf8ToUtf16 [0xE2, 0x82, 0xAC, 0xFF] [] = some (success, os.flatMap itemUnits) ∧
      (success = true ↔ WellFormed [0xE2, 0x82, 0xAC, 0xFF]) ∧
      ∀ i : Num .int32, 0 ≤ i.val → i.val < (4 : ℕ) → ∃ valid codePoint j,
        readUnicodeCharacter [0xE2, 0x82, 0xAC, 0xFF] (staticCast .int32 (4 : ℕ)) i =
            some (valid, codePoint, j) ∧
          i.val ≤ j.val ∧ j.val < (4 : ℕ) :=
  utf8ToUtf16_eq_scan [0xE2, 0x82, 0xAC, 0xFF] [] (by decide)

end MiniChromium
