import MiniChromium.Utf16ToUtf8

/-!
# The lengths of the conversions

The conversions take a `size_t` length and keep `int32_t` of it. A string of 2^31 units or
more is read up to the number that is left, and what is read may be well formed.
-/
namespace MiniChromium

open IntegralType MiniChromium.Num Encoding Unicode

variable {α β : Type} {F : EncodingForm Char α} {G : EncodingForm Char β} {src w : List α}
  {out : List β} {os : List (Option Char)} {n m : ℕ}

/-- The output is the text of all the source. -/
def IsTranscoding (F : EncodingForm Char α) (G : EncodingForm Char β) (src : List α)
    (out : List β) : Prop := ∃ os, F.Scans src os ∧ out = G.encodeAll (outputText os)

theorem convertedLength_lt (h : 2 ^ 31 ≤ n) : convertedLength n < n := by
  have hmax := (staticCast .int32 (n : ℤ)).le_max
  have hval : IntegralType.int32.max = 2 ^ 31 - 1 := rfl
  rw [convertedLength]
  omega

/-- Success means that the source was transcoded, if it was read to its end or no success
is possible. -/
theorem isTranscoding_iff
    (hs : F.Scans (src.take (convertedLength src.length)) os) :
    (os.all Option.isSome = true → IsTranscoding F G src (G.encodeAll (outputText os))) ↔
      src.length < 2 ^ 31 ∨ ¬F.WellFormed (src.take (convertedLength src.length)) := by
  by_cases hlen : src.length < 2 ^ 31
  · rw [convertedLength_of_lt hlen, List.take_length] at hs
    exact iff_of_true (fun _ => ⟨os, hs, rfl⟩) (.inl hlen)
  · rw [all_isSome_iff, ← hs.wellFormed_iff, or_iff_right hlen]
    refine imp_congr_right fun hwell => iff_of_false ?_ id
    rintro ⟨os', hos', heq⟩
    -- the source goes on behind the well-formed part
    obtain ⟨cs, hcs⟩ := hwell
    rw [hcs] at hs
    have hrest : src.drop (convertedLength src.length) ≠ [] := by
      have := convertedLength_lt (not_lt.mp hlen)
      rw [Ne, List.drop_eq_nil_iff]
      omega
    rw [← List.take_append_drop (convertedLength src.length) src, hcs] at hos'
    refine hos'.encodeAll_text_ne hrest (heq.symm.trans ?_)
    rw [hs.unique (F.scans_encodeAll cs), outputText, text_map_some]

/-- The same of a function with the result of a conversion. -/
theorem forall_isTranscoding_iff {result : Option (Bool × List β)}
    (hs : F.Scans (src.take (convertedLength src.length)) os)
    (hresult : result = some (os.all Option.isSome, G.encodeAll (outputText os))) :
    (∀ out, result = some (true, out) → IsTranscoding F G src out) ↔
      src.length < 2 ^ 31 ∨ ¬F.WellFormed (src.take (convertedLength src.length)) := by
  rw [← isTranscoding_iff (G := G) hs]
  constructor
  · intro h htrue
    exact h _ (by rw [hresult, htrue])
  · intro h out hout
    obtain ⟨htrue, rfl⟩ := Prod.mk.inj (Option.some.inj (hresult.symm.trans hout))
    exact h htrue

/-- A conversion that returns true has transcoded all of its source exactly if the length
is less than 2^31, or what it reads of the source is ill-formed, so that it returns false. -/
theorem conversions_drop_nothing_iff (src8 before8 : List UInt8) (src16 before16 : List UInt16) :
    ((∀ out, utf8ToUtf16 src8 before16 = some (true, out) →
        IsTranscoding utf8Form utf16Form src8 out) ↔
      src8.length < 2 ^ 31 ∨
        ¬utf8Form.WellFormed (src8.take (convertedLength src8.length))) ∧
    ((∀ out, utf16ToUtf8 src16 before8 = some (true, out) →
        IsTranscoding utf16Form utf8Form src16 out) ↔
      src16.length < 2 ^ 31 ∨
        ¬utf16Form.WellFormed (src16.take (convertedLength src16.length))) := by
  obtain ⟨os8, hs8⟩ := utf8Form.exists_scans (src8.take (convertedLength src8.length))
  obtain ⟨os16, hs16⟩ := utf16Form.exists_scans (src16.take (convertedLength src16.length))
  exact ⟨forall_isTranscoding_iff hs8 (utf8ToUtf16_eq before16 hs8),
    forall_isTranscoding_iff hs16 (utf16ToUtf8_eq before8 hs16)⟩

/-- What the narrowing leaves of a length: the low 32 bits, or nothing if they are negative
as an `int32_t`. -/
theorem convertedLength_eq (n : ℕ) :
    convertedLength n = if n % 2 ^ 32 < 2 ^ 31 then n % 2 ^ 32 else 0 := by
  have hcast : (staticCast .int32 (n : ℤ)).val = IntegralType.int32.lowest +
    ((n : ℤ) - IntegralType.int32.lowest) % IntegralType.int32.modulus := rfl
  have hlow : IntegralType.int32.lowest = -2 ^ 31 := rfl
  have hmod : IntegralType.int32.modulus = 2 ^ 32 := rfl
  rw [convertedLength, hcast, hlow, hmod]
  split_ifs <;> omega

/-- Of 2^31 letters none is read, and the function returns true. -/
theorem utf8ToUtf16_drops_all :
    utf8ToUtf16 (List.replicate (2 ^ 31) 0x61) [] = some (true, []) ∧
      ¬IsTranscoding utf8Form utf16Form (List.replicate (2 ^ 31) 0x61) [] := by
  generalize hsrc : List.replicate (2 ^ 31) (0x61 : UInt8) = src
  have hlength : src.length = 2 ^ 31 := by rw [← hsrc, List.length_replicate]
  have hconverted : convertedLength src.length = 0 :=
    hlength ▸ convertedLength_eq (2 ^ 31)
  constructor
  · have hs : utf8Form.Scans (src.take (convertedLength src.length)) [] := by
      rw [hconverted, List.take_zero]
      exact .nil
    exact utf8ToUtf16_eq [] hs
  · rintro ⟨os, hos, heq⟩
    have hnil : os = [] :=
      List.map_eq_nil_iff.mp ((EncodingForm.encodeAll_eq_nil_iff utf16Form).mp heq.symm)
    have hne : src ≠ [] := fun h => by
      rw [h, List.length_nil] at hlength
      omega
    exact hos.ne_nil hne hnil

end MiniChromium
