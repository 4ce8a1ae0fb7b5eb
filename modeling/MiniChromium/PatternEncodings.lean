import MiniChromium.PatternSearch
import MiniChromium.UtfRoundTrips

/-!
# Matching in UTF-8 and in UTF-16

`MatchPattern` reads a string and a pattern by their characters only, so it takes the
steps that it would take on the lists of the characters. A well-formed string has the same
characters in both encodings.
-/
namespace MiniChromium

open IntegralType MiniChromium.Num Encoding Unicode

/-- A list of characters, each of which is a unit of its own. -/
def nextCodePoint : NextChar ℤ where
  unit c := c
  next
    | [] => none
    | c :: s => some (c, s)
  next_nil := rfl
  next_cons c s := ⟨c, s, rfl, List.suffix_refl s⟩
  unit_eq_iff h a _ _ := by
    obtain ⟨rfl, -⟩ := Prod.mk.inj (Option.some.inj h)
    exact Iff.rfl

variable {CHAR : Type} {N : NextChar CHAR} {pattern string patternStart stringStart : List CHAR}
  {escape : Bool} {maximumDistance : Num .int32}

theorem eatWildcardsLoop_eq (N : NextChar CHAR) (pattern : List CHAR)
    (numQuestionMarks : Num .int32) (hasAsterisk : Bool) :
    eatWildcardsLoop N pattern numQuestionMarks hasAsterisk =
      match pattern with
      | [] => some (if hasAsterisk then staticCast .int32 (-1) else numQuestionMarks, [])
      | u :: s =>
        if N.unit u = questionMark then
          (N.next (u :: s)).bind fun (_, t) =>
            eatWildcardsLoop N t (staticCast .int32 (numQuestionMarks.val + 1)) hasAsterisk
        else if N.unit u = asterisk then
          (N.next (u :: s)).bind fun (_, t) => eatWildcardsLoop N t numQuestionMarks true
        else some (if hasAsterisk then staticCast .int32 (-1) else numQuestionMarks, u :: s) := by
  cases pattern with
  | nil => rw [eatWildcardsLoop]
  | cons u s =>
    rw [eatWildcardsLoop]
    dsimp only
    split_ifs
    · split <;> rename_i hn <;> rw [hn] <;> rfl
    · split <;> rename_i hn <;> rw [hn] <;> rfl
    · rfl
    · rfl

theorem matchPatternT_eq (N : NextChar CHAR) (eval pattern : List CHAR) :
    matchPatternT N eval pattern =
      (eatWildcards N pattern).bind fun (maximumWildcardLength, pattern) =>
        (searchForChars N pattern eval maximumWildcardLength).bind fun (found, pattern, eval) =>
          if found then if pattern ≠ [] then matchPatternT N eval pattern else some true
          else some false := by
  rw [matchPatternT]
  split
  · rename_i he
    rw [he, Option.bind_none]
  · rename_i he
    rw [he, Option.bind_some]
    dsimp only
    split <;> rename_i hs <;> rw [hs] <;> simp

theorem next_chars (s : List CHAR) :
    nextCodePoint.next (N.chars s) = (N.next s).map fun (c, t) => (c, N.chars t) := by
  by_cases hs : s = []
  · rw [hs, N.chars_nil, N.next_nil]
    rfl
  · obtain ⟨c, t, hn⟩ := NextChar.exists_next (N := N) hs
    rw [NextChar.chars_of_next hn, hn]
    rfl

theorem isEmpty_chars (s : List CHAR) : (N.chars s).isEmpty = s.isEmpty := by
  rw [Bool.eq_iff_iff, List.isEmpty_iff, List.isEmpty_iff]
  exact NextChar.chars_eq_nil_iff

/-- The step of a search as one on characters. -/
def SearchStep.chars (N : NextChar CHAR) : SearchStep CHAR → SearchStep ℤ
  | .accept => .accept
  | .reject => .reject
  | .advance escape pattern string => .advance escape (N.chars pattern) (N.chars string)
  | .mismatch escape => .mismatch escape

/-- A first unit is a wildcard or a backslash if its character is, so the step does not
see the units. -/
theorem searchStep_chars (escape : Bool) (pattern string : List CHAR) :
    searchStep nextCodePoint escape (N.chars pattern) (N.chars string) =
      (searchStep N escape pattern string).map (SearchStep.chars N) := by
  cases pattern with
  | nil =>
    rw [N.chars_nil]
    unfold searchStep
    dsimp only
    rw [isEmpty_chars]
    split_ifs <;> rfl
  | cons u s =>
    obtain ⟨c, t, hn, -⟩ := N.next_cons u s
    obtain ⟨hb, ha, hq⟩ := unit_eq_iff_of_next hn
    have hwild : isWildcard (N.unit u) = isWildcard c := by
      rw [Bool.eq_iff_iff, isWildcard_iff, isWildcard_iff, ha, hq]
    have hback : decide (N.unit u = backslash) = decide (c = backslash) := decide_eq_decide.mpr hb
    rw [NextChar.chars_of_next hn]
    unfold searchStep
    dsimp only
    have hunit : nextCodePoint.unit c = c := rfl
    have hnext : nextCodePoint.next (c :: N.chars t) = some (c, N.chars t) := rfl
    rw [isEmpty_chars, hn, next_chars, hwild, hback, hunit, hnext]
    split_ifs
    · rfl
    · rfl
    · rfl
    · rw [Option.bind_some, Option.bind_some]
      cases N.next string with
      | none => rfl
      | some p =>
        simp only [Option.map_some]
        split_ifs <;> rfl

/-- What a search returns, on characters. -/
def searchResultChars (N : NextChar CHAR) (r : Bool × List CHAR × List CHAR) :
    Bool × List ℤ × List ℤ := (r.1, N.chars r.2.1, N.chars r.2.2)

theorem searchForCharsLoop_chars (patternStart pattern string stringStart : List CHAR)
    (escape : Bool) (maximumDistance : Num .int32) :
    searchForCharsLoop nextCodePoint (N.chars patternStart) (N.chars pattern) (N.chars string)
        (N.chars stringStart) escape maximumDistance =
      (searchForCharsLoop N patternStart pattern string stringStart escape maximumDistance).map
        (searchResultChars N) := by
  fun_induction searchForCharsLoop N patternStart pattern string stringStart escape
    maximumDistance with
  | case1 pattern string stringStart escape maximumDistance hs =>
    rw [searchForCharsLoop_eq, searchStep_chars, hs]
    rfl
  | case2 pattern string stringStart escape maximumDistance hs =>
    rw [searchForCharsLoop_eq, searchStep_chars, hs]
    rfl
  | case3 pattern string stringStart escape maximumDistance hs =>
    rw [searchForCharsLoop_eq, searchStep_chars, hs]
    rfl
  | case4 pattern string stringStart escape maximumDistance escape' pattern' string' hs ih =>
    rw [searchForCharsLoop_eq, searchStep_chars, hs, ← ih]
    rfl
  | case5 pattern string stringStart escape maximumDistance escape' hs hd =>
    rw [searchForCharsLoop_eq, searchStep_chars, hs]
    simp only [Option.map_some, Option.bind_some, SearchStep.chars, if_pos hd]
    rfl
  | case6 pattern string stringStart escape maximumDistance escape' hs hd hn =>
    rw [searchForCharsLoop_eq, searchStep_chars, hs]
    simp only [Option.map_some, Option.bind_some, SearchStep.chars, if_neg hd, next_chars, hn]
    rfl
  | case7 pattern string stringStart escape maximumDistance escape' hs hd c stringStart' hn ih =>
    rw [searchForCharsLoop_eq, searchStep_chars, hs, ← ih]
    simp only [Option.map_some, Option.bind_some, SearchStep.chars, if_neg hd, next_chars, hn]

theorem eatWildcardsLoop_chars (pattern : List CHAR) (numQuestionMarks : Num .int32)
    (hasAsterisk : Bool) :
    eatWildcardsLoop nextCodePoint (N.chars pattern) numQuestionMarks hasAsterisk =
      (eatWildcardsLoop N pattern numQuestionMarks hasAsterisk).map
        fun (d, pattern) => (d, N.chars pattern) := by
  fun_induction eatWildcardsLoop N pattern numQuestionMarks hasAsterisk with
  | case1 numQuestionMarks hasAsterisk =>
    rw [N.chars_nil, eatWildcardsLoop_eq]
    simp [N.chars_nil]
  | case2 numQuestionMarks hasAsterisk u s hq hn =>
    exact absurd hn (NextChar.next_ne_none (List.cons_ne_nil u s))
  | case3 numQuestionMarks hasAsterisk u s hq c t hn ih =>
    have hc : nextCodePoint.unit c = questionMark := (unit_eq_iff_of_next hn).2.2.mp hq
    have hnext : nextCodePoint.next (c :: N.chars t) = some (c, N.chars t) := rfl
    rw [NextChar.chars_of_next hn, eatWildcardsLoop_eq]
    dsimp only
    rw [if_pos hc, hnext, Option.bind_some, ih]
  | case4 numQuestionMarks hasAsterisk u s hq ha hn =>
    exact absurd hn (NextChar.next_ne_none (List.cons_ne_nil u s))
  | case5 numQuestionMarks hasAsterisk u s hq ha c t hn ih =>
    have hc : nextCodePoint.unit c ≠ questionMark := mt (unit_eq_iff_of_next hn).2.2.mpr hq
    have hc' : nextCodePoint.unit c = asterisk := (unit_eq_iff_of_next hn).2.1.mp ha
    have hnext : nextCodePoint.next (c :: N.chars t) = some (c, N.chars t) := rfl
    rw [NextChar.chars_of_next hn, eatWildcardsLoop_eq]
    dsimp only
    rw [if_neg hc, if_pos hc', hnext, Option.bind_some, ih]
  | case6 numQuestionMarks hasAsterisk u s hq ha =>
    obtain ⟨c, t, hn, -⟩ := N.next_cons u s
    have hc : nextCodePoint.unit c ≠ questionMark := mt (unit_eq_iff_of_next hn).2.2.mpr hq
    have hc' : nextCodePoint.unit c ≠ asterisk := mt (unit_eq_iff_of_next hn).2.1.mpr ha
    rw [NextChar.chars_of_next hn, eatWildcardsLoop_eq]
    dsimp only
    rw [if_neg hc, if_neg hc', Option.map_some, NextChar.chars_of_next hn]

/-- `MatchPatternT` on any strings does what it does on the lists of their characters. -/
theorem matchPatternT_chars (eval pattern : List CHAR) :
    matchPatternT nextCodePoint (N.chars eval) (N.chars pattern) =
      matchPatternT N eval pattern := by
  induction hlength : pattern.length using Nat.strong_induction_on generalizing eval pattern with
  | h n ih =>
    rw [matchPatternT_eq, matchPatternT_eq N, eatWildcards, eatWildcards, eatWildcardsLoop_chars]
    cases he : eatWildcardsLoop N pattern 0 false with
    | none => rfl
    | some r =>
      obtain ⟨d, pattern₁⟩ := r
      rw [Option.map_some, Option.bind_some, Option.bind_some]
      dsimp only
      rw [searchForChars, searchForChars, searchForCharsLoop_chars]
      cases hs : searchForCharsLoop N pattern₁ pattern₁ eval eval false d with
      | none => rfl
      | some r =>
        obtain ⟨found, pattern₂, eval₂⟩ := r
        rw [Option.map_some, Option.bind_some, Option.bind_some, searchResultChars]
        dsimp only
        cases found with
        | false => rfl
        | true =>
          rw [if_pos rfl, if_pos rfl]
          by_cases hne : pattern₂ ≠ []
          · rw [if_pos hne, if_pos (mt NextChar.chars_eq_nil_iff.mp hne)]
            exact ih _ (hlength ▸ length_lt_of_round he hs hne) eval₂ pattern₂ rfl
          · rw [if_neg hne, if_neg (mt (mt NextChar.chars_eq_nil_iff.mpr) hne)]

theorem searchStep_isSome (escape : Bool) (pattern string : List CHAR) :
    (searchStep N escape pattern string).isSome := by
  cases pattern with
  | nil => rfl
  | cons u s =>
    obtain ⟨c, t, hn, -⟩ := N.next_cons u s
    unfold searchStep
    dsimp only
    rw [hn]
    split_ifs with hwild hback hempty
    · rfl
    · rfl
    · rfl
    · obtain ⟨d, t', hd⟩ := NextChar.exists_next (N := N) (mt List.isEmpty_iff.mpr hempty)
      rw [hd]
      rfl

/-- At the end of the string there is no mismatch. -/
theorem searchStep_nil (escape : Bool) (pattern : List CHAR) {step : SearchStep CHAR}
    (h : searchStep N escape pattern [] = some step) :
    step = .accept ∨ step = .reject ∨ ∃ escape' pattern', step = .advance escape' pattern' [] := by
  cases pattern with
  | nil => exact .inl (Option.some.inj h).symm
  | cons u s =>
    unfold searchStep at h
    dsimp only at h
    split_ifs at h with hwild hback hempty
    · exact .inl (Option.some.inj h).symm
    · obtain ⟨r, -, hr⟩ := Option.map_eq_some_iff.mp h
      exact .inr (.inr ⟨true, r.2, hr.symm⟩)
    · exact .inr (.inl (Option.some.inj h).symm)
    · exact absurd rfl hempty

/-- A search never reads at the end of its string. -/
theorem searchForCharsLoop_isSome (patternStart pattern string stringStart : List CHAR)
    (escape : Bool) (maximumDistance : Num .int32) (h : stringStart = [] → string = []) :
    (searchForCharsLoop N patternStart pattern string stringStart escape
      maximumDistance).isSome := by
  fun_induction searchForCharsLoop N patternStart pattern string stringStart escape
    maximumDistance with
  | case1 pattern string stringStart escape maximumDistance hs =>
    have hsome := searchStep_isSome (N := N) escape pattern string
    rw [hs] at hsome
    cases hsome
  | case2 => rfl
  | case3 => rfl
  | case4 pattern string stringStart escape maximumDistance escape' pattern' string' hs ih =>
    refine ih fun hstart => ?_
    obtain rfl := h hstart
    obtain hstep | hstep | ⟨escape'', pattern'', hstep⟩ := searchStep_nil escape pattern hs
    · cases hstep
    · cases hstep
    · cases hstep
      rfl
  | case5 => rfl
  | case6 pattern string stringStart escape maximumDistance escape' hs hd hn =>
    by_cases hstart : stringStart = []
    · obtain rfl := h hstart
      obtain hstep | hstep | ⟨escape'', pattern'', hstep⟩ := searchStep_nil escape pattern hs <;>
        cases hstep
    · exact absurd hn (NextChar.next_ne_none hstart)
  | case7 pattern string stringStart escape maximumDistance escape' hs hd c stringStart' hn ih =>
    exact ih id

theorem eatWildcardsLoop_isSome (pattern : List CHAR) (numQuestionMarks : Num .int32)
    (hasAsterisk : Bool) : (eatWildcardsLoop N pattern numQuestionMarks hasAsterisk).isSome := by
  fun_induction eatWildcardsLoop N pattern numQuestionMarks hasAsterisk with
  | case1 => rfl
  | case2 numQuestionMarks hasAsterisk u s hq hn =>
    exact absurd hn (NextChar.next_ne_none (List.cons_ne_nil u s))
  | case3 _ _ _ _ _ _ _ _ ih => exact ih
  | case4 numQuestionMarks hasAsterisk u s hq ha hn =>
    exact absurd hn (NextChar.next_ne_none (List.cons_ne_nil u s))
  | case5 _ _ _ _ _ _ _ _ _ ih => exact ih
  | case6 => rfl

theorem matchPatternT_isSome (eval pattern : List CHAR) :
    (matchPatternT N eval pattern).isSome := by
  fun_induction matchPatternT N eval pattern with
  | case1 eval pattern he =>
    have hsome := eatWildcardsLoop_isSome (N := N) pattern 0 false
    rw [← eatWildcards, he] at hsome
    cases hsome
  | case2 eval pattern d pattern₁ he hs =>
    have hsome := searchForCharsLoop_isSome (N := N) pattern₁ pattern₁ eval eval false d id
    rw [← searchForChars, hs] at hsome
    cases hsome
  | case3 => rfl
  | case4 _ _ _ _ _ _ _ _ _ ih => exact ih
  | case5 => rfl

/-- The reader takes one character of the encoding form. -/
def NextChar.Reads (N : NextChar CHAR) (F : EncodingForm Char CHAR) : Prop :=
  ∀ c rest, N.next (F.encode c ++ rest) = some ((c.val.toNat : ℤ), rest)

theorem NextChar.Reads.chars_encodeAll {F : EncodingForm Char CHAR} (hN : N.Reads F)
    (cs : List Char) : N.chars (F.encodeAll cs) = cs.map fun c => (c.val.toNat : ℤ) := by
  induction cs with
  | nil => exact N.chars_nil
  | cons c cs ih =>
    have hn : N.next (F.encodeAll (c :: cs)) = some ((c.val.toNat : ℤ), F.encodeAll cs) :=
      hN c (F.encodeAll cs)
    rw [NextChar.chars_of_next hn, ih, List.map_cons]

theorem nextCharUtf8_reads : nextCharUtf8.Reads utf8Form := by
  intro c rest
  have hne : String.utf8EncodeChar c ++ rest ≠ [] :=
    List.append_ne_nil_of_left_ne_nil String.utf8EncodeChar_ne_nil rest
  obtain ⟨o, hn, hval⟩ := isNext_decodeNext hne
  obtain ⟨rfl, hlength⟩ := hn.unique (Next.char c (List.prefix_append _ rest))
  have hnext := cbu8Next_eq List.drop_zero hne
  rw [cbu8Result, hval, hlength, Nat.zero_add] at hnext
  change (cbu8Next (String.utf8EncodeChar c ++ rest) 0
    (String.utf8EncodeChar c ++ rest).length).map _ = _
  rw [hnext, Option.map_some]
  exact congrArg (fun t => some ((c.val.toNat : ℤ), t)) List.drop_left

/-- The macro decodes the first item of a scan. -/
theorem cbu16Next_eq {w : List UInt16} {c : Char} {n : ℕ} (h : Next16 w (some c) n) :
    cbu16Next w 0 w.length = some ((c.val.toNat : ℤ), n) := by
  cases h with
  | @single u w _ hc =>
    have hbounds := char_bounds c
    have hlead : ¬cbu16IsLead u.toNat := by
      rw [cbu16IsLead_iff]
      omega
    simp only [cbu16Next, List.getElem?_cons_zero, Option.bind_some,
      if_neg (fun h => hlead h.1 : ¬(cbu16IsLead u.toNat ∧ 0 + 1 ≠ (u :: w).length)), hc]
  | @pair u v w _ hu hv hc =>
    have hlead : cbu16IsLead u.toNat ∧ 0 + 1 ≠ (u :: v :: w).length :=
      ⟨(cbu16IsLead_iff u).mpr hu, by simp⟩
    have htrail : cbu16IsTrail v.toNat := (cbu16IsTrail_iff v).mpr hv
    have hcode := cbu16GetSupplementary_eq hu.1 hv.1
    simp only [cbu16Next, List.getElem?_cons_zero, Option.bind_some, if_pos hlead, Nat.zero_add,
      List.getElem?_cons_succ, if_pos htrail, hcode, hc]

theorem nextCharUtf16_reads : nextCharUtf16.Reads utf16Form := by
  intro c rest
  have hnext :=
    cbu16Next_eq (next16_some_iff.mpr ⟨List.prefix_append (utf16EncodeChar c) rest, rfl⟩)
  change (cbu16Next (utf16EncodeChar c ++ rest) 0 (utf16EncodeChar c ++ rest).length).map _ = _
  rw [hnext, Option.map_some]
  exact congrArg (fun t => some ((c.val.toNat : ℤ), t)) List.drop_left

/-- `MatchPattern` has an answer on well-formed byte strings, and the same one on their
conversions to UTF-16. -/
theorem matchPattern_eq_matchPattern16 {eval pattern : List UInt8} (he : WellFormed eval)
    (hp : WellFormed pattern) (helen : eval.length < 2 ^ 31) (hplen : pattern.length < 2 ^ 31) :
    ∃ eval16 pattern16 answer, utf8ToUtf16 eval [] = some (true, eval16) ∧
      utf8ToUtf16 pattern [] = some (true, pattern16) ∧
      matchPattern eval pattern = some answer ∧
      matchPattern16 eval16 pattern16 = some answer := by
  obtain ⟨cs, rfl⟩ := he
  obtain ⟨ps, rfl⟩ := hp
  have hthere : ∀ {cs : List Char}, (utf8Form.encodeAll cs).length < 2 ^ 31 →
      utf8ToUtf16 (utf8Form.encodeAll cs) [] = some (true, utf16Form.encodeAll cs) := by
    intro cs hlen
    have hscan := utf8ToUtf16_of_lt hlen (utf8Form.scans_encodeAll cs)
    rwa [all_isSome_map_some, outputText_map_some] at hscan
  obtain ⟨answer, hanswer⟩ := Option.isSome_iff_exists.mp
    (matchPatternT_isSome (N := nextCharUtf8) (utf8Form.encodeAll cs) (utf8Form.encodeAll ps))
  refine ⟨utf16Form.encodeAll cs, utf16Form.encodeAll ps, answer, hthere helen, hthere hplen,
    hanswer, ?_⟩
  rw [matchPattern16, ← matchPatternT_chars, nextCharUtf16_reads.chars_encodeAll,
    nextCharUtf16_reads.chars_encodeAll, ← nextCharUtf8_reads.chars_encodeAll,
    ← nextCharUtf8_reads.chars_encodeAll, matchPatternT_chars]
  exact hanswer

/-- A letter of two bytes, against a wildcard and a backslash with nothing after it. -/
theorem matchPattern_eq_matchPattern16_dangling :
    ∃ eval16 pattern16 answer, utf8ToUtf16 [0xC3, 0xA9] [] = some (true, eval16) ∧
      utf8ToUtf16 [0x3F, 0x5C] [] = some (true, pattern16) ∧
      matchPattern [0xC3, 0xA9] [0x3F, 0x5C] = some answer ∧
      matchPattern16 eval16 pattern16 = some answer :=
  matchPattern_eq_matchPattern16 ⟨['é'], rfl⟩ ⟨['?', '\\'], rfl⟩ (by decide) (by decide)

end MiniChromium
