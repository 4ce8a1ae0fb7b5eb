import MiniChromium.IcuUtf
import MiniChromium.IntegralType

/-!
# Matching strings against patterns

`MatchPattern` and its loops. A `CHAR` pointer with its end is the list of the units
between them, and a pointer moved along is a suffix of that list. `int` is in two's
complement. A read at the end of a string has no result.
-/
namespace MiniChromium

open IntegralType MiniChromium.Num

/-- The template parameters `CHAR` and `NEXT`: a unit as a number, and the character at
the start of a string with what follows it. -/
structure NextChar (CHAR : Type) where
  /-- A unit where it is compared with an ASCII character; the signedness of `char`
  makes no difference there. -/
  unit : CHAR → ℤ
  next : List CHAR → Option (ℤ × List CHAR)
  next_nil : next [] = none
  next_cons : ∀ u s, ∃ c t, next (u :: s) = some (c, t) ∧ t <:+ s
  unit_eq_iff : ∀ {u s c t}, next (u :: s) = some (c, t) →
    ∀ a : ℤ, 0 ≤ a → a < 0x80 → (unit u = a ↔ c = a)

theorem cbu8Next_isSome (u : UInt8) (s : List UInt8) :
    (cbu8Next (u :: s) 0 (u :: s).length).isSome := by
  rw [cbu8Next_eq List.drop_zero (List.cons_ne_nil u s)]
  rfl

theorem cbu16Next_isSome (u : UInt16) (s : List UInt16) :
    (cbu16Next (u :: s) 0 (u :: s).length).isSome := by
  unfold cbu16Next
  simp only [List.getElem?_cons_zero, Option.bind_some]
  split_ifs with h
  · cases s with
    | nil => exact absurd rfl h.2
    | cons v s => simp only [Nat.zero_add, List.getElem?_cons_succ, List.getElem?_cons_zero,
        Option.bind_some]; split_ifs <;> rfl
  · rfl

/-- The character of an ASCII unit is the unit, and no other unit has an ASCII character. -/
theorem cbu8Next_eq_ascii {u : UInt8} {s : List UInt8} {p : ℤ × ℕ}
    (h : cbu8Next (u :: s) 0 (u :: s).length = some p) {a : ℤ} (h0 : 0 ≤ a) (ha : a < 0x80) :
    (u.toNat : ℤ) = a ↔ p.1 = a := by
  rw [cbu8Next_eq List.drop_zero (List.cons_ne_nil u s)] at h
  obtain rfl := Option.some.inj h
  have hnext := Unicode.isNext_decodeNext (List.cons_ne_nil u s)
  unfold cbu8Result
  cases hv : (Unicode.decodeNext (u :: s)).1 with
  | none =>
    have hu : ¬u.toNat < 0x80 := fun hu => by simp [Unicode.decodeNext, hu] at hv
    simp only [Option.elim_none, cbuSentinel]
    omega
  | some v =>
    have hascii := hnext.ascii hv
    simp only [Option.elim_some]
    omega

theorem cbu16Next_eq_ascii {u : UInt16} {s : List UInt16} {length : ℕ} {p : ℤ × ℕ}
    (h : cbu16Next (u :: s) 0 length = some p) {a : ℤ} (ha : a < 0x80) :
    (u.toNat : ℤ) = a ↔ p.1 = a := by
  unfold cbu16Next at h
  simp only [List.getElem?_cons_zero, Option.bind_some] at h
  split_ifs at h with hl
  · obtain ⟨v, -, h⟩ := Option.bind_eq_some_iff.mp h
    split_ifs at h with ht
    · obtain rfl := Option.some.inj h
      have hlead := le_of_cbu16IsLead hl.1
      have hsup := le_cbu16GetSupplementary hl.1 ht
      dsimp only
      omega
    · obtain rfl := Option.some.inj h
      rfl
  · obtain rfl := Option.some.inj h
    rfl

/-- `NextCharUTF8`. -/
def nextCharUtf8 : NextChar UInt8 where
  unit u := u.toNat
  next p := (cbu8Next p 0 p.length).map fun (c, offset) => (c, p.drop offset)
  next_nil := rfl
  next_cons u s := by
    obtain ⟨⟨c, offset⟩, h⟩ := Option.isSome_iff_exists.mp (cbu8Next_isSome u s)
    have hpos := (cbu8Next_within (u :: s) (Nat.succ_pos _) _ h).1
    obtain ⟨n, rfl⟩ : ∃ n, offset = n + 1 := ⟨offset - 1, by dsimp only at hpos; omega⟩
    exact ⟨c, s.drop n, by rw [h]; rfl, List.drop_suffix n s⟩
  unit_eq_iff h a h0 ha := by
    obtain ⟨⟨c, offset⟩, hp, hc⟩ := Option.map_eq_some_iff.mp h
    obtain ⟨rfl, -⟩ := Prod.mk.inj hc
    exact cbu8Next_eq_ascii hp h0 ha

/-- `NextCharUTF16`. -/
def nextCharUtf16 : NextChar UInt16 where
  unit u := u.toNat
  next p := (cbu16Next p 0 p.length).map fun (c, offset) => (c, p.drop offset)
  next_nil := rfl
  next_cons u s := by
    obtain ⟨⟨c, offset⟩, h⟩ := Option.isSome_iff_exists.mp (cbu16Next_isSome u s)
    have hpos := (cbu16Next_within (u :: s) (Nat.succ_pos _) _ h).1
    obtain ⟨n, rfl⟩ : ∃ n, offset = n + 1 := ⟨offset - 1, by dsimp only at hpos; omega⟩
    exact ⟨c, s.drop n, by rw [h]; rfl, List.drop_suffix n s⟩
  unit_eq_iff h a _ ha := by
    obtain ⟨⟨c, offset⟩, hp, hc⟩ := Option.map_eq_some_iff.mp h
    obtain ⟨rfl, -⟩ := Prod.mk.inj hc
    exact cbu16Next_eq_ascii hp ha

variable {CHAR : Type} (N : NextChar CHAR)

def asterisk : ℤ := 0x2A

def questionMark : ℤ := 0x3F

def backslash : ℤ := 0x5C

/-- `IsWildcard`. -/
def isWildcard (character : ℤ) : Bool := character = asterisk || character = questionMark

/-- How the body of the loop in `SearchForChars` ends: with a return, with `continue`,
or in the mismatch case. -/
inductive SearchStep (CHAR : Type)
  | accept
  | reject
  | advance (escape : Bool) (pattern string : List CHAR)
  | mismatch (escape : Bool)

/-- The body of the loop in `SearchForChars`, up to the mismatch case. -/
def searchStep (escape : Bool) (pattern string : List CHAR) : Option (SearchStep CHAR) :=
  match pattern with
  | [] => some (if string.isEmpty then .accept else .mismatch escape)
  | u :: _ =>
    if !escape && isWildcard (N.unit u) then some .accept
    else if !escape && N.unit u = backslash then
      (N.next pattern).map fun (_, patternNext) => .advance true patternNext string
    else if string.isEmpty then some .reject
    else
      (N.next pattern).bind fun (patternChar, patternNext) =>
        (N.next string).map fun (stringChar, stringNext) =>
          if patternChar = stringChar ∧ patternChar ≠ cbuSentinel then
            .advance false patternNext stringNext
          else .mismatch false

variable {N} in
theorem NextChar.suffix_of_next {s t : List CHAR} {c : ℤ} (h : N.next s = some (c, t)) :
    t <:+ s ∧ t.length < s.length := by
  cases s with
  | nil => rw [N.next_nil] at h; cases h
  | cons u s =>
    obtain ⟨c', t', h', hs⟩ := N.next_cons u s
    obtain ⟨-, rfl⟩ := Prod.mk.inj (Option.some.inj (h.symm.trans h'))
    exact ⟨hs.trans (List.suffix_cons u s), Nat.lt_succ_of_le hs.length_le⟩

variable {N} in
/-- A step that continues has moved along the pattern. -/
theorem searchStep_advance {escape escape' : Bool} {pattern string pattern' string' : List CHAR}
    (h : searchStep N escape pattern string = some (.advance escape' pattern' string')) :
    pattern' <:+ pattern ∧ pattern'.length < pattern.length := by
  cases pattern with
  | nil => unfold searchStep at h; split_ifs at h <;> cases h
  | cons u pattern =>
    unfold searchStep at h
    dsimp only at h
    split_ifs at h
    · cases h
    · obtain ⟨⟨c, t⟩, hn, hs⟩ := Option.map_eq_some_iff.mp h
      cases hs
      exact NextChar.suffix_of_next hn
    · cases h
    · obtain ⟨⟨c, t⟩, hn, hs⟩ := Option.bind_eq_some_iff.mp h
      obtain ⟨⟨c', t'⟩, -, hs⟩ := Option.map_eq_some_iff.mp hs
      dsimp only at hs
      split_ifs at hs
      cases hs
      exact NextChar.suffix_of_next hn

/-- The loop of `SearchForChars`: what it returns, `*pattern` and `*string`. -/
def searchForCharsLoop (patternStart pattern string stringStart : List CHAR) (escape : Bool)
    (maximumDistance : Num .int32) : Option (Bool × List CHAR × List CHAR) :=
  match _hs : searchStep N escape pattern string with
  | none => none
  | some .accept => some (true, pattern, string)
  | some .reject => some (false, pattern, string)
  | some (.advance escape pattern string) =>
    searchForCharsLoop patternStart pattern string stringStart escape maximumDistance
  | some (.mismatch escape) =>
    if maximumDistance.val = 0 then some (false, pattern, string)
    else
      match _hn : N.next stringStart with
      | none => none
      | some (_, stringStart) =>
        searchForCharsLoop patternStart patternStart stringStart stringStart escape
          (staticCast .int32 (maximumDistance.val - 1))
termination_by (stringStart.length, pattern.length)
decreasing_by
  · exact Prod.Lex.right _ (searchStep_advance _hs).2
  · exact Prod.Lex.left _ _ (NextChar.suffix_of_next _hn).2

/-- `SearchForChars`. -/
def searchForChars (pattern string : List CHAR) (maximumDistance : Num .int32) :
    Option (Bool × List CHAR × List CHAR) :=
  searchForCharsLoop N pattern pattern string string false maximumDistance

/-- The loop of `EatWildcards`. -/
def eatWildcardsLoop (pattern : List CHAR) (numQuestionMarks : Num .int32) (hasAsterisk : Bool) :
    Option (Num .int32 × List CHAR) :=
  match pattern with
  | [] => some (if hasAsterisk then staticCast .int32 (-1) else numQuestionMarks, [])
  | u :: s =>
    if N.unit u = questionMark then
      match _hn : N.next (u :: s) with
      | none => none
      | some (_, t) =>
        eatWildcardsLoop t (staticCast .int32 (numQuestionMarks.val + 1)) hasAsterisk
    else if N.unit u = asterisk then
      match _hn : N.next (u :: s) with
      | none => none
      | some (_, t) => eatWildcardsLoop t numQuestionMarks true
    else some (if hasAsterisk then staticCast .int32 (-1) else numQuestionMarks, u :: s)
termination_by pattern.length
decreasing_by all_goals exact (NextChar.suffix_of_next _hn).2

/-- `EatWildcards`: what it returns, and `*pattern`. -/
def eatWildcards (pattern : List CHAR) : Option (Num .int32 × List CHAR) :=
  eatWildcardsLoop N pattern 0 false

/-- The pattern goes on with an unescaped wildcard. -/
def HeadIsWildcard : List CHAR → Prop
  | [] => False
  | u :: _ => isWildcard (N.unit u) = true

section Progress

variable {N}

theorem searchStep_accept {escape : Bool} {pattern string : List CHAR}
    (h : searchStep N escape pattern string = some .accept) :
    pattern = [] ∨ HeadIsWildcard N pattern := by
  cases pattern with
  | nil => exact .inl rfl
  | cons u pattern =>
    unfold searchStep at h
    dsimp only at h
    split_ifs at h with hw
    · exact .inr (Bool.and_eq_true_iff.mp hw).2
    · obtain ⟨_, -, hs⟩ := Option.map_eq_some_iff.mp h
      cases hs
    · cases h
    · obtain ⟨_, -, hs⟩ := Option.bind_eq_some_iff.mp h
      obtain ⟨_, -, hs⟩ := Option.map_eq_some_iff.mp hs
      split_ifs at hs

/-- The loop, by its next step. -/
theorem searchForCharsLoop_eq (patternStart pattern string stringStart : List CHAR)
    (escape : Bool) (maximumDistance : Num .int32) :
    searchForCharsLoop N patternStart pattern string stringStart escape maximumDistance =
      (searchStep N escape pattern string).bind fun
        | .accept => some (true, pattern, string)
        | .reject => some (false, pattern, string)
        | .advance escape pattern string =>
          searchForCharsLoop N patternStart pattern string stringStart escape maximumDistance
        | .mismatch escape =>
          if maximumDistance.val = 0 then some (false, pattern, string)
          else (N.next stringStart).bind fun (_, stringStart) =>
            searchForCharsLoop N patternStart patternStart stringStart stringStart escape
              (staticCast .int32 (maximumDistance.val - 1)) := by
  rw [searchForCharsLoop]
  split
  · next hs => rw [hs, Option.bind_none]
  · next hs => rw [hs, Option.bind_some]
  · next hs => rw [hs, Option.bind_some]
  · next hs => rw [hs, Option.bind_some]
  · next hs =>
    rw [hs, Option.bind_some]
    dsimp only
    split_ifs
    · rfl
    · split
      · next hn => rw [hn, Option.bind_none]
      · next hn => rw [hn, Option.bind_some]

/-- A successful search leaves the pattern at its end or at a wildcard. -/
theorem searchForCharsLoop_true {patternStart pattern string stringStart : List CHAR}
    {pattern' string' : List CHAR} {escape : Bool} {maximumDistance : Num .int32}
    (hp : pattern <:+ patternStart)
    (h : searchForCharsLoop N patternStart pattern string stringStart escape maximumDistance =
      some (true, pattern', string')) :
    pattern' <:+ patternStart ∧ (pattern' = [] ∨ HeadIsWildcard N pattern') := by
  fun_induction searchForCharsLoop N patternStart pattern string stringStart escape
    maximumDistance with
  | case1 => cases h
  | case2 pattern string stringStart escape maximumDistance hs =>
    cases h
    exact ⟨hp, searchStep_accept hs⟩
  | case3 => cases h
  | case4 pattern string stringStart escape maximumDistance escape' pattern' string' hs ih =>
    exact ih ((searchStep_advance hs).1.trans hp) h
  | case5 => cases h
  | case6 => cases h
  | case7 pattern string stringStart escape maximumDistance escape' hs hd c stringStart' hn ih =>
    exact ih (List.suffix_refl _) h

theorem searchForChars_true {pattern string pattern' string' : List CHAR}
    {maximumDistance : Num .int32}
    (h : searchForChars N pattern string maximumDistance = some (true, pattern', string')) :
    pattern' <:+ pattern ∧ (pattern' = [] ∨ HeadIsWildcard N pattern') :=
  searchForCharsLoop_true (List.suffix_refl _) h

theorem eatWildcardsLoop_suffix {pattern pattern' : List CHAR} {numQuestionMarks d : Num .int32}
    {hasAsterisk : Bool}
    (h : eatWildcardsLoop N pattern numQuestionMarks hasAsterisk = some (d, pattern')) :
    pattern' <:+ pattern ∧ ¬HeadIsWildcard N pattern' := by
  fun_induction eatWildcardsLoop N pattern numQuestionMarks hasAsterisk with
  | case1 =>
    cases h
    exact ⟨List.suffix_refl _, id⟩
  | case2 => cases h
  | case3 _ _ _ _ _ _ _ hn ih =>
    exact ⟨(ih h).1.trans (NextChar.suffix_of_next hn).1, (ih h).2⟩
  | case4 => cases h
  | case5 _ _ _ _ _ _ _ _ hn ih =>
    exact ⟨(ih h).1.trans (NextChar.suffix_of_next hn).1, (ih h).2⟩
  | case6 u s _ _ hq ha =>
    cases h
    refine ⟨List.suffix_refl _, ?_⟩
    simp only [HeadIsWildcard, isWildcard, Bool.or_eq_true, decide_eq_true_eq, not_or]
    exact ⟨ha, hq⟩

/-- Each round of `MatchPatternT` but the last consumes a part of the pattern. -/
theorem length_lt_of_round {pattern pattern₁ pattern₂ eval eval₂ : List CHAR} {d : Num .int32}
    (he : eatWildcards N pattern = some (d, pattern₁))
    (hs : searchForChars N pattern₁ eval d = some (true, pattern₂, eval₂)) (hne : pattern₂ ≠ []) :
    pattern₂.length < pattern.length := by
  obtain ⟨h₁, hhead⟩ := eatWildcardsLoop_suffix he
  obtain ⟨h₂, hend⟩ := searchForChars_true hs
  have hw := hend.resolve_left hne
  by_contra hlen
  have heq : pattern₂ = pattern₁ := by
    refine h₂.eq_of_length_le ?_
    have := h₁.length_le
    omega
  exact hhead (heq ▸ hw)

end Progress

/-- `MatchPatternT`. -/
def matchPatternT (eval pattern : List CHAR) : Option Bool :=
  match _he : eatWildcards N pattern with
  | none => none
  | some (maximumWildcardLength, pattern₁) =>
    match _hs : searchForChars N pattern₁ eval maximumWildcardLength with
    | none => none
    | some (false, _) => some false
    | some (true, pattern₂, eval) =>
      if _hne : pattern₂ ≠ [] then matchPatternT eval pattern₂ else some true
termination_by pattern.length
decreasing_by exact length_lt_of_round _he _hs _hne

/-- `MatchPattern` on byte strings. -/
def matchPattern (eval pattern : List UInt8) : Option Bool :=
  matchPatternT nextCharUtf8 eval pattern

/-- `MatchPattern` on strings of 16-bit units. -/
def matchPattern16 (eval pattern : List UInt16) : Option Bool :=
  matchPatternT nextCharUtf16 eval pattern

end MiniChromium
