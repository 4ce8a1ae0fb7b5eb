import MiniChromium.Pattern
import MiniChromium.Glob

/-!
# The search for the literals of one segment

A pattern is parsed into tokens, character by character. `SearchForChars` then searches
for the literals up to the next wildcard, with the `int` counter as its budget.
-/
namespace MiniChromium

open IntegralType MiniChromium.Num Glob

/-- A pattern character matches the same character; an ill-formed one matches nothing. -/
def CharMatches (a b : ℤ) : Prop := a = b ∧ a ≠ cbuSentinel

instance : DecidableRel CharMatches := fun _ _ => inferInstanceAs (Decidable (_ ∧ _))

/-- The tokens of a pattern, after a backslash or not. A backslash at the end has none. -/
def parsePattern : Bool → List ℤ → Option (List (Token ℤ))
  | false, [] => some []
  | true, [] => none
  | true, c :: cs => (parsePattern false cs).map (.lit c :: ·)
  | false, c :: cs =>
    if c = backslash then parsePattern true cs
    else if c = asterisk then (parsePattern false cs).map (.star :: ·)
    else if c = questionMark then (parsePattern false cs).map (.opt :: ·)
    else (parsePattern false cs).map (.lit c :: ·)

section Spec

variable {CHAR : Type} (N : NextChar CHAR)

/-- The characters of a string, one after another. -/
def NextChar.chars (s : List CHAR) : List ℤ :=
  match _hn : N.next s with
  | none => []
  | some (c, t) => c :: NextChar.chars t
termination_by s.length
decreasing_by exact (NextChar.suffix_of_next _hn).2

theorem NextChar.chars_nil : N.chars [] = [] := by
  rw [NextChar.chars, N.next_nil]

variable {N}

theorem NextChar.chars_of_next {s t : List CHAR} {c : ℤ} (h : N.next s = some (c, t)) :
    N.chars s = c :: N.chars t := by
  rw [NextChar.chars]
  split
  · next hn => rw [hn] at h; cases h
  · next hn =>
    obtain ⟨rfl, rfl⟩ := Prod.mk.inj (Option.some.inj (hn.symm.trans h))
    rfl

theorem NextChar.exists_next {s : List CHAR} (h : s ≠ []) : ∃ c t, N.next s = some (c, t) := by
  cases s with
  | nil => exact absurd rfl h
  | cons u s =>
    obtain ⟨c, t, hn, -⟩ := N.next_cons u s
    exact ⟨c, t, hn⟩

theorem NextChar.next_ne_none {s : List CHAR} (h : s ≠ []) : N.next s ≠ none := by
  obtain ⟨c, t, hn⟩ := NextChar.exists_next (N := N) h
  rw [hn]
  exact Option.some_ne_none _

theorem NextChar.chars_eq_nil_iff {s : List CHAR} : N.chars s = [] ↔ s = [] := by
  constructor
  · intro h
    by_contra hne
    obtain ⟨c, t, hn⟩ := NextChar.exists_next (N := N) hne
    rw [NextChar.chars_of_next hn] at h
    cases h
  · rintro rfl
    exact N.chars_nil

/-- The rest of the pattern, after a backslash or not, has these tokens. -/
def Parses (N : NextChar CHAR) (escape : Bool) (pattern : List CHAR) (ts : List (Token ℤ)) : Prop :=
  parsePattern escape (N.chars pattern) = some ts

theorem parses_nil_iff {ts : List (Token ℤ)} : Parses N false [] ts ↔ ts = [] := by
  rw [Parses, N.chars_nil, parsePattern, Option.some.injEq, eq_comm]

/-- The first character of a pattern decides its first token. -/
theorem parses_cons_iff {escape : Bool} {pattern t : List CHAR} {c : ℤ} {ts : List (Token ℤ)}
    (hn : N.next pattern = some (c, t)) : Parses N escape pattern ts ↔
      if escape then ∃ ts', Parses N false t ts' ∧ ts = .lit c :: ts'
      else if c = backslash then Parses N true t ts
      else ∃ ts', Parses N false t ts' ∧
        ts = (if c = asterisk then .star else if c = questionMark then .opt else .lit c) ::
          ts' := by
  unfold Parses
  rw [NextChar.chars_of_next hn]
  cases escape with
  | true => simp [parsePattern, eq_comm]
  | false =>
    simp only [parsePattern, Bool.false_eq_true, if_false]
    split_ifs <;> simp [eq_comm]

/-- After a backslash the next character is a literal. -/
theorem Parses.exists_of_escape {pattern : List CHAR} {ts : List (Token ℤ)}
    (h : Parses N true pattern ts) :
    ∃ c t ts', N.next pattern = some (c, t) ∧ Parses N false t ts' ∧ ts = .lit c :: ts' := by
  by_cases hne : pattern = []
  · subst hne
    rw [Parses, N.chars_nil] at h
    cases h
  · obtain ⟨c, t, hn⟩ := NextChar.exists_next (N := N) hne
    obtain ⟨ts', hts, rfl⟩ := (parses_cons_iff hn).mp h
    exact ⟨c, t, ts', hn, hts, rfl⟩

/-- A pattern with no tokens is at its end. -/
theorem Parses.eq_nil {escape : Bool} {pattern : List CHAR} (h : Parses N escape pattern []) :
    escape = false ∧ pattern = [] := by
  cases escape with
  | true =>
    obtain ⟨c, t, ts', -, -, hts⟩ := h.exists_of_escape
    cases hts
  | false =>
    refine ⟨rfl, ?_⟩
    by_contra hne
    obtain ⟨c, t, hn⟩ := NextChar.exists_next (N := N) hne
    have h := (parses_cons_iff hn).mp h
    simp only [Bool.false_eq_true, if_false] at h
    by_cases hc : c = backslash
    · rw [if_pos hc] at h
      obtain ⟨_, _, _, -, -, hts⟩ := h.exists_of_escape
      cases hts
    · rw [if_neg hc] at h
      obtain ⟨ts', -, hts⟩ := h
      cases hts

theorem unit_eq_iff_of_next {u : CHAR} {s t : List CHAR} {c : ℤ}
    (h : N.next (u :: s) = some (c, t)) :
    (N.unit u = backslash ↔ c = backslash) ∧ (N.unit u = asterisk ↔ c = asterisk) ∧
      (N.unit u = questionMark ↔ c = questionMark) :=
  ⟨N.unit_eq_iff h _ (by decide) (by decide), N.unit_eq_iff h _ (by decide) (by decide),
    N.unit_eq_iff h _ (by decide) (by decide)⟩

theorem isWildcard_iff {c : ℤ} : isWildcard c = true ↔ c = asterisk ∨ c = questionMark := by
  simp [isWildcard]

/-- Tokens that start with a wildcard are those of a pattern that does. -/
theorem Parses.headIsWildcard_iff {pattern : List CHAR} {ts : List (Token ℤ)}
    (h : Parses N false pattern ts) : HeadIsWildcard N pattern ↔ StartsWithWildcard ts := by
  cases pattern with
  | nil =>
    obtain rfl := parses_nil_iff.mp h
    rfl
  | cons u s =>
    obtain ⟨c, t, hn, -⟩ := N.next_cons u s
    obtain ⟨hb, ha, hq⟩ := unit_eq_iff_of_next hn
    have h := (parses_cons_iff hn).mp h
    simp only [Bool.false_eq_true, if_false] at h
    rw [HeadIsWildcard, isWildcard_iff, ha, hq]
    by_cases hcb : c = backslash
    · rw [if_pos hcb] at h
      obtain ⟨d, t', ts', -, -, rfl⟩ := h.exists_of_escape
      rw [hcb]
      exact iff_of_false (by decide) id
    · rw [if_neg hcb] at h
      obtain ⟨ts', -, rfl⟩ := h
      split_ifs with hca hcq
      · exact iff_of_true (.inl hca) trivial
      · exact iff_of_true (.inr hcq) trivial
      · exact iff_of_false (not_or.mpr ⟨hca, hcq⟩) id

/-- The state of a comparison: the literals and the characters still to be compared, when
all before them have matched. -/
def Compared (lits₀ : List ℤ) (w₀ : List ℤ) (lits w : List ℤ) : Prop :=
  ∃ done v, lits₀ = done ++ lits ∧ w₀ = v ++ w ∧ List.Forall₂ CharMatches done v

theorem Compared.refl (lits w : List ℤ) : Compared lits w lits w := ⟨[], [], rfl, rfl, .nil⟩

theorem Compared.step {lits₀ w₀ lits w : List ℤ} {a b : ℤ}
    (h : Compared lits₀ w₀ (a :: lits) (b :: w)) (hab : CharMatches a b) :
    Compared lits₀ w₀ lits w := by
  obtain ⟨done, v, rfl, rfl, hv⟩ := h
  exact ⟨done ++ [a], v ++ [b], by simp, by simp, List.rel_append hv (.cons hab .nil)⟩

theorem Compared.accept_eq {lits₀ w₀ lits w : List ℤ} (h : Compared lits₀ w₀ lits w)
    (last : Bool) : accept CharMatches lits₀ last w₀ = accept CharMatches lits last w := by
  obtain ⟨done, v, rfl, rfl, hv⟩ := h
  rw [accept, strip_append hv, accept]

theorem Compared.length_eq {lits₀ w₀ lits w : List ℤ} (h : Compared lits₀ w₀ lits w) :
    lits₀.length + w.length = lits.length + w₀.length := by
  obtain ⟨done, v, rfl, rfl, hv⟩ := h
  rw [List.length_append, List.length_append, hv.length_eq]
  omega

theorem Compared.ne_nil {lits₀ w₀ lits w : List ℤ} (h : Compared lits₀ w₀ lits w)
    (hw : w ≠ []) : w₀ ≠ [] := by
  obtain ⟨done, v, rfl, rfl, hv⟩ := h
  exact List.append_ne_nil_of_right_ne_nil v hw

/-- Where no literal comes next, no backslash came before. -/
theorem Parses.escape_eq_false {escape : Bool} {pattern : List CHAR} {ts : List (Token ℤ)}
    (h : Parses N escape pattern ts) (hts : ts = [] ∨ StartsWithWildcard ts) : escape = false := by
  cases escape with
  | false => rfl
  | true =>
    obtain ⟨_, _, _, -, -, rfl⟩ := h.exists_of_escape
    rcases hts with hts | hts
    · cases hts
    · exact hts.elim

/-- Where no wildcard and no backslash stops it, the step compares two characters. -/
theorem searchStep_of_compare {escape : Bool} {u : CHAR} {s t : List CHAR} {c : ℤ}
    (string : List CHAR) (hn : N.next (u :: s) = some (c, t))
    (h : escape = true ∨ ¬isWildcard (N.unit u) = true ∧ N.unit u ≠ backslash) :
    searchStep N escape (u :: s) string = if string.isEmpty then some .reject else
      (N.next string).map fun (d, string') =>
        if CharMatches c d then .advance false t string' else .mismatch false := by
  have hw : ¬(!escape && isWildcard (N.unit u)) = true := by
    rcases h with rfl | ⟨hw, -⟩ <;> simp [*]
  have hb : ¬(!escape && decide (N.unit u = backslash)) = true := by
    rcases h with rfl | ⟨-, hb⟩ <;> simp [*]
  rw [searchStep, if_neg hw, if_neg hb, hn]
  rfl

/-- What a step of the search does where the literals `lits` and then `tail` are left of
the pattern. -/
def StepSpec (N : NextChar CHAR) (lits : List ℤ) (tail : List (Token ℤ)) (string : List CHAR) :
    SearchStep CHAR → Prop
  | .accept => lits = [] ∧
      accept CharMatches [] tail.isEmpty (N.chars string) = some (N.chars string)
  | .reject => lits ≠ [] ∧ N.chars string = []
  | .advance escape pattern string' => ∃ lits', Parses N escape pattern (lits'.map .lit ++ tail) ∧
      ∀ lits₀ w₀, Compared lits₀ w₀ lits (N.chars string) →
        Compared lits₀ w₀ lits' (N.chars string')
  | .mismatch escape => escape = false ∧ N.chars string ≠ [] ∧
      accept CharMatches lits tail.isEmpty (N.chars string) = none

theorem searchStep_of_end {escape : Bool} {pattern : List CHAR} {tail : List (Token ℤ)}
    (string : List CHAR) (h : Parses N escape pattern tail)
    (htail : tail = [] ∨ StartsWithWildcard tail) :
    ∃ step, searchStep N escape pattern string = some step ∧ StepSpec N [] tail string step := by
  obtain rfl := h.escape_eq_false htail
  rcases htail with rfl | hw
  · obtain rfl := h.eq_nil.2
    by_cases hs : string = []
    · exact ⟨.accept, by simp [searchStep, hs], rfl, by simp [accept, strip, hs, N.chars_nil]⟩
    · have hchars := mt (NextChar.chars_eq_nil_iff (N := N)).mp hs
      exact ⟨.mismatch false, by simp [searchStep, hs], rfl, hchars, by simpa [accept, strip]⟩
  · have hhead := h.headIsWildcard_iff.mpr hw
    have htail : tail.isEmpty = false := by
      cases tail with
      | nil => exact hw.elim
      | cons => rfl
    cases pattern with
    | nil => exact hhead.elim
    | cons u s =>
      refine ⟨.accept, ?_, rfl, by simp [accept, strip, htail]⟩
      rw [searchStep]
      exact if_pos hhead

/-- Where a literal comes next, the pattern is at a backslash before it or at the literal. -/
theorem Parses.lit_cases {escape : Bool} {u : CHAR} {s t : List CHAR} {c a : ℤ}
    {ts : List (Token ℤ)} (h : Parses N escape (u :: s) (.lit a :: ts))
    (hn : N.next (u :: s) = some (c, t)) :
    (escape = false ∧ c = backslash ∧ Parses N true t (.lit a :: ts)) ∨
    ((escape = true ∨ ¬isWildcard (N.unit u) = true ∧ N.unit u ≠ backslash) ∧
      c = a ∧ Parses N false t ts) := by
  obtain ⟨hb, ha, hq⟩ := unit_eq_iff_of_next hn
  have hp := (parses_cons_iff hn).mp h
  cases escape with
  | true =>
    obtain ⟨ts', hts, heq⟩ := hp
    obtain ⟨hac, rfl⟩ := List.cons.inj heq
    exact .inr ⟨.inl rfl, (Token.lit.inj hac).symm, hts⟩
  | false =>
    simp only [Bool.false_eq_true, if_false] at hp
    by_cases hcb : c = backslash
    · rw [if_pos hcb] at hp
      exact .inl ⟨rfl, hcb, hp⟩
    · rw [if_neg hcb] at hp
      obtain ⟨ts', hts, heq⟩ := hp
      obtain ⟨hac, rfl⟩ := List.cons.inj heq
      split_ifs at hac with hca hcq
      have hw : ¬isWildcard (N.unit u) = true := by
        rw [isWildcard_iff, ha, hq]
        exact not_or.mpr ⟨hca, hcq⟩
      exact .inr ⟨.inr ⟨hw, mt hb.mp hcb⟩, (Token.lit.inj hac).symm, hts⟩

/-- At a backslash the step moves on to the escaped character. -/
theorem searchStep_of_backslash {u : CHAR} {s t : List CHAR} (string : List CHAR)
    (hn : N.next (u :: s) = some (backslash, t)) :
    searchStep N false (u :: s) string = some (.advance true t string) := by
  have hu := (unit_eq_iff_of_next hn).1.mpr rfl
  have hw : isWildcard backslash = false := by decide
  simp [searchStep, hu, hw, hn]

theorem searchStep_of_literal {escape : Bool} {pattern : List CHAR} {a : ℤ} {lits : List ℤ}
    {tail : List (Token ℤ)} (string : List CHAR)
    (h : Parses N escape pattern (.lit a :: (lits.map .lit ++ tail))) :
    ∃ step, searchStep N escape pattern string = some step ∧
      StepSpec N (a :: lits) tail string step := by
  cases pattern with
  | nil =>
    cases escape with
    | true =>
      obtain ⟨_, _, _, hn, -, -⟩ := h.exists_of_escape
      rw [N.next_nil] at hn
      cases hn
    | false => cases parses_nil_iff.mp h
  | cons u s =>
    obtain ⟨c, t, hn, -⟩ := N.next_cons u s
    rcases h.lit_cases hn with ⟨rfl, rfl, hp⟩ | ⟨hguard, rfl, hts⟩
    · exact ⟨_, searchStep_of_backslash string hn, a :: lits, hp, fun _ _ hc => hc⟩
    · rw [searchStep_of_compare string hn hguard]
      by_cases hs : string = []
      · exact ⟨.reject, by simp [hs], List.cons_ne_nil _ _, hs ▸ N.chars_nil⟩
      · obtain ⟨d, string', hd⟩ := NextChar.exists_next (N := N) hs
        have hchars := NextChar.chars_of_next hd
        rw [if_neg (by simpa using hs), hd]
        refine ⟨_, rfl, ?_⟩
        dsimp only
        split_ifs with hcd
        · refine ⟨lits, hts, fun lits₀ w₀ hc => ?_⟩
          rw [hchars] at hc
          exact hc.step hcd
        · refine ⟨rfl, mt NextChar.chars_eq_nil_iff.mp hs, ?_⟩
          rw [hchars, accept, strip, if_neg hcd]
          rfl

/-- A step of the search always returns, and does what it should. -/
theorem searchStep_spec {escape : Bool} {pattern : List CHAR} {lits : List ℤ}
    {tail : List (Token ℤ)} (string : List CHAR)
    (h : Parses N escape pattern (lits.map .lit ++ tail))
    (htail : tail = [] ∨ StartsWithWildcard tail) :
    ∃ step, searchStep N escape pattern string = some step ∧
      StepSpec N lits tail string step := by
  cases lits with
  | nil => exact searchStep_of_end string h htail
  | cons a lits => exact searchStep_of_literal string h

theorem stepSpec_of_searchStep {escape : Bool} {pattern string : List CHAR} {lits : List ℤ}
    {tail : List (Token ℤ)} {step : SearchStep CHAR}
    (hs : searchStep N escape pattern string = some step)
    (h : Parses N escape pattern (lits.map .lit ++ tail))
    (htail : tail = [] ∨ StartsWithWildcard tail) : StepSpec N lits tail string step := by
  obtain ⟨step', hstep, hspec⟩ := searchStep_spec string h htail
  obtain rfl := Option.some.inj (hs.symm.trans hstep)
  exact hspec

/-- How often the counter can be decremented before it reaches zero. -/
def distanceBudget (maximumDistance : Num .int32) : ℕ := (maximumDistance.val % 2 ^ 32).toNat

theorem distanceBudget_eq_zero_iff (d : Num .int32) : distanceBudget d = 0 ↔ d.val = 0 := by
  have hlow := d.lowest_le
  have hmax := d.le_max
  rw [show IntegralType.int32.lowest = -2 ^ 31 from rfl] at hlow
  rw [show IntegralType.int32.max = 2 ^ 31 - 1 from rfl] at hmax
  unfold distanceBudget
  omega

theorem distanceBudget_staticCast (z : ℤ) :
    distanceBudget (staticCast .int32 z) = (z % 2 ^ 32).toNat := by
  have h : (staticCast .int32 z).val % 2 ^ 32 = z % 2 ^ 32 := staticCast_modEq .int32 z
  rw [distanceBudget, h]

theorem distanceBudget_pred {d : Num .int32} (h : d.val ≠ 0) :
    distanceBudget d = distanceBudget (staticCast .int32 (d.val - 1)) + 1 := by
  have hd := mt (distanceBudget_eq_zero_iff d).mp h
  rw [distanceBudget_staticCast]
  unfold distanceBudget at hd ⊢
  omega

/-- What the search returns: whether the literals of the segment are found within the
budget, and if so the pattern and the string after them. -/
def SearchSpec (N : NextChar CHAR) (tail : List (Token ℤ)) (found : Option (List ℤ))
    (result : Option (Bool × List CHAR × List CHAR)) : Prop :=
  ∃ b pattern string, result = some (b, pattern, string) ∧
    match found with
    | some rest => b = true ∧ Parses N false pattern tail ∧ N.chars string = rest
    | none => b = false

/-- The invariant of the loop is that all literals before `lits` have matched since
`stringStart`; a mismatch moves `stringStart` on by one character. -/
theorem searchForCharsLoop_spec {patternStart pattern string stringStart : List CHAR}
    {escape : Bool} {maximumDistance : Num .int32} {lits₀ lits : List ℤ} {tail : List (Token ℤ)}
    (htail : tail = [] ∨ StartsWithWildcard tail)
    (hstart : Parses N false patternStart (lits₀.map .lit ++ tail))
    (h : Parses N escape pattern (lits.map .lit ++ tail))
    (hc : Compared lits₀ (N.chars stringStart) lits (N.chars string)) :
    SearchSpec N tail
      (find CharMatches lits₀ tail.isEmpty (distanceBudget maximumDistance) (N.chars stringStart))
      (searchForCharsLoop N patternStart pattern string stringStart escape maximumDistance) := by
  fun_induction searchForCharsLoop N patternStart pattern string stringStart escape
    maximumDistance generalizing lits with
  | case1 pattern string stringStart escape maximumDistance hs =>
    obtain ⟨step, hstep, -⟩ := searchStep_spec string h htail
    rw [hs] at hstep
    cases hstep
  | case2 pattern string stringStart escape maximumDistance hs =>
    obtain ⟨rfl, haccept⟩ := stepSpec_of_searchStep hs h htail
    rw [← hc.accept_eq] at haccept
    rw [find_of_accept _ haccept]
    obtain rfl := h.escape_eq_false htail
    exact ⟨_, _, _, rfl, rfl, h, rfl⟩
  | case3 pattern string stringStart escape maximumDistance hs =>
    obtain ⟨hne, hnil⟩ := stepSpec_of_searchStep hs h htail
    have hlen := hc.length_eq
    have hpos := List.length_pos_of_ne_nil hne
    rw [hnil, List.length_nil] at hlen
    rw [find_eq_none_of_length_lt (by omega)]
    exact ⟨_, _, _, rfl, rfl⟩
  | case4 pattern string stringStart escape maximumDistance escape' pattern' string' hs ih =>
    obtain ⟨lits', hp, hcompared⟩ := stepSpec_of_searchStep hs h htail
    exact ih hp (hcompared _ _ hc)
  | case5 pattern string stringStart escape maximumDistance escape' hs hd =>
    obtain ⟨-, -, hmismatch⟩ := stepSpec_of_searchStep hs h htail
    rw [(distanceBudget_eq_zero_iff _).mpr hd, find_zero, hc.accept_eq, hmismatch]
    exact ⟨_, _, _, rfl, rfl⟩
  | case6 pattern string stringStart escape maximumDistance escape' hs hd hn =>
    obtain ⟨-, hne, -⟩ := stepSpec_of_searchStep hs h htail
    exact absurd hn (NextChar.next_ne_none (mt NextChar.chars_eq_nil_iff.mpr (hc.ne_nil hne)))
  | case7 pattern string stringStart escape maximumDistance escape' hs hd c stringStart' hn ih =>
    obtain ⟨rfl, -, hmismatch⟩ := stepSpec_of_searchStep hs h htail
    rw [← hc.accept_eq, NextChar.chars_of_next hn] at hmismatch
    rw [NextChar.chars_of_next hn, distanceBudget_pred hd, find_succ_of_accept_eq_none _ hmismatch]
    exact ih hstart (Compared.refl _ _)

theorem searchForChars_spec {pattern string : List CHAR} {maximumDistance : Num .int32}
    {lits : List ℤ} {tail : List (Token ℤ)} (htail : tail = [] ∨ StartsWithWildcard tail)
    (h : Parses N false pattern (lits.map .lit ++ tail)) :
    SearchSpec N tail
      (find CharMatches lits tail.isEmpty (distanceBudget maximumDistance) (N.chars string))
      (searchForChars N pattern string maximumDistance) :=
  searchForCharsLoop_spec htail h h (Compared.refl _ _)

end Spec

end MiniChromium
