import MiniChromium.PatternSearch

/-!
# The retries of the search

`SearchForChars` makes one attempt after another, each from the start of the pattern and one
character further on in the string. The flag `escape` is declared outside the loop. A mismatch
at the end of a pattern whose last character is a backslash leaves it set, and the next attempt
then starts as if a backslash stood before the pattern.
-/
namespace MiniChromium

open IntegralType MiniChromium.Num Glob

/-- What ends a segment: an unescaped wildcard, the end of the pattern, or that end with a
backslash before it. -/
inductive SegmentEnd
  | wildcard | done | dangling
  deriving DecidableEq

/-- The literals up to the end of the segment, after a backslash or not. -/
def segment : Bool → List ℤ → List ℤ × SegmentEnd
  | false, [] => ([], .done)
  | true, [] => ([], .dangling)
  | true, c :: cs => (c :: (segment false cs).1, (segment false cs).2)
  | false, c :: cs =>
    if isWildcard c then ([], .wildcard)
    else if c = backslash then segment true cs
    else (c :: (segment false cs).1, (segment false cs).2)

section Attempts

variable {CHAR : Type} (N : NextChar CHAR)

/-- How the attempt that goes on ends: the last step, with `*pattern` and `*string` before it. -/
def attempt (escape : Bool) (pattern string : List CHAR) :
    Option (SearchStep CHAR × List CHAR × List CHAR) :=
  match _hs : searchStep N escape pattern string with
  | none => none
  | some (.advance escape pattern string) => attempt escape pattern string
  | some .accept => some (.accept, pattern, string)
  | some .reject => some (.reject, pattern, string)
  | some (.mismatch escape) => some (.mismatch escape, pattern, string)
termination_by pattern.length
decreasing_by exact (searchStep_advance _hs).2

/-- The attempts that the loop of `SearchForChars` makes again: the flag and `*string` with which
each of them starts. -/
def retriesLoop (patternStart pattern string stringStart : List CHAR) (escape : Bool)
    (maximumDistance : Num .int32) : List (Bool × List CHAR) :=
  match _hs : searchStep N escape pattern string with
  | some (.advance escape pattern string) =>
    retriesLoop patternStart pattern string stringStart escape maximumDistance
  | some (.mismatch escape) =>
    if maximumDistance.val = 0 then []
    else
      match _hn : N.next stringStart with
      | none => []
      | some (_, stringStart) =>
        (escape, stringStart) :: retriesLoop patternStart patternStart stringStart stringStart
          escape (staticCast .int32 (maximumDistance.val - 1))
  | _ => []
termination_by (stringStart.length, pattern.length)
decreasing_by
  · exact Prod.Lex.right _ (searchStep_advance _hs).2
  · exact Prod.Lex.left _ _ (NextChar.suffix_of_next _hn).2

/-- The retries of `SearchForChars`. -/
def retries (pattern string : List CHAR) (maximumDistance : Num .int32) :
    List (Bool × List CHAR) :=
  retriesLoop N pattern pattern string string false maximumDistance

/-- The string after so many characters, if it has them. -/
def skip : ℕ → List CHAR → Option (List CHAR)
  | 0, string => some string
  | k + 1, string => (N.next string).bind fun (_, string) => skip k string

end Attempts

section Loop

variable {CHAR : Type} {N : NextChar CHAR} {escape escape' : Bool}
  {pattern string pattern' string' patternStart stringStart start : List CHAR}
  {maximumDistance : Num .int32} {step : SearchStep CHAR}

theorem retriesLoop_eq :
    retriesLoop N patternStart pattern string stringStart escape maximumDistance =
      match searchStep N escape pattern string with
      | some (.advance escape pattern string) =>
        retriesLoop N patternStart pattern string stringStart escape maximumDistance
      | some (.mismatch escape) =>
        if maximumDistance.val = 0 then []
        else (N.next stringStart).elim [] fun (_, stringStart) =>
          (escape, stringStart) :: retriesLoop N patternStart patternStart stringStart stringStart
            escape (staticCast .int32 (maximumDistance.val - 1))
      | _ => [] := by
  rw [retriesLoop]
  split
  · next hs => rw [hs]
  · next hs =>
    rw [hs]
    dsimp only
    split_ifs
    · rfl
    · split
      · next hn => rw [hn, Option.elim_none]
      · next hn => rw [hn, Option.elim_some]
  · next hadvance hmismatch =>
    split
    · next hs => exact absurd hs (hadvance _ _ _)
    · next hs => exact absurd hs (hmismatch _)
    · rfl

theorem attempt_eq : attempt N escape pattern string =
    (searchStep N escape pattern string).bind fun step =>
      match step with
      | .advance escape pattern string => attempt N escape pattern string
      | step => some (step, pattern, string) := by
  rw [attempt]
  split
  · next hs => rw [hs, Option.bind_none]
  · next hs => rw [hs, Option.bind_some]
  · next hs => rw [hs, Option.bind_some]
  · next hs => rw [hs, Option.bind_some]
  · next hs => rw [hs, Option.bind_some]

/-- The loop of `SearchForChars` by attempts. -/
theorem searchForCharsLoop_eq_attempt :
    searchForCharsLoop N patternStart pattern string stringStart escape maximumDistance =
      (attempt N escape pattern string).bind fun (step, pattern, string) =>
        match step with
        | .accept => some (true, pattern, string)
        | .mismatch escape =>
          if maximumDistance.val = 0 then some (false, pattern, string)
          else (N.next stringStart).bind fun (_, stringStart) =>
            searchForCharsLoop N patternStart patternStart stringStart stringStart escape
              (staticCast .int32 (maximumDistance.val - 1))
        | _ => some (false, pattern, string) := by
  fun_induction attempt N escape pattern string with
  | case1 escape pattern string hs => rw [searchForCharsLoop_eq, hs]; rfl
  | case2 escape pattern string escape' pattern' string' hs ih =>
    rw [searchForCharsLoop_eq, hs]
    exact ih
  | case3 escape pattern string hs => rw [searchForCharsLoop_eq, hs]; rfl
  | case4 escape pattern string hs => rw [searchForCharsLoop_eq, hs]; rfl
  | case5 escape pattern string escape' hs => rw [searchForCharsLoop_eq, hs]; rfl

/-- The retries by attempts. -/
theorem retriesLoop_eq_attempt :
    retriesLoop N patternStart pattern string stringStart escape maximumDistance =
      match attempt N escape pattern string with
      | some (.mismatch escape, _) =>
        if maximumDistance.val = 0 then []
        else (N.next stringStart).elim [] fun (_, stringStart) =>
          (escape, stringStart) :: retriesLoop N patternStart patternStart stringStart stringStart
            escape (staticCast .int32 (maximumDistance.val - 1))
      | _ => [] := by
  fun_induction attempt N escape pattern string with
  | case1 escape pattern string hs => rw [retriesLoop_eq, hs]
  | case2 escape pattern string escape' pattern' string' hs ih =>
    rw [retriesLoop_eq, hs]
    exact ih
  | case3 escape pattern string hs => rw [retriesLoop_eq, hs]
  | case4 escape pattern string hs => rw [retriesLoop_eq, hs]
  | case5 escape pattern string escape' hs => rw [retriesLoop_eq, hs]

/-- An attempt is the same if its first step is. -/
theorem attempt_congr
    (h : searchStep N escape pattern string = searchStep N escape' pattern string) :
    attempt N escape pattern string = attempt N escape' pattern string := by
  rw [attempt_eq, attempt_eq, h]

end Loop

section Ends

variable {CHAR : Type} {N : NextChar CHAR} {escape : Bool} {pattern string : List CHAR}
  {lits w : List ℤ} {ending : SegmentEnd} {a b c : ℤ}

/-- The literals match characters at the front of the string, and it goes on after them. -/
def MatchesProperly (lits w : List ℤ) : Prop :=
  ∃ v rest, w = v ++ rest ∧ rest ≠ [] ∧ List.Forall₂ CharMatches lits v

/-- How an attempt ends that has these literals left to compare with these characters. -/
def AttemptSpec (lits : List ℤ) (ending : SegmentEnd) (w : List ℤ) : SearchStep CHAR → Prop
  | .accept => lits.length ≤ w.length ∧ (ending ≠ .wildcard → w.length = lits.length)
  | .reject => w.length < lits.length
  | .advance _ _ _ => False
  | .mismatch escape =>
    w ≠ [] ∧ (escape = true ↔ ending = .dangling ∧ MatchesProperly lits w)

theorem matchesProperly_nil (h : w ≠ []) : MatchesProperly [] w := ⟨[], w, rfl, h, .nil⟩

theorem matchesProperly_cons :
    MatchesProperly (a :: lits) (b :: w) ↔ CharMatches a b ∧ MatchesProperly lits w := by
  constructor
  · rintro ⟨v, rest, hw, hrest, hv⟩
    cases hv with
    | cons hab hv =>
      obtain ⟨rfl, rfl⟩ := List.cons.inj hw
      exact ⟨hab, _, rest, rfl, hrest, hv⟩
  · rintro ⟨hab, v, rest, rfl, hrest, hv⟩
    exact ⟨b :: v, rest, rfl, hrest, .cons hab hv⟩

theorem MatchesProperly.length_lt (h : MatchesProperly lits w) : lits.length < w.length := by
  obtain ⟨v, rest, rfl, hrest, hv⟩ := h
  rw [List.length_append, hv.length_eq]
  exact Nat.lt_add_of_pos_right (List.length_pos_of_ne_nil hrest)

/-- One literal more, with a character that it matches. -/
theorem AttemptSpec.cons {step : SearchStep CHAR} (h : AttemptSpec lits ending w step)
    (hab : CharMatches a b) : AttemptSpec (a :: lits) ending (b :: w) step := by
  cases step with
  | accept => exact ⟨Nat.succ_le_succ h.1, fun hending => congrArg Nat.succ (h.2 hending)⟩
  | reject => exact Nat.succ_lt_succ h
  | advance => exact h
  | mismatch escape =>
    refine ⟨List.cons_ne_nil b w, h.2.trans ?_⟩
    rw [matchesProperly_cons, and_iff_right hab]

theorem segment_literal (h : escape = true ∨ ¬isWildcard c = true ∧ c ≠ backslash) (cs : List ℤ) :
    segment escape (c :: cs) = (c :: (segment false cs).1, (segment false cs).2) := by
  cases escape with
  | true => rfl
  | false =>
    obtain ⟨hw, hb⟩ := h.resolve_left Bool.false_ne_true
    rw [segment, if_neg hw, if_neg hb]

/-- At the end of the pattern only the end of the string is accepted. -/
theorem exists_attempt_of_end (h : segment escape [] = (lits, ending)) (string : List CHAR) :
    ∃ step pattern' string', attempt N escape [] string = some (step, pattern', string') ∧
      AttemptSpec lits ending (N.chars string) step := by
  have hlits : lits = [] ∧ (escape = true ↔ ending = .dangling) := by
    cases escape with
    | true =>
      obtain ⟨rfl, rfl⟩ := Prod.mk.inj h
      exact ⟨rfl, iff_of_true rfl rfl⟩
    | false =>
      obtain ⟨rfl, rfl⟩ := Prod.mk.inj h
      exact ⟨rfl, iff_of_false Bool.false_ne_true nofun⟩
  obtain ⟨rfl, hending⟩ := hlits
  rw [attempt_eq]
  by_cases hstring : string = []
  · subst hstring
    refine ⟨.accept, [], [], rfl, Nat.zero_le _, fun _ => ?_⟩
    rw [N.chars_nil]
  · have hchars := mt (NextChar.chars_eq_nil_iff (N := N)).mp hstring
    refine ⟨.mismatch escape, [], string, ?_, hchars, ?_⟩
    · rw [searchStep, if_neg (by simpa using hstring)]
      rfl
    · rw [and_iff_left (matchesProperly_nil hchars)]
      exact hending

/-- A literal is compared with the next character, if the string has one. -/
theorem exists_attempt_of_literal {u : CHAR} {s t : List CHAR} (hn : N.next (u :: s) = some (c, t))
    (hguard : escape = true ∨ ¬isWildcard (N.unit u) = true ∧ N.unit u ≠ backslash)
    (ih : ∀ string : List CHAR, ∃ step pattern' string',
      attempt N false t string = some (step, pattern', string') ∧
        AttemptSpec lits ending (N.chars string) step) (string : List CHAR) :
    ∃ step pattern' string', attempt N escape (u :: s) string = some (step, pattern', string') ∧
      AttemptSpec (c :: lits) ending (N.chars string) step := by
  rw [attempt_eq, searchStep_of_compare string hn hguard]
  by_cases hstring : string = []
  · subst hstring
    refine ⟨.reject, u :: s, [], rfl, ?_⟩
    rw [N.chars_nil]
    exact Nat.succ_pos _
  · obtain ⟨d, string', hd⟩ := NextChar.exists_next (N := N) hstring
    rw [if_neg (by simpa using hstring), hd, NextChar.chars_of_next hd, Option.map_some,
      Option.bind_some]
    dsimp only
    by_cases hcd : CharMatches c d
    · obtain ⟨step, pattern', string'', hattempt, hspec⟩ := ih string'
      rw [if_pos hcd]
      exact ⟨step, pattern', string'', hattempt, hspec.cons hcd⟩
    · rw [if_neg hcd]
      refine ⟨.mismatch false, u :: s, string, rfl, List.cons_ne_nil _ _,
        iff_of_false Bool.false_ne_true ?_⟩
      exact fun h => hcd (matchesProperly_cons.mp h.2).1

theorem isWildcard_unit {u : CHAR} {s t : List CHAR} (hn : N.next (u :: s) = some (c, t)) :
    isWildcard (N.unit u) = true ↔ isWildcard c = true := by
  obtain ⟨-, ha, hq⟩ := unit_eq_iff_of_next hn
  rw [isWildcard_iff, isWildcard_iff, ha, hq]

/-- Every attempt ends, as its segment says. -/
theorem exists_attempt (h : segment escape (N.chars pattern) = (lits, ending))
    (string : List CHAR) :
    ∃ step pattern' string', attempt N escape pattern string = some (step, pattern', string') ∧
      AttemptSpec lits ending (N.chars string) step := by
  induction hlength : pattern.length using Nat.strong_induction_on
    generalizing escape pattern lits string with
  | h n ih =>
    obtain _ | ⟨u, s⟩ := pattern
    · rw [N.chars_nil] at h
      exact exists_attempt_of_end h string
    obtain ⟨c, t, hn, -⟩ := N.next_cons u s
    have hlt : t.length < n := hlength ▸ (NextChar.suffix_of_next hn).2
    have hw := isWildcard_unit hn
    have hb := (unit_eq_iff_of_next hn).1
    rw [NextChar.chars_of_next hn] at h
    by_cases hguard : escape = true ∨ ¬isWildcard (N.unit u) = true ∧ N.unit u ≠ backslash
    · rw [hw, ne_eq, hb] at hguard
      rw [segment_literal hguard] at h
      obtain ⟨rfl, rfl⟩ := Prod.mk.inj h
      rw [← hw, ← ne_eq, ← hb] at hguard
      exact exists_attempt_of_literal hn hguard
        (fun string' => ih t.length hlt rfl string' rfl) string
    obtain ⟨hescape, hstop⟩ := not_or.mp hguard
    obtain rfl := Bool.eq_false_iff.mpr hescape
    by_cases hwild : isWildcard c = true
    · rw [segment, if_pos hwild] at h
      obtain ⟨rfl, rfl⟩ := Prod.mk.inj h
      have hstep : searchStep N false (u :: s) string = some .accept := by
        rw [searchStep]
        exact if_pos (hw.mpr hwild)
      rw [attempt_eq, hstep]
      exact ⟨.accept, u :: s, string, rfl, Nat.zero_le _, fun hne => absurd rfl hne⟩
    · obtain rfl : c = backslash := by
        by_contra hc
        exact hstop ⟨mt hw.mp hwild, mt hb.mp hc⟩
      rw [segment, if_neg hwild, if_pos rfl] at h
      rw [attempt_eq, searchStep_of_backslash string hn, Option.bind_some]
      exact ih t.length hlt h string rfl

end Ends

section Search

variable {CHAR : Type} (N : NextChar CHAR) (pattern string : List CHAR)

/-- A first attempt, begun after so many characters, matches and leaves the pointers there. -/
def MatchesAfter (k : ℕ) (pointers : List CHAR × List CHAR) : Prop :=
  ∃ start, skip N k string = some start ∧ attempt N false pattern start = some (.accept, pointers)

/-- So many characters may be skipped; a negative distance is no limit. -/
def Within (maximumDistance : Num .int32) (k : ℕ) : Prop :=
  0 ≤ maximumDistance.val → k ≤ maximumDistance.val

/-- `SearchForChars` returns true exactly where a first attempt matches within the distance, with
the pointers as the leftmost such attempt leaves them. -/
def IsLeftmostSearch (maximumDistance : Num .int32) : Prop :=
  ∃ found pointers, searchForChars N pattern string maximumDistance = some (found, pointers) ∧
    (found = true ↔ ∃ k pointers, Within maximumDistance k ∧
      MatchesAfter N pattern string k pointers) ∧
    (found = true → ∃ k, Within maximumDistance k ∧ MatchesAfter N pattern string k pointers ∧
      ∀ j < k, ∀ pointers, ¬ MatchesAfter N pattern string j pointers)

/-- Every retry does what a first attempt does, whatever the attempts before it have left. -/
def RetriesStartFresh (maximumDistance : Num .int32) : Prop :=
  ∀ retry ∈ retries N pattern string maximumDistance,
    searchStep N retry.1 pattern retry.2 = searchStep N false pattern retry.2

/-- The pattern starts with a backslash, its segment ends in another one, and the literals
between them match with more of the string behind them, before the last retry. -/
def EscapeStaysPending (n : ℕ) : Prop :=
  (N.chars pattern).head? = some backslash ∧ (segment false (N.chars pattern)).2 = .dangling ∧
    ∃ k < n, MatchesProperly (segment false (N.chars pattern)).1 ((N.chars string).drop k)

/-- The distance is unlimited, but the counter comes round to zero before a first attempt
matches. -/
def CounterRunsOut (maximumDistance : Num .int32) : Prop :=
  maximumDistance.val < 0 ∧ (∃ k pointers, MatchesAfter N pattern string k pointers) ∧
    ∀ k : ℕ, k ≤ 2 ^ 32 + maximumDistance.val → ∀ pointers,
      ¬ MatchesAfter N pattern string k pointers

/-- The leftmost search within so many characters. -/
def SearchesWithin (n : ℕ) (result : Option (Bool × List CHAR × List CHAR)) : Prop :=
  (∃ k ≤ n, ∃ pointers, result = some (true, pointers) ∧
    MatchesAfter N pattern string k pointers ∧
    ∀ j < k, ∀ pointers, ¬ MatchesAfter N pattern string j pointers) ∨
  (∃ pointers, result = some (false, pointers)) ∧
    ∀ k ≤ n, ∀ pointers, ¬ MatchesAfter N pattern string k pointers

end Search

section Runs

variable {CHAR : Type} {N : NextChar CHAR} {escape : Bool} {pattern string start : List CHAR}
  {pointers : List CHAR × List CHAR} {maximumDistance : Num .int32} {c : ℤ} {k n : ℕ}
  {result : Option (Bool × List CHAR × List CHAR)} {step : SearchStep CHAR}

theorem chars_of_skip (h : skip N k string = some start) :
    N.chars start = (N.chars string).drop k := by
  induction k generalizing string with
  | zero =>
    obtain rfl := Option.some.inj h
    rfl
  | succ k ih =>
    obtain ⟨⟨c, rest⟩, hn, hskip⟩ := Option.bind_eq_some_iff.mp h
    rw [ih hskip, NextChar.chars_of_next hn, List.drop_succ_cons]

theorem matchesAfter_zero : MatchesAfter N pattern string 0 pointers ↔
    attempt N false pattern string = some (.accept, pointers) := by
  constructor
  · rintro ⟨start, hstart, h⟩
    obtain rfl := Option.some.inj hstart
    exact h
  · exact fun h => ⟨string, rfl, h⟩

theorem matchesAfter_succ (hn : N.next string = some (c, start)) :
    MatchesAfter N pattern string (k + 1) pointers ↔ MatchesAfter N pattern start k pointers := by
  rw [MatchesAfter, MatchesAfter, skip, hn, Option.bind_some]

/-- A first attempt ends as the segment at the start of the pattern says. -/
theorem exists_firstAttempt (N : NextChar CHAR) (pattern string : List CHAR) :
    ∃ step pattern' string', attempt N false pattern string = some (step, pattern', string') ∧
      AttemptSpec (segment false (N.chars pattern)).1 (segment false (N.chars pattern)).2
        (N.chars string) step := by
  have hsegment : segment false (N.chars pattern) = (_, _) := rfl
  exact exists_attempt hsegment string

theorem attemptSpec_of_attempt (h : attempt N false pattern string = some (step, pointers)) :
    AttemptSpec (segment false (N.chars pattern)).1 (segment false (N.chars pattern)).2
      (N.chars string) step := by
  obtain ⟨step', pattern', string', hattempt, hspec⟩ := exists_firstAttempt N pattern string
  obtain rfl := (Prod.mk.inj (Option.some.inj (h.symm.trans hattempt))).1
  exact hspec

/-- Where the string is too short for the literals, it is so further on. -/
theorem not_matchesAfter_of_length_lt
    (h : (N.chars string).length < (segment false (N.chars pattern)).1.length) :
    ¬ MatchesAfter N pattern string k pointers := by
  rintro ⟨start, hstart, hattempt⟩
  have hlength := (attemptSpec_of_attempt hattempt).1
  rw [chars_of_skip hstart, List.length_drop] at hlength
  omega

/-- One character further on. -/
theorem SearchesWithin.succ (h : SearchesWithin N pattern start n result)
    (hn : N.next string = some (c, start))
    (hzero : ∀ pointers, ¬ MatchesAfter N pattern string 0 pointers) :
    SearchesWithin N pattern string (n + 1) result := by
  have hbefore : ∀ j, (∀ i < j, ∀ pointers, ¬ MatchesAfter N pattern start i pointers) →
      ∀ i < j + 1, ∀ pointers, ¬ MatchesAfter N pattern string i pointers := by
    intro j hj i hi pointers
    cases i with
    | zero => exact hzero pointers
    | succ i =>
      rw [matchesAfter_succ hn]
      exact hj i (Nat.lt_of_succ_lt_succ hi) pointers
  rcases h with ⟨k, hk, pointers, hresult, hmatch, hleast⟩ | ⟨hresult, hnone⟩
  · exact .inl ⟨k + 1, Nat.succ_le_succ hk, pointers, hresult, (matchesAfter_succ hn).mpr hmatch,
      hbefore k hleast⟩
  · refine .inr ⟨hresult, fun k hk => ?_⟩
    exact hbefore (n + 1) (fun i hi => hnone i (Nat.le_of_lt_succ hi)) k (Nat.lt_succ_of_le hk)

/-- Where every attempt starts as a first one, the loop is the leftmost search within its
budget. -/
theorem searchesWithin_of_fresh
    (hfresh : searchStep N escape pattern string = searchStep N false pattern string)
    (hretries : ∀ retry ∈ retriesLoop N pattern pattern string string escape maximumDistance,
      searchStep N retry.1 pattern retry.2 = searchStep N false pattern retry.2) :
    SearchesWithin N pattern string (distanceBudget maximumDistance)
      (searchForCharsLoop N pattern pattern string string escape maximumDistance) := by
  induction hlength : string.length using Nat.strong_induction_on
    generalizing escape string maximumDistance with
  | h m ih =>
    obtain ⟨step, pattern', string', hattempt, hspec⟩ := exists_firstAttempt N pattern string
    rw [searchForCharsLoop_eq_attempt, attempt_congr hfresh, hattempt, Option.bind_some]
    rw [retriesLoop_eq_attempt, attempt_congr hfresh, hattempt] at hretries
    cases step with
    | accept =>
      exact .inl ⟨0, Nat.zero_le _, _, rfl, matchesAfter_zero.mpr hattempt, nofun⟩
    | reject => exact .inr ⟨⟨_, rfl⟩, fun k _ pointers => not_matchesAfter_of_length_lt hspec⟩
    | advance => exact hspec.elim
    | mismatch escape' =>
      have hzero : ∀ pointers, ¬ MatchesAfter N pattern string 0 pointers := by
        intro pointers hmatch
        rw [matchesAfter_zero, hattempt] at hmatch
        cases hmatch
      dsimp only at hretries ⊢
      by_cases hd : maximumDistance.val = 0
      · rw [if_pos hd, (distanceBudget_eq_zero_iff _).mpr hd]
        refine .inr ⟨⟨_, rfl⟩, fun k hk => ?_⟩
        rw [Nat.le_zero.mp hk]
        exact hzero
      · obtain ⟨c, start, hn⟩ := NextChar.exists_next (N := N)
          (mt NextChar.chars_eq_nil_iff.mpr hspec.1)
        rw [if_neg hd, hn, Option.elim_some] at hretries
        rw [if_neg hd, hn, Option.bind_some, distanceBudget_pred hd]
        obtain ⟨hstart, hrest⟩ := List.forall_mem_cons.mp hretries
        have hlt : start.length < m := hlength ▸ (NextChar.suffix_of_next hn).2
        exact (ih start.length hlt hstart hrest rfl).succ hn hzero

/-- With a backslash at the start of the pattern the flag changes what an attempt does first. -/
theorem searchStep_ne_of_backslash (h : (N.chars pattern).head? = some backslash) :
    searchStep N true pattern string ≠ searchStep N false pattern string := by
  obtain _ | ⟨u, s⟩ := pattern
  · rw [N.chars_nil] at h
    cases h
  obtain ⟨c, t, hn, -⟩ := N.next_cons u s
  rw [NextChar.chars_of_next hn, List.head?_cons, Option.some.injEq] at h
  subst h
  rw [searchStep_of_backslash string hn, searchStep_of_compare string hn (.inl rfl)]
  split_ifs
  · nofun
  · intro heq
    obtain ⟨⟨d, string'⟩, -, hd⟩ := Option.map_eq_some_iff.mp heq
    dsimp only at hd
    split_ifs at hd
    cases hd

/-- Without one, the flag does not matter where the segment is not empty. -/
theorem searchStep_eq_of_not_backslash (h : (N.chars pattern).head? ≠ some backslash)
    (hending : (segment false (N.chars pattern)).2 = .dangling) :
    searchStep N true pattern string = searchStep N false pattern string := by
  obtain _ | ⟨u, s⟩ := pattern
  · rw [N.chars_nil] at hending
    cases hending
  obtain ⟨c, t, hn, -⟩ := N.next_cons u s
  rw [NextChar.chars_of_next hn] at h hending
  have hb : N.unit u ≠ backslash := by
    intro hu
    rw [(unit_eq_iff_of_next hn).1.mp hu] at h
    exact h rfl
  have hw : ¬ isWildcard (N.unit u) = true := by
    intro hu
    rw [segment, if_pos ((isWildcard_unit hn).mp hu)] at hending
    cases hending
  rw [searchStep_of_compare string hn (.inl rfl), searchStep_of_compare string hn (.inr ⟨hw, hb⟩)]

/-- Every retry of a loop that starts fresh does so too, unless the flag stays set. -/
theorem fresh_of_not_escapeStaysPending
    (hfresh : searchStep N escape pattern string = searchStep N false pattern string)
    (h : ¬ EscapeStaysPending N pattern string (distanceBudget maximumDistance)) :
    ∀ retry ∈ retriesLoop N pattern pattern string string escape maximumDistance,
      searchStep N retry.1 pattern retry.2 = searchStep N false pattern retry.2 := by
  induction hlength : string.length using Nat.strong_induction_on
    generalizing escape string maximumDistance with
  | h m ih =>
    obtain ⟨step, pattern', string', hattempt, hspec⟩ := exists_firstAttempt N pattern string
    rw [retriesLoop_eq_attempt, attempt_congr hfresh, hattempt]
    cases step with
    | accept => nofun
    | reject => nofun
    | advance => exact hspec.elim
    | mismatch escape' =>
      dsimp only
      by_cases hd : maximumDistance.val = 0
      · rw [if_pos hd]
        nofun
      obtain ⟨c, start, hn⟩ := NextChar.exists_next (N := N)
        (mt NextChar.chars_eq_nil_iff.mpr hspec.1)
      rw [if_neg hd, hn, Option.elim_some, List.forall_mem_cons]
      rw [distanceBudget_pred hd] at h
      have hstart : searchStep N escape' pattern start = searchStep N false pattern start := by
        cases hescape : escape' with
        | false => rfl
        | true =>
          obtain ⟨hending, hmatch⟩ := hspec.2.mp hescape
          refine searchStep_eq_of_not_backslash (fun hhead => h ?_) hending
          exact ⟨hhead, hending, 0, Nat.succ_pos _, hmatch⟩
      refine ⟨hstart, ih start.length (hlength ▸ (NextChar.suffix_of_next hn).2) hstart ?_ rfl⟩
      rintro ⟨hhead, hending, k, hk, hmatch⟩
      refine h ⟨hhead, hending, k + 1, Nat.succ_lt_succ hk, ?_⟩
      rwa [NextChar.chars_of_next hn, List.drop_succ_cons]

/-- Where the literals match with more of the string behind them, here or further on, the
attempt ends in a mismatch. -/
theorem exists_mismatch (hending : (segment false (N.chars pattern)).2 = .dangling)
    (hmatch : MatchesProperly (segment false (N.chars pattern)).1 ((N.chars string).drop k)) :
    ∃ escape' pointers, attempt N false pattern string = some (.mismatch escape', pointers) ∧
      (escape' = true ↔ MatchesProperly (segment false (N.chars pattern)).1 (N.chars string)) := by
  have hlength := hmatch.length_lt
  rw [List.length_drop] at hlength
  obtain ⟨step, pattern', string', hattempt, hspec⟩ := exists_firstAttempt N pattern string
  cases step with
  | accept =>
    have hend := hspec.2 (hending ▸ nofun)
    omega
  | reject =>
    have hshort : (N.chars string).length < _ := hspec
    omega
  | advance => exact hspec.elim
  | mismatch escape' =>
    exact ⟨escape', _, hattempt, hspec.2.trans (and_iff_right hending)⟩

/-- Where the flag stays set, some retry does not start fresh. -/
theorem not_escapeStaysPending_of_fresh
    (hfresh : searchStep N escape pattern string = searchStep N false pattern string)
    (hretries : ∀ retry ∈ retriesLoop N pattern pattern string string escape maximumDistance,
      searchStep N retry.1 pattern retry.2 = searchStep N false pattern retry.2) :
    ¬ EscapeStaysPending N pattern string (distanceBudget maximumDistance) := by
  rintro ⟨hhead, hending, k, hk, hmatch⟩
  induction k generalizing escape string maximumDistance with
  | zero =>
    obtain ⟨escape', pointers, hattempt, hescape⟩ := exists_mismatch hending hmatch
    obtain rfl : escape' = true := hescape.mpr hmatch
    have hd := mt (distanceBudget_eq_zero_iff maximumDistance).mpr hk.ne'
    have hne := List.ne_nil_of_length_pos (Nat.zero_lt_of_lt hmatch.length_lt)
    obtain ⟨c, start, hn⟩ := NextChar.exists_next (N := N) (mt NextChar.chars_eq_nil_iff.mpr hne)
    rw [retriesLoop_eq_attempt, attempt_congr hfresh, hattempt] at hretries
    dsimp only at hretries
    rw [if_neg hd, hn, Option.elim_some, List.forall_mem_cons] at hretries
    exact searchStep_ne_of_backslash hhead hretries.1
  | succ k ih =>
    obtain ⟨escape', pointers, hattempt, -⟩ := exists_mismatch hending hmatch
    have hd := mt (distanceBudget_eq_zero_iff maximumDistance).mpr (Nat.ne_zero_of_lt hk)
    have hne : N.chars string ≠ [] := by
      intro hnil
      have hlength := hmatch.length_lt
      rw [hnil, List.drop_nil] at hlength
      exact Nat.not_lt_zero _ hlength
    obtain ⟨c, start, hn⟩ := NextChar.exists_next (N := N) (mt NextChar.chars_eq_nil_iff.mpr hne)
    rw [retriesLoop_eq_attempt, attempt_congr hfresh, hattempt] at hretries
    dsimp only at hretries
    rw [if_neg hd, hn, Option.elim_some, List.forall_mem_cons] at hretries
    rw [distanceBudget_pred hd] at hk
    rw [NextChar.chars_of_next hn, List.drop_succ_cons] at hmatch
    exact ih hretries.1 hretries.2 (Nat.lt_of_succ_lt_succ hk) hmatch

/-- The retries all start fresh unless the flag stays set. -/
theorem retriesStartFresh_iff : RetriesStartFresh N pattern string maximumDistance ↔
    ¬ EscapeStaysPending N pattern string (distanceBudget maximumDistance) :=
  ⟨not_escapeStaysPending_of_fresh rfl, fresh_of_not_escapeStaysPending rfl⟩

/-- The counter is the distance, or one less than `2 ^ 32` for -1. -/
theorem distanceBudget_cases (d : Num .int32) :
    0 ≤ d.val ∧ (distanceBudget d : ℤ) = d.val ∨
      d.val < 0 ∧ (distanceBudget d : ℤ) = 2 ^ 32 + d.val := by
  have hlow : IntegralType.int32.lowest = -2 ^ 31 := rfl
  have hmax : IntegralType.int32.max = 2 ^ 31 - 1 := rfl
  have := d.lowest_le
  have := d.le_max
  unfold distanceBudget
  omega

/-- The search within the budget is the search within the distance, unless the counter runs
out. -/
theorem isLeftmostSearch_iff
    (h : SearchesWithin N pattern string (distanceBudget maximumDistance)
      (searchForChars N pattern string maximumDistance)) :
    IsLeftmostSearch N pattern string maximumDistance ↔
      ¬ CounterRunsOut N pattern string maximumDistance := by
  have hbudget := distanceBudget_cases maximumDistance
  constructor
  · rintro ⟨found, pointers, hresult, hfound, -⟩ ⟨hneg, ⟨k, pointers', hmatch⟩, hnone⟩
    have hunlimited : Within maximumDistance k := fun hd => absurd hneg (not_lt.mpr hd)
    have htrue := hfound.mpr ⟨k, pointers', hunlimited, hmatch⟩
    rcases h with ⟨k, hk, pointers, -, hmatch, -⟩ | ⟨⟨pointers, hfalse⟩, -⟩
    · exact hnone k (by omega) pointers hmatch
    · rw [hresult, htrue] at hfalse
      cases hfalse
  · intro hcounter
    rcases h with ⟨k, hk, pointers, hresult, hmatch, hleast⟩ | ⟨⟨pointers, hresult⟩, hnone⟩
    · have hwithin : Within maximumDistance k := fun hd => by omega
      exact ⟨true, pointers, hresult, iff_of_true rfl ⟨k, pointers, hwithin, hmatch⟩,
        fun _ => ⟨k, hwithin, hmatch, hleast⟩⟩
    · refine ⟨false, pointers, hresult, iff_of_false Bool.false_ne_true ?_, nofun⟩
      rintro ⟨k, pointers', hwithin, hmatch⟩
      by_cases hd : 0 ≤ maximumDistance.val
      · have hk := hwithin hd
        exact hnone k (by omega) pointers' hmatch
      · refine hcounter ⟨not_le.mp hd, ⟨k, pointers', hmatch⟩, fun k hk => hnone k (by omega)⟩

/-- `SearchForChars` is the leftmost bounded search with fresh retries, unless its flag stays set
or its counter runs out. -/
theorem searchForChars_leftmost_iff (N : NextChar CHAR) (pattern string : List CHAR)
    (maximumDistance : Num .int32) :
    IsLeftmostSearch N pattern string maximumDistance ∧
      RetriesStartFresh N pattern string maximumDistance ↔
    ¬ EscapeStaysPending N pattern string (distanceBudget maximumDistance) ∧
      ¬ CounterRunsOut N pattern string maximumDistance := by
  rw [and_comm, retriesStartFresh_iff]
  refine and_congr_right fun hescape => isLeftmostSearch_iff ?_
  exact searchesWithin_of_fresh rfl (retriesStartFresh_iff.mpr hescape)

end Runs

/-- A single backslash on `a`. The first attempt ends at the end of the pattern with the flag set,
the second takes the backslash for a literal and meets the end of the string, where a first attempt
matches. -/
theorem searchForChars_keeps_escape : ¬ ∀ (pattern string : List UInt8) (d : Num .int32),
    IsLeftmostSearch nextCharUtf8 pattern string d ∧
      RetriesStartFresh nextCharUtf8 pattern string d := by
  intro h
  obtain ⟨⟨found, pointers, hresult, hfound, -⟩, -⟩ := h [0x5C] [0x61] (staticCast .int32 (-1))
  have hnext : nextCharUtf8.next [0x61] = some (0x61, []) := rfl
  have hescape : ∀ string, attempt nextCharUtf8 false [0x5C] string =
      attempt nextCharUtf8 true [] string := by
    intro string
    have hstep : searchStep nextCharUtf8 false [0x5C] string = some (.advance true [] string) := rfl
    rw [attempt_eq, hstep]
    rfl
  have hfirst : attempt nextCharUtf8 false [0x5C] [0x61] = some (.mismatch true, [], [0x61]) := by
    rw [hescape, attempt_eq]
    rfl
  have hretry : attempt nextCharUtf8 true [0x5C] [] = some (.reject, [0x5C], []) := by
    rw [attempt_eq]
    rfl
  have hfresh : attempt nextCharUtf8 false [0x5C] [] = some (.accept, [], []) := by
    rw [hescape, attempt_eq]
    rfl
  have hfalse : searchForChars nextCharUtf8 [0x5C] [0x61] (staticCast .int32 (-1)) =
      some (false, [0x5C], []) := by
    rw [searchForChars, searchForCharsLoop_eq_attempt, hfirst, Option.bind_some]
    dsimp only
    rw [if_neg (by decide), hnext, Option.bind_some, searchForCharsLoop_eq_attempt, hretry]
    rfl
  have hmatch := (matchesAfter_succ hnext).mpr (matchesAfter_zero.mpr hfresh)
  have htrue := hfound.mpr ⟨1, _, nofun, hmatch⟩
  rw [hfalse, htrue] at hresult
  cases hresult

end MiniChromium
