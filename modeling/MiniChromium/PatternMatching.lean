import MiniChromium.PatternSearch

/-!
# What `MatchPattern` matches

`EatWildcards` and `SearchForChars` take one segment off the pattern, and `MatchPattern`
is the greedy match of the segments.
-/
namespace MiniChromium

open IntegralType MiniChromium.Num Glob

section Spec

variable {CHAR : Type} {N : NextChar CHAR}

/-- The loop takes the wildcards off the first segment, and counts them. -/
theorem eatWildcardsLoop_spec {pattern : List CHAR} {numQuestionMarks : Num .int32}
    {hasAsterisk : Bool} {ts : List (Token ℤ)} (h : Parses N false pattern ts) :
    ∃ pattern' ts', eatWildcardsLoop N pattern numQuestionMarks hasAsterisk =
        some (if hasAsterisk || (segments ts).1.asterisk then staticCast .int32 (-1)
          else staticCast .int32 (numQuestionMarks.val + (segments ts).1.questionMarks), pattern') ∧
      Parses N false pattern' ts' ∧ ¬StartsWithWildcard ts' ∧
      (segments ts').1.literals = (segments ts).1.literals ∧
      (segments ts').2 = (segments ts).2 := by
  fun_induction eatWildcardsLoop N pattern numQuestionMarks hasAsterisk generalizing ts with
  | case1 numQuestionMarks hasAsterisk =>
    obtain rfl := parses_nil_iff.mp h
    exact ⟨[], [], by simp [segments], h, id, rfl, rfl⟩
  | case2 _ _ u s hu hn => exact absurd hn (NextChar.next_ne_none (List.cons_ne_nil u s))
  | case3 numQuestionMarks hasAsterisk u s hu c t hn ih =>
    obtain rfl := (unit_eq_iff_of_next hn).2.2.mp hu
    obtain ⟨ts, hts, rfl⟩ : ∃ ts', Parses N false t ts' ∧ ts = .opt :: ts' :=
      (parses_cons_iff hn).mp h
    obtain ⟨pattern', ts', heat, hrest⟩ := ih hts
    refine ⟨pattern', ts', ?_, hrest⟩
    rw [heat, segments]
    refine congrArg (fun d => some (ite _ _ d, _)) (staticCast_congr ?_)
    have hmod := (staticCast_modEq .int32 (numQuestionMarks.val + 1)).add_right
      ((segments ts).1.questionMarks : ℤ)
    rwa [add_assoc, add_comm (1 : ℤ), ← Nat.cast_succ] at hmod
  | case4 _ _ u s hq hu hn => exact absurd hn (NextChar.next_ne_none (List.cons_ne_nil u s))
  | case5 numQuestionMarks hasAsterisk u s hq hu c t hn ih =>
    obtain rfl := (unit_eq_iff_of_next hn).2.1.mp hu
    obtain ⟨ts, hts, rfl⟩ : ∃ ts', Parses N false t ts' ∧ ts = .star :: ts' :=
      (parses_cons_iff hn).mp h
    obtain ⟨pattern', ts', heat, hrest⟩ := ih hts
    refine ⟨pattern', ts', ?_, hrest⟩
    rw [heat, segments]
    simp
  | case6 numQuestionMarks hasAsterisk u s hq ha =>
    have hw : ¬StartsWithWildcard ts := by
      rw [← h.headIsWildcard_iff, HeadIsWildcard, isWildcard_iff]
      exact not_or.mpr ⟨ha, hq⟩
    obtain ⟨hasterisk, hquestion⟩ := not_or.mp (mt (hasWildcard_iff ts).mp hw)
    refine ⟨u :: s, ts, ?_, h, hw, rfl, rfl⟩
    rw [Bool.eq_false_iff.mpr hasterisk, not_not.mp hquestion]
    simp

/-- How many letters the wildcards of a segment take before the literals, as the `int`
counter has it. -/
def machineBudget (g : Segment ℤ) : ℕ :=
  if g.asterisk then 2 ^ 32 - 1 else g.questionMarks % 2 ^ 32

theorem eatWildcards_spec {pattern : List CHAR} {ts : List (Token ℤ)}
    (h : Parses N false pattern ts) :
    ∃ d pattern' lits tail, eatWildcards N pattern = some (d, pattern') ∧
      distanceBudget d = machineBudget (segments ts).1 ∧
      Parses N false pattern' (lits.map .lit ++ tail) ∧ (tail = [] ∨ StartsWithWildcard tail) ∧
      (segments ts).1.literals = lits ∧
      (segments ts).2 = if tail.isEmpty then [] else segmentList tail := by
  obtain ⟨pattern', ts', heat, hp, hw, hlits, htail⟩ :=
    @eatWildcardsLoop_spec _ N pattern 0 false ts h
  obtain ⟨lits, tail, rfl, ht, hg⟩ := exists_literals hw
  obtain ⟨hhead, hrest⟩ := List.cons.inj hg
  refine ⟨_, pattern', lits, tail, heat, ?_, hp, ht, by rw [← hlits, hhead], by rw [← htail, hrest]⟩
  rw [Bool.false_or, machineBudget]
  split_ifs
  · rw [distanceBudget_staticCast]
    rfl
  · rw [distanceBudget_staticCast, val_zero]
    omega

/-- What is left of the pattern after the search for one segment. -/
theorem greedy_segmentList {ts tail : List (Token ℤ)} {lits w : List ℤ}
    (hlits : (segments ts).1.literals = lits)
    (htail : (segments ts).2 = if tail.isEmpty then [] else segmentList tail) :
    greedy CharMatches machineBudget (segmentList ts) w =
      (find CharMatches lits tail.isEmpty (machineBudget (segments ts).1) w).any fun rest =>
        tail.isEmpty || greedy CharMatches machineBudget (segmentList tail) rest := by
  rw [segmentList, greedy, hlits, htail]
  cases tail with
  | nil =>
    rw [List.isEmpty_nil, if_pos rfl, List.isEmpty_nil]
    cases hf : find CharMatches lits true (machineBudget (segments ts).1) w with
    | none => rfl
    | some rest =>
      obtain ⟨n, -, -, hrest⟩ := find_eq_some_iff.mp hf
      obtain rfl : rest = [] := hrest
      rfl
  | cons t tail => rfl

/-- A search after the wildcards of a pattern are eaten, from what the two functions return. -/
theorem round_spec {eval pattern pattern₁ : List CHAR} {ts : List (Token ℤ)} {d : Num .int32}
    (h : Parses N false pattern ts) (he : eatWildcards N pattern = some (d, pattern₁)) :
    ∃ tail found, SearchSpec N tail found (searchForChars N pattern₁ eval d) ∧
      greedy CharMatches machineBudget (segmentList ts) (N.chars eval) =
        found.any fun rest =>
          tail.isEmpty || greedy CharMatches machineBudget (segmentList tail) rest := by
  obtain ⟨d', pattern', lits, tail, heat, hd, hp, ht, hlits, htail⟩ := eatWildcards_spec h
  obtain ⟨rfl, rfl⟩ := Prod.mk.inj (Option.some.inj (he.symm.trans heat))
  refine ⟨tail, _, searchForChars_spec ht hp, ?_⟩
  rw [greedy_segmentList hlits htail, hd]

/-- `MatchPatternT` always returns, and is the greedy match of the segments. -/
theorem matchPatternT_eq_greedy {eval pattern : List CHAR} {ts : List (Token ℤ)}
    (h : Parses N false pattern ts) :
    matchPatternT N eval pattern =
      some (greedy CharMatches machineBudget (segmentList ts) (N.chars eval)) := by
  fun_induction matchPatternT N eval pattern generalizing ts with
  | case1 eval pattern he =>
    obtain ⟨d, pattern', lits, tail, heat, -⟩ := eatWildcards_spec h
    rw [he] at heat
    cases heat
  | case2 eval pattern d pattern₁ he hs =>
    obtain ⟨tail, found, ⟨b, p, s, hsearch, -⟩, -⟩ := @round_spec _ _ eval _ _ _ _ h he
    rw [hs] at hsearch
    cases hsearch
  | case3 eval pattern d pattern₁ he result hs =>
    obtain ⟨tail, found, ⟨b, p, s, hsearch, hfound⟩, hgreedy⟩ := @round_spec _ _ eval _ _ _ _ h he
    obtain ⟨rfl, -⟩ := Prod.mk.inj (Option.some.inj (hs.symm.trans hsearch))
    cases found with
    | none => rw [hgreedy, Option.any_none]
    | some rest => exact absurd hfound.1 Bool.false_ne_true
  | case4 eval pattern d pattern₁ he pattern₂ eval₂ hs hne ih =>
    obtain ⟨tail, found, ⟨b, p, s, hsearch, hfound⟩, hgreedy⟩ := @round_spec _ _ eval _ _ _ _ h he
    cases hs.symm.trans hsearch
    cases found with
    | none => cases hfound
    | some rest =>
      obtain ⟨-, hp, rfl⟩ := hfound
      have htail : tail.isEmpty = false := by
        cases tail with
        | nil => exact absurd hp.eq_nil.2 hne
        | cons => rfl
      rw [ih hp, hgreedy, Option.any_some, htail, Bool.false_or]
  | case5 eval pattern d pattern₁ he pattern₂ eval₂ hs hne =>
    obtain ⟨tail, found, ⟨b, p, s, hsearch, hfound⟩, hgreedy⟩ := @round_spec _ _ eval _ _ _ _ h he
    cases hs.symm.trans hsearch
    cases found with
    | none => cases hfound
    | some rest =>
      obtain ⟨-, hp, rfl⟩ := hfound
      rw [not_not.mp hne, parses_nil_iff] at hp
      rw [hgreedy, hp]
      rfl

/-- The pattern spells the string, character by character. -/
def SpellsString (N : NextChar CHAR) (ts : List (Token ℤ)) (eval : List CHAR) : Prop :=
  Spells CharMatches ts (N.chars eval)

/-- In the leftmost placement every gap is within the counter of its wildcards. -/
def LeftmostWithin (N : NextChar CHAR) (ts : List (Token ℤ)) (eval : List CHAR) : Prop :=
  ∃ ns, Leftmost CharMatches (segmentList ts) (N.chars eval) ns ∧
    List.Forall₂ (fun g n => n ≤ machineBudget g) (segmentList ts) ns

theorem matchPatternT_eq_true_iff {eval pattern : List CHAR} {ts : List (Token ℤ)}
    (h : Parses N false pattern ts) :
    matchPatternT N eval pattern = some true ↔ LeftmostWithin N ts eval := by
  rw [matchPatternT_eq_greedy h, Option.some.injEq, greedy_iff, LeftmostWithin]

/-- The counter never lets the wildcards of a segment stand for more than they may. -/
theorem allows_of_le_machineBudget {g : Segment ℤ} {n : ℕ} (h : n ≤ machineBudget g) :
    g.Allows n := by
  unfold machineBudget at h
  split_ifs at h with ha
  · exact .inl ha
  · exact .inr (h.trans (Nat.mod_le _ _))

theorem matchPatternT_sound {eval pattern : List CHAR} {ts : List (Token ℤ)}
    (h : Parses N false pattern ts) (hmatch : matchPatternT N eval pattern = some true) :
    SpellsString N ts eval := by
  rw [matchPatternT_eq_greedy h, Option.some.injEq] at hmatch
  exact (spells_iff_fits ts _).mpr
    (fits_of_greedy (fun g _ n hn => allows_of_le_machineBudget hn) hmatch)

/-- Every run of wildcards has an asterisk. -/
def StarPattern (ts : List (Token ℤ)) : Prop :=
  ∀ g ∈ segmentList ts, g.asterisk = true ∨ g.questionMarks = 0

theorem forall₂_machineBudget_iff {gs : List (Segment ℤ)} {ns : List ℕ}
    (hstar : ∀ g ∈ gs, g.asterisk = true ∨ g.questionMarks = 0)
    (h : List.Forall₂ Segment.Allows gs ns) :
    List.Forall₂ (fun g n => n ≤ machineBudget g) gs ns ↔ ∀ n ∈ ns, n < 2 ^ 32 := by
  induction h with
  | nil => simp
  | @cons g n gs ns hn _ ih =>
    have hhead : n ≤ machineBudget g ↔ n < 2 ^ 32 := by
      unfold machineBudget
      split_ifs with ha
      · omega
      · have hq := (hstar g List.mem_cons_self).resolve_left ha
        have hn := hn.resolve_left ha
        omega
    rw [List.forall₂_cons, List.forall_mem_cons, hhead,
      ih fun g' hg' => hstar g' (List.mem_cons_of_mem _ hg')]

/-- The leftmost placement misses no match: only the counter can. -/
theorem leftmostWithin_iff_of_star {eval : List CHAR} {ts : List (Token ℤ)}
    (hstar : StarPattern ts) (h : SpellsString N ts eval) :
    LeftmostWithin N ts eval ↔
      ∀ ns, Leftmost CharMatches (segmentList ts) (N.chars eval) ns → ∀ n ∈ ns, n < 2 ^ 32 := by
  have htail : ∀ g ∈ (segments ts).2, g.asterisk = true := by
    intro g hg
    have hw := hasWildcard_of_mem_segments hg
    rcases hstar g (List.mem_cons_of_mem _ hg) with ha | hq
    · exact ha
    · exact hw.resolve_right (not_not.mpr hq)
  obtain ⟨ns, hl, hallows⟩ := Fits.exists_leftmost htail ((spells_iff_fits ts _).mp h)
  have hiff := forall₂_machineBudget_iff hstar hallows
  constructor
  · rintro ⟨ns', hl', hns'⟩ ns'' hl''
    rw [hl''.unique hl]
    rw [hl'.unique hl] at hns'
    exact hiff.mp hns'
  · intro hns
    exact ⟨ns, hl, hiff.mpr (hns ns hl)⟩

theorem matchPatternT_star_complete_iff {eval pattern : List CHAR} {ts : List (Token ℤ)}
    (h : Parses N false pattern ts) (hstar : StarPattern ts) :
    ∃ matched, matchPatternT N eval pattern = some matched ∧
      ((SpellsString N ts eval → matched = true) ↔
        (SpellsString N ts eval → ∀ ns,
          Leftmost CharMatches (segmentList ts) (N.chars eval) ns → ∀ n ∈ ns, n < 2 ^ 32)) := by
  refine ⟨_, matchPatternT_eq_greedy h, imp_congr_right fun hspells => ?_⟩
  rw [greedy_iff]
  exact leftmostWithin_iff_of_star hstar hspells

/-- A single asterisk takes the whole string, if the counter lasts so long. -/
theorem matchPatternT_star {eval pattern : List CHAR} (h : Parses N false pattern [.star]) :
    matchPatternT N eval pattern = some (decide ((N.chars eval).length < 2 ^ 32)) := by
  rw [matchPatternT_eq_greedy h, Option.some.injEq, Bool.eq_iff_iff, decide_eq_true_iff,
    greedy_iff]
  constructor
  · rintro ⟨ns, hl, hns⟩
    cases hns with
    | cons hn hns =>
      obtain ⟨rest, ho, -, rfl, -⟩ := hl
      have hlen := ho.length_eq
      have hn : _ ≤ 2 ^ 32 - 1 := hn
      simp only [segments, List.length_nil] at hlen
      omega
  · intro hlen
    refine ⟨[(N.chars eval).length], ⟨[], ⟨N.chars eval, [], by simp, rfl, .nil⟩,
      fun hne => absurd rfl hne, rfl, rfl⟩, .cons ?_ .nil⟩
    exact Nat.le_pred_of_lt hlen

end Spec

/-- A pattern spells every string it matches. -/
theorem matchPattern_sound :
    (∀ (eval pattern : List UInt8) (ts : List (Token ℤ)), Parses nextCharUtf8 false pattern ts →
      matchPattern eval pattern = some true → SpellsString nextCharUtf8 ts eval) ∧
    (∀ (eval pattern : List UInt16) (ts : List (Token ℤ)), Parses nextCharUtf16 false pattern ts →
      matchPattern16 eval pattern = some true → SpellsString nextCharUtf16 ts eval) :=
  ⟨fun _ _ _ h hmatch => matchPatternT_sound h hmatch,
    fun _ _ _ h hmatch => matchPatternT_sound h hmatch⟩

/-- The characters of an ASCII string are its bytes. -/
theorem chars_ascii {s : List UInt8} (h : ∀ u ∈ s, u.toNat < 0x80) :
    nextCharUtf8.chars s = s.map fun u => (u.toNat : ℤ) := by
  induction s with
  | nil => exact nextCharUtf8.chars_nil
  | cons u s ih =>
    have hu := h u List.mem_cons_self
    have hn : nextCharUtf8.next (u :: s) = some ((u.toNat : ℤ), s) := by
      simp only [nextCharUtf8, cbu8Next_eq List.drop_zero (List.cons_ne_nil u s),
        Unicode.decodeNext, if_pos hu]
      rfl
    rw [NextChar.chars_of_next hn, ih fun v hv => h v (List.mem_cons_of_mem _ hv), List.map_cons]

theorem matchPattern_sound_abc :
    SpellsString nextCharUtf8 [.lit 0x61, .star, .lit 0x63] [0x61, 0x62, 0x63] := by
  have hp : Parses nextCharUtf8 false [0x61, 0x2A, 0x63] [.lit 0x61, .star, .lit 0x63] := by
    rw [Parses, chars_ascii (by simp)]
    decide
  apply matchPattern_sound.1 [0x61, 0x62, 0x63] [0x61, 0x2A, 0x63] _ hp
  rw [matchPattern, matchPatternT_eq_greedy hp, chars_ascii (by simp)]
  decide

/-- A string that the pattern spells is matched if and only if the leftmost placement
stays within the wildcards: a segment is not tried again further on. -/
theorem matchPattern_complete_iff {eval pattern : List UInt8} {eval16 pattern16 : List UInt16}
    {ts ts16 : List (Token ℤ)} (h : Parses nextCharUtf8 false pattern ts)
    (h16 : Parses nextCharUtf16 false pattern16 ts16) :
    ((SpellsString nextCharUtf8 ts eval → matchPattern eval pattern = some true) ↔
      (SpellsString nextCharUtf8 ts eval → LeftmostWithin nextCharUtf8 ts eval)) ∧
    ((SpellsString nextCharUtf16 ts16 eval16 → matchPattern16 eval16 pattern16 = some true) ↔
      (SpellsString nextCharUtf16 ts16 eval16 → LeftmostWithin nextCharUtf16 ts16 eval16)) := by
  constructor
  · exact imp_congr_right fun _ => matchPatternT_eq_true_iff h
  · exact imp_congr_right fun _ => matchPatternT_eq_true_iff h16

/-- `?a?b` on `ab`. -/
theorem matchPattern_complete_ab :
    matchPattern [0x61, 0x62] [0x3F, 0x61, 0x3F, 0x62] = some true := by
  have hp : Parses nextCharUtf8 false [0x3F, 0x61, 0x3F, 0x62]
      [.opt, .lit 0x61, .opt, .lit 0x62] := by
    rw [Parses, chars_ascii (by simp)]
    decide
  have hchars : nextCharUtf8.chars [0x61, 0x62] = [0x61, 0x62] := chars_ascii (by simp)
  have hp16 : Parses nextCharUtf16 false [] [] := parses_nil_iff.mpr rfl
  apply (@matchPattern_complete_iff [0x61, 0x62] _ [] _ _ _ hp hp16).1.mpr
  · intro _
    rw [LeftmostWithin, hchars, ← greedy_iff]
    decide
  · rw [SpellsString, hchars]
    exact .optSkip (.lit (by decide) (.optSkip (.lit (by decide) .nil)))

/-- `?a?b` spells `aaab`, but the first `a` of the pattern takes the first of the string,
and then too many letters are left for the second question mark. -/
theorem matchPattern_misses_aaab :
    ∃ ts, Parses nextCharUtf8 false [0x3F, 0x61, 0x3F, 0x62] ts ∧
      (∃ g ∈ segmentList ts, g.asterisk = false ∧ g.questionMarks ≠ 0) ∧
      ¬(SpellsString nextCharUtf8 ts [0x61, 0x61, 0x61, 0x62] →
        matchPattern [0x61, 0x61, 0x61, 0x62] [0x3F, 0x61, 0x3F, 0x62] = some true) := by
  have hp : Parses nextCharUtf8 false [0x3F, 0x61, 0x3F, 0x62]
      [.opt, .lit 0x61, .opt, .lit 0x62] := by
    rw [Parses, chars_ascii (by simp)]
    decide
  refine ⟨_, hp, by decide, fun h => ?_⟩
  have hmatch := h ?_
  · rw [matchPattern, matchPatternT_eq_greedy hp, chars_ascii (by simp)] at hmatch
    exact absurd hmatch (by decide)
  · rw [SpellsString, chars_ascii (by simp)]
    exact .optTake _ (.lit (by decide) (.optTake _ (.lit (by decide) .nil)))

/-- With an asterisk in every run of wildcards the search returns, and misses a string
that the pattern spells only where a gap of the leftmost placement is too long for the
counter. -/
theorem matchPattern_star_complete_iff {eval pattern : List UInt8}
    {eval16 pattern16 : List UInt16} {ts ts16 : List (Token ℤ)}
    (h : Parses nextCharUtf8 false pattern ts) (hstar : StarPattern ts)
    (h16 : Parses nextCharUtf16 false pattern16 ts16) (hstar16 : StarPattern ts16) :
    (∃ matched, matchPattern eval pattern = some matched ∧
      ((SpellsString nextCharUtf8 ts eval → matched = true) ↔
        (SpellsString nextCharUtf8 ts eval → ∀ ns,
          Leftmost CharMatches (segmentList ts) (nextCharUtf8.chars eval) ns →
            ∀ n ∈ ns, n < 2 ^ 32))) ∧
    ∃ matched, matchPattern16 eval16 pattern16 = some matched ∧
      ((SpellsString nextCharUtf16 ts16 eval16 → matched = true) ↔
        (SpellsString nextCharUtf16 ts16 eval16 → ∀ ns,
          Leftmost CharMatches (segmentList ts16) (nextCharUtf16.chars eval16) ns →
            ∀ n ∈ ns, n < 2 ^ 32)) := by
  constructor
  · exact matchPatternT_star_complete_iff h hstar
  · exact matchPatternT_star_complete_iff h16 hstar16

theorem matchPattern_star_complete_abc :
    matchPattern [0x61, 0x62, 0x63] [0x61, 0x2A, 0x63] = some true := by
  have hp : Parses nextCharUtf8 false [0x61, 0x2A, 0x63] [.lit 0x61, .star, .lit 0x63] := by
    rw [Parses, chars_ascii (by simp)]
    decide
  have hstar : StarPattern [.lit 0x61, .star, .lit 0x63] := by
    unfold StarPattern
    decide
  have hchars : nextCharUtf8.chars [0x61, 0x62, 0x63] = [0x61, 0x62, 0x63] := chars_ascii (by simp)
  have hp16 : Parses nextCharUtf16 false [] [] := parses_nil_iff.mpr rfl
  have hstar16 : StarPattern [] := by
    unfold StarPattern
    decide
  obtain ⟨matched, hmatched, hiff⟩ :=
    (@matchPattern_star_complete_iff [0x61, 0x62, 0x63] _ [] _ _ _ hp hstar hp16 hstar16).1
  rw [hmatched, hiff.mpr]
  · intro _ ns hl n hn
    have hle := hl.le_length n hn
    rw [hchars] at hle
    exact lt_of_le_of_lt hle (by decide)
  · rw [SpellsString, hchars]
    exact .lit (by decide) (.star [0x62] (.lit (by decide) .nil))

/-- An asterisk does not take `2 ^ 32` letters: the counter that starts at `-1` to be
unlimited comes round to zero. -/
theorem matchPattern_star_misses :
    ∃ ts, Parses nextCharUtf8 false [0x2A] ts ∧ StarPattern ts ∧
      ¬(SpellsString nextCharUtf8 ts (List.replicate (2 ^ 32) 0x61) →
        matchPattern (List.replicate (2 ^ 32) 0x61) [0x2A] = some true) := by
  have hp : Parses nextCharUtf8 false [0x2A] [.star] := by
    rw [Parses, chars_ascii (by simp)]
    decide
  refine ⟨_, hp, by unfold StarPattern; decide, fun h => ?_⟩
  generalize hn : 2 ^ 32 = n at h
  have hchars : (nextCharUtf8.chars (List.replicate n 0x61)).length = n := by
    rw [chars_ascii fun u hu => by rw [(List.mem_replicate.mp hu).2]; decide, List.length_map,
      List.length_replicate]
  have hmatch := h ?_
  · rw [matchPattern, matchPatternT_star hp, hchars, hn] at hmatch
    simp at hmatch
  · have hs := Spells.star (nextCharUtf8.chars (List.replicate n 0x61))
      (Spells.nil (R := CharMatches))
    rwa [List.append_nil] at hs

end MiniChromium
