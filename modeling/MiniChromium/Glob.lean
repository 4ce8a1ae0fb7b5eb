import Mathlib.Data.List.Forall2
import Mathlib.Data.Nat.Find

/-!
# Glob patterns and leftmost placements

A pattern is a list of literals and of the wildcards `*` (any word) and `?` (at most
one letter); `R a b` says that the literal `a` matches the letter `b`. A pattern falls
into segments, each a run of wildcards and the literals after it. Placing the literals
of every segment in a word, with a gap before each that the wildcards allow, is the same
as spelling the word. The leftmost placement puts the literals of every segment but the
last at their first occurrence.
-/
namespace MiniChromium.Glob

variable {α β : Type*}

inductive Token (α : Type*)
  | star
  | opt
  | lit (a : α)
  deriving DecidableEq

/-- The pattern spells the word under some assignment of its wildcards. -/
inductive Spells (R : α → β → Prop) : List (Token α) → List β → Prop
  | nil : Spells R [] []
  | star (u : List β) {ts w} : Spells R ts w → Spells R (.star :: ts) (u ++ w)
  | optSkip {ts w} : Spells R ts w → Spells R (.opt :: ts) w
  | optTake (b : β) {ts w} : Spells R ts w → Spells R (.opt :: ts) (b :: w)
  | lit {a b ts w} : R a b → Spells R ts w → Spells R (.lit a :: ts) (b :: w)

/-- A run of wildcards, and the literals up to the next run. -/
@[ext] structure Segment (α : Type*) where
  asterisk : Bool
  questionMarks : ℕ
  literals : List α
  deriving DecidableEq

/-- The segment starts with a wildcard. -/
def Segment.HasWildcard (g : Segment α) : Prop := g.asterisk = true ∨ g.questionMarks ≠ 0

instance (g : Segment α) : Decidable g.HasWildcard :=
  inferInstanceAs (Decidable (_ ∨ _))

/-- The wildcards of the segment can stand for `n` letters. -/
def Segment.Allows (g : Segment α) (n : ℕ) : Prop := g.asterisk = true ∨ n ≤ g.questionMarks

/-- The first segment of a pattern, and the others. -/
def segments : List (Token α) → Segment α × List (Segment α)
  | [] => (⟨false, 0, []⟩, [])
  | .star :: ts => ({ (segments ts).1 with asterisk := true }, (segments ts).2)
  | .opt :: ts =>
    ({ (segments ts).1 with questionMarks := (segments ts).1.questionMarks + 1 }, (segments ts).2)
  | .lit a :: ts =>
    if (segments ts).1.HasWildcard then (⟨false, 0, [a]⟩, (segments ts).1 :: (segments ts).2)
    else (⟨false, 0, a :: (segments ts).1.literals⟩, (segments ts).2)

/-- All segments of a pattern. -/
def segmentList (ts : List (Token α)) : List (Segment α) := (segments ts).1 :: (segments ts).2

def StartsWithWildcard : List (Token α) → Prop
  | .star :: _ | .opt :: _ => True
  | _ => False

theorem hasWildcard_iff (ts : List (Token α)) :
    (segments ts).1.HasWildcard ↔ StartsWithWildcard ts := by
  cases ts with
  | nil => simp [segments, Segment.HasWildcard, StartsWithWildcard]
  | cons t ts =>
    cases t with
    | star => simp [segments, Segment.HasWildcard, StartsWithWildcard]
    | opt => simp [segments, Segment.HasWildcard, StartsWithWildcard]
    | lit a =>
      simp only [segments, StartsWithWildcard, iff_false]
      split_ifs <;> simp [Segment.HasWildcard]

theorem segmentList_lit_of_wildcard {ts : List (Token α)} (a : α)
    (h : (segments ts).1.HasWildcard) :
    segmentList (.lit a :: ts) = ⟨false, 0, [a]⟩ :: segmentList ts := by
  rw [segmentList, segments, if_pos h, segmentList]

theorem segmentList_lit_of_not {ts : List (Token α)} (a : α) (h : ¬(segments ts).1.HasWildcard) :
    segmentList (.lit a :: ts) = ⟨false, 0, a :: (segments ts).1.literals⟩ :: (segments ts).2 := by
  rw [segmentList, segments, if_neg h]

/-- Every segment after the first starts with a wildcard. -/
theorem hasWildcard_of_mem_segments {ts : List (Token α)} {g : Segment α}
    (hg : g ∈ (segments ts).2) :
    g.HasWildcard := by
  induction ts with
  | nil => simp [segments] at hg
  | cons t ts ih =>
    cases t with
    | star => exact ih hg
    | opt => exact ih hg
    | lit a =>
      rw [segments] at hg
      split_ifs at hg with hw
      · obtain rfl | hg := List.mem_cons.mp hg
        · exact hw
        · exact ih hg
      · exact ih hg

/-- A pattern that starts with no wildcard is its literals, up to the next wildcard. -/
theorem exists_literals {ts : List (Token α)} (h : ¬StartsWithWildcard ts) :
    ∃ (lits : List α) (tail : List (Token α)), ts = lits.map .lit ++ tail ∧
      (tail = [] ∨ StartsWithWildcard tail) ∧
      segmentList ts = ⟨false, 0, lits⟩ :: if tail.isEmpty then [] else segmentList tail := by
  induction ts with
  | nil => exact ⟨[], [], rfl, .inl rfl, rfl⟩
  | cons t ts ih =>
    cases t with
    | star => exact absurd trivial h
    | opt => exact absurd trivial h
    | lit a =>
      by_cases hw : StartsWithWildcard ts
      · have hne : ts.isEmpty = false := by
          cases ts with
          | nil => exact hw.elim
          | cons => rfl
        refine ⟨[a], ts, rfl, .inr hw, ?_⟩
        rw [segmentList_lit_of_wildcard a ((hasWildcard_iff ts).mpr hw), hne]
        rfl
      · obtain ⟨lits, tail, rfl, ht, hg⟩ := ih hw
        refine ⟨a :: lits, tail, rfl, ht, ?_⟩
        obtain ⟨hhead, htail⟩ := List.cons.inj hg
        rw [segmentList_lit_of_not a (mt (hasWildcard_iff _).mp hw), hhead, htail]

/-- The literals occur in the word after a gap of `n` letters, and `rest` follows them. -/
def Occurs (R : α → β → Prop) (lits : List α) (w : List β) (n : ℕ) (rest : List β) : Prop :=
  ∃ u v, w = u ++ (v ++ rest) ∧ u.length = n ∧ List.Forall₂ R lits v

/-- The segments are placed one after another, with these gaps, and fill the word. -/
def Placed (R : α → β → Prop) : List (Segment α) → List β → List ℕ → Prop
  | [], w, ns => w = [] ∧ ns = []
  | _ :: _, _, [] => False
  | g :: gs, w, n :: ns => ∃ rest, Occurs R g.literals w n rest ∧ Placed R gs rest ns

/-- A placement in which every segment but the last stands at its first occurrence. -/
def Leftmost (R : α → β → Prop) : List (Segment α) → List β → List ℕ → Prop
  | [], w, ns => w = [] ∧ ns = []
  | _ :: _, _, [] => False
  | g :: gs, w, n :: ns =>
    ∃ rest, Occurs R g.literals w n rest ∧
      (gs ≠ [] → ∀ m < n, ∀ rest', ¬Occurs R g.literals w m rest') ∧ Leftmost R gs rest ns

variable {R : α → β → Prop} {lits : List α} {w rest : List β} {n : ℕ}

theorem Occurs.length_eq (h : Occurs R lits w n rest) :
    w.length = n + lits.length + rest.length := by
  obtain ⟨u, v, rfl, rfl, hv⟩ := h
  simp only [List.length_append, hv.length_eq]
  omega

theorem Occurs.append_left (h : Occurs R lits w n rest) (u : List β) :
    Occurs R lits (u ++ w) (u.length + n) rest := by
  obtain ⟨u', v, rfl, rfl, hv⟩ := h
  exact ⟨u ++ u', v, by simp, by simp, hv⟩

/-- The letters before the gap can be dropped. -/
theorem Occurs.drop (h : Occurs R lits w n rest) {m : ℕ} (hm : m ≤ n) :
    Occurs R lits (w.drop m) (n - m) rest := by
  obtain ⟨u, v, rfl, rfl, hv⟩ := h
  exact ⟨u.drop m, v, by rw [List.drop_append_of_le_length hm], by simp, hv⟩

theorem occurs_cons_zero {a : α} {b : β} :
    Occurs R (a :: lits) (b :: w) 0 rest ↔ R a b ∧ Occurs R lits w 0 rest := by
  constructor
  · rintro ⟨u, v, hw, hu, hv⟩
    obtain rfl := List.length_eq_zero_iff.mp hu
    cases hv with
    | cons hab hv =>
      obtain ⟨rfl, rfl⟩ := List.cons.inj hw
      exact ⟨hab, [], _, rfl, rfl, hv⟩
  · rintro ⟨hab, u, v, rfl, hu, hv⟩
    obtain rfl := List.length_eq_zero_iff.mp hu
    exact ⟨[], b :: v, rfl, rfl, .cons hab hv⟩

theorem occurs_nil_zero : Occurs R [] w 0 rest ↔ w = rest := by
  constructor
  · rintro ⟨u, v, rfl, hu, hv⟩
    obtain rfl := List.length_eq_zero_iff.mp hu
    cases hv
    rfl
  · rintro rfl
    exact ⟨[], [], rfl, rfl, .nil⟩

theorem occurs_cons_succ {b : β} :
    Occurs R lits (b :: w) (n + 1) rest ↔ Occurs R lits w n rest := by
  constructor
  · intro h
    exact h.drop (Nat.succ_le_succ n.zero_le)
  · intro h
    have h := h.append_left [b]
    rwa [List.length_singleton, Nat.add_comm] at h

theorem not_occurs_nil_succ : ¬Occurs R lits [] (n + 1) rest := by
  intro h
  have h := h.length_eq
  rw [List.length_nil] at h
  omega

/-- With the same gap the same letters follow. -/
theorem Occurs.rest_unique {rest' : List β} (h : Occurs R lits w n rest)
    (h' : Occurs R lits w n rest') : rest = rest' := by
  have hd : ∀ {r}, Occurs R lits w n r → r = w.drop (n + lits.length) := by
    rintro r ⟨u, v, rfl, rfl, hv⟩
    rw [hv.length_eq, ← List.drop_drop, List.drop_left, List.drop_left]
  rw [hd h, hd h']

theorem spells_star_iff {ts : List (Token α)} :
    Spells R (.star :: ts) w ↔ ∃ u w', w = u ++ w' ∧ Spells R ts w' := by
  constructor
  · intro h
    cases h with
    | star u h => exact ⟨u, _, rfl, h⟩
  · rintro ⟨u, w', rfl, h⟩
    exact .star u h

theorem spells_opt_iff {ts : List (Token α)} :
    Spells R (.opt :: ts) w ↔ Spells R ts w ∨ ∃ b w', w = b :: w' ∧ Spells R ts w' := by
  constructor
  · intro h
    cases h with
    | optSkip h => exact .inl h
    | optTake b h => exact .inr ⟨b, _, rfl, h⟩
  · rintro (h | ⟨b, w', rfl, h⟩)
    · exact .optSkip h
    · exact .optTake b h

theorem spells_lit_iff {a : α} {ts : List (Token α)} :
    Spells R (.lit a :: ts) w ↔ ∃ b w', w = b :: w' ∧ R a b ∧ Spells R ts w' := by
  constructor
  · intro h
    cases h with
    | lit hab h => exact ⟨_, _, rfl, hab, h⟩
  · rintro ⟨b, w', rfl, hab, h⟩
    exact .lit hab h

/-- A placement with gaps that the wildcards allow. -/
def Fits (R : α → β → Prop) (gs : List (Segment α)) (w : List β) : Prop :=
  ∃ ns, Placed R gs w ns ∧ List.Forall₂ Segment.Allows gs ns

theorem fits_cons_iff {g : Segment α} {gs : List (Segment α)} :
    Fits R (g :: gs) w ↔ ∃ n rest, g.Allows n ∧ Occurs R g.literals w n rest ∧ Fits R gs rest := by
  constructor
  · rintro ⟨ns, hp, hf⟩
    cases hf with
    | cons hn hf =>
      obtain ⟨rest, ho, hp⟩ := hp
      exact ⟨_, rest, hn, ho, _, hp, hf⟩
  · rintro ⟨n, rest, hn, ho, ns, hp, hf⟩
    exact ⟨n :: ns, ⟨rest, ho, hp⟩, .cons hn hf⟩

theorem fits_star_iff {g : Segment α} {gs : List (Segment α)} :
    Fits R ({ g with asterisk := true } :: gs) w ↔ ∃ u w', w = u ++ w' ∧ Fits R (g :: gs) w' := by
  constructor
  · intro h
    obtain ⟨n, rest, -, ho, hf⟩ := fits_cons_iff.mp h
    refine ⟨w.take n, w.drop n, (List.take_append_drop n w).symm, ?_⟩
    have ho := ho.drop (le_refl n)
    rw [Nat.sub_self] at ho
    exact fits_cons_iff.mpr ⟨0, rest, .inr (Nat.zero_le _), ho, hf⟩
  · rintro ⟨u, w', rfl, h⟩
    obtain ⟨n, rest, -, ho, hf⟩ := fits_cons_iff.mp h
    exact fits_cons_iff.mpr ⟨u.length + n, rest, .inl rfl, ho.append_left u, hf⟩

theorem fits_opt_iff {g : Segment α} {gs : List (Segment α)} :
    Fits R ({ g with questionMarks := g.questionMarks + 1 } :: gs) w ↔
      Fits R (g :: gs) w ∨ ∃ b w', w = b :: w' ∧ Fits R (g :: gs) w' := by
  constructor
  · intro h
    obtain ⟨n, rest, hn, ho, hf⟩ := fits_cons_iff.mp h
    by_cases hg : g.Allows n
    · exact .inl (fits_cons_iff.mpr ⟨n, rest, hg, ho, hf⟩)
    · unfold Segment.Allows at hn hg
      obtain ⟨n, rfl⟩ : ∃ m, n = m + 1 := ⟨n - 1, by grind⟩
      cases w with
      | nil => exact absurd ho not_occurs_nil_succ
      | cons b w =>
        refine .inr ⟨b, w, rfl, fits_cons_iff.mpr ⟨n, rest, ?_, occurs_cons_succ.mp ho, hf⟩⟩
        exact hn.imp id fun hn => Nat.le_of_succ_le_succ hn
  · rintro (h | ⟨b, w', rfl, h⟩)
    · obtain ⟨n, rest, hn, ho, hf⟩ := fits_cons_iff.mp h
      exact fits_cons_iff.mpr ⟨n, rest, hn.imp id Nat.le_succ_of_le, ho, hf⟩
    · obtain ⟨n, rest, hn, ho, hf⟩ := fits_cons_iff.mp h
      exact fits_cons_iff.mpr ⟨n + 1, rest, hn.imp id Nat.succ_le_succ, occurs_cons_succ.mpr ho, hf⟩

/-- A segment with no wildcard has no gap. -/
theorem fits_literals_iff {gs : List (Segment α)} :
    Fits R (⟨false, 0, lits⟩ :: gs) w ↔ ∃ rest, Occurs R lits w 0 rest ∧ Fits R gs rest := by
  rw [fits_cons_iff]
  constructor
  · rintro ⟨n, rest, hn, ho, hf⟩
    obtain rfl : n = 0 := by simpa [Segment.Allows] using hn
    exact ⟨rest, ho, hf⟩
  · rintro ⟨rest, ho, hf⟩
    exact ⟨0, rest, .inr le_rfl, ho, hf⟩

/-- One literal more at the front of the first segment. -/
theorem fits_lit_iff {a : α} {gs : List (Segment α)} :
    Fits R (⟨false, 0, a :: lits⟩ :: gs) w ↔
      ∃ b w', w = b :: w' ∧ R a b ∧ Fits R (⟨false, 0, lits⟩ :: gs) w' := by
  constructor
  · intro h
    obtain ⟨rest, ho, hf⟩ := fits_literals_iff.mp h
    cases w with
    | nil => exact absurd ho.length_eq (by simp only [List.length_nil, List.length_cons]; omega)
    | cons b w =>
      obtain ⟨hab, ho⟩ := occurs_cons_zero.mp ho
      exact ⟨b, w, rfl, hab, fits_literals_iff.mpr ⟨rest, ho, hf⟩⟩
  · rintro ⟨b, w', rfl, hab, h⟩
    obtain ⟨rest, ho, hf⟩ := fits_literals_iff.mp h
    exact fits_literals_iff.mpr ⟨rest, occurs_cons_zero.mpr ⟨hab, ho⟩, hf⟩

/-- A pattern spells a word if and only if its segments can be placed in it. -/
theorem spells_iff_fits (ts : List (Token α)) (w : List β) :
    Spells R ts w ↔ Fits R (segmentList ts) w := by
  induction ts generalizing w with
  | nil =>
    rw [segmentList, segments, fits_literals_iff]
    constructor
    · intro h
      cases h
      exact ⟨[], occurs_nil_zero.mpr rfl, [], ⟨rfl, rfl⟩, .nil⟩
    · rintro ⟨rest, ho, ns, hp, hf⟩
      cases hf
      obtain rfl := occurs_nil_zero.mp ho
      rw [hp.1]
      exact .nil
  | cons t ts ih =>
    cases t with
    | star => simp only [spells_star_iff, segmentList, segments, fits_star_iff, ih]
    | opt => simp only [spells_opt_iff, segmentList, segments, fits_opt_iff, ih]
    | lit a =>
      simp only [spells_lit_iff, ih]
      by_cases hw : (segments ts).1.HasWildcard
      · rw [segmentList_lit_of_wildcard a hw, fits_lit_iff]
        simp only [fits_literals_iff, occurs_nil_zero, exists_eq_left']
      · have hg : (segments ts).1 = ⟨false, 0, (segments ts).1.literals⟩ := by
          obtain ⟨ha, hq⟩ := not_or.mp hw
          ext1
          · exact Bool.eq_false_iff.mpr ha
          · exact not_not.mp hq
          · rfl
        rw [segmentList_lit_of_not a hw]
        simp only [fits_lit_iff, segmentList, ← hg]

theorem Leftmost.placed {gs : List (Segment α)} {ns : List ℕ} (h : Leftmost R gs w ns) :
    Placed R gs w ns := by
  induction gs generalizing w ns with
  | nil => exact h
  | cons g gs ih =>
    cases ns with
    | nil => exact h
    | cons n ns =>
      obtain ⟨rest, ho, -, hl⟩ := h
      exact ⟨rest, ho, ih hl⟩

theorem Leftmost.unique {gs : List (Segment α)} {ns ns' : List ℕ} (h : Leftmost R gs w ns)
    (h' : Leftmost R gs w ns') : ns = ns' := by
  induction gs generalizing w ns ns' with
  | nil => rw [h.2, h'.2]
  | cons g gs ih =>
    cases ns with
    | nil => exact h.elim
    | cons n ns =>
    cases ns' with
    | nil => exact h'.elim
    | cons n' ns' =>
      obtain ⟨rest, ho, hmin, hl⟩ := h
      obtain ⟨rest', ho', hmin', hl'⟩ := h'
      have hn : n = n' := by
        cases gs with
        | nil =>
          have hlen := ho.length_eq
          have hlen' := ho'.length_eq
          rw [hl.1] at hlen
          rw [hl'.1] at hlen'
          omega
        | cons =>
          rcases Nat.lt_trichotomy n n' with hlt | heq | hgt
          · exact absurd ho (hmin' (List.cons_ne_nil _ _) n hlt rest)
          · exact heq
          · exact absurd ho' (hmin (List.cons_ne_nil _ _) n' hgt rest')
      subst hn
      obtain rfl := ho.rest_unique ho'
      rw [ih hl hl']

/-- No gap is longer than the word. -/
theorem Leftmost.le_length {gs : List (Segment α)} {ns : List ℕ} (h : Leftmost R gs w ns) :
    ∀ n ∈ ns, n ≤ w.length := by
  induction gs generalizing w ns with
  | nil => simp [h.2]
  | cons g gs ih =>
    cases ns with
    | nil => exact h.elim
    | cons n ns =>
      obtain ⟨rest, ho, -, hl⟩ := h
      have hlen := ho.length_eq
      rw [List.forall_mem_cons]
      refine ⟨by omega, fun m hm => ?_⟩
      have hle := ih hl m hm
      omega

/-- Where every later segment has an asterisk, letters can be added in front. -/
theorem Fits.append_left {g : Segment α} {gs : List (Segment α)} (hg : g.asterisk = true)
    (h : Fits R (g :: gs) w) (u : List β) : Fits R (g :: gs) (u ++ w) := by
  obtain ⟨n, rest, -, ho, hf⟩ := fits_cons_iff.mp h
  exact fits_cons_iff.mpr ⟨u.length + n, rest, .inl hg, ho.append_left u, hf⟩

/-- The exchange argument: a segment moved to its first occurrence leaves more letters
to the segments after it, and their asterisks absorb these. -/
theorem Fits.exists_leftmost {g : Segment α} {gs : List (Segment α)}
    (hgs : ∀ g' ∈ gs, g'.asterisk = true) (h : Fits R (g :: gs) w) :
    ∃ ns, Leftmost R (g :: gs) w ns ∧ List.Forall₂ Segment.Allows (g :: gs) ns := by
  induction gs generalizing g w with
  | nil =>
    obtain ⟨n, rest, hn, ho, ns, hp, hf⟩ := fits_cons_iff.mp h
    exact ⟨n :: ns, ⟨rest, ho, fun hne => absurd rfl hne, hp⟩, .cons hn hf⟩
  | cons g' gs ih =>
    obtain ⟨n, rest, hn, ho, hf⟩ := fits_cons_iff.mp h
    classical
    have hex : ∃ m rest', Occurs R g.literals w m rest' := ⟨n, rest, ho⟩
    obtain ⟨rest', ho'⟩ := Nat.find_spec hex
    have hle : Nat.find hex ≤ n := Nat.find_min' hex ⟨rest, ho⟩
    have hsuffix : ∃ u, rest' = u ++ rest := by
      obtain ⟨u, v, rfl, hu, hv⟩ := ho
      obtain ⟨u', v', hw, hu', hv'⟩ := ho'
      have hlen : u'.length + v'.length ≤ u.length + v.length := by
        rw [hu, hu', ← hv.length_eq, ← hv'.length_eq]
        omega
      rw [← List.append_assoc, ← List.append_assoc] at hw
      refine ⟨(u ++ v).drop (u'.length + v'.length), ?_⟩
      have hdrop := congrArg (List.drop (u' ++ v').length) hw
      rw [List.drop_left, List.drop_append_of_le_length (by simpa using hlen)] at hdrop
      simpa using hdrop.symm
    obtain ⟨u, rfl⟩ := hsuffix
    obtain ⟨ns, hl, hns⟩ := ih (fun g₀ hg₀ => hgs g₀ (List.mem_cons_of_mem _ hg₀))
      (hf.append_left (hgs g' List.mem_cons_self) u)
    refine ⟨Nat.find hex :: ns, ⟨_, ho', fun _ m hm r hr => Nat.find_min hex hm ⟨r, hr⟩, hl⟩, ?_⟩
    exact .cons (hn.imp id (le_trans hle)) hns

/-- What the search for one segment finds: the first occurrence, or for the last segment the
one at the end of the word. -/
def Found (R : α → β → Prop) (lits : List α) (last : Bool) (w : List β) (n : ℕ)
    (rest : List β) : Prop :=
  Occurs R lits w n rest ∧ if last then rest = [] else ∀ m < n, ∀ rest', ¬Occurs R lits w m rest'

/-- The search moves on by one letter if and only if it finds nothing where it stands. -/
theorem found_cons_succ_iff {last : Bool} {b : β} : Found R lits last (b :: w) (n + 1) rest ↔
    (∀ rest', ¬Found R lits last (b :: w) 0 rest') ∧ Found R lits last w n rest := by
  unfold Found
  rw [occurs_cons_succ]
  cases last with
  | true =>
    simp only [if_true]
    constructor
    · rintro ⟨ho, rfl⟩
      refine ⟨?_, ho, rfl⟩
      rintro rest' ⟨ho', rfl⟩
      have hlen := ho.length_eq
      have hlen' := ho'.length_eq
      rw [List.length_cons] at hlen'
      omega
    · rintro ⟨-, ho⟩
      exact ho
  | false =>
    simp only [Bool.false_eq_true, if_false, Nat.not_lt_zero, false_implies, implies_true, and_true]
    constructor
    · rintro ⟨ho, hmin⟩
      refine ⟨hmin 0 n.succ_pos, ho, fun m hm rest' ho' => ?_⟩
      exact hmin (m + 1) (Nat.succ_lt_succ hm) rest' (occurs_cons_succ.mpr ho')
    · rintro ⟨hzero, ho, hmin⟩
      refine ⟨ho, fun m hm rest' ho' => ?_⟩
      cases m with
      | zero => exact hzero rest' ho'
      | succ m => exact hmin m (Nat.lt_of_succ_lt_succ hm) rest' (occurs_cons_succ.mp ho')

theorem leftmost_cons_iff {g : Segment α} {gs : List (Segment α)} {ns : List ℕ} :
    Leftmost R (g :: gs) w (n :: ns) ↔
      ∃ rest, Found R g.literals gs.isEmpty w n rest ∧ Leftmost R gs rest ns := by
  rw [Leftmost]
  refine exists_congr fun rest => ?_
  rw [← and_assoc]
  refine and_congr_left fun hl => and_congr_right fun _ => ?_
  cases gs with
  | nil => simp [hl.1]
  | cons => simp

section Search

variable (R) [DecidableRel R]

/-- Match the literals at the start of the word. -/
def strip : List α → List β → Option (List β)
  | [], w => some w
  | _ :: _, [] => none
  | a :: lits, b :: w => if R a b then strip lits w else none

/-- The letters after the literals; the last segment must end the word. -/
def accept (lits : List α) (last : Bool) (w : List β) : Option (List β) :=
  (strip R lits w).filter fun rest => !last || rest.isEmpty

/-- The first accepted occurrence after at most `budget` letters. -/
def find (lits : List α) (last : Bool) : ℕ → List β → Option (List β)
  | _, [] => accept R lits last []
  | 0, b :: w => accept R lits last (b :: w)
  | budget + 1, b :: w => (accept R lits last (b :: w)).or (find lits last budget w)

variable {R}

theorem strip_eq_some_iff : strip R lits w = some rest ↔ Occurs R lits w 0 rest := by
  induction lits generalizing w with
  | nil => rw [strip, occurs_nil_zero, Option.some.injEq]
  | cons a lits ih =>
    cases w with
    | nil =>
      simp only [strip, reduceCtorEq, false_iff]
      intro h
      have h := h.length_eq
      simp only [List.length_nil, List.length_cons] at h
      omega
    | cons b w =>
      rw [strip, occurs_cons_zero, ← ih]
      by_cases hab : R a b
      · rw [if_pos hab]
        exact (and_iff_right hab).symm
      · rw [if_neg hab]
        simp [hab]

theorem accept_eq_some_iff {last : Bool} :
    accept R lits last w = some rest ↔ Found R lits last w 0 rest := by
  rw [accept, Found, Option.filter_eq_some_iff, strip_eq_some_iff]
  cases last <;> simp

theorem accept_eq_none_iff {last : Bool} :
    accept R lits last w = none ↔ ∀ rest, ¬Found R lits last w 0 rest := by
  simp only [Option.eq_none_iff_forall_ne_some, ne_eq, accept_eq_some_iff]

/-- The search succeeds if and only if its goal is within the budget. -/
theorem find_eq_some_iff {last : Bool} {budget : ℕ} : find R lits last budget w = some rest ↔
    ∃ n ≤ budget, Found R lits last w n rest := by
  induction w generalizing budget with
  | nil =>
    rw [find, accept_eq_some_iff]
    constructor
    · intro h
      exact ⟨0, Nat.zero_le _, h⟩
    · rintro ⟨n, -, h⟩
      cases n with
      | zero => exact h
      | succ n => exact absurd h.1 not_occurs_nil_succ
  | cons b w ih =>
    cases budget with
    | zero =>
      rw [find, accept_eq_some_iff]
      simp only [Nat.le_zero, exists_eq_left]
    | succ budget =>
      rw [find, Option.or_eq_some_iff, accept_eq_some_iff, accept_eq_none_iff, ih]
      constructor
      · rintro (h | ⟨hzero, n, hn, h⟩)
        · exact ⟨0, Nat.zero_le _, h⟩
        · exact ⟨n + 1, Nat.succ_le_succ hn, found_cons_succ_iff.mpr ⟨hzero, h⟩⟩
      · rintro ⟨n, hn, h⟩
        cases n with
        | zero => exact .inl h
        | succ n =>
          obtain ⟨hzero, h⟩ := found_cons_succ_iff.mp h
          exact .inr ⟨hzero, n, Nat.le_of_succ_le_succ hn, h⟩

theorem find_zero {last : Bool} : find R lits last 0 w = accept R lits last w := by
  cases w <;> rfl

/-- An occurrence here is found whatever the budget. -/
theorem find_of_accept {last : Bool} (budget : ℕ) (h : accept R lits last w = some rest) :
    find R lits last budget w = some rest :=
  find_eq_some_iff.mpr ⟨0, Nat.zero_le _, accept_eq_some_iff.mp h⟩

theorem find_succ_of_accept_eq_none {last : Bool} {b : β} (budget : ℕ)
    (h : accept R lits last (b :: w) = none) :
    find R lits last (budget + 1) (b :: w) = find R lits last budget w := by
  rw [find, h, Option.none_or]

/-- Literals already matched make no difference. -/
theorem strip_append {done : List α} {v : List β} (h : List.Forall₂ R done v) :
    strip R (done ++ lits) (v ++ w) = strip R lits w := by
  induction h with
  | nil => rfl
  | cons hab _ ih =>
    rw [List.cons_append, List.cons_append, strip, if_pos hab, ih]

/-- A word too short for the literals. -/
theorem find_eq_none_of_length_lt {last : Bool} {budget : ℕ} (h : w.length < lits.length) :
    find R lits last budget w = none := by
  rw [Option.eq_none_iff_forall_ne_some]
  intro rest hr
  obtain ⟨n, -, ho, -⟩ := find_eq_some_iff.mp hr
  have hlen := ho.length_eq
  omega

variable (R) in
/-- Place segment after segment at its first occurrence, and never go back. -/
def greedy (budget : Segment α → ℕ) : List (Segment α) → List β → Bool
  | [], w => w.isEmpty
  | g :: gs, w => (find R g.literals gs.isEmpty (budget g) w).any (greedy budget gs)

/-- The greedy match succeeds if and only if no gap of the leftmost placement is over
its budget. -/
theorem greedy_iff (budget : Segment α → ℕ) (gs : List (Segment α)) (w : List β) :
    greedy R budget gs w = true ↔
      ∃ ns, Leftmost R gs w ns ∧ List.Forall₂ (fun g n => n ≤ budget g) gs ns := by
  induction gs generalizing w with
  | nil =>
    rw [greedy, List.isEmpty_iff]
    constructor
    · intro h
      exact ⟨[], ⟨h, rfl⟩, .nil⟩
    · rintro ⟨ns, hl, -⟩
      exact hl.1
  | cons g gs ih =>
    simp only [greedy, Option.any_eq_true, find_eq_some_iff, ih]
    constructor
    · rintro ⟨rest, ⟨n, hn, hfound⟩, ns, hl, hns⟩
      exact ⟨n :: ns, leftmost_cons_iff.mpr ⟨rest, hfound, hl⟩, .cons hn hns⟩
    · rintro ⟨ns, hl, hns⟩
      cases hns with
      | cons hn hns =>
        obtain ⟨rest, hfound, hl⟩ := leftmost_cons_iff.mp hl
        exact ⟨rest, ⟨_, hn, hfound⟩, _, hl, hns⟩

/-- A greedy match within the bounds of the wildcards is a spelling. -/
theorem fits_of_greedy {budget : Segment α → ℕ} {gs : List (Segment α)}
    (hbudget : ∀ g ∈ gs, ∀ n ≤ budget g, g.Allows n) (h : greedy R budget gs w = true) :
    Fits R gs w := by
  obtain ⟨ns, hl, hns⟩ := (greedy_iff budget gs w).mp h
  refine ⟨ns, hl.placed, ?_⟩
  clear h hl
  induction hns with
  | nil => exact .nil
  | cons hn _ ih =>
    exact .cons (hbudget _ List.mem_cons_self _ hn)
      (ih fun g hg => hbudget g (List.mem_cons_of_mem _ hg))

end Search

end MiniChromium.Glob
