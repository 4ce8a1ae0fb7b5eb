import Mathlib.Tactic.Common

/-!
# Regular expressions matched by backtracking

A regular expression with named groups, over any characters. The ways to match it at the front
of a text are listed in the order in which a backtracking matcher tries them, so that the first
one is the match. A substitution goes through a text from left to right, replaces the match where
there is one, and copies the characters between.
-/
namespace MiniChromium.Backtracking

inductive Regex (α ν : Type)
  /-- One character of a class. -/
  | char (p : α → Bool)
  /-- Characters of a class, as many as possible first. -/
  | star (p : α → Bool)
  /-- Characters of a class, as few as possible first. -/
  | lazyStar (p : α → Bool)
  /-- The expression, and then nothing. -/
  | opt (r : Regex α ν)
  | seq (r1 r2 : Regex α ν)
  | group (name : ν) (r : Regex α ν)

/-- What the groups hold, the text that is matched, and the text after it. -/
structure Match (α ν : Type) where
  groups : List (ν × List α)
  text : List α
  rest : List α

variable {α ν : Type}

/-- The ways to split a text after characters of the class, the shortest front first. -/
def splits (p : α → Bool) : List α → List (List α × List α)
  | [] => [([], [])]
  | c :: s =>
    ([], c :: s) :: if p c then (splits p s).map fun split => (c :: split.1, split.2) else []

/-- A match without groups. -/
def Match.ofSplit (split : List α × List α) : Match α ν := ⟨[], split.1, split.2⟩

/-- One match and another one behind it. -/
def Match.append (m1 m2 : Match α ν) : Match α ν :=
  ⟨m1.groups ++ m2.groups, m1.text ++ m2.text, m2.rest⟩

/-- The match held in a group. -/
def Match.inGroup (name : ν) (m : Match α ν) : Match α ν :=
  ⟨(name, m.text) :: m.groups, m.text, m.rest⟩

/-- All ways to match the expression at the front of a text, in the order of backtracking. -/
def run : Regex α ν → List α → List (Match α ν)
  | .char _, [] => []
  | .char p, c :: s => if p c then [⟨[], [c], s⟩] else []
  | .star p, s => (splits p s).reverse.map .ofSplit
  | .lazyStar p, s => (splits p s).map .ofSplit
  | .opt r, s => run r s ++ [⟨[], [], s⟩]
  | .seq r1 r2, s => (run r1 s).flatMap fun m1 => (run r2 m1.rest).map m1.append
  | .group name r, s => (run r s).map (.inGroup name)

/-- The match at the front of a text. -/
def first (r : Regex α ν) (s : List α) : Option (Match α ν) := (run r s).head?

/-- The characters of a text that are copied, and the groups of the matches in it. After a match
the text goes on behind as many characters as it had; a match has at least one. -/
def scan (r : Regex α ν) : ℕ → List α → List (α ⊕ List (ν × List α))
  | _, [] => []
  | skipped + 1, _ :: s => scan r skipped s
  | 0, c :: s =>
    match first r (c :: s) with
    | none => .inl c :: scan r 0 s
    | some m => .inr m.groups :: scan r (m.text.length - 1) s

/-- Copied characters, and matches by what replaces them. -/
def assemble {ε : Type} (repl : List (ν × List α) → Except ε (List α)) :
    List (α ⊕ List (ν × List α)) → Except ε (List α)
  | [] => .ok []
  | .inl c :: pieces => (assemble repl pieces).map (c :: ·)
  | .inr groups :: pieces =>
    (repl groups).bind fun value => (assemble repl pieces).map (value ++ ·)

/-- The text with every match replaced, unless some replacement fails. -/
def substitute {ε : Type} (r : Regex α ν) (repl : List (ν × List α) → Except ε (List α))
    (s : List α) : Except ε (List α) := assemble repl (scan r 0 s)

section Splits

variable {p : α → Bool} {s t rest : List α} {split : List α × List α}

theorem mem_splits : split ∈ splits p s ↔ s = split.1 ++ split.2 ∧ ∀ c ∈ split.1, p c = true := by
  induction s generalizing split with
  | nil =>
    rw [splits, List.mem_singleton]
    constructor
    · rintro rfl
      exact ⟨rfl, nofun⟩
    · rintro ⟨h, -⟩
      obtain ⟨h1, h2⟩ := List.append_eq_nil_iff.mp h.symm
      exact Prod.ext h1 h2
  | cons c s ih =>
    obtain ⟨front, back⟩ := split
    rw [splits, List.mem_cons]
    cases front with
    | nil =>
      constructor
      · rintro (h | h)
        · cases h
          exact ⟨rfl, nofun⟩
        · split_ifs at h
          · obtain ⟨split, -, hsplit⟩ := List.mem_map.mp h
            cases hsplit
          · cases h
      · rintro ⟨h, -⟩
        exact .inl (Prod.ext rfl h.symm)
    | cons d front =>
      constructor
      · rintro (h | h)
        · cases h
        · split_ifs at h with hc
          · obtain ⟨⟨front', back'⟩, hmem, hsplit⟩ := List.mem_map.mp h
            cases hsplit
            obtain ⟨rfl, hfront⟩ := ih.mp hmem
            exact ⟨rfl, List.forall_mem_cons.mpr ⟨hc, hfront⟩⟩
          · cases h
      · rintro ⟨h, hall⟩
        obtain ⟨rfl, hs⟩ := List.cons.inj h
        obtain ⟨hc, hfront⟩ := List.forall_mem_cons.mp hall
        rw [if_pos hc]
        exact .inr (List.mem_map.mpr ⟨(front, back), ih.mpr ⟨hs, hfront⟩, rfl⟩)

/-- Characters of the class at the front are split first, and then what follows them. -/
theorem splits_append (ht : ∀ c ∈ t, p c = true) (rest : List α) :
    ∃ shorter, splits p (t ++ rest) =
        shorter ++ (splits p rest).map (fun split => (t ++ split.1, split.2)) ∧
      ∀ split ∈ shorter, ∃ back ≠ [], t = split.1 ++ back ∧ split.2 = back ++ rest := by
  induction t with
  | nil => exact ⟨[], (List.map_id _).symm, nofun⟩
  | cons c t ih =>
    obtain ⟨hc, ht⟩ := List.forall_mem_cons.mp ht
    obtain ⟨shorter, hsplits, hshorter⟩ := ih ht
    refine ⟨([], c :: t ++ rest) :: shorter.map fun split => (c :: split.1, split.2), ?_, ?_⟩
    · rw [List.cons_append, splits, if_pos hc, hsplits, List.map_append, List.map_map]
      rfl
    · intro split hsplit
      rcases List.mem_cons.mp hsplit with rfl | hsplit
      · exact ⟨c :: t, List.cons_ne_nil c t, rfl, rfl⟩
      · obtain ⟨split, hmem, rfl⟩ := List.mem_map.mp hsplit
        obtain ⟨back, hback, rfl, hrest⟩ := hshorter split hmem
        exact ⟨back, hback, rfl, hrest⟩

/-- The shortest split comes first. -/
theorem splits_eq_cons (p : α → Bool) (s : List α) : ∃ longer, splits p s = ([], s) :: longer ∧
    ∀ split ∈ longer, split.1 ≠ [] := by
  cases s with
  | nil => exact ⟨[], rfl, nofun⟩
  | cons c s =>
    rw [splits]
    refine ⟨_, rfl, fun split hsplit => ?_⟩
    split_ifs at hsplit
    · obtain ⟨split, -, rfl⟩ := List.mem_map.mp hsplit
      exact List.cons_ne_nil _ _
    · cases hsplit

variable {β : Type} {f : List α × List α → Option β} {b : β}

/-- As few characters as possible: none of the shorter splits will do. -/
theorem findSome?_splits (ht : ∀ c ∈ t, p c = true)
    (hshort : ∀ front back, t = front ++ back → back ≠ [] → f (front, back ++ rest) = none)
    (h : f (t, rest) = some b) : (splits p (t ++ rest)).findSome? f = some b := by
  obtain ⟨shorter, hsplits, hshorter⟩ := splits_append ht rest
  obtain ⟨longer, hlonger, -⟩ := splits_eq_cons p rest
  have hnone : shorter.findSome? f = none := by
    refine List.findSome?_eq_none_iff.mpr fun split hsplit => ?_
    obtain ⟨back, hback, hsplit, hrest⟩ := hshorter split hsplit
    have hfail := hshort split.1 back hsplit hback
    rwa [← hrest] at hfail
  rw [hsplits, List.findSome?_append, hnone, Option.none_or, hlonger, List.map_cons,
    List.append_nil, List.findSome?_cons, h]

/-- As many characters as possible: none of the longer splits will do. -/
theorem findSome?_reverse_splits (ht : ∀ c ∈ t, p c = true)
    (hlong : ∀ front back, rest = front ++ back → front ≠ [] → (∀ c ∈ front, p c = true) →
      f (t ++ front, back) = none)
    (h : f (t, rest) = some b) : (splits p (t ++ rest)).reverse.findSome? f = some b := by
  obtain ⟨shorter, hsplits, -⟩ := splits_append ht rest
  obtain ⟨longer, hlonger, hne⟩ := splits_eq_cons p rest
  have hnone : (longer.map fun split => (t ++ split.1, split.2)).reverse.findSome? f = none := by
    refine List.findSome?_eq_none_iff.mpr fun split hsplit => ?_
    obtain ⟨⟨front, back⟩, hmem, rfl⟩ := List.mem_map.mp (List.mem_reverse.mp hsplit)
    have hsplits : (front, back) ∈ splits p rest := hlonger ▸ List.mem_cons_of_mem _ hmem
    obtain ⟨hrest, hall⟩ := mem_splits.mp hsplits
    exact hlong front back hrest (hne _ hmem) hall
  rw [hsplits, List.reverse_append, List.findSome?_append, hlonger, List.map_cons,
    List.reverse_cons, List.findSome?_append, hnone, Option.none_or, List.append_nil,
    List.findSome?_singleton, h, Option.some_or]

theorem findSome?_splits_eq_none_iff : (splits p s).findSome? f = none ↔
    ∀ front back, s = front ++ back → (∀ c ∈ front, p c = true) → f (front, back) = none := by
  rw [List.findSome?_eq_none_iff]
  constructor
  · exact fun h front back hs hall => h (front, back) (mem_splits.mpr ⟨hs, hall⟩)
  · intro h split hsplit
    obtain ⟨hs, hall⟩ := mem_splits.mp hsplit
    exact h split.1 split.2 hs hall

theorem findSome?_reverse_splits_eq_none_iff : (splits p s).reverse.findSome? f = none ↔
    ∀ front back, s = front ++ back → (∀ c ∈ front, p c = true) → f (front, back) = none := by
  rw [← findSome?_splits_eq_none_iff, List.findSome?_eq_none_iff, List.findSome?_eq_none_iff]
  simp only [List.mem_reverse]

end Splits

section First

variable {p : α → Bool} {r r1 r2 : Regex α ν} {s t rest : List α} {m : Match α ν}

/-- A match and what is left make up the text. -/
theorem text_append_rest (h : m ∈ run r s) : m.text ++ m.rest = s := by
  induction r generalizing s m with
  | char p =>
    cases s with
    | nil => cases h
    | cons c s =>
      rw [run] at h
      split_ifs at h
      · obtain rfl := List.mem_singleton.mp h
        rfl
      · cases h
  | star p =>
    obtain ⟨split, hsplit, rfl⟩ := List.mem_map.mp h
    exact (mem_splits.mp (List.mem_reverse.mp hsplit)).1.symm
  | lazyStar p =>
    obtain ⟨split, hsplit, rfl⟩ := List.mem_map.mp h
    exact (mem_splits.mp hsplit).1.symm
  | opt r ih =>
    rcases List.mem_append.mp h with h | h
    · exact ih h
    · obtain rfl := List.mem_singleton.mp h
      rfl
  | seq r1 r2 ih1 ih2 =>
    obtain ⟨m1, h1, h⟩ := List.mem_flatMap.mp h
    obtain ⟨m2, h2, rfl⟩ := List.mem_map.mp h
    calc (m1.text ++ m2.text) ++ m2.rest = m1.text ++ (m2.text ++ m2.rest) := List.append_assoc ..
      _ = m1.text ++ m1.rest := by rw [ih2 h2]
      _ = s := ih1 h1
  | group name r ih =>
    obtain ⟨m', h', rfl⟩ := List.mem_map.mp h
    exact (ih h' : m'.text ++ m'.rest = s)

theorem text_append_rest_of_first (h : first r s = some m) : m.text ++ m.rest = s :=
  text_append_rest (List.mem_of_mem_head? h)

theorem first_char_cons (p : α → Bool) (c : α) (s : List α) :
    first (.char p : Regex α ν) (c :: s) = if p c then some ⟨[], [c], s⟩ else none := by
  rw [first, run]
  split_ifs
  · rfl
  · rfl

/-- The first way to match the one before the other that lets the other match. -/
theorem first_seq (r1 r2 : Regex α ν) (s : List α) : first (.seq r1 r2) s =
    (run r1 s).findSome? fun m1 => (first r2 m1.rest).map m1.append := by
  rw [first, run, List.head?_flatMap]
  simp only [List.head?_map, first]

theorem first_seq_char_cons (p : α → Bool) (r : Regex α ν) (c : α) (s : List α) :
    first (.seq (.char p) r) (c :: s) =
      if p c then (first r s).map (Match.append ⟨[], [c], s⟩) else none := by
  rw [first_seq, run]
  split_ifs
  · exact List.findSome?_singleton
  · rfl

/-- As many characters as there are. -/
theorem first_star (ht : ∀ c ∈ t, p c = true) (hrest : ∀ c ∈ rest.head?, p c = false) :
    first (.star p : Regex α ν) (t ++ rest) = some ⟨[], t, rest⟩ := by
  obtain ⟨shorter, hsplits, -⟩ := splits_append ht rest
  have hlast : splits p rest = [([], rest)] := by
    cases rest with
    | nil => rfl
    | cons c rest =>
      have hc : p c = false := hrest c rfl
      rw [splits, if_neg (ne_true_of_eq_false hc)]
  rw [first, run, hsplits, hlast, List.map_singleton, List.reverse_append, List.append_nil]
  rfl

/-- Characters of a class, at least one. -/
def Regex.plus (p : α → Bool) : Regex α ν := .seq (.char p) (.star p)

theorem first_plus {c : α} (ht : ∀ d ∈ c :: t, p d = true)
    (hrest : ∀ c ∈ rest.head?, p c = false) :
    first (.plus p : Regex α ν) (c :: t ++ rest) = some ⟨[], c :: t, rest⟩ := by
  obtain ⟨hc, ht⟩ := List.forall_mem_cons.mp ht
  rw [Regex.plus, List.cons_append, first_seq_char_cons, if_pos hc, first_star ht hrest]
  rfl

theorem first_group (name : ν) (r : Regex α ν) (s : List α) :
    first (.group name r) s = (first r s).map (.inGroup name) := by
  rw [first, run, List.head?_map, first]

/-- Nothing, where the optional expression cannot be followed up. -/
theorem first_seq_opt (r1 r2 : Regex α ν) (s : List α) :
    first (.seq (.opt r1) r2) s = (first (.seq r1 r2) s).or (first r2 s) := by
  have hempty : (first r2 s).map (Match.append ⟨[], [], s⟩) = first r2 s := Option.map_id'
  rw [first_seq, run, List.findSome?_append, ← first_seq, List.findSome?_singleton, hempty]

/-- The characters of a text, one after the other, and then an expression. -/
def literalThen [DecidableEq α] (t : List α) (r : Regex α ν) : Regex α ν :=
  t.foldr (fun c r => .seq (.char (· = c)) r) r

theorem first_literalThen_append [DecidableEq α] (t : List α) (r : Regex α ν) (s : List α) :
    first (literalThen t r) (t ++ s) = (first r s).map (Match.append ⟨[], t, s⟩) := by
  induction t with
  | nil => exact Option.map_id'.symm
  | cons c t ih =>
    rw [literalThen, List.foldr_cons, List.cons_append, first_seq_char_cons,
      if_pos (decide_eq_true rfl), ← literalThen, ih, Option.map_map]
    rfl

theorem prefix_of_first_literalThen [DecidableEq α]
    (h : first (literalThen t r) s = some m) : t <+: s := by
  induction t generalizing s m with
  | nil => exact List.nil_prefix
  | cons c t ih =>
    rw [literalThen, List.foldr_cons, ← literalThen] at h
    cases s with
    | nil => cases h
    | cons d s =>
      rw [first_seq_char_cons] at h
      split_ifs at h with hd
      obtain ⟨m', h', -⟩ := Option.map_eq_some_iff.mp h
      rw [of_decide_eq_true hd, List.prefix_cons_inj]
      exact ih h'

theorem first_seq_group_lazyStar (name : ν) (p : α → Bool) (r : Regex α ν) (s : List α) :
    first (.seq (.group name (.lazyStar p)) r) s = (splits p s).findSome? fun split =>
      (first r split.2).map (Match.append ⟨[(name, split.1)], split.1, split.2⟩) := by
  rw [first_seq, run, run, List.map_map, List.findSome?_map]
  rfl

end First

section Scan

variable {r : Regex α ν} {s t : List α} {m : Match α ν}

theorem scan_of_none {c : α} (h : first r (c :: s) = none) :
    scan r 0 (c :: s) = .inl c :: scan r 0 s := by
  rw [scan, h]

theorem scan_length (r : Regex α ν) (t s : List α) : scan r t.length (t ++ s) = scan r 0 s := by
  induction t with
  | nil => rfl
  | cons c t ih => exact ih

/-- After a match that is not empty the scan goes on behind it. -/
theorem scan_of_first (h : first r s = some m) (hne : m.text ≠ []) :
    scan r 0 s = .inr m.groups :: scan r 0 m.rest := by
  have hs := text_append_rest_of_first h
  obtain ⟨c, t, ht⟩ := List.exists_cons_of_ne_nil hne
  rw [ht] at hs
  rw [← hs, List.cons_append] at h ⊢
  rw [scan, h]
  dsimp only
  rw [ht, List.length_cons, Nat.add_sub_cancel, scan_length]

variable {ε : Type} {repl : List (ν × List α) → Except ε (List α)}

/-- What is seen of a scan by a substitution that stops at the first match without a
replacement. -/
def replaced (repl : List (ν × List α) → Except ε (List α)) :
    List (α ⊕ List (ν × List α)) → List (α ⊕ List (ν × List α))
  | [] => []
  | .inl c :: pieces => .inl c :: replaced repl pieces
  | .inr groups :: pieces =>
    .inr groups :: if (repl groups).isOk then replaced repl pieces else []

/-- The substitution sees no more than that. -/
theorem assemble_replaced (pieces : List (α ⊕ List (ν × List α))) :
    assemble repl (replaced repl pieces) = assemble repl pieces := by
  induction pieces with
  | nil => rfl
  | cons piece pieces ih =>
    cases piece with
    | inl c => rw [replaced, assemble, assemble, ih]
    | inr groups =>
      rw [replaced, assemble, assemble]
      cases repl groups with
      | error e => rfl
      | ok value => exact congrArg (Except.map (value ++ ·)) ih

theorem replaced_inl_append (t : List α) (pieces : List (α ⊕ List (ν × List α))) :
    replaced repl (t.map .inl ++ pieces) = t.map .inl ++ replaced repl pieces := by
  induction t with
  | nil => rfl
  | cons c t ih => exact congrArg (Sum.inl c :: ·) ih

theorem assemble_inl_append (t : List α) (pieces : List (α ⊕ List (ν × List α))) :
    assemble repl (t.map .inl ++ pieces) = (assemble repl pieces).map (t ++ ·) := by
  induction t with
  | nil =>
    rw [List.map_nil, List.nil_append]
    cases assemble repl pieces with
    | error e => rfl
    | ok value => rfl
  | cons c t ih =>
    rw [List.map_cons, List.cons_append, assemble, ih]
    cases assemble repl pieces with
    | error e => rfl
    | ok value => rfl

/-- A text is copied if and only if no match starts in it. -/
theorem replaced_scan_append_iff {seen : List (α ⊕ List (ν × List α))} :
    replaced repl (scan r 0 (t ++ s)) = t.map .inl ++ seen ↔
      (∀ front back, t = front ++ back → back ≠ [] → first r (back ++ s) = none) ∧
        replaced repl (scan r 0 s) = seen := by
  induction t with
  | nil =>
    refine (and_iff_right fun front back h hback => ?_).symm
    exact absurd (List.append_eq_nil_iff.mp h.symm).2 hback
  | cons c t ih =>
    rw [List.cons_append]
    cases hfirst : first r (c :: (t ++ s)) with
    | none =>
      rw [scan_of_none hfirst, replaced, List.map_cons, List.cons_append, List.cons.injEq,
        and_iff_right rfl, ih]
      refine and_congr_left fun _ => ⟨fun h front back ht hback => ?_, fun h front back ht =>
        h (c :: front) back (congrArg (c :: ·) ht)⟩
      cases front with
      | nil =>
        obtain rfl : c :: t = back := ht
        exact hfirst
      | cons d front => exact h front back (List.cons.inj ht).2 hback
    | some m =>
      rw [scan, hfirst]
      constructor
      · intro h
        cases h
      · intro h
        cases hfirst.symm.trans (h.1 [] (c :: t) rfl (List.cons_ne_nil c t))

/-- A match and what comes behind it are seen if the match holds the groups, and where they have
a replacement. -/
theorem replaced_scan_cons_iff {groups : List (ν × List α)}
    {seen : List (α ⊕ List (ν × List α))} (h : first r s = some m) (hne : m.text ≠ []) :
    replaced repl (scan r 0 s) = .inr groups :: (if (repl groups).isOk then seen else []) ↔
      m.groups = groups ∧ ((repl groups).isOk → replaced repl (scan r 0 m.rest) = seen) := by
  rw [scan_of_first h hne, replaced, List.cons.injEq, Sum.inr.injEq]
  refine and_congr_right fun hgroups => ?_
  rw [hgroups]
  split_ifs with hok
  · exact ⟨fun h _ => h, fun h => h hok⟩
  · exact iff_of_true rfl fun h => absurd h hok

/-- A substitution fails where some match has no replacement, and only there. -/
theorem assemble_isOk_iff {pieces : List (α ⊕ List (ν × List α))} :
    (assemble repl pieces).isOk ↔ ∀ groups, .inr groups ∈ pieces → (repl groups).isOk := by
  induction pieces with
  | nil => exact iff_of_true rfl nofun
  | cons piece pieces ih =>
    simp only [List.mem_cons]
    cases piece with
    | inl c =>
      simp only [reduceCtorEq, false_or, ← ih]
      rw [assemble]
      cases assemble repl pieces with
      | error e => rfl
      | ok text => rfl
    | inr groups =>
      simp only [Sum.inr.injEq, forall_eq_or_imp, ← ih]
      rw [assemble]
      cases repl groups with
      | error e => exact iff_of_false nofun fun h => nomatch h.1
      | ok value =>
        cases assemble repl pieces with
        | error e => exact iff_of_false nofun fun h => nomatch h.2
        | ok text => exact iff_of_true rfl ⟨rfl, rfl⟩

end Scan

end MiniChromium.Backtracking
