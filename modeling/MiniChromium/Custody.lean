import MiniChromium.Runs
import Mathlib.Data.Finset.Card
import Mathlib.Data.List.Count
import Mathlib.Logic.Function.Basic

/-!
# Custody of resources

A resource has at most one owner at a time. It is acquired while it has none, it passes from
owner to owner, and its owner disposes of it. The books of a run balance: what was acquired
was disposed of, or it has an owner.
-/
namespace MiniChromium.Custody

open Runs

/-- What happens to a resource. There may be several kinds of disposal. -/
inductive Act (O R K : Type*)
  | acquire (o : O) (r : R)
  | transfer (o o' : O) (r : R)
  | dispose (o : O) (kind : K) (r : R)

variable {O R K : Type*}

def Act.acquires : Act O R K → Option R
  | acquire _ r => some r
  | _ => none

def Act.disposes : Act O R K → Option (K × R)
  | dispose _ kind r => some (kind, r)
  | _ => none

def acquired (acts : List (Act O R K)) : List R := acts.filterMap Act.acquires

def disposed (acts : List (Act O R K)) : List (K × R) := acts.filterMap Act.disposes

@[simp]
theorem acquired_snoc (acts : List (Act O R K)) (act : Act O R K) :
    acquired (acts ++ [act]) = acquired acts ++ act.acquires.toList := by
  cases h : act.acquires <;> simp [acquired, h]

@[simp]
theorem disposed_snoc (acts : List (Act O R K)) (act : Act O R K) :
    disposed (acts ++ [act]) = disposed acts ++ act.disposes.toList := by
  cases h : act.disposes <;> simp [disposed, h]

variable [DecidableEq R] {owner : R → Option O} {o o' : O} {kind : K} {r : R}

/-- An act on the map of the owners. -/
inductive Step : (R → Option O) → Act O R K → (R → Option O) → Prop
  | acquire {owner : R → Option O} (o : O) {r : R} :
    owner r = none → Step owner (.acquire o r) (Function.update owner r (some o))
  | transfer {owner : R → Option O} {o : O} (o' : O) {r : R} :
    owner r = some o → Step owner (.transfer o o' r) (Function.update owner r (some o'))
  | dispose {owner : R → Option O} {o : O} (kind : K) {r : R} :
    owner r = some o → Step owner (.dispose o kind r) (Function.update owner r none)

/-- A run of acts from the map without owners. -/
def Reaches (acts : List (Act O R K)) (owner : R → Option O) : Prop :=
  Run Step (fun _ => none) acts owner

theorem reaches_nil : Reaches ([] : List (Act O R K)) fun _ => none := .nil _

theorem Reaches.snoc {acts : List (Act O R K)} {act : Act O R K} {owner' : R → Option O}
    (h : Reaches acts owner) (hact : Step owner act owner') : Reaches (acts ++ [act]) owner' :=
  Run.append h (.single hact)

/-- The books of one resource: acquired as often as disposed of, and once more while it has
an owner. -/
theorem count_acquired {acts : List (Act O R K)} (h : Reaches acts owner) (r : R) :
    (acquired acts).count r =
      ((disposed acts).map Prod.snd).count r + if owner r = none then 0 else 1 := by
  refine Run.history_induction (I := fun acts owner => (acquired acts).count r =
    ((disposed acts).map Prod.snd).count r + if owner r = none then 0 else 1) rfl ?_ h
  intro pre owner act owner' ih hact
  rw [acquired_snoc, disposed_snoc, List.count_append, List.map_append, List.count_append, ih]
  cases hact with
  | @acquire o r' hnone =>
    by_cases hr : r' = r
    · simp [Act.acquires, Act.disposes, hr, hr ▸ hnone]
    · simp [Act.acquires, Act.disposes, hr, Ne.symm hr]
  | @transfer o o' r' hsome =>
    by_cases hr : r' = r
    · simp [Act.acquires, Act.disposes, hr, hr ▸ hsome]
    · simp [Act.acquires, Act.disposes, Ne.symm hr]
  | @dispose o kind r' hsome =>
    by_cases hr : r' = r
    · simp [Act.acquires, Act.disposes, hr, hr ▸ hsome]
    · simp [Act.acquires, Act.disposes, hr, Ne.symm hr]

/-- The parts of a system own what the map says. -/
def Represents (owns : O → R → Prop) (owner : R → Option O) : Prop :=
  ∀ o r, owns o r ↔ owner r = some o

omit [DecidableEq R] in
theorem Represents.unique {owns : O → R → Prop} (h : Represents owns owner) (ho : owns o r)
    (ho' : owns o' r) : o = o' :=
  Option.some.inj (((h o r).mp ho).symm.trans ((h o' r).mp ho'))

omit [DecidableEq R] in
theorem Represents.eq_none_iff {owns : O → R → Prop} (h : Represents owns owner) :
    owner r = none ↔ ∀ o, ¬ owns o r := by
  simp [h _ r, Option.eq_none_iff_forall_ne_some]

/-- The custody of one resource changes. -/
theorem Represents.update {owns owns' : O → R → Prop} (h : Represents owns owner)
    {x : Option O} (howns : ∀ o' r', owns' o' r' ↔ if r' = r then x = some o' else owns o' r') :
    Represents owns' (Function.update owner r x) := by
  intro o' r'
  rw [howns, Function.update_apply]
  split_ifs
  · rfl
  · exact h o' r'

/-- A run of acts has led to what the slots hold, from what was handed in and what is gone. -/
def Slots (invalid : R) (held : O → R) (handed gone : List R) : Prop :=
  ∃ (acts : List (Act O R Unit)) (owner : R → Option O), Reaches acts owner ∧
    Represents (fun o r => r ≠ invalid ∧ held o = r) owner ∧
    acquired acts = handed ∧ (disposed acts).map Prod.snd = gone

namespace Slots

variable {invalid : R} {held : O → R} {handed gone : List R}

theorem empty : Slots invalid (fun _ : O => invalid) [] [] :=
  ⟨[], fun _ => none, reaches_nil, fun _ _ => ⟨fun h => absurd h.2.symm h.1, nofun⟩, rfl, rfl⟩

/-- A resource is in one slot only. -/
theorem eq_of_held (h : Slots invalid held handed gone) (hr : held o ≠ invalid)
    (ho' : held o' = held o) : o = o' := by
  obtain ⟨acts, owner, -, hrep, -⟩ := h
  exact hrep.unique ⟨hr, rfl⟩ ⟨hr, ho'⟩

variable [DecidableEq O]

omit [DecidableEq O] in
/-- The books of one resource. -/
theorem count_handed (h : Slots invalid held handed gone) (hr : r ≠ invalid) :
    handed.count r = gone.count r + 1 ∧ (∃ o, held o = r) ∨
      handed.count r = gone.count r ∧ ∀ o, held o ≠ r := by
  obtain ⟨acts, owner, hreach, hrep, rfl, rfl⟩ := h
  rw [count_acquired hreach]
  cases howner : owner r with
  | none =>
    refine .inr ⟨by simp, fun o ho => ?_⟩
    exact hrep.eq_none_iff.mp howner o ⟨hr, ho⟩
  | some o => exact .inl ⟨by simp, o, ((hrep o r).mpr howner).2⟩

theorem acquire (h : Slots invalid held handed gone) (hr : r ≠ invalid) (hnew : r ∉ handed)
    (ho : held o = invalid) : Slots invalid (Function.update held o r) (handed ++ [r]) gone := by
  have hfree : ∀ o', held o' ≠ r := by
    have hcount := List.count_eq_zero.mpr hnew
    rcases h.count_handed hr with ⟨hsucc, -⟩ | ⟨-, hfree⟩
    · omega
    · exact hfree
  obtain ⟨acts, owner, hreach, hrep, rfl, rfl⟩ := h
  have hnone : owner r = none := hrep.eq_none_iff.mpr fun o' h' => hfree o' h'.2
  refine ⟨_, _, hreach.snoc (.acquire o hnone), hrep.update fun o' r' => ?_, ?_, ?_⟩
  · rw [Function.update_apply]
    by_cases ho' : o' = o
    · by_cases hr' : r' = r
      · simp [ho', hr', hr]
      · simp [ho', hr', ho, Ne.symm hr', eq_comm]
    · by_cases hr' : r' = r
      · simp [ho', hr', hfree, Ne.symm ho']
      · simp [ho', hr']
  · simp [Act.acquires]
  · simp [Act.disposes]

/-- What one slot holds goes to another, which is empty. -/
theorem move (h : Slots invalid held handed gone) (o o' : O) (ho' : held o' = invalid) :
    Slots invalid (Function.update (Function.update held o invalid) o' (held o)) handed gone := by
  by_cases ho : held o = invalid
  · have heq : Function.update (Function.update held o invalid) o' (held o) = held := by
      rw [ho, ← ho, Function.update_eq_self, ho, ← ho', Function.update_eq_self]
    rwa [heq]
  · have hone : ∀ o'', held o'' = held o → o'' = o := fun o'' h' => (h.eq_of_held ho h').symm
    obtain ⟨acts, owner, hreach, hrep, rfl, rfl⟩ := h
    have hsome : owner (held o) = some o := (hrep o (held o)).mp ⟨ho, rfl⟩
    refine ⟨_, _, hreach.snoc (.transfer o' hsome), hrep.update fun o'' r' => ?_, ?_, ?_⟩
    · simp only [Function.update_apply]
      by_cases hr' : r' = held o <;> by_cases h' : o'' = o' <;> by_cases h : o'' = o <;> grind
    · simp [Act.acquires]
    · simp [Act.disposes]

theorem dispose (h : Slots invalid held handed gone) (ho : held o ≠ invalid) :
    Slots invalid (Function.update held o invalid) handed (gone ++ [held o]) := by
  have hone : ∀ o', held o' = held o → o' = o := fun o' h' => (h.eq_of_held ho h').symm
  obtain ⟨acts, owner, hreach, hrep, rfl, rfl⟩ := h
  have hsome : owner (held o) = some o := (hrep o (held o)).mp ⟨ho, rfl⟩
  refine ⟨_, _, hreach.snoc (.dispose () hsome), hrep.update fun o' r' => ?_, ?_, ?_⟩
  · simp only [Function.update_apply]
    by_cases hr' : r' = held o <;> by_cases h : o' = o <;> grind
  · simp [Act.acquires]
  · simp [Act.disposes]

/-- Whatever a slot holds is disposed of. -/
theorem discard (h : Slots invalid held handed gone) (o : O) :
    Slots invalid (Function.update held o invalid) handed
      (gone ++ [held o].filter (· ≠ invalid)) := by
  by_cases ho : held o = invalid
  · have heq : Function.update held o invalid = held := by
      rw [← ho, Function.update_eq_self]
    simpa [heq, ho] using h
  · simpa [ho] using h.dispose ho

end Slots

section Shares

variable {slots : Finset O} {held : O → R}

/-- How many of the slots hold the resource. -/
def holders (slots : Finset O) (held : O → R) (r : R) : ℕ := (slots.filter (held · = r)).card

theorem holders_pos_iff : 0 < holders slots held r ↔ ∃ o ∈ slots, held o = r := by
  rw [holders, Finset.card_pos]
  exact Finset.filter_nonempty_iff

variable [DecidableEq O]

/-- A new slot holds one share. -/
theorem holders_insert (held : O → R) (x r : R) (ho : o ∉ slots) :
    holders (insert o slots) (Function.update held o x) r =
      holders slots held r + [x].count r := by
  have hfilter : slots.filter (Function.update held o x · = r) = slots.filter (held · = r) := by
    refine Finset.filter_congr fun o' ho' => ?_
    rw [Function.update_of_ne (ne_of_mem_of_not_mem ho' ho)]
  rw [holders, Finset.filter_insert, hfilter, Function.update_self, holders]
  by_cases hx : x = r
  · rw [if_pos hx, Finset.card_insert_of_notMem fun h => ho (Finset.mem_filter.mp h).1, hx,
      List.count_singleton_self]
  · rw [if_neg hx, List.count_singleton, if_neg (by simpa using hx), Nat.add_zero]

/-- A slot that goes held one share. -/
theorem holders_erase (held : O → R) (r : R) (ho : o ∈ slots) :
    holders (slots.erase o) held r + [held o].count r = holders slots held r := by
  have h := holders_insert held (held o) r (Finset.notMem_erase o slots)
  rw [Finset.insert_erase ho, Function.update_eq_self] at h
  exact h.symm

/-- A slot changes its share for another one. -/
theorem holders_update (held : O → R) (x r : R) (ho : o ∈ slots) :
    holders slots (Function.update held o x) r + [held o].count r =
      holders slots held r + [x].count r := by
  have hnew := holders_insert held x r (Finset.notMem_erase o slots)
  have hold := holders_erase held r ho
  rw [Finset.insert_erase ho] at hnew
  omega

end Shares

end MiniChromium.Custody
