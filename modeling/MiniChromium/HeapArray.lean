import MiniChromium.Custody
import MiniChromium.Span
import Mathlib.Data.Finset.Option

/-!
# Arrays on the heap

A `HeapArray` has a `std::unique_ptr` to an array and its length, in two fields. The arrays of a
program are looked at together, with the allocations that were made for them, those that they
leaked to their callers and those that were freed. A pointer stands for one allocation, and an
address that is used again for another one.
-/
namespace MiniChromium.HeapArray

open IntegralType MiniChromium.Num Runs Custody

set_option linter.unusedSectionVars false

/-- The operations. The functions that allocate have the pointer that `new` returns. -/
inductive Operation (O A : Type*)
  | construct (o : O)
  | withSize (o : O) (size : Size) (allocation : A)
  | uninit (o : O) (size : Size) (allocation : A)
  | copiedFrom (o : O) (thatSize : Size) (allocation : A)
  | fromOwningPointer (o : O) (ptr : Option A) (size : Size)
  | moveConstruct (o that : O)
  | moveAssign (o that : O)
  | leak (o : O)
  | deleteLeakedData (ptr : Option A)
  | destroy (o : O)

/-- The arrays that live, `data_` and `size_` of each, the allocations with their lengths, those
that callers own because they were leaked, those that were freed, and the spans that `leak`
returned. -/
structure System (O A : Type*) where
  live : Finset O
  data : O → Option A
  size : O → Size
  allocated : List (A × Size)
  leaked : Finset A
  freed : List A
  spans : List (Option A × Size)

section Model

variable {O A : Type*} [DecidableEq O] [DecidableEq A]

namespace System

section Code

def start : System O A where
  live := ∅
  data _ := none
  size _ := 0
  allocated := []
  leaked := ∅
  freed := []
  spans := []

def setData (s : System O A) (o : O) (ptr : Option A) : System O A :=
  { s with data := Function.update s.data o ptr }

def setSize (s : System O A) (o : O) (size : Size) : System O A :=
  { s with size := Function.update s.size o size }

/-- The deleter of a pointer, which has nothing to do for null. -/
def free (s : System O A) (ptr : Option A) : System O A :=
  { s with freed := s.freed ++ ptr.toList }

/-- The private constructor. -/
def build (s : System O A) (o : O) (data : Option A) (size : Size) : System O A :=
  { (s.setData o data).setSize o size with live := insert o s.live }

/-- `new T[size]` gives an allocation that was not there before. -/
def allocate (s : System O A) (size : Size) (allocation : A) : Option (System O A) :=
  if allocation ∉ s.allocated.map Prod.fst then
    some { s with allocated := s.allocated ++ [(allocation, size)] }
  else none

/-- `WithSize`. -/
def withSize (s : System O A) (o : O) (size : Size) (allocation : A) : Option (System O A) :=
  if size.val = 0 then some (s.build o none 0)
  else (s.allocate size allocation).map fun s => s.build o (some allocation) size

/-- `Uninit`, which does not initialise the elements. -/
def uninit (s : System O A) (o : O) (size : Size) (allocation : A) : Option (System O A) :=
  if size.val = 0 then some (s.build o none 0)
  else (s.allocate size allocation).map fun s => s.build o (some allocation) size

/-- `CopiedFrom` of a span; `copy_from` checks that the sizes are the same. -/
def copiedFrom (s : System O A) (o : O) (thatSize : Size) (allocation : A) :
    Option (System O A) :=
  (s.uninit o thatSize allocation).bind fun s =>
    if s.size o = thatSize then some s else none

/-- The caller has a pointer to an array of the size: one that it allocated for itself, or one
that was leaked to it. -/
def takeOver (s : System O A) (ptr : Option A) (size : Size) : Option (System O A) :=
  ptr.bind fun p =>
    if (p, size) ∈ s.allocated ∧ p ∈ s.leaked then
      some { s with leaked := s.leaked.erase p }
    else s.allocate size p

/-- `FromOwningPointer`. -/
def fromOwningPointer (s : System O A) (o : O) (ptr : Option A) (size : Size) :
    Option (System O A) :=
  if size.val = 0 then if ptr = none then some (s.build o none 0) else none
  else (s.takeOver ptr size).map fun s => s.build o ptr size

/-- The constructor that moves. -/
def moveConstruct (s : System O A) (o that : O) : System O A :=
  let data := s.data that
  let s := s.setData that none
  let size := s.size that
  let s := s.setSize that 0
  s.build o data size

/-- The assignment that moves, field by field: `data_` is reset to what the other one releases,
and `size_` is exchanged. -/
def moveAssign (s : System O A) (o that : O) : System O A :=
  let released := s.data that
  let s := s.setData that none
  let old := s.data o
  let s := (s.setData o released).free old
  let size := s.size that
  let s := s.setSize that 0
  s.setSize o size

/-- `leak`: what is moved to `dropped` is released from there, and `dropped` is destroyed. -/
def leak (s : System O A) (o : O) : System O A :=
  let droppedData := s.data o
  let s := s.setData o none
  let droppedSize := s.size o
  let s := s.setSize o 0
  let leaked := droppedData
  { s with
    leaked := leaked.toFinset ∪ s.leaked
    spans := s.spans ++ [(leaked, droppedSize)] }.free none

/-- `DeleteLeakedData` of a pointer that was leaked, or null. -/
def deleteLeakedData (s : System O A) (ptr : Option A) : Option (System O A) :=
  if ptr.toFinset ⊆ s.leaked then some ({ s with leaked := s.leaked \ ptr.toFinset }.free ptr)
  else none

/-- The destructor. -/
def destroy (s : System O A) (o : O) : System O A :=
  { (s.free (s.data o)).setData o none with live := s.live.erase o }

/-- An operation on arrays that live. -/
def operate (s : System O A) : Operation O A → Option (System O A)
  | .construct o => if o ∉ s.live then some (s.build o none 0) else none
  | .withSize o size allocation => if o ∉ s.live then s.withSize o size allocation else none
  | .uninit o size allocation => if o ∉ s.live then s.uninit o size allocation else none
  | .copiedFrom o thatSize allocation =>
    if o ∉ s.live then s.copiedFrom o thatSize allocation else none
  | .fromOwningPointer o ptr size =>
    if o ∉ s.live then s.fromOwningPointer o ptr size else none
  | .moveConstruct o that =>
    if o ∉ s.live ∧ that ∈ s.live then some (s.moveConstruct o that) else none
  | .moveAssign o that =>
    if o ∈ s.live ∧ that ∈ s.live then some (s.moveAssign o that) else none
  | .leak o => if o ∈ s.live then some (s.leak o) else none
  | .deleteLeakedData ptr => s.deleteLeakedData ptr
  | .destroy o => if o ∈ s.live then some (s.destroy o) else none

/-- `as_span`, from the first element on. -/
def asSpan (s : System O A) (o : O) : Span := .dynamic 0 (s.size o)

/-- `operator[]`, which checks the index as the one of the span does. -/
def element (s : System O A) (o : O) (idx : Size) : Option Size :=
  if idx.val < (s.asSpan o).view.length then some idx else none

end Code

end System

/-- A pointer and a length belong together: to the whole of an allocation, or to nothing. -/
def Paired (allocated : List (A × Size)) (ptr : Option A) (size : Size) : Prop :=
  (ptr = none ↔ size.val = 0) ∧ ∀ p ∈ ptr, (p, size) ∈ allocated

/-- What the arrays hold, and what callers hold. -/
def System.held (s : System O A) : O ⊕ A → Option A :=
  Sum.elim s.data fun p => if p ∈ s.leaked then some p else none

/-- Every allocation is in one place or freed, and every pointer has its length beside it. -/
structure Sound (s : System O A) : Prop where
  custody : Slots none s.held (s.allocated.map (some ∘ Prod.fst)) (s.freed.map some)
  nodup : (s.allocated.map Prod.fst).Nodup
  dead : ∀ o ∉ s.live, s.data o = none
  paired : ∀ o ∈ s.live, Paired s.allocated (s.data o) (s.size o)
  spans : ∀ span ∈ s.spans, Paired s.allocated span.1 span.2

section Held

variable {s : System O A} {o : O} {p : A} {ptr : Option A} {size : Size}

theorem held_setData (s : System O A) (o : O) (ptr : Option A) :
    (s.setData o ptr).held = Function.update s.held (.inl o) ptr :=
  Sum.update_elim_inl.symm

theorem held_build (s : System O A) (o : O) (ptr : Option A) (size : Size) :
    (s.build o ptr size).held = Function.update s.held (.inl o) ptr :=
  held_setData s o ptr

theorem held_insert (s : System O A) (p : A) :
    System.held { s with leaked := insert p s.leaked } =
      Function.update s.held (.inr p) (some p) := by
  rw [System.held, System.held, Sum.update_elim_inr]
  congr 1
  funext q
  by_cases hq : q = p <;> simp [hq]

theorem held_erase (s : System O A) (p : A) :
    System.held { s with leaked := s.leaked.erase p } = Function.update s.held (.inr p) none := by
  rw [System.held, System.held, Sum.update_elim_inr]
  congr 1
  funext q
  by_cases hq : q = p <;> simp [hq]

theorem paired_none (allocated : List (A × Size)) : Paired allocated none 0 :=
  ⟨by simp, nofun⟩

theorem paired_some {allocated : List (A × Size)} (h : (p, size) ∈ allocated)
    (hsize : size.val ≠ 0) :
    Paired allocated (some p) size :=
  ⟨by simp [hsize], by simpa using h⟩

theorem Paired.mono {allocated allocated' : List (A × Size)} (h : Paired allocated ptr size)
    (hsub : allocated ⊆ allocated') : Paired allocated' ptr size :=
  ⟨h.1, fun p hp => hsub (h.2 p hp)⟩

theorem paired_update {allocated : List (A × Size)} {live : Finset O} {data : O → Option A}
    {sizes : O → Size} (h : ∀ o' ∈ live, Paired allocated (data o') (sizes o'))
    (hnew : Paired allocated ptr size) : ∀ o' ∈ insert o live,
      Paired allocated (Function.update data o ptr o') (Function.update sizes o size o') := by
  intro o' ho'
  by_cases heq : o' = o
  · rw [heq, Function.update_self, Function.update_self]
    exact hnew
  · rw [Function.update_of_ne heq, Function.update_of_ne heq]
    exact h o' (Finset.mem_of_mem_insert_of_ne ho' heq)

theorem dead_update {live : Finset O} {data : O → Option A} (h : ∀ o' ∉ live, data o' = none)
    (o : O) (ptr : Option A) : ∀ o' ∉ insert o live, Function.update data o ptr o' = none := by
  intro o' ho'
  rw [Finset.mem_insert, not_or] at ho'
  rw [Function.update_of_ne ho'.1]
  exact h o' ho'.2

theorem filter_ne_none (ptr : Option A) :
    [ptr].filter (· ≠ none) = ptr.toList.map some := by
  cases ptr <;> rfl

end Held

/-- Pointers are counted as the allocations are. -/
theorem count_map_some (l : List A) (p : A) :
    @List.count (Option A) instBEqOfDecidableEq (some p) (l.map some) = l.count p := by
  let _ : BEq (Option A) := instBEqOfDecidableEq
  exact List.count_map_of_injective _ _ (Option.some_injective A) p

namespace Sound

variable {s s' : System O A} {o that : O} {p : A} {ptr : Option A} {size : Size}

theorem start : Sound (System.start : System O A) where
  custody := by
    have hheld : (System.start : System O A).held = fun _ => none := by
      funext slot
      cases slot <;> rfl
    rw [hheld]
    exact Slots.empty
  nodup := .nil
  dead _ _ := rfl
  paired _ h := nomatch h
  spans _ h := nomatch h

/-- An array without an allocation comes to life. -/
theorem build_empty (h : Sound s) (ho : o ∉ s.live) : Sound (s.build o none 0) where
  custody := by
    have hnone : s.held (.inl o) = none := h.dead o ho
    rw [held_build, Function.update_eq_self_iff.mpr hnone.symm]
    exact h.custody
  nodup := h.nodup
  dead := dead_update h.dead o none
  paired := paired_update h.paired (paired_none _)
  spans := h.spans

/-- An array takes a new allocation. -/
theorem build_allocated (h : Sound s) (ho : o ∉ s.live) (hsize : size.val ≠ 0)
    (hallocate : s.allocate size p = some s') : Sound (s'.build o (some p) size) := by
  unfold System.allocate at hallocate
  split_ifs at hallocate with hnew
  obtain rfl := Option.some.inj hallocate
  have hsub : s.allocated ⊆ s.allocated ++ [(p, size)] := List.subset_append_left ..
  have hmem : (p, size) ∈ s.allocated ++ [(p, size)] :=
    List.mem_append_right _ (List.mem_singleton_self _)
  constructor
  · have hnone : s.held (.inl o) = none := h.dead o ho
    have hacquire := h.custody.acquire (Option.some_ne_none p)
      (by simpa [Function.comp_def] using hnew) hnone
    rw [held_build]
    change Slots none (Function.update s.held _ _) ((s.allocated ++ [(p, size)]).map _) _
    rw [List.map_append]
    exact hacquire
  · have hnodup := List.nodup_append.mpr ⟨h.nodup, List.nodup_singleton p, fun q hq q' hq' heq =>
      hnew ((heq.trans (List.mem_singleton.mp hq')) ▸ hq)⟩
    simpa [System.build, System.setData, System.setSize] using hnodup
  · exact dead_update h.dead o (some p)
  · exact paired_update (fun o' ho' => (h.paired o' ho').mono hsub) (paired_some hmem hsize)
  · exact fun span hspan => (h.spans span hspan).mono hsub

/-- An array takes an allocation that was leaked. -/
theorem build_leaked (h : Sound s) (ho : o ∉ s.live) (hp : (p, size) ∈ s.allocated)
    (hleaked : p ∈ s.leaked) (hsize : size.val ≠ 0) :
    Sound (System.build { s with leaked := s.leaked.erase p } o (some p) size) where
  custody := by
    have hnone : s.held (.inl o) = none := h.dead o ho
    have hsome : s.held (.inr p) = some p := if_pos hleaked
    have hmove := h.custody.move (.inr p) _ hnone
    rw [hsome, ← held_erase] at hmove
    rw [held_build]
    exact hmove
  nodup := h.nodup
  dead := dead_update h.dead o (some p)
  paired := paired_update h.paired (paired_some hp hsize)
  spans := h.spans

theorem withSize {allocation : A} (h : Sound s) (ho : o ∉ s.live)
    (hstep : s.withSize o size allocation = some s') : Sound s' := by
  unfold System.withSize at hstep
  split_ifs at hstep with hsize
  · obtain rfl := Option.some.inj hstep
    exact h.build_empty ho
  · obtain ⟨t, hallocate, rfl⟩ := Option.map_eq_some_iff.mp hstep
    exact h.build_allocated ho hsize hallocate

theorem uninit {allocation : A} (h : Sound s) (ho : o ∉ s.live)
    (hstep : s.uninit o size allocation = some s') : Sound s' :=
  h.withSize ho hstep

theorem copiedFrom {allocation : A} (h : Sound s) (ho : o ∉ s.live)
    (hstep : s.copiedFrom o size allocation = some s') : Sound s' := by
  obtain ⟨t, huninit, hcheck⟩ := Option.bind_eq_some_iff.mp hstep
  split_ifs at hcheck
  obtain rfl := Option.some.inj hcheck
  exact h.uninit ho huninit

theorem fromOwningPointer (h : Sound s) (ho : o ∉ s.live)
    (hstep : s.fromOwningPointer o ptr size = some s') : Sound s' := by
  unfold System.fromOwningPointer at hstep
  split_ifs at hstep with hsize hnull
  · obtain rfl := Option.some.inj hstep
    exact h.build_empty ho
  · obtain ⟨t, htake, rfl⟩ := Option.map_eq_some_iff.mp hstep
    obtain ⟨p, rfl, hcases⟩ := Option.bind_eq_some_iff.mp htake
    split_ifs at hcases with hleaked
    · obtain rfl := Option.some.inj hcases
      exact h.build_leaked ho hleaked.1 hleaked.2 hsize
    · exact h.build_allocated ho hsize hcases

theorem moveConstruct (h : Sound s) (ho : o ∉ s.live) (hthat : that ∈ s.live) :
    Sound (s.moveConstruct o that) := by
  have hdead : ∀ o' ∉ s.live, Function.update s.data that none o' = none := by
    have hupdate := dead_update h.dead that none
    rwa [Finset.insert_eq_of_mem hthat] at hupdate
  have hpaired := paired_update h.paired (paired_none s.allocated) (o := that)
  rw [Finset.insert_eq_of_mem hthat] at hpaired
  constructor
  · have hnone : s.held (.inl o) = none := h.dead o ho
    have hmove := h.custody.move (.inl that) _ hnone
    rw [← held_setData] at hmove
    rw [System.moveConstruct, held_build]
    exact hmove
  · exact h.nodup
  · exact dead_update hdead o (s.data that)
  · exact paired_update hpaired (h.paired that hthat)
  · exact h.spans

/-- What the target held is freed before it is forgotten; of a move to itself nothing is. -/
theorem custody_moveAssign (h : Sound s) (o that : O) :
    Slots none (Function.update (Function.update s.held (.inl that) none) (.inl o) (s.data that))
      (s.allocated.map (some ∘ Prod.fst))
      ((s.freed ++ ((s.setData that none).data o).toList).map some) := by
  by_cases heq : o = that
  · subst heq
    have hnone : (s.setData o none).data o = none := Function.update_self ..
    rw [hnone, Function.update_idem, show s.data o = s.held (.inl o) from rfl,
      Function.update_eq_self]
    simpa using h.custody
  · have hold : (s.setData that none).data o = s.data o := Function.update_of_ne heq ..
    have hne : (Sum.inl that : O ⊕ A) ≠ .inl o := fun hinl => heq (Sum.inl.inj hinl).symm
    have hdiscard := h.custody.discard (.inl o)
    have hmove := hdiscard.move (.inl that) (.inl o) (Function.update_self ..)
    rw [Function.update_of_ne hne, Function.update_comm hne.symm, Function.update_idem] at hmove
    rw [hold, List.map_append, ← filter_ne_none]
    exact hmove

theorem moveAssign (h : Sound s) (ho : o ∈ s.live) (hthat : that ∈ s.live) :
    Sound (s.moveAssign o that) := by
  have hdead := dead_update (dead_update h.dead that none) o (s.data that)
  have hpaired := paired_update (paired_update h.paired (paired_none _) (o := that))
    (h.paired that hthat) (o := o)
  rw [Finset.insert_eq_of_mem hthat, Finset.insert_eq_of_mem ho] at hdead hpaired
  constructor
  · have hcustody := h.custody_moveAssign o that
    rw [← held_setData, ← held_setData] at hcustody
    exact hcustody
  · exact h.nodup
  · exact hdead
  · exact hpaired
  · exact h.spans

/-- The pointer of an array is not with its callers. -/
theorem not_mem_leaked (h : Sound s) (hdata : s.data o = some p) : p ∉ s.leaked := by
  intro hp
  have hsome : s.held (.inl o) = some p := hdata
  have hleaked : s.held (.inr p) = some p := if_pos hp
  have heq := h.custody.eq_of_held (hsome ▸ Option.some_ne_none p) (hleaked.trans hsome.symm)
  exact nomatch heq

theorem held_leak (s : System O A) (o : O) : (s.leak o).held =
    Function.update (System.held { s with leaked := (s.data o).toFinset ∪ s.leaked }) (.inl o)
      none :=
  held_setData { s with leaked := (s.data o).toFinset ∪ s.leaked } o none

theorem custody_leak (h : Sound s) (o : O) : Slots none (s.leak o).held
    (s.allocated.map (some ∘ Prod.fst)) (s.freed.map some) := by
  rw [held_leak]
  cases hdata : s.data o with
  | none =>
    have hnone : s.held (.inl o) = none := hdata
    rw [Option.toFinset_none, Finset.empty_union, Function.update_eq_self_iff.mpr hnone.symm]
    exact h.custody
  | some p =>
    have hsome : s.held (.inl o) = some p := hdata
    have hleaked : s.held (.inr p) = none := if_neg (h.not_mem_leaked hdata)
    have hmove := h.custody.move (.inl o) (.inr p) hleaked
    rw [hsome, Function.update_comm Sum.inl_ne_inr, ← held_insert] at hmove
    rw [Option.toFinset_some, ← Finset.insert_eq]
    exact hmove

theorem leak (h : Sound s) (ho : o ∈ s.live) : Sound (s.leak o) := by
  have hdead := dead_update h.dead o none
  have hpaired := paired_update h.paired (paired_none s.allocated) (o := o)
  rw [Finset.insert_eq_of_mem ho] at hdead hpaired
  constructor
  · have hcustody := h.custody_leak o
    rw [← List.append_nil s.freed] at hcustody
    exact hcustody
  · exact h.nodup
  · exact hdead
  · exact hpaired
  · intro span hspan
    rcases List.mem_append.mp hspan with hspan | hspan
    · exact h.spans span hspan
    · rw [List.mem_singleton.mp hspan]
      exact h.paired o ho

theorem deleteLeakedData (h : Sound s) (hstep : s.deleteLeakedData ptr = some s') :
    Sound s' := by
  unfold System.deleteLeakedData at hstep
  split_ifs at hstep with hleaked
  obtain rfl := Option.some.inj hstep
  refine ⟨?_, h.nodup, h.dead, h.paired, h.spans⟩
  cases ptr with
  | none => simpa [System.free, System.held] using h.custody
  | some p =>
    have hp : p ∈ s.leaked := by simpa using hleaked
    have hsome : s.held (.inr p) = some p := if_pos hp
    have hdispose := h.custody.dispose (o := .inr p) (hsome ▸ Option.some_ne_none p)
    rw [hsome, ← held_erase] at hdispose
    simpa [System.free, System.held, Finset.sdiff_singleton_eq_erase] using hdispose

theorem destroy (h : Sound s) : Sound (s.destroy o) := by
  constructor
  · have hdiscard := h.custody.discard (.inl o)
    rw [filter_ne_none, ← List.map_append, ← held_setData] at hdiscard
    exact hdiscard
  · exact h.nodup
  · intro o' ho'
    by_cases heq : o' = o
    · rw [heq]
      exact Function.update_self ..
    · have hlive : o' ∉ s.live := fun hlive => ho' (Finset.mem_erase.mpr ⟨heq, hlive⟩)
      exact (Function.update_of_ne heq ..).trans (h.dead o' hlive)
  · intro o' ho'
    obtain ⟨hne, hlive⟩ := Finset.mem_erase.mp ho'
    have hpaired := h.paired o' hlive
    rwa [← Function.update_of_ne hne none s.data] at hpaired
  · exact h.spans

theorem step {operation : Operation O A} (h : Sound s) (hstep : s.operate operation = some s') :
    Sound s' := by
  cases operation with
  | deleteLeakedData ptr => exact h.deleteLeakedData hstep
  | construct o =>
    obtain ⟨ho, hstep⟩ := Option.ite_none_right_eq_some.mp hstep
    obtain rfl := Option.some.inj hstep
    exact h.build_empty ho
  | withSize o size allocation =>
    obtain ⟨ho, hstep⟩ := Option.ite_none_right_eq_some.mp hstep
    exact h.withSize ho hstep
  | uninit o size allocation =>
    obtain ⟨ho, hstep⟩ := Option.ite_none_right_eq_some.mp hstep
    exact h.uninit ho hstep
  | copiedFrom o thatSize allocation =>
    obtain ⟨ho, hstep⟩ := Option.ite_none_right_eq_some.mp hstep
    exact h.copiedFrom ho hstep
  | fromOwningPointer o ptr size =>
    obtain ⟨ho, hstep⟩ := Option.ite_none_right_eq_some.mp hstep
    exact h.fromOwningPointer ho hstep
  | moveConstruct o that =>
    obtain ⟨ho, hstep⟩ := Option.ite_none_right_eq_some.mp hstep
    obtain rfl := Option.some.inj hstep
    exact h.moveConstruct ho.1 ho.2
  | moveAssign o that =>
    obtain ⟨ho, hstep⟩ := Option.ite_none_right_eq_some.mp hstep
    obtain rfl := Option.some.inj hstep
    exact h.moveAssign ho.1 ho.2
  | leak o =>
    obtain ⟨ho, hstep⟩ := Option.ite_none_right_eq_some.mp hstep
    obtain rfl := Option.some.inj hstep
    exact h.leak ho
  | destroy o =>
    obtain ⟨-, hstep⟩ := Option.ite_none_right_eq_some.mp hstep
    obtain rfl := Option.some.inj hstep
    exact h.destroy

theorem of_run {operations : List (Operation O A)}
    (h : operations.foldlM System.operate .start = some s) : Sound s := by
  have hrun := Run.of_foldlM h
  refine Run.history_induction (I := fun _ s => Sound s) start ?_ hrun
  intro _ _ _ _ hpre hstep
  exact hpre.step hstep

/-- An allocation has one length. -/
theorem length_unique (h : Sound s) {m n : Size} (hm : (p, m) ∈ s.allocated)
    (hn : (p, n) ∈ s.allocated) : m = n :=
  congrArg Prod.snd (List.inj_on_of_nodup_map h.nodup hm hn rfl)

/-- An allocation is in one place, or it was freed. -/
theorem owned_or_freed (h : Sound s) (hp : p ∈ s.allocated.map Prod.fst) :
    (∃! o, o ∈ s.live ∧ s.data o = some p) ∧ p ∉ s.leaked ∧ s.freed.count p = 0 ∨
      (∀ o ∈ s.live, s.data o ≠ some p) ∧ p ∈ s.leaked ∧ s.freed.count p = 0 ∨
      (∀ o ∈ s.live, s.data o ≠ some p) ∧ p ∉ s.leaked ∧ s.freed.count p = 1 := by
  have hcustody := h.custody
  have hone := List.count_eq_one_of_mem h.nodup hp
  rw [← List.map_map] at hcustody
  rcases hcustody.count_handed (Option.some_ne_none p) with ⟨hcount, slot, hslot⟩ | ⟨hcount, hfree⟩
  · rw [count_map_some, count_map_some, hone] at hcount
    have hunique : ∀ slot', s.held slot' = some p → slot' = slot := fun slot' hslot' =>
      (h.custody.eq_of_held (hslot ▸ Option.some_ne_none p) (hslot'.trans hslot.symm)).symm
    cases slot with
    | inl o =>
      have hlive : o ∈ s.live := by
        by_contra hdead
        exact Option.some_ne_none p (hslot.symm.trans (h.dead o hdead))
      refine .inl ⟨⟨o, ⟨hlive, hslot⟩, fun o' ho' => Sum.inl.inj (hunique _ ho'.2)⟩, ?_, by omega⟩
      exact fun hleaked => Sum.inr_ne_inl (hunique (.inr p) (if_pos hleaked))
    | inr q =>
      have hnone : ∀ o ∈ s.live, s.data o ≠ some p := fun o _ ho =>
        Sum.inl_ne_inr (hunique (.inl o) ho)
      refine .inr (.inl ⟨hnone, ?_, by omega⟩)
      by_contra hleaked
      have hq : s.held (.inr q) = if q ∈ s.leaked then some q else none := rfl
      rw [hslot] at hq
      split_ifs at hq with hmem
      exact hleaked (Option.some.inj hq ▸ hmem)
  · rw [count_map_some, count_map_some, hone] at hcount
    refine .inr (.inr ⟨fun o _ => hfree (.inl o), fun hleaked => ?_, hcount.symm⟩)
    exact hfree (.inr p) (if_pos hleaked)

end Sound

/-- After every sequence of operations the size of an array is the length of its allocation, and
no pointer goes with size zero; so its spans and elements lie within the allocation. Every
allocation is owned by one array, or leaked, or was freed once. -/
theorem size_matches_allocation {operations : List (Operation O A)} {s : System O A}
    (h : operations.foldlM System.operate .start = some s) :
    (∀ o ∈ s.live, (s.data o = none ↔ (s.size o).val = 0) ∧
      ∀ p ∈ s.data o, (p, s.size o) ∈ s.allocated ∧ ∀ n, (p, n) ∈ s.allocated → n = s.size o ∧
        (∀ chain, ∀ span ∈ ((s.asSpan o).chain chain).value, span.view.Inside n.val) ∧
        ∀ idx, ∀ i ∈ s.element o idx, 0 ≤ i.val ∧ i.val < n.val) ∧
    ∀ p ∈ s.allocated.map Prod.fst,
      (∃! o, o ∈ s.live ∧ s.data o = some p) ∧ p ∉ s.leaked ∧ s.freed.count p = 0 ∨
      (∀ o ∈ s.live, s.data o ≠ some p) ∧ p ∈ s.leaked ∧ s.freed.count p = 0 ∨
      (∀ o ∈ s.live, s.data o ≠ some p) ∧ p ∉ s.leaked ∧ s.freed.count p = 1 := by
  have hsound := Sound.of_run h
  refine ⟨fun o ho => ⟨(hsound.paired o ho).1, fun p hp => ?_⟩, fun p => hsound.owned_or_freed⟩
  have hmem := (hsound.paired o ho).2 p hp
  refine ⟨hmem, fun n hn => ?_⟩
  obtain rfl := hsound.length_unique hmem hn
  have hwhole : Span.Whole (s.size o) (s.asSpan o) := .inl rfl
  refine ⟨rfl, fun chain span hspan => ?_, fun idx i hi => ?_⟩
  · have hview := (Span.shows_chain hwhole.inside chain).2
    exact Span.inside_viewChain hwhole.inside (hview ▸ Option.mem_map_of_mem Span.view hspan)
  · obtain ⟨hlt, heq⟩ := Option.ite_none_right_eq_some.mp hi
    obtain rfl := Option.some.inj heq
    exact ⟨idx.nonneg rfl, hlt⟩

/-- One allocation is moved to itself, leaked and taken over again, and freed when another array
is moved to its owner. -/
theorem size_matches_allocation_history :
    let operations : List (Operation Bool ℕ) :=
      [.withSize false (staticCast .uint64 4) 1, .moveAssign false false, .leak false,
        .destroy false, .fromOwningPointer false (some 1) (staticCast .uint64 4),
        .copiedFrom true (staticCast .uint64 2) 2, .moveAssign false true]
    ∃ s : System Bool ℕ, operations.foldlM System.operate .start = some s ∧
      (s.data false = none ↔ (s.size false).val = 0) ∧ s.data false = some 2 ∧ s.freed = [1] := by
  intro operations
  have hrun : (operations.foldlM System.operate System.start).any (fun s : System Bool ℕ =>
      false ∈ s.live ∧ s.data false = some 2 ∧ s.freed = [1]) = true := by decide
  obtain ⟨s, hs, hend⟩ := (Option.any_eq_true _ _).mp hrun
  obtain ⟨hlive, hdata, hfreed⟩ := of_decide_eq_true hend
  exact ⟨s, hs, ((size_matches_allocation hs).1 false hlive).1, hdata, hfreed⟩

end Model

end MiniChromium.HeapArray
