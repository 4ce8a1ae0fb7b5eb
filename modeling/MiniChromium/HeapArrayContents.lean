import MiniChromium.HeapArray
import MiniChromium.Regions
import MiniChromium.SpanContents

/-!
# What is in the arrays on the heap

The arrays of a program are in one memory, each in an allocation of its own, and are written and
copied through the spans of them. What is kept apart in this way are values: every array is a list
that no operation on another array changes, wherever its elements are, whichever array owned the
allocation before, and whether it was leaked in between.
-/
namespace MiniChromium.HeapArray

open IntegralType MiniChromium.Num Runs Regions

set_option linter.unusedSectionVars false

/-- An operation on arrays or on their elements. Storage that is not initialised has the elements
that come with the operation. -/
inductive Event (O A α : Type)
  | construct (o : O)
  | withSize (o : O) (size : Size) (allocation : A)
  | uninit (o : O) (size : Size) (allocation : A) (elements : ℕ → α)
  /-- `CopiedFrom` of a part of an array. -/
  | copiedFrom (o that : O) (part : List Span.Operation) (allocation : A) (elements : ℕ → α)
  | fromOwningPointer (o : O) (ptr : Option A) (size : Size) (elements : ℕ → α)
  | moveConstruct (o that : O)
  | moveAssign (o that : O)
  /-- `leak`, which returns the pointer. -/
  | leak (o : O) (ptr : Option A)
  | deleteLeakedData (ptr : Option A)
  | destroy (o : O)
  /-- An assignment to `operator[]`. -/
  | assign (o : O) (idx : Size) (value : α)
  /-- `copy_from`, of a part of an array to a part of an array. -/
  | copyFrom (o : O) (part : List Span.Operation) (that : O) (thatPart : List Span.Operation)

/-- Where `new` puts an allocation, counted in elements, how many elements memory has, and what
an initialised one is. -/
structure Platform (A α : Type) where
  place : A → Size
  capacity : Size
  sizeofT : Size
  fits : Span.Fits sizeofT capacity
  dcheckIsOn : Bool
  initial : α

/-- The arrays and the memory. -/
structure Heap (O A α : Type) where
  system : System O A
  memory : ℤ → α

/-- What the arrays are for: lists, and those that were leaked. -/
structure Values (O A α : Type) where
  array : O → List α
  leaked : A → Option (List α)

section Model

variable {O A α : Type} [DecidableEq O] [DecidableEq A]

section Code

variable (platform : Platform A α)

/-- `new` puts an allocation into memory, apart from the others that are in use. -/
def Platform.Apart (s : System O A) : Prop :=
  ∀ x ∈ s.allocated, x.1 ∉ s.freed →
    (platform.place x.1).val + x.2.val ≤ platform.capacity.val ∧
    ∀ y ∈ s.allocated, y.1 ∉ s.freed → y.1 ≠ x.1 →
      (platform.place x.1).val + x.2.val ≤ (platform.place y.1).val ∨
        (platform.place y.1).val + y.2.val ≤ (platform.place x.1).val

instance (s : System O A) : Decidable (platform.Apart s) :=
  inferInstanceAs (Decidable (∀ x ∈ s.allocated, x.1 ∉ s.freed → _ ∧ ∀ y ∈ s.allocated, _))

namespace Heap

variable (h : Heap O A α)

/-- `as_span`. -/
def asSpan (o : O) : Span :=
  .dynamic ((h.system.data o).elim 0 platform.place) (h.system.size o)

/-- An operation on the pointers, after which the memory is this one. -/
def operate (operation : HeapArray.Operation O A) (memory : ℤ → α) : Option (Heap O A α) :=
  (h.system.operate operation).bind fun s =>
    if platform.Apart s then some ⟨s, memory⟩ else none

/-- The memory with these elements in an allocation. -/
def initialised (allocation : A) (values : List α) : ℤ → α :=
  Regions.write h.memory (platform.place allocation).val values

/-- `copy_from`. -/
def copySpan (s other : Span) : Option (Heap O A α) :=
  match Span.copyFrom platform.dcheckIsOn platform.sizeofT s other h.memory with
  | .done memory => some { h with memory }
  | _ => none

end Heap

/-- So many of the elements. -/
def takeElements (elements : ℕ → α) (size : Size) : List α :=
  (List.range size.val.toNat).map elements

/-- A step of a program; there is none where a check fails. -/
def Heap.step (h : Heap O A α) : Event O A α → Option (Heap O A α)
  | .construct o => h.operate platform (.construct o) h.memory
  | .withSize o size allocation =>
    h.operate platform (.withSize o size allocation)
      (h.initialised platform allocation (List.replicate size.val.toNat platform.initial))
  | .uninit o size allocation elements =>
    h.operate platform (.uninit o size allocation)
      (h.initialised platform allocation (takeElements elements size))
  | .copiedFrom o that part allocation elements =>
    if that ∈ h.system.live then do
      let other ← ((h.asSpan platform that).chain part).value
      let h ← h.operate platform (.copiedFrom o other.size allocation)
        (h.initialised platform allocation (takeElements elements other.size))
      h.copySpan platform (h.asSpan platform o) other
    else none
  | .fromOwningPointer o none size _ =>
    h.operate platform (.fromOwningPointer o none size) h.memory
  | .fromOwningPointer o (some p) size elements =>
    h.operate platform (.fromOwningPointer o (some p) size)
      (if p ∈ h.system.leaked then h.memory
        else h.initialised platform p (takeElements elements size))
  | .moveConstruct o that => h.operate platform (.moveConstruct o that) h.memory
  | .moveAssign o that => h.operate platform (.moveAssign o that) h.memory
  | .leak o ptr =>
    if h.system.data o = ptr then h.operate platform (.leak o) h.memory else none
  | .deleteLeakedData ptr => h.operate platform (.deleteLeakedData ptr) h.memory
  | .destroy o => h.operate platform (.destroy o) h.memory
  | .assign o idx value =>
    if o ∈ h.system.live then
      (h.system.element o idx).map fun i =>
        { h with memory := Function.update h.memory ((h.asSpan platform o).data.val + i.val) value }
    else none
  | .copyFrom o part that thatPart =>
    if o ∈ h.system.live ∧ that ∈ h.system.live then do
      let s ← ((h.asSpan platform o).chain part).value
      let other ← ((h.asSpan platform that).chain thatPart).value
      h.copySpan platform s other
    else none

end Code

namespace Values

variable (v : Values O A α)

def set (o : O) (l : List α) : Values O A α := { v with array := Function.update v.array o l }

def setLeaked (ptr : Option A) (l : Option (List α)) : Values O A α :=
  { v with leaked := fun p => if ptr = some p then l else v.leaked p }

/-- The part of a list that a view shows. -/
def slice (l : List α) (view : View) : List α :=
  (l.drop view.offset.toNat).take view.length.toNat

/-- The view of a part of a list, if the checks allow it. -/
def viewOf (l : List α) (part : List Span.Operation) : Option View :=
  Span.viewChain ⟨0, l.length⟩ part

/-- What an operation does to the lists. -/
def apply (initial : α) : Event O A α → Option (Values O A α)
  | .construct o => some (v.set o [])
  | .withSize o size _ => some (v.set o (List.replicate size.val.toNat initial))
  | .uninit o size _ elements => some (v.set o (takeElements elements size))
  | .copiedFrom o that part _ _ =>
    (viewOf (v.array that) part).map fun view => v.set o (slice (v.array that) view)
  | .fromOwningPointer o none _ _ => some (v.set o [])
  | .fromOwningPointer o (some p) size elements =>
    some ((v.set o ((v.leaked p).getD (takeElements elements size))).setLeaked (some p) none)
  | .moveConstruct o that => some ((v.set that []).set o (v.array that))
  | .moveAssign o that => some ((v.set that []).set o (v.array that))
  | .leak o ptr => some ((v.set o []).setLeaked ptr (some (v.array o)))
  | .deleteLeakedData ptr => some (v.setLeaked ptr none)
  | .destroy o => some (v.set o [])
  | .assign o idx value =>
    if idx.val < (v.array o).length then some (v.set o ((v.array o).set idx.val.toNat value))
    else none
  | .copyFrom o part that thatPart => do
    let view ← viewOf (v.array o) part
    let thatView ← viewOf (v.array that) thatPart
    if view.length = thatView.length then
      some (v.set o (splice (v.array o) view.offset.toNat (slice (v.array that) thatView)))
    else none

end Values

variable {platform : Platform A α} {heap heap' : Heap O A α} {v : Values O A α}
  {s s' : System O A} {o o' that : O} {p : A} {ptr : Option A} {size : Size} {memory : ℤ → α}
  {values : List α} {offset : ℕ}

/-- What an array shows. -/
def Heap.contents (platform : Platform A α) (h : Heap O A α) (o : O) : List α :=
  (h.asSpan platform o).contents h.memory

/-- What is in an allocation. -/
def Platform.block (platform : Platform A α) (memory : ℤ → α) (x : A × Size) : List α :=
  read memory (platform.place x.1).val x.2.val.toNat

/-- The arrays that live show the lists, and so do the allocations that were leaked. -/
structure Agrees (platform : Platform A α) (h : Heap O A α) (v : Values O A α) : Prop where
  sound : Sound h.system
  apart : platform.Apart h.system
  array : ∀ o ∈ h.system.live, h.contents platform o = v.array o
  leaked : ∀ x ∈ h.system.allocated, x.1 ∈ h.system.leaked →
    v.leaked x.1 = some (platform.block h.memory x)
  unleaked : ∀ p ∉ h.system.leaked, v.leaked p = none

theorem contents_of_some (hp : s.data o = some p) :
    Heap.contents platform ⟨s, memory⟩ o = platform.block memory (p, s.size o) := by
  rw [Heap.contents, Heap.asSpan, hp]
  rfl

theorem contents_of_none (hsize : (s.size o).val = 0) :
    Heap.contents platform ⟨s, memory⟩ o = [] := by
  rw [Heap.contents, Heap.asSpan, Span.contents, Span.size, hsize]
  rfl

theorem data_asSpan (hp : heap.system.data o = some p) :
    (heap.asSpan platform o).data = platform.place p := by
  rw [Heap.asSpan, hp]
  rfl

/-- An array shows the same where its fields are the same. -/
theorem contents_congr (hdata : s'.data o = s.data o) (hsize : s'.size o = s.size o) :
    Heap.contents platform ⟨s', memory⟩ o = Heap.contents platform ⟨s, memory⟩ o := by
  rw [Heap.contents, Heap.asSpan, hdata, hsize]
  rfl

namespace Sound

theorem data_injective (h : Sound s) (ho : s.data o = some p) (ho' : s.data o' = some p) :
    o = o' := by
  have hheld : s.held (.inl o) = some p := ho
  have hheld' : s.held (.inl o') = some p := ho'
  exact Sum.inl.inj (h.custody.eq_of_held (hheld ▸ Option.some_ne_none p) (hheld'.trans hheld.symm))

theorem allocated_of_leaked (h : Sound s) (hp : p ∈ s.leaked) :
    p ∈ s.allocated.map Prod.fst := by
  have hheld : s.held (.inr p) = some p := if_pos hp
  rcases h.custody.count_handed (Option.some_ne_none p) with ⟨hcount, -⟩ | ⟨-, hfree⟩
  · rw [← List.map_map, count_map_some, count_map_some] at hcount
    exact List.count_pos_iff.mp (by omega)
  · exact absurd hheld (hfree (.inr p))

/-- What an array owns is in use. -/
theorem inUse (h : Sound s) (ho : o ∈ s.live) (hp : s.data o = some p) :
    (p, s.size o) ∈ s.allocated ∧ p ∉ s.freed := by
  have hmem := (h.paired o ho).2 p hp
  refine ⟨hmem, ?_⟩
  rw [← List.count_eq_zero]
  rcases h.owned_or_freed (List.mem_map_of_mem hmem) with h | h | h
  · exact h.2.2
  · exact absurd hp (h.1 o ho)
  · exact absurd hp (h.1 o ho)

theorem notMem_freed_of_leaked (h : Sound s) (hp : p ∈ s.leaked) : p ∉ s.freed := by
  rw [← List.count_eq_zero]
  rcases h.owned_or_freed (h.allocated_of_leaked hp) with h | h | h
  · exact absurd hp h.2.1
  · exact h.2.2
  · exact absurd hp h.2.1

theorem size_eq_zero (h : Sound s) (ho : o ∈ s.live) (hp : s.data o = none) :
    (s.size o).val = 0 :=
  (h.paired o ho).1.mp hp

end Sound

/-- The span of an array that lives is in memory. -/
theorem Agrees.inside (h : Agrees platform heap v) (ho : o ∈ heap.system.live) :
    (heap.asSpan platform o).view.Inside platform.capacity.val := by
  cases hp : heap.system.data o with
  | none =>
    rw [Heap.asSpan, hp]
    refine ⟨le_rfl, (heap.system.size o).nonneg rfl, ?_⟩
    have hsize := h.sound.size_eq_zero ho hp
    have hcapacity := platform.capacity.nonneg rfl
    simpa [Span.view, hsize] using hcapacity
  | some p =>
    obtain ⟨hmem, hfreed⟩ := h.sound.inUse ho hp
    rw [Heap.asSpan, hp]
    exact ⟨(platform.place p).nonneg rfl, (heap.system.size o).nonneg rfl,
      (h.apart _ hmem hfreed).1⟩

theorem Agrees.length_array (h : Agrees platform heap v) (ho : o ∈ heap.system.live) :
    ((v.array o).length : ℤ) = (heap.system.size o).val := by
  rw [← h.array o ho, Heap.contents, Span.length_contents]
  exact Int.toNat_of_nonneg ((heap.system.size o).nonneg rfl)

/-- The positions of an array and of an allocation that is in use and not its own. -/
theorem Agrees.apart_of_ne (h : Agrees platform heap v) (ho : o ∈ heap.system.live)
    (hp : heap.system.data o = some p) {x : A × Size} (hx : x ∈ heap.system.allocated)
    (hfreed : x.1 ∉ heap.system.freed) (hne : x.1 ≠ p) :
    (platform.place x.1).val + x.2.val ≤ (platform.place p).val ∨
      (platform.place p).val + (heap.system.size o).val ≤ (platform.place x.1).val := by
  obtain ⟨hmem, hfreed'⟩ := h.sound.inUse ho hp
  exact (h.apart x hx hfreed).2 (p, heap.system.size o) hmem hfreed' hne.symm

theorem Values.set_self (v : Values O A α) (o : O) : v.set o (v.array o) = v := by
  rw [Values.set, Function.update_eq_self]

@[simp]
theorem Values.array_set_self (v : Values O A α) (o : O) (l : List α) : (v.set o l).array o = l :=
  Function.update_self ..

theorem Values.array_set_of_ne (v : Values O A α) (l : List α) (h : o' ≠ o) :
    (v.set o l).array o' = v.array o' :=
  Function.update_of_ne h ..

@[simp]
theorem Values.set_set (v : Values O A α) (o : O) (l l' : List α) :
    (v.set o l).set o l' = v.set o l' := by
  rw [Values.set, Values.set, Function.update_idem, Values.set]

theorem Values.leaked_setLeaked_self (v : Values O A α) (p : A) (l : Option (List α)) :
    (v.setLeaked (some p) l).leaked p = l :=
  if_pos rfl

theorem Values.leaked_setLeaked_of_ne (v : Values O A α) (l : Option (List α))
    (h : ptr ≠ some p) : (v.setLeaked ptr l).leaked p = v.leaked p :=
  if_neg h

theorem Values.setLeaked_of_none (h : v.leaked p = none) : v.setLeaked (some p) none = v := by
  rw [Values.setLeaked]
  congr 1
  funext q
  split_ifs with hq
  · rw [← Option.some.inj hq, h]
  · rfl

/-- Elements of one array are written, and no other array or leaked allocation changes. -/
theorem Agrees.write (offset : ℕ) (values : List α) (h : Agrees platform heap v)
    (ho : o ∈ heap.system.live) (hfit : offset + values.length ≤ (v.array o).length) :
    Agrees platform
      ⟨heap.system, Regions.write heap.memory ((heap.asSpan platform o).data.val + offset) values⟩
      (v.set o (splice (v.array o) offset values)) := by
  have hlength := h.length_array ho
  cases hp : heap.system.data o with
  | none =>
    have hzero : (v.array o).length = 0 := by
      have hsize := h.sound.size_eq_zero ho hp
      omega
    obtain rfl : values = [] := List.eq_nil_of_length_eq_zero (by omega)
    have hsplice : splice (v.array o) offset [] = v.array o := by
      rw [List.eq_nil_of_length_eq_zero hzero]
      simp [splice]
    rwa [hsplice, v.set_self, write_nil]
  | some p =>
    have hblock : ∀ x ∈ heap.system.allocated, x.1 ∉ heap.system.freed → x.1 ≠ p →
        platform.block (Regions.write heap.memory ((platform.place p).val + offset) values) x =
          platform.block heap.memory x := by
      intro x hx hfreed hne
      have hnonneg := x.2.nonneg rfl
      have hplaces := h.apart_of_ne ho hp hx hfreed hne
      exact read_write_of_apart (by omega)
    rw [data_asSpan hp]
    refine ⟨h.sound, h.apart, fun o' ho' => ?_, fun x hx hleaked => ?_, h.unleaked⟩
    · by_cases heq : o' = o
      · subst heq
        have harray := h.array o' ho'
        rw [contents_of_some hp] at harray
        rw [contents_of_some hp, Values.array_set_self, ← harray]
        have hfit' : offset + values.length ≤ (heap.system.size o').val.toNat := by omega
        exact read_write hfit'
      · rw [Values.array_set_of_ne _ _ heq, ← h.array o' ho']
        cases hp' : heap.system.data o' with
        | none =>
          have hsize := h.sound.size_eq_zero ho' hp'
          rw [contents_of_none hsize, contents_of_none hsize]
        | some p' =>
          obtain ⟨hmem, hfreed⟩ := h.sound.inUse ho' hp'
          rw [contents_of_some hp', contents_of_some hp']
          refine hblock _ hmem hfreed ?_
          rintro rfl
          exact heq (h.sound.data_injective hp' hp)
    · have hne : x.1 ≠ p := ne_of_mem_of_not_mem hleaked (h.sound.not_mem_leaked hp)
      exact (h.leaked x hx hleaked).trans
        (congrArg some (hblock x hx (h.sound.notMem_freed_of_leaked hleaked) hne).symm)

theorem asSpan_build : Heap.asSpan platform ⟨s.build o ptr size, memory⟩ o =
    .dynamic (ptr.elim 0 platform.place) size := by
  simp [Heap.asSpan, System.build, System.setSize, System.setData]

theorem asSpan_build_of_ne (hne : that ≠ o) :
    Heap.asSpan platform ⟨s.build o ptr size, memory⟩ that =
      Heap.asSpan platform ⟨s, memory⟩ that := by
  simp [Heap.asSpan, System.build, System.setSize, System.setData, hne]

/-- An array comes to life that shows what is in memory already. -/
theorem Agrees.build (hsound : Sound (s.build o ptr size))
    (hapart : platform.Apart (s.build o ptr size))
    (harray : ∀ o' ∈ s.live, o' ≠ o → Heap.contents platform ⟨s, memory⟩ o' = v.array o')
    (hleaked : ∀ x ∈ s.allocated, x.1 ∈ s.leaked →
      v.leaked x.1 = some (platform.block memory x))
    (hunleaked : ∀ p ∉ s.leaked, v.leaked p = none) :
    Agrees platform ⟨s.build o ptr size, memory⟩
      (v.set o (read memory (ptr.elim (0 : Size) platform.place).val size.val.toNat)) := by
  refine ⟨hsound, hapart, fun o' ho' => ?_, hleaked, hunleaked⟩
  have hdata : (s.build o ptr size).data = Function.update s.data o ptr := rfl
  have hsize : (s.build o ptr size).size = Function.update s.size o size := rfl
  by_cases heq : o' = o
  · subst heq
    rw [Values.array_set_self, Heap.contents, asSpan_build]
    rfl
  · have hlive : o' ∈ s.live := Finset.mem_of_mem_insert_of_ne ho' heq
    rw [Values.array_set_of_ne _ _ heq, ← harray o' hlive heq]
    exact contents_congr (by rw [hdata, Function.update_of_ne heq])
      (by rw [hsize, Function.update_of_ne heq])

/-- `new` for an array that comes to life, and what initialises it. -/
theorem Agrees.build_allocated (h : Agrees platform ⟨s, memory⟩ v) (ho : o ∉ s.live)
    (hsize : size.val ≠ 0) {t : System O A} (hallocate : s.allocate size p = some t)
    (hapart : platform.Apart (t.build o (some p) size))
    (hvalues : values.length = size.val.toNat) :
    Agrees platform ⟨t.build o (some p) size, Regions.write memory (platform.place p).val values⟩
      (v.set o values) := by
  have hsound : Sound (t.build o (some p) size) := h.sound.build_allocated ho hsize hallocate
  obtain ⟨hfresh, hallocate⟩ := Option.ite_none_right_eq_some.mp hallocate
  obtain rfl := Option.some.inj hallocate
  have hleaked : ∀ x ∈ s.allocated ++ [(p, size)], x.1 ∈ s.leaked →
      v.leaked x.1 = some (platform.block memory x) := by
    intro x hx hleaked
    rcases List.mem_append.mp hx with hx | hx
    · exact h.leaked x hx hleaked
    · obtain rfl := List.mem_singleton.mp hx
      exact absurd (h.sound.allocated_of_leaked hleaked) hfresh
  have hbuild := Agrees.build (v := v) hsound hapart (fun o' ho' _ => h.array o' ho') hleaked
    h.unleaked
  have hlive : o ∈ insert o s.live := Finset.mem_insert_self o s.live
  have hwrite := hbuild.write 0 values hlive (by simp [hvalues])
  rw [asSpan_build, Values.array_set_self, Values.set_set, splice_all (by simp [hvalues]),
    Nat.cast_zero, add_zero] at hwrite
  exact hwrite

/-- `Uninit`, or another function that allocates as it does. -/
theorem Agrees.create (h : Agrees platform ⟨s, memory⟩ v) {allocation : A} (ho : o ∉ s.live)
    (hstep : s.uninit o size allocation = some s') (hapart : platform.Apart s')
    (hvalues : values.length = size.val.toNat) :
    Agrees platform ⟨s', Regions.write memory (platform.place allocation).val values⟩
      (v.set o values) := by
  have hsound : Sound s' := h.sound.uninit ho hstep
  rw [System.uninit] at hstep
  split_ifs at hstep with hsize
  · obtain rfl := Option.some.inj hstep
    obtain rfl : values = [] := List.eq_nil_of_length_eq_zero (by omega)
    rw [write_nil]
    exact Agrees.build hsound hapart (fun o' ho' _ => h.array o' ho') h.leaked h.unleaked
  · obtain ⟨t, hallocate, rfl⟩ := Option.map_eq_some_iff.mp hstep
    exact h.build_allocated ho hsize hallocate hapart hvalues

/-- `FromOwningPointer`, of an allocation that was leaked or of another one. -/
theorem Agrees.fromOwningPointer (h : Agrees platform ⟨s, memory⟩ v) (ho : o ∉ s.live)
    (hstep : s.fromOwningPointer o (some p) size = some s') (hapart : platform.Apart s')
    (hvalues : values.length = size.val.toNat) :
    Agrees platform
      ⟨s', if p ∈ s.leaked then memory else
        Regions.write memory (platform.place p).val values⟩
      ((v.set o ((v.leaked p).getD values)).setLeaked (some p) none) := by
  have hsound : Sound s' := h.sound.fromOwningPointer ho hstep
  rw [System.fromOwningPointer] at hstep
  split_ifs at hstep with hsize hnull
  · cases hnull
  · obtain ⟨t, htake, rfl⟩ := Option.map_eq_some_iff.mp hstep
    rw [System.takeOver, Option.bind_some] at htake
    split_ifs at htake with hleaked
    · obtain rfl := Option.some.inj htake
      rw [if_pos hleaked.2, h.leaked (p, size) hleaked.1 hleaked.2, Option.getD_some]
      refine Agrees.build (v := v.setLeaked (some p) none) hsound hapart
        (fun o' ho' _ => h.array o' ho') (fun x hx hmem => ?_) fun q hq => ?_
      · obtain ⟨hne, hmem⟩ := Finset.mem_erase.mp hmem
        rw [v.leaked_setLeaked_of_ne _ fun heq => hne (Option.some.inj heq).symm]
        exact h.leaked x hx hmem
      · by_cases heq : q = p
        · rw [heq, v.leaked_setLeaked_self]
        · rw [v.leaked_setLeaked_of_ne _ fun hqp => heq (Option.some.inj hqp).symm]
          exact h.unleaked q fun hmem => hq (Finset.mem_erase.mpr ⟨heq, hmem⟩)
    · have hfresh : p ∉ s.leaked := fun hmem =>
        (Option.ite_none_right_eq_some.mp htake).1 (h.sound.allocated_of_leaked hmem)
      have hnone : v.leaked p = none := h.unleaked p hfresh
      rw [if_neg hfresh, hnone, Option.getD_none, Values.setLeaked_of_none (by exact hnone)]
      exact h.build_allocated ho hsize htake hapart hvalues

/-- An array gets the allocation of another one, which is empty then. The other one may be the
same. -/
theorem Agrees.move (h : Agrees platform ⟨s, memory⟩ v) (hthat : that ∈ s.live)
    (hsound : Sound s') (hapart : platform.Apart s') (hlive : s'.live ⊆ insert o s.live)
    (hdata : s'.data = Function.update (Function.update s.data that none) o (s.data that))
    (hsize : s'.size = Function.update (Function.update s.size that 0) o (s.size that))
    (hallocated : s'.allocated = s.allocated) (hleaked : s'.leaked = s.leaked) :
    Agrees platform ⟨s', memory⟩ ((v.set that []).set o (v.array that)) := by
  refine ⟨hsound, hapart, fun o' ho' => ?_, fun x hx hmem => ?_, fun p hp => ?_⟩
  · by_cases heq : o' = o
    · rw [heq, Values.array_set_self, ← h.array that hthat, Heap.contents, Heap.asSpan]
      dsimp only
      rw [hdata, hsize, Function.update_self, Function.update_self]
      rfl
    · rw [Values.array_set_of_ne _ _ heq]
      by_cases heq' : o' = that
      · rw [heq', Values.array_set_self]
        rw [heq'] at heq
        refine contents_of_none ?_
        rw [hsize, Function.update_of_ne heq, Function.update_self]
        rfl
      · have hold : o' ∈ s.live := Finset.mem_of_mem_insert_of_ne (hlive ho') heq
        rw [Values.array_set_of_ne _ _ heq', ← h.array o' hold]
        exact contents_congr
          (by rw [hdata, Function.update_of_ne heq, Function.update_of_ne heq'])
          (by rw [hsize, Function.update_of_ne heq, Function.update_of_ne heq'])
  · exact h.leaked x (hallocated ▸ hx) (hleaked ▸ hmem)
  · exact h.unleaked p (hleaked ▸ hp)

theorem Agrees.leak (h : Agrees platform ⟨s, memory⟩ v) (ho : o ∈ s.live) (hptr : s.data o = ptr)
    (hapart : platform.Apart (s.leak o)) :
    Agrees platform ⟨s.leak o, memory⟩ ((v.set o []).setLeaked ptr (some (v.array o))) := by
  have hdata : (s.leak o).data = Function.update s.data o none := rfl
  have hsize : (s.leak o).size = Function.update s.size o 0 := rfl
  have hleaked : (s.leak o).leaked = ptr.toFinset ∪ s.leaked := hptr ▸ rfl
  refine ⟨h.sound.leak ho, hapart, fun o' ho' => ?_, fun x hx hmem => ?_, fun p hp => ?_⟩
  · change Heap.contents platform ⟨s.leak o, memory⟩ o' = (v.set o []).array o'
    by_cases heq : o' = o
    · rw [heq, Values.array_set_self]
      refine contents_of_none ?_
      rw [hsize, Function.update_self]
      rfl
    · rw [Values.array_set_of_ne _ _ heq, ← h.array o' ho']
      exact contents_congr (by rw [hdata, Function.update_of_ne heq])
        (by rw [hsize, Function.update_of_ne heq])
  · by_cases heq : ptr = some x.1
    · obtain ⟨hown, -⟩ := h.sound.inUse ho (hptr.trans heq)
      have hx2 : x.2 = s.size o := h.sound.length_unique (p := x.1) hx hown
      rw [heq, Values.leaked_setLeaked_self, ← h.array o ho, contents_of_some (hptr.trans heq),
        ← hx2]
    · rw [Values.leaked_setLeaked_of_ne _ _ heq]
      refine h.leaked x hx ?_
      rw [hleaked, Finset.mem_union, Option.mem_toFinset] at hmem
      exact hmem.resolve_left heq
  · change p ∉ (s.leak o).leaked at hp
    rw [hleaked, Finset.mem_union, Option.mem_toFinset, not_or] at hp
    rw [Values.leaked_setLeaked_of_ne _ _ hp.1]
    exact h.unleaked p hp.2

theorem Agrees.deleteLeakedData (h : Agrees platform ⟨s, memory⟩ v)
    (hstep : s.deleteLeakedData ptr = some s') (hapart : platform.Apart s') :
    Agrees platform ⟨s', memory⟩ (v.setLeaked ptr none) := by
  have hsound : Sound s' := h.sound.deleteLeakedData hstep
  obtain ⟨-, hstep⟩ := Option.ite_none_right_eq_some.mp hstep
  obtain rfl := Option.some.inj hstep
  refine ⟨hsound, hapart, h.array, fun x hx hmem => ?_, fun p hp => ?_⟩
  · obtain ⟨hold, hne⟩ := Finset.mem_sdiff.mp hmem
    rw [Option.mem_toFinset] at hne
    rw [v.leaked_setLeaked_of_ne _ hne]
    exact h.leaked x hx hold
  · by_cases heq : ptr = some p
    · rw [heq, v.leaked_setLeaked_self]
    · rw [v.leaked_setLeaked_of_ne _ heq]
      refine h.unleaked p fun hmem => hp (Finset.mem_sdiff.mpr ⟨hmem, ?_⟩)
      rwa [Option.mem_toFinset]

theorem Agrees.destroy (h : Agrees platform ⟨s, memory⟩ v)
    (hapart : platform.Apart (s.destroy o)) :
    Agrees platform ⟨s.destroy o, memory⟩ (v.set o []) := by
  refine ⟨h.sound.destroy, hapart, fun o' ho' => ?_, h.leaked, h.unleaked⟩
  obtain ⟨hne, hlive⟩ := Finset.mem_erase.mp ho'
  rw [Values.array_set_of_ne _ _ hne, ← h.array o' hlive]
  exact contents_congr (Function.update_of_ne hne ..) rfl

/-- A view at another place. -/
def shift (d : ℤ) (view : View) : View := ⟨d + view.offset, view.length⟩

theorem apply_shift (d : ℤ) (view : View) (operation : Span.Operation) :
    (shift d view).apply operation = (view.apply operation).map (shift d) := by
  cases operation with
  | first form count =>
    rw [View.apply, View.apply, apply_ite (Option.map (shift d))]
    rfl
  | last form count =>
    rw [View.apply, View.apply, apply_ite (Option.map (shift d))]
    simp only [shift, Option.map_some, Option.map_none, add_assoc]
  | subspan form offset count =>
    rw [View.apply, View.apply, apply_ite (Option.map (shift d))]
    simp only [shift, Option.map_some, Option.map_none, add_assoc]
  | splitAt form offset second =>
    rw [View.apply, View.apply, apply_ite (Option.map (shift d))]
    cases second with
    | true => simp only [shift, Option.map_some, Option.map_none, add_assoc, if_true]
    | false => rfl

theorem viewChain_shift (d : ℤ) (view : View) (part : List Span.Operation) :
    Span.viewChain (shift d view) part = (Span.viewChain view part).map (shift d) := by
  induction part generalizing view with
  | nil => rfl
  | cons operation part ih =>
    rw [Span.viewChain, Span.viewChain, apply_shift]
    cases view.apply operation with
    | none => rfl
    | some view' => exact ih view'

/-- The span shows the part of the list of an array that the view does. -/
structure ShowsPart (platform : Platform A α) (h : Heap O A α) (v : Values O A α) (o : O)
    (s : Span) (view : View) : Prop where
  offset_nonneg : 0 ≤ view.offset
  length_nonneg : 0 ≤ view.length
  le_length : view.offset + view.length ≤ (v.array o).length
  data : s.data.val = (h.asSpan platform o).data.val + view.offset
  size : s.size.val = view.length
  contents : s.contents h.memory = Values.slice (v.array o) view

/-- The checks for a part of an array are those for the part of its list. -/
theorem Agrees.part (h : Agrees platform heap v) (ho : o ∈ heap.system.live)
    (part : List Span.Operation) :
    ((heap.asSpan platform o).chain part).value = none ∧ Values.viewOf (v.array o) part = none ∨
      ∃ s view, ((heap.asSpan platform o).chain part).value = some s ∧
        Values.viewOf (v.array o) part = some view ∧ ShowsPart platform heap v o s view := by
  have hlength := h.length_array ho
  have hview : (heap.asSpan platform o).view =
      shift (heap.asSpan platform o).data.val ⟨0, (v.array o).length⟩ := by
    rw [Span.view_eq, shift, hlength, add_zero]
    rfl
  have hchain := (Span.shows_chain (h.inside ho) part).2
  rw [hview, viewChain_shift] at hchain
  rw [Values.viewOf]
  cases hviews : Span.viewChain ⟨0, (v.array o).length⟩ part with
  | none =>
    rw [hviews] at hchain
    exact .inl ⟨Option.map_eq_none_iff.mp hchain, rfl⟩
  | some view =>
    rw [hviews, Option.map_some] at hchain
    obtain ⟨s, hs, hshift⟩ := Option.map_eq_some_iff.mp hchain
    have hwhole : (⟨0, (v.array o).length⟩ : View).Inside (v.array o).length :=
      ⟨le_rfl, Int.natCast_nonneg _, by simp⟩
    obtain ⟨hoffset, hlen, hend⟩ := Span.inside_viewChain hwhole (Option.mem_def.mpr hviews)
    rw [Span.view_eq, shift, View.mk.injEq] at hshift
    refine .inr ⟨s, view, hs, rfl, hoffset, hlen, hend, hshift.1, hshift.2, ?_⟩
    have htotal : view.offset.toNat + view.length.toNat ≤
        (heap.system.size o).val.toNat := by omega
    have hstart : s.data.val = (heap.asSpan platform o).data.val + (view.offset.toNat : ℤ) := by
      rw [hshift.1, Int.toNat_of_nonneg hoffset]
    rw [← h.array o ho, Values.slice]
    change read heap.memory s.data.val s.size.val.toNat = _
    rw [hstart, hshift.2, read_part htotal]
    rfl

theorem Agrees.part_of_some (part : List Span.Operation) (h : Agrees platform heap v)
    (ho : o ∈ heap.system.live) {t : Span}
    (ht : ((heap.asSpan platform o).chain part).value = some t) :
    ∃ view, Values.viewOf (v.array o) part = some view ∧ ShowsPart platform heap v o t view := by
  rcases h.part ho part with ⟨hnone, -⟩ | ⟨t', view, ht', hview, hshows⟩
  · cases hnone.symm.trans ht
  · obtain rfl := Option.some.inj (ht'.symm.trans ht)
    exact ⟨view, hview, hshows⟩

/-- An assignment to an element. -/
theorem Agrees.assign (h : Agrees platform heap v) (ho : o ∈ heap.system.live) {idx : Size}
    (hidx : idx.val < (heap.system.size o).val) (value : α) :
    Agrees platform
      ⟨heap.system, Function.update heap.memory
        ((heap.asSpan platform o).data.val + idx.val) value⟩
      (v.set o ((v.array o).set idx.val.toNat value)) := by
  have hlength := h.length_array ho
  have hnonneg := idx.nonneg rfl
  have hlt : idx.val.toNat < (v.array o).length := by omega
  have hwrite := h.write idx.val.toNat [value] ho hlt
  rwa [Int.toNat_of_nonneg hnonneg, write_singleton, splice_singleton hlt] at hwrite

/-- Copying writes what the other span shows. -/
theorem copied_eq_write {t other : Span} (hsize : t.size = other.size) (memory : ℤ → α) :
    Span.copied memory t other = Regions.write memory t.data.val (other.contents memory) := by
  have hnonneg := other.size.nonneg rfl
  have hlength := Span.length_contents memory other
  funext position
  rw [Span.copied, hsize]
  by_cases hshown : t.data.val ≤ position ∧ position < t.data.val + other.size.val
  · have hread : (other.contents memory)[(position - t.data.val).toNat]? =
        some (memory (other.data.val + ((position - t.data.val).toNat : ℕ))) :=
      (getElem?_read ..).trans (if_pos (by omega))
    rw [if_pos hshown, Regions.write, if_pos hshown.1, hread, Option.getD_some,
      Int.toNat_of_nonneg (by omega)]
  · rw [if_neg hshown, write_of_outside (by omega)]

section Copy

variable {t other : Span} {view thatView : View}

theorem ShowsPart.inside (hshows : ShowsPart platform heap v o t view)
    (h : Agrees platform heap v) (ho : o ∈ heap.system.live) :
    t.view.Inside platform.capacity.val := by
  have hlength := h.length_array ho
  have hend := hshows.le_length
  have hinside := h.inside ho
  rw [Span.view_eq] at hinside ⊢
  obtain ⟨hstart, -, hcapacity⟩ := hinside
  have hwhole : (heap.asSpan platform o).size.val = (heap.system.size o).val := rfl
  have hoffset := hshows.offset_nonneg
  have hlen := hshows.length_nonneg
  refine ⟨?_, ?_, ?_⟩
  · rw [hshows.data]
    exact add_nonneg hstart hoffset
  · rw [hshows.size]
    exact hlen
  · rw [hshows.data, hshows.size]
    simp only at hcapacity ⊢
    omega

/-- A copy that goes through splices one list into the other. -/
theorem Agrees.copySpan (h : Agrees platform heap v) (ho : o ∈ heap.system.live)
    (hthat : that ∈ heap.system.live) (hshows : ShowsPart platform heap v o t view)
    (hother : ShowsPart platform heap v that other thatView)
    (hcopy : heap.copySpan platform t other = some heap') :
    view.length = thatView.length ∧ Agrees platform heap'
      (v.set o (splice (v.array o) view.offset.toNat (Values.slice (v.array that) thatView))) := by
  rw [Heap.copySpan] at hcopy
  cases hdone : Span.copyFrom platform.dcheckIsOn platform.sizeofT t other heap.memory with
  | checkFailed => simp [hdone] at hcopy
  | undefined => simp [hdone] at hcopy
  | done memory =>
    rw [hdone, Option.some_inj] at hcopy
    obtain ⟨hsize, -, -, rfl⟩ := (Span.copyFrom_eq_done_iff platform.fits (hshows.inside h ho)
      (hother.inside h hthat)).mp hdone
    have hlength : view.length = thatView.length := by
      rw [← hshows.size, hsize, hother.size]
    refine ⟨hlength, ?_⟩
    have hoffset := hshows.offset_nonneg
    have hlen := hshows.length_nonneg
    have hend := hshows.le_length
    have hwrite := h.write view.offset.toNat (Values.slice (v.array that) thatView) ho (by
      rw [Values.slice, List.length_take]
      omega)
    rwa [Int.toNat_of_nonneg hoffset, ← hshows.data, ← hother.contents, ← copied_eq_write hsize,
      hother.contents, hcopy] at hwrite

/-- Parts of two arrays that have as many elements are apart. -/
theorem Agrees.places (h : Agrees platform heap v) (ho : o ∈ heap.system.live)
    (hthat : that ∈ heap.system.live) (hne : o ≠ that)
    (hshows : ShowsPart platform heap v o t view)
    (hother : ShowsPart platform heap v that other thatView)
    (heq : view.length = thatView.length) :
    t.data.val + t.size.val ≤ other.data.val ∨ other.data.val + other.size.val ≤ t.data.val := by
  have hoffset := hshows.offset_nonneg
  have hoffset' := hother.offset_nonneg
  have hlen := hshows.length_nonneg
  have hend := hshows.le_length
  have hend' := hother.le_length
  rw [h.length_array ho] at hend
  rw [h.length_array hthat] at hend'
  rw [hshows.data, hshows.size, hother.data, hother.size, ← heq]
  cases hp : heap.system.data o with
  | none =>
    have hsize := h.sound.size_eq_zero ho hp
    omega
  | some p =>
    cases hq : heap.system.data that with
    | none =>
      have hsize := h.sound.size_eq_zero hthat hq
      omega
    | some q =>
      have hqp : q ≠ p := by
        rintro rfl
        exact hne (h.sound.data_injective hp hq)
      obtain ⟨hmem, hfreed⟩ := h.sound.inUse hthat hq
      have hplaces := h.apart_of_ne ho hp hmem hfreed hqp
      rw [data_asSpan hp, data_asSpan hq]
      simp only at hplaces
      omega

/-- Between two arrays every copy of as many elements goes through. -/
theorem Agrees.copySpan_eq_none_iff (h : Agrees platform heap v) (ho : o ∈ heap.system.live)
    (hthat : that ∈ heap.system.live) (hne : o ≠ that)
    (hshows : ShowsPart platform heap v o t view)
    (hother : ShowsPart platform heap v that other thatView) :
    heap.copySpan platform t other = none ↔ view.length ≠ thatView.length := by
  have hsize : t.size = other.size ↔ view.length = thatView.length := by
    rw [← hshows.size, ← hother.size, Num.ext_iff]
  by_cases heq : view.length = thatView.length
  · refine iff_of_false ?_ (not_not.mpr heq)
    have hplaces := h.places ho hthat hne hshows hother heq
    have hsizes := congrArg Num.val (hsize.mpr heq)
    have hdone : Span.copyFrom platform.dcheckIsOn platform.sizeofT t other heap.memory =
        .done (Span.copied heap.memory t other) :=
      (Span.copyFrom_eq_done_iff platform.fits (hshows.inside h ho) (hother.inside h hthat)).mpr
        ⟨hsize.mpr heq, fun _ => by omega, by omega, rfl⟩
    rw [Heap.copySpan, hdone]
    exact Option.some_ne_none _
  · refine iff_of_true ?_ heq
    rw [Heap.copySpan, Span.copyFrom_of_size_ne platform.fits (hshows.inside h ho)
      (hother.inside h hthat) (fun hsizes => heq (hsize.mp hsizes))]

end Copy

theorem length_takeElements (elements : ℕ → α) (size : Size) :
    (takeElements elements size).length = size.val.toNat := by
  simp [takeElements]

theorem of_operate {operation : HeapArray.Operation O A}
    (h : heap.operate platform operation memory = some heap') :
    ∃ s', heap.system.operate operation = some s' ∧ platform.Apart s' ∧ heap' = ⟨s', memory⟩ := by
  obtain ⟨s', hs', hstep⟩ := Option.bind_eq_some_iff.mp h
  obtain ⟨hapart, hstep⟩ := Option.ite_none_right_eq_some.mp hstep
  exact ⟨s', hs', hapart, (Option.some.inj hstep).symm⟩

/-- Other arrays stay where they are. -/
theorem uninit_frame (platform : Platform A α) (memory : ℤ → α) {allocation : A}
    (hstep : s.uninit o size allocation = some s')
    (hne : that ≠ o) : o ∈ s'.live ∧ s.live ⊆ s'.live ∧
      Heap.asSpan platform ⟨s', memory⟩ that = Heap.asSpan platform ⟨s, memory⟩ that := by
  rw [System.uninit] at hstep
  split_ifs at hstep
  · obtain rfl := Option.some.inj hstep
    exact ⟨Finset.mem_insert_self .., Finset.subset_insert .., asSpan_build_of_ne hne⟩
  · obtain ⟨t, hallocate, rfl⟩ := Option.map_eq_some_iff.mp hstep
    obtain ⟨-, hallocate⟩ := Option.ite_none_right_eq_some.mp hallocate
    obtain rfl := Option.some.inj hallocate
    exact ⟨Finset.mem_insert_self .., Finset.subset_insert .., asSpan_build_of_ne hne⟩

/-- `CopiedFrom`: the new array is made and copied to. -/
theorem Agrees.copiedFrom (h : Agrees platform ⟨s, memory⟩ v) (ho : o ∉ s.live)
    (hthat : that ∈ s.live) {part : List Span.Operation} {other : Span} {view : View}
    {allocation : A} {elements : ℕ → α}
    (hother : ((Heap.asSpan platform ⟨s, memory⟩ that).chain part).value = some other)
    (hview : Values.viewOf (v.array that) part = some view)
    (huninit : s.uninit o other.size allocation = some s') (hapart : platform.Apart s')
    (hcopy : Heap.copySpan platform
      ⟨s', Regions.write memory (platform.place allocation).val
        (takeElements elements other.size)⟩
      (Heap.asSpan platform ⟨s', Regions.write memory (platform.place allocation).val
        (takeElements elements other.size)⟩ o) other = some heap') :
    Agrees platform heap' (v.set o (Values.slice (v.array that) view)) := by
  have hne : that ≠ o := ne_of_mem_of_not_mem hthat ho
  have hcreate := h.create ho huninit hapart (length_takeElements elements other.size)
  obtain ⟨hlive, hsub, hspan⟩ := uninit_frame platform
    (Regions.write memory (platform.place allocation).val (takeElements elements other.size))
    huninit hne
  have hspan' : Heap.asSpan platform ⟨s', Regions.write memory (platform.place allocation).val
      (takeElements elements other.size)⟩ that = Heap.asSpan platform ⟨s, memory⟩ that := hspan
  obtain ⟨whole, hwhole, hshows⟩ := hcreate.part_of_some [] hlive rfl
  obtain ⟨view', hview', hshows'⟩ := hcreate.part_of_some part (hsub hthat)
    (hspan' ▸ hother)
  rw [Values.array_set_of_ne _ _ hne] at hview'
  obtain rfl := Option.some.inj (hview'.symm.trans hview)
  obtain rfl := Option.some.inj hwhole
  obtain ⟨hlength, hagrees⟩ := hcreate.copySpan hlive (hsub hthat) hshows hshows' hcopy
  have hoffset := hshows'.offset_nonneg
  have hend := hshows'.le_length
  rw [Values.array_set_of_ne _ _ hne] at hagrees hend
  rw [Values.array_set_self] at hagrees hlength
  rwa [Values.set_set, Int.toNat_zero, splice_all] at hagrees
  rw [Values.slice, List.length_take, List.length_drop]
  simp only at hlength
  omega

/-- A step of the program is one of the lists. -/
theorem Agrees.step {event : Event O A α} (h : Agrees platform heap v)
    (hstep : heap.step platform event = some heap') :
    ∃ v', v.apply platform.initial event = some v' ∧ Agrees platform heap' v' := by
  cases event with
  | construct o =>
    obtain ⟨s', hs', hapart, rfl⟩ := of_operate hstep
    have hsound := h.sound.step hs'
    obtain ⟨-, hs'⟩ := Option.ite_none_right_eq_some.mp hs'
    obtain rfl := Option.some.inj hs'
    exact ⟨_, rfl, Agrees.build hsound hapart (fun o' ho' _ => h.array o' ho') h.leaked h.unleaked⟩
  | withSize o size allocation =>
    obtain ⟨s', hs', hapart, rfl⟩ := of_operate hstep
    obtain ⟨ho, hs'⟩ := Option.ite_none_right_eq_some.mp hs'
    exact ⟨_, rfl, h.create ho hs' hapart (List.length_replicate ..)⟩
  | uninit o size allocation elements =>
    obtain ⟨s', hs', hapart, rfl⟩ := of_operate hstep
    obtain ⟨ho, hs'⟩ := Option.ite_none_right_eq_some.mp hs'
    exact ⟨_, rfl, h.create ho hs' hapart (length_takeElements ..)⟩
  | copiedFrom o that part allocation elements =>
    obtain ⟨hthat, hstep⟩ := Option.ite_none_right_eq_some.mp hstep
    obtain ⟨other, hother, hstep⟩ := Option.bind_eq_some_iff.mp hstep
    obtain ⟨heap1, hoperate, hcopy⟩ := Option.bind_eq_some_iff.mp hstep
    obtain ⟨s', hs', hapart, rfl⟩ := of_operate hoperate
    obtain ⟨ho, hs'⟩ := Option.ite_none_right_eq_some.mp hs'
    obtain ⟨view, hview, -⟩ := h.part_of_some _ hthat hother
    obtain ⟨t, huninit, hcheck⟩ := Option.bind_eq_some_iff.mp hs'
    obtain ⟨-, hcheck⟩ := Option.ite_none_right_eq_some.mp hcheck
    obtain rfl := Option.some.inj hcheck
    refine ⟨_, ?_, h.copiedFrom ho hthat hother hview huninit hapart hcopy⟩
    rw [Values.apply, hview]
    rfl
  | fromOwningPointer o ptr size elements =>
    cases ptr with
    | none =>
      obtain ⟨s', hs', hapart, rfl⟩ := of_operate hstep
      have hsound := h.sound.step hs'
      obtain ⟨-, hs'⟩ := Option.ite_none_right_eq_some.mp hs'
      rw [System.fromOwningPointer] at hs'
      split_ifs at hs' with hsize
      · obtain rfl := Option.some.inj hs'
        exact ⟨_, rfl, Agrees.build hsound hapart (fun o' ho' _ => h.array o' ho') h.leaked
          h.unleaked⟩
      · cases hs'
    | some p =>
      obtain ⟨s', hs', hapart, rfl⟩ := of_operate hstep
      obtain ⟨ho, hs'⟩ := Option.ite_none_right_eq_some.mp hs'
      exact ⟨_, rfl, h.fromOwningPointer ho hs' hapart (length_takeElements ..)⟩
  | moveConstruct o that =>
    obtain ⟨s', hs', hapart, rfl⟩ := of_operate hstep
    have hsound := h.sound.step hs'
    obtain ⟨⟨-, hthat⟩, hs'⟩ := Option.ite_none_right_eq_some.mp hs'
    obtain rfl := Option.some.inj hs'
    exact ⟨_, rfl, h.move hthat hsound hapart subset_rfl rfl rfl rfl rfl⟩
  | moveAssign o that =>
    obtain ⟨s', hs', hapart, rfl⟩ := of_operate hstep
    have hsound := h.sound.step hs'
    obtain ⟨⟨-, hthat⟩, hs'⟩ := Option.ite_none_right_eq_some.mp hs'
    obtain rfl := Option.some.inj hs'
    exact ⟨_, rfl, h.move hthat hsound hapart (Finset.subset_insert ..) rfl rfl rfl rfl⟩
  | leak o ptr =>
    obtain ⟨hptr, hstep⟩ := Option.ite_none_right_eq_some.mp hstep
    obtain ⟨s', hs', hapart, rfl⟩ := of_operate hstep
    obtain ⟨ho, hs'⟩ := Option.ite_none_right_eq_some.mp hs'
    obtain rfl := Option.some.inj hs'
    exact ⟨_, rfl, h.leak ho hptr hapart⟩
  | deleteLeakedData ptr =>
    obtain ⟨s', hs', hapart, rfl⟩ := of_operate hstep
    exact ⟨_, rfl, h.deleteLeakedData hs' hapart⟩
  | destroy o =>
    obtain ⟨s', hs', hapart, rfl⟩ := of_operate hstep
    obtain ⟨-, hs'⟩ := Option.ite_none_right_eq_some.mp hs'
    obtain rfl := Option.some.inj hs'
    exact ⟨_, rfl, h.destroy hapart⟩
  | assign o idx value =>
    obtain ⟨ho, hstep⟩ := Option.ite_none_right_eq_some.mp hstep
    obtain ⟨i, hi, rfl⟩ := Option.map_eq_some_iff.mp hstep
    obtain ⟨hlt, hi⟩ := Option.ite_none_right_eq_some.mp hi
    obtain rfl := Option.some.inj hi
    exact ⟨_, if_pos ((h.length_array ho).symm ▸ hlt), h.assign ho hlt value⟩
  | copyFrom o part that thatPart =>
    obtain ⟨⟨ho, hthat⟩, hstep⟩ := Option.ite_none_right_eq_some.mp hstep
    obtain ⟨t, ht, hstep⟩ := Option.bind_eq_some_iff.mp hstep
    obtain ⟨other, hother, hcopy⟩ := Option.bind_eq_some_iff.mp hstep
    obtain ⟨view, hview, hshows⟩ := h.part_of_some _ ho ht
    obtain ⟨thatView, hthatView, hshows'⟩ := h.part_of_some _ hthat hother
    obtain ⟨hlength, hagrees⟩ := h.copySpan ho hthat hshows hshows' hcopy
    refine ⟨_, ?_, hagrees⟩
    rw [Values.apply, hview, hthatView]
    exact if_pos hlength

theorem Agrees.start (platform : Platform A α) (memory : ℤ → α) :
    Agrees platform (⟨.start, memory⟩ : Heap O A α) ⟨fun _ => [], fun _ => none⟩ where
  sound := Sound.start
  apart _ hx := nomatch hx
  array _ ho := nomatch ho
  leaked _ hx := nomatch hx
  unleaked _ _ := rfl

theorem Agrees.assign_eq_none_iff (h : Agrees platform heap v) (ho : o ∈ heap.system.live)
    (idx : Size) (value : α) : heap.step platform (.assign o idx value) = none ↔
      v.apply platform.initial (.assign o idx value) = none := by
  have hlength := h.length_array ho
  have hview : (heap.system.asSpan o).view.length = (heap.system.size o).val := rfl
  rw [Heap.step, if_pos ho, Option.map_eq_none_iff, System.element, hview, Values.apply, hlength]
  by_cases hidx : idx.val < (heap.system.size o).val
  · simp [hidx]
  · simp [hidx]

theorem Agrees.copyFrom_eq_none_iff (h : Agrees platform heap v) (ho : o ∈ heap.system.live)
    (hthat : that ∈ heap.system.live) (hne : o ≠ that) (part thatPart : List Span.Operation) :
    heap.step platform (.copyFrom o part that thatPart) = none ↔
      v.apply platform.initial (.copyFrom o part that thatPart) = none := by
  rw [Heap.step, if_pos ⟨ho, hthat⟩, Values.apply]
  rcases h.part ho part with ⟨hspan, hview⟩ | ⟨t, view, hspan, hview, hshows⟩
  · rw [hspan, hview]
    exact iff_of_true rfl rfl
  · rcases h.part hthat thatPart with ⟨hspan', hview'⟩ | ⟨other, thatView, hspan', hview', hshows'⟩
    · rw [hspan, hview, hspan', hview']
      exact iff_of_true rfl rfl
    · rw [hspan, hview, hspan', hview']
      refine (h.copySpan_eq_none_iff ho hthat hne hshows hshows').trans ?_
      by_cases heq : view.length = thatView.length
      · simp [heq]
      · simp [heq]

/-- Two arrays of numbers. -/
def smallPlatform : Platform ℕ ℕ where
  place n := staticCast .uint64 (16 * n)
  capacity := staticCast .uint64 64
  sizeofT := staticCast .uint64 4
  fits := ⟨by decide, by decide⟩
  dcheckIsOn := true
  initial := 0

/-- An array is copied, written, leaked and taken over by another one. -/
def smallEvents : List (Event Bool ℕ ℕ) :=
  [.withSize false (staticCast .uint64 3) 1, .assign false (staticCast .uint64 2) 7,
    .copiedFrom true false [.last .call (staticCast .uint64 2)] 2 (fun _ => 5),
    .assign true 0 8, .copyFrom false [.first .call (staticCast .uint64 2)] true [],
    .leak true (some 2), .destroy true, .assign false (staticCast .uint64 1) 9,
    .fromOwningPointer true (some 2) (staticCast .uint64 2) (fun _ => 6)]

end Model

end MiniChromium.HeapArray
