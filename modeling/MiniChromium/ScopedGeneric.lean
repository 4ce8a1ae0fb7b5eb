import MiniChromium.Custody
import Mathlib.Data.Int.Notation
import Mathlib.Data.List.Nodup

/-!
# Scoped resources

`ScopedGeneric` owns one resource of an arbitrary type and frees it through its traits. The
objects of a program are looked at together, with what they have returned to their callers and
the calls of `Free`.
-/
namespace MiniChromium.ScopedGeneric

open Runs Custody

set_option linter.unusedSectionVars false

/-- `ScopedGeneric::Data`, which derives from the traits. -/
structure Data (Traits R : Type*) where
  traits : Traits
  generic : R

section Model

variable {O Traits R : Type*} [DecidableEq R] (invalidValue : R)

namespace Data

/-- `FreeIfNecessary`, with its calls of `Free`. -/
def freeIfNecessary (data : Data Traits R) : List (Traits × R) × Data Traits R :=
  if data.generic ≠ invalidValue then
    ([(data.traits, data.generic)], { data with generic := invalidValue })
  else ([], data)

theorem freeIfNecessary_generic (data : Data Traits R) :
    (data.freeIfNecessary invalidValue).2.generic = invalidValue := by
  unfold freeIfNecessary
  split_ifs with hvalid
  · rfl
  · exact not_not.mp hvalid

/-- `release`. -/
def release (data : Data Traits R) : R × Data Traits R :=
  (data.generic, { data with generic := invalidValue })

/-- `reset`; it aborts when the object owns the value. -/
def reset (data : Data Traits R) (value : R) : Option (List (Traits × R) × Data Traits R) :=
  if data.generic ≠ invalidValue ∧ data.generic = value then none
  else
    let freed := data.freeIfNecessary invalidValue
    some (freed.1, { freed.2 with generic := value })

end Data

/-- The operations. `construct` stands for the constructors that take no other object: the one
without a value has the invalid one, and those without traits have default ones. -/
inductive Operation (O Traits R : Type*)
  | construct (o : O) (value : R) (traits : Traits)
  | moveConstruct (o rvalue : O)
  | moveAssign (o rvalue : O)
  | reset (o : O) (value : R)
  | release (o : O)
  | swap (o other : O)
  | destroy (o : O)

/-- The objects that live, the values that `release` has returned to callers, and the calls
of `Free`. -/
structure System (O Traits R : Type*) where
  objects : O → Option (Data Traits R)
  released : List R
  freed : List (Traits × R)

namespace System

def start : System O Traits R := ⟨fun _ => none, [], []⟩

variable [DecidableEq O]

def setObject (s : System O Traits R) (o : O) (data : Option (Data Traits R)) :
    System O Traits R :=
  { s with objects := Function.update s.objects o data }

/-- `reset` of an object. -/
def reset (s : System O Traits R) (o : O) (value : R) : Option (System O Traits R) :=
  (s.objects o).bind fun data =>
    (data.reset invalidValue value).map fun (calls, data') =>
      { s.setObject o (some data') with freed := s.freed ++ calls }

def step (s : System O Traits R) : Operation O Traits R → Option (System O Traits R)
  | .construct o value traits =>
    if (s.objects o).isNone then some (s.setObject o (some ⟨traits, value⟩)) else none
  | .moveConstruct o rvalue =>
    (s.objects rvalue).bind fun data =>
      let (value, data') := data.release invalidValue
      if (s.objects o).isNone then
        some ((s.setObject rvalue (some data')).setObject o (some ⟨data'.traits, value⟩))
      else none
  | .moveAssign o rvalue =>
    (s.objects rvalue).bind fun data =>
      let (value, data') := data.release invalidValue
      (s.setObject rvalue (some data')).reset invalidValue o value
  | .reset o value => s.reset invalidValue o value
  | .release o =>
    (s.objects o).map fun data =>
      let (value, data') := data.release invalidValue
      { s.setObject o (some data') with released := s.released ++ [value] }
  | .swap o other =>
    (s.objects o).bind fun data =>
      (s.objects other).map fun data' =>
        (s.setObject o (some data')).setObject other (some data)
  | .destroy o =>
    (s.objects o).map fun data =>
      { s.setObject o none with freed := s.freed ++ (data.freeIfNecessary invalidValue).1 }

variable {invalidValue} in
theorem step_construct {s s' : System O Traits R} {o : O} {value : R} {traits : Traits}
    (hstep : s.step invalidValue (.construct o value traits) = some s') :
    s.objects o = none ∧ s' = s.setObject o (some ⟨traits, value⟩) := by
  simp only [step] at hstep
  split_ifs at hstep with ho
  exact ⟨Option.isNone_iff_eq_none.mp ho, (Option.some.inj hstep).symm⟩

variable {invalidValue} in
/-- The object that is constructed takes the resource and the traits of the other. -/
theorem step_moveConstruct {s s' : System O Traits R} {o rvalue : O}
    (hstep : s.step invalidValue (.moveConstruct o rvalue) = some s') :
    ∃ data, s.objects rvalue = some data ∧ s.objects o = none ∧
      s' = (s.setObject rvalue (some (data.release invalidValue).2)).setObject o
        (some ⟨data.traits, data.generic⟩) := by
  obtain ⟨data, hrvalue, hstep⟩ := Option.bind_eq_some_iff.mp hstep
  simp only [Option.ite_none_right_eq_some] at hstep
  exact ⟨data, hrvalue, Option.isNone_iff_eq_none.mp hstep.1, (Option.some.inj hstep.2).symm⟩

/-- What an object holds, and what the operation that runs has in a temporary. -/
def held (s : System O Traits R) (temporary : R) : Option O → R
  | none => temporary
  | some o => (s.objects o).elim invalidValue Data.generic

theorem held_setObject (s : System O Traits R) (temporary : R) (o : O)
    (data : Option (Data Traits R)) :
    (s.setObject o data).held invalidValue temporary =
      Function.update (s.held invalidValue temporary) (some o)
        (data.elim invalidValue Data.generic) := by
  funext slot
  cases slot with
  | none => rfl
  | some u => by_cases hu : u = o <;> simp [held, setObject, hu]

theorem held_temporary (s : System O Traits R) (temporary temporary' : R) :
    s.held invalidValue temporary' =
      Function.update (s.held invalidValue temporary) none temporary' := by
  funext slot
  cases slot <;> simp [held]

end System

variable [DecidableEq O]

/-- The objects and the temporary hold what was handed in and is neither released nor freed. -/
def Accounted (s : System O Traits R) (temporary : R) (handed : List R) : Prop :=
  (∃ gone, Slots invalidValue (s.held invalidValue temporary) handed gone ∧
    ∀ r, r ≠ invalidValue →
      gone.count r = s.released.count r + (s.freed.map Prod.snd).count r) ∧
  ∀ call ∈ s.freed, call.2 ≠ invalidValue

namespace Accounted

variable {invalidValue} {s s' : System O Traits R} {temporary value : R} {handed : List R}
  {o other : O} {data : Data Traits R}

theorem start : Accounted invalidValue (System.start : System O Traits R) invalidValue [] := by
  refine ⟨⟨[], ?_, fun _ _ => rfl⟩, nofun⟩
  have hempty : Slots invalidValue (fun _ : Option O => invalidValue) [] [] := Slots.empty
  convert hempty using 1
  funext slot
  cases slot <;> rfl

/-- A caller hands in a value. -/
theorem handIn (h : Accounted invalidValue s invalidValue handed)
    (hnew : value ≠ invalidValue → value ∉ handed) :
    Accounted invalidValue s value (handed ++ [value].filter (· ≠ invalidValue)) := by
  by_cases hvalue : value = invalidValue
  · simpa [hvalue] using h
  · obtain ⟨⟨gone, hslots, hgone⟩, hfreed⟩ := h
    refine ⟨⟨gone, ?_, hgone⟩, hfreed⟩
    rw [s.held_temporary invalidValue invalidValue value]
    simpa [hvalue] using hslots.acquire hvalue (hnew hvalue) (o := none) rfl

/-- `release` into the temporary. -/
theorem take (h : Accounted invalidValue s invalidValue handed) (ho : s.objects o = some data) :
    Accounted invalidValue (s.setObject o (some (data.release invalidValue).2)) data.generic
      handed := by
  obtain ⟨⟨gone, hslots, hgone⟩, hfreed⟩ := h
  refine ⟨⟨gone, ?_, hgone⟩, hfreed⟩
  have hmove := hslots.move (some o) none rfl
  have hheld : s.held invalidValue invalidValue (some o) = data.generic := by
    simp [System.held, ho]
  rw [hheld] at hmove
  rw [System.held_temporary invalidValue _ invalidValue data.generic, System.held_setObject]
  exact hmove

/-- An object without a resource takes the temporary. -/
theorem put (h : Accounted invalidValue s temporary handed) (traits : Traits)
    (ho : s.held invalidValue temporary (some o) = invalidValue) :
    Accounted invalidValue (s.setObject o (some ⟨traits, temporary⟩)) invalidValue handed := by
  obtain ⟨⟨gone, hslots, hgone⟩, hfreed⟩ := h
  refine ⟨⟨gone, ?_, hgone⟩, hfreed⟩
  rw [System.held_setObject, s.held_temporary invalidValue temporary invalidValue]
  exact hslots.move none _ ho

/-- `FreeIfNecessary`. -/
theorem free (h : Accounted invalidValue s temporary handed) (ho : s.objects o = some data) :
    Accounted invalidValue
      { s.setObject o (some (data.freeIfNecessary invalidValue).2) with
        freed := s.freed ++ (data.freeIfNecessary invalidValue).1 } temporary handed := by
  have hheld : s.held invalidValue temporary (some o) = data.generic := by
    simp [System.held, ho]
  by_cases hdata : data.generic = invalidValue
  · have heq : s.setObject o (some data) = s := by
      rw [System.setObject, ← ho, Function.update_eq_self]
    simpa [Data.freeIfNecessary, hdata, heq] using h
  · obtain ⟨⟨gone, hslots, hgone⟩, hfreed⟩ := h
    have hdispose := hslots.dispose (hheld ▸ hdata)
    rw [hheld] at hdispose
    have hfree : data.freeIfNecessary invalidValue =
        ([(data.traits, data.generic)], { data with generic := invalidValue }) := if_pos hdata
    rw [hfree]
    refine ⟨⟨gone ++ [data.generic], ?_, fun r hr => ?_⟩, fun call hcall => ?_⟩
    · change Slots _ ((s.setObject o (some ⟨data.traits, invalidValue⟩)).held _ temporary) _ _
      rw [System.held_setObject]
      exact hdispose
    · rw [List.count_append, hgone r hr, List.map_append, List.count_append, ← Nat.add_assoc]
      rfl
    · rcases List.mem_append.mp hcall with hcall | hcall
      · exact hfreed call hcall
      · rw [List.mem_singleton.mp hcall]
        exact hdata

/-- The temporary is returned to the caller. -/
theorem giveBack (h : Accounted invalidValue s temporary handed) :
    Accounted invalidValue { s with released := s.released ++ [temporary] } invalidValue
      handed := by
  obtain ⟨⟨gone, hslots, hgone⟩, hfreed⟩ := h
  by_cases htemporary : temporary = invalidValue
  · subst htemporary
    refine ⟨⟨gone, hslots, fun r hr => ?_⟩, hfreed⟩
    rw [hgone r hr, List.count_append, List.count_singleton, beq_false_of_ne hr.symm]
    rfl
  · have hdispose := hslots.dispose (o := none) htemporary
    rw [← System.held_temporary] at hdispose
    refine ⟨⟨_, hdispose, fun r hr => ?_⟩, hfreed⟩
    rw [List.count_append, hgone r hr, List.count_append]
    exact Nat.add_right_comm _ _ _

end Accounted

/-- The value that a caller hands in. -/
def Operation.handsIn : Operation O Traits R → Option R
  | construct _ value _ | reset _ value => some value
  | _ => none

/-- The resources that the callers hand in, in order. -/
def handedIn (operations : List (Operation O Traits R)) : List R :=
  (operations.filterMap Operation.handsIn).filter (· ≠ invalidValue)

section Operations

variable {invalidValue} {s s' : System O Traits R} {value : R} {handed : List R} {o other : O}

/-- `reset` with the temporary for its argument. -/
theorem accounted_reset (h : Accounted invalidValue s value handed)
    (hreset : s.reset invalidValue o value = some s') :
    Accounted invalidValue s' invalidValue handed := by
  obtain ⟨data, ho, hreset⟩ := Option.bind_eq_some_iff.mp hreset
  obtain ⟨⟨calls, data'⟩, hdata, rfl⟩ := Option.map_eq_some_iff.mp hreset
  by_cases hself : data.generic ≠ invalidValue ∧ data.generic = value
  · rw [Data.reset, if_pos hself] at hdata
    cases hdata
  rw [Data.reset, if_neg hself] at hdata
  obtain ⟨rfl, rfl⟩ := Prod.mk.inj (Option.some.inj hdata)
  have hfree := h.free ho
  have hempty := data.freeIfNecessary_generic invalidValue
  have hput := hfree.put (o := o) (data.freeIfNecessary invalidValue).2.traits
    (by simp [System.held, System.setObject, hempty])
  simpa [System.setObject] using hput

theorem accounted_construct {traits : Traits} (h : Accounted invalidValue s invalidValue handed)
    (hnew : value ≠ invalidValue → value ∉ handed)
    (hstep : s.step invalidValue (.construct o value traits) = some s') :
    Accounted invalidValue s' invalidValue (handed ++ [value].filter (· ≠ invalidValue)) := by
  obtain ⟨ho, rfl⟩ := System.step_construct hstep
  exact (h.handIn hnew).put _ (by simp [System.held, ho])

theorem accounted_moveConstruct (h : Accounted invalidValue s invalidValue handed)
    (hstep : s.step invalidValue (.moveConstruct o other) = some s') :
    Accounted invalidValue s' invalidValue handed := by
  obtain ⟨data, hother, ho, rfl⟩ := System.step_moveConstruct hstep
  have hne : o ≠ other := by
    rintro rfl
    rw [hother] at ho
    cases ho
  exact (h.take hother).put _ (by simp [System.held, System.setObject, hne, ho])

theorem accounted_moveAssign (h : Accounted invalidValue s invalidValue handed)
    (hstep : s.step invalidValue (.moveAssign o other) = some s') :
    Accounted invalidValue s' invalidValue handed := by
  obtain ⟨data, hother, hstep⟩ := Option.bind_eq_some_iff.mp hstep
  exact accounted_reset (h.take hother) hstep

theorem accounted_release (h : Accounted invalidValue s invalidValue handed)
    (hstep : s.step invalidValue (.release o) = some s') :
    Accounted invalidValue s' invalidValue handed := by
  obtain ⟨data, ho, rfl⟩ := Option.map_eq_some_iff.mp hstep
  exact (h.take ho).giveBack

theorem accounted_destroy (h : Accounted invalidValue s invalidValue handed)
    (hstep : s.step invalidValue (.destroy o) = some s') :
    Accounted invalidValue s' invalidValue handed := by
  obtain ⟨data, ho, rfl⟩ := Option.map_eq_some_iff.mp hstep
  have hempty := data.freeIfNecessary_generic invalidValue
  obtain ⟨⟨gone, hslots, hgone⟩, hfreed⟩ := h.free ho
  refine ⟨⟨gone, ?_, hgone⟩, hfreed⟩
  convert hslots using 1
  funext slot
  cases slot with
  | none => rfl
  | some u => by_cases hu : u = o <;> simp [System.held, System.setObject, hu, hempty]

theorem accounted_swap (h : Accounted invalidValue s invalidValue handed)
    (hstep : s.step invalidValue (.swap o other) = some s') :
    Accounted invalidValue s' invalidValue handed := by
  obtain ⟨data, ho, hstep⟩ := Option.bind_eq_some_iff.mp hstep
  obtain ⟨data', hother, rfl⟩ := Option.map_eq_some_iff.mp hstep
  by_cases hne : o = other
  · subst hne
    obtain rfl : data = data' := Option.some.inj (ho.symm.trans hother)
    have heq : s.setObject o (some data) = s := by
      rw [System.setObject, ← ho, Function.update_eq_self]
    rwa [heq, heq]
  · obtain ⟨⟨gone, hslots, hgone⟩, hfreed⟩ := h.take ho
    have hmove := hslots.move (some other) (some o)
      (by simp [System.held, System.setObject, Data.release])
    have hput := hmove.move none (some other) (by simp [Ne.symm hne])
    refine ⟨⟨gone, ?_, hgone⟩, hfreed⟩
    convert hput using 1
    funext slot
    cases slot with
    | none => rfl
    | some u =>
      by_cases hu : u = other
      · simp [System.held, System.setObject, hu]
      · by_cases hu' : u = o
        · simp [System.held, System.setObject, hu', hne, Ne.symm hne, hother]
        · simp [System.held, System.setObject, hu, hu']

end Operations

/-- An operation that neither aborts nor uses an object that does not live. -/
def Step (s : System O Traits R) (operation : Operation O Traits R) (s' : System O Traits R) :
    Prop := s.step invalidValue operation = some s'

/-- The object lives and holds the resource. -/
def System.Owns (s : System O Traits R) (o : O) (r : R) : Prop :=
  ∃ data, s.objects o = some data ∧ data.generic = r

section Runs

variable {invalidValue} {s s' : System O Traits R} {handed : List R} {o : O} {r : R}
  {operation : Operation O Traits R} {operations : List (Operation O Traits R)}

theorem handedIn_snoc : handedIn invalidValue (operations ++ [operation]) =
    handedIn invalidValue operations ++ operation.handsIn.toList.filter (· ≠ invalidValue) := by
  cases h : operation.handsIn <;> simp [handedIn, h]

/-- Every operation keeps the books. -/
theorem accounted_step (h : Accounted invalidValue s invalidValue handed)
    (hnew : ∀ value ∈ operation.handsIn, value ≠ invalidValue → value ∉ handed)
    (hstep : Step invalidValue s operation s') : Accounted invalidValue s' invalidValue
      (handed ++ operation.handsIn.toList.filter (· ≠ invalidValue)) := by
  cases operation with
  | construct o value traits => exact accounted_construct h (hnew value rfl) hstep
  | reset o value => exact accounted_reset (h.handIn (hnew value rfl)) hstep
  | moveConstruct o rvalue => simpa [Operation.handsIn] using accounted_moveConstruct h hstep
  | moveAssign o rvalue => simpa [Operation.handsIn] using accounted_moveAssign h hstep
  | release o => simpa [Operation.handsIn] using accounted_release h hstep
  | swap o other => simpa [Operation.handsIn] using accounted_swap h hstep
  | destroy o => simpa [Operation.handsIn] using accounted_destroy h hstep

theorem accounted_run (h : Run (Step invalidValue) System.start operations s)
    (hnew : (handedIn invalidValue operations).Nodup) :
    Accounted invalidValue s invalidValue (handedIn invalidValue operations) := by
  revert hnew
  refine Run.history_induction (I := fun operations s => (handedIn invalidValue operations).Nodup →
    Accounted invalidValue s invalidValue (handedIn invalidValue operations))
    (fun _ => Accounted.start) ?_ h
  intro operations s operation s' ih hstep hnew
  rw [handedIn_snoc] at hnew ⊢
  obtain ⟨hpre, -, hdisjoint⟩ := List.nodup_append.mp hnew
  refine accounted_step (ih hpre) (fun value hvalue hvalid hmem => ?_) hstep
  refine hdisjoint value hmem value ?_ rfl
  simp [Option.mem_def.mp hvalue, hvalid]

/-- A resource is where the books say. -/
theorem Accounted.cases (h : Accounted invalidValue s invalidValue handed)
    (hr : r ≠ invalidValue) :
    (∃! o, s.Owns o r) ∧
        handed.count r = s.released.count r + (s.freed.map Prod.snd).count r + 1 ∨
      (∀ o, ¬ s.Owns o r) ∧
        handed.count r = s.released.count r + (s.freed.map Prod.snd).count r := by
  obtain ⟨⟨gone, hslots, hgone⟩, -⟩ := h
  have hheld : ∀ o, s.held invalidValue invalidValue (some o) = r ↔ s.Owns o r := by
    intro o
    cases ho : s.objects o <;> simp [System.held, System.Owns, ho, Ne.symm hr]
  rw [← hgone r hr]
  obtain ⟨hcount, slot, hslot⟩ | ⟨hcount, hnone⟩ := hslots.count_handed hr
  · cases slot with
    | none => exact absurd hslot.symm hr
    | some o =>
      refine .inl ⟨⟨o, (hheld o).mp hslot, fun o' ho' => ?_⟩, hcount⟩
      have heq := hslots.eq_of_held (o := some o) (hslot ▸ hr)
        (((hheld o').mpr ho').trans hslot.symm)
      exact (Option.some.inj heq).symm
  · exact .inr ⟨fun o ho => hnone (some o) ((hheld o).mpr ho), hcount⟩

end Runs

/-- After every sequence of operations that hands in no resource twice, a resource is owned by
one object, or it was released once, or freed once; what was not handed in is none of this, and
`Free` is not called on the invalid value. -/
theorem freed_once {operations : List (Operation O Traits R)} {s : System O Traits R}
    (h : Run (Step invalidValue) System.start operations s)
    (hnew : (handedIn invalidValue operations).Nodup) :
    (∀ r ∈ handedIn invalidValue operations,
      (∃! o, s.Owns o r) ∧ r ∉ s.released ∧ r ∉ s.freed.map Prod.snd ∨
      (∀ o, ¬ s.Owns o r) ∧ s.released.count r = 1 ∧ r ∉ s.freed.map Prod.snd ∨
      (∀ o, ¬ s.Owns o r) ∧ r ∉ s.released ∧ (s.freed.map Prod.snd).count r = 1) ∧
    (∀ r, r ≠ invalidValue → r ∉ handedIn invalidValue operations →
      (∀ o, ¬ s.Owns o r) ∧ r ∉ s.released ∧ r ∉ s.freed.map Prod.snd) ∧
    ∀ call ∈ s.freed, call.2 ≠ invalidValue := by
  have hbooks := accounted_run h hnew
  refine ⟨fun r hr => ?_, fun r hvalid hr => ?_, hbooks.2⟩
  · have hvalid : r ≠ invalidValue := by simpa using (List.mem_filter.mp hr).2
    have hone := List.count_eq_one_of_mem hnew hr
    simp only [← List.count_eq_zero]
    obtain ⟨hown, hcount⟩ | ⟨hown, hcount⟩ := hbooks.cases hvalid
    · exact .inl ⟨hown, by omega, by omega⟩
    · by_cases hreleased : s.released.count r = 1
      · exact .inr (.inl ⟨hown, hreleased, by omega⟩)
      · exact .inr (.inr ⟨hown, by omega, by omega⟩)
  · have hzero := List.count_eq_zero.mpr hr
    simp only [← List.count_eq_zero]
    obtain ⟨hown, hcount⟩ | ⟨hown, hcount⟩ := hbooks.cases hvalid
    · omega
    · exact ⟨hown, by omega, by omega⟩

/-- File descriptors: one is freed by a move assignment, one is released after a swap, and one
is freed by a destructor. -/
theorem freed_once_descriptors :
    let operations : List (Operation Bool Unit ℤ) :=
      [.construct false 5 (), .moveAssign false false, .construct true 6 (),
        .moveAssign false true, .reset true 7, .swap false true, .release true, .destroy false]
    ∃ s : System Bool Unit ℤ, Run (Step (-1)) System.start operations s ∧
      ((∃! o, s.Owns o 5) ∧ 5 ∉ s.released ∧ 5 ∉ s.freed.map Prod.snd ∨
        (∀ o, ¬ s.Owns o 5) ∧ s.released.count 5 = 1 ∧ 5 ∉ s.freed.map Prod.snd ∨
        (∀ o, ¬ s.Owns o 5) ∧ 5 ∉ s.released ∧ (s.freed.map Prod.snd).count 5 = 1) ∧
      s.released = [6] ∧ s.freed.map Prod.snd = [5, 7] := by
  intro operations
  have hrun : (operations.foldlM (fun (s : System Bool Unit ℤ) e => s.step (-1) e) .start).any
      (fun s => s.released = [6] ∧ s.freed.map Prod.snd = [5, 7]) = true := by decide
  obtain ⟨s, hs, hend⟩ := (Option.any_eq_true _ _).mp hrun
  have hfreed := freed_once (-1) (Run.of_foldlM hs) (by decide)
  exact ⟨s, Run.of_foldlM hs, hfreed.1 5 (by decide), of_decide_eq_true hend⟩

end Model

end MiniChromium.ScopedGeneric
