import MiniChromium.ScopedGeneric

/-!
# The traits that free a resource

Each scoped resource has traits of its own, which may have a state. A resource should be freed
with the traits that it was constructed with. The constructors that move take these along, and
so does `swap`; the assignment that moves leaves the target its traits.
-/
namespace MiniChromium.ScopedGeneric

open Runs

variable {O Traits R : Type*} [DecidableEq O] [DecidableEq R] {invalidValue : R}

/-- An operation carries along where the resources come from. -/
def originStep (origin : O → Option Traits) : Operation O Traits R → O → Option Traits
  | .construct o _ traits => Function.update origin o (some traits)
  | .moveConstruct o rvalue | .moveAssign o rvalue => Function.update origin o (origin rvalue)
  | .swap o other => Function.update (Function.update origin o (origin other)) other (origin o)
  | .reset o _ => Function.update origin o none
  | .release _ | .destroy _ => origin

/-- The traits that what an object holds was constructed with, after a history. -/
def origins (history : List (Operation O Traits R)) : O → Option Traits :=
  history.foldl originStep fun _ => none

/-- The object whose resource an operation may free. -/
def Operation.frees : Operation O Traits R → Option O
  | .moveAssign o _ | .reset o _ | .destroy o => some o
  | _ => none

def Operation.IsReset : Operation O Traits R → Prop
  | .reset _ _ => True
  | _ => False

/-- The calls of `Free` in a step are for what its object held, and by the traits that this was
constructed with. -/
def FreesByOrigin (history : List (Operation O Traits R)) (s : System O Traits R)
    (operation : Operation O Traits R) (s' : System O Traits R) : Prop :=
  ∃ calls, s'.freed = s.freed ++ calls ∧
    ∀ call ∈ calls, ∃ o ∈ operation.frees, s.Owns o call.2 ∧ origins history o = some call.1

/-- Traits travel with the resources: in every step so far the resources were freed by the traits
that they were constructed with. -/
def TraitsTravel (invalidValue : R) (operations : List (Operation O Traits R)) : Prop :=
  ∀ history operation rest, operations = history ++ operation :: rest →
    ∀ s s', Run (Step invalidValue) System.start history s →
      Step invalidValue s operation s' → FreesByOrigin history s operation s'

/-- An assignment that moves a resource finds the same traits at both ends. -/
def System.SameTraits (invalidValue : R) (s : System O Traits R) : Operation O Traits R → Prop
  | .moveAssign o rvalue => ∀ data data', s.objects o = some data → s.objects rvalue = some data' →
      data'.generic ≠ invalidValue → data.traits = data'.traits
  | _ => True

/-- A step that is no `reset`, and whose assignment finds the same traits. -/
def CarryingStep (invalidValue : R) (s : System O Traits R) (operation : Operation O Traits R)
    (s' : System O Traits R) : Prop :=
  Step invalidValue s operation s' ∧ ¬ operation.IsReset ∧ s.SameTraits invalidValue operation

section Steps

variable {s s' : System O Traits R} {o rvalue : O} {data : Data Traits R}
  {history : List (Operation O Traits R)} {operation : Operation O Traits R}

omit [DecidableEq R] in
theorem origins_snoc :
    origins (history ++ [operation]) = originStep (origins history) operation := by
  simp [origins]

omit [DecidableEq O] in
theorem Data.freeIfNecessary_traits (data : Data Traits R) :
    (data.freeIfNecessary invalidValue).2.traits = data.traits := by
  unfold Data.freeIfNecessary
  split_ifs <;> rfl

omit [DecidableEq O] in
theorem Data.mem_freeIfNecessary {call : Traits × R}
    (h : call ∈ (data.freeIfNecessary invalidValue).1) :
    call = (data.traits, data.generic) ∧ data.generic ≠ invalidValue := by
  unfold Data.freeIfNecessary at h
  split_ifs at h with hvalid
  · exact ⟨List.mem_singleton.mp h, hvalid⟩
  · exact nomatch h

/-- What an assignment does that moves. The target keeps its traits. -/
theorem moveAssign_spec (hstep : Step invalidValue s (.moveAssign o rvalue) s') :
    ∃ data data', s.objects o = some data ∧ s.objects rvalue = some data' ∧
      s'.objects = Function.update
        (Function.update s.objects rvalue (some ⟨data'.traits, invalidValue⟩)) o
          (some ⟨data.traits, data'.generic⟩) ∧
      s'.freed = s.freed ++ if o = rvalue then [] else (data.freeIfNecessary invalidValue).1 := by
  obtain ⟨data', hrvalue, hreset⟩ := Option.bind_eq_some_iff.mp hstep
  obtain ⟨target, htarget, hreset⟩ := Option.bind_eq_some_iff.mp hreset
  obtain ⟨⟨calls, after⟩, hafter, rfl⟩ := Option.map_eq_some_iff.mp hreset
  unfold Data.reset at hafter
  split_ifs at hafter with hself
  obtain ⟨rfl, rfl⟩ := Prod.mk.inj (Option.some.inj hafter)
  by_cases hne : o = rvalue
  · subst hne
    have htraits : target = ⟨data'.traits, invalidValue⟩ := by
      simpa [System.setObject, Data.release, eq_comm] using htarget
    subst htraits
    refine ⟨data', data', hrvalue, hrvalue, ?_, ?_⟩
    · simp [System.setObject, Data.freeIfNecessary]
    · simp [System.setObject, Data.freeIfNecessary]
  · have ho : s.objects o = some target := by
      simpa [System.setObject, hne] using htarget
    refine ⟨target, data', ho, hrvalue, ?_, ?_⟩
    · simp [System.setObject, Data.freeIfNecessary_traits]
    · simp [System.setObject, hne]

omit [DecidableEq R] in
theorem FreesByOrigin.of_freed_eq (h : s'.freed = s.freed) : FreesByOrigin history s operation s' :=
  ⟨[], by simpa using h, nofun⟩

/-- What an object holds has the traits that it was constructed with. -/
def Attributed (invalidValue : R) (origin : O → Option Traits)
    (objects : O → Option (Data Traits R)) : Prop :=
  ∀ o data, objects o = some data → data.generic ≠ invalidValue → origin o = some data.traits

namespace Attributed

variable {origin : O → Option Traits} {objects : O → Option (Data Traits R)}

omit [DecidableEq O] [DecidableEq R] in
theorem start : Attributed invalidValue (fun _ => none : O → Option Traits) fun _ => none :=
  fun _ _ h => nomatch h

omit [DecidableEq R] in
/-- An object gets a resource and its traits. -/
theorem put (h : Attributed invalidValue origin objects) {x : Option Traits}
    (hx : data.generic ≠ invalidValue → x = some data.traits) :
    Attributed invalidValue (Function.update origin o x)
      (Function.update objects o (some data)) := by
  intro o' data' ho' hvalid
  rw [Function.update_apply] at ho' ⊢
  split_ifs at ho' ⊢ with heq
  · obtain rfl := Option.some.inj ho'
    exact hx hvalid
  · exact h o' data' ho' hvalid

omit [DecidableEq R] in
/-- An object loses its resource. -/
theorem clear (h : Attributed invalidValue origin objects) {x : Option (Data Traits R)}
    (hx : ∀ data, x = some data → data.generic = invalidValue) :
    Attributed invalidValue origin (Function.update objects o x) := by
  intro o' data' ho' hvalid
  rw [Function.update_apply] at ho'
  split_ifs at ho' with heq
  · exact absurd (hx data' ho') hvalid
  · exact h o' data' ho' hvalid

theorem frees (h : Attributed invalidValue (origins history) s.objects)
    (ho : s.objects o = some data)
    (hfrees : operation.frees = some o)
    (hfreed : s'.freed = s.freed ++ (data.freeIfNecessary invalidValue).1) :
    FreesByOrigin history s operation s' := by
  refine ⟨_, hfreed, fun call hcall => ⟨o, hfrees, ?_⟩⟩
  obtain ⟨rfl, hvalid⟩ := Data.mem_freeIfNecessary hcall
  exact ⟨⟨data, ho, rfl⟩, h o data ho hvalid⟩

/-- What is freed in a step was there before, so that it is enough for this that the traits
were right before the step. -/
theorem freesByOrigin (h : Attributed invalidValue (origins history) s.objects)
    (hstep : Step invalidValue s operation s') (hreset : ¬ operation.IsReset) :
    FreesByOrigin history s operation s' := by
  cases operation with
  | construct o value traits =>
    obtain ⟨-, rfl⟩ := System.step_construct hstep
    exact .of_freed_eq rfl
  | moveConstruct o rvalue =>
    obtain ⟨data, -, -, rfl⟩ := System.step_moveConstruct hstep
    exact .of_freed_eq rfl
  | moveAssign o rvalue =>
    obtain ⟨data, data', ho, -, -, hfreed⟩ := moveAssign_spec hstep
    split_ifs at hfreed
    · exact .of_freed_eq (by simpa using hfreed)
    · exact h.frees ho rfl hfreed
  | reset o value => exact absurd trivial hreset
  | release o =>
    obtain ⟨data, -, rfl⟩ := Option.map_eq_some_iff.mp hstep
    exact .of_freed_eq rfl
  | swap o other =>
    obtain ⟨data, -, hstep⟩ := Option.bind_eq_some_iff.mp hstep
    obtain ⟨data', -, rfl⟩ := Option.map_eq_some_iff.mp hstep
    exact .of_freed_eq rfl
  | destroy o =>
    obtain ⟨data, ho, rfl⟩ := Option.map_eq_some_iff.mp hstep
    exact h.frees ho rfl rfl

/-- The assignment that moves is the only operation in need of the condition. -/
theorem step (h : Attributed invalidValue (origins history) s.objects)
    (hstep : CarryingStep invalidValue s operation s') :
    Attributed invalidValue (origins (history ++ [operation])) s'.objects := by
  obtain ⟨hstep, hreset, hsame⟩ := hstep
  rw [origins_snoc]
  cases operation with
  | construct o value traits =>
    obtain ⟨-, rfl⟩ := System.step_construct hstep
    exact h.put fun _ => rfl
  | moveConstruct o rvalue =>
    obtain ⟨data, hrvalue, -, rfl⟩ := System.step_moveConstruct hstep
    have hclear : Attributed invalidValue (origins history)
        (Function.update s.objects rvalue (some (data.release invalidValue).2)) :=
      h.clear fun _ heq => Option.some.inj heq ▸ rfl
    exact hclear.put fun hvalid => h rvalue data hrvalue hvalid
  | moveAssign o rvalue =>
    obtain ⟨data, data', ho, hrvalue, hobjects, -⟩ := moveAssign_spec hstep
    rw [hobjects]
    have hclear : Attributed invalidValue (origins history)
        (Function.update s.objects rvalue (some ⟨data'.traits, invalidValue⟩)) :=
      h.clear fun _ heq => Option.some.inj heq ▸ rfl
    refine hclear.put fun hvalid => ?_
    rw [h rvalue data' hrvalue hvalid, hsame data data' ho hrvalue hvalid]
  | reset o value => exact absurd trivial hreset
  | release o =>
    obtain ⟨data, -, rfl⟩ := Option.map_eq_some_iff.mp hstep
    exact h.clear fun _ heq => Option.some.inj heq ▸ rfl
  | swap o other =>
    obtain ⟨data, ho, hstep⟩ := Option.bind_eq_some_iff.mp hstep
    obtain ⟨data', hother, rfl⟩ := Option.map_eq_some_iff.mp hstep
    have hfirst : Attributed invalidValue
        (Function.update (origins history) o (origins history other))
        (Function.update s.objects o (some data')) :=
      h.put fun hvalid => h other data' hother hvalid
    exact hfirst.put fun hvalid => h o data ho hvalid
  | destroy o =>
    obtain ⟨data, -, rfl⟩ := Option.map_eq_some_iff.mp hstep
    exact h.clear fun _ heq => nomatch heq

theorem of_run (h : Run (CarryingStep invalidValue) System.start history s) :
    Attributed invalidValue (origins history) s.objects :=
  Run.history_induction (I := fun history s => Attributed invalidValue (origins history) s.objects)
    start (fun hpre hstep => hpre.step hstep) h

end Attributed

end Steps

section Runs

variable {s s' : System O Traits R} {operations : List (Operation O Traits R)}

theorem step_deterministic {operation : Operation O Traits R} {t t' : System O Traits R}
    (h : Step invalidValue s operation t) (h' : Step invalidValue s operation t') : t = t' :=
  Option.some.inj (h.symm.trans h')

theorem traitsTravel_of_run (h : Run (CarryingStep invalidValue) System.start operations s) :
    TraitsTravel invalidValue operations := by
  rintro history operation rest rfl t t' hrun hstep
  obtain ⟨u, u', hhistory, ⟨-, hreset, -⟩, -⟩ := Run.cut h
  obtain rfl := Run.deterministic hrun (hhistory.mono And.left) step_deterministic
  exact (Attributed.of_run hhistory).freesByOrigin hstep hreset

/-- Where an assignment finds different traits, the target frees the resource with the wrong
ones. -/
theorem not_traitsTravel_of_moveAssign
    (h : Run (CarryingStep invalidValue) System.start operations s) (o rvalue : O)
    (hstep : Step invalidValue s (.moveAssign o rvalue) s')
    (hsame : ¬ s.SameTraits invalidValue (.moveAssign o rvalue)) :
    ¬ TraitsTravel invalidValue (operations ++ [.moveAssign o rvalue, .destroy o]) := by
  intro htravel
  obtain ⟨data, data', ho, hrvalue, hobjects, -⟩ := moveAssign_spec hstep
  have hdiffer : data'.generic ≠ invalidValue ∧ data.traits ≠ data'.traits := by
    simpa [System.SameTraits, ho, hrvalue] using hsame
  have htarget : s'.objects o = some ⟨data.traits, data'.generic⟩ := by
    rw [hobjects, Function.update_self]
  have hrun := (h.mono And.left).append (.single hstep)
  have hdestroy : Step invalidValue s' (.destroy o)
      { s'.setObject o none with freed := s'.freed ++ [(data.traits, data'.generic)] } := by
    simp [Step, System.step, htarget, Data.freeIfNecessary, hdiffer.1]
  obtain ⟨calls, hcalls, horigin⟩ := htravel (operations ++ [.moveAssign o rvalue]) (.destroy o) []
    (by simp) _ _ hrun hdestroy
  obtain rfl := List.append_cancel_left hcalls
  obtain ⟨o', ho', -, horigin⟩ := horigin _ (List.mem_singleton_self _)
  obtain rfl := Option.some.inj ho'
  rw [origins_snoc, originStep, Function.update_self,
    Attributed.of_run h rvalue data' hrvalue hdiffer.1] at horigin
  exact hdiffer.2 (Option.some.inj horigin).symm

/-- In a run whose assignments that move find the same traits at both ends, traits travel with the
resources. At every state of such a run the next assignment has to meet this condition as well,
or else the target frees with the wrong traits. -/
theorem traits_travel (h : Run (CarryingStep invalidValue) System.start operations s) :
    TraitsTravel invalidValue operations ∧
      ∀ o rvalue s', Step invalidValue s (.moveAssign o rvalue) s' →
        (s.SameTraits invalidValue (.moveAssign o rvalue) ↔
          TraitsTravel invalidValue (operations ++ [.moveAssign o rvalue, .destroy o])) := by
  refine ⟨traitsTravel_of_run h, fun o rvalue s' hstep => ⟨fun hsame => ?_, fun htravel => ?_⟩⟩
  · obtain ⟨data, data', -, -, hobjects, -⟩ := moveAssign_spec hstep
    have htarget : s'.objects o = some ⟨data.traits, data'.generic⟩ := by
      rw [hobjects, Function.update_self]
    have hassign := h.append (.single ⟨hstep, not_false, hsame⟩)
    have hdestroy : Run (CarryingStep invalidValue) s' [.destroy o] _ :=
      .single ⟨congrArg (Option.map _) htarget, not_false, trivial⟩
    have hrun := hassign.append hdestroy
    rw [List.append_assoc] at hrun
    exact traitsTravel_of_run hrun
  · by_contra hsame
    exact not_traitsTravel_of_moveAssign h o rvalue hstep hsame htravel

theorem traits_travel_alike : TraitsTravel (-1)
    ([.construct false 5 8, .construct true 6 8, .moveAssign false true, .destroy false] :
      List (Operation Bool ℕ ℤ)) := by
  have hrun : Run (CarryingStep (-1)) (System.start : System Bool ℕ ℤ)
      [.construct false 5 8, .construct true 6 8] _ :=
    .cons ⟨rfl, not_false, trivial⟩ (.single ⟨rfl, not_false, trivial⟩)
  refine ((traits_travel hrun).2 false true _ rfl).mp fun data data' h h' _ => ?_
  cases h
  cases h'
  rfl

/-- An object that is assigned another one's resource frees it with its own traits. -/
theorem traits_stay_behind : ¬ ∀ (operations : List (Operation Bool ℕ ℤ)) (s : System Bool ℕ ℤ),
    Run (Step (-1)) System.start operations s → (∀ operation ∈ operations, ¬ operation.IsReset) →
      TraitsTravel (-1) operations := by
  intro hclaim
  have hrun : Run (CarryingStep (-1)) (System.start : System Bool ℕ ℤ)
      [.construct false 5 8, .construct true 6 9] _ :=
    .cons ⟨rfl, not_false, trivial⟩ (.single ⟨rfl, not_false, trivial⟩)
  have hfull : Run (Step (-1)) (System.start : System Bool ℕ ℤ) ([.construct false 5 8,
      .construct true 6 9] ++ [.moveAssign false true, .destroy false]) _ :=
    (hrun.mono And.left).append (.cons rfl (.single rfl))
  refine not_traitsTravel_of_moveAssign hrun false true rfl (fun hsame => ?_) (hclaim _ _ hfull ?_)
  · exact absurd (hsame _ _ rfl rfl (by decide)) (by decide)
  · simp [Operation.IsReset]

end Runs

end MiniChromium.ScopedGeneric
