import MiniChromium.Runs
import Mathlib.Logic.Function.Basic

/-!
# The owner of a lock

In debug mode a `Lock` keeps the thread that owns it beside its mutex, and checks it. The mark
is set behind taking the mutex and cleared before giving it up, also by `Wait`, so that a
thread is between the two at times. Threads run the statements of the methods in any order.
-/
namespace MiniChromium.LockOwnership

open Runs

set_option linter.unusedSectionVars false

/-- `ThreadRefType()` and `GetCurrentThreadRef()`. -/
structure ThreadRefs (T R : Type*) where
  empty : R
  current : T → R
  injective : Function.Injective current
  ne_empty (t : T) : current t ≠ empty

/-- The statements of the methods. `sleep` and `wake` are the two halves of
`pthread_cond_wait`. -/
inductive Statement
  | lock | tryLock | unlock | sleep | wake | checkHeld | unmark | checkUnheld | mark
  deriving DecidableEq

section Code

/-- `CheckHeldAndUnmark`. -/
def checkHeldAndUnmark : List Statement := [.checkHeld, .unmark]

/-- `CheckUnheldAndMark`. -/
def checkUnheldAndMark : List Statement := [.checkUnheld, .mark]

/-- `AssertAcquired`. -/
def assertAcquired : List Statement := [.checkHeld]

/-- `Acquire`. -/
def acquire : List Statement := .lock :: checkUnheldAndMark

/-- `Release`. -/
def release : List Statement := checkHeldAndUnmark ++ [.unlock]

/-- `Try`; what is behind `tryLock` runs if it takes the mutex. -/
def tryAcquire : List Statement := .tryLock :: checkUnheldAndMark

/-- `ConditionVariable::Wait`. -/
def wait : List Statement := checkHeldAndUnmark ++ [.sleep, .wake] ++ checkUnheldAndMark

end Code

/-- The methods, with the constructors and destructors of `AutoLock` and `AutoUnlock`. -/
inductive Method
  | acquire | release | tryAcquire | assertAcquired | wait
  | autoLock | autoLockAcquired | endAutoLock | autoUnlock | endAutoUnlock
  deriving DecidableEq

def Method.code : Method → List Statement
  | acquire => LockOwnership.acquire
  | release => LockOwnership.release
  | tryAcquire => LockOwnership.tryAcquire
  | assertAcquired => LockOwnership.assertAcquired
  | wait => LockOwnership.wait
  | autoLock => LockOwnership.acquire
  | autoLockAcquired => LockOwnership.assertAcquired
  | endAutoLock => LockOwnership.assertAcquired ++ LockOwnership.release
  | autoUnlock => LockOwnership.assertAcquired ++ LockOwnership.release
  | endAutoUnlock => LockOwnership.acquire

/-- Whether a thread calls the method while it holds the lock or while it does not. -/
def Method.needsLock : Method → Bool
  | acquire | tryAcquire | autoLock | endAutoUnlock => false
  | release | assertAcquired | wait | autoLockAcquired | endAutoLock | autoUnlock => true

/-- The mutex and its holder, `owning_thread_`, what is left of the method that each thread
runs, and whether a `DCHECK` has failed. -/
structure System (T R : Type*) where
  mutex : Option T
  owningThread : R
  code : T → List Statement
  failed : Bool

section Model

variable {T R : Type*} [DecidableEq T] [DecidableEq R] (refs : ThreadRefs T R)

namespace System

def start : System T R := ⟨none, refs.empty, fun _ => [], false⟩

def setCode (s : System T R) (t : T) (code : List Statement) : System T R :=
  { s with code := Function.update s.code t code }

/-- A statement of a thread, with the ones behind it; it blocks where it has no result. -/
def execute (s : System T R) (t : T) (rest : List Statement) : Statement → Option (System T R)
  | .lock | .wake => if s.mutex = none then some { s.setCode t rest with mutex := some t } else none
  | .tryLock =>
    if s.mutex = none then some { s.setCode t rest with mutex := some t }
    else some (s.setCode t [])
  | .unlock | .sleep =>
    if s.mutex = some t then some { s.setCode t rest with mutex := none }
    else some (s.setCode t rest)
  | .checkHeld =>
    if s.owningThread = refs.current t then some (s.setCode t rest)
    else some { s with failed := true }
  | .unmark => some { s.setCode t rest with owningThread := refs.empty }
  | .checkUnheld =>
    if s.owningThread = refs.empty then some (s.setCode t rest) else some { s with failed := true }
  | .mark => some { s.setCode t rest with owningThread := refs.current t }

end System

/-- A thread calls a method, or runs the next statement of the one that it is in. -/
inductive Event
  | call (method : Method)
  | run

/-- A thread calls a method only with the lock that the method needs, and without it
otherwise. -/
def System.step (s : System T R) (t : T) : Event → Option (System T R)
  | .call method =>
    if s.failed = false ∧ s.code t = [] ∧ (s.mutex = some t ↔ method.needsLock = true) then
      some (s.setCode t method.code)
    else none
  | .run =>
    if s.failed = false then
      match s.code t with
      | [] => none
      | statement :: rest => s.execute refs t rest statement
    else none

def Step (s : System T R) (e : T × Event) (s' : System T R) : Prop :=
  s.step refs e.1 e.2 = some s'

/-- The code is right for a thread that holds the mutex or not and has marked it or not. -/
def Orderly : List Statement → Prop → Prop → Prop
  | [], held, marked => held ↔ marked
  | .lock :: rest, held, marked | .tryLock :: rest, held, marked | .wake :: rest, held, marked =>
    ¬ held ∧ ¬ marked ∧ Orderly rest True False
  | .unlock :: rest, held, marked | .sleep :: rest, held, marked =>
    held ∧ ¬ marked ∧ Orderly rest False False
  | .checkHeld :: rest, held, marked => marked ∧ Orderly rest held marked
  | .unmark :: rest, held, _ => held ∧ Orderly rest held False
  | .checkUnheld :: rest, held, marked => held ∧ ¬ marked ∧ Orderly rest held marked
  | .mark :: rest, held, _ => held ∧ Orderly rest held True

/-- The methods are right for the threads that call them. -/
theorem orderly_code (method : Method) :
    Orderly method.code (method.needsLock = true) (method.needsLock = true) := by
  cases method <;> simp [Method.code, Method.needsLock, Orderly, acquire, release, tryAcquire,
    wait, assertAcquired, checkHeldAndUnmark, checkUnheldAndMark]

/-- Only the holder of the mutex is the owner, and every thread runs the right code. -/
structure Inv (s : System T R) : Prop where
  owner : s.owningThread = refs.empty ∨
    ∃ t, s.owningThread = refs.current t ∧ s.mutex = some t
  orderly : ∀ t, Orderly (s.code t) (s.mutex = some t) (s.owningThread = refs.current t)
  passed : s.failed = false

namespace Inv

variable {refs} {s s' : System T R} {t : T} {rest : List Statement}

theorem start : Inv refs (System.start refs : System T R) where
  owner := .inl rfl
  orderly t := by simp [System.start, Orderly, (refs.ne_empty t).symm]
  passed := rfl

/-- One thread has moved on and the others see what they saw. -/
theorem update (h : Inv refs s) (hcode : s'.code = Function.update s.code t rest)
    (hfailed : s'.failed = false)
    (hmutex : ∀ u, u ≠ t → (s'.mutex = some u ↔ s.mutex = some u))
    (howning : ∀ u, u ≠ t → (s'.owningThread = refs.current u ↔ s.owningThread = refs.current u))
    (howner : s'.owningThread = refs.empty ∨
      ∃ t, s'.owningThread = refs.current t ∧ s'.mutex = some t)
    (horderly : Orderly rest (s'.mutex = some t) (s'.owningThread = refs.current t)) :
    Inv refs s' where
  owner := howner
  orderly u := by
    rw [hcode, Function.update_apply]
    split_ifs with hu
    · rwa [hu]
    · rw [hmutex u hu, howning u hu]
      exact h.orderly u
  passed := hfailed

/-- Who holds the mutex without the mark finds no other one. -/
theorem owningThread_eq_empty (h : Inv refs s) (hmutex : s.mutex = some t)
    (hmark : s.owningThread ≠ refs.current t) : s.owningThread = refs.empty := by
  refine h.owner.resolve_right ?_
  rintro ⟨u, hu, hmutex'⟩
  obtain rfl := Option.some.inj (hmutex.symm.trans hmutex')
  exact hmark hu

/-- No other thread is the owner. -/
theorem not_owner (h : Inv refs s) (hmutex : s.mutex = some t) {u : T} (hu : u ≠ t) :
    s.owningThread ≠ refs.current u := by
  intro howning
  obtain hempty | ⟨v, hv, hmutex'⟩ := h.owner
  · exact refs.ne_empty u (howning.symm.trans hempty)
  · obtain rfl := Option.some.inj (hmutex.symm.trans hmutex')
    exact hu (refs.injective (howning.symm.trans hv))

theorem call (h : Inv refs s) {method : Method} (hcode : s.code t = [])
    (hneeds : s.mutex = some t ↔ method.needsLock = true) :
    Inv refs (s.setCode t method.code) := by
  refine h.update rfl h.passed (fun _ _ => Iff.rfl) (fun _ _ => Iff.rfl) h.owner ?_
  have hidle := h.orderly t
  rw [hcode, Orderly, hneeds] at hidle
  simp only [System.setCode]
  rw [hneeds, ← hidle]
  exact orderly_code method

/-- A thread takes the mutex, which nobody holds. -/
theorem take (h : Inv refs s) (hfree : s.mutex = none) (horderly : Orderly rest True False) :
    Inv refs { s.setCode t rest with mutex := some t } := by
  have hempty : s.owningThread = refs.empty := by
    refine h.owner.resolve_right ?_
    rintro ⟨u, -, hu⟩
    rw [hfree] at hu
    cases hu
  refine h.update rfl h.passed (fun u hu => ?_) (fun _ _ => Iff.rfl) (.inl hempty) ?_
  · simp [hfree, hu.symm]
  · simpa [System.setCode, hempty, (refs.ne_empty t).symm] using horderly

/-- The holder gives up the mutex, with its mark cleared. -/
theorem give (h : Inv refs s) (hmutex : s.mutex = some t) (hmark : s.owningThread ≠ refs.current t)
    (horderly : Orderly rest False False) :
    Inv refs { s.setCode t rest with mutex := none } := by
  have hempty := h.owningThread_eq_empty hmutex hmark
  refine h.update rfl h.passed (fun u hu => ?_) (fun _ _ => Iff.rfl) (.inl hempty) ?_
  · simp [hmutex, hu.symm]
  · simpa [System.setCode, hempty, (refs.ne_empty t).symm] using horderly

/-- The thread passes a check, or a `Try` that found the mutex taken. -/
theorem pass (h : Inv refs s)
    (horderly : Orderly rest (s.mutex = some t) (s.owningThread = refs.current t)) :
    Inv refs (s.setCode t rest) :=
  h.update rfl h.passed (fun _ _ => Iff.rfl) (fun _ _ => Iff.rfl) h.owner horderly

/-- The holder clears its mark. -/
theorem unmark (h : Inv refs s) (hmutex : s.mutex = some t)
    (horderly : Orderly rest (s.mutex = some t) False) :
    Inv refs { s.setCode t rest with owningThread := refs.empty } := by
  refine h.update rfl h.passed (fun _ _ => Iff.rfl) (fun u hu => ?_) (.inl rfl) ?_
  · have hother := h.not_owner hmutex hu
    simp [hother, (refs.ne_empty u).symm]
  · simpa [System.setCode, (refs.ne_empty t).symm] using horderly

/-- The holder sets its mark. -/
theorem mark (h : Inv refs s) (hmutex : s.mutex = some t)
    (horderly : Orderly rest (s.mutex = some t) True) :
    Inv refs { s.setCode t rest with owningThread := refs.current t } := by
  refine h.update rfl h.passed (fun _ _ => Iff.rfl) (fun u hu => ?_) (.inr ⟨t, rfl, hmutex⟩) ?_
  · have hother := h.not_owner hmutex hu
    simp [hother, refs.injective.eq_iff, hu.symm]
  · simpa [System.setCode] using horderly

/-- Every statement that is left to run is in its place, so that the checks are passed. -/
theorem execute (h : Inv refs s) {statement : Statement} (hcode : s.code t = statement :: rest)
    (hstep : s.execute refs t rest statement = some s') : Inv refs s' := by
  have horderly := h.orderly t
  rw [hcode] at horderly
  cases statement <;> simp only [Orderly, System.execute] at horderly hstep
  case lock | wake =>
    obtain ⟨-, -, hrest⟩ := horderly
    split_ifs at hstep with hfree
    cases hstep
    exact h.take hfree hrest
  case tryLock =>
    obtain ⟨hheld, hmarked, hrest⟩ := horderly
    split_ifs at hstep with hfree <;> cases hstep
    · exact h.take hfree hrest
    · exact h.pass (by simp [Orderly, hheld, hmarked])
  case unlock | sleep =>
    obtain ⟨hheld, hmarked, hrest⟩ := horderly
    rw [if_pos hheld] at hstep
    cases hstep
    exact h.give hheld hmarked hrest
  case checkHeld =>
    obtain ⟨hmarked, hrest⟩ := horderly
    rw [if_pos hmarked] at hstep
    cases hstep
    exact h.pass hrest
  case checkUnheld =>
    obtain ⟨hheld, hmarked, hrest⟩ := horderly
    rw [if_pos (h.owningThread_eq_empty hheld hmarked)] at hstep
    cases hstep
    exact h.pass hrest
  case unmark =>
    obtain ⟨hheld, hrest⟩ := horderly
    cases hstep
    exact h.unmark hheld hrest
  case mark =>
    obtain ⟨hheld, hrest⟩ := horderly
    cases hstep
    exact h.mark hheld hrest

theorem step (h : Inv refs s) {e : T × Event} (hstep : Step refs s e s') : Inv refs s' := by
  obtain ⟨t, event⟩ := e
  cases event with
  | call method =>
    simp only [Step, System.step, Option.ite_none_right_eq_some, Option.some.injEq] at hstep
    obtain ⟨⟨-, hcode, hneeds⟩, rfl⟩ := hstep
    exact h.call hcode hneeds
  | run =>
    simp only [Step, System.step, if_pos h.passed] at hstep
    split at hstep
    · cases hstep
    · rename_i hcode
      exact h.execute hcode hstep

theorem run {events : List (T × Event)} (h : Run (Step refs) (System.start refs) events s) :
    Inv refs s :=
  Run.history_induction (I := fun _ s => Inv refs s) start (fun ih hstep => ih.step hstep) h

end Inv

/-- In every run the owner that the lock names holds the mutex, a free mutex has no owner, and
no check fails. -/
theorem owner_holds {events : List (T × Event)} {s : System T R}
    (h : Run (Step refs) (System.start refs) events s) :
    (∀ t, s.owningThread = refs.current t → s.mutex = some t) ∧
    (s.mutex = none → s.owningThread = refs.empty) ∧ s.failed = false := by
  have hinv := Inv.run h
  refine ⟨fun t ht => ?_, fun hfree => ?_, hinv.passed⟩
  · obtain hempty | ⟨u, hu, hmutex⟩ := hinv.owner
    · exact absurd (ht.symm.trans hempty) (refs.ne_empty t)
    · rw [hmutex, refs.injective (ht.symm.trans hu)]
  · refine hinv.owner.resolve_right ?_
    rintro ⟨u, -, hu⟩
    rw [hfree] at hu
    cases hu

/-- One thread waits; another one takes the lock then, unlocks it for a scope in which a third
one tries it, and gets it back behind that. -/
theorem owner_holds_wait :
    let refs : ThreadRefs (Fin 3) ℕ :=
      ⟨0, fun t => t.val + 1, fun _ _ h => Fin.ext (Nat.succ.inj h), nofun⟩
    let runs := fun (t : Fin 3) n => List.replicate n (t, Event.run)
    let events : List (Fin 3 × Event) :=
      (0, .call .acquire) :: runs 0 3 ++ (0, .call .wait) :: runs 0 3 ++
        (1, .call .autoLock) :: runs 1 3 ++ (2, .call .tryAcquire) :: runs 2 1 ++
        (1, .call .autoUnlock) :: runs 1 4 ++ (2, .call .tryAcquire) :: runs 2 3 ++
        (2, .call .release) :: runs 2 3 ++ runs 0 3
    ∃ s, Run (Step refs) (System.start refs) events s ∧ s.mutex = some 0 ∧
      s.owningThread = refs.current 0 ∧ s.failed = false := by
  intro refs runs events
  have hrun : (events.foldlM (fun (s : System (Fin 3) ℕ) e => s.step refs e.1 e.2)
      (.start refs)).any (fun s => s.mutex = some 0 ∧ s.owningThread = refs.current 0) = true := by
    decide
  obtain ⟨s, hs, hend⟩ := (Option.any_eq_true _ _).mp hrun
  obtain ⟨hmutex, howning⟩ := of_decide_eq_true hend
  exact ⟨s, Run.of_foldlM hs, hmutex, howning, (owner_holds refs (Run.of_foldlM hs)).2.2⟩

end Model

end MiniChromium.LockOwnership
