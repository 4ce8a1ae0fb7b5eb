import MiniChromium.LockOwnership
import MiniChromium.Traces

/-!
# The lock with and without its checks

Without `NDEBUG` a `Lock` marks its owner and checks the mark; with it the methods are those of
the mutex alone. The statements of the checks are silent steps beside the calls of the methods
and the operations on the mutex, and the two builds have the same traces.
-/
namespace MiniChromium.LockOwnership

open Runs

set_option linter.unusedSectionVars false

/-- What the methods do with the mutex. -/
inductive MutexOp
  | lock | tryLock | unlock | sleep | wake
  deriving DecidableEq

/-- The statements that remain with `NDEBUG`. -/
def Statement.mutexOp : Statement → Option MutexOp
  | .lock => some .lock
  | .tryLock => some .tryLock
  | .unlock => some .unlock
  | .sleep => some .sleep
  | .wake => some .wake
  | .checkHeld | .unmark | .checkUnheld | .mark => none

/-- The methods of the optimized wrapper, with `AutoLock`, `AutoUnlock` and
`ConditionVariable::Wait` over it. -/
def Method.ndebugCode : Method → List MutexOp
  | acquire | autoLock | endAutoUnlock => [.lock]
  | release | endAutoLock | autoUnlock => [.unlock]
  | tryAcquire => [.tryLock]
  | assertAcquired | autoLockAcquired => []
  | wait => [.sleep, .wake]

theorem Method.ndebugCode_eq (method : Method) :
    method.ndebugCode = method.code.filterMap Statement.mutexOp := by
  cases method <;> rfl

/-- The mutex and what is left of the method that each thread runs. -/
structure NdebugSystem (T : Type*) where
  mutex : Option T
  code : T → List MutexOp

/-- A call of a method or an operation on the mutex, by a thread. -/
inductive Label (T : Type*)
  | call (t : T) (method : Method)
  | run (t : T) (op : MutexOp)

section Model

variable {T R : Type*} [DecidableEq T] [DecidableEq R] (refs : ThreadRefs T R)

namespace NdebugSystem

def start : NdebugSystem T := ⟨none, fun _ => []⟩

def setCode (n : NdebugSystem T) (t : T) (code : List MutexOp) : NdebugSystem T :=
  { n with code := Function.update n.code t code }

def execute (n : NdebugSystem T) (t : T) (rest : List MutexOp) : MutexOp → Option (NdebugSystem T)
  | .lock | .wake => if n.mutex = none then some { n.setCode t rest with mutex := some t } else none
  | .tryLock =>
    if n.mutex = none then some { n.setCode t rest with mutex := some t }
    else some (n.setCode t [])
  | .unlock | .sleep =>
    if n.mutex = some t then some { n.setCode t rest with mutex := none }
    else some (n.setCode t rest)

def step (n : NdebugSystem T) : Label T → Option (NdebugSystem T)
  | .call t method =>
    if n.code t = [] ∧ (n.mutex = some t ↔ method.needsLock = true) then
      some (n.setCode t method.ndebugCode)
    else none
  | .run t op =>
    match n.code t with
    | [] => none
    | op' :: rest => if op = op' then n.execute t rest op else none

end NdebugSystem

/-- Every step without the checks has a label. -/
def NdebugStep (n : NdebugSystem T) (label : Option (Label T)) (n' : NdebugSystem T) : Prop :=
  ∃ l, label = some l ∧ n.step l = some n'

/-- The label of a step, if it is not of a check. -/
def System.label (s : System T R) (t : T) : Event → Option (Label T)
  | .call method => some (.call t method)
  | .run => ((s.code t).head?.bind Statement.mutexOp).map (.run t)

def LabelledStep (s : System T R) (label : Option (Label T)) (s' : System T R) : Prop :=
  ∃ e, Step refs s e s' ∧ label = s.label e.1 e.2

/-- The system without the marks, and without the checks that are left to run. -/
def System.erase (s : System T R) : NdebugSystem T :=
  ⟨s.mutex, fun t => (s.code t).filterMap Statement.mutexOp⟩

namespace System

variable {refs} {s s' : System T R} {t : T} {statement : Statement} {rest : List Statement}

@[simp] theorem erase_code (s : System T R) (t : T) :
    s.erase.code t = (s.code t).filterMap Statement.mutexOp := rfl

@[simp] theorem erase_setCode (s : System T R) (t : T) (code : List Statement) :
    (s.setCode t code).erase = s.erase.setCode t (code.filterMap Statement.mutexOp) := by
  simp only [erase, setCode, NdebugSystem.setCode, NdebugSystem.mk.injEq, true_and]
  ext u : 1
  simp only [Function.update_apply]
  split_ifs <;> rfl

theorem erase_setMutex (s : System T R) (t : T) (code : List Statement) (mutex : Option T) :
    erase { s.setCode t code with mutex := mutex } =
      { s.erase.setCode t (code.filterMap Statement.mutexOp) with mutex := mutex } := by
  rw [← erase_setCode]
  rfl

/-- An operation on the mutex does the same in both builds. -/
theorem execute_erase (refs : ThreadRefs T R) (s : System T R) (t : T) (rest : List Statement)
    {op : MutexOp} (hop : statement.mutexOp = some op) :
    (s.execute refs t rest statement).map erase =
      s.erase.execute t (rest.filterMap Statement.mutexOp) op := by
  have hself : s.erase.mutex = s.mutex := rfl
  cases statement <;> cases hop <;> simp only [execute, NdebugSystem.execute, hself] <;>
    split_ifs <;> simp only [Option.map_some, Option.map_none, erase_setMutex, erase_setCode,
      List.filterMap_nil]

/-- A check or a mark runs whatever the mutex is, and changes nothing but the owner. -/
theorem execute_check (hinv : Inv refs s) (hcode : s.code t = statement :: rest)
    (hop : statement.mutexOp = none) :
    ∃ s', s.execute refs t rest statement = some s' ∧ s'.code t = rest ∧ s'.erase = s.erase := by
  have horderly := hinv.orderly t
  have herase : (s.setCode t rest).erase = s.erase := by
    have hself : Function.update s.erase.code t (s.erase.code t) = s.erase.code :=
      Function.update_eq_self t _
    have hrest : s.erase.code t = rest.filterMap Statement.mutexOp := by
      rw [erase_code, hcode, List.filterMap_cons_none hop]
    rw [erase_setCode, NdebugSystem.setCode, ← hrest, hself]
  rw [hcode] at horderly
  cases statement <;> cases hop <;> simp only [Orderly] at horderly
  case checkHeld =>
    exact ⟨s.setCode t rest, if_pos horderly.1, by simp [setCode], herase⟩
  case checkUnheld =>
    exact ⟨s.setCode t rest, if_pos (hinv.owningThread_eq_empty horderly.1 horderly.2.1),
      by simp [setCode], herase⟩
  case unmark => exact ⟨_, rfl, by simp [setCode], herase⟩
  case mark => exact ⟨_, rfl, by simp [setCode], herase⟩

theorem step_run (hinv : Inv refs s) (hcode : s.code t = statement :: rest) :
    s.step refs t .run = s.execute refs t rest statement := by
  simp [step, hinv.passed, hcode]

theorem label_run (hcode : s.code t = statement :: rest) :
    s.label t .run = statement.mutexOp.map (.run t) := by
  simp [label, hcode]

/-- The checks in front of a thread's code can all be run. -/
theorem drain {checks : List Statement} (hinv : Inv refs s) (hcode : s.code t = checks ++ rest)
    (hchecks : ∀ statement ∈ checks, statement.mutexOp = none) :
    ∃ s', Traces (LabelledStep refs) s [] s' ∧ Inv refs s' ∧ s'.code t = rest ∧
      s'.erase = s.erase := by
  induction checks generalizing s with
  | nil => exact ⟨s, .refl s, hinv, hcode, rfl⟩
  | cons check checks ih =>
    have hnone := hchecks check List.mem_cons_self
    obtain ⟨s₁, hexecute, hcode₁, herase₁⟩ := execute_check hinv hcode hnone
    have hstep : Step refs s (t, .run) s₁ := (step_run hinv hcode).trans hexecute
    have hsilent : LabelledStep refs s none s₁ := ⟨_, hstep, by simp [label_run hcode, hnone]⟩
    obtain ⟨s₂, htrace, hinv₂, hcode₂, herase₂⟩ := ih (hinv.step hstep) hcode₁
      fun statement hmem => hchecks statement (List.mem_cons_of_mem _ hmem)
    exact ⟨s₂, .silent hsilent htrace, hinv₂, hcode₂, herase₂.trans herase₁⟩

end System

/-- The states of the two builds are the same but for the checks. -/
def Erases (s : System T R) (n : NdebugSystem T) : Prop := Inv refs s ∧ n = s.erase

theorem simulates_ndebug : Simulates (LabelledStep refs) NdebugStep (Erases refs) := by
  rintro s _ _ s' ⟨hinv, rfl⟩ ⟨⟨t, event⟩, hstep, rfl⟩
  refine ⟨s'.erase, ?_, hinv.step hstep, rfl⟩
  cases event with
  | call method =>
    simp only [Step, System.step, Option.ite_none_right_eq_some, Option.some.injEq] at hstep
    obtain ⟨⟨-, hcode, hneeds⟩, rfl⟩ := hstep
    have hidle : s.erase.code t = [] := by simp [System.erase, hcode]
    refine .of_step ⟨.call t method, rfl, ?_⟩
    rw [System.erase_setCode, ← Method.ndebugCode_eq]
    exact if_pos ⟨hidle, hneeds⟩
  | run =>
    cases hcode : s.code t with
    | nil => simp [Step, System.step, hinv.passed, hcode] at hstep
    | cons statement rest =>
      rw [Step, System.step_run hinv hcode] at hstep
      rw [System.label_run hcode]
      cases hop : statement.mutexOp with
      | none =>
        obtain ⟨s₁, hexecute, -, herase⟩ := System.execute_check hinv hcode hop
        obtain rfl := Option.some.inj (hexecute.symm.trans hstep)
        rw [herase]
        exact .refl _
      | some op =>
        have hexecute := System.execute_erase refs s t rest hop
        have hhead : s.erase.code t = op :: rest.filterMap Statement.mutexOp := by
          rw [System.erase_code, hcode, List.filterMap_cons_some hop]
        refine .of_step ⟨.run t op, rfl, ?_⟩
        rw [hstep, Option.map_some] at hexecute
        simp only [NdebugSystem.step, hhead, if_true]
        exact hexecute.symm

theorem ndebug_simulates :
    Simulates NdebugStep (LabelledStep refs) (fun n s => Erases refs s n) := by
  rintro _ s _ n' ⟨hinv, rfl⟩ ⟨label, rfl, hstep⟩
  cases label with
  | call t method =>
    simp only [NdebugSystem.step, Option.ite_none_right_eq_some, Option.some.injEq] at hstep
    obtain ⟨⟨hidle, hneeds⟩, rfl⟩ := hstep
    have hchecks := List.filterMap_eq_nil_iff.mp hidle
    obtain ⟨s₁, hdrain, hinv₁, hcode₁, herase₁⟩ :=
      System.drain hinv (List.append_nil (s.code t)).symm hchecks
    have hmutex : s₁.mutex = s.mutex := congrArg NdebugSystem.mutex herase₁
    have hcall : Step refs s₁ (t, .call method) (s₁.setCode t method.code) :=
      if_pos ⟨hinv₁.passed, hcode₁, by rw [hmutex]; exact hneeds⟩
    have hlabelled : LabelledStep refs s₁ (some (.call t method)) (s₁.setCode t method.code) :=
      ⟨_, hcall, rfl⟩
    refine ⟨_, hdrain.append (.of_step hlabelled), hinv₁.step hcall, ?_⟩
    rw [System.erase_setCode, herase₁, Method.ndebugCode_eq]
  | run t op =>
    cases hcode : s.erase.code t with
    | nil => simp only [NdebugSystem.step, hcode, reduceCtorEq] at hstep
    | cons op' ops =>
      simp only [NdebugSystem.step, hcode, Option.ite_none_right_eq_some] at hstep
      obtain ⟨rfl, hexecute⟩ := hstep
      obtain ⟨checks, statement, rest, hsplit, hchecks, hop, rfl⟩ :=
        List.filterMap_eq_cons_iff.mp hcode
      obtain ⟨s₁, hdrain, hinv₁, hcode₁, herase₁⟩ := System.drain hinv hsplit hchecks
      rw [← herase₁, ← System.execute_erase refs s₁ t rest hop] at hexecute
      obtain ⟨s₂, hs₂, rfl⟩ := Option.map_eq_some_iff.mp hexecute
      have hrun : Step refs s₁ (t, .run) s₂ := (System.step_run hinv₁ hcode₁).trans hs₂
      have hlabelled : LabelledStep refs s₁ (some (.run t op)) s₂ :=
        ⟨_, hrun, by simp [System.label_run hcode₁, hop]⟩
      exact ⟨s₂, hdrain.append (.of_step hlabelled), hinv₁.step hrun, rfl⟩

end Model

end MiniChromium.LockOwnership
