import MiniChromium.IntegralType
import MiniChromium.Runs
import MiniChromium.ThreadLocalStorage

/-!
# The exit scan among other threads

`Initialize` increments the counter of slots before it checks the slot it got, and the scan of
an exiting thread takes its first index from the counter. The atomic steps of any number of
threads are interleaved, the destructors that a scan calls included. Memory has a content at
every index, also beyond the arrays.
-/
namespace MiniChromium.ExitScan

open Runs MiniChromium.Num

/-- Where a thread stands in `Initialize`: `slot_` is set, and checked or stored to next. -/
inductive InitializePoint
  | check (slot : Num .int32)
  | store (slot : Num .int32)

/-- Where a thread stands in `OnThreadExitInternal`. -/
inductive ScanPoint (V : Type*)
  | load
  | readValue (slot : ℤ)
  | readDestructor (slot : ℤ) (tlsValue : V)
  | call (slot : ℤ)
  | attempt

/-- The locals of `OnThreadExitInternal`; the vector is `stack_allocated_tls_data`. -/
structure Scan (V : Type*) where
  values : ℤ → Option V
  remainingAttempts : ℕ
  needToScanDestructors : Bool
  point : ScanPoint V

structure Thread (V F : Type*) where
  initializing : Option (Option F × InitializePoint)
  exiting : Option (Scan V)

/-- `g_last_used_tls_key`, `g_tls_destructors` and the threads. -/
structure System (T V F : Type*) where
  lastUsedTlsKey : Num .int32
  destructors : ℤ → Option F
  threads : T → Thread V F
  processEnded : Bool

/-- The atomic steps. A destructor, and any thread that does not exit, may initialize, free
and set slots. -/
inductive Event (V F : Type*)
  | increment (destructor : Option F)
  | check
  | store
  | free (slot : ℤ)
  | set (slot : ℤ) (value : Option V)
  | enter (tlsData : ℤ → Option V)
  | load
  | readValue (slot : ℤ)
  | readDestructor (slot : ℤ)
  | returned
  | attempt

section Model

variable {T V F : Type*}

/-- The index of a read of the vector on the stack or of the table of destructors. -/
def Event.index : Event V F → Option ℤ
  | readValue slot | readDestructor slot => some slot
  | _ => none

/-- The head of the `for` loop. -/
def ScanPoint.next (slot : ℤ) : ScanPoint V := if slot > 0 then .readValue slot else .attempt

/-- The current slot of a scan lies inside of the arrays. -/
def ScanPoint.Bounded : ScanPoint V → Prop
  | readValue slot | readDestructor slot _ | call slot => 0 < slot ∧ slot < kThreadLocalStorageSize
  | load | attempt => True

theorem ScanPoint.bounded_next {slot : ℤ} (h : slot < kThreadLocalStorageSize) :
    (next slot : ScanPoint V).Bounded := by
  unfold next
  split_ifs with hpos
  · exact ⟨hpos, h⟩
  · trivial

/-- The thread runs code outside of this file: it is between calls or in a destructor. -/
def Thread.runsClient (thread : Thread V F) : Bool :=
  thread.initializing.isNone &&
    match thread.exiting with
    | none => true
    | some ⟨_, _, _, .call _⟩ => true
    | some _ => false

namespace System

variable [DecidableEq T]

def start : System T V F where
  lastUsedTlsKey := 0
  destructors _ := none
  threads _ := ⟨none, none⟩
  processEnded := false

def setThread (s : System T V F) (t : T) (thread : Thread V F) : System T V F :=
  { s with threads := Function.update s.threads t thread }

def setScan (s : System T V F) (t : T) (scan : Option (Scan V)) : System T V F :=
  s.setThread t { s.threads t with exiting := scan }

/-- A failed `CHECK`. -/
def endProcess (s : System T V F) : System T V F := { s with processEnded := true }

/-- The steps of `Initialize`. -/
def initializeStep (s : System T V F) (t : T) : Event V F → Option (System T V F)
  | .increment destructor =>
    let slot := staticCast .int32 (s.lastUsedTlsKey.val + 1)
    if (s.threads t).runsClient then
      some { s.setThread t { s.threads t with initializing := some (destructor, .check slot) } with
        lastUsedTlsKey := slot }
    else none
  | .check =>
    match (s.threads t).initializing with
    | some (destructor, .check slot) =>
      if slot.val < kThreadLocalStorageSize then
        some (s.setThread t { s.threads t with initializing := some (destructor, .store slot) })
      else some s.endProcess
    | _ => none
  | .store =>
    match (s.threads t).initializing with
    | some (destructor, .store slot) =>
      some { s.setThread t { s.threads t with initializing := none } with
        destructors := Function.update s.destructors slot.val destructor }
    | _ => none
  | _ => none

/-- The steps of `OnThreadExitInternal`. -/
def exitStep (s : System T V F) (t : T) (scan : Scan V) : Event V F → Option (System T V F)
  | .load =>
    match scan.point with
    | .load => some (s.setScan t (some { scan with
        needToScanDestructors := false, point := .next s.lastUsedTlsKey.val }))
    | _ => none
  | .readValue index =>
    match scan.point with
    | .readValue slot =>
      if index = slot then
        match scan.values slot with
        | none => some (s.setScan t (some { scan with point := .next (slot - 1) }))
        | some tlsValue =>
          some (s.setScan t (some { scan with point := .readDestructor slot tlsValue }))
      else none
    | _ => none
  | .readDestructor index =>
    match scan.point with
    | .readDestructor slot _ =>
      if index = slot then
        match s.destructors slot with
        | none => some (s.setScan t (some { scan with point := .next (slot - 1) }))
        | some _ =>
          some (s.setScan t (some { scan with
            values := Function.update scan.values slot none, point := .call slot }))
      else none
    | _ => none
  | .returned =>
    match scan.point with
    | .call slot =>
      if (s.threads t).initializing.isNone then
        some (s.setScan t (some { scan with
          needToScanDestructors := true, point := .next (slot - 1) }))
      else none
    | _ => none
  | .attempt =>
    match scan.point with
    | .attempt =>
      if scan.remainingAttempts - 1 > 0 then
        some (s.setScan t (if scan.needToScanDestructors then
            some { scan with remainingAttempts := scan.remainingAttempts - 1, point := .load }
          else none))
      else some s.endProcess
    | _ => none
  | _ => none

/-- What the code outside of this file does: it frees a slot, sets one of the thread, or lets
the thread exit. -/
def clientStep (s : System T V F) (t : T) : Event V F → Option (System T V F)
  | .free slot =>
    if (s.threads t).runsClient ∧ 0 < slot ∧ slot < kThreadLocalStorageSize then
      some { s with destructors := Function.update s.destructors slot none }
    else none
  | .set slot value =>
    if (s.threads t).runsClient ∧ 0 < slot ∧ slot < kThreadLocalStorageSize then
      some (s.setScan t ((s.threads t).exiting.map fun scan =>
        { scan with values := Function.update scan.values slot value }))
    else none
  | .enter tlsData =>
    if (s.threads t).initializing.isNone ∧ (s.threads t).exiting.isNone then
      some (s.setScan t (some ⟨tlsData, kThreadLocalStorageSize, true, .load⟩))
    else none
  | _ => none

/-- A step of one thread, as long as the process lives. -/
def step (s : System T V F) (e : T × Event V F) : Option (System T V F) :=
  if s.processEnded then none
  else match e.2 with
  | .increment _ | .check | .store => s.initializeStep e.1 e.2
  | .free _ | .set .. | .enter _ => s.clientStep e.1 e.2
  | .load | .readValue _ | .readDestructor _ | .returned | .attempt =>
    (s.threads e.1).exiting.bind fun scan => s.exitStep e.1 scan e.2

/-- The step relation. -/
def Step (s : System T V F) (e : T × Event V F) (s' : System T V F) : Prop := s.step e = some s'

/-- A step that loads the counter only while the counter is below the size of the arrays. -/
def GuardedStep (s : System T V F) (e : T × Event V F) (s' : System T V F) : Prop :=
  Step s e s' ∧ (e.2 = .load → s.lastUsedTlsKey.val < kThreadLocalStorageSize)

variable {s s' : System T V F} {t u : T} {e : Event V F}

theorem exiting_setScan (scan : Option (Scan V)) :
    ((s.setScan t scan).threads u).exiting = if u = t then scan else (s.threads u).exiting := by
  simp only [setScan, setThread, Function.update_apply]
  split_ifs <;> rfl

/-- Every scan is inside of the arrays. -/
def ScansBounded (s : System T V F) : Prop :=
  ∀ t scan, (s.threads t).exiting = some scan → scan.point.Bounded

theorem ScansBounded.setScan (h : s.ScansBounded) {scan : Option (Scan V)}
    (hscan : ∀ x, scan = some x → x.point.Bounded) : (s.setScan t scan).ScansBounded := by
  intro u x hx
  rw [exiting_setScan] at hx
  split_ifs at hx
  · exact hscan x hx
  · exact h u x hx

theorem ScansBounded.initializing (h : s.ScansBounded)
    (initializing : Option (Option F × InitializePoint)) :
    (s.setThread t { s.threads t with initializing := initializing }).ScansBounded := by
  intro u x hx
  simp only [setThread, Function.update_apply] at hx
  split_ifs at hx with hu
  · exact h t x hx
  · exact h u x hx

theorem scansBounded_initializeStep (h : s.initializeStep t e = some s') (hs : s.ScansBounded) :
    s'.ScansBounded := by
  unfold initializeStep at h
  split at h
  · split_ifs at h
    obtain rfl := Option.some.inj h
    exact hs.initializing _
  · split at h
    · split_ifs at h <;> obtain rfl := Option.some.inj h
      · exact hs.initializing _
      · exact hs
    · cases h
  · split at h
    · obtain rfl := Option.some.inj h
      exact hs.initializing _
    · cases h
  · cases h

/-- From slot to slot a scan goes down, and only the load takes it up. -/
theorem scansBounded_exitStep {scan : Scan V} (h : s.exitStep t scan e = some s')
    (hs : s.ScansBounded) (hscan : scan.point.Bounded)
    (hload : e = .load → s.lastUsedTlsKey.val < kThreadLocalStorageSize) : s'.ScansBounded := by
  have hset : ∀ x : Scan V, x.point.Bounded → (s.setScan t (some x)).ScansBounded := fun x hx =>
    hs.setScan fun y hy => Option.some.inj hy ▸ hx
  have hdown : ∀ slot : ℤ, 0 < slot ∧ slot < kThreadLocalStorageSize →
      slot - 1 < kThreadLocalStorageSize := fun slot hslot => by omega
  unfold exitStep at h
  split at h
  · split at h <;> cases h
    exact hset _ (ScanPoint.bounded_next (hload rfl))
  · split at h
    · next slot hpoint =>
      rw [hpoint] at hscan
      split_ifs at h
      split at h <;> cases h
      · exact hset _ (ScanPoint.bounded_next (hdown slot hscan))
      · exact hset _ hscan
    · cases h
  · split at h
    · next slot tlsValue hpoint =>
      rw [hpoint] at hscan
      split_ifs at h
      split at h <;> cases h
      · exact hset _ (ScanPoint.bounded_next (hdown slot hscan))
      · exact hset _ hscan
    · cases h
  · split at h
    · next slot hpoint =>
      rw [hpoint] at hscan
      split_ifs at h
      cases h
      exact hset _ (ScanPoint.bounded_next (hdown slot hscan))
    · cases h
  · split at h
    · split_ifs at h <;> cases h
      · exact hset _ trivial
      · exact hs.setScan nofun
      · exact hs
    · cases h
  · cases h

theorem scansBounded_clientStep (h : s.clientStep t e = some s') (hs : s.ScansBounded) :
    s'.ScansBounded := by
  unfold clientStep at h
  split at h
  · split_ifs at h
    cases h
    exact hs
  · split_ifs at h
    cases h
    refine hs.setScan fun x hx => ?_
    obtain ⟨scan, hscan, rfl⟩ := Option.map_eq_some_iff.mp hx
    exact hs t scan hscan
  · split_ifs at h
    cases h
    exact hs.setScan fun x hx => Option.some.inj hx ▸ trivial
  · cases h

/-- A step belongs to `Initialize`, to the exit, or to other code. -/
theorem step_cases (h : Step s (t, e) s') :
    s.processEnded = false ∧ (s.initializeStep t e = some s' ∨ s.clientStep t e = some s' ∨
      ∃ scan, (s.threads t).exiting = some scan ∧ s.exitStep t scan e = some s') := by
  unfold Step step at h
  split at h
  · cases h
  · next hended =>
    refine ⟨by simpa using hended, ?_⟩
    cases e with
    | increment | check | store => exact .inl h
    | free | set | enter => exact .inr (.inl h)
    | load | readValue | readDestructor | returned | attempt =>
      exact .inr (.inr (Option.bind_eq_some_iff.mp h))

theorem scansBounded_step (h : GuardedStep s (t, e) s') (hs : s.ScansBounded) :
    s'.ScansBounded := by
  obtain ⟨h, hload⟩ := h
  obtain ⟨-, h | h | ⟨scan, hscan, h⟩⟩ := step_cases h
  · exact scansBounded_initializeStep h hs
  · exact scansBounded_clientStep h hs
  · exact scansBounded_exitStep h hs (hs t scan hscan) hload

/-- A read has the current slot for its index. -/
theorem bounded_of_read {slot : ℤ} (h : Step s (t, e) s') (hindex : e.index = some slot)
    (hs : s.ScansBounded) : 0 < slot ∧ slot < kThreadLocalStorageSize := by
  obtain ⟨-, h | h | ⟨scan, hscan, h⟩⟩ := step_cases h
  · cases e <;> cases hindex <;> cases h
  · cases e <;> cases hindex <;> cases h
  · have hbounded := hs t scan hscan
    cases e with
    | readValue index | readDestructor index =>
      obtain rfl := Option.some.inj hindex
      simp only [exitStep] at h
      split at h
      · next hpoint =>
        split at h
        · next heq =>
          rw [hpoint] at hbounded
          exact heq ▸ hbounded
        · cases h
      · cases h
    | _ => cases hindex

@[simp]
theorem initializing_setScan (scan : Option (Scan V)) :
    ((s.setScan t scan).threads u).initializing = (s.threads u).initializing := by
  simp only [setScan, setThread, Function.update_apply]
  split_ifs with h
  · rw [h]
  · rfl

theorem initializing_setThread (initializing : Option (Option F × InitializePoint)) :
    ((s.setThread t { s.threads t with initializing := initializing }).threads u).initializing =
      if u = t then initializing else (s.threads u).initializing := by
  simp only [setThread, Function.update_apply]
  split_ifs <;> rfl

/-- A counter past the arrays was taken there by a thread whose `CHECK` is still to fail. -/
def CheckPending (s : System T V F) : Prop :=
  kThreadLocalStorageSize ≤ s.lastUsedTlsKey.val →
    ∃ t destructor slot, (s.threads t).initializing = some (destructor, .check slot) ∧
      kThreadLocalStorageSize ≤ slot.val

omit [DecidableEq T] in
theorem CheckPending.of_eq (hs : s.CheckPending) (hkey : s'.lastUsedTlsKey = s.lastUsedTlsKey)
    (hthreads : ∀ u, (s'.threads u).initializing = (s.threads u).initializing) :
    s'.CheckPending := by
  intro hle
  obtain ⟨u, destructor, slot, hu, hslot⟩ := hs (hkey ▸ hle)
  exact ⟨u, destructor, slot, (hthreads u).trans hu, hslot⟩

/-- A thread that gives up a point of `Initialize` other than a `CHECK` to fail. -/
theorem CheckPending.setThread (hs : s.CheckPending)
    {initializing : Option (Option F × InitializePoint)}
    (ht : ∀ destructor slot, (s.threads t).initializing = some (destructor, .check slot) →
      slot.val < kThreadLocalStorageSize) :
    (s.setThread t { s.threads t with initializing := initializing }).CheckPending := by
  intro hle
  obtain ⟨u, destructor, slot, hu, hslot⟩ := hs hle
  refine ⟨u, destructor, slot, ?_, hslot⟩
  rw [initializing_setThread, if_neg, hu]
  rintro rfl
  exact absurd (ht destructor slot hu) (not_lt.mpr hslot)

/-- The increment that takes the counter past the arrays gets a slot that fails its `CHECK`. -/
theorem checkPending_increment {destructor : Option F}
    (h : s.initializeStep t (.increment destructor) = some s') : s'.CheckPending := by
  simp only [initializeStep] at h
  split_ifs at h with hclient
  cases h
  intro hle
  exact ⟨t, destructor, _, by simp [setThread], hle⟩

theorem checkPending_initializeStep (h : s.initializeStep t e = some s')
    (hs : s.CheckPending) : s'.processEnded = true ∨ s'.CheckPending := by
  cases e with
  | increment destructor => exact .inr (checkPending_increment h)
  | check =>
    simp only [initializeStep] at h
    split at h
    · next destructor slot hpoint =>
      split_ifs at h with hslot <;> cases h
      · refine .inr (hs.setThread fun destructor' slot' hpoint' => ?_)
        rw [hpoint] at hpoint'
        cases hpoint'
        exact hslot
      · exact .inl rfl
    · cases h
  | store =>
    simp only [initializeStep] at h
    split at h
    · next destructor slot hpoint =>
      cases h
      refine .inr fun hle => hs.setThread (fun _ _ hpoint' => ?_) hle
      rw [hpoint] at hpoint'
      cases hpoint'
    · cases h
  | _ => cases h

/-- The exit of a thread changes nothing but its scan. -/
theorem exitStep_frame {scan : Scan V} (h : s.exitStep t scan e = some s') :
    (∃ x, s' = s.setScan t x) ∨ s' = s.endProcess := by
  cases e with
  | load | readValue | readDestructor | returned =>
    refine .inl ?_
    simp only [exitStep] at h
    repeat' split at h
    all_goals cases h
    all_goals exact ⟨_, rfl⟩
  | attempt =>
    simp only [exitStep] at h
    split at h
    · split_ifs at h <;> cases h
      · exact .inl ⟨_, rfl⟩
      · exact .inl ⟨_, rfl⟩
      · exact .inr rfl
    · cases h
  | _ => cases h

theorem checkPending_exitStep {scan : Scan V} (h : s.exitStep t scan e = some s')
    (hs : s.CheckPending) : s'.CheckPending := by
  obtain ⟨x, rfl⟩ | rfl := exitStep_frame h
  · exact hs.of_eq rfl fun u => initializing_setScan x
  · exact hs

theorem checkPending_clientStep (h : s.clientStep t e = some s') (hs : s.CheckPending) :
    s'.CheckPending := by
  have hset : ∀ x : Option (Scan V), (s.setScan t x).CheckPending := fun x =>
    hs.of_eq rfl fun u => initializing_setScan x
  unfold clientStep at h
  split at h
  · split_ifs at h
    cases h
    exact hs.of_eq rfl fun u => rfl
  · split_ifs at h
    cases h
    exact hset _
  · split_ifs at h
    cases h
    exact hset _
  · cases h

theorem checkPending_step (h : Step s (t, e) s') (hs : s.CheckPending) :
    s'.processEnded = true ∨ s'.CheckPending := by
  obtain ⟨-, h | h | ⟨scan, -, h⟩⟩ := step_cases h
  · exact checkPending_initializeStep h hs
  · exact .inr (checkPending_clientStep h hs)
  · exact .inr (checkPending_exitStep h hs)

/-- While the process lives, the counter is past the arrays only between the increment of a
thread and its failing `CHECK`. -/
theorem checkPending_run {events : List (T × Event V F)} (h : Run Step start events s) :
    s.processEnded = true ∨ s.CheckPending := by
  refine Run.history_induction (I := fun _ s => s.processEnded = true ∨ s.CheckPending)
    (.inr fun hle => absurd hle (show ¬ (256 : ℤ) ≤ 0 by decide)) ?_ h
  rintro _ s ⟨t, e⟩ s' hs hstep
  refine checkPending_step hstep (hs.resolve_left ?_)
  rw [(step_cases hstep).1]
  nofun

omit [DecidableEq T] in
theorem scansBounded_start : (start : System T V F).ScansBounded := nofun

/-- Along a run of guarded steps every scan, and every read so far, is inside of the arrays. -/
theorem scansBounded_run {events : List (T × Event V F)} (h : Run GuardedStep start events s) :
    s.ScansBounded ∧ ∀ e ∈ events, ∀ slot : ℤ, e.2.index = some slot →
      0 < slot ∧ slot < kThreadLocalStorageSize := by
  refine Run.history_induction (I := fun events s => s.ScansBounded ∧ ∀ e ∈ events, ∀ slot : ℤ,
    e.2.index = some slot → 0 < slot ∧ slot < kThreadLocalStorageSize)
    ⟨scansBounded_start, nofun⟩ ?_ h
  rintro events s ⟨t, e⟩ s' ⟨hs, hreads⟩ hstep
  refine ⟨scansBounded_step hstep hs, fun x hx slot hslot => ?_⟩
  rcases List.mem_append.mp hx with hx | hx
  · exact hreads x hx slot hslot
  · obtain rfl := List.mem_singleton.mp hx
    exact bounded_of_read hstep.1 hslot hs

/-- A scan that has loaded the counter reads the vector there next. -/
theorem step_readValue_of_load (h : Step s (t, .load) s')
    (hkey : 0 < s.lastUsedTlsKey.val) :
    ∃ s'', Step s' (t, .readValue s.lastUsedTlsKey.val) s'' := by
  obtain ⟨hended, h | h | ⟨scan, -, h⟩⟩ := step_cases h
  · cases h
  · cases h
  · simp only [exitStep] at h
    split at h
    · cases h
      have hended' : (s.setScan t (some { scan with
          needToScanDestructors := false
          point := .next s.lastUsedTlsKey.val })).processEnded = false := hended
      simp only [Step, step, hended', exiting_setScan]
      cases hvalue : scan.values s.lastUsedTlsKey.val <;>
        simp [exitStep, ScanPoint.next, hkey, hvalue]
    · cases h

end System

/-- Where every load of an exit finds the counter below the size of the arrays, the scans
read inside of them; and a load that does not is followed by a read outside of them. -/
theorem scan_in_range [DecidableEq T] :
    (∀ (events : List (T × Event V F)) (s : System T V F),
      Run System.GuardedStep System.start events s →
        ∀ e ∈ events, ∀ slot : ℤ, e.2.index = some slot →
          0 < slot ∧ slot < kThreadLocalStorageSize) ∧
    ∀ (events : List (T × Event V F)) (s s' : System T V F) (t : T),
      Run System.Step System.start events s → System.Step s (t, .load) s' →
        ¬ s.lastUsedTlsKey.val < kThreadLocalStorageSize →
          ∃ s'' slot, System.Step s' (t, .readValue slot) s'' ∧ kThreadLocalStorageSize ≤ slot := by
  constructor
  · intro events s h
    exact (System.scansBounded_run h).2
  · intro events s s' t _ hload hkey
    have hle := not_lt.mp hkey
    have hpos : (0 : ℤ) < kThreadLocalStorageSize := by decide
    obtain ⟨s'', h⟩ := System.step_readValue_of_load hload (hpos.trans_le hle)
    exact ⟨s'', _, h, hle⟩

namespace System

variable [DecidableEq T] {s : System T V F} {t : T} {n : ℕ}

theorem val_succ (hn : n < kThreadLocalStorageSize) :
    (staticCast .int32 ((n : ℤ) + 1)).val = (n + 1 : ℕ) := by
  have hlt : n < 256 := hn
  have hlowest : IntegralType.int32.lowest = -2147483648 := rfl
  have hmax : IntegralType.int32.max = 2147483647 := rfl
  rw [staticCast_of_inRange ⟨by omega, by omega⟩]
  rfl

/-- A thread between calls takes the next slot. -/
theorem step_increment (destructor : Option F) (hended : s.processEnded = false)
    (ht : s.threads t = ⟨none, none⟩) (hkey : s.lastUsedTlsKey.val = (n : ℤ))
    (hn : n < kThreadLocalStorageSize) :
    ∃ s', Step s (t, .increment destructor) s' ∧ s'.processEnded = false ∧
      s'.threads = Function.update s.threads t
        ⟨some (destructor, .check s'.lastUsedTlsKey), none⟩ ∧
      s'.lastUsedTlsKey.val = (n + 1 : ℕ) := by
  have hclient : (⟨none, none⟩ : Thread V F).runsClient = true := rfl
  have hslot := val_succ hn
  rw [← hkey] at hslot
  generalize hval : staticCast .int32 (s.lastUsedTlsKey.val + 1) = slot at hslot
  refine ⟨{ s.setThread t ⟨some (destructor, .check slot), none⟩ with lastUsedTlsKey := slot },
    ?_, hended, rfl, hslot⟩
  simp only [Step, step, hended, initializeStep, hclient, ht, hval, if_true, Bool.false_eq_true,
    if_false]

/-- A thread between calls initializes a slot. -/
theorem run_initialize (hended : s.processEnded = false) (ht : s.threads t = ⟨none, none⟩)
    (hkey : s.lastUsedTlsKey.val = (n : ℤ)) (hn : n + 1 < kThreadLocalStorageSize) :
    ∃ s', Run GuardedStep s [(t, .increment none), (t, .check), (t, .store)] s' ∧
      s'.processEnded = false ∧ s'.threads = s.threads ∧ s'.lastUsedTlsKey.val = (n + 1 : ℕ) := by
  obtain ⟨s₁, h₁, hended₁, hthreads₁, hkey₁⟩ :=
    step_increment none hended ht hkey (by omega)
  have ht₁ : s₁.threads t = ⟨some (none, .check s₁.lastUsedTlsKey), none⟩ := by
    rw [hthreads₁, Function.update_self]
  have h₂ : Step s₁ (t, .check) (s₁.setThread t ⟨some (none, .store s₁.lastUsedTlsKey), none⟩) := by
    have hlt : s₁.lastUsedTlsKey.val < kThreadLocalStorageSize := by rw [hkey₁]; exact_mod_cast hn
    simp [Step, step, hended₁, initializeStep, ht₁, hlt]
  set s₂ := s₁.setThread t ⟨some (none, .store s₁.lastUsedTlsKey), none⟩ with hs₂
  have ht₂ : s₂.threads t = ⟨some (none, .store s₁.lastUsedTlsKey), none⟩ :=
    Function.update_self ..
  have h₃ : Step s₂ (t, .store) { s₂.setThread t ⟨none, none⟩ with
      destructors := Function.update s₂.destructors s₁.lastUsedTlsKey.val none } := by
    have hended₂ : s₂.processEnded = false := hended₁
    simp [Step, step, hended₂, initializeStep, ht₂]
  refine ⟨_, .cons ⟨h₁, nofun⟩ (.cons ⟨h₂, nofun⟩ (.cons ⟨h₃, nofun⟩ (.nil _))), hended₁, ?_, hkey₁⟩
  simp [setThread, hs₂, hthreads₁, ← ht]

/-- A thread may initialize one slot after the other, up to the last. -/
theorem exists_run_initialize (t : T) (n : ℕ) (hn : n < kThreadLocalStorageSize) :
    ∃ (events : List (T × Event V F)) (s : System T V F), Run GuardedStep start events s ∧
      s.processEnded = false ∧ s.threads = start.threads ∧ s.lastUsedTlsKey.val = (n : ℤ) := by
  induction n with
  | zero => exact ⟨[], start, .nil _, rfl, rfl, rfl⟩
  | succ n ih =>
    obtain ⟨events, s, hrun, hended, hthreads, hkey⟩ := ih (by omega)
    have ht : s.threads t = ⟨none, none⟩ := congrFun hthreads t
    obtain ⟨s', hrun', hended', hthreads', hkey'⟩ := run_initialize hended ht hkey hn
    exact ⟨_, s', hrun.append hrun', hended', hthreads'.trans hthreads, hkey'⟩

/-- A thread between calls that exits reads its vector at the counter. -/
theorem exists_readValue (hended : s.processEnded = false) (ht : s.threads t = ⟨none, none⟩)
    (hkey : 0 < s.lastUsedTlsKey.val) :
    ∃ s₁ s₂ s₃, Step s (t, .enter fun _ => none) s₁ ∧ s₁.lastUsedTlsKey = s.lastUsedTlsKey ∧
      Step s₁ (t, .load) s₂ ∧ Step s₂ (t, .readValue s.lastUsedTlsKey.val) s₃ := by
  have h₁ : Step s (t, .enter fun _ => none) (s.setScan t
      (some ⟨fun _ => none, kThreadLocalStorageSize, true, .load⟩)) := by
    simp [Step, step, hended, clientStep, ht]
  set s₁ := s.setScan t (some ⟨fun _ => none, kThreadLocalStorageSize, true, .load⟩)
  have hended₁ : s₁.processEnded = false := hended
  have ht₁ : (s₁.threads t).exiting =
      some ⟨fun _ => none, kThreadLocalStorageSize, true, .load⟩ := by
    simp [s₁, exiting_setScan]
  have h₂ : ∃ s₂, Step s₁ (t, .load) s₂ := by
    simp [Step, step, hended₁, ht₁, exitStep]
  obtain ⟨s₂, h₂⟩ := h₂
  obtain ⟨s₃, h₃⟩ := step_readValue_of_load h₂ hkey
  exact ⟨s₁, s₂, s₃, h₁, rfl, h₂, h₃⟩

end System

/-- The scan of one thread follows the `Initialize` of another. -/
theorem scan_in_range_two_threads : ∃ (events : List (Bool × Event Unit Unit))
    (s : System Bool Unit Unit), Run System.GuardedStep System.start events s ∧
      (true, .readValue 1) ∈ events ∧ (0 : ℤ) < 1 ∧ (1 : ℤ) < kThreadLocalStorageSize := by
  obtain ⟨events, s, hrun, hended, hthreads, hkey⟩ :=
    System.exists_run_initialize (V := Unit) (F := Unit) false 1 (by decide)
  obtain ⟨s₁, s₂, s₃, h₁, hkey₁, h₂, h₃⟩ :=
    System.exists_readValue (t := true) hended (congrFun hthreads true) (by rw [hkey]; decide)
  rw [hkey] at h₃
  have hlt : s₁.lastUsedTlsKey.val < kThreadLocalStorageSize := by rw [hkey₁, hkey]; decide
  have hrun' := hrun.append
    (.cons ⟨h₁, nofun⟩ (.cons ⟨h₂, fun _ => hlt⟩ (.cons ⟨h₃, nofun⟩ (.nil _))))
  exact ⟨_, s₃, hrun', by simp, scan_in_range.1 _ s₃ hrun' (true, .readValue 1) (by simp) 1 rfl⟩

/-- The vector is read past its end: a thread exits between the increment of the last slot
plus one and its `CHECK`. -/
theorem not_scan_in_range : ¬ ∀ (events : List (Bool × Event Unit Unit))
    (s : System Bool Unit Unit), Run System.Step System.start events s →
      ∀ e ∈ events, ∀ slot : ℤ, e.2.index = some slot → slot < kThreadLocalStorageSize := by
  intro h
  obtain ⟨events, s, hrun, hended, hthreads, hkey⟩ :=
    System.exists_run_initialize (V := Unit) (F := Unit) false 255 (by decide)
  obtain ⟨s₁, h₁, hended₁, hthreads₁, hkey₁⟩ := System.step_increment (t := false) none hended
    (congrFun hthreads false) hkey (by decide)
  have ht₁ : s₁.threads true = ⟨none, none⟩ := by
    rw [hthreads₁, Function.update_of_ne (by decide), hthreads]
    rfl
  obtain ⟨s₂, s₃, s₄, h₂, -, h₃, h₄⟩ :=
    System.exists_readValue hended₁ ht₁ (by rw [hkey₁]; decide)
  rw [hkey₁] at h₄
  have hrun' := (hrun.mono fun h => h.1).append
    (.cons h₁ (.cons h₂ (.cons h₃ (.cons h₄ (.nil _)))))
  exact absurd (h _ s₄ hrun' (true, .readValue 256) (by simp) 256 rfl) (by decide)

end Model

end MiniChromium.ExitScan
