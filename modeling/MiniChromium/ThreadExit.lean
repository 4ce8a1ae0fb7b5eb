import MiniChromium.ThreadLocalStorage
import MiniChromium.Runs

/-!
# Destroying the slots of a thread

A thread that exits calls the destructors of its slots until a whole scan finds none to
call, or until it has scanned too often. `NULL` is `none`. A destructor is a function
pointer of an arbitrary type; what it does is a list of slot operations, which may
depend on the slots it sees and on a world of its own.
-/
namespace MiniChromium

open Runs

/-- `kMaxDestructorIterations`. -/
def kMaxDestructorIterations : ℕ := kThreadLocalStorageSize

/-- The slots as one thread sees them: the table, and the vector of its values. -/
structure ThreadSlots (V F : Type*) where
  table : SlotTable F
  values : ℕ → Option V

/-- The calls on slots, by the index they work on. -/
inductive SlotOperation (V F : Type*)
  | initializeSlot (destructor : Option F)
  | free (slot : ℕ)
  | get (slot : ℕ)
  | set (slot : ℕ) (value : Option V)

/-- What happens while a thread exits. -/
inductive ExitEvent (V F : Type*)
  | destroy (slot : ℕ) (destructor : F) (value : V)
  | operation (operation : SlotOperation V F)

section Model

variable {V F W : Type*}

namespace ThreadSlots

/-- `tls_data[slot] = value`. -/
def set (slots : ThreadSlots V F) (slot : ℕ) (value : Option V) : ThreadSlots V F :=
  { slots with values := Function.update slots.values slot value }

/-- A call on a slot. -/
def perform (slots : ThreadSlots V F) : SlotOperation V F → Option (ThreadSlots V F)
  | .initializeSlot destructor =>
    (slots.table.initializeSlot destructor).map fun table => { slots with table := table }
  | .free slot => some { slots with table := slots.table.free slot }
  | .get _ => some slots
  | .set slot value => some (slots.set slot value)

def performAll (slots : ThreadSlots V F) : List (SlotOperation V F) → Option (ThreadSlots V F)
  | [] => some slots
  | operation :: operations =>
    (slots.perform operation).bind fun slots => slots.performAll operations

end ThreadSlots

/-- The state of `OnThreadExitInternal`, with the events so far. -/
structure ExitState (V F W : Type*) where
  slots : ThreadSlots V F
  world : W
  needToScanDestructors : Bool
  events : List (ExitEvent V F)

/-- How it ends: it returns, its `CHECK` fails, or a destructor runs out of slots. -/
inductive ExitResult (V F W : Type*)
  | completed (state : ExitState V F W)
  | checkFailed (state : ExitState V F W)
  | outOfSlots

variable (destroy : F → V → ThreadSlots V F → W → List (SlotOperation V F) × W)

/-- The call of a destructor, on a slot that is cleared first. -/
def callDestructor (slot : ℕ) (destructor : F) (value : V) (s : ExitState V F W) :
    Option (ExitState V F W) :=
  let slots := s.slots.set slot none
  let (operations, world) := destroy destructor value slots s.world
  (slots.performAll operations).map fun slots =>
    { slots := slots
      world := world
      needToScanDestructors := true
      events := s.events ++ .destroy slot destructor value :: operations.map .operation }

/-- The `for` loop, from a slot down to 1. -/
def scanFrom : ℕ → ExitState V F W → Option (ExitState V F W)
  | 0, s => some s
  | slot + 1, s =>
    match s.slots.values (slot + 1) with
    | none => scanFrom slot s
    | some tlsValue =>
      match s.slots.table.destructors (slot + 1) with
      | none => scanFrom slot s
      | some destructor =>
        (callDestructor destroy (slot + 1) destructor tlsValue s).bind (scanFrom slot)

/-- The body of the `while` loop up to the `CHECK`. -/
def scan (s : ExitState V F W) : Option (ExitState V F W) :=
  scanFrom destroy s.slots.table.lastUsedTlsKey { s with needToScanDestructors := false }

/-- The `while` loop, by the attempts that remain. -/
def exitLoop : ℕ → ExitState V F W → ExitResult V F W
  | 0, s => .checkFailed s
  | remainingAttempts + 1, s =>
    match scan destroy s with
    | none => .outOfSlots
    | some s =>
      if remainingAttempts > 0 then
        if s.needToScanDestructors then exitLoop remainingAttempts s else .completed s
      else .checkFailed s

/-- The state before the first scan: the vector is the copy on the stack. -/
def exitStart (slots : ThreadSlots V F) (world : W) : ExitState V F W :=
  { slots := slots, world := world, needToScanDestructors := true, events := [] }

/-- `OnThreadExitInternal`. -/
def onThreadExitInternal (slots : ThreadSlots V F) (world : W) : ExitResult V F W :=
  exitLoop destroy kMaxDestructorIterations (exitStart slots world)

/-- What an event does to the slots, and when it may happen. -/
def ExitStep (slots : ThreadSlots V F) : ExitEvent V F → ThreadSlots V F → Prop
  | .destroy slot destructor value, slots' =>
    slots.values slot = some value ∧ slots.table.destructors slot = some destructor ∧
      slots' = slots.set slot none
  | .operation operation, slots' => slots.perform operation = some slots'

variable {destroy} {s s' s'' : ExitState V F W}

theorem ThreadSlots.performAll_run {slots slots' : ThreadSlots V F}
    {operations : List (SlotOperation V F)} (h : slots.performAll operations = some slots') :
    Run ExitStep slots (operations.map .operation) slots' := by
  induction operations generalizing slots with
  | nil =>
    obtain rfl := Option.some.inj h
    exact .nil slots
  | cons operation operations ih =>
    obtain ⟨next, hnext, h⟩ := Option.bind_eq_some_iff.mp h
    exact .cons hnext (ih h)

/-- A later state goes on from an earlier one through the events in between. -/
def Continues (s s' : ExitState V F W) : Prop :=
  ∃ events, s'.events = s.events ++ events ∧ Run ExitStep s.slots events s'.slots

theorem Continues.refl (s : ExitState V F W) : Continues s s := ⟨[], by simp, .nil s.slots⟩

theorem Continues.trans (h : Continues s s') (h' : Continues s' s'') : Continues s s'' := by
  obtain ⟨es, hes, hrun⟩ := h
  obtain ⟨es', hes', hrun'⟩ := h'
  exact ⟨es ++ es', by rw [hes', hes, List.append_assoc], hrun.append hrun'⟩

/-- Between the two states a destructor was called. -/
def CallsDestructor (s s' : ExitState V F W) : Prop :=
  ∃ events, s'.events = s.events ++ events ∧
    ∃ slot destructor value, .destroy slot destructor value ∈ events

theorem CallsDestructor.append (h : CallsDestructor s s') (h' : Continues s' s'') :
    CallsDestructor s s'' := by
  obtain ⟨es, hes, slot, f, v, hmem⟩ := h
  obtain ⟨es', hes', -⟩ := h'
  exact ⟨es ++ es', by rw [hes', hes, List.append_assoc], slot, f, v, List.mem_append_left _ hmem⟩

theorem not_callsDestructor_self (s : ExitState V F W) : ¬CallsDestructor s s := by
  rintro ⟨es, hes, slot, f, v, hmem⟩
  rw [List.self_eq_append_right.mp hes] at hmem
  cases hmem

/-- The call of a destructor is one event, and its operations are the next ones. -/
theorem callDestructor_spec {slot : ℕ} {f : F} {v : V} (hv : s.slots.values slot = some v)
    (hf : s.slots.table.destructors slot = some f)
    (h : callDestructor destroy slot f v s = some s') :
    Continues s s' ∧ CallsDestructor s s' ∧ s'.needToScanDestructors = true := by
  obtain ⟨slots, hslots, rfl⟩ := Option.map_eq_some_iff.mp h
  exact ⟨⟨_, rfl, .cons ⟨hv, hf, rfl⟩ (ThreadSlots.performAll_run hslots)⟩,
    ⟨_, rfl, slot, f, v, List.mem_cons_self⟩, rfl⟩

/-- A scan either calls a destructor, or changes nothing because no slot that it looks
at has both a value and a destructor. -/
theorem scanFrom_spec {slot : ℕ} (h : scanFrom destroy slot s = some s') :
    Continues s s' ∧
      ((CallsDestructor s s' ∧ s'.needToScanDestructors = true) ∨
        (s' = s ∧ ∀ i, 0 < i → i ≤ slot →
          s.slots.values i = none ∨ s.slots.table.destructors i = none)) := by
  induction slot generalizing s with
  | zero =>
    obtain rfl := Option.some.inj h
    exact ⟨.refl s, .inr ⟨rfl, fun i h0 hi => absurd h0 (by omega)⟩⟩
  | succ slot ih =>
    have hskip : ∀ {P : ℕ → Prop}, P (slot + 1) → (∀ i, 0 < i → i ≤ slot → P i) →
        ∀ i, 0 < i → i ≤ slot + 1 → P i := by
      intro P hlast hquiet i h0 hi
      rcases Nat.le_succ_iff.mp hi with hi | rfl
      · exact hquiet i h0 hi
      · exact hlast
    rw [scanFrom] at h
    cases hv : s.slots.values (slot + 1) with
    | none =>
      rw [hv] at h
      obtain ⟨hcont, hrest⟩ := ih h
      exact ⟨hcont, hrest.imp_right fun ⟨hs, hquiet⟩ => ⟨hs, hskip (.inl hv) hquiet⟩⟩
    | some v =>
      cases hf : s.slots.table.destructors (slot + 1) with
      | none =>
        rw [hv, hf] at h
        obtain ⟨hcont, hrest⟩ := ih h
        exact ⟨hcont, hrest.imp_right fun ⟨hs, hquiet⟩ => ⟨hs, hskip (.inr hf) hquiet⟩⟩
      | some f =>
        rw [hv, hf] at h
        obtain ⟨next, hnext, h⟩ := Option.bind_eq_some_iff.mp h
        obtain ⟨hcont, hcall, hneed⟩ := callDestructor_spec hv hf hnext
        obtain ⟨hcont', hrest⟩ := ih h
        refine ⟨hcont.trans hcont', .inl ⟨hcall.append hcont', ?_⟩⟩
        rcases hrest with ⟨-, hneed'⟩ | ⟨rfl, -⟩
        · exact hneed'
        · exact hneed

/-- No slot has both a value and a destructor. -/
def ThreadSlots.Destroyed (slots : ThreadSlots V F) : Prop :=
  ∀ slot f, slots.table.destructors slot = some f → slots.values slot = none

/-- The flag tells whether the scan called a destructor; if not, all slots are destroyed. -/
theorem scan_spec (h : scan destroy s = some s') :
    Continues s s' ∧ (s'.needToScanDestructors = true ↔ CallsDestructor s s') ∧
      (s'.needToScanDestructors = false → s'.slots.Destroyed) := by
  obtain ⟨hcont, ⟨hcall, hneed⟩ | ⟨rfl, hquiet⟩⟩ := scanFrom_spec h
  · exact ⟨hcont, iff_of_true hneed hcall, fun hclean => by rw [hneed] at hclean; cases hclean⟩
  · refine ⟨hcont, iff_of_false Bool.false_ne_true (not_callsDestructor_self s), fun _ => ?_⟩
    intro slot f hf
    obtain ⟨h0, hle⟩ := s.slots.table.handed_out slot f hf
    refine (hquiet slot h0 hle).resolve_right fun hnone => ?_
    rw [show s.slots.table.destructors slot = none from hnone] at hf
    cases hf

/-- The state after `n` scans. -/
def scans (destroy : F → V → ThreadSlots V F → W → List (SlotOperation V F) × W) :
    ℕ → ExitState V F W → Option (ExitState V F W)
  | 0, s => some s
  | n + 1, s => (scan destroy s).bind (scans destroy n)

/-- After `n` scans the next one calls a destructor. -/
def ScanCalls (destroy : F → V → ThreadSlots V F → W → List (SlotOperation V F) × W) (n : ℕ)
    (s : ExitState V F W) : Prop :=
  ∃ before after, scans destroy n s = some before ∧ scan destroy before = some after ∧
    CallsDestructor before after

/-- After `n` scans the next one calls no destructor. -/
def ScanClean (destroy : F → V → ThreadSlots V F → W → List (SlotOperation V F) × W) (n : ℕ)
    (s : ExitState V F W) : Prop :=
  ∃ before after, scans destroy n s = some before ∧ scan destroy before = some after ∧
    ¬CallsDestructor before after

theorem scans_succ_eq_bind (n : ℕ) (s : ExitState V F W) :
    scans destroy (n + 1) s = (scans destroy n s).bind (scan destroy) := by
  induction n generalizing s with
  | zero => simp [scans]
  | succ n ih =>
    rw [scans, scans, Option.bind_assoc]
    exact congrArg _ (funext fun next => ih next)

/-- The flag after a scan tells whether it was clean. -/
theorem scanClean_iff_flag (n : ℕ) (s : ExitState V F W) :
    ScanClean destroy n s ↔
      (scans destroy (n + 1) s).map (·.needToScanDestructors) = some false := by
  rw [scans_succ_eq_bind, ScanClean]
  simp only [Option.map_eq_some_iff, Option.bind_eq_some_iff]
  constructor
  · rintro ⟨before, after, hb, ha, hnot⟩
    exact ⟨after, ⟨before, hb, ha⟩, by rwa [← Bool.not_eq_true, (scan_spec ha).2.1]⟩
  · rintro ⟨after, ⟨before, hb, ha⟩, hneed⟩
    exact ⟨before, after, hb, ha, by rwa [← (scan_spec ha).2.1, Bool.not_eq_true]⟩

theorem scanCalls_succ_iff {n : ℕ} (h : scan destroy s = some s') :
    ScanCalls destroy (n + 1) s ↔ ScanCalls destroy n s' := by
  simp [ScanCalls, scans, h]

theorem scanClean_succ_iff {n : ℕ} (h : scan destroy s = some s') :
    ScanClean destroy (n + 1) s ↔ ScanClean destroy n s' := by
  simp [ScanClean, scans, h]

theorem scanClean_zero_iff (h : scan destroy s = some s') :
    ScanClean destroy 0 s ↔ s'.needToScanDestructors = false := by
  rw [← Bool.not_eq_true, (scan_spec h).2.1]
  simp [ScanClean, scans, h]

theorem not_scanClean_of_none {n : ℕ} (h : scan destroy s = none) : ¬ScanClean destroy n s := by
  rintro ⟨before, after, hb, ha, -⟩
  cases n with
  | zero =>
    obtain rfl := Option.some.inj hb
    rw [h] at ha
    cases ha
  | succ n => simp [scans, h] at hb

/-- The loop returns if a scan before the last attempt is clean. -/
theorem exitLoop_completed_iff (n : ℕ) (s : ExitState V F W) :
    (∃ s', exitLoop destroy (n + 1) s = .completed s') ↔ ∃ m < n, ScanClean destroy m s := by
  induction n generalizing s with
  | zero =>
    rw [exitLoop]
    cases scan destroy s <;> simp
  | succ n ih =>
    rw [exitLoop]
    cases hscan : scan destroy s with
    | none => simp [not_scanClean_of_none hscan]
    | some next =>
      have hzero := scanClean_zero_iff hscan
      simp only [Nat.succ_pos, if_true]
      cases hneed : next.needToScanDestructors with
      | false => exact iff_of_true ⟨next, rfl⟩ ⟨0, Nat.succ_pos n, hzero.mpr hneed⟩
      | true =>
        rw [if_pos rfl, ih next]
        constructor
        · rintro ⟨m, hm, hclean⟩
          exact ⟨m + 1, Nat.succ_lt_succ hm, (scanClean_succ_iff hscan).mpr hclean⟩
        · rintro ⟨m, hm, hclean⟩
          cases m with
          | zero => rw [hzero, hneed] at hclean; cases hclean
          | succ m => exact ⟨m, Nat.lt_of_succ_lt_succ hm, (scanClean_succ_iff hscan).mp hclean⟩

theorem scanCalls_zero_iff (h : scan destroy s = some s') :
    ScanCalls destroy 0 s ↔ s'.needToScanDestructors = true := by
  rw [(scan_spec h).2.1]
  simp [ScanCalls, scans, h]

theorem not_scanCalls_zero_of_none (h : scan destroy s = none) : ¬ScanCalls destroy 0 s := by
  simp [ScanCalls, scans, h]

theorem scanCalls_iff_not_scanClean {n : ℕ} {before after : ExitState V F W}
    (hb : scans destroy n s = some before) (ha : scan destroy before = some after) :
    ScanCalls destroy n s ↔ ¬ScanClean destroy n s := by
  simp [ScanCalls, ScanClean, hb, ha]

/-- A scan that is made comes after others that were made. -/
theorem exists_scan_of_lt {m n : ℕ} (h : scans destroy n s = some s') (hm : m < n) :
    ∃ before after, scans destroy m s = some before ∧ scan destroy before = some after := by
  induction n generalizing s m with
  | zero => exact absurd hm (Nat.not_lt_zero m)
  | succ n ih =>
    obtain ⟨next, hnext, h⟩ := Option.bind_eq_some_iff.mp h
    cases m with
    | zero => exact ⟨s, next, rfl, hnext⟩
    | succ m =>
      obtain ⟨before, after, hb, ha⟩ := ih h (Nat.lt_of_succ_lt_succ hm)
      exact ⟨before, after, by rw [scans, hnext]; exact hb, ha⟩

/-- The check fails after the last attempt, whether or not that called a destructor. -/
theorem exitLoop_checkFailed_iff (n : ℕ) (s : ExitState V F W) :
    (∃ s', exitLoop destroy (n + 1) s = .checkFailed s') ↔
      (∀ m < n, ScanCalls destroy m s) ∧ (ScanCalls destroy n s ∨ ScanClean destroy n s) := by
  induction n generalizing s with
  | zero =>
    rw [exitLoop]
    cases hscan : scan destroy s with
    | none => simp [not_scanClean_of_none hscan, not_scanCalls_zero_of_none hscan]
    | some next => simp [scanCalls_zero_iff hscan, scanClean_zero_iff hscan]
  | succ n ih =>
    rw [exitLoop]
    cases hscan : scan destroy s with
    | none =>
      refine iff_of_false (by simp) fun h => ?_
      exact not_scanCalls_zero_of_none hscan (h.1 0 (Nat.succ_pos n))
    | some next =>
      have hzero := scanCalls_zero_iff hscan
      simp only [Nat.succ_pos, if_true]
      cases hneed : next.needToScanDestructors with
      | false =>
        refine iff_of_false (by simp) fun h => ?_
        have hcalls := hzero.mp (h.1 0 (Nat.succ_pos n))
        rw [hneed] at hcalls
        cases hcalls
      | true =>
        rw [if_pos rfl, ih next, scanCalls_succ_iff hscan, scanClean_succ_iff hscan]
        refine and_congr_left fun _ => ⟨fun h m hm => ?_, fun h m hm => ?_⟩
        · cases m with
          | zero => exact hzero.mpr hneed
          | succ m => exact (scanCalls_succ_iff hscan).mpr (h m (Nat.lt_of_succ_lt_succ hm))
        · exact (scanCalls_succ_iff hscan).mp (h (m + 1) (Nat.succ_lt_succ hm))

/-- The check on the attempts fails only after a scan that called a destructor, and a
clean scan within the attempts lets the thread exit, unless the first clean scan is the
last attempt. -/
theorem onThreadExitInternal_check_iff
    (destroy : F → V → ThreadSlots V F → W → List (SlotOperation V F) × W)
    (slots : ThreadSlots V F) (world : W) :
    (((∃ s, onThreadExitInternal destroy slots world = .checkFailed s) →
        ScanCalls destroy (kMaxDestructorIterations - 1) (exitStart slots world)) ∧
      ∀ n < kMaxDestructorIterations, ScanClean destroy n (exitStart slots world) →
        ∃ s, onThreadExitInternal destroy slots world = .completed s) ↔
    ¬((∀ n < kMaxDestructorIterations - 1, ScanCalls destroy n (exitStart slots world)) ∧
      ScanClean destroy (kMaxDestructorIterations - 1) (exitStart slots world)) := by
  set s₀ := exitStart slots world
  have hfailed := @exitLoop_checkFailed_iff V F W destroy (kMaxDestructorIterations - 1) s₀
  have hcompleted := @exitLoop_completed_iff V F W destroy (kMaxDestructorIterations - 1) s₀
  have hexcl : ∀ n, ScanClean destroy n s₀ → ¬ScanCalls destroy n s₀ := by
    rintro n ⟨before, after, hb, ha, hnot⟩ hcalls
    exact (scanCalls_iff_not_scanClean hb ha).mp hcalls ⟨before, after, hb, ha, hnot⟩
  constructor
  · rintro ⟨hcheck, -⟩ ⟨hcalls, hclean⟩
    exact hexcl _ hclean (hcheck (hfailed.mpr ⟨hcalls, .inr hclean⟩))
  · intro hlast
    refine ⟨fun hfail => ?_, fun n hn hclean => hcompleted.mpr ?_⟩
    · obtain ⟨hcalls, hcall | hclean⟩ := hfailed.mp hfail
      · exact hcall
      · exact absurd ⟨hcalls, hclean⟩ hlast
    · by_contra hnone
      push Not at hnone
      have hge : ¬n < kMaxDestructorIterations - 1 := fun h => hnone n h hclean
      obtain rfl : n = kMaxDestructorIterations - 1 := by omega
      refine hlast ⟨fun m hm => ?_, hclean⟩
      obtain ⟨before, after, hb, -⟩ := hclean
      obtain ⟨before', after', hb', ha'⟩ := exists_scan_of_lt hb hm
      exact (scanCalls_iff_not_scanClean hb' ha').mpr (hnone m hm)

end Model

/-- A table with the slot 1 and its destructor, which stores one less than what it is
given, down to 0. -/
def countdownSlots (value : ℕ) : ThreadSlots ℕ Unit where
  table :=
    { lastUsedTlsKey := 1
      destructors := fun slot => if slot = 1 then some () else none
      lastUsed_lt := by decide
      handed_out := fun slot f h => by
        by_cases hs : slot = 1
        · omega
        · simp [hs] at h }
  values slot := if slot = 1 then some value else none

def countdown (_ : Unit) (value : ℕ) (_ : ThreadSlots ℕ Unit) (_ : Unit) :
    List (SlotOperation ℕ Unit) × Unit :=
  (if value = 0 then [] else [.set 1 (some (value - 1))], ())

/-- After 255 scans with a call the clean one is the last attempt, and the check fails. -/
theorem onThreadExitInternal_gives_up :
    ¬(((∃ s, onThreadExitInternal countdown (countdownSlots 254) () = .checkFailed s) →
        ScanCalls countdown (kMaxDestructorIterations - 1) (exitStart (countdownSlots 254) ())) ∧
      ∀ n < kMaxDestructorIterations, ScanClean countdown n (exitStart (countdownSlots 254) ()) →
        ∃ s, onThreadExitInternal countdown (countdownSlots 254) () = .completed s) := by
  rintro ⟨-, hcompletes⟩
  have hclean : ScanClean countdown 255 (exitStart (countdownSlots 254) ()) := by
    rw [scanClean_iff_flag]
    decide +kernel
  obtain ⟨s, hs⟩ := hcompletes 255 (by decide) hclean
  obtain ⟨n, hn, hearly⟩ := (exitLoop_completed_iff 255 _).mp ⟨s, hs⟩
  rw [scanClean_iff_flag] at hearly
  have hcalls : ∀ n < 255, (scans countdown (n + 1) (exitStart (countdownSlots 254) ())).map
      (·.needToScanDestructors) = some true := by decide +kernel
  rw [hcalls n hn] at hearly
  cases hearly

end MiniChromium
