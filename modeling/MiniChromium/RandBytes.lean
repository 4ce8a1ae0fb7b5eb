import Mathlib.Algebra.Order.Field.Rat
import Mathlib.Algebra.Order.Field.Basic
import Mathlib.Tactic.Positivity
import MiniChromium.ByteConversions
import MiniChromium.FileUtil
import MiniChromium.RandUtil
import MiniChromium.SpanContents

/-!
# Random bytes and doubles

`RandBytes` fills a span with the next bytes of the random source of the system. On Windows it
asks `RtlGenRandom` for as many as fit into an `ULONG`, as long as the span has a rest; elsewhere
it reads them from a file with `ReadFromFD`. A failed `CHECK` leaves nothing. `RandDouble` scales
the low bits of a random number, which a double has exactly.
-/
namespace MiniChromium.RandUtil

open IntegralType MiniChromium.Num

variable {β : Type}

/-- A call ends at a failed `CHECK`, or it does not end because one of the system does not. -/
inductive Ending (α : Type)
  | returned (a : α)
  | checkFailed
  | blocked

/-- The memory, and how much was asked of the random source. -/
structure Filling (β : Type) where
  memory : ℤ → β
  drawn : ℕ
  calls : ℕ

section Code

variable (source : ℕ → β)

/-- The memory with bytes of the source from some place on. -/
def written (drawn : ℕ) (data length : ℤ) (memory : ℤ → β) (position : ℤ) : β :=
  if data ≤ position ∧ position < data + length then source (drawn + (position - data).toNat)
  else memory position

/-- `RtlGenRandom`: whether it succeeds is known for each call. -/
def rtlGenRandom (success : ℕ → Bool) (data : ℤ) (length : Num .uint32) (s : Filling β) :
    Option (Filling β) :=
  if success s.calls then
    some ⟨written source s.drawn data length.val s.memory, s.drawn + length.val.toNat, s.calls + 1⟩
  else none

/-- A turn of the loop of `RandBytes` on Windows. -/
def randBytesTurn (success : ℕ → Bool) (state : Span × Filling β) :
    Option (Ending (Filling β) ⊕ (Span × Filling β)) :=
  let (output, s) := state
  if output.size.val = 0 then some (.inl (.returned s))
  else
    let outputBytesThisPass : Num .uint32 :=
      staticCast .uint32 (min output.size.val (IntegralType.max .uint32))
    match rtlGenRandom source success output.data.val outputBytesThisPass s with
    | none => some (.inl .checkFailed)
    | some s =>
      match (output.subspan .call (staticCast .uint64 outputBytesThisPass.val)
          dynamicExtent).value with
      | none => some (.inl .checkFailed)
      | some output => some (.inr (output, s))

/-- `RandBytes` on Windows. -/
def randBytesWin (turns : ℕ) (success : ℕ → Bool) (output : Span) (s : Filling β) :
    Option (Ending (Filling β)) :=
  if output.size.val = 0 then some (.returned s)
  else Loops.loop (randBytesTurn source success) turns (output, s)

/-- `RandBytes` on other systems, with what `read` stores in the memory of the span. -/
def randBytesPosix (turns : ℕ) (schedule : List FileUtil.Outcome) (output : Span) (memory : ℤ → β) :
    Option (Ending (ℤ → β)) :=
  if output.size.val = 0 then some (.returned memory)
  else (FileUtil.readFromFD source turns output.size schedule).map fun result =>
    match result.1 with
    | none => .blocked
    | some false => .checkFailed
    | some true => .returned (result.2.stored.foldl (fun memory stored =>
        Function.update memory (output.data.val + stored.1) stored.2) memory)

end Code

/-- How many calls of `RtlGenRandom` a span takes. -/
def passes (output : Span) : ℕ :=
  ((output.size.val + (IntegralType.max .uint32 - 1)) / IntegralType.max .uint32).toNat

/-- Bytes behind bytes are bytes in a row. -/
theorem written_written (source : ℕ → β) (drawn k : ℕ) (data : ℤ) {length : ℤ} (h : 0 ≤ length)
    (memory : ℤ → β) :
    written source (drawn + k) (data + k) length (written source drawn data k memory) =
      written source drawn data (k + length) memory := by
  funext position
  rw [written, written, written]
  by_cases hbehind : data + k ≤ position ∧ position < data + k + length
  · have hplace : drawn + k + (position - (data + k)).toNat = drawn + (position - data).toNat := by
      omega
    rw [if_pos hbehind, if_pos (by omega), hplace]
  · rw [if_neg hbehind]
    congr 1
    rw [eq_iff_iff]
    omega

variable {source : ℕ → β} {success : ℕ → Bool} {output : Span} {n : Size} {s : Filling β}

theorem lt_passes_iff (output : Span) (c : ℕ) :
    c < passes output ↔ c * IntegralType.max .uint32 < output.size.val := by
  have hmax : IntegralType.max .uint32 = 4294967295 := by decide
  rw [passes, hmax]
  omega

/-- The first bytes of the span are filled, with as many calls as that takes. -/
structure FilledUpTo (source : ℕ → β) (success : ℕ → Bool) (output : Span) (s : Filling β)
    (state : Span × Filling β) (c k : ℕ) : Prop where
  le : (k : ℤ) ≤ output.size.val
  view_eq : state.1.view = ⟨output.data.val + k, output.size.val - k⟩
  filling_eq : state.2 =
    ⟨written source s.drawn output.data.val k s.memory, s.drawn + k, s.calls + c⟩
  count : (k : ℤ) = min (c * IntegralType.max .uint32) output.size.val
  le_passes : c ≤ passes output
  succeeded : ∀ j < c, success (s.calls + j) = true

/-- What `RandBytes` leaves on Windows. -/
def WinResult (source : ℕ → β) (success : ℕ → Bool) (output : Span) (s : Filling β)
    (result : Ending (Filling β)) : Prop :=
  ((∀ j < passes output, success (s.calls + j) = true) ∧
    result = .returned ⟨written source s.drawn output.data.val output.size.val s.memory,
      s.drawn + output.size.val.toNat, s.calls + passes output⟩) ∨
  ((∃ j < passes output, success (s.calls + j) = false) ∧ result = .checkFailed)

/-- The rest of the span behind what was filled in a turn. -/
theorem subspan_pass {rest : Span} {passed : Num .uint32} (hinside : rest.view.Inside n.val)
    (hle : passed.val ≤ rest.size.val) :
    ∃ rest', (rest.subspan .call (staticCast .uint64 passed.val) dynamicExtent).value = some rest' ∧
      rest'.data.val = rest.data.val + passed.val ∧
        rest'.size.val = rest.size.val - passed.val := by
  have hnonneg := passed.nonneg rfl
  have hmax := rest.size.le_max
  have hval : (staticCast .uint64 passed.val).val = passed.val :=
    staticCast_of_inRange ⟨hnonneg, hle.trans hmax⟩
  have hsubspan := (Span.shows_subspan hinside .call (staticCast .uint64 passed.val)
    dynamicExtent).2
  rw [View.apply, hval, Span.view_eq, if_pos ⟨hle, .inl rfl⟩, if_pos rfl,
    Option.map_eq_some_iff] at hsubspan
  obtain ⟨rest', hrest', hview⟩ := hsubspan
  rw [Span.view_eq] at hview
  exact ⟨rest', hrest', (View.mk.inj hview).1, (View.mk.inj hview).2⟩

theorem randBytesTurn_progress (hinside : output.view.Inside n.val) (state : Span × Filling β)
    (h : ∃ c k, FilledUpTo source success output s state c k) :
    ∃ next, randBytesTurn source success state = some next ∧
      Loops.Progress (fun state => state.1.size.val.toNat)
        (fun state => ∃ c k, FilledUpTo source success output s state c k)
        (WinResult source success output s) state next := by
  obtain ⟨rest, filling⟩ := state
  obtain ⟨c, k, hle, hview, hfilling, hcount, hpasses, hsucceeded⟩ := h
  dsimp only at hview hfilling
  subst hfilling
  have hparts := hview
  rw [Span.view_eq] at hparts
  obtain ⟨hdata, hsize⟩ := View.mk.inj hparts
  have hlt := lt_passes_iff output c
  rw [randBytesTurn]
  dsimp only
  split_ifs with hempty
  · -- all is filled, with the last call that this takes
    obtain rfl : c = passes output := by omega
    have hk : k = output.size.val.toNat := by omega
    have hkval : (k : ℤ) = output.size.val := by omega
    refine ⟨_, rfl, .inl ⟨hsucceeded, ?_⟩⟩
    rw [← hk, hkval]
  · have hc : c < passes output := by omega
    have hU : (0 : ℤ) < IntegralType.max .uint32 := by decide
    have hrest : (staticCast .uint32 (min rest.size.val (IntegralType.max .uint32))).val =
        min rest.size.val (IntegralType.max .uint32) :=
      staticCast_of_inRange ⟨le_min rest.size_nonneg hU.le, min_le_right _ _⟩
    have hrestInside : rest.view.Inside n.val := by
      rw [Span.view_eq, View.Inside] at hinside ⊢
      simp only at hinside ⊢
      omega
    set passed : Num .uint32 := staticCast .uint32 (min rest.size.val (IntegralType.max .uint32))
    have hpassed : passed.val ≤ rest.size.val := hrest ▸ min_le_left _ _
    obtain ⟨rest', hrest', hdata', hsize'⟩ := subspan_pass hrestInside hpassed
    rw [rtlGenRandom]
    dsimp only
    cases hsuccess : success (s.calls + c) with
    | false => exact ⟨_, rfl, .inr ⟨⟨c, hc, hsuccess⟩, rfl⟩⟩
    | true =>
      rw [if_pos rfl]
      dsimp only
      rw [hrest']
      have hnonneg := passed.nonneg rfl
      have hcast : ((k + passed.val.toNat : ℕ) : ℤ) = k + passed.val := by
        rw [Nat.cast_add, Int.toNat_of_nonneg hnonneg]
      refine ⟨_, rfl, ⟨c + 1, k + passed.val.toNat, ?_, ?_, ?_, ?_, hc, fun j hj => ?_⟩, ?_⟩
      · omega
      · rw [Span.view_eq, hcast]
        exact View.ext (by dsimp only; omega) (by dsimp only; omega)
      · rw [hcast, hdata, Nat.add_assoc, Nat.add_assoc]
        exact congrArg (Filling.mk · _ _) (written_written source s.drawn k _ hnonneg s.memory)
      · rw [hcast, Nat.cast_succ, add_one_mul]
        omega
      · obtain hj | rfl := Nat.lt_succ_iff_lt_or_eq.mp hj
        · exact hsucceeded j hj
        · exact hsuccess
      · dsimp only
        omega

theorem written_zero (source : ℕ → β) (drawn : ℕ) (data : ℤ) (memory : ℤ → β) :
    written source drawn data 0 memory = memory := by
  funext position
  rw [written, if_neg (by omega)]

theorem randBytesWin_result (source : ℕ → β) (success : ℕ → Bool)
    (hinside : output.view.Inside n.val) (s : Filling β) :
    ∃ result, WinResult source success output s result ∧
      ∀ turns > output.size.val.toNat,
        randBytesWin source turns success output s = some result := by
  have hstart : FilledUpTo source success output s (output, s) 0 0 := by
    refine ⟨output.size_nonneg, ?_, ?_, ?_, Nat.zero_le _, nofun⟩
    · rw [Span.view_eq]
      exact View.ext (by simp) (by simp)
    · rw [Nat.cast_zero, written_zero, Nat.add_zero, Nat.add_zero]
    · rw [Nat.cast_zero, zero_mul, min_eq_left output.size_nonneg]
  obtain ⟨result, hresult, hloop⟩ := Loops.loop_of_progress _ _ _
    (randBytesTurn_progress hinside) (output, s) ⟨0, 0, hstart⟩
  by_cases hempty : output.size.val = 0
  · have hpasses : passes output = 0 := by
      rw [passes, hempty]
      decide
    refine ⟨.returned s, .inl ⟨hpasses ▸ nofun, ?_⟩, fun turns _ => if_pos hempty⟩
    rw [hempty, written_zero, hpasses]
    rfl
  · refine ⟨result, hresult, fun turns hturns => ?_⟩
    rw [randBytesWin, if_neg hempty]
    exact hloop turns hturns

/-- Bytes that are stored one by one, each at its place. -/
theorem foldl_stored (source : ℕ → β) (data : ℤ) (count : ℕ) (memory : ℤ → β) :
    ((List.range count).map fun i : ℕ => ((i : ℤ), source i)).foldl
        (fun memory stored => Function.update memory (data + stored.1) stored.2) memory =
      written source 0 data count memory := by
  induction count with
  | zero => rw [Nat.cast_zero, written_zero]; rfl
  | succ count ih =>
    rw [List.range_succ, List.map_append, List.foldl_append, ih]
    funext position
    simp only [List.map_cons, List.map_nil, List.foldl_cons, List.foldl_nil]
    by_cases hlast : position = data + count
    · rw [hlast, Function.update_self, written, if_pos (by omega)]
      congr 1
      omega
    · rw [Function.update_of_ne hlast, written, written]
      congr 1
      rw [eq_iff_iff]
      omega

section Reading

open FileUtil

variable {bytes totalRead count : Num .uint64} {schedule : List Outcome} {state : System β}

/-- How many bytes the calls of `read` bring, if they are asked for, before one of them fails or
finds the end of the file. -/
def supply : List Outcome → ℤ
  | .interrupted :: rest => supply rest
  | .transferred more :: rest => min ((more : ℤ) + 1) (IntegralType.max .int64) + supply rest
  | _ => 0

/-- Some call of `read` fails or finds the end of the file. -/
def Fails (schedule : List Outcome) : Prop := .failed ∈ schedule ∨ .endOfFile ∈ schedule

instance (schedule : List Outcome) : Decidable (Fails schedule) :=
  inferInstanceAs (Decidable (_ ∨ _))

/-- What the schedule decides where so many bytes are missing. -/
def verdict (missing : ℤ) (schedule : List Outcome) : Option Bool :=
  if missing ≤ supply schedule then some true
  else if Fails schedule then some false else none

theorem supply_nonneg (schedule : List Outcome) : 0 ≤ supply schedule := by
  have hmax : 0 < IntegralType.max .int64 := by decide
  fun_induction supply schedule with
  | case1 rest ih => exact ih
  | case2 more rest ih => omega
  | case3 => exact le_rfl

variable {missing : ℤ} {rest : List Outcome}

theorem verdict_interrupted (missing : ℤ) (rest : List Outcome) :
    verdict missing (.interrupted :: rest) = verdict missing rest := by
  have hfails : Fails (.interrupted :: rest) ↔ Fails rest := by simp [Fails]
  simp only [verdict, supply, hfails]

theorem verdict_stop {outcome : Outcome} (hpos : 0 < missing)
    (houtcome : outcome = .failed ∨ outcome = .endOfFile) :
    verdict missing (outcome :: rest) = some false := by
  rcases houtcome with rfl | rfl
  · rw [verdict, supply, if_neg (not_le.mpr hpos), if_pos (.inl List.mem_cons_self)] <;> nofun
  · rw [verdict, supply, if_neg (not_le.mpr hpos), if_pos (.inr List.mem_cons_self)] <;> nofun

/-- After a transfer the bytes that it brought are no longer missing. -/
theorem verdict_transferred (hcount : missing = count.val) (hpos : 0 < missing) (more : ℕ) :
    verdict missing (.transferred more :: rest) =
      verdict (missing - (transferSize more count).val) rest := by
  have hmax : 0 < IntegralType.max .int64 := by decide
  have hsize : (transferSize more count).val =
      min ((more : ℤ) + 1) (min count.val (IntegralType.max .int64)) :=
    staticCast_of_inRange ⟨(lowest_nonpos _).trans (by omega), by omega⟩
  have hsupply := supply_nonneg rest
  have henough : missing ≤ supply (.transferred more :: rest) ↔
      missing - (transferSize more count).val ≤ supply rest := by
    rw [supply, hsize]
    omega
  have hfails : Fails (.transferred more :: rest) ↔ Fails rest := by simp [Fails]
  simp only [verdict, henough, hfails]

/-- What `HANDLE_EINTR` leaves of a call of `read`, as far as the schedule tells. -/
def Scheduled (schedule : List Outcome) (count : Num .uint64) :
    Option (Num .int64) × System β → Prop
  | (none, _) => verdict count.val schedule = none
  | (some result, state) => state.schedule.length < schedule.length ∧
    (0 < result.val ∧ result.val ≤ count.val ∧
        verdict count.val schedule = verdict (count.val - result.val) state.schedule ∨
      result.val ≤ 0 ∧ verdict count.val schedule = some false)

theorem eintrTurn_scheduled (source : ℕ → β) (totalRead : Num .uint64) (hcount : 0 < count.val)
    (state : System β)
    (h : state.schedule.length ≤ schedule.length ∧
      verdict count.val schedule = verdict count.val state.schedule) :
    ∃ next, eintrTurn (fun state => FileUtil.read source state totalRead count) state =
        some next ∧
      Loops.Progress (fun state => state.schedule.length)
        (fun state => state.schedule.length ≤ schedule.length ∧
          verdict count.val schedule = verdict count.val state.schedule)
        (Scheduled schedule count) state next := by
  obtain ⟨hlength, hverdict⟩ := h
  rw [eintrTurn, FileUtil.read]
  cases hschedule : state.schedule with
  | nil =>
    refine ⟨_, rfl, hverdict.trans ?_⟩
    rw [hschedule, verdict, supply, if_neg (not_le.mpr hcount), if_neg] <;> simp [Fails]
  | cons outcome rest =>
    rw [hschedule, List.length_cons] at hlength
    rw [hschedule] at hverdict
    cases outcome with
    | interrupted =>
      refine ⟨_, rfl, ⟨Nat.le_of_succ_le hlength, hverdict.trans (verdict_interrupted ..)⟩, ?_⟩
      dsimp only
      rw [hschedule]
      exact Nat.lt_succ_self _
    | failed =>
      exact ⟨_, rfl, hlength, .inr ⟨by decide, hverdict.trans (verdict_stop hcount (.inl rfl))⟩⟩
    | endOfFile =>
      exact ⟨_, rfl, hlength, .inr ⟨by decide, hverdict.trans (verdict_stop hcount (.inr rfl))⟩⟩
    | transferred more =>
      obtain ⟨hpos, hle⟩ := transferSize_val hcount more
      dsimp only
      rw [if_neg (by omega)]
      exact ⟨_, rfl, hlength,
        .inl ⟨hpos, hle, hverdict.trans (verdict_transferred rfl hcount more)⟩⟩

/-- What is still missing decides as all the bytes do at the start. -/
def ReadsOn (schedule : List Outcome) (bytes : Num .uint64) (state : Num .uint64 × System β) :
    Prop :=
  state.2.schedule.length ≤ schedule.length ∧ state.1.val ≤ bytes.val ∧
    verdict bytes.val schedule = verdict (bytes.val - state.1.val) state.2.schedule

theorem readTurn_scheduled {turns : ℕ} (source : ℕ → β) (hturns : schedule.length < turns)
    (state : Num .uint64 × System β) (h : ReadsOn schedule bytes state) :
    ∃ next, readTurn source turns bytes state = some next ∧
      Loops.Progress (fun state => state.2.schedule.length) (ReadsOn schedule bytes)
        (fun answered => answered.1 = verdict bytes.val schedule) state next := by
  obtain ⟨totalRead, s⟩ := state
  obtain ⟨hlength, hle, hverdict⟩ := h
  dsimp only at hlength hle hverdict
  have hmax := bytes.le_max
  have hnonneg := totalRead.nonneg rfl
  rw [readTurn]
  dsimp only
  split_ifs with hlt
  · set count : Num .uint64 := staticCast .uint64 (bytes.val - totalRead.val) with hcountdef
    have hcount : count.val = bytes.val - totalRead.val :=
      staticCast_of_inRange ⟨(lowest_nonpos _).trans (by omega), by omega⟩
    rw [← hcount] at hverdict
    obtain ⟨⟨result, s'⟩, hscheduled, hloop⟩ := Loops.loop_of_progress _ _ _
      (eintrTurn_scheduled source totalRead (by omega : 0 < count.val)) s ⟨le_rfl, rfl⟩
    rw [handleEintr, hloop turns (by omega)]
    cases result with
    | none =>
      refine ⟨_, rfl, ?_⟩
      exact (hverdict.trans hscheduled).symm
    | some bytesRead =>
      obtain ⟨hless, ⟨hpos, hread, hrest⟩ | ⟨hnonpos, hstop⟩⟩ := hscheduled
      · have hbytesRead : (staticCast .uint64 bytesRead.val).val = bytesRead.val :=
          staticCast_of_inRange ⟨(lowest_nonpos _).trans (by omega), by omega⟩
        have hsum : (staticCast .uint64
            (totalRead.val + (staticCast .uint64 bytesRead.val).val)).val =
              totalRead.val + bytesRead.val := by
          rw [hbytesRead]
          exact staticCast_of_inRange ⟨(lowest_nonpos _).trans (by omega), by omega⟩
        have hmissing : bytes.val - (totalRead.val + bytesRead.val) =
            count.val - bytesRead.val := by omega
        simp only [Option.map_some]
        rw [if_neg (by omega)]
        refine ⟨_, rfl, ⟨hless.le.trans hlength, ?_, ?_⟩, hless⟩
        · dsimp only
          omega
        · dsimp only
          rw [hsum, hmissing]
          exact hverdict.trans hrest
      · simp only [Option.map_some]
        rw [if_pos hnonpos]
        have hne : decide (totalRead = bytes) = false := decide_eq_false fun heq => by
          rw [heq] at hlt
          exact hlt.false
        rw [hne]
        exact ⟨_, rfl, (hverdict.trans hstop).symm⟩
  · have heq : totalRead = bytes := Num.ext (by omega)
    rw [decide_eq_true heq]
    refine ⟨_, rfl, (hverdict.trans ?_).symm⟩
    rw [verdict, if_pos]
    have hsupply := supply_nonneg s.schedule
    omega

end Reading

/-- What `RandBytes` leaves on other systems. -/
def PosixResult (source : ℕ → β) (schedule : List FileUtil.Outcome) (output : Span)
    (memory : ℤ → β) (result : Ending (ℤ → β)) : Prop :=
  (output.size.val ≤ supply schedule ∧
    result = .returned (written source 0 output.data.val output.size.val memory)) ∨
  (supply schedule < output.size.val ∧ Fails schedule ∧ result = .checkFailed) ∨
  (supply schedule < output.size.val ∧ ¬Fails schedule ∧ result = .blocked)

theorem randBytesPosix_result (source : ℕ → β) (schedule : List FileUtil.Outcome) (output : Span)
    (memory : ℤ → β) {turns : ℕ} (hturns : schedule.length < turns) :
    ∃ result, PosixResult source schedule output memory result ∧
      randBytesPosix source turns schedule output memory = some result := by
  by_cases hempty : output.size.val = 0
  · refine ⟨.returned memory, .inl ⟨hempty ▸ supply_nonneg schedule, ?_⟩, if_pos hempty⟩
    rw [hempty, written_zero]
  · -- the same run of the loop, for what it stores and for what the schedule tells of it
    have hstart : FileUtil.Assembled source output.size ⟨schedule, 0, [], []⟩ 0 :=
      ⟨rfl, rfl, output.size_nonneg, nofun⟩
    have hreads : ReadsOn schedule output.size (0, (⟨schedule, 0, [], []⟩ : FileUtil.System β)) :=
      ⟨le_rfl, output.size_nonneg, by rw [show (0 : Num .uint64).val = 0 from rfl, sub_zero]⟩
    obtain ⟨⟨answer, s⟩, ⟨count, h, hanswer⟩, hloop⟩ := Loops.loop_of_progress _ _ _
      FileUtil.readTurn_progress (0, ⟨schedule, 0, [], []⟩) ⟨hturns, hstart⟩
    obtain ⟨result, hresult, hloop'⟩ := Loops.loop_of_progress _ _ _
      (readTurn_scheduled source hturns) (0, ⟨schedule, 0, [], []⟩) hreads
    obtain rfl : result = (answer, s) := Option.some.inj
      ((hloop' turns hturns).symm.trans (hloop turns hturns))
    rw [randBytesPosix, if_neg hempty, FileUtil.readFromFD, hloop turns hturns]
    refine ⟨_, ?_, rfl⟩
    change answer = verdict output.size.val schedule at hresult
    rw [verdict] at hresult
    split_ifs at hresult with henough hfails
    · subst hresult
      have hcount : (count : ℤ) = output.size.val := by simpa using hanswer
      refine .inl ⟨henough, congrArg Ending.returned ?_⟩
      dsimp only
      rw [h.stored, foldl_stored, hcount]
    · subst hresult
      exact .inr (.inl ⟨not_le.mp henough, hfails, rfl⟩)
    · subst hresult
      exact .inr (.inr ⟨not_le.mp henough, hfails, rfl⟩)

/-- `std::numeric_limits<double>::digits`. -/
def kMantissaBits : ℕ := 53

/-- `RandDouble`, with the double as the number that it stands for. -/
def randDouble (randomBits : Num .uint64) : Option ℚ :=
  let mantissa := bitAnd randomBits (staticCast .uint64 (2 ^ kMantissaBits - 1))
  let result : ℚ := mantissa.val * 2 ^ (-1 * (kMantissaBits : ℤ))
  if result ≥ 0 ∧ result < 1 then some result else none

theorem mantissa_val (randomBits : Num .uint64) :
    (bitAnd randomBits (staticCast .uint64 (2 ^ kMantissaBits - 1))).val =
      randomBits.val % 2 ^ kMantissaBits := by
  have hmask : (staticCast .uint64 (2 ^ kMantissaBits - 1)).bitPattern = 2 ^ kMantissaBits - 1 := by
    decide
  rw [← bitPattern_of_unsigned rfl, bitAnd,
    bitPattern_staticCast (Nat.and_lt_two_pow _ (bitPattern_lt _)), hmask,
    Nat.and_two_pow_sub_one_eq_mod, Int.natCast_mod, bitPattern_of_unsigned rfl]
  rfl

theorem randDouble_eq (randomBits : Num .uint64) :
    randDouble randomBits =
      some (((randomBits.val % 2 ^ kMantissaBits : ℤ) : ℚ) / 2 ^ kMantissaBits) := by
  have hpow : (2 : ℚ) ^ (-1 * (kMantissaBits : ℤ)) = (2 ^ kMantissaBits)⁻¹ := by
    rw [neg_one_mul, zpow_neg, zpow_natCast]
  have hnonneg : (0 : ℤ) ≤ randomBits.val % 2 ^ kMantissaBits := Int.emod_nonneg _ (by decide)
  have hlt : randomBits.val % 2 ^ kMantissaBits < 2 ^ kMantissaBits :=
    Int.emod_lt_of_pos _ (by decide)
  rw [randDouble, mantissa_val, hpow, ← div_eq_mul_inv, if_pos]
  refine ⟨div_nonneg (Int.cast_nonneg hnonneg) (by positivity), ?_⟩
  rw [div_lt_one (by positivity)]
  exact_mod_cast hlt

/-- Every multiple of 2 ^ -53 from zero up to but not including one is the result of equally
many draws, nothing else is a result, and no check fails. Such a multiple has a mantissa of 53
bits, and is a double. -/
theorem randDouble_uniform :
    (∀ randomBits, ∃ k : ℕ, k < 2 ^ kMantissaBits ∧
      randDouble randomBits = some ((k : ℚ) / 2 ^ kMantissaBits)) ∧
    ∀ k : ℕ, k < 2 ^ kMantissaBits →
      {randomBits | randDouble randomBits = some ((k : ℚ) / 2 ^ kMantissaBits)}.ncard = 2 ^ 11 := by
  constructor
  · intro randomBits
    have hnonneg : (0 : ℤ) ≤ randomBits.val % 2 ^ kMantissaBits := Int.emod_nonneg _ (by decide)
    have hlt : randomBits.val % 2 ^ kMantissaBits < 2 ^ kMantissaBits :=
      Int.emod_lt_of_pos _ (by decide)
    obtain ⟨k, hk⟩ := Int.eq_ofNat_of_zero_le hnonneg
    refine ⟨k, by exact_mod_cast hk ▸ hlt, ?_⟩
    rw [randDouble_eq, hk, Int.cast_natCast]
  · intro k hk
    have hresult : ∀ randomBits, randDouble randomBits = some ((k : ℚ) / 2 ^ kMantissaBits) ↔
        randomBits.val % 2 ^ kMantissaBits = k := fun randomBits => by
      rw [randDouble_eq, Option.some.injEq, div_left_inj' (by positivity)]
      exact_mod_cast Iff.rfl
    simp only [hresult]
    have hmax : IntegralType.max .uint64 = 2 ^ 64 - 1 := by decide
    rw [kMantissaBits] at hk ⊢
    apply ncard_of_lt fun i => i * 2 ^ 53 + k
    · intro i hi
      have hrange : InRange .uint64 (i * 2 ^ 53 + k) := by
        rw [InRange, lowest_of_unsigned rfl]
        omega
      refine ⟨⟨_, hrange⟩, ?_, rfl⟩
      change ((i : ℤ) * 2 ^ 53 + k) % 2 ^ 53 = k
      omega
    · intro value hvalue
      have hval := value.le_max
      have hnonneg := value.nonneg rfl
      change value.val % 2 ^ 53 = k at hvalue
      exact ⟨(value.val / 2 ^ 53).toNat, by omega, by omega⟩
    · intro i j heq
      omega

end MiniChromium.RandUtil
