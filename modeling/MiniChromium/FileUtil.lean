import MiniChromium.IntegralType
import MiniChromium.Loops
import Mathlib.Data.List.Range

/-!
# Reading from a file descriptor

`ReadFromFD` calls `read` until it has all the bytes it was asked for, and `HANDLE_EINTR` repeats
a call that a signal interrupted. How the calls of `read` end is given by a schedule; when it is
over, the last call does not return.
-/
namespace MiniChromium.FileUtil

open IntegralType MiniChromium.Num Loops

/-- How a call of `read` ends. Where bytes come, one more comes than the number says, if that
many are asked for. -/
inductive Outcome
  | interrupted | failed | endOfFile
  | transferred (more : ℕ)
  deriving DecidableEq

/-- The arguments of a call of `read`, where its pointer is given by the place in the buffer, and
the number of bytes that were stored before it. -/
structure Request where
  place : Num .uint64
  count : Num .uint64
  stored : ℕ
  deriving DecidableEq

/-- What is left of the schedule, the number of bytes that were read from the stream, the bytes
stored with their places in the buffer, and the calls of `read`. -/
structure System (β : Type) where
  schedule : List Outcome
  position : ℕ
  stored : List (ℤ × β)
  requests : List Request

section Code

variable {β σ : Type} (stream : ℕ → β)

/-- The bytes that come at once; their number is a `ssize_t`. -/
def transferSize (more : ℕ) (count : Num .uint64) : Num .int64 :=
  staticCast .int64 (min (more + 1) (min count.val (IntegralType.max .int64)))

/-- `read`: its result, whether `errno` is `EINTR`, and what it leaves. -/
def read (s : System β) (place count : Num .uint64) : Option (Num .int64 × Bool × System β) :=
  match s.schedule with
  | [] => none
  | outcome :: schedule =>
    let s := { s with
      schedule := schedule
      requests := s.requests ++ [⟨place, count, s.stored.length⟩] }
    match outcome with
    | .interrupted => some (staticCast .int64 (-1), true, s)
    | .failed => some (staticCast .int64 (-1), false, s)
    | .endOfFile => some (0, false, s)
    | .transferred more =>
      let result := transferSize more count
      let bytes := (List.range result.val.toNat).map fun i : ℕ =>
        (place.val + i, stream (s.position + i))
      some (result, false, { s with
        position := s.position + result.val.toNat
        stored := s.stored ++ bytes })

/-- A turn of the loop of `HANDLE_EINTR`; there is no result where a call does not return. -/
def eintrTurn (x : σ → Option (Num .int64 × Bool × σ)) (s : σ) :
    Option ((Option (Num .int64) × σ) ⊕ σ) :=
  match x s with
  | none => some (.inl (none, s))
  | some (eintrWrapperResult, isEintr, s') =>
    if eintrWrapperResult.val = -1 ∧ isEintr then some (.inr s')
    else some (.inl (some eintrWrapperResult, s'))

/-- `HANDLE_EINTR`. -/
def handleEintr (turns : ℕ) (x : σ → Option (Num .int64 × Bool × σ)) :
    σ → Option (Option (Num .int64) × σ) :=
  loop (eintrTurn x) turns

/-- A turn of the loop of `ReadFromFD`, with `total_read` before the rest of the state. -/
def readTurn (turns : ℕ) (bytes : Num .uint64) (state : Num .uint64 × System β) :
    Option ((Option Bool × System β) ⊕ (Num .uint64 × System β)) :=
  let (totalRead, s) := state
  if totalRead.val < bytes.val then
    let count := staticCast .uint64 (bytes.val - totalRead.val)
    (handleEintr turns (fun s => read stream s totalRead count) s).map fun
      | (none, s) => .inl (none, s)
      | (some bytesRead, s) =>
        if bytesRead.val ≤ 0 then .inl (some (decide (totalRead = bytes)), s)
        else .inr (staticCast .uint64 (totalRead.val + (staticCast .uint64 bytesRead.val).val), s)
  else some (.inl (some (decide (totalRead = bytes)), s))

/-- `ReadFromFD`. -/
def readFromFD (turns : ℕ) (bytes : Num .uint64) (schedule : List Outcome) :
    Option (Option Bool × System β) :=
  loop (readTurn stream turns bytes) turns (0, ⟨schedule, 0, [], []⟩)

end Code

section Reading

variable {β : Type} {stream : ℕ → β} {bytes totalRead : Num .uint64} {s : System β} {n : ℕ}

/-- A call of `read` asks for what is still missing, behind what is there. -/
def Request.Asks (bytes : Num .uint64) (request : Request) : Prop :=
  request.place.val = request.stored ∧ request.count.val = bytes.val - request.stored ∧
    request.stored < bytes.val

/-- The first bytes of the stream are in the buffer, in order, and nothing else was stored. -/
structure Assembled (stream : ℕ → β) (bytes : Num .uint64) (s : System β) (n : ℕ) : Prop where
  stored : s.stored = (List.range n).map fun i : ℕ => ((i : ℤ), stream i)
  position : s.position = n
  le : (n : ℤ) ≤ bytes.val
  requests : ∀ request ∈ s.requests, request.Asks bytes

theorem Assembled.length (h : Assembled stream bytes s n) : s.stored.length = n := by
  rw [h.stored, List.length_map, List.length_range]

theorem Assembled.request {count : Num .uint64} (h : Assembled stream bytes s n)
    (schedule : List Outcome) (hplace : totalRead.val = n)
    (hcount : count.val = bytes.val - n) (hlt : (n : ℤ) < bytes.val) :
    Assembled stream bytes { s with
      schedule := schedule
      requests := s.requests ++ [⟨totalRead, count, s.stored.length⟩] } n where
  stored := h.stored
  position := h.position
  le := h.le
  requests request hrequest := by
    rcases List.mem_append.mp hrequest with hrequest | hrequest
    · exact h.requests request hrequest
    · rw [List.mem_singleton.mp hrequest, Request.Asks, h.length]
      exact ⟨hplace, hcount, hlt⟩

/-- Bytes that come go behind those that are there. -/
theorem Assembled.append (h : Assembled stream bytes s n) {k : ℕ}
    (hle : ((n + k : ℕ) : ℤ) ≤ bytes.val) :
    Assembled stream bytes { s with
      position := s.position + k
      stored := s.stored ++ (List.range k).map fun i : ℕ =>
        ((n : ℤ) + i, stream (s.position + i)) }
      (n + k) where
  stored := by
    simp [h.stored, h.position, List.range_add]
  position := by rw [h.position]
  le := hle
  requests := h.requests

theorem transferSize_val {count : Num .uint64} (hpos : 0 < count.val) (more : ℕ) :
    0 < (transferSize more count).val ∧ (transferSize more count).val ≤ count.val := by
  have hmax : 0 < IntegralType.max .int64 := by decide
  rw [transferSize, staticCast_of_inRange ⟨(lowest_nonpos _).trans (by omega), by omega⟩]
  omega

/-- A call of `read` that returns has taken one outcome, and stores as many bytes as it says. -/
theorem read_spec {count : Num .uint64} {outcome : Outcome} {rest : List Outcome}
    (h : Assembled stream bytes s n) (hplace : totalRead.val = n)
    (hcount : count.val = bytes.val - n) (hlt : (n : ℤ) < bytes.val)
    (hschedule : s.schedule = outcome :: rest) :
    ∃ result isEintr s', read stream s totalRead count = some (result, isEintr, s') ∧
      s'.schedule = rest ∧ (result.val ≤ 0 → Assembled stream bytes s' n) ∧
      (0 < result.val → Assembled stream bytes s' (n + result.val.toNat)) := by
  have hrequest := h.request rest hplace hcount hlt
  have hneg : ¬ 0 < (staticCast .int64 (-1)).val := by decide
  cases outcome with
  | interrupted =>
    exact ⟨_, _, _, by rw [read, hschedule], rfl, fun _ => hrequest, fun hpos => absurd hpos hneg⟩
  | failed =>
    exact ⟨_, _, _, by rw [read, hschedule], rfl, fun _ => hrequest, fun hpos => absurd hpos hneg⟩
  | endOfFile =>
    exact ⟨_, _, _, by rw [read, hschedule], rfl, fun _ => hrequest,
      fun hpos => absurd hpos (by decide)⟩
  | transferred more =>
    have hmissing : 0 < count.val := by omega
    obtain ⟨hpos, hle⟩ := transferSize_val hmissing more
    refine ⟨_, _, _, by rw [read, hschedule], rfl, fun hnonpos => ?_, fun _ => ?_⟩
    · exact absurd hpos (not_lt.mpr hnonpos)
    · rw [hplace]
      exact hrequest.append (by omega)

/-- What `HANDLE_EINTR` leaves of a call of `read`: it has not returned and the schedule is over,
or the outcomes up to its result are gone. -/
def Handled (stream : ℕ → β) (bytes : Num .uint64) (n outcomes : ℕ) :
    Option (Num .int64) × System β → Prop
  | (none, s) => s.schedule = [] ∧ Assembled stream bytes s n
  | (some result, s) => s.schedule.length < outcomes ∧
    (result.val ≤ 0 → Assembled stream bytes s n) ∧
    (0 < result.val → Assembled stream bytes s (n + result.val.toNat))

theorem eintrTurn_progress {count : Num .uint64} {outcomes : ℕ} (hplace : totalRead.val = n)
    (hcount : count.val = bytes.val - n) (hlt : (n : ℤ) < bytes.val) (s : System β)
    (h : s.schedule.length ≤ outcomes ∧ Assembled stream bytes s n) :
    ∃ next, eintrTurn (fun s => read stream s totalRead count) s = some next ∧
      Progress (fun s => s.schedule.length)
        (fun s => s.schedule.length ≤ outcomes ∧ Assembled stream bytes s n)
        (Handled stream bytes n outcomes) s next := by
  obtain ⟨hle, h⟩ := h
  unfold eintrTurn
  dsimp only
  cases hschedule : s.schedule with
  | nil =>
    have hread : read stream s totalRead count = none := by rw [read, hschedule]
    rw [hread]
    exact ⟨_, rfl, hschedule, h⟩
  | cons outcome rest =>
    obtain ⟨result, isEintr, s', hread, hrest, hnonpos, hpos⟩ :=
      read_spec h hplace hcount hlt hschedule
    rw [hschedule, List.length_cons] at hle
    rw [hread]
    dsimp only
    split_ifs with heintr
    · refine ⟨_, rfl, ⟨by rw [hrest]; omega, hnonpos (by omega)⟩, ?_⟩
      dsimp only
      rw [hrest, hschedule]
      exact Nat.lt_succ_self _
    · exact ⟨_, rfl, by rw [hrest]; omega, hnonpos, hpos⟩

theorem handleEintr_spec {count : Num .uint64} {turns : ℕ} (h : Assembled stream bytes s n)
    (hplace : totalRead.val = n) (hcount : count.val = bytes.val - n)
    (hlt : (n : ℤ) < bytes.val) (hturns : s.schedule.length < turns) :
    ∃ handled, handleEintr turns (fun s => read stream s totalRead count) s = some handled ∧
      Handled stream bytes n s.schedule.length handled := by
  obtain ⟨handled, hhandled, hloop⟩ := loop_of_progress _ _ _
    (eintrTurn_progress hplace hcount hlt) s ⟨le_rfl, h⟩
  exact ⟨handled, hloop turns hturns, hhandled⟩

/-- What `ReadFromFD` leaves: the answer says whether all bytes are there, and there is one unless
the schedule is over. -/
def Answered (stream : ℕ → β) (bytes : Num .uint64) : Option Bool × System β → Prop
  | (answer, s) => ∃ n, Assembled stream bytes s n ∧
    (answer = some (decide ((n : ℤ) = bytes.val)) ∨
      answer = none ∧ s.schedule = [] ∧ (n : ℤ) < bytes.val)

theorem readTurn_progress {turns : ℕ} (state : Num .uint64 × System β)
    (h : state.2.schedule.length < turns ∧
      Assembled stream bytes state.2 state.1.val.toNat) :
    ∃ next, readTurn stream turns bytes state = some next ∧
      Progress (fun state => state.2.schedule.length)
        (fun state => state.2.schedule.length < turns ∧
          Assembled stream bytes state.2 state.1.val.toNat)
        (Answered stream bytes) state next := by
  obtain ⟨totalRead, s⟩ := state
  obtain ⟨hturns, h⟩ := h
  dsimp only at hturns h
  have hplace : totalRead.val = totalRead.val.toNat :=
    (Int.toNat_of_nonneg (totalRead.nonneg rfl)).symm
  have hanswer : decide (totalRead = bytes) =
      decide ((totalRead.val.toNat : ℤ) = bytes.val) := by
    rw [← hplace, decide_eq_decide, Num.ext_iff]
  unfold readTurn
  dsimp only
  split_ifs with hlt
  · have hcount : (staticCast .uint64 (bytes.val - totalRead.val)).val =
        bytes.val - totalRead.val.toNat := by
      have hmax := bytes.le_max
      rw [← hplace]
      exact staticCast_of_inRange ⟨(lowest_nonpos _).trans (by omega), by omega⟩
    obtain ⟨⟨result, s'⟩, hhandle, hhandled⟩ :=
      handleEintr_spec h hplace hcount (by omega) hturns
    rw [hhandle]
    cases result with
    | none => exact ⟨_, rfl, _, hhandled.2, .inr ⟨rfl, hhandled.1, by omega⟩⟩
    | some bytesRead =>
      obtain ⟨hless, hnonpos, hpos⟩ := hhandled
      rw [Option.map_some]
      dsimp only
      split_ifs with hle
      · exact ⟨_, rfl, _, hnonpos hle, .inl (by rw [hanswer])⟩
      · have hnext := hpos (not_le.mp hle)
        have hsum : (staticCast .uint64
            (totalRead.val + (staticCast .uint64 bytesRead.val).val)).val.toNat =
              totalRead.val.toNat + bytesRead.val.toNat := by
          have hbytes := hnext.le
          have hmax := bytes.le_max
          have hread : (staticCast .uint64 bytesRead.val).val = bytesRead.val :=
            staticCast_of_inRange ⟨(lowest_nonpos _).trans (by omega), by omega⟩
          rw [hread, staticCast_of_inRange ⟨(lowest_nonpos _).trans (by omega), by omega⟩]
          omega
        refine ⟨_, rfl, ⟨by dsimp only; omega, ?_⟩, hless⟩
        dsimp only
        rw [hsum]
        exact hnext
  · exact ⟨_, rfl, _, h, .inl (by rw [hanswer])⟩

/-- Whatever the schedule, the buffer holds the bytes that were read from the stream, each at its
place and none at or behind the number asked for; each call of `read` asked for what was missing;
and `ReadFromFD` answers true if and only if all the bytes are there. It answers unless a call
of `read` does not return. -/
theorem readFromFD_assembles (stream : ℕ → β) (bytes : Num .uint64) (schedule : List Outcome)
    (turns : ℕ) (hturns : schedule.length < turns) :
    ∃ answer s, readFromFD stream turns bytes schedule = some (answer, s) ∧
      (s.stored = (List.range s.position).map fun i : ℕ => ((i : ℤ), stream i)) ∧
      (∀ stored ∈ s.stored, 0 ≤ stored.1 ∧ stored.1 < bytes.val) ∧
      (∀ request ∈ s.requests, request.Asks bytes) ∧
      (answer = some true ↔ (s.stored.length : ℤ) = bytes.val) ∧
      (answer = none → s.schedule = []) := by
  have hstart : Assembled stream bytes ⟨schedule, 0, [], []⟩ 0 :=
    ⟨rfl, rfl, bytes.nonneg rfl, nofun⟩
  obtain ⟨⟨answer, s⟩, ⟨n, h, hanswer⟩, hloop⟩ := loop_of_progress _ _ _
    readTurn_progress (0, ⟨schedule, 0, [], []⟩) ⟨hturns, hstart⟩
  refine ⟨answer, s, hloop turns hturns, ?_, fun stored hstored => ?_, h.requests, ?_, ?_⟩
  · rw [h.stored, h.position]
  · rw [h.stored] at hstored
    obtain ⟨i, hi, rfl⟩ := List.mem_map.mp hstored
    have hle := h.le
    have hlt := List.mem_range.mp hi
    dsimp only
    omega
  · rw [h.length]
    rcases hanswer with rfl | ⟨rfl, -, hlt⟩
    · simp
    · simpa using hlt.ne
  · rcases hanswer with rfl | ⟨rfl, hschedule, -⟩
    · exact nofun
    · exact fun _ => hschedule

/-- Three bytes in two pieces, with an interruption between them. -/
theorem readFromFD_assembles_pieces :
    ∃ answer s, readFromFD id 5 (staticCast .uint64 3)
        [.transferred 0, .interrupted, .transferred 9, .failed] = some (answer, s) ∧
      (answer = some true ↔ (s.stored.length : ℤ) = 3) ∧ s.schedule = [.failed] ∧
      s.stored = [(0, 0), (1, 1), (2, 2)] := by
  obtain ⟨answer, s, hread, -, -, -, htrue, -⟩ := readFromFD_assembles id (staticCast .uint64 3)
    [.transferred 0, .interrupted, .transferred 9, .failed] 5 (by decide)
  have hend : (readFromFD id 5 (staticCast .uint64 3)
      [.transferred 0, .interrupted, .transferred 9, .failed]).all (fun left =>
        left.2.schedule = [.failed] ∧ left.2.stored = [(0, 0), (1, 1), (2, 2)]) = true := by decide
  rw [hread] at hend
  exact ⟨answer, s, hread, htrue, of_decide_eq_true hend⟩

end Reading

end MiniChromium.FileUtil
