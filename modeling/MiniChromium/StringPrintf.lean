import MiniChromium.IntegralType
import MiniChromium.Loops
import Mathlib.Data.Vector.Basic

/-!
# Formatting into a growing buffer

`StringAppendVT` calls `vsnprintf` with a buffer on the stack and then with larger and larger
ones, until the text fits or it gives up. Nothing is known of `vsnprintf` at first: each of its
calls may return any number, set `errno` to any number and fill its buffer in any way.
-/
namespace MiniChromium.StringPrintf

open IntegralType MiniChromium.Num Loops

variable {α : Type}

section Code

/-- What a call of `vsnprintf` leaves. -/
structure Call (α : Type) where
  size : Num .uint64
  buffer : List.Vector α size.val.toNat
  errno : Num .int32
  result : Num .int32

/-- The C library. A call of its `vsnprintf` has a number, and is given the size of the buffer
and the `errno` it finds. -/
structure Libc (α : Type) where
  eoverflow : Num .int32
  vsnprintf : ℕ → Num .uint64 → Num .int32 → Call α
  size_vsnprintf (count : ℕ) (size : Num .uint64) (errno : Num .int32) :
    (vsnprintf count size errno).size = size

/-- The calls so far. -/
structure Calls (α : Type) where
  latest : Call α
  earlier : List (Call α)

def Calls.all (calls : Calls α) : List (Call α) := calls.latest :: calls.earlier

/-- `std::size(stack_buf)`. -/
def stackSize : Num .uint64 := staticCast .uint64 1024

/-- The length above which `StringAppendVT` does not try. -/
def maxLength : ℤ := 32 * 1024 * 1024

/-- `dst->append` of the first `result` characters of a buffer. -/
def Call.appendTo (call : Call α) (dst : List α) : List α :=
  dst ++ call.buffer.toList.take call.result.val.toNat

/-- The test after the call with the buffer on the stack. -/
def Call.FitsStack (call : Call α) : Prop :=
  call.result.val ≥ 0 ∧ call.result.val < (staticCast .int32 stackSize.val).val

/-- The test after a call in the loop. -/
def Call.Fits (call : Call α) : Prop :=
  call.result.val ≥ 0 ∧ (staticCast .uint32 call.result.val).val < call.size.val

instance (call : Call α) : Decidable call.FitsStack := inferInstanceAs (Decidable (_ ∧ _))

instance (call : Call α) : Decidable call.Fits := inferInstanceAs (Decidable (_ ∧ _))

/-- A length of a buffer that the loop tries. -/
def checkLength (memLength : Num .uint64) : Option (Num .uint64) :=
  if memLength.val > maxLength then none else some memLength

/-- `mem_length` of the call after this one; none where `StringAppendVT` gives up. -/
def nextLength (libc : Libc α) (call : Call α) : Option (Num .uint64) :=
  if call.result.val < 0 then
    if call.errno.val ≠ 0 ∧ call.errno.val ≠ libc.eoverflow.val then none
    else checkLength (staticCast .uint64 (call.size.val * 2))
  else checkLength (staticCast .uint64 (staticCast .int32 (call.result.val + 1)).val)

/-- A turn of the loop of `StringAppendVT`. -/
def retry (libc : Libc α) (dst : List α) (calls : Calls α) :
    Option ((List α × Calls α) ⊕ Calls α) :=
  match nextLength libc calls.latest with
  | none => some (.inl (dst, calls))
  | some memLength =>
    let call := libc.vsnprintf calls.all.length memLength calls.latest.errno
    if call.Fits then some (.inl (call.appendTo dst, ⟨call, calls.all⟩))
    else some (.inr ⟨call, calls.all⟩)

/-- What `StringAppendVT` leaves, with the calls it made. -/
structure Outcome (α : Type) where
  dst : List α
  errno : Num .int32
  calls : Calls α

/-- `StringAppendVT`. `ScopedClearLastError` sets `errno` to zero and puts it back at the end. -/
def stringAppendVT (libc : Libc α) (turns : ℕ) (dst : List α) (lastErrno : Num .int32) :
    Option (Outcome α) :=
  let call := libc.vsnprintf 0 stackSize 0
  if call.FitsStack then some ⟨call.appendTo dst, lastErrno, ⟨call, []⟩⟩
  else (loop (retry libc dst) turns ⟨call, []⟩).map fun left => ⟨left.1, lastErrno, left.2⟩

end Code

section Growth

variable {libc : Libc α} {dst : List α} {call : Call α} {calls : Calls α}
  {memLength : Num .uint64}

/-- Calls with larger and larger buffers, none of them too large. -/
structure Calls.Growing (libc : Libc α) (calls : Calls α) : Prop where
  increasing : calls.all.Pairwise fun later earlier => earlier.size.val < later.size.val
  bounded : ∀ call ∈ calls.all, stackSize.val ≤ call.size.val ∧ call.size.val ≤ maxLength
  made : ∀ call ∈ calls.all, ∃ count errno, call = libc.vsnprintf count call.size errno

/-- What is left once a text fits, or once `StringAppendVT` has given up. -/
structure Returned (libc : Libc α) (dst : List α) (left : List α × Calls α) : Prop where
  growing : left.2.Growing libc
  result : (left.2.latest.Fits ∧ left.1 = left.2.latest.appendTo dst) ∨
    (nextLength libc left.2.latest = none ∧ left.1 = dst)

theorem val_stackSize : stackSize.val = 1024 := by decide

theorem fits_iff : call.Fits ↔ 0 ≤ call.result.val ∧ call.result.val < call.size.val := by
  rw [Call.Fits, ge_iff_le, and_congr_right_iff]
  intro hnonneg
  have hle : call.result.val ≤ IntegralType.max .uint32 := call.result.le_max.trans (by decide)
  rw [staticCast_of_inRange ⟨(lowest_nonpos _).trans hnonneg, hle⟩]

theorem fitsStack_iff (hsize : call.size = stackSize) : call.FitsStack ↔ call.Fits := by
  have hstack : (staticCast .int32 stackSize.val).val = stackSize.val := by decide
  rw [fits_iff, hsize, Call.FitsStack, hstack, ge_iff_le]

theorem checkLength_eq_some {z : ℤ} (h : checkLength (staticCast .uint64 z) = some memLength)
    (hrange : InRange .uint64 z) : memLength.val = z ∧ z ≤ maxLength := by
  unfold checkLength at h
  split_ifs at h with hle
  obtain rfl := Option.some.inj h
  rw [staticCast_of_inRange hrange] at hle ⊢
  exact ⟨rfl, not_lt.mp hle⟩

/-- After the largest result there is no next length: the sum wraps to a negative number, which
is too large as a length. -/
theorem checkLength_result (hnonneg : 0 ≤ call.result.val)
    (h : checkLength (staticCast .uint64 (staticCast .int32 (call.result.val + 1)).val) =
      some memLength) :
    memLength.val = call.result.val + 1 ∧ memLength.val ≤ maxLength := by
  rcases call.result.le_max.eq_or_lt with hmax | hlt
  · have hnone : checkLength (staticCast .uint64
        (staticCast .int32 (IntegralType.max .int32 + 1)).val) = none := by decide
    rw [hmax, hnone] at h
    exact nomatch h
  · have hint : InRange .int32 (call.result.val + 1) :=
      ⟨(lowest_nonpos _).trans (by omega), by omega⟩
    have hsize : InRange .uint64 (call.result.val + 1) :=
      ⟨(lowest_nonpos _).trans (by omega), hint.2.trans (by decide)⟩
    rw [staticCast_of_inRange hint] at h
    obtain ⟨hval, hle⟩ := checkLength_eq_some h hsize
    exact ⟨hval, hval ▸ hle⟩

/-- Every length that is tried is larger than the one before. -/
theorem size_lt_nextLength (h : nextLength libc call = some memLength) (hfits : ¬ call.Fits)
    (hpos : 0 < call.size.val) (hle : call.size.val ≤ maxLength) :
    call.size.val < memLength.val ∧ memLength.val ≤ maxLength := by
  unfold nextLength at h
  split_ifs at h with hneg herrno
  · have hmax : maxLength * 2 ≤ IntegralType.max .uint64 := by decide
    have hdouble : InRange .uint64 (call.size.val * 2) :=
      ⟨(lowest_nonpos _).trans (by omega), by omega⟩
    obtain ⟨hval, hbound⟩ := checkLength_eq_some h hdouble
    omega
  · rw [fits_iff] at hfits
    obtain ⟨hval, hbound⟩ := checkLength_result (not_lt.mp hneg) h
    omega

theorem Calls.Growing.push (h : calls.Growing libc) (count : ℕ) (errno : Num .int32)
    (hlt : calls.latest.size.val < memLength.val) (hle : memLength.val ≤ maxLength) :
    Calls.Growing libc ⟨libc.vsnprintf count memLength errno, calls.all⟩ := by
  have hsize := libc.size_vsnprintf count memLength errno
  have hlatest := h.bounded calls.latest (List.mem_cons_self ..)
  constructor
  · have hearlier : ∀ call ∈ calls.all, call.size.val ≤ calls.latest.size.val := by
      intro call hcall
      rcases List.mem_cons.mp hcall with rfl | hcall
      · rfl
      · exact (List.rel_of_pairwise_cons h.increasing hcall).le
    refine List.pairwise_cons.mpr ⟨fun call hcall => ?_, h.increasing⟩
    rw [hsize]
    exact (hearlier call hcall).trans_lt hlt
  · intro call hcall
    rcases List.mem_cons.mp hcall with rfl | hcall
    · rw [hsize]
      exact ⟨hlatest.1.trans hlt.le, hle⟩
    · exact h.bounded call hcall
  · intro call hcall
    rcases List.mem_cons.mp hcall with rfl | hcall
    · exact ⟨count, errno, by rw [hsize]⟩
    · exact h.made call hcall

theorem growing_stack (libc : Libc α) :
    Calls.Growing libc ⟨libc.vsnprintf 0 stackSize 0, []⟩ := by
  have hsize := libc.size_vsnprintf 0 stackSize 0
  constructor
  · exact List.pairwise_singleton _ _
  · intro call hcall
    rw [List.mem_singleton.mp hcall, hsize]
    exact ⟨le_rfl, by decide⟩
  · intro call hcall
    exact ⟨0, 0, by rw [List.mem_singleton.mp hcall, hsize]⟩

/-- The invariant of the loop is that the calls grow and that the text of the latest did not
fit; what is left of the largest length comes down. -/
theorem retry_progress (libc : Libc α) (dst : List α) (calls : Calls α)
    (h : calls.Growing libc ∧ ¬ calls.latest.Fits) :
    ∃ next, retry libc dst calls = some next ∧
      Progress (fun calls => (maxLength - calls.latest.size.val).toNat)
        (fun calls => calls.Growing libc ∧ ¬ calls.latest.Fits) (Returned libc dst) calls next := by
  obtain ⟨hgrowing, hfits⟩ := h
  have hlatest := hgrowing.bounded calls.latest (List.mem_cons_self ..)
  rw [val_stackSize] at hlatest
  unfold retry
  cases hnext : nextLength libc calls.latest with
  | none => exact ⟨_, rfl, hgrowing, .inr ⟨hnext, rfl⟩⟩
  | some memLength =>
    obtain ⟨hlt, hle⟩ := size_lt_nextLength hnext hfits (by omega) hlatest.2
    have hpush := hgrowing.push calls.all.length calls.latest.errno hlt hle
    dsimp only
    split_ifs with hcall
    · exact ⟨_, rfl, hpush, .inl ⟨hcall, rfl⟩⟩
    · refine ⟨_, rfl, ⟨hpush, hcall⟩, ?_⟩
      dsimp only
      rw [libc.size_vsnprintf]
      omega

/-- The loop ends, and as many turns are enough as there are lengths. -/
theorem stringAppendVT_returns (libc : Libc α) (dst : List α) (errno : Num .int32) :
    ∃ outcome : Outcome α,
      (∀ turns : ℕ, maxLength ≤ turns → stringAppendVT libc turns dst errno = some outcome) ∧
      outcome.errno = errno ∧ Returned libc dst (outcome.dst, outcome.calls) := by
  have hsize := libc.size_vsnprintf 0 stackSize 0
  have hstart := growing_stack libc
  unfold stringAppendVT
  by_cases hfits : (libc.vsnprintf 0 stackSize 0).FitsStack
  · refine ⟨_, fun _ _ => if_pos hfits, rfl, hstart, .inl ⟨(fitsStack_iff hsize).mp hfits, rfl⟩⟩
  · have hloop := loop_of_progress _ _ _ (retry_progress libc dst) ⟨_, []⟩
      ⟨hstart, (fitsStack_iff hsize).not.mp hfits⟩
    obtain ⟨left, hreturned, hloop⟩ := hloop
    refine ⟨⟨left.1, errno, left.2⟩, fun turns hturns => ?_, rfl, hreturned⟩
    have hmax : 0 < maxLength := by decide
    rw [if_neg hfits, hloop turns, Option.map_some]
    dsimp only
    rw [hsize, val_stackSize]
    omega

end Growth

section Text

variable {libc : Libc α} {dst text : List α} {left : List α × Calls α}

/-- A `vsnprintf` that formats to a text: it returns the length of the whole text if that is an
`int`, and in front of the place of the NUL its buffer starts with the text, as far as it goes. -/
structure Libc.Conforms (libc : Libc α) (text : List α) : Prop where
  result : ∀ count size errno, (text.length : ℤ) ≤ IntegralType.max .int32 →
    (libc.vsnprintf count size errno).result.val = text.length
  overflow : ∀ count size errno, IntegralType.max .int32 < text.length →
    (libc.vsnprintf count size errno).result.val < 0
  characters : ∀ count size errno, text.take (size.val.toNat - 1) <+:
    (libc.vsnprintf count size errno).buffer.toList

theorem Libc.Conforms.appendTo (h : libc.Conforms text) (count : ℕ) (size : Num .uint64)
    (errno : Num .int32) (hlt : (text.length : ℤ) < size.val)
    (hle : (text.length : ℤ) ≤ IntegralType.max .int32) :
    (libc.vsnprintf count size errno).appendTo dst = dst ++ text := by
  have hcharacters := h.characters count size errno
  rw [List.take_of_length_le (by omega), List.prefix_iff_eq_take] at hcharacters
  rw [Call.appendTo, h.result count size errno hle, Int.toNat_natCast, ← hcharacters]

theorem Libc.Conforms.fits_iff {call : Call α} (h : libc.Conforms text)
    (hmade : ∃ count errno, call = libc.vsnprintf count call.size errno) :
    call.Fits ↔
      (text.length : ℤ) ≤ IntegralType.max .int32 ∧ (text.length : ℤ) < call.size.val := by
  obtain ⟨count, errno, hcall⟩ := hmade
  rw [StringPrintf.fits_iff]
  by_cases hle : (text.length : ℤ) ≤ IntegralType.max .int32
  · have hresult := h.result count call.size errno hle
    rw [← hcall] at hresult
    omega
  · have hresult := h.overflow count call.size errno (not_le.mp hle)
    rw [← hcall] at hresult
    omega

/-- A text for which there is room among the lengths is not given up. -/
theorem Libc.Conforms.nextLength_ne_none {call : Call α} (h : libc.Conforms text)
    (hmade : ∃ count errno, call = libc.vsnprintf count call.size errno)
    (hle : (text.length : ℤ) + 1 ≤ maxLength) : nextLength libc call ≠ none := by
  obtain ⟨count, errno, hcall⟩ := hmade
  have hmax : maxLength ≤ IntegralType.max .int32 := by decide
  have hresult := h.result count call.size errno (by omega)
  rw [← hcall] at hresult
  have hint : InRange .int32 ((text.length : ℤ) + 1) :=
    ⟨(lowest_nonpos _).trans (by omega), by omega⟩
  have hsize : InRange .uint64 ((text.length : ℤ) + 1) :=
    ⟨(lowest_nonpos _).trans (by omega), hint.2.trans (by decide)⟩
  rw [nextLength, hresult, if_neg (by omega), staticCast_of_inRange hint, checkLength,
    staticCast_of_inRange hsize, if_neg (by omega)]
  exact Option.some_ne_none _

theorem Returned.dst_of_conforms (h : Returned libc dst left) (htext : libc.Conforms text) :
    left.1 = if (text.length : ℤ) + 1 ≤ maxLength then dst ++ text else dst := by
  have hmem : left.2.latest ∈ left.2.all := List.mem_cons_self ..
  have hmade := h.growing.made _ hmem
  have hbounded := h.growing.bounded _ hmem
  rcases h.result with ⟨hfits, hdst⟩ | ⟨hnext, hdst⟩
  · obtain ⟨hle, hlt⟩ := (htext.fits_iff hmade).mp hfits
    obtain ⟨count, errno, hcall⟩ := hmade
    rw [if_pos (by omega), hdst, hcall]
    exact htext.appendTo count _ errno hlt hle
  · rw [hdst, if_neg]
    intro hle
    exact htext.nextLength_ne_none hmade hle hnext

/-- `StringAppendVT` ends, whatever `vsnprintf` does. Each of its calls has a larger buffer than
the one before, the string is left as it is or gets the first characters of the last buffer, and
where `vsnprintf` formats to a text the string gets all of it or nothing. -/
theorem stringAppendVT_all_or_nothing (libc : Libc α) (dst : List α) (errno : Num .int32) :
    ∃ outcome : Outcome α,
      (∀ turns : ℕ, maxLength ≤ turns → stringAppendVT libc turns dst errno = some outcome) ∧
      outcome.errno = errno ∧ outcome.calls.Growing libc ∧
      (outcome.dst = dst ∨ (0 ≤ outcome.calls.latest.result.val ∧
        outcome.calls.latest.result.val < outcome.calls.latest.size.val ∧
        outcome.dst = dst ++ outcome.calls.latest.buffer.toList.take
          outcome.calls.latest.result.val.toNat)) ∧
      ∀ text, libc.Conforms text →
        outcome.dst = if (text.length : ℤ) + 1 ≤ maxLength then dst ++ text else dst := by
  obtain ⟨outcome, hreturns, herrno, hreturned⟩ := stringAppendVT_returns libc dst errno
  refine ⟨outcome, hreturns, herrno, hreturned.growing, ?_, fun text => hreturned.dst_of_conforms⟩
  rcases hreturned.result with ⟨hfits, hdst⟩ | ⟨-, hdst⟩
  · obtain ⟨hnonneg, hlt⟩ := StringPrintf.fits_iff.mp hfits
    exact .inr ⟨hnonneg, hlt, hdst⟩
  · exact .inl hdst

/-- A `vsnprintf` that writes a text and fills the rest of its buffer. -/
def Libc.formatting (text : List α) (fill : α) : Libc α where
  eoverflow := staticCast .int32 75
  vsnprintf _ size _ :=
    { size
      buffer := List.Vector.ofFn fun i => text.getD i fill
      errno := 0
      result := if text.length ≤ IntegralType.max .int32 then staticCast .int32 text.length
        else staticCast .int32 (-1) }
  size_vsnprintf _ _ _ := rfl

theorem conforms_formatting (text : List α) (fill : α) :
    (Libc.formatting text fill).Conforms text := by
  constructor
  · intro count size errno hle
    dsimp only [Libc.formatting]
    rw [if_pos hle, staticCast_of_inRange ⟨(lowest_nonpos _).trans (by omega), hle⟩]
  · intro count size errno hlt
    dsimp only [Libc.formatting]
    rw [if_neg (not_le.mpr hlt)]
    decide
  · intro count size errno
    rw [List.prefix_iff_getElem?]
    intro i hi
    rw [List.length_take] at hi
    dsimp only [Libc.formatting]
    rw [List.Vector.toList_ofFn, List.getElem?_ofFn]
    simp [show i < size.val.toNat by omega, show i < text.length by omega]

/-- A text of 1500 characters does not fit on the stack and is appended as a whole. -/
theorem stringAppendVT_long_text : ∃ outcome : Outcome Char,
    (∀ turns : ℕ, maxLength ≤ turns → stringAppendVT
      (Libc.formatting (List.replicate 1500 'a') 'z') turns ['b'] 0 = some outcome) ∧
    outcome.dst = 'b' :: List.replicate 1500 'a' := by
  obtain ⟨outcome, hreturns, -, -, -, htext⟩ := stringAppendVT_all_or_nothing
    (Libc.formatting (List.replicate 1500 'a') 'z') ['b'] 0
  refine ⟨outcome, hreturns, ?_⟩
  rw [htext _ (conforms_formatting _ _), List.length_replicate, if_pos (by decide)]
  rfl

end Text

end MiniChromium.StringPrintf
