import MiniChromium.CheckedIterators
import MiniChromium.Loops
import MiniChromium.Span

/-!
# What is in a span

A memory has an element at every position, and a span shows those from its first position on.
Spans are compared by means of checked iterators, and `copy_from` copies between pointers after
it has compared the sizes and, in developer builds, the places.
-/
namespace MiniChromium

open IntegralType MiniChromium.Num

namespace CheckedContiguousIterator

/-- `operator==`, with `CheckComparable`. -/
def operatorEq (lhs rhs : CheckedContiguousIterator) : Option Bool :=
  if lhs.start = rhs.start ∧ lhs.end_ = rhs.end_ then some (lhs.current == rhs.current) else none

end CheckedContiguousIterator

/-- A call of `std::copy` is undefined where it would write what it has still to read. -/
inductive CopyOutcome (α : Type)
  | checkFailed
  | undefined
  | done (memory : ℤ → α)

namespace Span

/-- `size`. -/
def size : Span → Size
  | fixed N _ => N
  | dynamic _ size => size

/-- `data`. -/
def data : Span → Size
  | fixed _ data => data
  | dynamic data _ => data

section Code

variable {α β : Type}

/-- `begin`. -/
def begin (s : Span) : Option CheckedContiguousIterator :=
  CheckedContiguousIterator.ofPointers s.data.val s.data.val (s.data.val + s.size.val)

/-- `end`. -/
def end' (s : Span) : Option CheckedContiguousIterator :=
  CheckedContiguousIterator.ofPointers s.data.val (s.data.val + s.size.val)
    (s.data.val + s.size.val)

/-- A turn of the loop of `std::equal`. -/
def equalTurn (equal : α → β → Bool) (memory : ℤ → α) (memory' : ℤ → β)
    (last1 : CheckedContiguousIterator)
    (firsts : CheckedContiguousIterator × CheckedContiguousIterator) :
    Option (Bool ⊕ (CheckedContiguousIterator × CheckedContiguousIterator)) := do
  if ← firsts.1.operatorEq last1 then return .inl true
  else if equal (memory (← firsts.1.dereference)) (memory' (← firsts.2.dereference)) then
    return .inr (← firsts.1.increment, ← firsts.2.increment)
  else return .inl false

/-- `span_cmp`, with the iterators of two spans over any two types of elements. -/
def spanCmp (turns : ℕ) (equal : α → β → Bool) (memory : ℤ → α) (memory' : ℤ → β) (l r : Span) :
    Option Bool :=
  if l.size = r.size then do
    Loops.loop (equalTurn equal memory memory' (← l.end')) turns (← l.begin, ← r.begin)
  else some false

/-- The assignments of `std::copy`. -/
def copyLoop : ℕ → ℤ → ℤ → (ℤ → α) → (ℤ → α)
  | 0, _, _, memory => memory
  | count + 1, first, dFirst, memory =>
    copyLoop count (first + 1) (dFirst + 1) (Function.update memory dFirst (memory first))

/-- `std::copy` between pointers. -/
def stdCopy (first last dFirst : ℤ) (memory : ℤ → α) : CopyOutcome α :=
  if first ≤ dFirst ∧ dFirst < last then .undefined
  else .done (copyLoop (last - first).toNat first dFirst memory)

/-- `size_bytes`. -/
def sizeBytes (sizeofT : Size) (s : Span) : Size := staticCast .uint64 (s.size.val * sizeofT.val)

/-- `copy_from`. -/
def copyFrom (dcheckIsOn : Bool) (sizeofT : Size) (s other : Span) (memory : ℤ → α) :
    CopyOutcome α :=
  if s.sizeBytes sizeofT ≠ other.sizeBytes sizeofT then .checkFailed
  else if dcheckIsOn ∧ ¬(s.data.val + s.size.val ≤ other.data.val ∨
      s.data.val ≥ other.data.val + other.size.val) then .checkFailed
  else stdCopy other.data.val (other.data.val + other.size.val) s.data.val memory

/-- The elements that a span shows. -/
def contents (memory : ℤ → α) (s : Span) : List α :=
  (List.range s.size.val.toNat).map fun i : ℕ => memory (s.data.val + i)

/-- The positions of a span. -/
def Shown (s : Span) (position : ℤ) : Prop :=
  s.data.val ≤ position ∧ position < s.data.val + s.size.val

/-- The memory in which a span shows what the other one did. -/
def copied (memory : ℤ → α) (s other : Span) (position : ℤ) : α :=
  if s.data.val ≤ position ∧ position < s.data.val + s.size.val then
    memory (other.data.val + (position - s.data.val))
  else memory position

end Code

section Compare

variable {α β : Type} {equal : α → β → Bool} {memory : ℤ → α} {memory' : ℤ → β} {l r : Span}

theorem size_nonneg (s : Span) : 0 ≤ s.size.val := s.size.nonneg rfl

/-- The iterator at some element of a span. -/
def iteratorAt (s : Span) (k : ℕ) : CheckedContiguousIterator :=
  ⟨s.data.val, s.data.val + k, s.data.val + s.size.val⟩

theorem begin_eq (s : Span) : s.begin = some (s.iteratorAt 0) := by
  have hsize := s.size_nonneg
  rw [begin, CheckedContiguousIterator.ofPointers, if_pos (by omega), iteratorAt]
  simp

theorem end_eq (s : Span) : s.end' = some (s.iteratorAt s.size.val.toNat) := by
  have hsize := s.size_nonneg
  rw [end', CheckedContiguousIterator.ofPointers, if_pos (by omega), iteratorAt,
    Int.toNat_of_nonneg hsize]

theorem iteratorAt_lt {s : Span} {k : ℕ} (h : k < s.size.val.toNat) :
    (s.iteratorAt k).operatorEq (s.iteratorAt s.size.val.toNat) = some false ∧
      (s.iteratorAt k).dereference = some (s.data.val + k) ∧
      (s.iteratorAt k).increment = some (s.iteratorAt (k + 1)) := by
  have hne : s.data.val + k ≠ s.data.val + s.size.val.toNat := by omega
  have hend : s.data.val + k ≠ s.data.val + s.size.val := by omega
  refine ⟨?_, if_pos hend, ?_⟩
  · rw [CheckedContiguousIterator.operatorEq, if_pos ⟨rfl, rfl⟩]
    exact congrArg some (beq_eq_false_iff_ne.mpr hne)
  · refine (if_pos hend).trans (congrArg some ?_)
    simp [CheckedContiguousIterator.moveBy, iteratorAt, Int.add_assoc]

theorem iteratorAt_end (s : Span) :
    (s.iteratorAt s.size.val.toNat).operatorEq (s.iteratorAt s.size.val.toNat) = some true := by
  rw [CheckedContiguousIterator.operatorEq, if_pos ⟨rfl, rfl⟩, beq_self_eq_true]

/-- A turn compares a pair of elements, or ends the comparison behind the last pair. -/
theorem equalTurn_iteratorAt (hsize : l.size = r.size) {k : ℕ} (hk : k ≤ l.size.val.toNat) :
    equalTurn equal memory memory' (l.iteratorAt l.size.val.toNat)
        (l.iteratorAt k, r.iteratorAt k) =
      some (if k = l.size.val.toNat then .inl true
        else if equal (memory (l.data.val + k)) (memory' (r.data.val + k)) then
          .inr (l.iteratorAt (k + 1), r.iteratorAt (k + 1))
        else .inl false) := by
  rw [equalTurn]
  by_cases hend : k = l.size.val.toNat
  · rw [hend, iteratorAt_end, if_pos rfl]
    rfl
  · have hlt : k < l.size.val.toNat := by omega
    obtain ⟨hl, hlread, hlnext⟩ := iteratorAt_lt hlt
    obtain ⟨-, hrread, hrnext⟩ := iteratorAt_lt (s := r) (hsize ▸ hlt)
    rw [hl, hlread, hrread, hlnext, hrnext, if_neg hend]
    simp only [Option.bind_eq_bind, Option.bind_some, Bool.false_eq_true, if_false]
    split_ifs <;> rfl

theorem forall₂_contents_iff (hsize : l.size = r.size) :
    List.Forall₂ (fun a b => equal a b = true) (contents memory l) (contents memory' r) ↔
      ∀ i < l.size.val.toNat,
        equal (memory (l.data.val + i)) (memory' (r.data.val + i)) = true := by
  rw [contents, contents, ← hsize, List.forall₂_map_left_iff, List.forall₂_map_right_iff,
    List.forall₂_same]
  simp only [List.mem_range]

/-- The iterators of a comparison, and the pairs that are behind them. -/
def Compared (equal : α → β → Bool) (memory : ℤ → α) (memory' : ℤ → β) (l r : Span)
    (firsts : CheckedContiguousIterator × CheckedContiguousIterator) : Prop :=
  ∃ k ≤ l.size.val.toNat, firsts = (l.iteratorAt k, r.iteratorAt k) ∧
    ∀ i < k, equal (memory (l.data.val + i)) (memory' (r.data.val + i)) = true

theorem equalTurn_progress (hsize : l.size = r.size)
    (firsts : CheckedContiguousIterator × CheckedContiguousIterator)
    (h : Compared equal memory memory' l r firsts) :
    ∃ next, equalTurn equal memory memory' (l.iteratorAt l.size.val.toNat) firsts = some next ∧
      Loops.Progress (fun firsts => (l.data.val + l.size.val - firsts.1.current).toNat)
        (Compared equal memory memory' l r)
        (fun b => b = true ↔ List.Forall₂ (fun a b => equal a b = true) (contents memory l)
          (contents memory' r)) firsts next := by
  obtain ⟨k, hk, rfl, hequal⟩ := h
  refine ⟨_, equalTurn_iteratorAt hsize hk, ?_⟩
  split_ifs with hend hpair
  · exact iff_of_true rfl ((forall₂_contents_iff hsize).mpr (hend ▸ hequal))
  · refine ⟨⟨k + 1, by omega, rfl, fun i hi => ?_⟩, ?_⟩
    · obtain hi | rfl := Nat.lt_succ_iff_lt_or_eq.mp hi
      · exact hequal i hi
      · exact hpair
    · simp only [iteratorAt]
      omega
  · exact iff_of_false Bool.false_ne_true fun hall =>
      hpair ((forall₂_contents_iff hsize).mp hall k (by omega))

theorem length_contents (memory : ℤ → α) (s : Span) :
    (contents memory s).length = s.size.val.toNat := by
  rw [contents, List.length_map, List.length_range]

/-- The comparison of two spans fails no check, and finds out whether their elements are equal
in pairs; spans of different lengths are unequal. -/
theorem spanCmp_eq_contents (equal : α → β → Bool) (memory : ℤ → α) (memory' : ℤ → β)
    (l r : Span) :
    ∃ b, (b = true ↔ List.Forall₂ (fun a b => equal a b = true) (contents memory l)
        (contents memory' r)) ∧
      ∀ turns > l.size.val.toNat, spanCmp turns equal memory memory' l r = some b := by
  by_cases hsize : l.size = r.size
  · obtain ⟨b, hb, hturns⟩ := Loops.loop_of_progress _ _ _
      (equalTurn_progress hsize)
      (l.iteratorAt 0, r.iteratorAt 0) ⟨0, Nat.zero_le _, rfl, nofun⟩
    refine ⟨b, hb, fun turns hlt => ?_⟩
    rw [spanCmp, if_pos hsize, begin_eq, begin_eq, end_eq]
    exact hturns turns (by simpa [iteratorAt] using hlt)
  · refine ⟨false, iff_of_false Bool.false_ne_true fun hall => hsize ?_,
      fun turns _ => if_neg hsize⟩
    have hlength := hall.length_eq
    rw [length_contents, length_contents] at hlength
    have hl := l.size_nonneg
    have hr := r.size_nonneg
    exact Num.ext (by omega)

end Compare

section Copy

variable {α : Type} {memory memory' : ℤ → α} {s other s1 s2 other1 other2 : Span}
  {sizeofT n offset : Size} {dcheckIsOn : Bool}

/-- The assignments in turn do what one assignment of all elements would, unless an element is
overwritten before its turn to be read. -/
theorem copyLoop_apply (count : ℕ) {first dFirst : ℤ}
    (h : dFirst ≤ first ∨ first + count ≤ dFirst) (memory : ℤ → α) (position : ℤ) :
    copyLoop count first dFirst memory position =
      if dFirst ≤ position ∧ position < dFirst + count then memory (first + (position - dFirst))
      else memory position := by
  induction count generalizing first dFirst memory with
  | zero => rw [copyLoop, if_neg (by omega)]
  | succ count ih =>
    rw [copyLoop, ih (by omega)]
    by_cases hfirst : position = dFirst
    · rw [if_neg (by omega), if_pos (by omega), hfirst, Function.update_self, sub_self, add_zero]
    · by_cases hin : dFirst + 1 ≤ position ∧ position < dFirst + 1 + count
      · have hread : first + 1 + (position - (dFirst + 1)) = first + (position - dFirst) := by ring
        rw [if_pos hin, if_pos (by omega), hread, Function.update_of_ne (by omega)]
      · rw [if_neg hin, if_neg (by omega), Function.update_of_ne hfirst]

/-- The elements of an array fit into memory. -/
structure Fits (sizeofT n : Size) : Prop where
  pos : 0 < sizeofT.val
  le_max : n.val * sizeofT.val ≤ IntegralType.uint64.max

theorem view_eq (s : Span) : s.view = ⟨s.data.val, s.size.val⟩ := by
  cases s <;> rfl

theorem sizeBytes_val (hfits : Fits sizeofT n) (h : s.view.Inside n.val) :
    (s.sizeBytes sizeofT).val = s.size.val * sizeofT.val := by
  rw [view_eq] at h
  have hle : s.size.val ≤ n.val := by
    have hoffset := h.1
    have hend := h.2.2
    simp only at hoffset hend
    omega
  have hnonneg := hfits.pos.le
  refine staticCast_of_inRange ⟨Int.mul_nonneg h.2.1 hnonneg, ?_⟩
  exact (Int.mul_le_mul_of_nonneg_right hle hnonneg).trans hfits.le_max

theorem sizeBytes_eq_iff (hfits : Fits sizeofT n) (hs : s.view.Inside n.val)
    (hother : other.view.Inside n.val) :
    s.sizeBytes sizeofT = other.sizeBytes sizeofT ↔ s.size = other.size := by
  rw [Num.ext_iff, Num.ext_iff, sizeBytes_val hfits hs, sizeBytes_val hfits hother]
  exact mul_left_inj' hfits.pos.ne'

/-- No element is in both spans. -/
def Apart (s other : Span) : Prop := ∀ position, ¬(s.Shown position ∧ other.Shown position)

theorem apart_iff (hsize : s.size = other.size) :
    s.Apart other ↔ s.data.val + s.size.val ≤ other.data.val ∨
      s.data.val ≥ other.data.val + other.size.val ∨ s.size.val ≤ 0 := by
  rw [← hsize]
  constructor
  · intro hapart
    by_contra hover
    have hfirst := hapart (max s.data.val other.data.val)
    rw [Shown, Shown, ← hsize] at hfirst
    omega
  · rintro hplaces position ⟨hs, hother⟩
    rw [Shown] at hs hother
    rw [← hsize] at hother
    omega

theorem stdCopy_eq (hsize : s.size = other.size)
    (h : ¬(other.data.val ≤ s.data.val ∧ s.data.val < other.data.val + other.size.val)) :
    stdCopy other.data.val (other.data.val + other.size.val) s.data.val memory =
      .done (copied memory s other) := by
  have hnonneg := other.size_nonneg
  have hcount : ((other.size.val.toNat : ℕ) : ℤ) = other.size.val := Int.toNat_of_nonneg hnonneg
  rw [stdCopy, if_neg h, add_sub_cancel_left]
  congr 1
  funext position
  rw [copyLoop_apply _ (by omega), hcount, copied, hsize]

theorem copyFrom_of_size_ne (hfits : Fits sizeofT n) (hs : s.view.Inside n.val)
    (hother : other.view.Inside n.val) (hsize : s.size ≠ other.size) (dcheckIsOn : Bool)
    (memory : ℤ → α) : copyFrom dcheckIsOn sizeofT s other memory = .checkFailed := by
  rw [copyFrom, if_pos]
  rwa [ne_eq, sizeBytes_eq_iff hfits hs hother]

theorem copyFrom_of_size_eq (hfits : Fits sizeofT n) (hs : s.view.Inside n.val)
    (hother : other.view.Inside n.val) (hsize : s.size = other.size) (dcheckIsOn : Bool)
    (memory : ℤ → α) : copyFrom dcheckIsOn sizeofT s other memory =
      if dcheckIsOn ∧ ¬(s.data.val + s.size.val ≤ other.data.val ∨
        s.data.val ≥ other.data.val + other.size.val) then .checkFailed
      else stdCopy other.data.val (other.data.val + other.size.val) s.data.val memory := by
  rw [copyFrom, if_neg (not_not.mpr ((sizeBytes_eq_iff hfits hs hother).mpr hsize))]

theorem contents_copied (hsize : s.size = other.size) (memory : ℤ → α) :
    contents (copied memory s other) s = contents memory other := by
  rw [contents, contents, hsize]
  refine List.map_congr_left fun i hi => ?_
  have hlt := List.mem_range.mp hi
  rw [copied, hsize, if_pos (by omega), add_sub_cancel_left]

/-- `copy_from` checks the sizes, and in developer builds the places. Where it copies, the span
shows what the other one did, and nothing else changes; a span that begins in front of an
overlapping one is copied to correctly where that is not checked. -/
theorem copyFrom_outcome (hfits : Fits sizeofT n) (hs : s.view.Inside n.val)
    (hother : other.view.Inside n.val) (dcheckIsOn : Bool) (memory : ℤ → α) :
    (s.size ≠ other.size → copyFrom dcheckIsOn sizeofT s other memory = .checkFailed) ∧
    (s.size = other.size →
      (s.Apart other →
        copyFrom dcheckIsOn sizeofT s other memory = .done (copied memory s other)) ∧
      (¬s.Apart other →
        copyFrom true sizeofT s other memory = .checkFailed ∧
        copyFrom false sizeofT s other memory =
          if other.data.val ≤ s.data.val then .undefined else .done (copied memory s other)) ∧
      contents (copied memory s other) s = contents memory other) ∧
    ∀ position, ¬s.Shown position → copied memory s other position = memory position := by
  refine ⟨fun hsize => copyFrom_of_size_ne hfits hs hother hsize dcheckIsOn memory,
    fun hsize => ⟨fun hapart => ?_, fun hover => ?_, contents_copied hsize memory⟩,
    fun position hnot => if_neg hnot⟩
  · have hnonneg := other.size_nonneg
    rw [apart_iff hsize, hsize] at hapart
    rw [copyFrom_of_size_eq hfits hs hother hsize, if_neg, stdCopy_eq hsize (by omega)]
    rw [hsize]
    omega
  · have hnonneg := other.size_nonneg
    rw [apart_iff hsize, hsize] at hover
    constructor
    · rw [copyFrom_of_size_eq hfits hs hother hsize, if_pos]
      refine ⟨rfl, ?_⟩
      rw [hsize]
      omega
    · rw [copyFrom_of_size_eq hfits hs hother hsize, if_neg (by simp)]
      split_ifs with hbehind
      · rw [stdCopy, if_pos (by omega)]
      · exact stdCopy_eq hsize (by omega)

/-- Two elements that are moved by one towards the front. -/
theorem copyFrom_outcome_two :
    copyFrom true (staticCast .uint64 4) (dynamic 0 (staticCast .uint64 2))
        (dynamic (staticCast .uint64 1) (staticCast .uint64 2)) (fun position => position) =
      .checkFailed ∧
    copyFrom false (staticCast .uint64 4) (dynamic 0 (staticCast .uint64 2))
        (dynamic (staticCast .uint64 1) (staticCast .uint64 2)) (fun position => position) =
      .done (copied (fun position => position) (dynamic 0 (staticCast .uint64 2))
        (dynamic (staticCast .uint64 1) (staticCast .uint64 2))) :=
  have hfits : Fits (staticCast .uint64 4) (staticCast .uint64 3) := ⟨by decide, by decide⟩
  have hs : (dynamic 0 (staticCast .uint64 2)).view.Inside (staticCast .uint64 3 : Size).val :=
    ⟨by decide, by decide, by decide⟩
  have hother : (dynamic (staticCast .uint64 1) (staticCast .uint64 2)).view.Inside
      (staticCast .uint64 3 : Size).val := ⟨by decide, by decide, by decide⟩
  have h := (copyFrom_outcome hfits hs hother true (fun position => position)).2.1 rfl
  have hover := h.2.1 fun hapart => hapart 1 ⟨⟨by decide, by decide⟩, ⟨by decide, by decide⟩⟩
  ⟨hover.1, hover.2.trans (if_neg (by decide))⟩

/-- Both halves of a span lie in it, one behind the other. -/
theorem splitAt_views (hs : s.view.Inside n.val) {form : Form}
    (h : (s1, s2) ∈ (s.splitAt form offset).value) :
    offset.val ≤ s.size.val ∧ s1.data.val = s.data.val ∧ s1.size.val = offset.val ∧
      s2.data.val = s.data.val + offset.val ∧ s2.size.val = s.size.val - offset.val := by
  have hviews := (showsHalves_splitAt hs form offset).2
  rw [Option.mem_def.mp h, Option.map_some, halves, eq_comm,
    Option.ite_none_right_eq_some] at hviews
  obtain ⟨hle, hpair⟩ := hviews
  rw [view_eq] at hle hpair
  simp only [Option.some.injEq, Prod.map_apply, Prod.mk.injEq, view_eq, View.mk.injEq] at hpair
  obtain ⟨⟨hdata1, hsize1⟩, hdata2, hsize2⟩ := hpair
  exact ⟨hle, hdata1.symm, hsize1.symm, hdata2.symm, hsize2.symm⟩

theorem copyFrom_eq_done_iff (hfits : Fits sizeofT n) (hs : s.view.Inside n.val)
    (hother : other.view.Inside n.val) :
    copyFrom dcheckIsOn sizeofT s other memory = .done memory' ↔ s.size = other.size ∧
      (dcheckIsOn = true → s.data.val + s.size.val ≤ other.data.val ∨
        s.data.val ≥ other.data.val + other.size.val) ∧
      ¬(other.data.val ≤ s.data.val ∧ s.data.val < other.data.val + other.size.val) ∧
      memory' = copied memory s other := by
  by_cases hsize : s.size = other.size
  · rw [copyFrom_of_size_eq hfits hs hother hsize]
    by_cases hcheck : dcheckIsOn = true ∧ ¬(s.data.val + s.size.val ≤ other.data.val ∨
        s.data.val ≥ other.data.val + other.size.val)
    · rw [if_pos hcheck]
      exact iff_of_false nofun fun h => hcheck.2 (h.2.1 hcheck.1)
    · rw [if_neg hcheck]
      rw [not_and, not_not] at hcheck
      by_cases hbehind : other.data.val ≤ s.data.val ∧ s.data.val < other.data.val + other.size.val
      · rw [stdCopy, if_pos hbehind]
        exact iff_of_false nofun fun h => h.2.2.1 hbehind
      · rw [stdCopy_eq hsize hbehind, CopyOutcome.done.injEq]
        exact ⟨fun h => ⟨hsize, hcheck, hbehind, h.symm⟩, fun h => h.2.2.2.symm⟩
  · rw [copyFrom_of_size_ne hfits hs hother hsize]
    exact iff_of_false nofun fun h => hsize h.1

/-- Where a copy is made, that of the first half and then that of the second half are made, and
together they do the same. -/
theorem copyFrom_halves (hfits : Fits sizeofT n) (hs : s.view.Inside n.val)
    (hother : other.view.Inside n.val)
    (hdone : copyFrom dcheckIsOn sizeofT s other memory = .done memory')
    {form form' : Form} (h : (s1, s2) ∈ (s.splitAt form offset).value)
    (h' : (other1, other2) ∈ (other.splitAt form' offset).value) :
    ∃ half, copyFrom dcheckIsOn sizeofT s1 other1 memory = .done half ∧
      copyFrom dcheckIsOn sizeofT s2 other2 half = .done memory' := by
  have hoffset := offset.nonneg rfl
  obtain ⟨hle, hdata1, hsize1, hdata2, hsize2⟩ := splitAt_views hs h
  obtain ⟨hle', hdata1', hsize1', hdata2', hsize2'⟩ := splitAt_views hother h'
  obtain ⟨hsize, hcheck, hbehind, rfl⟩ := (copyFrom_eq_done_iff hfits hs hother).mp hdone
  have hval := congrArg Num.val hsize
  rw [view_eq] at hs hother
  simp only [View.Inside] at hs hother
  have hinside : s1.view.Inside n.val ∧ s2.view.Inside n.val ∧ other1.view.Inside n.val ∧
      other2.view.Inside n.val := by
    simp only [view_eq, View.Inside]
    omega
  obtain ⟨hs1, hs2, hother1, hother2⟩ := hinside
  refine ⟨copied memory s1 other1, (copyFrom_eq_done_iff hfits hs1 hother1).mpr
    ⟨Num.ext (by omega), fun hon => ?_, by omega, rfl⟩, (copyFrom_eq_done_iff hfits hs2 hother2).mpr
    ⟨Num.ext (by omega), fun hon => ?_, by omega, ?_⟩⟩
  · have := hcheck hon
    omega
  · have := hcheck hon
    omega
  · funext position
    rw [copied, copied]
    by_cases hsecond : s2.data.val ≤ position ∧ position < s2.data.val + s2.size.val
    · have hread : other2.data.val + (position - s2.data.val) =
          other.data.val + (position - s.data.val) := by omega
      rw [if_pos hsecond, if_pos (by omega), hread, copied, if_neg (by omega)]
    · rw [if_neg hsecond, copied]
      by_cases hfirst : s1.data.val ≤ position ∧ position < s1.data.val + s1.size.val
      · rw [if_pos hfirst, if_pos (by omega), hdata1, hdata1']
      · rw [if_neg hfirst, if_neg (by omega)]

/-- Of two elements and two others, one at a time. -/
theorem copyFrom_halves_two : ∃ half,
    copyFrom true (staticCast .uint64 4) (dynamic 0 (staticCast .uint64 1))
        (dynamic (staticCast .uint64 2) (staticCast .uint64 1)) (fun position => position) =
      .done half ∧
    copyFrom true (staticCast .uint64 4)
        (dynamic (staticCast .uint64 1) (staticCast .uint64 1))
        (dynamic (staticCast .uint64 3) (staticCast .uint64 1)) half =
      .done (copied (fun position => position) (dynamic 0 (staticCast .uint64 2))
        (dynamic (staticCast .uint64 2) (staticCast .uint64 2))) :=
  have hfits : Fits (staticCast .uint64 4) (staticCast .uint64 4) := ⟨by decide, by decide⟩
  have hs : (dynamic 0 (staticCast .uint64 2)).view.Inside (staticCast .uint64 4 : Size).val :=
    ⟨by decide, by decide, by decide⟩
  have hother : (dynamic (staticCast .uint64 2) (staticCast .uint64 2)).view.Inside
      (staticCast .uint64 4 : Size).val := ⟨by decide, by decide, by decide⟩
  have hsplit : (dynamic 0 (staticCast .uint64 1),
      dynamic (staticCast .uint64 1) (staticCast .uint64 1)) ∈
      ((dynamic 0 (staticCast .uint64 2)).splitAt .call (staticCast .uint64 1)).value := rfl
  have hsplit' : (dynamic (staticCast .uint64 2) (staticCast .uint64 1),
      dynamic (staticCast .uint64 3) (staticCast .uint64 1)) ∈ ((dynamic (staticCast .uint64 2)
        (staticCast .uint64 2)).splitAt .call (staticCast .uint64 1)).value := rfl
  copyFrom_halves hfits hs hother ((copyFrom_eq_done_iff hfits hs hother).mpr
    ⟨rfl, fun _ => .inl (by decide), by decide, rfl⟩) hsplit hsplit'

end Copy

end Span

end MiniChromium
