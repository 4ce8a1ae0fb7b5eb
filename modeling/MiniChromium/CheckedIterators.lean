import MiniChromium.IntegralType

/-!
# Hardened iterators

`CheckedContiguousIterator` keeps the range it may move in and checks every step. A
pointer is the position it points to, counted in elements, and moves as the abstract
machine moves it; differences and offsets are 64 bits wide and wrap. A failed `CHECK`
has no result.
-/
namespace MiniChromium

open IntegralType MiniChromium.Num

/-- `CheckedContiguousIterator`. -/
@[ext] structure CheckedContiguousIterator where
  start : ℤ
  current : ℤ
  end_ : ℤ
  deriving DecidableEq, Repr

/-- What an operator does: the iterator it is called on, as it leaves it, the iterator
it returns, and the position of the element it gives access to. -/
structure IteratorEffect where
  self : CheckedContiguousIterator
  value : CheckedContiguousIterator
  accessed : Option ℤ := none

/-- The operators that move an iterator or read through it. -/
inductive IteratorOperation
  | increment | postIncrement | decrement | postDecrement
  | addAssign (rhs : Num .int64) | subAssign (rhs : Num .int64)
  | add (rhs : Num .int64) | sub (rhs : Num .int64)
  | dereference | arrow | subscript (rhs : Num .int64)
  deriving DecidableEq

namespace CheckedContiguousIterator

/-- The difference of two pointers, a `difference_type`. -/
def difference (p q : ℤ) : Num .int64 := staticCast .int64 (p - q)

/-- The constructor from three pointers. -/
def ofPointers (start current end_ : ℤ) : Option CheckedContiguousIterator :=
  if start ≤ current ∧ current ≤ end_ then some ⟨start, current, end_⟩ else none

def moveBy (it : CheckedContiguousIterator) (n : ℤ) : CheckedContiguousIterator :=
  { it with current := it.current + n }

/-- `operator++`. -/
def increment (it : CheckedContiguousIterator) : Option CheckedContiguousIterator :=
  if it.current ≠ it.end_ then some (it.moveBy 1) else none

/-- `operator--`. -/
def decrement (it : CheckedContiguousIterator) : Option CheckedContiguousIterator :=
  if it.current ≠ it.start then some (it.moveBy (-1)) else none

/-- `operator+=`. The bound to check is chosen by the sign of the offset. -/
def addAssign (it : CheckedContiguousIterator) (rhs : Num .int64) :
    Option CheckedContiguousIterator :=
  if rhs.val > 0 then
    if rhs.val ≤ (difference it.end_ it.current).val then some (it.moveBy rhs.val) else none
  else if (staticCast .int64 (-rhs.val)).val ≤ (difference it.current it.start).val then
    some (it.moveBy rhs.val)
  else none

/-- `operator-=`. -/
def subAssign (it : CheckedContiguousIterator) (rhs : Num .int64) :
    Option CheckedContiguousIterator :=
  if rhs.val < 0 then
    if (staticCast .int64 (-rhs.val)).val ≤ (difference it.end_ it.current).val then
      some (it.moveBy (-rhs.val))
    else none
  else if rhs.val ≤ (difference it.current it.start).val then some (it.moveBy (-rhs.val))
  else none

/-- `operator*` and `operator->`: the position of the element. -/
def dereference (it : CheckedContiguousIterator) : Option ℤ :=
  if it.current ≠ it.end_ then some it.current else none

/-- `operator[]`. -/
def subscript (it : CheckedContiguousIterator) (rhs : Num .int64) : Option ℤ :=
  if rhs.val ≥ 0 ∧ rhs.val < (difference it.end_ it.current).val then
    some (it.current + rhs.val)
  else none

/-- An operator on an iterator. The postfix operators return the old iterator, the
binary ones a new one, and the others the iterator itself. -/
def apply (it : CheckedContiguousIterator) : IteratorOperation → Option IteratorEffect
  | .increment => it.increment.map fun it' => ⟨it', it', none⟩
  | .postIncrement => it.increment.map fun it' => ⟨it', it, none⟩
  | .decrement => it.decrement.map fun it' => ⟨it', it', none⟩
  | .postDecrement => it.decrement.map fun it' => ⟨it', it, none⟩
  | .addAssign rhs => (it.addAssign rhs).map fun it' => ⟨it', it', none⟩
  | .subAssign rhs => (it.subAssign rhs).map fun it' => ⟨it', it', none⟩
  | .add rhs => (it.addAssign rhs).map fun it' => ⟨it, it', none⟩
  | .sub rhs => (it.subAssign rhs).map fun it' => ⟨it, it', none⟩
  | .dereference => it.dereference.map fun p => ⟨it, it, some p⟩
  | .arrow => it.dereference.map fun p => ⟨it, it, some p⟩
  | .subscript rhs => (it.subscript rhs).map fun p => ⟨it, it, some p⟩

/-- A sequence of operators, each on the iterator that the one before left or on the one
that it returned. -/
def run (it : CheckedContiguousIterator) :
    List (IteratorOperation × Bool) → Option (List IteratorEffect)
  | [] => some []
  | (operation, returned) :: operations =>
    (it.apply operation).bind fun effect =>
      ((if returned then effect.value else effect.self).run operations).map (effect :: ·)

/-- The iterator is inside its range. -/
def InRange (it : CheckedContiguousIterator) : Prop :=
  it.start ≤ it.current ∧ it.current ≤ it.end_

/-- The iterator is inside the range of `it`. -/
def Within (it it' : CheckedContiguousIterator) : Prop :=
  it'.start = it.start ∧ it'.end_ = it.end_ ∧ it'.InRange

/-- What an operator leaves and returns is inside the range of `it`, and the element it
gives access to is one of the range. -/
structure Safe (it : CheckedContiguousIterator) (effect : IteratorEffect) : Prop where
  self : it.Within effect.self
  value : it.Within effect.value
  accessed : ∀ p ∈ effect.accessed, it.start ≤ p ∧ p < it.end_

end CheckedContiguousIterator

/-- The offset is the one whose negation wraps. -/
def IteratorOperation.MovesByMinimum : IteratorOperation → Prop
  | .addAssign rhs | .subAssign rhs | .add rhs | .sub rhs => rhs.val = IntegralType.int64.lowest
  | _ => False

instance : DecidablePred IteratorOperation.MovesByMinimum := fun operation => by
  cases operation <;> unfold IteratorOperation.MovesByMinimum <;> infer_instance

namespace CheckedContiguousIterator

variable {it it' : CheckedContiguousIterator} {rhs : Num .int64}

theorem Within.trans {a b c : CheckedContiguousIterator} (h : a.Within b) (h' : b.Within c) :
    a.Within c :=
  ⟨h'.1.trans h.1, h'.2.1.trans h.2.1, h'.2.2⟩

theorem Within.symm {a b : CheckedContiguousIterator} (ha : a.InRange) (h : a.Within b) :
    b.Within a :=
  ⟨h.1.symm, h.2.1.symm, ha⟩

/-- Only the range matters, not where the iterator is in it. -/
theorem Within.safe {a b : CheckedContiguousIterator} {effect : IteratorEffect} (h : a.Within b)
    (hs : b.Safe effect) : a.Safe effect :=
  ⟨h.trans hs.self, h.trans hs.value, by rw [← h.1, ← h.2.1]; exact hs.accessed⟩

/-- The constructor checks the invariant. -/
theorem ofPointers_inRange {start current end_ : ℤ} (h : ofPointers start current end_ = some it) :
    it.InRange := by
  unfold ofPointers at h
  split_ifs at h with hle
  obtain rfl := Option.some.inj h
  exact hle

theorem within_moveBy_iff {n : ℤ} :
    it.Within (it.moveBy n) ↔ it.start ≤ it.current + n ∧ it.current + n ≤ it.end_ := by
  simp [Within, InRange, moveBy]

/-- A difference that does not fit wraps downwards. -/
theorem difference_le {p q : ℤ} (h : q ≤ p) : (difference p q).val ≤ p - q := by
  have hlow : IntegralType.int64.lowest ≤ p - q :=
    IntegralType.int64.lowest_nonpos.trans (sub_nonneg.mpr h)
  exact BoundedInt.wrap_le IntegralType.int64.modulus_pos hlow

/-- The negation of every offset but the minimum is exact. -/
theorem val_negate (h : rhs.val ≠ IntegralType.int64.lowest) :
    (staticCast .int64 (-rhs.val)).val = -rhs.val := by
  have hl := rhs.lowest_le
  have hu := rhs.le_max
  have hlow : IntegralType.int64.lowest = -IntegralType.int64.max - 1 := rfl
  exact staticCast_of_inRange ⟨by omega, by omega⟩

theorem val_negate_minimum (h : rhs.val = IntegralType.int64.lowest) :
    (staticCast .int64 (-rhs.val)).val = IntegralType.int64.lowest := by
  rw [h]
  decide

theorem increment_within (hit : it.InRange) (h : it.increment = some it') : it.Within it' := by
  unfold increment at h
  split_ifs at h with hne
  obtain rfl := Option.some.inj h
  unfold InRange at hit
  exact within_moveBy_iff.mpr (by omega)

theorem decrement_within (hit : it.InRange) (h : it.decrement = some it') : it.Within it' := by
  unfold decrement at h
  split_ifs at h with hne
  obtain rfl := Option.some.inj h
  unfold InRange at hit
  exact within_moveBy_iff.mpr (by omega)

theorem addAssign_within (hit : it.InRange) (hrhs : rhs.val ≠ IntegralType.int64.lowest)
    (h : it.addAssign rhs = some it') : it.Within it' := by
  have hstart := difference_le hit.1
  have hend := difference_le hit.2
  unfold addAssign at h
  rw [val_negate hrhs] at h
  unfold InRange at hit
  split_ifs at h <;> obtain rfl := Option.some.inj h <;> exact within_moveBy_iff.mpr (by omega)

theorem subAssign_within (hit : it.InRange) (hrhs : rhs.val ≠ IntegralType.int64.lowest)
    (h : it.subAssign rhs = some it') : it.Within it' := by
  have hstart := difference_le hit.1
  have hend := difference_le hit.2
  unfold subAssign at h
  rw [val_negate hrhs] at h
  unfold InRange at hit
  split_ifs at h <;> obtain rfl := Option.some.inj h <;> exact within_moveBy_iff.mpr (by omega)

theorem dereference_mem {p : ℤ} (hit : it.InRange) (h : it.dereference = some p) :
    it.start ≤ p ∧ p < it.end_ := by
  unfold dereference at h
  split_ifs at h with hne
  obtain rfl := Option.some.inj h
  unfold InRange at hit
  omega

theorem subscript_mem {p : ℤ} (hit : it.InRange) (h : it.subscript rhs = some p) :
    it.start ≤ p ∧ p < it.end_ := by
  have hend := difference_le hit.2
  unfold subscript at h
  split_ifs at h with hrhs
  obtain rfl := Option.some.inj h
  unfold InRange at hit
  omega

/-- One operator keeps to the range, unless its offset is the minimum. -/
theorem apply_safe {operation : IteratorOperation} {effect : IteratorEffect} (hit : it.InRange)
    (hmin : ¬operation.MovesByMinimum) (h : it.apply operation = some effect) :
    it.Safe effect := by
  have hself : it.Within it := ⟨rfl, rfl, hit⟩
  cases operation <;> obtain ⟨r, hr, rfl⟩ := Option.map_eq_some_iff.mp h
  case increment => exact ⟨increment_within hit hr, increment_within hit hr, by simp⟩
  case postIncrement => exact ⟨increment_within hit hr, hself, by simp⟩
  case decrement => exact ⟨decrement_within hit hr, decrement_within hit hr, by simp⟩
  case postDecrement => exact ⟨decrement_within hit hr, hself, by simp⟩
  case addAssign => exact ⟨addAssign_within hit hmin hr, addAssign_within hit hmin hr, by simp⟩
  case subAssign => exact ⟨subAssign_within hit hmin hr, subAssign_within hit hmin hr, by simp⟩
  case add => exact ⟨hself, addAssign_within hit hmin hr, by simp⟩
  case sub => exact ⟨hself, subAssign_within hit hmin hr, by simp⟩
  case dereference => exact ⟨hself, hself, by simpa using dereference_mem hit hr⟩
  case arrow => exact ⟨hself, hself, by simpa using dereference_mem hit hr⟩
  case subscript => exact ⟨hself, hself, by simpa using subscript_mem hit hr⟩

/-- An offset that is the minimum passes its check and leaves every range whose length
is a `difference_type`. -/
theorem not_safe_of_movesByMinimum {operation : IteratorOperation} {effect : IteratorEffect}
    (hit : it.InRange) (hlength : it.end_ - it.start ≤ IntegralType.int64.max)
    (hmin : operation.MovesByMinimum) (h : it.apply operation = some effect) :
    ¬it.Safe effect := by
  have hlow : IntegralType.int64.lowest = -IntegralType.int64.max - 1 := rfl
  have hneg : ¬IntegralType.int64.lowest > 0 := by decide
  unfold InRange at hit
  have hadd : ∀ {rhs : Num .int64} {it'}, rhs.val = IntegralType.int64.lowest →
      it.addAssign rhs = some it' → ¬it.Within it' := by
    intro rhs it' hrhs h
    unfold addAssign at h
    rw [val_negate_minimum hrhs, hrhs, if_neg hneg] at h
    split_ifs at h
    obtain rfl := Option.some.inj h
    rw [within_moveBy_iff]
    omega
  have hsub : ∀ {rhs : Num .int64} {it'}, rhs.val = IntegralType.int64.lowest →
      it.subAssign rhs = some it' → ¬it.Within it' := by
    intro rhs it' hrhs h
    unfold subAssign at h
    rw [val_negate_minimum hrhs, hrhs, if_pos (by decide)] at h
    split_ifs at h
    obtain rfl := Option.some.inj h
    rw [within_moveBy_iff]
    omega
  cases operation <;> obtain ⟨r, hr, rfl⟩ := Option.map_eq_some_iff.mp h
  case addAssign => exact fun hs => hadd hmin hr hs.value
  case subAssign => exact fun hs => hsub hmin hr hs.value
  case add => exact fun hs => hadd hmin hr hs.value
  case sub => exact fun hs => hsub hmin hr hs.value
  all_goals exact hmin.elim

/-- A sequence of operators that fails no check keeps to the range if no offset is the
minimum, and over a range whose length is a `difference_type` only then. The second half is
about pointers of the abstract machine, which do not wrap around. -/
theorem run_safe_iff (hit : it.InRange) {operations : List (IteratorOperation × Bool)}
    {effects : List IteratorEffect} (h : it.run operations = some effects) :
    ((∀ operation ∈ operations, ¬operation.1.MovesByMinimum) →
      ∀ effect ∈ effects, it.Safe effect) ∧
    (it.end_ - it.start ≤ IntegralType.int64.max → (∀ effect ∈ effects, it.Safe effect) →
      ∀ operation ∈ operations, ¬operation.1.MovesByMinimum) := by
  induction operations generalizing it effects with
  | nil =>
    obtain rfl := Option.some.inj h
    simp
  | cons head operations ih =>
    obtain ⟨operation, returned⟩ := head
    obtain ⟨effect, heffect, h⟩ := Option.bind_eq_some_iff.mp h
    obtain ⟨rest, hrest, rfl⟩ := Option.map_eq_some_iff.mp h
    have hnext : it.Safe effect → it.Within (if returned then effect.value else effect.self) := by
      intro hs
      cases returned with
      | true => exact hs.value
      | false => exact hs.self
    constructor
    · intro hmin
      have hs := apply_safe hit (hmin _ List.mem_cons_self) heffect
      have hafter := (ih (hnext hs).2.2 hrest).1 fun o ho => hmin o (List.mem_cons_of_mem _ ho)
      intro e he
      rcases List.mem_cons.mp he with rfl | he
      · exact hs
      · exact (hnext hs).safe (hafter e he)
    · intro hlength hsafe
      have hs := hsafe _ List.mem_cons_self
      have hw := hnext hs
      have hafter := (ih hw.2.2 hrest).2 (by rw [hw.1, hw.2.1]; exact hlength)
        fun e he => (hw.symm hit).safe (hsafe e (List.mem_cons_of_mem _ he))
      intro o ho
      rcases List.mem_cons.mp ho with rfl | ho
      · exact fun hmin => not_safe_of_movesByMinimum hit hlength hmin heffect hs
      · exact hafter o ho

/-- A walk over a range of three elements that fails no check. -/
theorem run_safe_iff_three :
    ∃ effects, (⟨0, 0, 3⟩ : CheckedContiguousIterator).run
        [(.increment, false), (.add ⟨2, by decide⟩, true), (.subAssign ⟨3, by decide⟩, false),
          (.subscript ⟨2, by decide⟩, false)] = some effects ∧
      ∀ effect ∈ effects, (⟨0, 0, 3⟩ : CheckedContiguousIterator).Safe effect := by
  obtain ⟨effects, h⟩ := Option.isSome_iff_exists.mp (show ((⟨0, 0, 3⟩ :
    CheckedContiguousIterator).run [(.increment, false), (.add ⟨2, by decide⟩, true),
      (.subAssign ⟨3, by decide⟩, false), (.subscript ⟨2, by decide⟩, false)]).isSome from rfl)
  exact ⟨effects, h, (run_safe_iff ⟨by decide, by decide⟩ h).1 (by decide)⟩

/-- `+= INT64_MIN` at the start of a range of one element passes its check. -/
theorem run_leaves_range :
    ∃ effects, (⟨0, 0, 1⟩ : CheckedContiguousIterator).run
        [(.addAssign ⟨-2 ^ 63, by decide⟩, false)] = some effects ∧
      ¬∀ effect ∈ effects, (⟨0, 0, 1⟩ : CheckedContiguousIterator).Safe effect := by
  refine ⟨_, rfl, fun h => ?_⟩
  have hw := (h _ List.mem_cons_self).self.2.2.1
  exact absurd hw (by decide)

end CheckedContiguousIterator

end MiniChromium
