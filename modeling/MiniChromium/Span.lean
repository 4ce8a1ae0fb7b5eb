import MiniChromium.TracedArithmetic

/-!
# Spans

A span is a part of an array: where it begins, counted in elements, and its length, which the
type fixes or the value carries. Every method that makes a smaller span checks that it lies in
the larger one; a method with template arguments has a `requires` clause or a `CHECK` for it.
-/
namespace MiniChromium

open IntegralType MiniChromium.Num

abbrev Size := Num .uint64

/-- `dynamic_extent`. -/
def dynamicExtent : Size := maxValue .uint64

/-- `span<T, N>` and `span<T, dynamic_extent>`. -/
inductive Span
  | fixed (N : {N : Size // N ≠ dynamicExtent}) (data : Size)
  | dynamic (data size : Size)

/-- Whether the arguments of a method are those of the call or of the template. -/
inductive Form
  | call | template

/-- The elements from an offset on. -/
@[ext] structure View where
  offset : ℤ
  length : ℤ
  deriving DecidableEq

namespace Span

section Code

/-- The constructor `span<T, Extent>(data, count)`. -/
def ofPointer (extent data count : Size) : Traced Span :=
  if h : extent ≠ dynamicExtent then do
    Traced.check (extent = count)
    return .fixed ⟨extent, h⟩ data
  else return .dynamic data count

/-- `first` on `size` elements, for a span of some extent. -/
def firstOf (data size extent count : Size) : Traced Span := do
  Traced.check (count.val ≤ size.val)
  ofPointer extent data count

/-- `last`. -/
def lastOf (data size extent count : Size) : Traced Span := do
  Traced.check (count.val ≤ size.val)
  let skipped ← Traced.compute .uint64 (size.val - count.val)
  let data' ← Traced.compute .uint64 (data.val + skipped.val)
  ofPointer extent data' count

/-- `subspan`, for a span whose extent depends on the one that it computes. -/
def subspanOf (data size : Size) (extent : Size → Size) (offset count : Size) : Traced Span := do
  Traced.check (offset.val ≤ size.val)
  if count ≠ dynamicExtent then
    let rest ← Traced.compute .uint64 (size.val - offset.val)
    Traced.check (count.val ≤ rest.val)
  let newExtent ← if count ≠ dynamicExtent then pure count
    else Traced.compute .uint64 (size.val - offset.val)
  let data' ← Traced.compute .uint64 (data.val + offset.val)
  ofPointer (extent newExtent) data' newExtent

/-- `first`; with `Form.template` it is `first<Count>`. -/
def first (s : Span) (form : Form) (count : Size) : Traced Span :=
  match s, form with
  | fixed N data, .call => firstOf data N dynamicExtent count
  | fixed N data, .template => firstOf data N count count
  | dynamic data size, .call => firstOf data size dynamicExtent count
  | dynamic data size, .template => firstOf data size count count

/-- `last`. -/
def last (s : Span) (form : Form) (count : Size) : Traced Span :=
  match s, form with
  | fixed N data, .call => lastOf data N dynamicExtent count
  | fixed N data, .template => lastOf data N count count
  | dynamic data size, .call => lastOf data size dynamicExtent count
  | dynamic data size, .template => lastOf data size count count

/-- `subspan`. Of a fixed size, `subspan<Offset, Count>` has the extent that it computes; of a
dynamic one it has `Count`. -/
def subspan (s : Span) (form : Form) (offset count : Size) : Traced Span :=
  match s, form with
  | fixed N data, .call => subspanOf data N (fun _ => dynamicExtent) offset count
  | fixed N data, .template => subspanOf data N id offset count
  | dynamic data size, .call => subspanOf data size (fun _ => dynamicExtent) offset count
  | dynamic data size, .template => subspanOf data size (fun _ => count) offset count

/-- `split_at`. -/
def splitAt (s : Span) (form : Form) (offset : Size) : Traced (Span × Span) :=
  match s, form with
  | s, .call => do return (← s.first .call offset, ← s.subspan .call offset dynamicExtent)
  | fixed N data, .template => do
    Traced.check (offset.val ≤ N.val.val)
    let rest ← Traced.compute .uint64 (N.val.val - offset.val)
    return (← (fixed N data).first .template offset,
      ← (fixed N data).subspan .template offset rest)
  | dynamic data size, .template => do
    Traced.check (offset.val ≤ size.val)
    return (← (dynamic data size).first .template offset,
      ← (dynamic data size).subspan .call offset dynamicExtent)

/-- A link of a chain; of the two halves of a split one is used. -/
inductive Operation
  | first (form : Form) (count : Size)
  | last (form : Form) (count : Size)
  | subspan (form : Form) (offset count : Size)
  | splitAt (form : Form) (offset : Size) (second : Bool)

def apply (s : Span) : Operation → Traced Span
  | .first form count => s.first form count
  | .last form count => s.last form count
  | .subspan form offset count => s.subspan form offset count
  | .splitAt form offset second => do
    let halves ← s.splitAt form offset
    return if second then halves.2 else halves.1

def chain (s : Span) : List Operation → Traced Span
  | [] => return s
  | operation :: operations => do
    let s' ← s.apply operation
    s'.chain operations

def view : Span → View
  | fixed N data => ⟨data.val, N.val.val⟩
  | dynamic data size => ⟨data.val, size.val⟩

end Code

end Span

namespace View

/-- Within the first `n` elements. -/
def Inside (n : ℤ) (v : View) : Prop := 0 ≤ v.offset ∧ 0 ≤ v.length ∧ v.offset + v.length ≤ n

/-- What an operation makes of a view, if the view is large enough. -/
def apply (v : View) : Span.Operation → Option View
  | .first _ count => if count.val ≤ v.length then some ⟨v.offset, count.val⟩ else none
  | .last _ count =>
    if count.val ≤ v.length then some ⟨v.offset + (v.length - count.val), count.val⟩ else none
  | .subspan _ offset count =>
    if offset.val ≤ v.length ∧ (count = dynamicExtent ∨ offset.val + count.val ≤ v.length) then
      some ⟨v.offset + offset.val,
        if count = dynamicExtent then v.length - offset.val else count.val⟩
    else none
  | .splitAt _ offset second =>
    if offset.val ≤ v.length then
      some (if second then ⟨v.offset + offset.val, v.length - offset.val⟩
        else ⟨v.offset, offset.val⟩)
    else none

variable {n : ℤ} {v v' : View} {operation : Span.Operation}

theorem inside_apply (h : v.Inside n) (happly : v' ∈ v.apply operation) : v'.Inside n := by
  obtain ⟨hoffset, hlength, hend⟩ := h
  have hnonneg : ∀ x : Size, 0 ≤ x.val := fun x => x.nonneg rfl
  cases operation with
  | first form count =>
    have hcount := hnonneg count
    simp only [apply, Option.mem_def, Option.ite_none_right_eq_some, Option.some.injEq] at happly
    obtain ⟨hle, rfl⟩ := happly
    exact ⟨hoffset, hcount, by simp only; omega⟩
  | last form count =>
    have hcount := hnonneg count
    simp only [apply, Option.mem_def, Option.ite_none_right_eq_some, Option.some.injEq] at happly
    obtain ⟨hle, rfl⟩ := happly
    refine ⟨?_, hcount, ?_⟩ <;> simp only <;> omega
  | subspan form offset count =>
    have hoffset' := hnonneg offset
    have hcount := hnonneg count
    simp only [apply, Option.mem_def, Option.ite_none_right_eq_some, Option.some.injEq] at happly
    obtain ⟨⟨hle, hrest⟩, rfl⟩ := happly
    by_cases hextent : count = dynamicExtent
    · rw [if_pos hextent]
      refine ⟨?_, ?_, ?_⟩ <;> simp only <;> omega
    · have hend' := hrest.resolve_left hextent
      rw [if_neg hextent]
      refine ⟨?_, hcount, ?_⟩ <;> simp only <;> omega
  | splitAt form offset second =>
    have hoffset' := hnonneg offset
    simp only [apply, Option.mem_def, Option.ite_none_right_eq_some, Option.some.injEq] at happly
    obtain ⟨hle, rfl⟩ := happly
    cases second with
    | true => refine ⟨?_, ?_, ?_⟩ <;> simp <;> omega
    | false => refine ⟨?_, ?_, ?_⟩ <;> simp <;> omega

end View

namespace Span

/-- The computation stays in `size_t` and makes the view, if any. -/
def Shows (m : Traced Span) (v : Option View) : Prop := m.Exact ∧ m.value.map view = v

section Methods

variable {n data size extent count offset : Size}

/-- Sizes and offsets up to the length of the array are in `size_t`. -/
theorem inRange_of_le {z : ℤ} (h : 0 ≤ z) (hle : z ≤ n.val) : InRange .uint64 z :=
  ⟨h, hle.trans n.le_max⟩

/-- A fixed extent is the count that the constructor gets. -/
theorem shows_ofPointer (data : Size) (h : extent = dynamicExtent ∨ extent = count) :
    Shows (ofPointer extent data count) (some ⟨data.val, count.val⟩) := by
  unfold ofPointer
  split_ifs with hextent
  · obtain rfl := h.resolve_left hextent
    exact ⟨by simp, by simp [view]⟩
  · exact ⟨by simp, by simp [view]⟩

theorem shows_firstOf (h : extent = dynamicExtent ∨ extent = count) (form : Form) :
    Shows (firstOf data size extent count)
      ((View.mk data.val size.val).apply (.first form count)) := by
  have hpointer := shows_ofPointer data h
  unfold firstOf View.apply
  by_cases hcount : count.val ≤ size.val
  · simpa [Shows, hcount] using hpointer
  · simp [Shows, hcount]

theorem shows_lastOf (h : extent = dynamicExtent ∨ extent = count) (form : Form)
    (hinside : (View.mk data.val size.val).Inside n.val) :
    Shows (lastOf data size extent count)
      ((View.mk data.val size.val).apply (.last form count)) := by
  obtain ⟨hdata, hsize, hend⟩ := hinside
  have hcount := count.nonneg rfl
  simp only at hdata hsize hend
  unfold lastOf View.apply
  by_cases hle : count.val ≤ size.val
  · have hskipped : InRange .uint64 (size.val - count.val) :=
      inRange_of_le (n := n) (by omega) (by omega)
    have hstart : InRange .uint64 (data.val + (size.val - count.val)) :=
      inRange_of_le (n := n) (by omega) (by omega)
    have hpointer :=
      shows_ofPointer (staticCast .uint64 (data.val + (size.val - count.val))) h
    simpa [Shows, hle, staticCast_of_inRange hskipped, hskipped, hstart,
      staticCast_of_inRange hstart] using hpointer
  · simp [Shows, hle]

/-- The extent of the type is the computed one wherever it is not dynamic. -/
theorem shows_subspanOf {extent : Size → Size}
    (h : ∀ e, (count ≠ dynamicExtent → e = count) → extent e = dynamicExtent ∨ extent e = e)
    (form : Form) (hinside : (View.mk data.val size.val).Inside n.val) :
    Shows (subspanOf data size extent offset count)
      ((View.mk data.val size.val).apply (.subspan form offset count)) := by
  obtain ⟨hdata, hsize, hend⟩ := hinside
  have hoffset := offset.nonneg rfl
  simp only at hdata hsize hend
  unfold subspanOf View.apply
  by_cases hle : offset.val ≤ size.val
  · have hrest : InRange .uint64 (size.val - offset.val) :=
      inRange_of_le (n := n) (by omega) (by omega)
    have hstart : InRange .uint64 (data.val + offset.val) :=
      inRange_of_le (n := n) (by omega) (by omega)
    by_cases hcount : count = dynamicExtent
    · have hpointer := shows_ofPointer (staticCast .uint64 (data.val + offset.val))
        (h (staticCast .uint64 (size.val - offset.val)) fun hne => absurd hcount hne)
      simpa [Shows, hle, hcount, hrest, hstart, staticCast_of_inRange hrest,
        staticCast_of_inRange hstart] using hpointer
    · have hpointer := shows_ofPointer (staticCast .uint64 (data.val + offset.val))
        (h count fun _ => rfl)
      by_cases hfits : count.val ≤ size.val - offset.val
      · have hsum : offset.val + count.val ≤ size.val := by omega
        simpa [Shows, hle, hcount, hrest, hstart, hfits, hsum, staticCast_of_inRange hrest,
          staticCast_of_inRange hstart] using hpointer
      · have hsum : ¬ offset.val + count.val ≤ size.val := by omega
        simp [Shows, hle, hcount, hrest, hfits, hsum, staticCast_of_inRange hrest]
  · simp [Shows, hle]

end Methods

section Chains

variable {s s' : Span} {n count offset : Size} {form : Form} {operation : Operation}
  {operations : List Operation} {v : Option View}

theorem shows_first (s : Span) (form : Form) (count : Size) :
    Shows (s.first form count) (s.view.apply (.first form count)) := by
  cases s <;> cases form
  · exact shows_firstOf (.inl rfl) .call
  · exact shows_firstOf (.inr rfl) .template
  · exact shows_firstOf (.inl rfl) .call
  · exact shows_firstOf (.inr rfl) .template

theorem shows_last (hinside : s.view.Inside n.val) (form : Form) (count : Size) :
    Shows (s.last form count) (s.view.apply (.last form count)) := by
  cases s <;> cases form
  · exact shows_lastOf (.inl rfl) .call hinside
  · exact shows_lastOf (.inr rfl) .template hinside
  · exact shows_lastOf (.inl rfl) .call hinside
  · exact shows_lastOf (.inr rfl) .template hinside

theorem shows_subspan (hinside : s.view.Inside n.val) (form : Form) (offset count : Size) :
    Shows (s.subspan form offset count) (s.view.apply (.subspan form offset count)) := by
  cases s <;> cases form
  · exact shows_subspanOf (fun _ _ => .inl rfl) .call hinside
  · exact shows_subspanOf (fun _ _ => .inr rfl) .template hinside
  · exact shows_subspanOf (fun _ _ => .inl rfl) .call hinside
  · refine shows_subspanOf (fun e he => ?_) .template hinside
    by_cases hcount : count = dynamicExtent
    · exact .inl hcount
    · exact .inr (he hcount).symm

/-- Both halves of a split. -/
def ShowsHalves (m : Traced (Span × Span)) (v : Option (View × View)) : Prop :=
  m.Exact ∧ m.value.map (Prod.map view view) = v

theorem showsHalves_pair {a b : Traced Span} {v v' : View} (ha : Shows a (some v))
    (hb : Shows b (some v')) :
    ShowsHalves (do return (← a, ← b)) (some (v, v')) := by
  obtain ⟨s, hs, rfl⟩ := Option.map_eq_some_iff.mp ha.2
  obtain ⟨s', hs', rfl⟩ := Option.map_eq_some_iff.mp hb.2
  exact ⟨by simp [ha.1, hb.1], by simp [hs, hs']⟩

theorem showsHalves_of_none {a b : Traced Span} (ha : Shows a none) :
    ShowsHalves (do return (← a, ← b)) none := by
  have hvalue := Option.map_eq_none_iff.mp ha.2
  exact ⟨by simp [ha.1, hvalue], by simp [hvalue]⟩

/-- A condition before both halves. -/
theorem showsHalves_check {p : Prop} [Decidable p] {m : Traced (Span × Span)}
    {v : Option (View × View)} (hm : p → ShowsHalves m v) (hv : ¬ p → v = none) :
    ShowsHalves (do Traced.check p; m) v := by
  by_cases hp : p
  · exact ⟨by simp [hp, (hm hp).1], by simp [hp, (hm hp).2]⟩
  · exact ⟨by simp [hp], by simp [hp, hv hp]⟩

theorem showsHalves_compute {z : ℤ} {m : Size → Traced (Span × Span)} {v : Option (View × View)}
    (hz : InRange .uint64 z) (hm : ∀ x, x.val = z → ShowsHalves (m x) v) :
    ShowsHalves (do m (← Traced.compute .uint64 z)) v := by
  have hx := hm (staticCast .uint64 z) (staticCast_of_inRange hz)
  exact ⟨by simp [hz, hx.1], by simp [hx.2]⟩

/-- The halves of the view at an offset. -/
def halves (v : View) (offset : Size) : Option (View × View) :=
  if offset.val ≤ v.length then
    some (⟨v.offset, offset.val⟩, ⟨v.offset + offset.val, v.length - offset.val⟩)
  else none

theorem shows_first_of_le (hle : offset.val ≤ s.view.length) (form : Form) :
    Shows (s.first form offset) (some ⟨s.view.offset, offset.val⟩) := by
  have hfirst := shows_first s form offset
  rwa [View.apply, if_pos hle] at hfirst

/-- With the marker for its count a sub-span has the rest of the elements. -/
theorem shows_subspan_rest (hinside : s.view.Inside n.val) (hle : offset.val ≤ s.view.length)
    (form : Form) : Shows (s.subspan form offset dynamicExtent)
      (some ⟨s.view.offset + offset.val, s.view.length - offset.val⟩) := by
  have hsubspan := shows_subspan hinside form offset dynamicExtent
  rwa [View.apply, if_pos ⟨hle, .inl rfl⟩, if_pos rfl] at hsubspan

theorem showsHalves_splitAt (hinside : s.view.Inside n.val) (form : Form) (offset : Size) :
    ShowsHalves (s.splitAt form offset) (halves s.view offset) := by
  unfold halves
  have hoffset := offset.nonneg rfl
  match s, form with
  | s, .call =>
    split_ifs with hle
    · exact showsHalves_pair (shows_first_of_le hle .call) (shows_subspan_rest hinside hle .call)
    · refine showsHalves_of_none ?_
      have hfirst := shows_first s .call offset
      rwa [View.apply, if_neg hle] at hfirst
  | dynamic data size, .template =>
    refine showsHalves_check (fun hle => ?_) fun hle => if_neg hle
    rw [if_pos (show offset.val ≤ (dynamic data size).view.length from hle)]
    exact showsHalves_pair (shows_first_of_le hle .template) (shows_subspan_rest hinside hle .call)
  | fixed N data, .template =>
    refine showsHalves_check (fun hle => ?_) fun hle => if_neg hle
    rw [if_pos (show offset.val ≤ (fixed N data).view.length from hle)]
    have hrest : InRange .uint64 (N.val.val - offset.val) :=
      ⟨Int.sub_nonneg_of_le hle, (Int.sub_le_self _ hoffset).trans N.val.le_max⟩
    refine showsHalves_compute hrest fun rest hval => ?_
    refine showsHalves_pair (shows_first_of_le hle .template) ?_
    have hsubspan := shows_subspan hinside .template offset rest
    have hsum : offset.val + rest.val ≤ N.val.val := by omega
    rw [View.apply, if_pos ⟨hle, .inr hsum⟩, hval] at hsubspan
    simpa [view] using hsubspan

/-- The operations make the views that they should, wherever the span lies in the array. -/
theorem shows_apply (hinside : s.view.Inside n.val) (operation : Operation) :
    Shows (s.apply operation) (s.view.apply operation) := by
  cases operation with
  | first form count => exact shows_first s form count
  | last form count => exact shows_last hinside form count
  | subspan form offset count => exact shows_subspan hinside form offset count
  | splitAt form offset second =>
    obtain ⟨hexact, hvalue⟩ := showsHalves_splitAt hinside form offset
    have happly : s.view.apply (.splitAt form offset second) =
        (halves s.view offset).map fun p => if second then p.2 else p.1 := by
      simp only [View.apply, halves]
      split_ifs <;> rfl
    rw [happly, ← hvalue]
    refine ⟨by simp [apply, hexact], ?_⟩
    rw [apply, Traced.value_bind, Option.map_bind]
    cases (s.splitAt form offset).value with
    | none => rfl
    | some p => cases second <;> rfl

end Chains

/-- The view that a chain leads to. -/
def viewChain (v : View) : List Operation → Option View
  | [] => some v
  | operation :: operations => do viewChain (← v.apply operation) operations

section Chains

variable {s : Span} {n : Size} {v : View} {operations : List Operation}

theorem inside_viewChain {m : ℤ} (h : v.Inside m) {v' : View}
    (hchain : v' ∈ viewChain v operations) : v'.Inside m := by
  induction operations generalizing v with
  | nil =>
    obtain rfl := Option.some.inj hchain
    exact h
  | cons operation operations ih =>
    obtain ⟨u, hu, hchain⟩ := Option.bind_eq_some_iff.mp hchain
    exact ih (View.inside_apply h hu) hchain

theorem shows_chain (hinside : s.view.Inside n.val) (operations : List Operation) :
    Shows (s.chain operations) (viewChain s.view operations) := by
  induction operations generalizing s with
  | nil => exact ⟨Traced.exact_pure s, rfl⟩
  | cons operation operations ih =>
    obtain ⟨hexact, hvalue⟩ := shows_apply hinside operation
    have hnext : ∀ s' ∈ (s.apply operation).value, s'.view ∈ s.view.apply operation :=
      fun s' hs' => hvalue ▸ Option.mem_map_of_mem view hs'
    have hrest : ∀ s' ∈ (s.apply operation).value,
        Shows (s'.chain operations) (viewChain s'.view operations) :=
      fun s' hs' => ih (View.inside_apply hinside (hnext s' hs'))
    refine ⟨Traced.exact_bind.mpr ⟨hexact, fun s' hs' => (hrest s' hs').1⟩, ?_⟩
    rw [chain, Traced.value_bind, Option.map_bind, viewChain, ← hvalue]
    cases hs' : (s.apply operation).value with
    | none => rfl
    | some s' => exact (hrest s' hs').2

/-- A span over all of `n` elements. -/
def Whole (n : Size) (s : Span) : Prop := s = dynamic 0 n ∨ ∃ h, s = fixed ⟨n, h⟩ 0

theorem Whole.view_eq (h : Whole n s) : s.view = ⟨0, n.val⟩ := by
  obtain rfl | ⟨_, rfl⟩ := h <;> rfl

theorem Whole.inside (h : Whole n s) : s.view.Inside n.val := by
  rw [h.view_eq]
  exact ⟨le_rfl, n.nonneg rfl, (zero_add n.val).le⟩

/-- Whatever the arguments, no computation of a chain wraps; a chain that fails no check leads
to a span within the elements, whose sub-spans and halves are where they should be; and of one
array the spans of fixed and of dynamic extent do the same. -/
theorem subspans_inside {whole : Span} (h : Whole n whole) (operations : List Operation) :
    (whole.chain operations).Exact ∧
    (∀ s ∈ (whole.chain operations).value, s.view.Inside n.val ∧
      (∀ form offset count, (s.subspan form offset count).Exact ∧
        ∀ s' ∈ (s.subspan form offset count).value,
          s'.view = ⟨s.view.offset + offset.val,
            if count = dynamicExtent then s.view.length - offset.val else count.val⟩) ∧
      ∀ form offset, (s.splitAt form offset).Exact ∧
        ∀ p ∈ (s.splitAt form offset).value, p.1.view = ⟨s.view.offset, offset.val⟩ ∧
          p.2.view = ⟨s.view.offset + offset.val, s.view.length - offset.val⟩) ∧
    ∀ whole', Whole n whole' →
      (whole'.chain operations).value.map view = (whole.chain operations).value.map view := by
  obtain ⟨hexact, hvalue⟩ := shows_chain h.inside operations
  refine ⟨hexact, fun s hs => ?_, fun whole' h' => ?_⟩
  · have hinside : s.view.Inside n.val :=
      inside_viewChain h.inside (hvalue ▸ Option.mem_map_of_mem view hs)
    refine ⟨hinside, fun form offset count => ?_, fun form offset => ?_⟩
    · obtain ⟨hexact, hview⟩ := shows_subspan hinside form offset count
      refine ⟨hexact, fun s' hs' => ?_⟩
      rw [Option.mem_def.mp hs', Option.map_some, View.apply, eq_comm,
        Option.ite_none_right_eq_some] at hview
      exact (Option.some.inj hview.2).symm
    · obtain ⟨hexact, hview⟩ := showsHalves_splitAt hinside form offset
      refine ⟨hexact, fun p hp => ?_⟩
      rw [Option.mem_def.mp hp, Option.map_some, halves] at hview
      split_ifs at hview with hle
      exact Prod.mk.inj (Option.some.inj hview)
  · rw [hvalue, (shows_chain h'.inside operations).2, h.view_eq, h'.view_eq]

/-- The marker for the rest is no count: of three elements it makes a span of three. -/
theorem subspan_dynamicExtent :
    ((dynamic 0 (staticCast .uint64 3)).subspan .call 0 dynamicExtent).value.map
        (fun s => s.view.length) = some 3 ∧ dynamicExtent.val ≠ 3 := by decide

/-- Four elements, without the first and halved, of which the second half has two. -/
theorem subspans_inside_four :
    (fixed ⟨staticCast .uint64 4, by decide⟩ 0 |>.chain [.subspan .template (staticCast .uint64 1)
      dynamicExtent, .splitAt .call (staticCast .uint64 1) true]).Exact ∧
    (dynamic 0 (staticCast .uint64 4) |>.chain [.subspan .template (staticCast .uint64 1)
      dynamicExtent, .splitAt .call (staticCast .uint64 1) true]).value.map view = some ⟨2, 2⟩ := by
  have h := subspans_inside (n := staticCast .uint64 4) (.inr ⟨by decide, rfl⟩)
    [.subspan .template (staticCast .uint64 1) dynamicExtent,
      .splitAt .call (staticCast .uint64 1) true]
  exact ⟨h.1, (h.2.2 _ (.inl rfl)).trans (by decide)⟩

end Chains

end Span

end MiniChromium
