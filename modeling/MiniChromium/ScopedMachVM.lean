import MiniChromium.IntegralType
import MiniChromium.Custody

/-!
# Scoped regions of memory

`ScopedMachVM` holds a region of pages and deallocates what it lets go of. `reset` keeps the
pages that the new region shares with the one that is held. The wrappers of a program are looked
at together, with the pages that they were given, gave away and deallocated.
-/
namespace MiniChromium.ScopedMachVM

open IntegralType MiniChromium.Num Runs Custody

/-- A region of the address space. -/
structure Region where
  address : Num .uint64
  size : Num .uint64
  deriving DecidableEq

/-- The address is in the region. -/
def Region.Covers (region : Region) (p : ℤ) : Prop :=
  region.address.val ≤ p ∧ p < region.address.val + region.size.val

instance (region : Region) (p : ℤ) : Decidable (region.Covers p) :=
  inferInstanceAs (Decidable (_ ∧ _))

section Code

/-- The sum of two numbers of the type of an address. -/
def sum (x y : Num .uint64) : Num .uint64 := staticCast .uint64 (x.val + y.val)

def difference (x y : Num .uint64) : Num .uint64 := staticCast .uint64 (x.val - y.val)

/-- `std::min`. -/
def smaller (x y : Num .uint64) : Num .uint64 := if y.val < x.val then y else x

/-- `std::max`. -/
def larger (x y : Num .uint64) : Num .uint64 := if x.val < y.val then y else x

/-- The region of pages that nothing is in. -/
def Region.empty : Region := ⟨0, 0⟩

/-- The checks of the constructor and of `reset`. -/
def checkPages (pageSize : ℤ) (region : Region) : Option Region :=
  if region.address.val % pageSize = 0 ∧ region.size.val % pageSize = 0 then some region else none

/-- The call of `reset` for what lies below the new region. -/
def deallocateBelow (held region : Region) : List Region :=
  if held.address.val < region.address.val then
    [⟨held.address, smaller held.size (difference region.address held.address)⟩]
  else []

/-- The call of `reset` for what lies above the new region. -/
def deallocateAbove (held region : Region) : List Region :=
  if (sum held.address held.size).val > (sum region.address region.size).val then
    let deallocateStart := larger held.address (sum region.address region.size)
    [⟨deallocateStart, difference (sum held.address held.size) deallocateStart⟩]
  else []

/-- `ScopedMachVM::reset`: its calls of `vm_deallocate`, and what is held then. -/
def reset (pageSize : ℤ) (held region : Region) : Option (List Region × Region) :=
  (checkPages pageSize region).map fun region =>
    (if held.size.val ≠ 0 then deallocateBelow held region ++ deallocateAbove held region else [],
      region)

/-- The destructor. -/
def destroy (held : Region) : List Region := if held.size.val ≠ 0 then [held] else []

end Code

section Difference

variable {pageSize p : ℤ} {held region call : Region} {calls : List Region} {addresses : Set ℤ}

/-- A region of whole pages below the top of the address space. -/
structure Region.Valid (pageSize : ℤ) (region : Region) : Prop where
  address : region.address.val % pageSize = 0
  size : region.size.val % pageSize = 0
  noWrap : region.address.val + region.size.val ≤ IntegralType.max .uint64

/-- The calls deallocate whole pages, which make up the set, each address once. -/
structure Deallocates (pageSize : ℤ) (addresses : Set ℤ) (calls : List Region) : Prop where
  covers (p : ℤ) : (∃ call ∈ calls, call.Covers p) ↔ p ∈ addresses
  disjoint : calls.Pairwise fun call call' => ∀ p, call.Covers p → ¬ call'.Covers p
  valid : ∀ call ∈ calls, call.Valid pageSize

namespace Deallocates

theorem nil (h : ∀ p, p ∉ addresses) : Deallocates pageSize addresses [] :=
  ⟨by simpa using h, .nil, by simp⟩

/-- One call for what lies between two addresses of pages. -/
theorem between {first last : ℤ} (hfirst : first % pageSize = 0) (hlast : last % pageSize = 0)
    (hle : last ≤ IntegralType.max .uint64) (haddress : call.address.val = first)
    (hsize : call.size.val = last - first) (h : ∀ p, p ∈ addresses ↔ first ≤ p ∧ p < last) :
    Deallocates pageSize addresses [call] where
  covers p := by
    simp only [List.mem_singleton, exists_eq_left, Region.Covers, haddress, hsize, h]
    omega
  disjoint := List.pairwise_singleton _ _
  valid call' hcall' := by
    rw [List.mem_singleton.mp hcall']
    refine ⟨haddress ▸ hfirst, ?_, by omega⟩
    rw [hsize, Int.sub_emod, hfirst, hlast, sub_self, Int.zero_emod]

theorem append {addresses' : Set ℤ} {calls' : List Region}
    (h : Deallocates pageSize addresses calls) (h' : Deallocates pageSize addresses' calls')
    (hdisjoint : ∀ p ∈ addresses, p ∉ addresses') :
    Deallocates pageSize (addresses ∪ addresses') (calls ++ calls') where
  covers p := by
    simp only [List.mem_append, or_and_right, exists_or, h.covers, h'.covers, Set.mem_union]
  disjoint := by
    refine List.pairwise_append.mpr
      ⟨h.disjoint, h'.disjoint, fun call hcall call' hcall' p hp => ?_⟩
    have hmem := (h.covers p).mp ⟨call, hcall, hp⟩
    exact fun hp' => hdisjoint p hmem ((h'.covers p).mp ⟨call', hcall', hp'⟩)
  valid call hcall := (List.mem_append.mp hcall).elim (h.valid call) (h'.valid call)

/-- An address is in one call or in none. -/
theorem countP_le_one (h : Deallocates pageSize addresses calls) (p : ℤ) :
    calls.countP (·.Covers p) ≤ 1 := by
  have hdisjoint := h.disjoint
  clear h
  induction calls with
  | nil => exact Nat.zero_le 1
  | cons call calls ih =>
    obtain ⟨hcall, hcalls⟩ := List.pairwise_cons.mp hdisjoint
    rw [List.countP_cons]
    split_ifs with hp
    · have hzero : calls.countP (·.Covers p) = 0 := by
        rw [List.countP_eq_zero]
        intro call' hcall'
        simpa using hcall call' hcall' p (by simpa using hp)
      omega
    · exact ih hcalls

theorem countP_of_mem (h : Deallocates pageSize addresses calls) {p : ℤ} (hp : p ∈ addresses) :
    calls.countP (·.Covers p) = 1 := by
  obtain ⟨call, hcall, hcovers⟩ := (h.covers p).mpr hp
  have hpos : 0 < calls.countP (·.Covers p) :=
    List.countP_pos_iff.mpr ⟨call, hcall, by simpa using hcovers⟩
  have hle := h.countP_le_one p
  omega

theorem countP_of_notMem (h : Deallocates pageSize addresses calls) {p : ℤ}
    (hp : p ∉ addresses) : calls.countP (·.Covers p) = 0 := by
  rw [List.countP_eq_zero]
  intro call hcall hcovers
  exact hp ((h.covers p).mp ⟨call, hcall, by simpa using hcovers⟩)

end Deallocates

theorem Region.Valid.sum_val (h : region.Valid pageSize) :
    (sum region.address region.size).val = region.address.val + region.size.val := by
  have haddress := region.address.nonneg rfl
  have hsize := region.size.nonneg rfl
  exact staticCast_of_inRange ⟨(lowest_nonpos _).trans (by omega), h.noWrap⟩

theorem difference_val {x y : Num .uint64} (h : y.val ≤ x.val) :
    (difference x y).val = x.val - y.val := by
  have hx := x.le_max
  have hy := y.nonneg rfl
  exact staticCast_of_inRange ⟨(lowest_nonpos _).trans (by omega), by omega⟩

theorem smaller_val (x y : Num .uint64) : (smaller x y).val = min x.val y.val := by
  unfold smaller
  split_ifs with h
  · exact (min_eq_right h.le).symm
  · exact (min_eq_left (not_lt.mp h)).symm

theorem larger_val (x y : Num .uint64) : (larger x y).val = max x.val y.val := by
  unfold larger
  split_ifs with h
  · exact (max_eq_right h.le).symm
  · exact (max_eq_left (not_lt.mp h)).symm

theorem max_emod {x y : ℤ} (hx : x % pageSize = 0) (hy : y % pageSize = 0) :
    max x y % pageSize = 0 := by
  rcases max_choice x y with h | h <;> rwa [h]

theorem min_emod {x y : ℤ} (hx : x % pageSize = 0) (hy : y % pageSize = 0) :
    min x y % pageSize = 0 := by
  rcases min_choice x y with h | h <;> rwa [h]

/-- The end of a region is the start of a page. -/
theorem Region.Valid.last_emod (h : region.Valid pageSize) :
    (region.address.val + region.size.val) % pageSize = 0 := by
  rw [Int.add_emod, h.address, h.size, add_zero, Int.zero_emod]

theorem deallocates_below (hheld : held.Valid pageSize) (hregion : region.Valid pageSize) :
    Deallocates pageSize {p | held.Covers p ∧ p < region.address.val}
      (deallocateBelow held region) := by
  unfold deallocateBelow
  split_ifs with hlt
  · have hlast := min_emod hheld.last_emod hregion.address
    refine .between hheld.address hlast ((min_le_left _ _).trans hheld.noWrap) rfl ?_ fun p => ?_
    · dsimp only
      rw [smaller_val, difference_val hlt.le]
      omega
    · simp only [Region.Covers, Set.mem_ofPred_eq]
      omega
  · refine .nil fun p => ?_
    simp only [Region.Covers, Set.mem_ofPred_eq]
    omega

theorem deallocates_above (hheld : held.Valid pageSize) (hregion : region.Valid pageSize) :
    Deallocates pageSize {p | held.Covers p ∧ region.address.val + region.size.val ≤ p}
      (deallocateAbove held region) := by
  have hstart : (larger held.address (sum region.address region.size)).val =
      max held.address.val (region.address.val + region.size.val) := by
    rw [larger_val, hregion.sum_val]
  unfold deallocateAbove
  split_ifs with hlt
  · rw [hheld.sum_val, hregion.sum_val] at hlt
    have hfirst := max_emod hheld.address hregion.last_emod
    have hnonneg := held.size.nonneg rfl
    refine .between hfirst hheld.last_emod hheld.noWrap hstart ?_ fun p => ?_
    · dsimp only
      rw [difference_val (by rw [hstart, hheld.sum_val]; omega), hstart, hheld.sum_val]
    · simp only [Region.Covers, Set.mem_ofPred_eq]
      omega
  · rw [hheld.sum_val, hregion.sum_val] at hlt
    refine .nil fun p => ?_
    simp only [Region.Covers, Set.mem_ofPred_eq]
    omega

/-- `reset` deallocates the difference of the regions, whatever their positions. -/
theorem reset_deallocates (hheld : held.Valid pageSize) (hregion : region.Valid pageSize) :
    ∃ calls, reset pageSize held region = some (calls, region) ∧
      Deallocates pageSize {p | held.Covers p ∧ ¬ region.Covers p} calls := by
  have hcheck : checkPages pageSize region = some region :=
    if_pos ⟨hregion.address, hregion.size⟩
  rw [reset, hcheck]
  refine ⟨_, rfl, ?_⟩
  split_ifs with hsize
  · have happend := (deallocates_below hheld hregion).append (deallocates_above hheld hregion)
      fun p hp hp' => by
        have hnonneg := region.size.nonneg rfl
        have hlt := hp.2.trans_le (Int.le_add_of_nonneg_right hnonneg)
        exact absurd hp'.2 (not_le.mpr hlt)
    convert happend using 1
    ext p
    simp only [Region.Covers, Set.mem_union, Set.mem_ofPred_eq]
    omega
  · refine .nil fun p => ?_
    simp only [Region.Covers, Set.mem_ofPred_eq]
    omega

theorem destroy_deallocates (hheld : held.Valid pageSize) :
    Deallocates pageSize {p | held.Covers p} (destroy held) := by
  unfold destroy
  split_ifs with hsize
  · exact .between hheld.address hheld.last_emod hheld.noWrap rfl (by ring) fun p => .rfl
  · refine .nil fun p => ?_
    simp only [Region.Covers, Set.mem_ofPred_eq]
    omega

end Difference

/-- The operations on wrappers. -/
inductive Operation (O : Type*)
  | construct (o : O) (region : Region)
  | reset (o : O) (region : Region)
  | swap (o that : O)
  | release (o : O)
  | destroy (o : O)

/-- The wrappers that live, what they hold, what they were given beside what they held then, the
calls of `vm_deallocate`, and what was given away. -/
structure System (O : Type*) where
  live : Finset O
  region : O → Region
  takenIn : List (Region × Region)
  deallocated : List Region
  givenOut : List Region

section Model

variable {O : Type*} [DecidableEq O] {pageSize : ℤ}

namespace System

def start : System O where
  live := ∅
  region _ := .empty
  takenIn := []
  deallocated := []
  givenOut := []

/-- A wrapper holds another region. -/
def set (s : System O) (o : O) (region : Region) : System O :=
  { s with region := Function.update s.region o region }

/-- A wrapper comes to life. -/
def enter (s : System O) (o : O) (region : Region) : System O :=
  { s with region := Function.update s.region o region, live := insert o s.live }

def leave (s : System O) (o : O) : System O := { s with live := s.live.erase o }

def takeIn (s : System O) (held region : Region) : System O :=
  { s with takenIn := s.takenIn ++ [(held, region)] }

def deallocate (s : System O) (calls : List Region) : System O :=
  { s with deallocated := s.deallocated ++ calls }

def giveOut (s : System O) (region : Region) : System O :=
  { s with givenOut := s.givenOut ++ [region] }

/-- What is handed in ends below the top of the address space. -/
def NoWrap (region : Region) : Prop :=
  region.address.val + region.size.val ≤ IntegralType.max .uint64

instance (region : Region) : Decidable (NoWrap region) := inferInstanceAs (Decidable (_ ≤ _))

/-- An operation on wrappers that live. -/
def operate (pageSize : ℤ) (s : System O) : Operation O → Option (System O)
  | .construct o region =>
    if o ∉ s.live ∧ NoWrap region then
      (checkPages pageSize region).map fun region => (s.takeIn .empty region).enter o region
    else none
  | .reset o region =>
    if o ∈ s.live ∧ NoWrap region then
      (ScopedMachVM.reset pageSize (s.region o) region).map fun (calls, region) =>
        ((s.takeIn (s.region o) region).deallocate calls).set o region
    else none
  | .swap o that =>
    let temp := s.region o
    if o ∈ s.live ∧ that ∈ s.live then some ((s.set o (s.region that)).set that temp) else none
  | .release o =>
    if o ∈ s.live then some ((s.giveOut (s.region o)).set o .empty) else none
  | .destroy o =>
    if o ∈ s.live then some ((s.deallocate (ScopedMachVM.destroy (s.region o))).leave o) else none

/-- How often the address was acquired: given to a wrapper that did not hold it. -/
def acquisitions (s : System O) (p : ℤ) : ℕ :=
  s.takenIn.countP fun (held, region) => region.Covers p ∧ ¬ held.Covers p

def deallocations (s : System O) (p : ℤ) : ℕ := s.deallocated.countP (·.Covers p)

def releases (s : System O) (p : ℤ) : ℕ := s.givenOut.countP (·.Covers p)

/-- How many wrappers hold the address. -/
def holders (s : System O) (p : ℤ) : ℕ :=
  Custody.holders s.live (fun o => decide ((s.region o).Covers p)) true

end System

/-- What was acquired was deallocated, given away, or is held; regions are made of pages. -/
structure Balanced (pageSize : ℤ) (s : System O) : Prop where
  books (p : ℤ) : s.acquisitions p = s.deallocations p + s.releases p + s.holders p
  valid : ∀ o ∈ s.live, (s.region o).Valid pageSize

omit [DecidableEq O] in
theorem balanced_start : Balanced pageSize (System.start : System O) where
  books _ := rfl
  valid _ h := nomatch h

section Books

variable {s s' : System O} {o that : O} {region : Region} {p : ℤ}

theorem count_decide (q : Prop) [Decidable q] : [decide q].count true = if q then 1 else 0 := by
  by_cases hq : q <;> simp [hq]

theorem covers_update (f : O → Region) (o : O) (region : Region) (p : ℤ) :
    (fun o' => decide ((Function.update f o region o').Covers p)) =
      Function.update (fun o' => decide ((f o').Covers p)) o (decide (region.Covers p)) :=
  Function.comp_update (fun region : Region => decide (region.Covers p)) f o region

namespace System

omit [DecidableEq O] in
theorem acquisitions_takeIn (s : System O) (held region : Region) (p : ℤ) :
    (s.takeIn held region).acquisitions p =
      s.acquisitions p + if region.Covers p ∧ ¬ held.Covers p then 1 else 0 := by
  simp [acquisitions, takeIn, List.countP_append, List.countP_singleton]

omit [DecidableEq O] in
theorem deallocations_deallocate (s : System O) (calls : List Region) (p : ℤ) :
    (s.deallocate calls).deallocations p = s.deallocations p + calls.countP (·.Covers p) :=
  List.countP_append

omit [DecidableEq O] in
theorem releases_giveOut (s : System O) (region : Region) (p : ℤ) :
    (s.giveOut region).releases p = s.releases p + if region.Covers p then 1 else 0 := by
  simp [releases, giveOut, List.countP_append, List.countP_singleton]

theorem holders_set (ho : o ∈ s.live) (region : Region) (p : ℤ) :
    (s.set o region).holders p + (if (s.region o).Covers p then 1 else 0) =
      s.holders p + if region.Covers p then 1 else 0 := by
  have hholders := holders_update (fun o => decide ((s.region o).Covers p))
    (decide (region.Covers p)) true ho
  rw [count_decide, count_decide, ← covers_update] at hholders
  exact hholders

theorem holders_enter (ho : o ∉ s.live) (region : Region) (p : ℤ) :
    (s.enter o region).holders p =
      s.holders p + if region.Covers p then 1 else 0 := by
  have hholders := holders_insert (fun o => decide ((s.region o).Covers p))
    (decide (region.Covers p)) true ho
  rw [count_decide, ← covers_update] at hholders
  exact hholders

theorem holders_leave (ho : o ∈ s.live) (p : ℤ) :
    (s.leave o).holders p + (if (s.region o).Covers p then 1 else 0) = s.holders p := by
  have hholders := holders_erase (fun o => decide ((s.region o).Covers p)) true ho
  rw [count_decide] at hholders
  exact hholders

/-- Two updates exchange what two wrappers hold; they may be the same wrapper. -/
theorem holders_swap (ho : o ∈ s.live) (hthat : that ∈ s.live) (p : ℤ) :
    ((s.set o (s.region that)).set that (s.region o)).holders p = s.holders p := by
  have hfirst := holders_set ho (s.region that) p
  have hsecond := holders_set (s := s.set o (s.region that)) hthat (s.region o) p
  have hregion : (s.set o (s.region that)).region that = s.region that := by
    by_cases h : that = o
    · rw [h]
      exact Function.update_self ..
    · exact Function.update_of_ne h ..
  rw [hregion] at hsecond
  omega

end System

theorem valid_update {f : O → Region} {live : Finset O} (h : ∀ o' ∈ live, (f o').Valid pageSize)
    (hregion : region.Valid pageSize) :
    ∀ o' ∈ insert o live, (Function.update f o region o').Valid pageSize := by
  intro o' ho'
  rw [Function.update_apply]
  split_ifs with heq
  · exact hregion
  · exact h o' (Finset.mem_of_mem_insert_of_ne ho' heq)

theorem valid_of_check {region' : Region} (h : checkPages pageSize region = some region')
    (hwrap : System.NoWrap region) : region' = region ∧ region.Valid pageSize := by
  unfold checkPages at h
  split_ifs at h with hpages
  exact ⟨(Option.some.inj h).symm, hpages.1, hpages.2, hwrap⟩

theorem empty_valid (pageSize : ℤ) : Region.empty.Valid pageSize :=
  ⟨Int.zero_emod _, Int.zero_emod _, by decide⟩

theorem not_covers_empty (p : ℤ) : ¬ Region.empty.Covers p := by
  simp only [Region.Covers, Region.empty, val_zero]
  omega

namespace Balanced

theorem construct (h : Balanced pageSize s) (ho : o ∉ s.live) (hregion : region.Valid pageSize) :
    Balanced pageSize ((s.takeIn .empty region).enter o region) where
  books p := by
    have hbooks := h.books p
    have hacquired := System.acquisitions_takeIn s .empty region p
    have hholders := System.holders_enter ho region p
    simp only [not_covers_empty p, not_false_eq_true, and_true] at hacquired
    change (s.takeIn .empty region).acquisitions p =
      s.deallocations p + s.releases p + (s.enter o region).holders p
    omega
  valid := valid_update h.valid hregion

theorem reset {calls : List Region} (h : Balanced pageSize s) (ho : o ∈ s.live)
    (hregion : region.Valid pageSize)
    (hcalls : Deallocates pageSize {p | (s.region o).Covers p ∧ ¬ region.Covers p} calls) :
    Balanced pageSize (((s.takeIn (s.region o) region).deallocate calls).set o region) where
  books p := by
    have hbooks := h.books p
    have hacquired := System.acquisitions_takeIn s (s.region o) region p
    have hdeallocated := System.deallocations_deallocate s calls p
    have hholders := System.holders_set ho region p
    change (s.takeIn (s.region o) region).acquisitions p = (s.deallocate calls).deallocations p +
      s.releases p + (s.set o region).holders p
    by_cases hheld : (s.region o).Covers p
    · by_cases hnew : region.Covers p
      · have hcount := hcalls.countP_of_notMem (p := p) fun hp => hp.2 hnew
        simp only [hheld, hnew, not_true_eq_false, and_false, ↓reduceIte] at hacquired hholders
        omega
      · have hcount := hcalls.countP_of_mem (p := p) ⟨hheld, hnew⟩
        simp only [hheld, hnew, false_and, ↓reduceIte] at hacquired hholders
        omega
    · have hcount := hcalls.countP_of_notMem (p := p) fun hp => hheld hp.1
      simp only [hheld, not_false_eq_true, and_true, ↓reduceIte] at hacquired hholders
      omega
  valid o' ho' := valid_update h.valid hregion o' (Finset.mem_insert_of_mem ho')

theorem swap (h : Balanced pageSize s) (ho : o ∈ s.live) (hthat : that ∈ s.live) :
    Balanced pageSize ((s.set o (s.region that)).set that (s.region o)) where
  books p := by
    rw [System.holders_swap ho hthat]
    exact h.books p
  valid o' ho' := by
    have hfirst := valid_update h.valid (h.valid that hthat) (o := o)
    rw [Finset.insert_eq_of_mem ho] at hfirst
    exact valid_update hfirst (h.valid o ho) o' (Finset.mem_insert_of_mem ho')

theorem release (h : Balanced pageSize s) (ho : o ∈ s.live) :
    Balanced pageSize ((s.giveOut (s.region o)).set o .empty) where
  books p := by
    have hbooks := h.books p
    have hreleased := System.releases_giveOut s (s.region o) p
    have hholders := System.holders_set ho .empty p
    rw [if_neg (not_covers_empty p)] at hholders
    change s.acquisitions p = s.deallocations p + (s.giveOut (s.region o)).releases p +
      (s.set o .empty).holders p
    omega
  valid o' ho' := valid_update h.valid (empty_valid pageSize) o' (Finset.mem_insert_of_mem ho')

theorem destroy (h : Balanced pageSize s) (ho : o ∈ s.live) :
    Balanced pageSize ((s.deallocate (ScopedMachVM.destroy (s.region o))).leave o) where
  books p := by
    have hbooks := h.books p
    have hcalls := destroy_deallocates (h.valid o ho)
    have hdeallocated := System.deallocations_deallocate s (ScopedMachVM.destroy (s.region o)) p
    have hholders := System.holders_leave ho p
    change s.acquisitions p =
      (s.deallocate (ScopedMachVM.destroy (s.region o))).deallocations p + s.releases p +
        (s.leave o).holders p
    by_cases hheld : (s.region o).Covers p
    · have hcount := hcalls.countP_of_mem hheld
      rw [if_pos hheld] at hholders
      omega
    · have hcount := hcalls.countP_of_notMem hheld
      rw [if_neg hheld] at hholders
      omega
  valid o' ho' := h.valid o' (Finset.mem_of_mem_erase ho')

theorem step {operation : Operation O} (h : Balanced pageSize s)
    (hstep : s.operate pageSize operation = some s') : Balanced pageSize s' := by
  cases operation with
  | construct o region =>
    rw [System.operate] at hstep
    split_ifs at hstep with hlive
    obtain ⟨region', hcheck, rfl⟩ := Option.map_eq_some_iff.mp hstep
    obtain ⟨rfl, hregion⟩ := valid_of_check hcheck hlive.2
    exact h.construct hlive.1 hregion
  | reset o region =>
    rw [System.operate] at hstep
    split_ifs at hstep with hlive
    obtain ⟨⟨calls, region'⟩, hreset, rfl⟩ := Option.map_eq_some_iff.mp hstep
    obtain ⟨region'', hcheck, -⟩ := Option.map_eq_some_iff.mp hreset
    obtain ⟨-, hregion⟩ := valid_of_check hcheck hlive.2
    obtain ⟨calls', heq, hcalls⟩ := reset_deallocates (h.valid o hlive.1) hregion
    obtain ⟨rfl, rfl⟩ := Prod.mk.inj (Option.some.inj (hreset.symm.trans heq))
    exact h.reset hlive.1 hregion hcalls
  | swap o that =>
    rw [System.operate] at hstep
    split_ifs at hstep with hlive
    obtain rfl := Option.some.inj hstep
    exact h.swap hlive.1 hlive.2
  | release o =>
    rw [System.operate] at hstep
    split_ifs at hstep with hlive
    obtain rfl := Option.some.inj hstep
    exact h.release hlive
  | destroy o =>
    rw [System.operate] at hstep
    split_ifs at hstep with hlive
    obtain rfl := Option.some.inj hstep
    exact h.destroy hlive

theorem of_run {operations : List (Operation O)}
    (h : operations.foldlM (System.operate pageSize) .start = some s) : Balanced pageSize s := by
  have hrun := Run.of_foldlM h
  refine Run.history_induction (I := fun _ s => Balanced pageSize s) balanced_start ?_ hrun
  intro _ _ _ _ hpre hstep
  exact hpre.step hstep

end Balanced

end Books

/-- `reset` deallocates what the new region does not share with the one that is held: whole pages,
each address once, and nothing else. In every run of wrappers the books of an address balance, so
it is deallocated at most once for each time that it was acquired. -/
theorem reset_deallocates_difference (pageSize : ℤ) :
    (∀ held region : Region, held.Valid pageSize → region.Valid pageSize →
      ∃ calls, reset pageSize held region = some (calls, region) ∧
        Deallocates pageSize {p | held.Covers p ∧ ¬ region.Covers p} calls) ∧
    ∀ (operations : List (Operation O)) (s : System O),
      operations.foldlM (System.operate pageSize) .start = some s →
        ∀ p, s.acquisitions p = s.deallocations p + s.releases p + s.holders p ∧
          s.deallocations p ≤ s.acquisitions p := by
  refine ⟨fun held region => reset_deallocates, fun operations s h p => ?_⟩
  have hbooks := (Balanced.of_run h).books p
  omega

/-- Three pages, and two of which the first is the last of the three. -/
def threePages : Region := ⟨staticCast .uint64 4096, staticCast .uint64 12288⟩

def twoPages : Region := ⟨staticCast .uint64 12288, staticCast .uint64 8192⟩

theorem threePages_valid : threePages.Valid 4096 := ⟨rfl, rfl, by decide⟩

theorem twoPages_valid : twoPages.Valid 4096 := ⟨rfl, rfl, by decide⟩

/-- A wrapper gets the three pages, then the two, and deallocates what it holds in the end. -/
def threeOperations : List (Operation Unit) :=
  [.construct () threePages, .reset () twoPages, .destroy ()]

theorem reset_deallocates_difference_two :
    (∃ calls, reset 4096 threePages twoPages = some (calls, twoPages) ∧
      Deallocates 4096 {p | threePages.Covers p ∧ ¬ twoPages.Covers p} calls) ∧
    ∃ s, threeOperations.foldlM (System.operate 4096) .start = some s ∧
      s.acquisitions 12288 = s.deallocations 12288 + s.releases 12288 + s.holders 12288 ∧
        s.deallocations 12288 ≤ s.acquisitions 12288 := by
  have h := @reset_deallocates_difference Unit _ 4096
  exact ⟨h.1 threePages twoPages threePages_valid twoPages_valid,
    _, rfl, h.2 threeOperations _ rfl 12288⟩

end Model

end MiniChromium.ScopedMachVM
