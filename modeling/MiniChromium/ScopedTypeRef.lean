import MiniChromium.Custody
import Mathlib.Data.Int.Notation

/-!
# Scoped references

`ScopedTypeRef` holds one reference of an object with a reference count. The wrappers of a
program are looked at together, with their calls of `Retain` and `Release`, the references that
pass between them and their callers, and the counts of the objects.
-/
namespace MiniChromium.ScopedTypeRef

open Runs Custody

set_option linter.unusedSectionVars false

/-- `scoped_policy::OwnershipPolicy`. -/
inductive OwnershipPolicy
  | assume | retain
  deriving DecidableEq

/-- `ScopedTypeRefTraits`. -/
structure Traits (X : Type*) where
  invalidValue : X
  retain : X → X
  retain_eq (object : X) : retain object = object

/-- A call of `Retain` or `Release`. -/
inductive Call (X : Type*)
  | retain (object : X)
  | release (object : X)
  deriving DecidableEq

section Code

variable {X : Type*} [DecidableEq X] (traits : Traits X)

/-- The constructor from a value of the underlying type. -/
def construct (object : X) (policy : OwnershipPolicy) : List (Call X) × X :=
  if object ≠ traits.invalidValue ∧ policy = .retain then
    ([.retain object], traits.retain object)
  else ([], object)

/-- The copy constructor. -/
def copyConstruct (that : X) : List (Call X) × X :=
  if that ≠ traits.invalidValue then ([.retain that], traits.retain that) else ([], that)

/-- `release`: what it returns, and what is left. -/
def release (held : X) : X × X := (held, traits.invalidValue)

/-- `reset` of a wrapper that holds something. -/
def reset (held object : X) (policy : OwnershipPolicy) : List (Call X) × X :=
  let (retained, object') : List (Call X) × X :=
    if object ≠ traits.invalidValue ∧ policy = .retain then
      ([.retain object], traits.retain object)
    else ([], object)
  let released : List (Call X) := if held ≠ traits.invalidValue then [.release held] else []
  (retained ++ released, object')

/-- The destructor. -/
def destroy (held : X) : List (Call X) :=
  if held ≠ traits.invalidValue then [.release held] else []

end Code

/-- The operations on wrappers. -/
inductive Operation (O X : Type*)
  | construct (o : O) (object : X) (policy : OwnershipPolicy)
  | copyConstruct (o that : O)
  | moveConstruct (o that : O)
  | copyAssign (o that : O)
  | moveAssign (o that : O)
  | reset (o : O) (object : X) (policy : OwnershipPolicy)
  | resetFrom (o that : O)
  | swap (o that : O)
  | release (o : O)
  | destroy (o : O)

/-- An operation, or what the callers do with the references of their own. -/
inductive Event (O X : Type*)
  | operation (operation : Operation O X)
  | callers (owned : X → ℕ)

/-- The wrappers that live, what they hold, their calls, the references that they took over
and gave back, the references that callers own, and the count of every object. -/
structure System (O X : Type*) where
  live : Finset O
  object : O → X
  calls : List (Call X)
  handedIn : List X
  givenOut : List X
  owned : X → ℕ
  count : X → ℤ

section Model

variable {O X : Type*} [DecidableEq O] [DecidableEq X] (traits : Traits X)

/-- What calls add to the count of an object. -/
def net (object : X) (calls : List (Call X)) : ℤ :=
  (calls.count (.retain object) : ℤ) - calls.count (.release object)

namespace System

def start : System O X where
  live := ∅
  object _ := traits.invalidValue
  calls := []
  handedIn := []
  givenOut := []
  owned _ := 0
  count _ := 0

def call (s : System O X) (calls : List (Call X)) : System O X :=
  { s with calls := s.calls ++ calls, count := fun object => s.count object + net object calls }

/-- A wrapper holds another object. -/
def set (s : System O X) (o : O) (object : X) : System O X :=
  { s with object := Function.update s.object o object }

/-- A wrapper comes to life. -/
def enter (s : System O X) (o : O) (object : X) : System O X :=
  { s.set o object with live := insert o s.live }

def leave (s : System O X) (o : O) : System O X := { s with live := s.live.erase o }

/-- With `ASSUME` a caller hands in a reference of its own; with `RETAIN` it names an object
that exists. -/
def Provides (s : System O X) (object : X) (policy : OwnershipPolicy) : Prop :=
  object ≠ traits.invalidValue →
    match policy with
    | .assume => 0 < s.owned object
    | .retain => 0 < s.count object

instance (s : System O X) (object : X) (policy : OwnershipPolicy) :
    Decidable (s.Provides traits object policy) :=
  match policy with
  | .assume => inferInstanceAs (Decidable (object ≠ traits.invalidValue → 0 < s.owned object))
  | .retain => inferInstanceAs (Decidable (object ≠ traits.invalidValue → 0 < s.count object))

def handIn (s : System O X) (object : X) : OwnershipPolicy → System O X
  | .assume =>
    { s with
      handedIn := s.handedIn ++ [object]
      owned := Function.update s.owned object (s.owned object - 1) }
  | .retain => s

def giveOut (s : System O X) (object : X) : System O X :=
  { s with
    givenOut := s.givenOut ++ [object]
    owned := Function.update s.owned object (s.owned object + 1) }

/-- `reset` of a wrapper that lives. -/
def reset (s : System O X) (o : O) (object : X) (policy : OwnershipPolicy) :
    List (Call X) × System O X :=
  let (calls, object') := ScopedTypeRef.reset traits (s.object o) object policy
  (calls, (s.call calls).set o object')

/-- An operation on wrappers that live, with its calls. -/
def operate (s : System O X) : Operation O X → Option (List (Call X) × System O X)
  | .construct o object policy =>
    let (calls, object') := construct traits object policy
    if o ∉ s.live ∧ s.Provides traits object policy then
      some (calls, ((s.handIn object policy).call calls).enter o object')
    else none
  | .copyConstruct o that =>
    let (calls, object') := copyConstruct traits (s.object that)
    if o ∉ s.live ∧ that ∈ s.live then some (calls, (s.call calls).enter o object') else none
  | .moveConstruct o that =>
    let (object', left) := release traits (s.object that)
    if o ∉ s.live ∧ that ∈ s.live then some ([], (s.set that left).enter o object') else none
  | .copyAssign o that | .resetFrom o that =>
    if o ∈ s.live ∧ that ∈ s.live then some (s.reset traits o (s.object that) .retain) else none
  | .moveAssign o that =>
    let (object', left) := release traits (s.object that)
    if o ∈ s.live ∧ that ∈ s.live then some ((s.set that left).reset traits o object' .assume)
    else none
  | .reset o object policy =>
    if o ∈ s.live ∧ s.Provides traits object policy then
      some ((s.handIn object policy).reset traits o object policy)
    else none
  | .swap o that =>
    let temp := s.object that
    if o ∈ s.live ∧ that ∈ s.live then some ([], (s.set that (s.object o)).set o temp) else none
  | .release o =>
    let (object', left) := release traits (s.object o)
    if o ∈ s.live then some ([], (s.set o left).giveOut object') else none
  | .destroy o =>
    let calls := destroy traits (s.object o)
    if o ∈ s.live then some (calls, (s.call calls).leave o) else none

def step (s : System O X) : Event O X → Option (List (Call X) × System O X)
  | .operation operation => s.operate traits operation
  | .callers owned =>
    some ([], { s with
      owned := owned
      count := fun object => s.count object + (owned object - s.owned object) })

/-- How many wrappers hold the object. -/
def holders (s : System O X) (object : X) : ℕ := Custody.holders s.live s.object object

end System

section Calls

variable {x object : X}

theorem count_retain_retain :
    [Call.retain object].count (.retain x) = if object == x then 1 else 0 := by
  simp [List.count_singleton]

theorem count_release_retain : [Call.retain object].count (.release x) = 0 := by
  simp

theorem count_release_release :
    [Call.release object].count (.release x) = if object == x then 1 else 0 := by
  simp [List.count_singleton]

theorem count_retain_release : [Call.release object].count (.retain x) = 0 := by
  simp

theorem net_append (calls calls' : List (Call X)) :
    net x (calls ++ calls') = net x calls + net x calls' := by
  simp only [net, List.count_append]
  omega

@[simp] theorem construct_snd (policy : OwnershipPolicy) :
    (construct traits object policy).2 = object := by
  unfold construct
  split_ifs
  · exact traits.retain_eq object
  · rfl

theorem construct_assume : construct traits object .assume = ([], object) := by simp [construct]

@[simp] theorem System.call_nil (s : System O X) : s.call [] = s := by
  simp [System.call, net]

theorem System.call_append (s : System O X) (calls calls' : List (Call X)) :
    s.call (calls ++ calls') = (s.call calls).call calls' := by
  simp [System.call, net_append, Int.add_assoc]

/-- The new object is retained before the old one is released. -/
theorem System.reset_fst (s : System O X) (o : O) (policy : OwnershipPolicy) :
    (s.reset traits o object policy).1 =
      (construct traits object policy).1 ++ destroy traits (s.object o) := rfl

theorem System.reset_snd (s : System O X) (o : O) (policy : OwnershipPolicy) :
    (s.reset traits o object policy).2 =
      (s.call ((construct traits object policy).1 ++ destroy traits (s.object o))).set o object :=
  congrArg (System.set _ o) (construct_snd traits policy)

end Calls

/-- The reference that a policy hands over. -/
def handed (object : X) : OwnershipPolicy → List X
  | .assume => [object]
  | .retain => []

/-- The references that were handed in or retained are released, given out, held by a wrapper,
or in a temporary of the operation that runs; an object has these and the ones of its callers. -/
structure Balanced (s : System O X) (temporaries : List X) : Prop where
  books (object : X) (h : object ≠ traits.invalidValue) :
    s.handedIn.count object + s.calls.count (.retain object) =
      s.calls.count (.release object) + s.givenOut.count object + s.holders object +
        temporaries.count object
  count (object : X) (h : object ≠ traits.invalidValue) :
    s.count object = s.owned object + s.holders object + temporaries.count object

namespace Balanced

variable {traits} {s : System O X} {temporaries : List X} {object : X} {o : O}

theorem start : Balanced traits (System.start traits : System O X) [] where
  books _ _ := rfl
  count _ _ := rfl

/-- The invalid value is not a reference. -/
theorem invalid_iff : Balanced traits s (traits.invalidValue :: temporaries) ↔
    Balanced traits s temporaries := by
  have hcount : ∀ x, x ≠ traits.invalidValue →
      (traits.invalidValue :: temporaries).count x = temporaries.count x :=
    fun x hx => List.count_cons_of_ne hx.symm
  constructor
  · exact fun h => ⟨fun x hx => hcount x hx ▸ h.books x hx, fun x hx => hcount x hx ▸ h.count x hx⟩
  · exact fun h => ⟨fun x hx => hcount x hx ▸ h.books x hx, fun x hx => hcount x hx ▸ h.count x hx⟩

theorem handIn (h : Balanced traits s temporaries) (hprovides : s.Provides traits object .assume) :
    Balanced traits (s.handIn object .assume) (object :: temporaries) where
  books x hx := by
    have hbooks := h.books x hx
    simp only [System.handIn, System.holders, List.count_append, List.count_cons,
      List.count_nil] at hbooks ⊢
    omega
  count x hx := by
    have hcount := h.count x hx
    simp only [System.handIn, System.holders, List.count_cons, Function.update_apply] at hcount ⊢
    by_cases hobject : x = object
    · subst hobject
      have howned : 0 < s.owned x := hprovides hx
      simp
      omega
    · simp [hobject, Ne.symm hobject, hcount]

theorem giveOut (h : Balanced traits s (object :: temporaries)) :
    Balanced traits (s.giveOut object) temporaries where
  books x hx := by
    have hbooks := h.books x hx
    simp only [System.giveOut, System.holders, List.count_append, List.count_cons,
      List.count_nil] at hbooks ⊢
    omega
  count x hx := by
    have hcount := h.count x hx
    simp only [System.giveOut, System.holders, List.count_cons, Function.update_apply] at hcount ⊢
    by_cases hobject : x = object
    · subst hobject
      simp at hcount ⊢
      omega
    · simpa [hobject, Ne.symm hobject] using hcount

theorem retain (h : Balanced traits s temporaries) :
    Balanced traits (s.call [.retain object]) (object :: temporaries) where
  books x hx := by
    have hbooks := h.books x hx
    simp only [System.call, System.holders, List.count_append, count_retain_retain,
      count_release_retain, List.count_cons (b := object)] at hbooks ⊢
    omega
  count x hx := by
    have hcount := h.count x hx
    simp only [System.call, System.holders, net, count_retain_retain, count_release_retain,
      List.count_cons (b := object)] at hcount ⊢
    omega

theorem release (h : Balanced traits s (object :: temporaries)) :
    Balanced traits (s.call [.release object]) temporaries where
  books x hx := by
    have hbooks := h.books x hx
    simp only [System.call, System.holders, List.count_append, count_retain_release,
      count_release_release, List.count_cons (b := object)] at hbooks ⊢
    omega
  count x hx := by
    have hcount := h.count x hx
    simp only [System.call, System.holders, net, count_retain_release, count_release_release,
      List.count_cons (b := object)] at hcount ⊢
    omega

/-- A wrapper takes what is in a temporary, which takes what the wrapper held. -/
theorem set (h : Balanced traits s (object :: temporaries)) (ho : o ∈ s.live) :
    Balanced traits (s.set o object) (s.object o :: temporaries) where
  books x hx := by
    have hbooks := h.books x hx
    have hholders := holders_update s.object object x ho
    simp only [System.set, System.holders, List.count_cons, List.count_nil] at hbooks hholders ⊢
    omega
  count x hx := by
    have hcount := h.count x hx
    have hholders := holders_update s.object object x ho
    simp only [System.set, System.holders, List.count_cons, List.count_nil] at hcount hholders ⊢
    omega

theorem enter (h : Balanced traits s (object :: temporaries)) (ho : o ∉ s.live) :
    Balanced traits (s.enter o object) temporaries where
  books x hx := by
    have hbooks := h.books x hx
    have hholders := holders_insert s.object object x ho
    simp only [System.enter, System.set, System.holders, List.count_cons, List.count_nil]
      at hbooks hholders ⊢
    omega
  count x hx := by
    have hcount := h.count x hx
    have hholders := holders_insert s.object object x ho
    simp only [System.enter, System.set, System.holders, List.count_cons, List.count_nil]
      at hcount hholders ⊢
    omega

theorem leave (h : Balanced traits s temporaries) (ho : o ∈ s.live) :
    Balanced traits (s.leave o) (s.object o :: temporaries) where
  books x hx := by
    have hbooks := h.books x hx
    have hholders := holders_erase s.object x ho
    simp only [System.leave, System.holders, List.count_cons, List.count_nil] at hbooks hholders ⊢
    omega
  count x hx := by
    have hcount := h.count x hx
    have hholders := holders_erase s.object x ho
    simp only [System.leave, System.holders, List.count_cons, List.count_nil] at hcount hholders ⊢
    omega

/-- What a temporary holds is released if it is not the invalid value. -/
theorem destroy (h : Balanced traits s (object :: temporaries)) :
    Balanced traits (s.call (destroy traits object)) temporaries := by
  rw [ScopedTypeRef.destroy]
  split_ifs with hobject
  · exact h.release
  · rw [System.call_nil]
    exact invalid_iff.mp (not_not.mp hobject ▸ h)

theorem provide {policy : OwnershipPolicy} (h : Balanced traits s [])
    (hprovides : s.Provides traits object policy) :
    Balanced traits (s.handIn object policy) (handed object policy) := by
  cases policy with
  | assume => exact h.handIn hprovides
  | retain => exact h

/-- By either policy the temporary has a reference of its own. -/
theorem construct {policy : OwnershipPolicy} (h : Balanced traits s (handed object policy)) :
    Balanced traits (s.call (construct traits object policy).1) [object] := by
  unfold ScopedTypeRef.construct
  cases policy with
  | assume => simpa [handed] using h
  | retain =>
    by_cases hobject : object = traits.invalidValue
    · simpa [handed, hobject, invalid_iff] using h
    · simpa [handed, hobject] using h.retain

/-- The wrapper changes its object for one that has a reference in the temporary. -/
theorem reset {policy : OwnershipPolicy} (h : Balanced traits s (handed object policy))
    (ho : o ∈ s.live) : Balanced traits (s.reset traits o object policy).2 [] := by
  have hset := h.construct.set (o := o) ho
  rw [System.reset_snd, System.call_append]
  exact hset.destroy

/-- What a wrapper holds has a count. -/
theorem count_pos (h : Balanced traits s temporaries) (ho : o ∈ s.live)
    (hvalid : s.object o ≠ traits.invalidValue) : 0 < s.count (s.object o) := by
  have hholders : 0 < s.holders (s.object o) := holders_pos_iff.mpr ⟨o, ho, rfl⟩
  rw [h.count _ hvalid]
  omega

theorem count_pos_of_provides {policy : OwnershipPolicy} (h : Balanced traits s temporaries)
    (hprovides : s.Provides traits object policy) (hvalid : object ≠ traits.invalidValue) :
    0 < s.count object := by
  have hpolicy := hprovides hvalid
  cases policy with
  | assume =>
    rw [h.count _ hvalid]
    simp only at hpolicy
    omega
  | retain => exact hpolicy

end Balanced

/-- Nothing is retained after something was released. -/
def RetainsFirst (calls : List (Call X)) : Prop :=
  ∃ retained released : List X, calls = retained.map .retain ++ released.map .release

section Order

variable {traits} {calls calls' : List (Call X)} {object x : X}

theorem net_nonneg (h : .release x ∉ calls) : 0 ≤ net x calls := by
  rw [net, List.count_eq_zero.mpr h]
  omega

theorem net_nonpos (h : .retain x ∉ calls) : net x calls ≤ 0 := by
  rw [net, List.count_eq_zero.mpr h]
  omega

/-- While retaining the count is not below the one before, while releasing it is not below the
one behind. -/
theorem RetainsFirst.le_net (h : RetainsFirst calls) (hp : calls' <+: calls) (x : X) :
    0 ≤ net x calls' ∨ net x calls ≤ net x calls' := by
  obtain ⟨retained, released, rfl⟩ := h
  obtain ⟨rest, hrest⟩ := hp
  obtain ⟨more, hmore, -⟩ | ⟨more, -, hmore⟩ := List.append_eq_append_iff.mp hrest
  · refine .inl (net_nonneg fun hx => ?_)
    have hmem : Call.release x ∈ retained.map Call.retain :=
      hmore ▸ List.mem_append_left more hx
    simp at hmem
  · have hnet : net x rest ≤ 0 := net_nonpos fun hx => by
      have hmem : Call.retain x ∈ released.map Call.release :=
        hmore ▸ List.mem_append_right more hx
      simp at hmem
    rw [← hrest, net_append]
    exact .inr (by omega)

theorem retainsFirst_nil : RetainsFirst ([] : List (Call X)) := ⟨[], [], rfl⟩

theorem retainsFirst_retain : RetainsFirst [Call.retain object] := ⟨[object], [], rfl⟩

theorem retainsFirst_release : RetainsFirst [Call.release object] := ⟨[], [object], rfl⟩

theorem retainsFirst_reset (s : System O X) (o : O) (policy : OwnershipPolicy) :
    RetainsFirst (s.reset traits o object policy).1 := by
  rw [System.reset_fst]
  unfold construct destroy
  refine ⟨if object ≠ traits.invalidValue ∧ policy = .retain then [object] else [],
    if s.object o ≠ traits.invalidValue then [s.object o] else [], ?_⟩
  split_ifs <;> rfl

end Order

/-- What an operation does for the counts: it keeps the books, its calls change the counts,
retaining comes first, and what a wrapper holds then existed before. -/
structure Keeps (s : System O X) (calls : List (Call X)) (s' : System O X) : Prop where
  balanced : Balanced traits s' []
  count_eq (object : X) : s'.count object = s.count object + net object calls
  retainsFirst : RetainsFirst calls
  existed : ∀ o ∈ s'.live, s'.object o ≠ traits.invalidValue → 0 < s.count (s'.object o)

section Operations

variable {traits} {s s' : System O X} {calls : List (Call X)} {object : X} {o that : O}
  {policy : OwnershipPolicy}

@[simp] theorem handIn_live (s : System O X) : (s.handIn object policy).live = s.live := by
  cases policy <;> rfl

@[simp] theorem handIn_object (s : System O X) : (s.handIn object policy).object = s.object := by
  cases policy <;> rfl

@[simp] theorem handIn_count (s : System O X) : (s.handIn object policy).count = s.count := by
  cases policy <;> rfl

theorem Keeps.of_count {t : System O X} (h : Keeps traits t calls s') (hcount : t.count = s.count) :
    Keeps traits s calls s' :=
  ⟨h.balanced, hcount ▸ h.count_eq, h.retainsFirst, hcount ▸ h.existed⟩

/-- Where one wrapper gets an object that existed, all of them hold objects that did. -/
theorem existed_update (h : Balanced traits s temporaries) {live : Finset O}
    (hlive : live ⊆ insert o s.live)
    (hobject : object ≠ traits.invalidValue → 0 < s.count object) :
    ∀ u ∈ live, Function.update s.object o object u ≠ traits.invalidValue →
      0 < s.count (Function.update s.object o object u) := by
  intro u hu hvalid
  rw [Function.update_apply] at hvalid ⊢
  split_ifs at hvalid ⊢ with heq
  · exact hobject hvalid
  · exact h.count_pos ((Finset.mem_insert.mp (hlive hu)).resolve_left heq) hvalid

/-- `reset` with the reference of the new object in a temporary. -/
theorem keeps_reset_of_handed (h : Balanced traits s (handed object policy)) (ho : o ∈ s.live)
    (hobject : object ≠ traits.invalidValue → 0 < s.count object) :
    Keeps traits s (s.reset traits o object policy).1 (s.reset traits o object policy).2 where
  balanced := h.reset ho
  count_eq x := rfl
  retainsFirst := retainsFirst_reset s o policy
  existed := by
    rw [System.reset_snd]
    exact existed_update h (Finset.subset_insert o s.live) hobject

/-- A wrapper comes to life with the reference in a temporary. -/
theorem keeps_enter (h : Balanced traits s (handed object policy)) (ho : o ∉ s.live)
    (hobject : object ≠ traits.invalidValue → 0 < s.count object) :
    Keeps traits s (construct traits object policy).1
      ((s.call (construct traits object policy).1).enter o (construct traits object policy).2) where
  balanced := by
    rw [construct_snd]
    exact h.construct.enter ho
  count_eq x := rfl
  retainsFirst := by
    unfold construct
    split_ifs
    · exact retainsFirst_retain
    · exact retainsFirst_nil
  existed := by
    rw [construct_snd]
    exact existed_update h subset_rfl hobject

theorem keeps_construct (h : Balanced traits s [])
    (hstep : s.operate traits (.construct o object policy) = some (calls, s')) :
    Keeps traits s calls s' := by
  simp only [System.operate, Option.ite_none_right_eq_some, Option.some.injEq,
    Prod.mk.injEq] at hstep
  obtain ⟨⟨ho, hprovides⟩, rfl, rfl⟩ := hstep
  have henter := keeps_enter (o := o) (h.provide hprovides) (by simpa using ho)
    (by simpa using h.count_pos_of_provides hprovides)
  exact henter.of_count (handIn_count s)

theorem keeps_reset (h : Balanced traits s [])
    (hstep : s.operate traits (.reset o object policy) = some (calls, s')) :
    Keeps traits s calls s' := by
  simp only [System.operate, Option.ite_none_right_eq_some, Option.some.injEq] at hstep
  obtain ⟨⟨ho, hprovides⟩, hreset⟩ := hstep
  have hkeeps := keeps_reset_of_handed (o := o) (h.provide hprovides) (by simpa using ho)
    (by simpa using h.count_pos_of_provides hprovides)
  rw [hreset] at hkeeps
  exact hkeeps.of_count (handIn_count s)

/-- A copy is constructed as from a raw value with `RETAIN`. -/
theorem copyConstruct_eq (that : X) :
    copyConstruct traits that = construct traits that .retain := by
  simp [copyConstruct, construct]

theorem keeps_copyConstruct (h : Balanced traits s [])
    (hstep : s.operate traits (.copyConstruct o that) = some (calls, s')) :
    Keeps traits s calls s' := by
  simp only [System.operate, Option.ite_none_right_eq_some, Option.some.injEq,
    Prod.mk.injEq, copyConstruct_eq] at hstep
  obtain ⟨⟨ho, hthat⟩, rfl, rfl⟩ := hstep
  have hhanded : Balanced traits s (handed (s.object that) .retain) := h
  exact keeps_enter hhanded ho (h.count_pos hthat)

theorem keeps_copyAssign (h : Balanced traits s [])
    (hstep : s.operate traits (.copyAssign o that) = some (calls, s')) :
    Keeps traits s calls s' := by
  simp only [System.operate, Option.ite_none_right_eq_some, Option.some.injEq] at hstep
  obtain ⟨⟨ho, hthat⟩, hreset⟩ := hstep
  have hhanded : Balanced traits s (handed (s.object that) .retain) := h
  have hkeeps := keeps_reset_of_handed hhanded ho (h.count_pos hthat)
  rwa [hreset] at hkeeps

/-- `release` into a temporary. -/
theorem Balanced.take (h : Balanced traits s []) (ho : o ∈ s.live) :
    Balanced traits (s.set o traits.invalidValue) [s.object o] :=
  (Balanced.invalid_iff.mpr h).set ho

theorem keeps_moveAssign (h : Balanced traits s [])
    (hstep : s.operate traits (.moveAssign o that) = some (calls, s')) :
    Keeps traits s calls s' := by
  simp only [System.operate, release, Option.ite_none_right_eq_some, Option.some.injEq] at hstep
  obtain ⟨⟨ho, hthat⟩, hreset⟩ := hstep
  have hhanded : Balanced traits (s.set that traits.invalidValue)
      (handed (s.object that) .assume) := h.take hthat
  have hkeeps := keeps_reset_of_handed hhanded ho (h.count_pos hthat)
  rw [hreset] at hkeeps
  exact hkeeps.of_count rfl

theorem keeps_moveConstruct (h : Balanced traits s [])
    (hstep : s.operate traits (.moveConstruct o that) = some (calls, s')) :
    Keeps traits s calls s' := by
  simp only [System.operate, release, Option.ite_none_right_eq_some, Option.some.injEq,
    Prod.mk.injEq] at hstep
  obtain ⟨⟨ho, hthat⟩, rfl, rfl⟩ := hstep
  have hhanded : Balanced traits (s.set that traits.invalidValue)
      (handed (s.object that) .assume) := h.take hthat
  have henter := keeps_enter hhanded ho (h.count_pos hthat)
  rw [construct_assume, System.call_nil] at henter
  exact henter.of_count rfl

theorem keeps_swap (h : Balanced traits s [])
    (hstep : s.operate traits (.swap o that) = some (calls, s')) : Keeps traits s calls s' := by
  simp only [System.operate, Option.ite_none_right_eq_some, Option.some.injEq,
    Prod.mk.injEq] at hstep
  obtain ⟨⟨ho, hthat⟩, rfl, rfl⟩ := hstep
  have hobject : Function.update s.object that (s.object o) o = s.object o := by
    rw [Function.update_apply]
    split_ifs <;> rfl
  have hholders : ∀ x, ((s.set that (s.object o)).set o (s.object that)).holders x =
      s.holders x := fun x => by
    have hfirst := holders_update s.object (s.object o) x hthat
    have hsecond := holders_update (Function.update s.object that (s.object o)) (s.object that) x ho
    rw [hobject] at hsecond
    simp only [System.holders, System.set]
    omega
  refine ⟨⟨fun x hx => ?_, fun x hx => ?_⟩, fun x => by simp [System.set, net],
    retainsFirst_nil, ?_⟩
  · rw [hholders]
    exact h.books x hx
  · rw [hholders]
    exact h.count x hx
  · intro u hu hvalid
    simp only [System.set, Function.update_apply] at hvalid ⊢
    split_ifs at hvalid ⊢
    · exact h.count_pos hthat hvalid
    · exact h.count_pos ho hvalid
    · exact h.count_pos hu hvalid

theorem keeps_release (h : Balanced traits s [])
    (hstep : s.operate traits (.release o) = some (calls, s')) : Keeps traits s calls s' := by
  simp only [System.operate, release, Option.ite_none_right_eq_some, Option.some.injEq,
    Prod.mk.injEq] at hstep
  obtain ⟨ho, rfl, rfl⟩ := hstep
  exact ⟨(h.take ho).giveOut, fun x => by simp [System.giveOut, System.set, net],
    retainsFirst_nil,
    existed_update h (Finset.subset_insert o s.live) fun hvalid => absurd rfl hvalid⟩

theorem keeps_destroy (h : Balanced traits s [])
    (hstep : s.operate traits (.destroy o) = some (calls, s')) : Keeps traits s calls s' := by
  simp only [System.operate, Option.ite_none_right_eq_some, Option.some.injEq,
    Prod.mk.injEq] at hstep
  obtain ⟨ho, rfl, rfl⟩ := hstep
  refine ⟨(h.leave ho).destroy, fun x => rfl, ?_,
    fun u hu => h.count_pos (Finset.mem_of_mem_erase hu)⟩
  unfold destroy
  split_ifs
  · exact retainsFirst_release
  · exact retainsFirst_nil

/-- Every operation. -/
theorem keeps_operate {operation : Operation O X} (h : Balanced traits s [])
    (hstep : s.operate traits operation = some (calls, s')) : Keeps traits s calls s' := by
  cases operation with
  | construct o object policy => exact keeps_construct h hstep
  | copyConstruct o that => exact keeps_copyConstruct h hstep
  | moveConstruct o that => exact keeps_moveConstruct h hstep
  | copyAssign o that => exact keeps_copyAssign h hstep
  | moveAssign o that => exact keeps_moveAssign h hstep
  | reset o object policy => exact keeps_reset h hstep
  | resetFrom o that => exact keeps_copyAssign h hstep
  | swap o that => exact keeps_swap h hstep
  | release o => exact keeps_release h hstep
  | destroy o => exact keeps_destroy h hstep

/-- During an operation the count of what a wrapper holds then is positive: where releasing has
begun, the count is at least the one behind the operation. -/
theorem Keeps.count_pos {calls' : List (Call X)} (h : Keeps traits s calls s')
    (hp : calls' <+: calls) (hvalid : object ≠ traits.invalidValue)
    (hheld : 0 < s'.holders object) : 0 < s.count object + net object calls' := by
  obtain ⟨o, ho, rfl⟩ := holders_pos_iff.mp hheld
  have hbefore := h.existed o ho hvalid
  have hbehind := h.balanced.count_pos ho hvalid
  rw [h.count_eq] at hbehind
  obtain hnet | hnet := h.retainsFirst.le_net hp (s'.object o) <;> omega

end Operations

/-- A step of a program, whatever its calls. -/
def Step (s : System O X) (event : Event O X) (s' : System O X) : Prop :=
  ∃ calls, s.step traits event = some (calls, s')

section Runs

variable {traits} {s s' : System O X} {calls : List (Call X)} {event : Event O X}
  {events : List (Event O X)}

theorem balanced_step (h : Balanced traits s [])
    (hstep : s.step traits event = some (calls, s')) : Balanced traits s' [] := by
  cases event with
  | operation operation => exact (keeps_operate h hstep).balanced
  | callers owned =>
    obtain ⟨rfl, rfl⟩ := Prod.mk.inj (Option.some.inj hstep)
    refine ⟨h.books, fun x hx => ?_⟩
    have hcount := h.count x hx
    simp only [System.holders] at hcount ⊢
    omega

theorem balanced_run (h : Run (Step traits) (System.start traits) events s) :
    Balanced traits s [] := by
  refine Run.history_induction (I := fun _ s => Balanced traits s []) Balanced.start ?_ h
  rintro _ _ _ _ ih ⟨calls, hstep⟩
  exact balanced_step ih hstep

end Runs

/-- After every sequence of operations, the references of an object that were handed in or
retained are released, given out, or held by one wrapper each; and during an operation the
count of an object that a wrapper holds after it does not come to zero. -/
theorem references_balanced {events : List (Event O X)} {s : System O X}
    (h : Run (Step traits) (System.start traits) events s) :
    (∀ object, object ≠ traits.invalidValue →
      s.handedIn.count object + s.calls.count (.retain object) =
        s.calls.count (.release object) + s.givenOut.count object + s.holders object) ∧
    ∀ operation calls s', s.operate traits operation = some (calls, s') →
      ∀ object, object ≠ traits.invalidValue → 0 < s'.holders object →
        ∀ calls', calls' <+: calls → 0 < s.count object + net object calls' := by
  have hbalanced := balanced_run h
  refine ⟨hbalanced.books, fun operation calls s' hstep object hvalid hheld calls' hp => ?_⟩
  exact (keeps_operate hbalanced hstep).count_pos hp hvalid hheld

/-- Two wrappers of one object, one of them assigned to itself and reset to what it holds; the
other one gives its reference out. -/
theorem references_balanced_aliases :
    let traits : Traits ℕ := ⟨0, id, fun _ => rfl⟩
    let events : List (Event Bool ℕ) :=
      [.callers fun object => if object = 7 then 1 else 0, .operation (.construct false 7 .assume),
        .operation (.copyConstruct true false), .operation (.copyAssign true true),
        .operation (.moveAssign true true), .operation (.reset true 7 .retain),
        .operation (.swap false true), .operation (.release false)]
    ∃ s, Run (Step traits) (System.start traits) events s ∧ s.holders 7 = 1 ∧
      s.handedIn.count 7 + s.calls.count (.retain 7) =
        s.calls.count (.release 7) + s.givenOut.count 7 + s.holders 7 := by
  intro traits events
  have hrun : (events.foldlM (fun (s : System Bool ℕ) event => (s.step traits event).map Prod.snd)
      (System.start traits)).any (fun s => s.holders 7 = 1) = true := by decide
  obtain ⟨s, hs, hend⟩ := (Option.any_eq_true _ _).mp hrun
  have hstep : Run (Step traits) (System.start traits) events s := by
    refine (Run.of_foldlM hs).mono fun {s e t} h => ?_
    obtain ⟨⟨calls, t'⟩, hstep, rfl⟩ := Option.map_eq_some_iff.mp h
    exact ⟨calls, hstep⟩
  exact ⟨s, hstep, of_decide_eq_true hend, (references_balanced traits hstep).1 7 (by decide)⟩

end Model

end MiniChromium.ScopedTypeRef
