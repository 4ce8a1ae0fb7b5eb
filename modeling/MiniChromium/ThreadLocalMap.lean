import MiniChromium.ThreadLocalStorage
import MiniChromium.Runs

/-!
# Thread local storage is a map

What the slots are for: one value for each thread and each live slot variable. The
system with its table and its vectors refines this map in every run, whatever the
allocator calls while a vector is made.
-/
namespace MiniChromium

open Runs

/-- The value of each slot variable on each thread. -/
abbrev SlotMap (T X V : Type*) := T → X → Option V

section Map

variable {T X V : Type*} [DecidableEq T] [DecidableEq X]

namespace SlotMap

def empty : SlotMap T X V := fun _ _ => none

/-- A slot has no value on any thread when it is initialized or freed; only a call of
`Set` changes one, of its slot on its thread. -/
def apply (m : SlotMap T X V) : SlotEvent T X V → SlotMap T X V
  | .constructing _ => m
  | .initialized _ x _ => fun t => Function.update (m t) x none
  | .freed _ x => fun t => Function.update (m t) x none
  | .got _ _ _ => m
  | .stored t x value => Function.update m t (Function.update (m t) x value)

/-- The map after some events. -/
def after (events : List (SlotEvent T X V)) : SlotMap T X V := events.foldl apply empty

theorem after_append (events : List (SlotEvent T X V)) (e : SlotEvent T X V) :
    after (events ++ [e]) = (after events).apply e := by simp [after]

end SlotMap

end Map

/-- The index that a call of `Initialize` yields. -/
def SlotEvent.initializedSlot {T X V : Type*} : SlotEvent T X V → Option ℕ
  | .initialized _ _ slot => some slot
  | _ => none

/-- The indices that the calls of `Initialize` yield, in order. -/
def initializedSlots {T X V : Type*} (events : List (SlotEvent T X V)) : List ℕ :=
  events.filterMap SlotEvent.initializedSlot

theorem initializedSlots_append {T X V : Type*} (events : List (SlotEvent T X V))
    (e : SlotEvent T X V) :
    initializedSlots (events ++ [e]) = initializedSlots events ++ e.initializedSlot.toList := by
  rw [initializedSlots, List.filterMap_append]
  cases h : e.initializedSlot <;> simp [initializedSlots, h]

namespace TlsSystem

variable {T X V F : Type*} {s s' : TlsSystem T X V F} {t : T} {x : X}
  {request : SlotRequest V F} {e : SlotEvent T X V} {m : SlotMap T X V}

/-- The map that a state stands for. The indices of live slots are handed out and differ,
what is not handed out was never written on any thread, and a thread whose call waits
still has the array on its stack. -/
structure Represents (s : TlsSystem T X V F) (m : SlotMap T X V) : Prop where
  slot_range : ∀ x, (s.staticSlots x).initialized = true →
    0 < (s.staticSlots x).slot ∧ (s.staticSlots x).slot ≤ s.table.lastUsedTlsKey
  slot_injective : ∀ x y, (s.staticSlots x).initialized = true →
    (s.staticSlots y).initialized = true → (s.staticSlots x).slot = (s.staticSlots y).slot → x = y
  value : ∀ t x, (s.staticSlots x).initialized = true →
    s.tlsData t (s.staticSlots x).slot = m t x
  fresh : ∀ t slot, s.table.lastUsedTlsKey < slot → s.tlsData t slot = none
  stack : ∀ t, s.pending t ≠ none → s.tlsValue t = some .stack

theorem represents_start (stackData heapData : T → ℕ → Option V) :
    (start stackData heapData : TlsSystem T X V F).Represents SlotMap.empty where
  slot_range _ h := by simp [start] at h
  slot_injective _ _ h := by simp [start] at h
  value _ _ h := by simp [start] at h
  fresh _ _ _ := rfl
  stack _ h := absurd rfl h

variable [DecidableEq T]

@[simp] theorem store_table (slot : ℕ) (value : Option V) :
    (s.store t slot value).table = s.table := by
  unfold store
  split <;> rfl

@[simp] theorem store_staticSlots (slot : ℕ) (value : Option V) :
    (s.store t slot value).staticSlots = s.staticSlots := by
  unfold store
  split <;> rfl

@[simp] theorem store_tlsValue (slot : ℕ) (value : Option V) :
    (s.store t slot value).tlsValue = s.tlsValue := by
  unfold store
  split <;> rfl

@[simp] theorem store_pending (slot : ℕ) (value : Option V) :
    (s.store t slot value).pending = s.pending := by
  unfold store
  split <;> rfl

/-- A thread without a vector reads as one with a cleared vector, so making one changes
nothing. -/
theorem tlsData_construct (h : s.tlsValue t = none) :
    (s.construct t x request).tlsData = s.tlsData := by
  funext u
  by_cases hu : u = t
  · subst hu
    simp [tlsData, construct, h]
  · simp [tlsData, construct, Function.update_of_ne hu]

/-- The switch to the copy changes nothing, since nothing runs between the copy and the
switch. -/
theorem tlsData_switch (h : s.tlsValue t = some .stack) : (s.switch t).tlsData = s.tlsData := by
  funext u
  by_cases hu : u = t
  · subst hu
    simp [tlsData, switch, h]
  · simp [tlsData, switch, Function.update_of_ne hu]

theorem tlsData_store (h : s.tlsValue t ≠ none) (slot : ℕ) (value : Option V) :
    (s.store t slot value).tlsData =
      Function.update s.tlsData t (Function.update (s.tlsData t) slot value) := by
  funext u
  obtain ⟨vector, hv⟩ := Option.ne_none_iff_exists'.mp h
  by_cases hu : u = t
  · subst hu
    cases vector <;> simp [tlsData, store, hv]
  · cases vector <;> simp [tlsData, store, hv, Function.update_of_ne hu]

theorem Represents.construct (h : s.Represents m) (ht : s.tlsValue t = none) :
    (s.construct t x request).Represents m where
  slot_range := h.slot_range
  slot_injective := h.slot_injective
  value u y hy := by
    rw [tlsData_construct ht]
    exact h.value u y hy
  fresh u slot hslot := by
    rw [tlsData_construct ht]
    exact h.fresh u slot hslot
  stack u hu := by
    by_cases hut : u = t
    · subst hut
      exact Function.update_self ..
    · simp only [TlsSystem.construct, Function.update_of_ne hut] at hu ⊢
      exact h.stack u hu

theorem Represents.switch (h : s.Represents m) (ht : s.pending t ≠ none) :
    (s.switch t).Represents m where
  slot_range := h.slot_range
  slot_injective := h.slot_injective
  value u y hy := by
    rw [tlsData_switch (h.stack t ht)]
    exact h.value u y hy
  fresh u slot hslot := by
    rw [tlsData_switch (h.stack t ht)]
    exact h.fresh u slot hslot
  stack u hu := by
    by_cases hut : u = t
    · subst hut
      exact absurd (Function.update_self ..) hu
    · simp only [TlsSystem.switch, Function.update_of_ne hut] at hu ⊢
      exact h.stack u hu

/-- What a call answers, and the index it takes. -/
structure Answers (s : TlsSystem T X V F) (m : SlotMap T X V) (e : SlotEvent T X V)
    (s' : TlsSystem T X V F) : Prop where
  got : ∀ t x value, e = .got t x value → value = m t x
  lastUsed : s'.table.lastUsedTlsKey = s.table.lastUsedTlsKey + e.initializedSlot.toList.length
  initialized : ∀ slot, e.initializedSlot = some slot → slot = s'.table.lastUsedTlsKey

variable [DecidableEq X]

theorem Represents.initializeSlot (h : s.Represents m) {destructor : Option F}
    (hp : s.perform t x (.initializeSlot destructor) = some (s', e)) :
    s'.Represents (m.apply e) ∧ s.Answers m e s' := by
  obtain ⟨table, htable, heq⟩ := Option.map_eq_some_iff.mp hp
  obtain ⟨rfl, rfl⟩ := Prod.mk.inj heq
  have hlast : table.lastUsedTlsKey = s.table.lastUsedTlsKey + 1 :=
    SlotTable.lastUsed_initializeSlot htable
  -- the new index is above every index of a live slot
  have hold : ∀ y, (s.staticSlots y).initialized = true →
      (s.staticSlots y).slot ≠ table.lastUsedTlsKey := fun y hy => by
    have := h.slot_range y hy
    omega
  refine ⟨⟨?range, ?injective, ?value, ?fresh, h.stack⟩, ⟨nofun, hlast, ?initialized⟩⟩
  case range =>
    intro y hy
    by_cases hyx : y = x
    · subst hyx
      simp only [Function.update_self]
      omega
    · simp only [Function.update_of_ne hyx] at hy ⊢
      have := h.slot_range y hy
      omega
  case injective =>
    intro y z hy hz hyz
    by_cases hyx : y = x
    · by_cases hzx : z = x
      · rw [hyx, hzx]
      · subst hyx
        simp only [Function.update_self, Function.update_of_ne hzx] at hz hyz
        exact absurd hyz.symm (hold z hz)
    · by_cases hzx : z = x
      · subst hzx
        simp only [Function.update_self, Function.update_of_ne hyx] at hy hyz
        exact absurd hyz (hold y hy)
      · simp only [Function.update_of_ne hyx, Function.update_of_ne hzx] at hy hz hyz
        exact h.slot_injective y z hy hz hyz
  case value =>
    intro u y hy
    by_cases hyx : y = x
    · subst hyx
      simp only [Function.update_self, SlotMap.apply]
      exact h.fresh u _ (by omega)
    · simp only [Function.update_of_ne hyx, SlotMap.apply] at hy ⊢
      exact h.value u y hy
  case fresh =>
    intro u slot hslot
    exact h.fresh u slot (by simp only at hslot; omega)
  case initialized =>
    intro slot hslot
    exact (Option.some.inj hslot).symm

theorem Represents.free (h : s.Represents m) (hp : s.perform t x .free = some (s', e)) :
    s'.Represents (m.apply e) ∧ s.Answers m e s' := by
  obtain ⟨rfl, rfl⟩ := Prod.mk.inj (Option.some.inj hp)
  have hlive : ∀ {y}, (Function.update s.staticSlots x ⟨false, 0⟩ y).initialized = true →
      y ≠ x := by
    rintro y hy rfl
    rw [Function.update_self] at hy
    cases hy
  refine ⟨⟨?range, ?injective, ?value, h.fresh, h.stack⟩, ⟨nofun, rfl, nofun⟩⟩
  case range =>
    intro y hy
    have hyx := hlive hy
    simp only [Function.update_of_ne hyx] at hy ⊢
    exact h.slot_range y hy
  case injective =>
    intro y z hy hz hyz
    have hyx := hlive hy
    have hzx := hlive hz
    simp only [Function.update_of_ne hyx, Function.update_of_ne hzx] at hy hz hyz
    exact h.slot_injective y z hy hz hyz
  case value =>
    intro u y hy
    have hyx := hlive hy
    simp only [Function.update_of_ne hyx, SlotMap.apply] at hy ⊢
    exact h.value u y hy

theorem Represents.set (h : s.Represents m) {value : Option V} (hv : s.tlsValue t ≠ none)
    (hx : (s.staticSlots x).initialized = true)
    (hp : s.perform t x (.set value) = some (s', e)) :
    s'.Represents (m.apply e) ∧ s.Answers m e s' := by
  obtain ⟨rfl, rfl⟩ := Prod.mk.inj (Option.some.inj hp)
  refine ⟨⟨?range, ?injective, ?value, ?fresh, ?stack⟩, ⟨nofun, ?lastUsed, nofun⟩⟩
  case range => simpa using h.slot_range
  case injective => simpa using h.slot_injective
  case value =>
    intro u y hy
    rw [store_staticSlots] at hy ⊢
    rw [tlsData_store hv, SlotMap.apply]
    by_cases hut : u = t
    · subst hut
      simp only [Function.update_self]
      by_cases hyx : y = x
      · subst hyx
        simp only [Function.update_self]
      · rw [Function.update_of_ne hyx, Function.update_of_ne fun hslot =>
          hyx (h.slot_injective y x hy hx hslot)]
        exact h.value u y hy
    · simp only [Function.update_of_ne hut]
      exact h.value u y hy
  case fresh =>
    intro u slot hslot
    rw [store_table] at hslot
    rw [tlsData_store hv]
    by_cases hut : u = t
    · subst hut
      have := h.slot_range x hx
      rw [Function.update_self, Function.update_of_ne (by omega)]
      exact h.fresh u slot hslot
    · rw [Function.update_of_ne hut]
      exact h.fresh u slot hslot
  case stack => simpa using h.stack
  case lastUsed => simp [SlotEvent.initializedSlot]

theorem Represents.perform (h : s.Represents m)
    (hv : request.needsVector = true → s.tlsValue t ≠ none) (hx : s.Usable x request)
    (hp : s.perform t x request = some (s', e)) :
    s'.Represents (m.apply e) ∧ s.Answers m e s' := by
  cases request with
  | initializeSlot destructor => exact h.initializeSlot hp
  | free => exact h.free hp
  | get =>
    have hx := hx.resolve_left nofun
    obtain ⟨rfl, rfl⟩ := Prod.mk.inj (Option.some.inj hp)
    refine ⟨h, ⟨?_, rfl, nofun⟩⟩
    intro u y value heq
    obtain ⟨rfl, rfl, rfl⟩ := SlotEvent.got.inj heq
    exact h.value _ _ hx
  | set value => exact h.set (hv rfl) (hx.resolve_left nofun) hp

/-- A step follows the map. -/
theorem Step.refines (h : s.Represents m) (hstep : Step s e s') :
    s'.Represents (m.apply e) ∧ s.Answers m e s' := by
  cases hstep with
  | construct x request hneeds ht => exact ⟨h.construct ht, ⟨nofun, rfl, nofun⟩⟩
  | call x request hv hx hp => exact h.perform hv hx hp
  | finish hpending hx hp =>
    have hswitch := h.switch (Option.ne_none_iff_exists'.mpr ⟨_, hpending⟩)
    obtain ⟨hs', hanswers⟩ := hswitch.perform (fun _ => by simp [TlsSystem.switch]) hx hp
    exact ⟨hs', ⟨hanswers.got, hanswers.lastUsed, hanswers.initialized⟩⟩

variable {stackData heapData : T → ℕ → Option V} {events : List (SlotEvent T X V)}

/-- After a run the state stands for the map of its events, and the indices in use are
those of its calls of `Initialize`. -/
theorem run_refines (h : Run Step (start stackData heapData : TlsSystem T X V F) events s) :
    s.Represents (.after events) ∧
      initializedSlots events = List.range' 1 s.table.lastUsedTlsKey := by
  refine Run.history_induction (I := fun events s => s.Represents (.after events) ∧
    initializedSlots events = List.range' 1 s.table.lastUsedTlsKey) ?start ?step h
  case start => exact ⟨represents_start stackData heapData, rfl⟩
  case step =>
    rintro pre u e u' ⟨hu, hslots⟩ hstep
    obtain ⟨hu', hanswers⟩ := hstep.refines hu
    refine ⟨by rwa [SlotMap.after_append], ?_⟩
    rw [initializedSlots_append, hslots, hanswers.lastUsed]
    cases he : e.initializedSlot with
    | none => simp
    | some slot =>
      have hslot : slot = u.table.lastUsedTlsKey + 1 := by
        rw [hanswers.initialized slot he, hanswers.lastUsed, he]
        rfl
      simp [hslot, List.range'_concat, Nat.add_comm]

/-- The calls of one thread: `Initialize` makes the vector, and the allocator initializes
another slot and sets it before the vector is switched. -/
def reentrantEvents : List (SlotEvent Unit Bool ℕ) :=
  [.constructing (), .initialized () true 1, .stored () true (some 7), .initialized () false 2,
    .got () true (some 7)]

theorem reentrantRun :
    ∃ s, Run Step (start (fun _ _ => none) fun _ _ => none : TlsSystem Unit Bool ℕ Unit)
      reentrantEvents s :=
  ⟨_, .cons (.construct false (.initializeSlot none) rfl rfl)
    (.cons (.call true (.initializeSlot none) (fun _ => by decide) (.inl ⟨_, rfl⟩) rfl)
      (.cons (.call true (.set (some 7)) (fun _ => by decide) (.inr rfl) rfl)
        (.cons (.finish rfl (.inl ⟨_, rfl⟩) rfl)
          (.single (.call true .get (fun _ => by decide) (.inr rfl) rfl)))))⟩

end TlsSystem

end MiniChromium
