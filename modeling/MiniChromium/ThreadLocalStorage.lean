import Mathlib.Data.Nat.Basic
import Mathlib.Logic.Function.Basic
import Mathlib.Tactic.Common

/-!
# Thread local storage

The slots of `ThreadLocalStorage` live in a global table of destructors and in one vector
a thread, which is made when the thread first needs it. `NULL` is `none`, and a destructor
is a function pointer of an arbitrary type.
-/
namespace MiniChromium

/-- `kThreadLocalStorageSize`. -/
def kThreadLocalStorageSize : ℕ := 256

/-- `g_last_used_tls_key` and `g_tls_destructors`. Only slots handed out have a
destructor. -/
structure SlotTable (F : Type*) where
  lastUsedTlsKey : ℕ
  destructors : ℕ → Option F
  lastUsed_lt : lastUsedTlsKey < kThreadLocalStorageSize
  handed_out : ∀ slot f, destructors slot = some f → 0 < slot ∧ slot ≤ lastUsedTlsKey

namespace SlotTable

variable {F : Type*}

/-- A table without slots. -/
def empty : SlotTable F where
  lastUsedTlsKey := 0
  destructors _ := none
  lastUsed_lt := by decide
  handed_out _ _ h := nomatch h

/-- `StaticSlot::Initialize` past the vector; the new slot is the last one used. It ends
the process when there is none left. -/
def initializeSlot (table : SlotTable F) (destructor : Option F) : Option (SlotTable F) :=
  if h : table.lastUsedTlsKey + 1 < kThreadLocalStorageSize then
    some
      { lastUsedTlsKey := table.lastUsedTlsKey + 1
        destructors := Function.update table.destructors (table.lastUsedTlsKey + 1) destructor
        lastUsed_lt := h
        handed_out := fun slot f hf => by
          by_cases hs : slot = table.lastUsedTlsKey + 1
          · omega
          · rw [Function.update_of_ne hs] at hf
            have := table.handed_out slot f hf
            omega }
  else none

theorem lastUsed_initializeSlot {table table' : SlotTable F} {destructor : Option F}
    (h : table.initializeSlot destructor = some table') :
    table'.lastUsedTlsKey = table.lastUsedTlsKey + 1 := by
  unfold initializeSlot at h
  split at h
  · rw [← Option.some.inj h]
  · cases h

/-- `StaticSlot::Free`. -/
def free (table : SlotTable F) (slot : ℕ) : SlotTable F :=
  { table with
    destructors := Function.update table.destructors slot none
    handed_out := fun slot' f hf => by
      by_cases hs : slot' = slot
      · subst hs
        rw [Function.update_self] at hf
        cases hf
      · rw [Function.update_of_ne hs] at hf
        exact table.handed_out slot' f hf }

end SlotTable

/-- `ThreadLocalStorage::StaticSlot`. -/
structure StaticSlot where
  initialized : Bool
  slot : ℕ

/-- The array that a thread's value of the native key points to: the one on the stack of
`ConstructTlsVector`, or the one it allocates. -/
inductive TlsVector
  | stack | heap
  deriving DecidableEq

/-- A call on a slot. -/
inductive SlotRequest (V F : Type*)
  | initializeSlot (destructor : Option F)
  | free
  | get
  | set (value : Option V)

/-- A call uses the vector of its thread; freeing a slot does not. -/
def SlotRequest.needsVector {V F : Type*} : SlotRequest V F → Bool
  | .free => false
  | _ => true

/-- A vector begins to be made, or a call is done. -/
inductive SlotEvent (T X V : Type*)
  | constructing (thread : T)
  | initialized (thread : T) (x : X) (slot : ℕ)
  | freed (thread : T) (x : X)
  | got (thread : T) (x : X) (value : Option V)
  | stored (thread : T) (x : X) (value : Option V)

/-- The table, the slot variables, and for each thread its value of the native key, its
two arrays, and the call that waits while the allocator runs. The native key is the one
that the compare-and-swap on `g_native_tls_key` has settled. -/
structure TlsSystem (T X V F : Type*) where
  table : SlotTable F
  staticSlots : X → StaticSlot
  tlsValue : T → Option TlsVector
  stackData : T → ℕ → Option V
  heapData : T → ℕ → Option V
  pending : T → Option (X × SlotRequest V F)

namespace TlsSystem

variable {T X V F : Type*}

/-- Nothing is set up; what the arrays will hold is arbitrary. -/
def start (stackData heapData : T → ℕ → Option V) : TlsSystem T X V F where
  table := .empty
  staticSlots _ := ⟨false, 0⟩
  tlsValue _ := none
  stackData := stackData
  heapData := heapData
  pending _ := none

/-- The array in use. -/
def tlsData (s : TlsSystem T X V F) (t : T) : ℕ → Option V :=
  match s.tlsValue t with
  | none => fun _ => none
  | some .stack => s.stackData t
  | some .heap => s.heapData t

variable [DecidableEq T] [DecidableEq X]

/-- `tls_data[slot] = value`. -/
def store (s : TlsSystem T X V F) (t : T) (slot : ℕ) (value : Option V) : TlsSystem T X V F :=
  match s.tlsValue t with
  | none => s
  | some .stack =>
    let data := Function.update (s.stackData t) slot value
    { s with stackData := Function.update s.stackData t data }
  | some .heap =>
    let data := Function.update (s.heapData t) slot value
    { s with heapData := Function.update s.heapData t data }

/-- A call once the thread has its vector. It ends the process when there is no slot left. -/
def perform (s : TlsSystem T X V F) (t : T) (x : X) :
    SlotRequest V F → Option (TlsSystem T X V F × SlotEvent T X V)
  | .initializeSlot destructor =>
    (s.table.initializeSlot destructor).map fun table =>
      ({ s with
          table := table
          staticSlots := Function.update s.staticSlots x ⟨true, table.lastUsedTlsKey⟩ },
        .initialized t x table.lastUsedTlsKey)
  | .free =>
    some ({ s with
        table := s.table.free (s.staticSlots x).slot
        staticSlots := Function.update s.staticSlots x ⟨false, 0⟩ }, .freed t x)
  | .get => some (s, .got t x (s.tlsData t (s.staticSlots x).slot))
  | .set value => some (s.store t (s.staticSlots x).slot value, .stored t x value)

/-- `ConstructTlsVector` up to the call of the allocator: the cleared array on the stack
is in use. -/
def construct (s : TlsSystem T X V F) (t : T) (x : X) (request : SlotRequest V F) :
    TlsSystem T X V F :=
  { s with
    stackData := Function.update s.stackData t fun _ => none
    tlsValue := Function.update s.tlsValue t (some .stack)
    pending := Function.update s.pending t (some (x, request)) }

/-- The rest of `ConstructTlsVector`: the array is copied, and the copy is in use. -/
def switch (s : TlsSystem T X V F) (t : T) : TlsSystem T X V F :=
  { s with
    heapData := Function.update s.heapData t (s.stackData t)
    tlsValue := Function.update s.tlsValue t (some .heap)
    pending := Function.update s.pending t none }

/-- A slot is initialized before it is used. -/
def Usable (s : TlsSystem T X V F) (x : X) (request : SlotRequest V F) : Prop :=
  (∃ destructor, request = .initializeSlot destructor) ∨ (s.staticSlots x).initialized = true

/-- A step of one thread. Between `construct` and `finish` every thread may go on, the
constructing one with what its allocator calls. A call is one step: of what threads share
it increments the counter, which is atomic, and writes the entry of its own index. -/
inductive Step : TlsSystem T X V F → SlotEvent T X V → TlsSystem T X V F → Prop
  | construct {s : TlsSystem T X V F} {t : T} (x : X) (request : SlotRequest V F) :
    request.needsVector = true → s.tlsValue t = none →
      Step s (.constructing t) (s.construct t x request)
  | call {s s' : TlsSystem T X V F} {t : T} (x : X) (request : SlotRequest V F)
    {e : SlotEvent T X V} :
    (request.needsVector = true → s.tlsValue t ≠ none) → s.Usable x request →
      s.perform t x request = some (s', e) → Step s e s'
  | finish {s s' : TlsSystem T X V F} {t : T} {x : X} {request : SlotRequest V F}
    {e : SlotEvent T X V} :
    s.pending t = some (x, request) → (s.switch t).Usable x request →
      (s.switch t).perform t x request = some (s', e) → Step s e s'

end TlsSystem

end MiniChromium
