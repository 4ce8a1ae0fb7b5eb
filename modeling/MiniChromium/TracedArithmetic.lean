import MiniChromium.IntegralType

/-!
# Traced arithmetic

A computation that checks conditions and does arithmetic on built-in integers, with the exact
value of each operation beside the value that its type gives it. A failed check has no result.
-/
namespace MiniChromium

/-- The exact values of the operations, with their types, and the result. -/
structure Traced (α : Type) where
  computed : List (IntegralType × ℤ)
  value : Option α

namespace Traced

variable {α β : Type}

instance : Monad Traced where
  pure a := ⟨[], some a⟩
  bind m f :=
    match m.value with
    | none => ⟨m.computed, none⟩
    | some a => ⟨m.computed ++ (f a).computed, (f a).value⟩

def check (p : Prop) [Decidable p] : Traced Unit := ⟨[], if p then some () else none⟩

/-- An operation of the type, from its exact value. -/
def compute (T : IntegralType) (z : ℤ) : Traced (Num T) := ⟨[(T, z)], some (Num.staticCast T z)⟩

/-- A result that came from elsewhere, if any did. -/
def ofOption (a : Option α) : Traced α := ⟨[], a⟩

@[simp] theorem value_pure (a : α) : (pure a : Traced α).value = some a := rfl

@[simp] theorem value_bind (m : Traced α) (f : α → Traced β) :
    (m >>= f).value = m.value.bind fun a => (f a).value := by
  simp only [bind]
  cases m.value <;> rfl

@[simp] theorem value_check (p : Prop) [Decidable p] :
    (check p).value = if p then some () else none := rfl

@[simp] theorem value_compute (T : IntegralType) (z : ℤ) :
    (compute T z).value = some (Num.staticCast T z) := rfl

@[simp] theorem value_ofOption (a : Option α) : (ofOption a).value = a := rfl

/-- No operation leaves the range of its type. -/
def Exact (m : Traced α) : Prop := ∀ step ∈ m.computed, step.1.InRange step.2

@[simp] theorem exact_pure (a : α) : (pure a : Traced α).Exact := fun _ h => nomatch h

@[simp] theorem exact_check (p : Prop) [Decidable p] : (check p).Exact := fun _ h => nomatch h

@[simp] theorem exact_ofOption (a : Option α) : (ofOption a).Exact := fun _ h => nomatch h

@[simp] theorem exact_compute {T : IntegralType} {z : ℤ} :
    (compute T z).Exact ↔ T.InRange z := by simp [Exact, compute]

@[simp] theorem exact_bind {m : Traced α} {f : α → Traced β} :
    (m >>= f).Exact ↔ m.Exact ∧ ∀ a ∈ m.value, (f a).Exact := by
  simp only [Exact, bind]
  cases m.value with
  | none => simp
  | some a => simp [or_imp, forall_and]

end Traced

end MiniChromium
