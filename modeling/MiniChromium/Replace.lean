import Mathlib.Data.List.Infix
import Mathlib.Tactic.Common

/-!
# Replacing in one pass

A list is gone through from left to right. At each place a function looks at what is left and
may give a replacement for the next elements, which are then passed over, so that replacements
do not overlap and are not looked at themselves.
-/
namespace MiniChromium.Replace

variable {α : Type} {f : List α → Option (ℕ × List α)} {c : α} {front word new rest : List α}

/-- The number is that of the elements still to be passed over. A replacement comes with the
number of elements after the first one that it is for. -/
def replaceFrom (f : List α → Option (ℕ × List α)) : ℕ → List α → List α
  | _, [] => []
  | skip + 1, _ :: rest => replaceFrom f skip rest
  | 0, c :: rest =>
    match f (c :: rest) with
    | some (skip, new) => new ++ replaceFrom f skip rest
    | none => c :: replaceFrom f 0 rest

def replaceAll (f : List α → Option (ℕ × List α)) (text : List α) : List α := replaceFrom f 0 text

@[simp] theorem replaceAll_nil : replaceAll f [] = [] := rfl

theorem replaceFrom_append (word rest : List α) :
    replaceFrom f word.length (word ++ rest) = replaceAll f rest := by
  induction word with
  | nil => rfl
  | cons c word ih => exact ih

theorem replaceAll_cons_none (h : f (c :: rest) = none) :
    replaceAll f (c :: rest) = c :: replaceAll f rest := by
  rw [replaceAll, replaceFrom, h]
  rfl

theorem replaceAll_cons_some (h : f (c :: (word ++ rest)) = some (word.length, new)) :
    replaceAll f (c :: (word ++ rest)) = new ++ replaceAll f rest := by
  rw [replaceAll, replaceFrom, h, ← replaceFrom_append word rest]

/-- Nothing is replaced up to a place if no replacement begins with one of the elements. -/
theorem replaceAll_append (h : ∀ c ∈ front, ∀ rest, f (c :: rest) = none) (rest : List α) :
    replaceAll f (front ++ rest) = front ++ replaceAll f rest := by
  induction front with
  | nil => rfl
  | cons c front ih =>
    obtain ⟨hc, hfront⟩ := List.forall_mem_cons.mp h
    rw [List.cons_append, replaceAll_cons_none (hc _), ih hfront, List.cons_append]

theorem replaceAll_eq_self (h : ∀ text, f text = none) (text : List α) :
    replaceAll f text = text := by
  have happend : replaceAll f (text ++ []) = text ++ replaceAll f [] :=
    replaceAll_append (fun c _ rest => h (c :: rest)) []
  rwa [replaceAll_nil, List.append_nil] at happend

end MiniChromium.Replace
