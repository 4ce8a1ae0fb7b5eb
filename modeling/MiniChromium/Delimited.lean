import Mathlib.Data.List.Infix
import Mathlib.Tactic.Common

/-!
# Parts that end at a delimiter

A list that is put together from parts is taken apart again in one way only, if a part does not
have the delimiter that stands behind it, or the one in front of it.
-/
namespace MiniChromium.Delimited

variable {α : Type} {a : α} {xs ys xs' ys' : List α}

/-- The first delimiter tells where the front part ends. -/
theorem append_cons_inj (hx : a ∉ xs) (hy : a ∉ ys) :
    xs ++ a :: xs' = ys ++ a :: ys' ↔ xs = ys ∧ xs' = ys' := by
  constructor
  · intro h
    induction xs generalizing ys with
    | nil => cases ys with
      | nil => exact ⟨rfl, (List.cons.inj h).2⟩
      | cons y ys => exact absurd (List.cons.inj h).1 (List.ne_of_not_mem_cons hy)
    | cons x xs ih => cases ys with
      | nil => exact absurd (List.cons.inj h).1.symm (List.ne_of_not_mem_cons hx)
      | cons y ys =>
        obtain ⟨hhead, htail⟩ := List.cons.inj h
        obtain ⟨hfront, hback⟩ :=
          ih (List.not_mem_of_not_mem_cons hx) (List.not_mem_of_not_mem_cons hy) htail
        exact ⟨by rw [hhead, hfront], hback⟩
  · rintro ⟨rfl, rfl⟩
    rfl

/-- The last delimiter tells where the back part begins. -/
theorem append_cons_inj_right (hx : a ∉ xs') (hy : a ∉ ys') :
    xs ++ a :: xs' = ys ++ a :: ys' ↔ xs = ys ∧ xs' = ys' := by
  have hreverse : xs'.reverse ++ a :: xs.reverse = ys'.reverse ++ a :: ys.reverse ↔
      xs'.reverse = ys'.reverse ∧ xs.reverse = ys.reverse :=
    append_cons_inj (by simpa using hx) (by simpa using hy)
  rw [List.reverse_inj, List.reverse_inj, and_comm] at hreverse
  rw [← hreverse, ← List.reverse_inj]
  simp

/-- A part and its delimiter are in front only where the part is. -/
theorem delimited_prefix_iff (hx : a ∉ xs) (hy : a ∉ ys) (rest : List α) :
    xs ++ [a] <+: ys ++ a :: rest ↔ xs = ys := by
  constructor
  · rintro ⟨back, hback⟩
    rw [List.append_assoc, List.singleton_append] at hback
    exact ((append_cons_inj hx hy).mp hback).1
  · rintro rfl
    exact ⟨rest, by simp⟩

end MiniChromium.Delimited
