import Mathlib.Tactic.Common

/-!
# Loops

The body of a loop goes on with a new state or leaves with a result; it has no outcome where
it would do something undefined. A run of the loop is bounded by a number of turns, and the rule
here gives a result that does not depend on the bound. A counted loop is `Fin.foldl`; its rule
carries a statement about the number of turns done.
-/
namespace MiniChromium.Loops

variable {σ β : Type*} {body : σ → Option (β ⊕ σ)} {s s' : σ} {b : β}

/-- At most `turns` turns of a loop, and what it leaves with. -/
def loop (body : σ → Option (β ⊕ σ)) : ℕ → σ → Option β
  | 0, _ => none
  | turns + 1, s =>
    match body s with
    | none => none
    | some (.inl b) => some b
    | some (.inr s') => loop body turns s'

theorem loop_leave (h : body s = some (.inl b)) (turns : ℕ) :
    loop body (turns + 1) s = some b := by
  rw [loop, h]

theorem loop_goOn (h : body s = some (.inr s')) (turns : ℕ) :
    loop body (turns + 1) s = loop body turns s' := by
  rw [loop, h]

/-- What a turn may do under an invariant: leave as it should, or keep the invariant and
bring a measure down. -/
def Progress (variant : σ → ℕ) (invariant : σ → Prop) (post : β → Prop) (s : σ) : β ⊕ σ → Prop
  | .inl b => post b
  | .inr s' => invariant s' ∧ variant s' < variant s

/-- A loop whose turns all make progress leaves, and however many more turns it is allowed, with
the same result. -/
theorem loop_of_progress (variant : σ → ℕ) (invariant : σ → Prop) (post : β → Prop)
    (hbody : ∀ s, invariant s → ∃ next, body s = some next ∧
      Progress variant invariant post s next)
    (s : σ) (hs : invariant s) :
    ∃ b, post b ∧ ∀ turns, variant s < turns → loop body turns s = some b := by
  induction hvariant : variant s using Nat.strongRecOn generalizing s with
  | ind n ih =>
    obtain ⟨next, hnext, hprogress⟩ := hbody s hs
    cases next with
    | inl b =>
      refine ⟨b, hprogress, fun turns hturns => ?_⟩
      obtain ⟨turns, rfl⟩ := Nat.exists_eq_succ_of_ne_zero (Nat.ne_zero_of_lt hturns)
      exact loop_leave hnext turns
    | inr s' =>
      obtain ⟨hs', hlt⟩ := hprogress
      obtain ⟨b, hpost, hloop⟩ := ih (variant s') (hvariant ▸ hlt) s' hs' rfl
      refine ⟨b, hpost, fun turns hturns => ?_⟩
      obtain ⟨turns, rfl⟩ := Nat.exists_eq_succ_of_ne_zero (Nat.ne_zero_of_lt hturns)
      rw [loop_goOn hnext]
      exact hloop turns (by omega)

/-- A counted loop keeps what its turns keep. -/
theorem foldl_induction {n : ℕ} (f : σ → Fin n → σ) (P : ℕ → σ → Prop) (init : σ) (hinit : P 0 init)
    (hturn : ∀ (i : Fin n) s, P i s → P (i + 1) (f s i)) : P n (Fin.foldl n f init) := by
  induction n with
  | zero => rwa [Fin.foldl_zero]
  | succ n ih =>
    rw [Fin.foldl_succ_last]
    exact hturn (Fin.last n) _ (ih (fun s i => f s i.castSucc) fun i s => hturn i.castSucc s)

end MiniChromium.Loops
