import Mathlib.Data.List.Induction
import Mathlib.Tactic.Common

/-!
# Runs of a labelled transition system

A run goes from a state to a state through a list of labels. The rules here are the
induction along a run with its history as a ghost variable, and the cut of a run at one
of its labels.
-/
namespace MiniChromium.Runs

variable {σ ε : Type*} {step : σ → ε → σ → Prop} {s t u : σ} {e : ε} {es es' : List ε}

/-- A run through the labels, in order. -/
inductive Run (step : σ → ε → σ → Prop) : σ → List ε → σ → Prop
  | nil (s : σ) : Run step s [] s
  | cons {s t u : σ} {e : ε} {es : List ε} : step s e t → Run step t es u → Run step s (e :: es) u

namespace Run

theorem single (h : step s e t) : Run step s [e] t := .cons h (.nil t)

theorem mono {step' : σ → ε → σ → Prop} (h : Run step s es t)
    (hstep : ∀ {s e t}, step s e t → step' s e t) : Run step' s es t := by
  induction h with
  | nil s => exact .nil s
  | cons he _ ih => exact .cons (hstep he) ih

theorem append (h : Run step s es t) (h' : Run step t es' u) : Run step s (es ++ es') u := by
  induction h with
  | nil s => exact h'
  | cons hstep _ ih => exact .cons hstep (ih h')

theorem append_iff : Run step s (es ++ es') u ↔ ∃ t, Run step s es t ∧ Run step t es' u := by
  constructor
  · intro h
    induction es generalizing s with
    | nil => exact ⟨s, .nil s, h⟩
    | cons e es ih =>
      cases h with
      | cons hstep h =>
        obtain ⟨t, ht, hu⟩ := ih h
        exact ⟨t, .cons hstep ht, hu⟩
  · rintro ⟨t, ht, hu⟩
    exact ht.append hu

/-- Where a label stands in a run, its step is taken. -/
theorem cut (h : Run step s (es ++ e :: es') u) :
    ∃ t t', Run step s es t ∧ step t e t' ∧ Run step t' es' u := by
  obtain ⟨t, ht, h⟩ := append_iff.mp h
  cases h with
  | cons hstep hu => exact ⟨t, _, ht, hstep, hu⟩

/-- The runs of a step function. -/
theorem of_foldlM {f : σ → ε → Option σ} (h : es.foldlM f s = some t) :
    Run (fun s e t => f s e = some t) s es t := by
  induction es generalizing s with
  | nil =>
    obtain rfl := Option.some.inj h
    exact .nil s
  | cons e es ih =>
    rw [List.foldlM_cons] at h
    obtain ⟨u, hu, h⟩ := Option.bind_eq_some_iff.mp h
    exact .cons hu (ih h)

/-- A relation that every step keeps holds at the ends of two runs through the same labels. -/
theorem simulation {τ : Type*} {f : σ → ε → Option σ} {g : τ → ε → Option τ} {R : σ → τ → Prop}
    (hstep : ∀ {s e s' x}, R s x → f s e = some s' → ∃ x', g x e = some x' ∧ R s' x')
    {x : τ} (hx : R s x) (h : es.foldlM f s = some t) : ∃ y, es.foldlM g x = some y ∧ R t y := by
  induction es generalizing s x with
  | nil =>
    obtain rfl := Option.some.inj h
    exact ⟨x, rfl, hx⟩
  | cons e es ih =>
    rw [List.foldlM_cons] at h
    obtain ⟨s', hs', h⟩ := Option.bind_eq_some_iff.mp h
    obtain ⟨x', hx', hR⟩ := hstep hx hs'
    obtain ⟨y, hy, hend⟩ := ih hR h
    exact ⟨y, by rw [List.foldlM_cons, hx', Option.bind_eq_bind, Option.bind_some, hy], hend⟩

theorem deterministic (h : Run step s es t) (h' : Run step s es u)
    (hstep : ∀ {s e t t'}, step s e t → step s e t' → t = t') : t = u := by
  induction h with
  | nil s =>
    cases h'
    rfl
  | cons he _ ih =>
    cases h' with
    | cons he' h' =>
      obtain rfl := hstep he he'
      exact ih h'

/-- What holds at the start and is kept by every step, also of the labels so far, holds
at the end of every run. -/
theorem history_induction {I : List ε → σ → Prop} (h0 : I [] s)
    (hstep : ∀ {pre t e t'}, I pre t → step t e t' → I (pre ++ [e]) t')
    (h : Run step s es t) : I es t := by
  induction es using List.reverseRecOn generalizing t with
  | nil =>
    cases h
    exact h0
  | append_singleton es e ih =>
    obtain ⟨t₀, t₁, hrun, he, hnil⟩ := cut h
    cases hnil
    exact hstep (ih hrun) he

end Run

end MiniChromium.Runs
