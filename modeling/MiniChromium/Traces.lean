import MiniChromium.Runs
import Mathlib.Data.List.ReduceOption

/-!
# Traces and simulations of systems with silent steps

A step without a label is silent. The trace of a run is the list of its labels without the
silent steps. A relation of states simulates one system by another one if every step is
matched by a run with the same trace; then so is every run.
-/
namespace MiniChromium.Runs

variable {σ τ ε : Type*} {step : σ → Option ε → σ → Prop} {step' : τ → Option ε → τ → Prop}
  {s t u : σ} {trace trace' : List ε}

/-- A run with the trace leads from one state to the other. -/
def Traces (step : σ → Option ε → σ → Prop) (s : σ) (trace : List ε) (t : σ) : Prop :=
  ∃ es, Run step s es t ∧ es.reduceOption = trace

namespace Traces

theorem refl (s : σ) : Traces step s [] s := ⟨[], .nil s, rfl⟩

theorem of_step {e : Option ε} (h : step s e t) : Traces step s e.toList t :=
  ⟨[e], .single h, by cases e <;> rfl⟩

theorem append (h : Traces step s trace t) (h' : Traces step t trace' u) :
    Traces step s (trace ++ trace') u := by
  obtain ⟨es, hrun, rfl⟩ := h
  obtain ⟨es', hrun', rfl⟩ := h'
  exact ⟨es ++ es', hrun.append hrun', List.reduceOption_append es es'⟩

theorem silent (h : step s none t) (h' : Traces step t trace u) : Traces step s trace u :=
  (of_step h).append h'

end Traces

/-- Every step of the first system is matched by a run of the second one with its trace. -/
def Simulates (step : σ → Option ε → σ → Prop) (step' : τ → Option ε → τ → Prop)
    (R : σ → τ → Prop) : Prop :=
  ∀ s t e s', R s t → step s e s' → ∃ t', Traces step' t e.toList t' ∧ R s' t'

theorem Simulates.run {R : σ → τ → Prop} (h : Simulates step step' R) {s s' : σ} {t : τ}
    {es : List (Option ε)} (hR : R s t) (hrun : Run step s es s') :
    ∃ t', Traces step' t es.reduceOption t' ∧ R s' t' := by
  induction hrun generalizing t with
  | nil s => exact ⟨t, .refl t, hR⟩
  | @cons s u s' e es hstep _ ih =>
    obtain ⟨t₁, htrace, hR₁⟩ := h s t e u hR hstep
    obtain ⟨t₂, htrace', hR₂⟩ := ih hR₁
    have happend : (e :: es).reduceOption = e.toList ++ es.reduceOption := by
      cases e <;> simp [List.reduceOption]
    exact ⟨t₂, happend ▸ htrace.append htrace', hR₂⟩

/-- A system has every trace of one that it simulates, and ends in a related state. -/
theorem Simulates.traces {R : σ → τ → Prop} (h : Simulates step step' R) {s s' : σ} {t : τ}
    (hR : R s t) (htrace : Traces step s trace s') : ∃ t', Traces step' t trace t' ∧ R s' t' := by
  obtain ⟨es, hrun, rfl⟩ := htrace
  exact h.run hR hrun

end MiniChromium.Runs
