import MiniChromium.ThreadExit

/-!
# What a thread destroys

The events of an exit are a run of the slots. A destructor gets the value that is in its
slot, which is empty until something stores into it again, and the exit ends only when
no slot is left with both a value and a destructor.
-/
namespace MiniChromium

open Runs

variable {V F W : Type*} {slots slots' : ThreadSlots V F} {slot : ℕ} {f : F} {v : V}
  {events : List (ExitEvent V F)} {e : ExitEvent V F}

/-- The event is the call of the slot's destructor. -/
def ExitEvent.destroysSlot (slot : ℕ) : ExitEvent V F → Bool
  | .destroy slot' _ _ => slot' = slot
  | .operation _ => false

/-- The event neither stores into the slot nor takes its destructor away. -/
def ExitEvent.KeepsSlot (slot : ℕ) : ExitEvent V F → Prop
  | .operation (.set slot' _) => slot' ≠ slot
  | .operation (.free slot') => slot' ≠ slot
  | _ => True

theorem ExitStep.deterministic {slots'' : ThreadSlots V F} (h : ExitStep slots e slots')
    (h' : ExitStep slots e slots'') : slots' = slots'' := by
  cases e with
  | destroy slot f v => exact h.2.2.trans h'.2.2.symm
  | operation operation => exact Option.some.inj (h.symm.trans h')

theorem SlotTable.destructors_initializeSlot {table table' : SlotTable F} {destructor : Option F}
    (h : table.initializeSlot destructor = some table') (hf : table.destructors slot = some f) :
    table'.destructors slot = some f := by
  unfold initializeSlot at h
  split_ifs at h
  obtain rfl := Option.some.inj h
  have := table.handed_out slot f hf
  show Function.update table.destructors (table.lastUsedTlsKey + 1) destructor slot = some f
  rw [Function.update_of_ne (by omega), hf]

/-- What an event does to the value of a slot. -/
theorem ExitStep.values_eq (h : ExitStep slots e slots') (slot : ℕ) :
    slots'.values slot = slots.values slot ∨
      (∃ value, e = .operation (.set slot value) ∧ slots'.values slot = value) ∨
      (∃ f v, e = .destroy slot f v ∧ slots'.values slot = none) := by
  have hset : ∀ i value, (slots.set i value).values slot =
      if slot = i then value else slots.values slot := fun i value => by
    simp [ThreadSlots.set, Function.update_apply]
  cases e with
  | destroy i f v =>
    obtain ⟨-, -, rfl⟩ := h
    rw [hset]
    split_ifs with hi
    · exact .inr (.inr ⟨f, v, by rw [hi], rfl⟩)
    · exact .inl rfl
  | operation operation =>
    cases operation with
    | initializeSlot destructor =>
      obtain ⟨table, -, rfl⟩ := Option.map_eq_some_iff.mp h
      exact .inl rfl
    | free i =>
      obtain rfl := Option.some.inj h
      exact .inl rfl
    | get i =>
      obtain rfl := Option.some.inj h
      exact .inl rfl
    | set i value =>
      obtain rfl := Option.some.inj h
      rw [hset]
      split_ifs with hi
      · exact .inr (.inl ⟨value, by rw [hi], rfl⟩)
      · exact .inl rfl

/-- A slot that keeps its destructor has it after the step. -/
theorem ExitStep.destructors_eq (h : ExitStep slots e slots') (hkeep : e.KeepsSlot slot)
    (hf : slots.table.destructors slot = some f) : slots'.table.destructors slot = some f := by
  cases e with
  | destroy i f v =>
    obtain ⟨-, -, rfl⟩ := h
    exact hf
  | operation operation =>
    cases operation with
    | initializeSlot destructor =>
      obtain ⟨table, htable, rfl⟩ := Option.map_eq_some_iff.mp h
      exact SlotTable.destructors_initializeSlot htable hf
    | free i =>
      obtain rfl := Option.some.inj h
      show Function.update slots.table.destructors i none slot = some f
      rw [Function.update_of_ne (Ne.symm hkeep), hf]
    | get i =>
      obtain rfl := Option.some.inj h
      exact hf
    | set i value =>
      obtain rfl := Option.some.inj h
      exact hf

/-- A value that was not in the slot has been stored there. -/
theorem set_mem_of_run (h : Run ExitStep slots events slots') (h0 : slots.values slot = none)
    (hv : slots'.values slot = some v) : .operation (.set slot (some v)) ∈ events := by
  have hstored : slots'.values slot = some v →
      .operation (.set slot (some v)) ∈ events := by
    refine Run.history_induction (I := fun es t => t.values slot = some v →
      .operation (.set slot (some v)) ∈ es) (fun hv => by rw [h0] at hv; cases hv) ?_ h
    intro pre t e t' ih hstep hv
    rcases hstep.values_eq slot with heq | ⟨value, rfl, heq⟩ | ⟨f, v', -, heq⟩
    · exact List.mem_append_left _ (ih (heq ▸ hv))
    · rw [heq] at hv
      subst hv
      exact List.mem_append_right _ List.mem_cons_self
    · rw [heq] at hv
      cases hv
  exact hstored hv

/-- An empty slot into which nothing is stored is not destroyed. -/
theorem filter_destroysSlot_of_none (h : Run ExitStep slots events slots')
    (h0 : slots.values slot = none) (hkeep : ∀ e ∈ events, e.KeepsSlot slot) :
    events.filter (·.destroysSlot slot) = [] := by
  induction h with
  | nil t => rfl
  | @cons t t' u e es hstep _ ih =>
    have hnot : ¬e.destroysSlot slot = true := by
      intro he
      cases e with
      | destroy i f v =>
        obtain rfl : i = slot := of_decide_eq_true he
        rw [hstep.1] at h0
        cases h0
      | operation operation => cases he
    have h0' : t'.values slot = none := by
      rcases hstep.values_eq slot with heq | ⟨value, rfl, -⟩ | ⟨f, v, -, heq⟩
      · rw [heq, h0]
      · exact absurd rfl (hkeep _ List.mem_cons_self)
      · exact heq
    rw [List.filter_cons_of_neg hnot]
    exact ih h0' fun e he => hkeep e (List.mem_cons_of_mem _ he)

/-- A value that is not overwritten, in a slot that keeps its destructor, is destroyed
once before all slots are. -/
theorem filter_destroysSlot_of_some (h : Run ExitStep slots events slots')
    (hv : slots.values slot = some v) (hf : slots.table.destructors slot = some f)
    (hkeep : ∀ e ∈ events, e.KeepsSlot slot) (hend : slots'.Destroyed) :
    events.filter (·.destroysSlot slot) = [.destroy slot f v] := by
  induction h with
  | nil t =>
    rw [hend slot f hf] at hv
    cases hv
  | @cons t t' u e es hstep hrun ih =>
    have hkeep' : ∀ e ∈ es, e.KeepsSlot slot := fun e he => hkeep e (List.mem_cons_of_mem _ he)
    have hf' := hstep.destructors_eq (hkeep _ List.mem_cons_self) hf
    rcases hstep.values_eq slot with heq | ⟨value, rfl, -⟩ | ⟨f', v', rfl, heq⟩
    · have hnot : ¬e.destroysSlot slot = true := by
        intro he
        cases e with
        | destroy i f v =>
          obtain rfl : i = slot := of_decide_eq_true he
          rw [hstep.2.2] at heq
          simp [ThreadSlots.set, hv] at heq
        | operation operation => cases he
      rw [List.filter_cons_of_neg hnot]
      exact ih (heq ▸ hv) hf' hkeep' hend
    · exact absurd rfl (hkeep _ List.mem_cons_self)
    · obtain rfl : v' = v := Option.some.inj (hstep.1.symm.trans hv)
      obtain rfl : f' = f := Option.some.inj (hstep.2.1.symm.trans hf)
      rw [List.filter_cons_of_pos (by simp [ExitEvent.destroysSlot]),
        filter_destroysSlot_of_none hrun heq hkeep']

section Exit

variable {destroy : F → V → ThreadSlots V F → W → List (SlotOperation V F) × W}
  {s s' : ExitState V F W}

/-- The loop returns after a scan that left nothing to destroy. -/
theorem exitLoop_spec {n : ℕ} (h : exitLoop destroy n s = .completed s') :
    Continues s s' ∧ s'.slots.Destroyed := by
  induction n generalizing s with
  | zero => cases h
  | succ n ih =>
    rw [exitLoop] at h
    cases hscan : scan destroy s with
    | none => rw [hscan] at h; cases h
    | some next =>
      obtain ⟨hcont, -, hclean⟩ := scan_spec hscan
      rw [hscan] at h
      dsimp only at h
      split_ifs at h with hn hneed
      · obtain ⟨hcont', hend⟩ := ih h
        exact ⟨hcont.trans hcont', hend⟩
      · obtain rfl := ExitResult.completed.inj h
        exact ⟨hcont, hclean (Bool.eq_false_iff.mpr hneed)⟩

/-- When the exit returns no slot has both a value and a destructor. Every destructor was
called with the value in its slot, stored there since the call before, and a value that
is not overwritten, in a slot that keeps its destructor, was destroyed exactly once. -/
theorem onThreadExitInternal_destroys {slots : ThreadSlots V F} {world : W}
    (h : onThreadExitInternal destroy slots world = .completed s) :
    s.slots.Destroyed ∧ Run ExitStep slots s.events s.slots ∧
    (∀ pre slot f v post, s.events = pre ++ .destroy slot f v :: post →
      ∃ t, Run ExitStep slots pre t ∧ t.values slot = some v ∧
        t.table.destructors slot = some f ∧
        ∀ pre' f' v' mid, pre = pre' ++ .destroy slot f' v' :: mid →
          .operation (.set slot (some v)) ∈ mid) ∧
    (∀ pre t slot f v post, s.events = pre ++ post → Run ExitStep slots pre t →
      t.values slot = some v → t.table.destructors slot = some f →
      (∀ e ∈ post, e.KeepsSlot slot) →
      post.filter (·.destroysSlot slot) = [.destroy slot f v]) := by
  obtain ⟨⟨events, hevents, hrun⟩, hend⟩ := exitLoop_spec h
  obtain rfl : s.events = events := hevents.trans (List.nil_append events)
  refine ⟨hend, hrun, ?_, ?_⟩
  · intro pre slot f v post hsplit
    rw [hsplit] at hrun
    obtain ⟨t, t', hpre, ⟨hv, hf, -⟩, -⟩ := hrun.cut
    refine ⟨t, hpre, hv, hf, ?_⟩
    rintro pre' f' v' mid rfl
    obtain ⟨u, u', -, ⟨-, -, rfl⟩, hmid⟩ := hpre.cut
    exact set_mem_of_run hmid (by simp [ThreadSlots.set]) hv
  · intro pre t slot f v post hsplit hpre hv hf hkeep
    rw [hsplit] at hrun
    obtain ⟨t', hpre', hpost⟩ := Run.append_iff.mp hrun
    obtain rfl := hpre.deterministic hpre' ExitStep.deterministic
    exact filter_destroysSlot_of_some hpost hv hf hkeep hend

/-- A destructor that stores into its own slot twice is called three times. -/
theorem onThreadExitInternal_destroys_countdown :
    ∃ s, onThreadExitInternal countdown (countdownSlots 2) () = .completed s ∧
      s.slots.Destroyed ∧
      s.events.filter (·.destroysSlot 1) = [.destroy 1 () 2, .destroy 1 () 1, .destroy 1 () 0] := by
  have h : onThreadExitInternal countdown (countdownSlots 2) () = .completed _ := rfl
  exact ⟨_, h, (onThreadExitInternal_destroys h).1, rfl⟩

end Exit

end MiniChromium
