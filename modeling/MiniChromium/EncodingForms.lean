import Mathlib.Data.List.Infix
import Mathlib.Tactic.Common

/-!
# Encoding forms

An encoding form writes each character as a string of code units. A scan reads any string
of units from left to right, a character or an ill-formed item at a time; its text is what
it read, with a replacement for what is ill-formed. Transcoding is scanning in one form
and writing the text in another.
-/
namespace MiniChromium.Encoding

/-- `Next w o n` says that the first item of a scan of `w` is `o`, and takes `n` units. -/
structure EncodingForm (γ α : Type*) where
  encode : γ → List α
  Next : List α → Option γ → ℕ → Prop
  encode_ne_nil : ∀ c, encode c ≠ []
  next_some_iff : ∀ {w c n}, Next w (some c) n ↔ encode c <+: w ∧ n = (encode c).length
  next_pos : ∀ {w o n}, Next w o n → 0 < n
  next_le : ∀ {w o n}, Next w o n → n ≤ w.length
  next_unique : ∀ {w o o' n m}, Next w o n → Next w o' m → o = o' ∧ n = m
  exists_next : ∀ {w}, w ≠ [] → ∃ o n, Next w o n

/-- The characters of a scan, with a replacement for its ill-formed items. -/
def text {γ : Type*} (replacement : γ) (os : List (Option γ)) : List γ :=
  os.map (·.getD replacement)

@[simp] theorem text_map_some {γ : Type*} (replacement : γ) (cs : List γ) :
    text replacement (cs.map some) = cs := by
  rw [text, List.map_map]
  exact List.map_id cs

theorem exists_map_some {γ : Type*} {os : List (Option γ)} (h : none ∉ os) :
    ∃ cs : List γ, os = cs.map some := by
  induction os with
  | nil => exact ⟨[], rfl⟩
  | cons o os ih =>
    obtain ⟨ho, hos⟩ := not_or.mp (mt List.mem_cons.mpr h)
    obtain ⟨c, rfl⟩ := Option.ne_none_iff_exists'.mp (Ne.symm ho)
    obtain ⟨cs, rfl⟩ := ih hos
    exact ⟨c :: cs, rfl⟩

theorem all_isSome_iff {γ : Type*} {os : List (Option γ)} :
    os.all Option.isSome = true ↔ none ∉ os := by
  rw [List.all_eq_true]
  refine ⟨fun h hnone => Bool.false_ne_true (h none hnone), fun h o ho => ?_⟩
  cases o with
  | none => exact absurd ho h
  | some c => rfl

namespace EncodingForm

variable {γ α β : Type*} (F : EncodingForm γ α) (G : EncodingForm γ β)

/-- The string of a sequence of characters. -/
def encodeAll (cs : List γ) : List α := cs.flatMap F.encode

/-- The string encodes a sequence of characters. -/
def WellFormed (w : List α) : Prop := ∃ cs, w = F.encodeAll cs

/-- The items of a whole string. -/
inductive Scans : List α → List (Option γ) → Prop
  | nil : Scans [] []
  | cons {w : List α} {o : Option γ} {n : ℕ} {os : List (Option γ)} :
    F.Next w o n → Scans (w.drop n) os → Scans w (o :: os)

variable {F G} {w w' : List α} {o : Option γ} {os os' : List (Option γ)} {cs : List γ} {n : ℕ}
  {replacement : γ}

theorem not_next_nil : ¬F.Next [] o n := fun h => by
  have hpos := F.next_pos h
  have hle := F.next_le h
  rw [List.length_nil] at hle
  omega

theorem Scans.unique (h : F.Scans w os) (h' : F.Scans w os') : os = os' := by
  induction h generalizing os' with
  | nil =>
    cases h' with
    | nil => rfl
    | cons hn _ => exact absurd hn not_next_nil
  | cons hn _ ih =>
    cases h' with
    | nil => exact absurd hn not_next_nil
    | cons hn' h' =>
      obtain ⟨rfl, rfl⟩ := F.next_unique hn hn'
      rw [ih h']

theorem exists_scans (F : EncodingForm γ α) (w : List α) : ∃ os, F.Scans w os := by
  induction hlength : w.length using Nat.strong_induction_on generalizing w with
  | h n ih =>
    by_cases hw : w = []
    · exact ⟨[], hw ▸ .nil⟩
    · obtain ⟨o, m, hn⟩ := F.exists_next hw
      have hpos := F.next_pos hn
      have hle := F.next_le hn
      obtain ⟨os, hos⟩ := ih (w.drop m).length (by rw [List.length_drop]; omega) (w.drop m) rfl
      exact ⟨o :: os, .cons hn hos⟩

/-- A scan reads the characters that were written, and goes on behind them. -/
theorem Scans.encodeAll_append (h : F.Scans w os) (cs : List γ) :
    F.Scans (F.encodeAll cs ++ w) (cs.map some ++ os) := by
  induction cs with
  | nil => exact h
  | cons c cs ih =>
    have hsplit : F.encodeAll (c :: cs) ++ w = F.encode c ++ (F.encodeAll cs ++ w) := by
      simp [encodeAll]
    rw [hsplit]
    refine .cons (F.next_some_iff.mpr ⟨List.prefix_append .., rfl⟩) ?_
    rwa [List.drop_left]

theorem scans_encodeAll (F : EncodingForm γ α) (cs : List γ) :
    F.Scans (F.encodeAll cs) (cs.map some) := by
  simpa using (Scans.nil (F := F)).encodeAll_append cs

/-- A string is written back from its scan if nothing in it is ill-formed. -/
theorem Scans.eq_encodeAll (h : F.Scans w os) (hos : os = cs.map some) : w = F.encodeAll cs := by
  induction h generalizing cs with
  | nil =>
    obtain rfl := List.map_eq_nil_iff.mp hos.symm
    rfl
  | cons hn _ ih =>
    obtain ⟨c, cs, rfl, rfl, rfl⟩ := List.map_eq_cons_iff.mp hos.symm
    obtain ⟨⟨rest, rfl⟩, rfl⟩ := F.next_some_iff.mp hn
    rw [List.drop_left] at ih
    rw [ih rfl]
    rfl

theorem Scans.wellFormed_iff (h : F.Scans w os) : F.WellFormed w ↔ none ∉ os := by
  constructor
  · rintro ⟨cs, rfl⟩
    rw [h.unique (scans_encodeAll F cs)]
    simp
  · intro hos
    obtain ⟨cs, hcs⟩ := exists_map_some hos
    exact ⟨cs, h.eq_encodeAll hcs⟩

/-- The text of a scan, written again, is the string scanned exactly if that was well
formed. -/
theorem Scans.encodeAll_text_eq_iff (h : F.Scans w os) :
    F.encodeAll (text replacement os) = w ↔ none ∉ os := by
  rw [← h.wellFormed_iff]
  refine ⟨fun heq => ⟨_, heq.symm⟩, ?_⟩
  rintro ⟨cs, rfl⟩
  rw [h.unique (scans_encodeAll F cs), text_map_some]

/-- The rest of a string behind a well-formed part is scanned by itself. -/
theorem Scans.of_encodeAll_append (h : F.Scans (F.encodeAll cs ++ w) os) :
    ∃ os', F.Scans w os' ∧ os = cs.map some ++ os' := by
  obtain ⟨os', hos'⟩ := F.exists_scans w
  exact ⟨os', hos', h.unique (hos'.encodeAll_append cs)⟩

theorem encodeAll_eq_nil_iff (F : EncodingForm γ α) : F.encodeAll cs = [] ↔ cs = [] := by
  rw [encodeAll, List.flatMap_eq_nil_iff]
  refine ⟨fun h => List.eq_nil_iff_forall_not_mem.mpr fun c hc => F.encode_ne_nil c (h c hc), ?_⟩
  rintro rfl
  exact fun c hc => absurd hc List.not_mem_nil

theorem encodeAll_append (F : EncodingForm γ α) (cs cs' : List γ) :
    F.encodeAll (cs ++ cs') = F.encodeAll cs ++ F.encodeAll cs' := List.flatMap_append

theorem Scans.ne_nil (h : F.Scans w os) (hw : w ≠ []) : os ≠ [] := by
  cases h with
  | nil => exact absurd rfl hw
  | cons _ _ => exact List.cons_ne_nil _ _

/-- The text of a string is not that of a proper well-formed part at its front. -/
theorem Scans.encodeAll_text_ne (h : F.Scans (F.encodeAll cs ++ w) os) (hw : w ≠ []) :
    G.encodeAll (text replacement os) ≠ G.encodeAll cs := by
  obtain ⟨os', hos', rfl⟩ := h.of_encodeAll_append
  intro heq
  have htext : text replacement (cs.map some ++ os') = cs ++ text replacement os' := by
    rw [text, List.map_append, ← text, ← text, text_map_some]
  rw [htext, G.encodeAll_append] at heq
  have hnil := (encodeAll_eq_nil_iff G).mp (List.append_right_eq_self.mp heq)
  exact hos'.ne_nil hw (List.map_eq_nil_iff.mp hnil)

/-- If each item takes few units in the other form, so does the text. -/
theorem Scans.length_encodeAll_text_le {k : ℕ} (h : F.Scans w os)
    (hk : ∀ {w o n}, F.Next w o n → (G.encode (o.getD replacement)).length ≤ k * n) :
    (G.encodeAll (text replacement os)).length ≤ k * w.length := by
  induction h with
  | nil => exact Nat.zero_le _
  | @cons w o n os hn _ ih =>
    have hle := F.next_le hn
    have hitem := hk hn
    rw [List.length_drop, Nat.mul_sub] at ih
    have hmul : k * n ≤ k * w.length := Nat.mul_le_mul_left k hle
    simp only [text, encodeAll, List.map_cons, List.flatMap_cons, List.length_append] at ih ⊢
    omega

end EncodingForm

end MiniChromium.Encoding
