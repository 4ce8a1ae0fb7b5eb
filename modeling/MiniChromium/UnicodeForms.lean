import MiniChromium.EncodingForms
import MiniChromium.Unicode

/-!
# UTF-8 and UTF-16 as encoding forms

The items of a UTF-8 string are its characters and its maximal ill-formed subparts. Those
of a UTF-16 string are its pairs of surrogates, its unpaired surrogates, which are
ill-formed, and its other units.
-/
namespace MiniChromium.Unicode

open Encoding

/-- A lead surrogate. -/
def LeadSurrogate (u : UInt16) : Prop := 0xD800 ≤ u.toNat ∧ u.toNat ≤ 0xDBFF

/-- A trail surrogate. -/
def TrailSurrogate (u : UInt16) : Prop := 0xDC00 ≤ u.toNat ∧ u.toNat ≤ 0xDFFF

instance (u : UInt16) : Decidable (LeadSurrogate u) := inferInstanceAs (Decidable (_ ∧ _))

instance (u : UInt16) : Decidable (TrailSurrogate u) := inferInstanceAs (Decidable (_ ∧ _))

/-- The first item of a scan of `w`, and the number of units it takes. -/
inductive Next16 : List UInt16 → Option Char → ℕ → Prop
  | single {u : UInt16} {w : List UInt16} (c : Char) : c.val.toNat = u.toNat →
      Next16 (u :: w) (some c) 1
  | pair {u v : UInt16} {w : List UInt16} (c : Char) : LeadSurrogate u → TrailSurrogate v →
      c.val.toNat = 0x10000 + (u.toNat - 0xD800) * 0x400 + (v.toNat - 0xDC00) →
      Next16 (u :: v :: w) (some c) 2
  | unpaired {u : UInt16} {w : List UInt16} : LeadSurrogate u ∨ TrailSurrogate u →
      (LeadSurrogate u → ∀ v ∈ w.head?, ¬TrailSurrogate v) → Next16 (u :: w) none 1

theorem char_bounds (c : Char) :
    c.val.toNat < 0xD800 ∨ 0xDFFF < c.val.toNat ∧ c.val.toNat < 0x110000 := c.valid

variable {u v : UInt16} {w : List UInt16} {o o' : Option Char} {c : Char} {n m : ℕ}

theorem Next16.pos (h : Next16 w o n) : 0 < n := by cases h <;> decide

theorem Next16.le (h : Next16 w o n) : n ≤ w.length := by
  cases h <;> simp

theorem Next16.unique (h : Next16 w o n) (h' : Next16 w o' m) : o = o' ∧ n = m := by
  cases h with
  | single c hc =>
    have hbounds := char_bounds c
    cases h' with
    | single c' hc' =>
      exact ⟨congrArg some (Char.ext (UInt32.toNat_inj.mp (hc.trans hc'.symm))), rfl⟩
    | pair c' hu hv hc' => unfold LeadSurrogate at hu; omega
    | unpaired hu _ => unfold LeadSurrogate TrailSurrogate at hu; omega
  | pair c hu hv hc =>
    cases h' with
    | single c' hc' =>
      have hbounds := char_bounds c'
      unfold LeadSurrogate at hu
      omega
    | pair c' hu' hv' hc' =>
      exact ⟨congrArg some (Char.ext (UInt32.toNat_inj.mp (hc.trans hc'.symm))), rfl⟩
    | unpaired _ hnot => exact absurd hv (hnot hu _ rfl)
  | unpaired hu hnot =>
    cases h' with
    | single c' hc' =>
      have hbounds := char_bounds c'
      unfold LeadSurrogate TrailSurrogate at hu
      omega
    | pair c' hu' hv' hc' => exact absurd hv' (hnot hu' _ rfl)
    | unpaired _ _ => exact ⟨rfl, rfl⟩

theorem exists_next16 (hw : w ≠ []) : ∃ o n, Next16 w o n := by
  obtain ⟨u, w, rfl⟩ := List.exists_cons_of_ne_nil hw
  by_cases hs : LeadSurrogate u ∨ TrailSurrogate u
  · by_cases hpair : LeadSurrogate u ∧ ∃ v ∈ w.head?, TrailSurrogate v
    · obtain ⟨hu, v, hv, ht⟩ := hpair
      obtain ⟨w, rfl⟩ : ∃ w', w = v :: w' := by
        cases w with
        | nil => cases hv
        | cons v' w => exact ⟨w, by rw [Option.some.inj hv]⟩
      have hvalid : Nat.isValidChar
          (0x10000 + (u.toNat - 0xD800) * 0x400 + (v.toNat - 0xDC00)) := by
        unfold LeadSurrogate TrailSurrogate at *
        unfold Nat.isValidChar
        omega
      exact ⟨_, _, .pair (Char.ofNatAux _ hvalid) hu ht rfl⟩
    · exact ⟨none, 1, .unpaired hs fun hu v hv ht => hpair ⟨hu, v, hv, ht⟩⟩
  · have hvalid : Nat.isValidChar u.toNat := by
      have hlt := u.toNat_lt
      unfold LeadSurrogate TrailSurrogate at hs
      unfold Nat.isValidChar
      omega
    exact ⟨_, _, .single (Char.ofNatAux _ hvalid) rfl⟩

/-- The characters of a scan are those whose encoding it meets. -/
theorem next16_some_iff :
    Next16 w (some c) n ↔ utf16EncodeChar c <+: w ∧ n = (utf16EncodeChar c).length := by
  have hbounds := char_bounds c
  constructor
  · intro h
    cases h with
    | @single u w _ hc =>
      have hlt := u.toNat_lt
      have hencode : utf16EncodeChar c = [u] := by
        rw [utf16EncodeChar, hc, if_pos hlt, UInt16.ofNat_toNat]
      exact ⟨hencode ▸ ⟨w, rfl⟩, by rw [hencode]; rfl⟩
    | @pair u v w _ hu hv hc =>
      unfold LeadSurrogate TrailSurrogate at *
      have hencode : utf16EncodeChar c = [u, v] := by
        rw [utf16EncodeChar, hc, if_neg (by omega)]
        simp only [List.cons.injEq, ← UInt16.toNat_inj, UInt16.toNat_ofNat', and_true]
        omega
      exact ⟨hencode ▸ ⟨w, rfl⟩, by rw [hencode]; rfl⟩
  · rintro ⟨⟨rest, rfl⟩, rfl⟩
    unfold utf16EncodeChar
    dsimp only
    split_ifs with hc
    · refine .single c ?_
      rw [UInt16.toNat_ofNat']
      omega
    · refine .pair c ?_ ?_ ?_ <;>
        simp only [LeadSurrogate, TrailSurrogate, UInt16.toNat_ofNat'] <;> omega

def utf16Form : EncodingForm Char UInt16 where
  encode := utf16EncodeChar
  Next := Next16
  encode_ne_nil c := by
    unfold utf16EncodeChar
    dsimp only
    split_ifs <;> exact List.cons_ne_nil _ _
  next_some_iff := next16_some_iff
  next_pos := Next16.pos
  next_le := Next16.le
  next_unique := Next16.unique
  exists_next := exists_next16

theorem next_some_iff {w : List UInt8} :
    Next w (some c) n ↔ String.utf8EncodeChar c <+: w ∧ n = (String.utf8EncodeChar c).length := by
  constructor
  · intro h
    cases h with
    | char _ hc => exact ⟨hc, rfl⟩
  · rintro ⟨hc, rfl⟩
    exact .char c hc

def utf8Form : EncodingForm Char UInt8 where
  encode := String.utf8EncodeChar
  Next := Next
  encode_ne_nil _ := String.utf8EncodeChar_ne_nil
  next_some_iff := next_some_iff
  next_pos := Next.pos
  next_le := Next.le
  next_unique := Next.unique
  exists_next hw :=
    have ⟨o, hn, _⟩ := isNext_decodeNext hw
    ⟨o, _, hn⟩

theorem utf8Form_scans_iff {w : List UInt8} {os : List (Option Char)} :
    utf8Form.Scans w os ↔ Scans w os := by
  constructor
  · intro h
    induction h with
    | nil => exact .nil
    | cons hn _ ih => exact .cons hn ih
  · intro h
    induction h with
    | nil => exact .nil
    | cons hn _ ih => exact .cons hn ih

end MiniChromium.Unicode
