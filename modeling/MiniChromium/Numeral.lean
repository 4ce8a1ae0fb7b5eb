import Mathlib.Data.Nat.Digits.Defs
import Mathlib.Data.List.Forall2
import Mathlib.Data.List.Induction
import Mathlib.Tactic.Ring

/-!
# Numerals

A numeral is an optional sign, an optional prefix and digits, the first digit being the
most significant. A reader of digits that checks each new one against the value read
so far accepts a whole numeral if every check passes; where each check is tight, this
is one condition on the value of the numeral.
-/
namespace MiniChromium.Numeral

/-- The number that the digits denote, the most significant first. -/
def value (base : ℕ) (ds : List ℕ) : ℕ := Nat.ofDigits base ds.reverse

@[simp] theorem value_nil (base : ℕ) : value base [] = 0 := rfl

@[simp] theorem value_concat (base : ℕ) (ds : List ℕ) (d : ℕ) :
    value base (ds ++ [d]) = value base ds * base + d := by
  rw [value, List.reverse_append, List.reverse_singleton, List.singleton_append,
    Nat.ofDigits_cons, value]
  ring

@[simp] theorem value_singleton (base d : ℕ) : value base [d] = d := by
  simpa using value_concat base [] d

/-- More digits do not make the number smaller. -/
theorem value_le_value_append {base : ℕ} (hbase : 0 < base) (ds es : List ℕ) :
    value base ds ≤ value base (ds ++ es) := by
  induction es using List.reverseRecOn with
  | nil => rw [List.append_nil]
  | append_singleton es e ih =>
    rw [← List.append_assoc, value_concat]
    exact ih.trans ((Nat.le_mul_of_pos_right _ hbase).trans (Nat.le_add_right _ _))

theorem value_eq_zero_iff {base : ℕ} (hbase : 0 < base) (ds : List ℕ) :
    value base ds = 0 ↔ ∀ d ∈ ds, d = 0 := by
  induction ds using List.reverseRecOn with
  | nil => simp
  | append_singleton ds d ih =>
    rw [value_concat, Nat.add_eq_zero_iff, Nat.mul_eq_zero, or_iff_left hbase.ne', ih]
    simp [or_imp, forall_and]

/-- The relation holds between the value read and the next digit, for every digit but
the first. -/
def EachDigit (base : ℕ) (P : ℕ → ℕ → Prop) (ds : List ℕ) : Prop :=
  ∀ pre d post, ds = pre ++ d :: post → pre ≠ [] → P (value base pre) d

theorem eachDigit_nil (base : ℕ) (P : ℕ → ℕ → Prop) : EachDigit base P [] := by
  intro pre d post h
  simp at h

theorem eachDigit_concat_iff {base : ℕ} {P : ℕ → ℕ → Prop} {ds : List ℕ} {d : ℕ} :
    EachDigit base P (ds ++ [d]) ↔ EachDigit base P ds ∧ (ds ≠ [] → P (value base ds) d) := by
  constructor
  · intro h
    refine ⟨fun pre c post heq hpre => ?_, h ds d [] rfl⟩
    exact h pre c (post ++ [d]) (by simp [heq]) hpre
  · rintro ⟨h, hlast⟩ pre c post heq hpre
    induction post using List.reverseRecOn with
    | nil =>
      obtain ⟨rfl, hd⟩ := List.append_inj' heq rfl
      obtain rfl := List.singleton_inj.mp hd
      exact hlast hpre
    | append_singleton post e _ =>
      rw [← List.cons_append, ← List.append_assoc] at heq
      exact h pre c post (List.append_inj' heq rfl).1 hpre

theorem EachDigit.congr {base : ℕ} {P Q : ℕ → ℕ → Prop} {ds : List ℕ} (hds : ∀ d ∈ ds, d < base)
    (h : ∀ v d, d < base → (P v d ↔ Q v d)) : EachDigit base P ds ↔ EachDigit base Q ds := by
  refine forall_congr' fun pre => forall_congr' fun d => forall_congr' fun post =>
    forall_congr' fun heq => forall_congr' fun _ => h _ _ (hds d ?_)
  simp [heq]

/-- Tight checks keep the value within the bound, and only they do. -/
theorem eachDigit_iff_le {base : ℕ} {P : ℕ → ℕ → Prop} {bound : ℤ} (hbase : 0 < base)
    (hbound : (base : ℤ) ≤ bound + 1)
    (htight : ∀ v d : ℕ, d < base → (v : ℤ) ≤ bound → (P v d ↔ ((v * base + d : ℕ) : ℤ) ≤ bound))
    {ds : List ℕ} (hds : ∀ d ∈ ds, d < base) (hne : ds ≠ []) :
    EachDigit base P ds ↔ (value base ds : ℤ) ≤ bound := by
  induction ds using List.reverseRecOn with
  | nil => exact absurd rfl hne
  | append_singleton ds d ih =>
    have hd : d < base := hds d (by simp)
    rw [eachDigit_concat_iff, value_concat]
    by_cases hnil : ds = []
    · subst hnil
      have hdigit : (d : ℤ) ≤ bound := by omega
      simpa [eachDigit_nil] using hdigit
    · have ih := ih (fun c hc => hds c (by simp [hc])) hnil
      rw [ih]
      constructor
      · rintro ⟨hle, hP⟩
        exact (htight _ _ hd hle).mp (hP hnil)
      · intro hle
        -- the value so far is no more than the one with another digit
        have hmono := Nat.le_mul_of_pos_right (value base ds) hbase
        have hpre : (value base ds : ℤ) ≤ bound := by omega
        exact ⟨hpre, fun _ => (htight _ _ hd hpre).mpr hle⟩

/-- The value of an ASCII digit, `0` to `9` and then the letters, in either case. -/
def digitValue (base : ℕ) (c : UInt8) : Option ℕ :=
  let n := c.toNat
  (if 0x30 ≤ n ∧ n ≤ 0x39 then some (n - 0x30)
  else if 0x61 ≤ n ∧ n ≤ 0x7A then some (n - 0x61 + 10)
  else if 0x41 ≤ n ∧ n ≤ 0x5A then some (n - 0x41 + 10)
  else none).filter (· < base)

theorem digitValue_lt {base : ℕ} {c : UInt8} {d : ℕ} (h : digitValue base c = some d) :
    d < base := by
  have h := (Option.filter_eq_some_iff.mp h).2
  simpa using h

/-- An optional sign, and what it multiplies by. -/
inductive SignPart : List UInt8 → ℤ → Prop
  | none : SignPart [] 1
  | plus : SignPart [0x2B] 1
  | minus : SignPart [0x2D] (-1)

theorem SignPart.length_le {s : List UInt8} {σ : ℤ} (h : SignPart s σ) : s.length ≤ 1 := by
  cases h <;> decide

/-- The characters are these digits. -/
def Digits (base : ℕ) (cs : List UInt8) (ds : List ℕ) : Prop :=
  List.Forall₂ (fun c d => digitValue base c = some d) cs ds

theorem Digits.lt {base : ℕ} {cs : List UInt8} {ds : List ℕ} (h : Digits base cs ds) :
    ∀ d ∈ ds, d < base := by
  induction h with
  | nil => simp
  | cons hd _ ih =>
    rw [List.forall_mem_cons]
    exact ⟨digitValue_lt hd, ih⟩

theorem exists_digits_cons_iff {base : ℕ} {c : UInt8} {cs : List UInt8} {d : ℕ}
    (hc : digitValue base c = some d) {Q : List ℕ → Prop} :
    (∃ ds, Digits base (c :: cs) ds ∧ Q ds) ↔ ∃ ds, Digits base cs ds ∧ Q (d :: ds) := by
  constructor
  · rintro ⟨ds, hd, hQ⟩
    cases hd with
    | cons hd htail =>
      obtain rfl := Option.some.inj (hc.symm.trans hd)
      exact ⟨_, htail, hQ⟩
  · rintro ⟨ds, hd, hQ⟩
    exact ⟨d :: ds, .cons hc hd, hQ⟩

theorem not_digits_cons {base : ℕ} {c : UInt8} {cs : List UInt8} {ds : List ℕ}
    (hc : digitValue base c = none) : ¬Digits base (c :: cs) ds := by
  intro hd
  cases hd with
  | cons hd _ => rw [hc] at hd; cases hd

theorem Digits.unique {base : ℕ} {cs : List UInt8} {ds ds' : List ℕ} (h : Digits base cs ds)
    (h' : Digits base cs ds') : ds = ds' := by
  induction h generalizing ds' with
  | nil => cases h'; rfl
  | cons hd _ ih =>
    cases h' with
    | cons hd' htail' => rw [ih htail', Option.some.inj (hd.symm.trans hd')]

/-- One of the prefixes, and then digits. -/
def Body (base : ℕ) (prefixes : List (List UInt8)) (s : List UInt8) (ds : List ℕ) : Prop :=
  ∃ pre ∈ prefixes, ∃ body, s = pre ++ body ∧ Digits base body ds

/-- A sign, one of the prefixes, and then digits. -/
def Parts (base : ℕ) (prefixes : List (List UInt8)) (s : List UInt8) (sign : ℤ)
    (ds : List ℕ) : Prop :=
  ∃ signPart rest, s = signPart ++ rest ∧ SignPart signPart sign ∧ Body base prefixes rest ds

/-- The string is a numeral of the number. -/
def Denotes (base : ℕ) (prefixes : List (List UInt8)) (s : List UInt8) (z : ℤ) : Prop :=
  ∃ sign ds, Parts base prefixes s sign ds ∧ ds ≠ [] ∧ z = sign * value base ds

section Parts

variable {base : ℕ} {prefixes : List (List UInt8)} {s : List UInt8} {sign : ℤ} {ds : List ℕ}

/-- No prefix starts with a sign. -/
def Unsigned (prefixes : List (List UInt8)) : Prop :=
  ∀ pre ∈ prefixes, ∀ c ∈ pre.head?, c = 0x30

theorem Body.head_ne_sign {c : UInt8} (hp : Unsigned prefixes)
    (h : Body base prefixes (c :: s) ds) :
    c ≠ 0x2B ∧ c ≠ 0x2D := by
  obtain ⟨pre, hpre, body, hs, hd⟩ := h
  cases pre with
  | nil =>
    rw [List.nil_append] at hs
    subst hs
    cases hd with
    | cons hc _ =>
      constructor <;> rintro rfl <;> simp [digitValue] at hc
  | cons c' pre =>
    obtain ⟨rfl, -⟩ := List.cons.inj hs
    rw [hp _ hpre c rfl]
    decide

theorem parts_signed_iff {c : UInt8} {σ : ℤ} (hp : Unsigned prefixes) (hc : SignPart [c] σ) :
    Parts base prefixes (c :: s) sign ds ↔ sign = σ ∧ Body base prefixes s ds := by
  constructor
  · rintro ⟨signPart, rest, hs, hsign, hbody⟩
    cases hsign with
    | none =>
      rw [List.nil_append] at hs
      subst hs
      obtain ⟨hplus, hminus⟩ := hbody.head_ne_sign hp
      cases hc with
      | plus => exact absurd rfl hplus
      | minus => exact absurd rfl hminus
    | plus =>
      obtain ⟨rfl, rfl⟩ := List.cons.inj hs
      cases hc with
      | plus => exact ⟨rfl, hbody⟩
    | minus =>
      obtain ⟨rfl, rfl⟩ := List.cons.inj hs
      cases hc with
      | minus => exact ⟨rfl, hbody⟩
  · rintro ⟨rfl, hbody⟩
    exact ⟨_, s, rfl, hc, hbody⟩

theorem parts_unsigned_iff (hplus : s.head? ≠ some 0x2B) (hminus : s.head? ≠ some 0x2D) :
    Parts base prefixes s sign ds ↔ sign = 1 ∧ Body base prefixes s ds := by
  constructor
  · rintro ⟨signPart, rest, rfl, hsign, hbody⟩
    cases hsign with
    | none => exact ⟨rfl, hbody⟩
    | plus => exact absurd rfl hplus
    | minus => exact absurd rfl hminus
  · rintro ⟨rfl, hbody⟩
    exact ⟨[], s, rfl, .none, hbody⟩

end Parts

end MiniChromium.Numeral
