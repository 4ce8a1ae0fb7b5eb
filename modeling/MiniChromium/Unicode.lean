import Mathlib.Data.List.Infix
import Mathlib.Tactic.Common

/-!
# Unicode encoding forms

A `Char` is a Unicode scalar value. Its UTF-8 encoding is the one of the core
library; the table of well-formed byte sequences is derived from it. A scan reads
a byte string from left to right, a character or a maximal ill-formed subpart at a
time.
-/
namespace MiniChromium.Unicode

/-- The UTF-16 encoding of a character. -/
def utf16EncodeChar (c : Char) : List UInt16 :=
  let v := c.val.toNat
  if v < 0x10000 then [UInt16.ofNat v]
  else
    [UInt16.ofNat (0xD800 + (v - 0x10000) / 0x400),
      UInt16.ofNat (0xDC00 + (v - 0x10000) % 0x400)]

/-- A byte that continues a sequence. -/
def Trail (b : UInt8) : Prop := 0x80 ≤ b.toNat ∧ b.toNat ≤ 0xBF

/-- The first byte of a sequence of two. -/
def Lead2 (a : UInt8) : Prop := 0xC2 ≤ a.toNat ∧ a.toNat ≤ 0xDF

/-- The first two bytes of a sequence of three: neither overlong nor a surrogate. -/
def Lead3 (a b : UInt8) : Prop :=
  0xE0 ≤ a.toNat ∧ a.toNat ≤ 0xEF ∧ Trail b ∧ (a.toNat = 0xE0 → 0xA0 ≤ b.toNat) ∧
    (a.toNat = 0xED → b.toNat ≤ 0x9F)

/-- The first two bytes of a sequence of four: neither overlong nor above `U+10FFFF`. -/
def Lead4 (a b : UInt8) : Prop :=
  0xF0 ≤ a.toNat ∧ a.toNat ≤ 0xF4 ∧ Trail b ∧ (a.toNat = 0xF0 → 0x90 ≤ b.toNat) ∧
    (a.toNat = 0xF4 → b.toNat ≤ 0x8F)

instance (b : UInt8) : Decidable (Trail b) := inferInstanceAs (Decidable (_ ∧ _))

instance (a : UInt8) : Decidable (Lead2 a) := inferInstanceAs (Decidable (_ ∧ _))

instance (a b : UInt8) : Decidable (Lead3 a b) := inferInstanceAs (Decidable (_ ∧ _ ∧ _ ∧ _ ∧ _))

instance (a b : UInt8) : Decidable (Lead4 a b) := inferInstanceAs (Decidable (_ ∧ _ ∧ _ ∧ _ ∧ _))

/-- The table of well-formed sequences, with the scalar value of each. -/
def Encodes : List UInt8 → ℕ → Prop
  | [a], v => a.toNat < 0x80 ∧ v = a.toNat
  | [a, b], v => Lead2 a ∧ Trail b ∧ v = a.toNat % 32 * 64 + b.toNat % 64
  | [a, b, c], v =>
    Lead3 a b ∧ Trail c ∧ v = (a.toNat % 16 * 64 + b.toNat % 64) * 64 + c.toNat % 64
  | [a, b, c, d], v =>
    Lead4 a b ∧ Trail c ∧ Trail d ∧
      v = ((a.toNat % 8 * 64 + b.toNat % 64) * 64 + c.toNat % 64) * 64 + d.toNat % 64
  | _, _ => False

theorem encodes_utf8EncodeChar (c : Char) : Encodes (String.utf8EncodeChar c) c.val.toNat := by
  have hv : c.val.toNat < 0xd800 ∨ (0xdfff < c.val.toNat ∧ c.val.toNat < 0x110000) := c.valid
  unfold String.utf8EncodeChar
  generalize c.val.toNat = v at hv ⊢
  dsimp only
  split_ifs with h1 h2 h3 <;>
    simp only [Encodes, Lead2, Lead3, Lead4, Trail, UInt8.toNat_ofNat'] <;> omega

/-- A row of the table has the value of some character. -/
theorem Encodes.isValidChar {u : List UInt8} {v : ℕ} (h : Encodes u v) : v.isValidChar := by
  unfold Nat.isValidChar
  match u, h with
  | [a], h => obtain ⟨ha, rfl⟩ := h; omega
  | [a, b], h =>
    obtain ⟨ha, hb, rfl⟩ := h
    unfold Lead2 Trail at *
    omega
  | [a, b, c], h =>
    obtain ⟨hab, hc, rfl⟩ := h
    unfold Lead3 Trail at *
    omega
  | [a, b, c, d], h =>
    obtain ⟨hab, hc, hd, rfl⟩ := h
    unfold Lead4 Trail at *
    omega

/-- The table holds the encodings of the characters, and nothing else. -/
theorem encodes_iff (u : List UInt8) (v : ℕ) :
    Encodes u v ↔ ∃ c : Char, String.utf8EncodeChar c = u ∧ c.val.toNat = v := by
  constructor
  · intro h
    refine ⟨Char.ofNatAux v h.isValidChar, ?_, rfl⟩
    unfold String.utf8EncodeChar
    rw [show (Char.ofNatAux v h.isValidChar).val.toNat = v from rfl]
    dsimp only
    match u, h with
    | [a], h =>
      obtain ⟨ha, rfl⟩ := h
      rw [if_pos (by omega), UInt8.ofNat_toNat]
    | [a, b], h =>
      obtain ⟨ha, hb, rfl⟩ := h
      unfold Lead2 Trail at *
      rw [if_neg (by omega), if_pos (by omega)]
      simp only [List.cons.injEq, ← UInt8.toNat_inj, UInt8.toNat_ofNat', and_true]
      omega
    | [a, b, c], h =>
      obtain ⟨hab, hc, rfl⟩ := h
      unfold Lead3 Trail at *
      rw [if_neg (by omega), if_neg (by omega), if_pos (by omega)]
      simp only [List.cons.injEq, ← UInt8.toNat_inj, UInt8.toNat_ofNat', and_true]
      omega
    | [a, b, c, d], h =>
      obtain ⟨hab, hc, hd, rfl⟩ := h
      unfold Lead4 Trail at *
      rw [if_neg (by omega), if_neg (by omega), if_neg (by omega)]
      simp only [List.cons.injEq, ← UInt8.toNat_inj, UInt8.toNat_ofNat', and_true]
      omega
  · rintro ⟨c, rfl, rfl⟩
    exact encodes_utf8EncodeChar c

/-- The number of bytes of a well-formed sequence, from its first byte. -/
def sequenceLength (a : UInt8) : ℕ :=
  if a.toNat < 0x80 then 1 else if a.toNat < 0xE0 then 2 else if a.toNat < 0xF0 then 3 else 4

theorem Encodes.ne_nil {u : List UInt8} {v : ℕ} (h : Encodes u v) : u ≠ [] := by
  rintro rfl
  exact h

theorem Encodes.length_eq {a : UInt8} {u : List UInt8} {v : ℕ} (h : Encodes (a :: u) v) :
    (a :: u).length = sequenceLength a := by
  unfold sequenceLength
  match u, h with
  | [], h => rw [if_pos h.1, List.length_singleton]
  | [b], h =>
    obtain ⟨ha, -, -⟩ := h
    unfold Lead2 at ha
    rw [if_neg (by omega), if_pos (by omega)]
    rfl
  | [b, c], h =>
    obtain ⟨hab, -, -⟩ := h
    unfold Lead3 at hab
    rw [if_neg (by omega), if_neg (by omega), if_pos (by omega)]
    rfl
  | [b, c, d], h =>
    obtain ⟨hab, -, -, -⟩ := h
    unfold Lead4 at hab
    rw [if_neg (by omega), if_neg (by omega), if_neg (by omega)]
    rfl

/-- Only an ASCII byte starts the encoding of an ASCII character. -/
theorem Encodes.ascii {a : UInt8} {u : List UInt8} {v : ℕ} (h : Encodes (a :: u) v) :
    a.toNat < 0x80 ∧ v = a.toNat ∨ 0x80 ≤ a.toNat ∧ 0x80 ≤ v := by
  match u with
  | [] => exact .inl h
  | [b] =>
    obtain ⟨h2, -, rfl⟩ := h
    unfold Lead2 at h2
    omega
  | [b, c] =>
    obtain ⟨h3, -, rfl⟩ := h
    unfold Lead3 Trail at h3
    omega
  | [b, c, d] =>
    obtain ⟨h4, -, -, rfl⟩ := h
    unfold Lead4 Trail at h4
    omega
  | _ :: _ :: _ :: _ :: _ => exact h.elim

theorem Encodes.value_unique {u : List UInt8} {v v' : ℕ} (h : Encodes u v) (h' : Encodes u v') :
    v = v' := by
  match u, h, h' with
  | [_], h, h' => exact h.2.trans h'.2.symm
  | [_, _], h, h' => exact h.2.2.trans h'.2.2.symm
  | [_, _, _], h, h' => exact h.2.2.trans h'.2.2.symm
  | [_, _, _, _], h, h' => exact h.2.2.2.trans h'.2.2.2.symm

/-- No well-formed sequence is the beginning of another one. -/
theorem Encodes.prefix_unique {u u' w : List UInt8} {v v' : ℕ} (h : Encodes u v)
    (h' : Encodes u' v') (hu : u <+: w) (hu' : u' <+: w) : u = u' := by
  obtain ⟨a, t, rfl⟩ := List.exists_cons_of_ne_nil h.ne_nil
  obtain ⟨a', t', rfl⟩ := List.exists_cons_of_ne_nil h'.ne_nil
  have ha : a = a' := by
    obtain ⟨r, rfl⟩ := hu
    obtain ⟨r', hr⟩ := hu'
    exact (List.cons.inj hr).1.symm
  have hlen : (a :: t).length = (a' :: t').length := by rw [h.length_eq, h'.length_eq, ha]
  exact (List.prefix_of_prefix_length_le hu hu' hlen.le).eq_of_length hlen

/-- A byte string starts with at most one character. -/
theorem utf8EncodeChar_prefix_unique {c c' : Char} {w : List UInt8}
    (h : String.utf8EncodeChar c <+: w) (h' : String.utf8EncodeChar c' <+: w) : c = c' := by
  have hc := encodes_utf8EncodeChar c
  have hc' := encodes_utf8EncodeChar c'
  have heq := hc.prefix_unique hc' h h'
  have hv := hc.value_unique (heq ▸ hc')
  exact Char.ext (UInt32.toNat_inj.mp hv)

/-- An initial part of the encoding of some character. -/
def Initial (u : List UInt8) : Prop := ∃ c : Char, u <+: String.utf8EncodeChar c

theorem initial_iff (u : List UInt8) : Initial u ↔ ∃ r v, Encodes (u ++ r) v := by
  constructor
  · rintro ⟨c, r, hr⟩
    exact ⟨r, c.val.toNat, hr ▸ encodes_utf8EncodeChar c⟩
  · rintro ⟨r, v, h⟩
    obtain ⟨c, hc, -⟩ := (encodes_iff _ _).mp h
    exact ⟨c, r, hc.symm⟩

/-- No character starts at the front of `w`, and `n` is the length of the longest
initial part there, or one where there is none. -/
structure MaximalSubpart (w : List UInt8) (n : ℕ) : Prop where
  pos : 0 < n
  le : n ≤ w.length
  unconvertible : ∀ c : Char, ¬String.utf8EncodeChar c <+: w
  initial : n = 1 ∨ Initial (w.take n)
  longest : ∀ m ≤ w.length, Initial (w.take m) → m ≤ n

theorem MaximalSubpart.unique {w : List UInt8} {n m : ℕ} (h : MaximalSubpart w n)
    (h' : MaximalSubpart w m) : n = m := by
  have hle : ∀ {n m : ℕ}, MaximalSubpart w n → MaximalSubpart w m → n ≤ m := fun h h' => by
    rcases h.initial with rfl | hi
    · exact h'.pos
    · exact h'.longest _ h.le hi
  exact le_antisymm (hle h h') (hle h' h)

theorem Initial.second {a b : UInt8} {w : List UInt8} (h : Initial (a :: b :: w)) :
    (Lead2 a ∧ Trail b) ∨ Lead3 a b ∨ Lead4 a b := by
  obtain ⟨r, v, h⟩ := (initial_iff _).mp h
  replace h : Encodes (a :: b :: (w ++ r)) v := h
  match w ++ r, h with
  | [], h => exact .inl ⟨h.1, h.2.1⟩
  | [_], h => exact .inr (.inl h.1)
  | [_, _], h => exact .inr (.inr h.1)

theorem Initial.third {a b c : UInt8} {w : List UInt8} (h : Initial (a :: b :: c :: w)) :
    (Lead3 a b ∨ Lead4 a b) ∧ Trail c := by
  obtain ⟨r, v, h⟩ := (initial_iff _).mp h
  replace h : Encodes (a :: b :: c :: (w ++ r)) v := h
  match w ++ r, h with
  | [], h => exact ⟨.inl h.1, h.2.1⟩
  | [_], h => exact ⟨.inr h.1, h.2.1⟩

theorem Initial.fourth {a b c d : UInt8} {w : List UInt8} (h : Initial (a :: b :: c :: d :: w)) :
    Lead4 a b ∧ Trail c ∧ Trail d := by
  obtain ⟨r, v, h⟩ := (initial_iff _).mp h
  replace h : Encodes (a :: b :: c :: d :: (w ++ r)) v := h
  match w ++ r, h with
  | [], h => exact ⟨h.1, h.2.1, h.2.2.1⟩

theorem trail_0x80 : Trail 0x80 := by decide

theorem initial_two {a b : UInt8} (h : Lead3 a b ∨ Lead4 a b) : Initial [a, b] := by
  rw [initial_iff]
  rcases h with h | h
  · exact ⟨[0x80], _, h, trail_0x80, rfl⟩
  · exact ⟨[0x80, 0x80], _, h, trail_0x80, trail_0x80, rfl⟩

theorem initial_three {a b c : UInt8} (h : Lead4 a b) (hc : Trail c) : Initial [a, b, c] :=
  (initial_iff _).mpr ⟨[0x80], _, h, hc, trail_0x80, rfl⟩

/-- The first item of a scan of `w`, a character or an ill-formed subpart, and the
number of bytes it takes. -/
inductive Next (w : List UInt8) : Option Char → ℕ → Prop
  | char (c : Char) : String.utf8EncodeChar c <+: w →
      Next w (some c) (String.utf8EncodeChar c).length
  | illFormed (n : ℕ) : MaximalSubpart w n → Next w none n

/-- The items of a whole byte string. -/
inductive Scans : List UInt8 → List (Option Char) → Prop
  | nil : Scans [] []
  | cons {w : List UInt8} {o : Option Char} {n : ℕ} {os : List (Option Char)} :
      Next w o n → Scans (w.drop n) os → Scans w (o :: os)

/-- The byte string is the encoding of a sequence of characters. -/
def WellFormed (w : List UInt8) : Prop := ∃ cs : List Char, w = cs.flatMap String.utf8EncodeChar

theorem Next.pos {w : List UInt8} {o : Option Char} {n : ℕ} (h : Next w o n) : 0 < n := by
  cases h with
  | char c _ => exact List.length_pos_of_ne_nil String.utf8EncodeChar_ne_nil
  | illFormed _ hm => exact hm.pos

theorem Next.le {w : List UInt8} {o : Option Char} {n : ℕ} (h : Next w o n) : n ≤ w.length := by
  cases h with
  | char c hc => exact hc.length_le
  | illFormed _ hm => exact hm.le

/-- A scan has one way to continue. -/
theorem Next.unique {w : List UInt8} {o o' : Option Char} {n m : ℕ} (h : Next w o n)
    (h' : Next w o' m) : o = o' ∧ n = m := by
  cases h with
  | char c hc =>
    cases h' with
    | char c' hc' =>
      obtain rfl := utf8EncodeChar_prefix_unique hc hc'
      exact ⟨rfl, rfl⟩
    | illFormed _ hm => exact absurd hc (hm.unconvertible c)
  | illFormed _ hm =>
    cases h' with
    | char c' hc' => exact absurd hc' (hm.unconvertible c')
    | illFormed _ hm' => exact ⟨rfl, hm.unique hm'⟩

theorem Scans.unique {w : List UInt8} {os os' : List (Option Char)} (h : Scans w os)
    (h' : Scans w os') : os = os' := by
  induction h generalizing os' with
  | nil =>
    cases h' with
    | nil => rfl
    | cons hn _ => exact absurd hn.le (by have := hn.pos; simp only [List.length_nil]; omega)
  | cons hn _ ih =>
    cases h' with
    | nil => exact absurd hn.le (by have := hn.pos; simp only [List.length_nil]; omega)
    | cons hn' hs' =>
      obtain ⟨rfl, rfl⟩ := hn.unique hn'
      rw [ih hs']

/-- A scan meets no ill-formed subpart exactly when the whole string is well formed. -/
theorem Scans.wellFormed_iff {w : List UInt8} {os : List (Option Char)} (h : Scans w os) :
    WellFormed w ↔ none ∉ os := by
  induction h with
  | nil => exact iff_of_true ⟨[], rfl⟩ List.not_mem_nil
  | cons hn _ ih =>
    cases hn with
    | illFormed _ hm =>
      refine iff_of_false ?_ (fun h => h List.mem_cons_self)
      rintro ⟨cs, rfl⟩
      cases cs with
      | nil =>
        have hpos := hm.pos
        exact absurd hm.le (by simp only [List.flatMap_nil, List.length_nil]; omega)
      | cons c cs => exact hm.unconvertible c (List.prefix_append _ _)
    | char c hc =>
      obtain ⟨r, rfl⟩ := hc
      rw [List.drop_left] at ih
      simp only [List.mem_cons, reduceCtorEq, false_or]
      rw [← ih]
      constructor
      · rintro ⟨cs, hcs⟩
        cases cs with
        | nil => exact absurd hcs (by simp [String.utf8EncodeChar_ne_nil])
        | cons c' cs =>
          rw [List.flatMap_cons] at hcs
          have hpre : String.utf8EncodeChar c' <+: String.utf8EncodeChar c ++ r :=
            hcs ▸ List.prefix_append _ _
          obtain rfl := utf8EncodeChar_prefix_unique (List.prefix_append _ r) hpre
          exact ⟨cs, List.append_cancel_left hcs⟩
      · rintro ⟨cs, rfl⟩
        exact ⟨c :: cs, rfl⟩

/-- The scalar value at the front, if a well-formed sequence starts there, and the
number of bytes that the first item of a scan takes. -/
def decodeNext : List UInt8 → Option ℕ × ℕ
  | [] => (none, 0)
  | a :: w =>
    if a.toNat < 0x80 then (some a.toNat, 1)
    else
      match w with
      | [] => (none, 1)
      | b :: w =>
        if Lead2 a then
          if Trail b then (some (a.toNat % 32 * 64 + b.toNat % 64), 2) else (none, 1)
        else if Lead3 a b then
          match w with
          | [] => (none, 2)
          | c :: _ =>
            if Trail c then (some ((a.toNat % 16 * 64 + b.toNat % 64) * 64 + c.toNat % 64), 3)
            else (none, 2)
        else if Lead4 a b then
          match w with
          | [] => (none, 2)
          | c :: w =>
            if Trail c then
              match w with
              | [] => (none, 3)
              | d :: _ =>
                if Trail d then
                  (some (((a.toNat % 8 * 64 + b.toNat % 64) * 64 + c.toNat % 64) * 64 +
                    d.toNat % 64), 4)
                else (none, 3)
            else (none, 2)
        else (none, 1)

/-- What a decoder returns stands for the first item of the scan. -/
def IsNext (w : List UInt8) (p : Option ℕ × ℕ) : Prop :=
  ∃ o : Option Char, Next w o p.2 ∧ p.1 = o.map fun c => c.val.toNat

theorem IsNext.ascii {a : UInt8} {w : List UInt8} {p : Option ℕ × ℕ} {v : ℕ}
    (h : IsNext (a :: w) p) (hv : p.1 = some v) :
    a.toNat < 0x80 ∧ v = a.toNat ∨ 0x80 ≤ a.toNat ∧ 0x80 ≤ v := by
  obtain ⟨o, hn, ho⟩ := h
  rw [hv] at ho
  obtain ⟨c, rfl, rfl⟩ := Option.map_eq_some_iff.mp ho.symm
  generalize p.2 = n at hn
  cases hn with
  | char _ hc =>
    have he := encodes_utf8EncodeChar c
    obtain ⟨r, hr⟩ := hc
    cases hu : String.utf8EncodeChar c with
    | nil => exact absurd hu String.utf8EncodeChar_ne_nil
    | cons a' u =>
      rw [hu] at he hr
      obtain ⟨rfl, -⟩ := List.cons.inj hr
      exact he.ascii

theorem isNext_of_encodes {u r : List UInt8} {v : ℕ} (h : Encodes u v) :
    IsNext (u ++ r) (some v, u.length) := by
  obtain ⟨c, rfl, rfl⟩ := (encodes_iff u v).mp h
  exact ⟨some c, .char c (List.prefix_append _ r), rfl⟩

/-- To see that bytes are a maximal subpart, look at the byte that follows them. -/
theorem isNext_illFormed {a : UInt8} {t r : List UInt8} (hlen : (a :: t).length < sequenceLength a)
    (hinit : t = [] ∨ Initial (a :: t))
    (hnext : ∀ b ∈ r.head?, ∀ s, ¬Initial (a :: t ++ b :: s)) :
    IsNext (a :: t ++ r) (none, (a :: t).length) := by
  refine ⟨none, .illFormed _ ⟨Nat.succ_pos _, by simp, fun c hc => ?_, ?_, fun m hm hi => ?_⟩, rfl⟩
  · -- The encoding would be longer than the bytes, so it would go on with the next one.
    have henc := encodes_utf8EncodeChar c
    obtain ⟨a', t', hc'⟩ := List.exists_cons_of_ne_nil henc.ne_nil
    obtain ⟨q, hq⟩ := hc
    have ha : a' = a := by
      rw [hc'] at hq
      exact (List.cons.inj hq).1
    have hlt : (a :: t).length < (String.utf8EncodeChar c).length := by
      rw [hc'] at henc ⊢
      rwa [henc.length_eq, ha]
    obtain ⟨s, hs⟩ : a :: t <+: String.utf8EncodeChar c :=
      List.prefix_of_prefix_length_le (List.prefix_append _ r) ⟨q, hq⟩ hlt.le
    cases s with
    | nil => rw [← hs, List.append_nil] at hlt; exact absurd hlt (lt_irrefl _)
    | cons b s =>
      rw [← hs, List.append_assoc] at hq
      have hr : b ∈ r.head? := by rw [← List.append_cancel_left hq]; exact rfl
      exact hnext b hr s ⟨c, hs ▸ List.prefix_refl _⟩
  · exact hinit.imp (fun h => by rw [h]; rfl) fun h => by rwa [List.take_left]
  · by_contra hgt
    rw [List.take_append, List.take_of_length_le (not_le.mp hgt).le] at hi
    cases r with
    | nil => rw [List.append_nil] at hm; exact hgt hm
    | cons b r' =>
      obtain ⟨k, hk⟩ := Nat.exists_eq_add_of_lt (not_le.mp hgt)
      rw [hk, show (a :: t).length + k + 1 - (a :: t).length = k + 1 by omega,
        List.take_succ_cons] at hi
      exact hnext b rfl _ hi

theorem isNext_one {a : UInt8} {r : List UInt8} (ha : ¬a.toNat < 0x80)
    (h : ∀ b ∈ r.head?, ¬((Lead2 a ∧ Trail b) ∨ Lead3 a b ∨ Lead4 a b)) :
    IsNext (a :: r) (none, 1) := by
  refine isNext_illFormed (t := []) ?_ (.inl rfl) fun b hb s hi => h b hb hi.second
  rw [List.length_singleton, sequenceLength]
  split_ifs <;> omega

theorem isNext_two {a b : UInt8} {r : List UInt8} (hab : Lead3 a b ∨ Lead4 a b)
    (h : ∀ c ∈ r.head?, ¬Trail c) : IsNext (a :: b :: r) (none, 2) := by
  refine isNext_illFormed (t := [b]) ?_ (.inr (initial_two hab)) fun c hc s hi => h c hc hi.third.2
  show 2 < sequenceLength a
  unfold Lead3 Lead4 at hab
  unfold sequenceLength
  split_ifs <;> omega

theorem isNext_three {a b c : UInt8} {r : List UInt8} (hab : Lead4 a b) (hc : Trail c)
    (h : ∀ d ∈ r.head?, ¬Trail d) : IsNext (a :: b :: c :: r) (none, 3) := by
  refine isNext_illFormed (t := [b, c]) ?_ (.inr (initial_three hab hc))
    fun d hd s hi => h d hd hi.fourth.2.2
  show 3 < sequenceLength a
  unfold Lead4 at hab
  unfold sequenceLength
  split_ifs <;> omega

/-- The decoder finds the first item of every scan. -/
theorem isNext_decodeNext {w : List UInt8} (hw : w ≠ []) : IsNext w (decodeNext w) := by
  cases w with
  | nil => exact absurd rfl hw
  | cons a w =>
    unfold decodeNext
    dsimp only
    by_cases ha : a.toNat < 0x80
    · rw [if_pos ha]
      exact isNext_of_encodes (u := [a]) ⟨ha, rfl⟩
    rw [if_neg ha]
    cases w with
    | nil => exact isNext_one ha (by simp)
    | cons b w =>
      dsimp only
      split_ifs with h2 hb h3 h4
      · exact isNext_of_encodes (u := [a, b]) ⟨h2, hb, rfl⟩
      · refine isNext_one ha fun b' hb' => ?_
        obtain rfl := Option.some.inj hb'
        rintro (⟨-, ht⟩ | h3 | h4)
        · exact hb ht
        · unfold Lead2 Lead3 at *
          omega
        · unfold Lead2 Lead4 at *
          omega
      · -- A sequence of three bytes.
        cases w with
        | nil => exact isNext_two (.inl h3) (by simp)
        | cons c w =>
          dsimp only
          split_ifs with hc
          · exact isNext_of_encodes (u := [a, b, c]) ⟨h3, hc, rfl⟩
          · exact isNext_two (.inl h3) (by simpa using hc)
      · -- A sequence of four bytes.
        cases w with
        | nil => exact isNext_two (.inr h4) (by simp)
        | cons c w =>
          dsimp only
          split_ifs with hc
          · cases w with
            | nil => exact isNext_three h4 hc (by simp)
            | cons d w =>
              dsimp only
              split_ifs with hd
              · exact isNext_of_encodes (u := [a, b, c, d]) ⟨h4, hc, hd, rfl⟩
              · exact isNext_three h4 hc (by simpa using hd)
          · exact isNext_two (.inr h4) (by simpa using hc)
      · refine isNext_one ha fun b' hb' => ?_
        obtain rfl := Option.some.inj hb'
        tauto

/-- Every byte string has a scan. -/
theorem exists_scans (w : List UInt8) : ∃ os, Scans w os := by
  induction hn : w.length using Nat.strong_induction_on generalizing w with
  | h n ih =>
    cases w with
    | nil => exact ⟨[], .nil⟩
    | cons a w =>
      obtain ⟨o, ho, -⟩ := isNext_decodeNext (List.cons_ne_nil a w)
      have hlt : ((a :: w).drop (decodeNext (a :: w)).2).length < n := by
        rw [List.length_drop, hn]
        have := ho.pos
        rw [List.length_cons] at hn
        omega
      obtain ⟨os, hos⟩ := ih _ hlt _ rfl
      exact ⟨o :: os, .cons ho hos⟩

end MiniChromium.Unicode
