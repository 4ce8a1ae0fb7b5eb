import Mathlib.Data.Nat.Bitwise
import MiniChromium.Unicode

/-!
# The vendored UTF macros

`CBU8_NEXT` and its siblings, with the string as a list of code units. A read past
the end of the list has no result. The macros assign to the code point and to the
index inside one short-circuit expression; the functions below are its stages, in
order, each with the variables it leaves behind.
-/
namespace MiniChromium

/-- `CBU_SENTINEL`. -/
def cbuSentinel : ℤ := -1

/-- `CBU8_LEAD3_T1_BITS`. -/
def cbu8Lead3T1Bits : List ℕ :=
  [0x20, 0x30, 0x30, 0x30, 0x30, 0x30, 0x30, 0x30, 0x30, 0x30, 0x30, 0x30, 0x30, 0x10, 0x30, 0x30]

/-- `CBU8_LEAD4_T1_BITS`. -/
def cbu8Lead4T1Bits : List ℕ :=
  [0x00, 0x00, 0x00, 0x00, 0x00, 0x00, 0x00, 0x00, 0x1E, 0x0F, 0x0F, 0x0F, 0x00, 0x00, 0x00, 0x00]

/-- `CBU8_IS_SINGLE`. -/
def cbu8IsSingle (c : ℕ) : Prop := c &&& 0x80 = 0

instance (c : ℕ) : Decidable (cbu8IsSingle c) := inferInstanceAs (Decidable (_ = _))

/-- The last trail byte: `(__t=(s)[i]-0x80)<=0x3f && ((c)=((c)<<6)|__t, ++(i), 1)`. -/
def cbu8LastTrail (s : List UInt8) (i c : ℕ) : Option (ℤ × ℕ) :=
  s[i]?.bind fun b =>
    let t := b - 0x80
    if t ≤ 0x3f then some ((c <<< 6 ||| t.toNat : ℕ), i + 1) else some (cbuSentinel, i)

/-- After a valid second-to-last trail byte: `((c)=((c)<<6)|__t, ++(i)!=(length))`. -/
def cbu8SecondToLastTrail (s : List UInt8) (i length c t : ℕ) : Option (ℤ × ℕ) :=
  let c := c <<< 6 ||| t
  let i := i + 1
  if i ≠ length then cbu8LastTrail s i c else some (cbuSentinel, i)

/-- The branch for `U+0800..U+FFFF`. -/
def cbu8Lead3 (s : List UInt8) (i length c : ℕ) : Option (ℤ × ℕ) :=
  let c := c &&& 0xf
  s[i]?.bind fun t =>
    if cbu8Lead3T1Bits.getD c 0 &&& (1 <<< (t.toNat >>> 5)) ≠ 0 then
      cbu8SecondToLastTrail s i length c (t.toNat &&& 0x3f)
    else some (cbuSentinel, i)

/-- The branch for `U+10000..U+10FFFF`. -/
def cbu8Lead4 (s : List UInt8) (i length c : ℕ) : Option (ℤ × ℕ) :=
  let c := c - 0xf0
  if c ≤ 4 then
    s[i]?.bind fun t =>
      if cbu8Lead4T1Bits.getD (t.toNat >>> 4) 0 &&& (1 <<< c) ≠ 0 then
        let c := c <<< 6 ||| (t.toNat &&& 0x3f)
        let i := i + 1
        if i ≠ length then
          s[i]?.bind fun b =>
            let t := b - 0x80
            if t ≤ 0x3f then cbu8SecondToLastTrail s i length c t.toNat else some (cbuSentinel, i)
        else some (cbuSentinel, i)
      else some (cbuSentinel, i)
  else some (cbuSentinel, i)

/-- `CBU8_NEXT(s, i, length, c)`: the code point, or the sentinel, and the index
after it. -/
def cbu8Next (s : List UInt8) (i length : ℕ) : Option (ℤ × ℕ) :=
  s[i]?.bind fun b =>
    let c := b.toNat
    let i := i + 1
    if cbu8IsSingle c then some (c, i)
    else if i = length then some (cbuSentinel, i)
    else if c ≥ 0xe0 then
      if c < 0xf0 then cbu8Lead3 s i length c else cbu8Lead4 s i length c
    else if c ≥ 0xc2 then cbu8LastTrail s i (c &&& 0x1f)
    else some (cbuSentinel, i)

/-- `(s)[(i)++]=(uint8_t)(c)`, on the buffer and the offset. -/
def cbu8Put (s : List UInt8 × ℕ) (c : ℕ) : List UInt8 × ℕ :=
  (s.1.set s.2 (UInt8.ofNat c), s.2 + 1)

/-- `CBU8_APPEND_UNSAFE(s, i, c)`, on the buffer and the offset. -/
def cbu8AppendUnsafe (s : List UInt8 × ℕ) (c : ℕ) : List UInt8 × ℕ :=
  if c ≤ 0x7f then cbu8Put s c
  else
    let s :=
      if c ≤ 0x7ff then cbu8Put s ((c >>> 6) ||| 0xc0)
      else
        let s :=
          if c ≤ 0xffff then cbu8Put s ((c >>> 12) ||| 0xe0)
          else cbu8Put (cbu8Put s ((c >>> 18) ||| 0xf0)) (((c >>> 12) &&& 0x3f) ||| 0x80)
        cbu8Put s (((c >>> 6) &&& 0x3f) ||| 0x80)
    cbu8Put s ((c &&& 0x3f) ||| 0x80)

/-- `CBU8_MAX_LENGTH`. -/
def cbu8MaxLength : ℕ := 4

/-- `CBU_IS_SURROGATE`, which is `CBU16_IS_SURROGATE`. -/
def cbuIsSurrogate (c : ℕ) : Prop := c &&& 0xfffff800 = 0xd800

instance (c : ℕ) : Decidable (cbuIsSurrogate c) := inferInstanceAs (Decidable (_ = _))

/-- `CBU16_IS_SURROGATE_LEAD`. -/
def cbu16IsSurrogateLead (c : ℕ) : Prop := c &&& 0x400 = 0

instance (c : ℕ) : Decidable (cbu16IsSurrogateLead c) := inferInstanceAs (Decidable (_ = _))

/-- `CBU16_IS_LEAD`. -/
def cbu16IsLead (c : ℕ) : Prop := c &&& 0xfffffc00 = 0xd800

instance (c : ℕ) : Decidable (cbu16IsLead c) := inferInstanceAs (Decidable (_ = _))

/-- `CBU16_IS_TRAIL`. -/
def cbu16IsTrail (c : ℕ) : Prop := c &&& 0xfffffc00 = 0xdc00

instance (c : ℕ) : Decidable (cbu16IsTrail c) := inferInstanceAs (Decidable (_ = _))

/-- `CBU16_SURROGATE_OFFSET`. -/
def cbu16SurrogateOffset : ℤ := (0xd800 <<< 10) + 0xdc00 - 0x10000

/-- `CBU16_GET_SUPPLEMENTARY`. -/
def cbu16GetSupplementary (lead trail : ℕ) : ℤ :=
  (lead <<< 10 : ℕ) + trail - cbu16SurrogateOffset

/-- `CBU16_NEXT(s, i, length, c)`. -/
def cbu16Next (s : List UInt16) (i length : ℕ) : Option (ℤ × ℕ) :=
  s[i]?.bind fun u =>
    let c := u.toNat
    let i := i + 1
    if cbu16IsLead c ∧ i ≠ length then
      s[i]?.bind fun c2 =>
        if cbu16IsTrail c2.toNat then some (cbu16GetSupplementary c c2.toNat, i + 1)
        else some (c, i)
    else some (c, i)

/-- `CBU16_LENGTH`. -/
def cbu16Length (c : ℕ) : ℕ := if c ≤ 0xffff then 1 else 2

/-- The units that `CBU16_APPEND_UNSAFE` writes. -/
def cbu16AppendUnsafe (c : ℕ) : List UInt16 :=
  if c ≤ 0xffff then [UInt16.ofNat c]
  else [UInt16.ofNat ((c >>> 10) + 0xd7c0), UInt16.ofNat ((c &&& 0x3ff) ||| 0xdc00)]

/-- Whatever is returned, the index lies in the interval. -/
def IndexWithin (lo hi : ℕ) (r : Option (ℤ × ℕ)) : Prop := ∀ p ∈ r, lo ≤ p.2 ∧ p.2 ≤ hi

theorem IndexWithin.some {lo hi n : ℕ} (c : ℤ) (hl : lo ≤ n) (hu : n ≤ hi) :
    IndexWithin lo hi (some (c, n)) := by
  intro p hp
  obtain rfl := Option.some.inj hp
  exact ⟨hl, hu⟩

theorem IndexWithin.bind {α : Type} {lo hi : ℕ} {x : Option α} {f : α → Option (ℤ × ℕ)}
    (h : ∀ b, IndexWithin lo hi (f b)) : IndexWithin lo hi (x.bind f) := by
  intro p hp
  obtain ⟨b, -, hb⟩ := Option.bind_eq_some_iff.mp hp
  exact h b p hb

theorem IndexWithin.ite {lo hi : ℕ} {P : Prop} [Decidable P] {r r' : Option (ℤ × ℕ)}
    (h : P → IndexWithin lo hi r) (h' : ¬P → IndexWithin lo hi r') :
    IndexWithin lo hi (if P then r else r') := by
  split_ifs with hP
  · exact h hP
  · exact h' hP

theorem IndexWithin.mono {lo lo' hi : ℕ} {r : Option (ℤ × ℕ)} (h : IndexWithin lo hi r)
    (hl : lo' ≤ lo) : IndexWithin lo' hi r := fun p hp => ⟨hl.trans (h p hp).1, (h p hp).2⟩

theorem cbu8LastTrail_within (s : List UInt8) {i length : ℕ} (c : ℕ) (hi : i < length) :
    IndexWithin i length (cbu8LastTrail s i c) := by
  refine .bind fun b => ?_
  dsimp only
  split_ifs
  · exact .some _ (by omega) hi
  · exact .some _ le_rfl hi.le

theorem cbu8SecondToLastTrail_within (s : List UInt8) {i length : ℕ} (c t : ℕ) (hi : i < length) :
    IndexWithin i length (cbu8SecondToLastTrail s i length c t) := by
  unfold cbu8SecondToLastTrail
  dsimp only
  split_ifs with h
  · exact (cbu8LastTrail_within s _ (by omega)).mono (by omega)
  · exact .some _ (by omega) hi

theorem cbu8Lead3_within (s : List UInt8) {i length : ℕ} (c : ℕ) (hi : i < length) :
    IndexWithin i length (cbu8Lead3 s i length c) := by
  refine .bind fun b => ?_
  split_ifs
  · exact cbu8SecondToLastTrail_within s _ _ hi
  · exact .some _ le_rfl hi.le

theorem cbu8Lead4_within (s : List UInt8) {i length : ℕ} (c : ℕ) (hi : i < length) :
    IndexWithin i length (cbu8Lead4 s i length c) := by
  unfold cbu8Lead4
  dsimp only
  refine .ite (fun _ => .bind fun b => ?_) fun _ => .some _ le_rfl hi.le
  refine .ite (fun _ => ?_) fun _ => .some _ le_rfl hi.le
  refine .ite (fun _ => .bind fun t => ?_) fun _ => .some _ (by omega) hi
  refine .ite (fun _ => ?_) fun _ => .some _ (by omega) hi
  exact (cbu8SecondToLastTrail_within s _ _ (by omega)).mono (by omega)

/-- The macro moves forward, and not past the end. -/
theorem cbu8Next_within (s : List UInt8) {i length : ℕ} (hi : i < length) :
    IndexWithin (i + 1) length (cbu8Next s i length) := by
  refine .bind fun b => ?_
  dsimp only
  split_ifs with h1 hend hE0 hF0 hC2
  · exact .some _ le_rfl hi
  · exact .some _ le_rfl hi
  · exact cbu8Lead3_within s _ (by omega)
  · exact cbu8Lead4_within s _ (by omega)
  · exact cbu8LastTrail_within s _ (by omega)
  · exact .some _ le_rfl hi

theorem cbu16Next_within (s : List UInt16) {i length : ℕ} (hi : i < length) :
    IndexWithin (i + 1) length (cbu16Next s i length) := by
  refine .bind fun u => ?_
  dsimp only
  split_ifs with h
  · refine .bind fun c2 => ?_
    split_ifs
    · exact .some _ (by omega) (by omega)
    · exact .some _ le_rfl hi
  · exact .some _ le_rfl hi

section Take

variable (s : List UInt8) {i length : ℕ}

theorem cbu8LastTrail_take (c : ℕ) (hi : i < length) :
    cbu8LastTrail (s.take length) i c = cbu8LastTrail s i c := by
  rw [cbu8LastTrail, cbu8LastTrail, List.getElem?_take_of_lt hi]

theorem cbu8SecondToLastTrail_take (c t : ℕ) (hi : i < length) :
    cbu8SecondToLastTrail (s.take length) i length c t =
      cbu8SecondToLastTrail s i length c t := by
  unfold cbu8SecondToLastTrail
  dsimp only
  split_ifs with h
  · exact cbu8LastTrail_take s _ (by omega)
  · rfl

theorem cbu8Lead3_take (c : ℕ) (hi : i < length) :
    cbu8Lead3 (s.take length) i length c = cbu8Lead3 s i length c := by
  simp only [cbu8Lead3, List.getElem?_take_of_lt hi, cbu8SecondToLastTrail_take s _ _ hi]

theorem cbu8Lead4_take (c : ℕ) (hi : i < length) :
    cbu8Lead4 (s.take length) i length c = cbu8Lead4 s i length c := by
  unfold cbu8Lead4
  dsimp only
  rw [List.getElem?_take_of_lt hi]
  by_cases h : i + 1 ≠ length
  · have hi' : i + 1 < length := by omega
    simp only [List.getElem?_take_of_lt hi', cbu8SecondToLastTrail_take s _ _ hi']
  · simp only [if_neg h]

/-- The macro does not look past the length. -/
theorem cbu8Next_take (hi : i < length) :
    cbu8Next (s.take length) i length = cbu8Next s i length := by
  unfold cbu8Next
  dsimp only
  rw [List.getElem?_take_of_lt hi]
  by_cases h : i + 1 = length
  · simp only [if_pos h]
  · have hi' : i + 1 < length := by omega
    simp only [cbu8Lead3_take s _ hi', cbu8Lead4_take s _ hi', cbu8LastTrail_take s _ hi']

end Take

section Bits

open Unicode

theorem cbu8IsSingle_iff (b : UInt8) : cbu8IsSingle b.toNat ↔ b.toNat < 0x80 := by
  have h : ∀ n < 256, n &&& 0x80 = 0 ↔ n < 0x80 := by decide +kernel
  exact h _ b.toNat_lt

/-- The packed table of the three-byte sequences is the table of well-formed ones. -/
theorem cbu8Lead3T1Bits_iff {a : UInt8} (b : UInt8) (ha : 0xe0 ≤ a.toNat) (ha' : a.toNat < 0xf0) :
    cbu8Lead3T1Bits.getD (a.toNat &&& 0xf) 0 &&& (1 <<< (b.toNat >>> 5)) ≠ 0 ↔ Lead3 a b := by
  have h : ∀ m < 16, ∀ k < 8, cbu8Lead3T1Bits.getD ((0xe0 + m) &&& 0xf) 0 &&& (1 <<< k) ≠ 0 ↔
      (4 ≤ k ∧ k ≤ 5) ∧ (m = 0 → 5 ≤ k) ∧ (m = 0xD → k ≤ 4) := by decide +kernel
  have hb := b.toNat_lt
  have hshift : b.toNat >>> 5 = b.toNat / 32 := Nat.shiftRight_eq_div_pow b.toNat 5
  have hm := h (a.toNat - 0xe0) (by omega) (b.toNat >>> 5) (by omega)
  rw [show 0xe0 + (a.toNat - 0xe0) = a.toNat by omega] at hm
  rw [hm, hshift]
  unfold Lead3 Trail
  omega

theorem cbu8Lead4T1Bits_iff {a : UInt8} (b : UInt8) (ha : 0xf0 ≤ a.toNat)
    (ha' : a.toNat - 0xf0 ≤ 4) :
    cbu8Lead4T1Bits.getD (b.toNat >>> 4) 0 &&& (1 <<< (a.toNat - 0xf0)) ≠ 0 ↔ Lead4 a b := by
  have h : ∀ m < 5, ∀ k < 16, cbu8Lead4T1Bits.getD k 0 &&& (1 <<< m) ≠ 0 ↔
      (8 ≤ k ∧ k ≤ 11) ∧ (m = 0 → 9 ≤ k) ∧ (m = 4 → k ≤ 8) := by decide +kernel
  have hb := b.toNat_lt
  have hshift : b.toNat >>> 4 = b.toNat / 16 := Nat.shiftRight_eq_div_pow b.toNat 4
  rw [h (a.toNat - 0xf0) (by omega) (b.toNat >>> 4) (by omega), hshift]
  unfold Lead4 Trail
  omega

theorem toNat_sub_0x80 (b : UInt8) : (b - 0x80).toNat = (b.toNat + 128) % 256 := by
  rw [UInt8.toNat_sub, show (0x80 : UInt8).toNat = 128 from rfl]
  omega

theorem sub_0x80_le_iff (b : UInt8) : b - 0x80 ≤ 0x3f ↔ Trail b := by
  have hb := b.toNat_lt
  rw [UInt8.le_iff_toNat_le, toNat_sub_0x80, show (0x3f : UInt8).toNat = 63 from rfl, Trail]
  omega

theorem toNat_sub_0x80_of_trail {b : UInt8} (h : Trail b) : (b - 0x80).toNat = b.toNat % 64 := by
  unfold Trail at h
  rw [toNat_sub_0x80]
  omega

theorem le_of_cbu16IsLead {c : ℕ} (h : cbu16IsLead c) : 0xd800 ≤ c := by
  unfold cbu16IsLead at h
  rw [← h]
  exact Nat.and_le_left

theorem le_of_cbu16IsTrail {c : ℕ} (h : cbu16IsTrail c) : 0xdc00 ≤ c := by
  unfold cbu16IsTrail at h
  rw [← h]
  exact Nat.and_le_left

/-- A pair of surrogates is above the basic plane. -/
theorem le_cbu16GetSupplementary {lead trail : ℕ} (hl : cbu16IsLead lead)
    (ht : cbu16IsTrail trail) : 0x10000 ≤ cbu16GetSupplementary lead trail := by
  have hl := le_of_cbu16IsLead hl
  have ht := le_of_cbu16IsTrail ht
  rw [cbu16GetSupplementary, show cbu16SurrogateOffset = 56613888 from rfl, Nat.shiftLeft_eq]
  omega

/-- The units of a character are its UTF-16 encoding. -/
theorem cbu16AppendUnsafe_eq (c : Char) : cbu16AppendUnsafe c.val.toNat = utf16EncodeChar c := by
  have hv : c.val.toNat < 0x110000 := by
    have hv : c.val.toNat < 0xd800 ∨ (0xdfff < c.val.toNat ∧ c.val.toNat < 0x110000) := c.valid
    omega
  unfold cbu16AppendUnsafe utf16EncodeChar
  generalize c.val.toNat = v at hv ⊢
  by_cases h : v ≤ 0xffff
  · rw [if_pos h, if_pos (by omega)]
  · have hlow : v &&& 0x3ff ||| 0xdc00 = 0xDC00 + (v - 0x10000) % 0x400 := by
      have h10 : v &&& 0x3ff = v % 1024 := Nat.and_two_pow_sub_one_eq_mod v 10
      have hor := Nat.shiftLeft_add_eq_or_of_lt (show v % 1024 < 2 ^ 10 by omega) 0x37
      rw [h10, Nat.or_comm, show 0xdc00 = 0x37 <<< 10 from rfl, ← hor]
      omega
    have hhigh : (v >>> 10) + 0xd7c0 = 0xD800 + (v - 0x10000) / 0x400 := by
      rw [Nat.shiftRight_eq_div_pow]
      omega
    rw [if_neg h, if_neg (by omega), hlow, hhigh]

/-- Masking off the low bits of a 32-bit number. -/
theorem and_high_mask {n k : ℕ} (hn : n < 2 ^ 32) (hk : k ≤ 32) :
    n &&& (2 ^ 32 - 2 ^ k) = n / 2 ^ k * 2 ^ k := by
  have hmask : 2 ^ 32 - 2 ^ k = (2 ^ (32 - k) - 1) * 2 ^ k := by
    rw [Nat.sub_mul, ← Nat.pow_add, Nat.sub_add_cancel hk, Nat.one_mul]
  have hlow : (n &&& (2 ^ 32 - 2 ^ k)) % 2 ^ k = 0 := by
    rw [Nat.and_mod_two_pow, hmask, Nat.mul_mod_left, Nat.and_zero]
  have hhigh : (n &&& (2 ^ 32 - 2 ^ k)) / 2 ^ k = n / 2 ^ k := by
    have hlt : n / 2 ^ k < 2 ^ (32 - k) := by
      rw [Nat.div_lt_iff_lt_mul (Nat.two_pow_pos k), ← Nat.pow_add, Nat.sub_add_cancel hk]
      exact hn
    rw [Nat.and_div_two_pow, hmask, Nat.mul_div_cancel _ (Nat.two_pow_pos k),
      Nat.and_two_pow_sub_one_eq_mod, Nat.mod_eq_of_lt hlt]
  have hdiv := Nat.div_add_mod (n &&& (2 ^ 32 - 2 ^ k)) (2 ^ k)
  rw [hlow, hhigh] at hdiv
  rw [← hdiv, Nat.add_zero, Nat.mul_comm]

theorem cbu16IsLead_iff (u : UInt16) :
    cbu16IsLead u.toNat ↔ 0xd800 ≤ u.toNat ∧ u.toNat ≤ 0xdbff := by
  have hu := u.toNat_lt
  have hmask : u.toNat &&& 0xfffffc00 = u.toNat / 1024 * 1024 :=
    and_high_mask (k := 10) (by omega) (by decide)
  rw [cbu16IsLead, hmask]
  omega

theorem cbu16IsTrail_iff (u : UInt16) :
    cbu16IsTrail u.toNat ↔ 0xdc00 ≤ u.toNat ∧ u.toNat ≤ 0xdfff := by
  have hu := u.toNat_lt
  have hmask : u.toNat &&& 0xfffffc00 = u.toNat / 1024 * 1024 :=
    and_high_mask (k := 10) (by omega) (by decide)
  rw [cbu16IsTrail, hmask]
  omega

theorem cbuIsSurrogate_iff (u : UInt16) :
    cbuIsSurrogate u.toNat ↔ 0xd800 ≤ u.toNat ∧ u.toNat ≤ 0xdfff := by
  have hu := u.toNat_lt
  have hmask : u.toNat &&& 0xfffff800 = u.toNat / 2048 * 2048 :=
    and_high_mask (k := 11) (by omega) (by decide)
  rw [cbuIsSurrogate, hmask]
  omega

/-- Of surrogates, the lead ones lack one bit. -/
theorem cbu16IsSurrogateLead_iff {u : UInt16} (h : cbuIsSurrogate u.toNat) :
    cbu16IsSurrogateLead u.toNat ↔ u.toNat ≤ 0xdbff := by
  rw [cbuIsSurrogate_iff] at h
  have hbit : u.toNat &&& 0x400 = (u.toNat.testBit 10).toNat * 1024 :=
    Nat.and_two_pow u.toNat 10
  rw [cbu16IsSurrogateLead, hbit, Nat.testBit_eq_decide_div_mod_eq]
  by_cases hmod : u.toNat / 2 ^ 10 % 2 = 1
  · simp only [hmod, decide_true, Bool.toNat_true]
    omega
  · simp only [hmod, decide_false, Bool.toNat_false, true_iff]
    omega

theorem cbu16GetSupplementary_eq {u v : UInt16} (hu : 0xd800 ≤ u.toNat) (hv : 0xdc00 ≤ v.toNat) :
    cbu16GetSupplementary u.toNat v.toNat =
      (0x10000 + (u.toNat - 0xd800) * 0x400 + (v.toNat - 0xdc00) : ℕ) := by
  rw [cbu16GetSupplementary, show cbu16SurrogateOffset = 56613888 from rfl, Nat.shiftLeft_eq]
  omega

/-- Bits above and below. -/
theorem or_shiftLeft {x k : ℕ} (m : ℕ) (h : x < 2 ^ k) : x ||| m * 2 ^ k = x + m * 2 ^ k := by
  rw [Nat.or_comm, ← Nat.shiftLeft_eq, ← Nat.shiftLeft_add_eq_or_of_lt h, Nat.add_comm]

/-- Six more bits. -/
theorem shiftLeft_six_or {t : ℕ} (c : ℕ) (h : t < 64) : c <<< 6 ||| t = c * 64 + t := by
  rw [← Nat.shiftLeft_add_eq_or_of_lt (by omega : t < 2 ^ 6), Nat.shiftLeft_eq]

end Bits

section Next

open Unicode

variable {s w : List UInt8} {i : ℕ}

/-- A decoded item as the macro returns it. -/
def cbu8Result (i : ℕ) (p : Option ℕ × ℕ) : ℤ × ℕ :=
  (p.1.elim cbuSentinel fun v => v, i + p.2)

theorem cbu8LastTrail_eq {b : UInt8} (c : ℕ) (h : s.drop i = b :: w) :
    cbu8LastTrail s i c =
      some (cbu8Result i (if Trail b then (some (c * 64 + b.toNat % 64), 1) else (none, 0))) := by
  have hb : s[i]? = some b := by rw [← List.head?_drop, h]; rfl
  simp only [cbu8LastTrail, hb, Option.bind_some, sub_0x80_le_iff]
  split_ifs with ht
  · rw [toNat_sub_0x80_of_trail ht, shiftLeft_six_or c (by omega)]
    rfl
  · rfl

/-- The index one further on in the same string. -/
theorem drop_succ_of_drop {b : UInt8} (h : s.drop i = b :: w) :
    s.drop (i + 1) = w ∧ s.length = i + 1 + w.length := by
  have hlen := congrArg List.length h
  rw [List.length_drop, List.length_cons] at hlen
  refine ⟨?_, by omega⟩
  rw [← List.drop_drop, h]
  rfl

theorem cbu8SecondToLastTrail_eq {b : UInt8} (c : ℕ) {t : ℕ} (ht : t < 64)
    (h : s.drop i = b :: w) :
    cbu8SecondToLastTrail s i s.length c t = some (cbu8Result i (match w with
      | [] => (none, 1)
      | d :: _ =>
        if Trail d then (some ((c * 64 + t) * 64 + d.toNat % 64), 2) else (none, 1))) := by
  obtain ⟨hdrop, hlen⟩ := drop_succ_of_drop h
  simp only [cbu8SecondToLastTrail, shiftLeft_six_or c ht]
  cases w with
  | nil => rw [if_neg (by simp [hlen])]; rfl
  | cons d w =>
    rw [if_pos (by rw [hlen, List.length_cons]; omega), cbu8LastTrail_eq _ hdrop]
    dsimp only
    split_ifs <;> rfl

/-- The three-byte branch, after the first byte at the index `i`. -/
theorem cbu8Lead3_eq {a b : UInt8} (ha : 0xe0 ≤ a.toNat) (ha' : a.toNat < 0xf0) :
    ∀ {w}, s.drop (i + 1) = b :: w →
    cbu8Lead3 s (i + 1) s.length a.toNat = some (cbu8Result i (if Lead3 a b then match w with
      | [] => (none, 2)
      | c :: _ =>
        if Trail c then (some ((a.toNat % 16 * 64 + b.toNat % 64) * 64 + c.toNat % 64), 3)
        else (none, 2)
      else (none, 1))) := by
  intro w h
  have hb : s[i + 1]? = some b := by rw [← List.head?_drop, h]; rfl
  have h16 : a.toNat &&& 0xf = a.toNat % 16 := Nat.and_two_pow_sub_one_eq_mod a.toNat 4
  have h64 : b.toNat &&& 0x3f = b.toNat % 64 := Nat.and_two_pow_sub_one_eq_mod b.toNat 6
  simp only [cbu8Lead3, hb, Option.bind_some, cbu8Lead3T1Bits_iff b ha ha', h64]
  split_ifs with h3
  · rw [cbu8SecondToLastTrail_eq _ (by omega) h, h16]
    cases w with
    | nil => rfl
    | cons c w => dsimp only; split_ifs <;> rfl
  · rfl

/-- The four-byte branch, after the first byte at the index `i`. -/
theorem cbu8Lead4_eq {a b : UInt8} (ha : 0xf0 ≤ a.toNat) : ∀ {w}, s.drop (i + 1) = b :: w →
    cbu8Lead4 s (i + 1) s.length a.toNat = some (cbu8Result i (if Lead4 a b then match w with
      | [] => (none, 2)
      | c :: w =>
        if Trail c then match w with
          | [] => (none, 3)
          | d :: _ =>
            if Trail d then
              (some (((a.toNat % 8 * 64 + b.toNat % 64) * 64 + c.toNat % 64) * 64 +
                d.toNat % 64), 4)
            else (none, 3)
        else (none, 2)
      else (none, 1))) := by
  intro w h
  have hb : s[i + 1]? = some b := by rw [← List.head?_drop, h]; rfl
  have h64 : b.toNat &&& 0x3f = b.toNat % 64 := Nat.and_two_pow_sub_one_eq_mod b.toNat 6
  obtain ⟨hdrop, hlen⟩ := drop_succ_of_drop h
  unfold cbu8Lead4
  dsimp only
  by_cases h4 : a.toNat - 0xf0 ≤ 4
  · have h8 : a.toNat - 0xf0 = a.toNat % 8 := by omega
    simp only [if_pos h4, hb, Option.bind_some, cbu8Lead4T1Bits_iff b ha h4, h64]
    by_cases hab : Lead4 a b
    · rw [if_pos hab, if_pos hab]
      cases w with
      | nil => rw [if_neg (by simp [hlen])]; rfl
      | cons c w =>
        have hc : s[i + 1 + 1]? = some c := by rw [← List.head?_drop, hdrop]; rfl
        rw [if_pos (by rw [hlen, List.length_cons]; omega)]
        simp only [hc, Option.bind_some, sub_0x80_le_iff]
        split_ifs with ht
        · rw [toNat_sub_0x80_of_trail ht, cbu8SecondToLastTrail_eq _ (by omega) hdrop,
            shiftLeft_six_or _ (by omega), h8]
          cases w with
          | nil => rfl
          | cons d w => dsimp only; split_ifs <;> rfl
        · rfl
    · rw [if_neg hab, if_neg hab]
      rfl
  · rw [if_neg h4, if_neg fun hab => h4 (by unfold Lead4 at hab; omega)]
    rfl

/-- The two-byte branch, after the first byte at the index `i`. -/
theorem cbu8LastTrail_lead2_eq {a b : UInt8} (h : s.drop (i + 1) = b :: w) :
    cbu8LastTrail s (i + 1) (a.toNat &&& 0x1f) = some (cbu8Result i (if Trail b then
      (some (a.toNat % 32 * 64 + b.toNat % 64), 2) else (none, 1))) := by
  have h32 : a.toNat &&& 0x1f = a.toNat % 32 := Nat.and_two_pow_sub_one_eq_mod a.toNat 5
  rw [cbu8LastTrail_eq _ h, h32]
  split_ifs <;> rfl

/-- The macro agrees with the decoder by the table. -/
theorem cbu8Next_eq (h : s.drop i = w) (hw : w ≠ []) :
    cbu8Next s i s.length = some (cbu8Result i (decodeNext w)) := by
  cases w with
  | nil => exact absurd rfl hw
  | cons a w =>
    have ha : s[i]? = some a := by rw [← List.head?_drop, h]; rfl
    obtain ⟨hdrop, hlen⟩ := drop_succ_of_drop h
    simp only [cbu8Next, ha, Option.bind_some, cbu8IsSingle_iff]
    unfold decodeNext
    dsimp only
    by_cases h1 : a.toNat < 0x80
    · rw [if_pos h1, if_pos h1]
      rfl
    rw [if_neg h1, if_neg h1]
    cases w with
    | nil => rw [if_pos (by simp [hlen])]; rfl
    | cons b w =>
      rw [if_neg (by rw [hlen, List.length_cons]; omega)]
      dsimp only
      -- the lead bytes that the macro tells apart by their order, the table by its rows
      have h2 : Lead2 a ↔ 0xc2 ≤ a.toNat ∧ a.toNat < 0xe0 := by unfold Lead2; omega
      have h3 : Lead3 a b → 0xe0 ≤ a.toNat ∧ a.toNat < 0xf0 := by unfold Lead3; omega
      have h4 : Lead4 a b → 0xf0 ≤ a.toNat := by unfold Lead4; omega
      by_cases hE0 : a.toNat ≥ 0xe0
      · rw [if_pos hE0, if_neg (mt h2.mp (by omega))]
        by_cases hF0 : a.toNat < 0xf0
        · rw [if_pos hF0, if_neg (mt h4 (by omega))]
          exact cbu8Lead3_eq hE0 hF0 hdrop
        · rw [if_neg hF0, if_neg (mt h3 (by omega))]
          exact cbu8Lead4_eq (not_lt.mp hF0) hdrop
      · rw [if_neg hE0, if_neg (mt h3 (by omega)), if_neg (mt h4 (by omega))]
        by_cases hC2 : a.toNat ≥ 0xc2
        · rw [if_pos hC2, if_pos (h2.mpr (by omega)), cbu8LastTrail_lead2_eq hdrop]
        · rw [if_neg hC2, if_neg (mt h2.mp (by omega))]
          rfl

end Next

end MiniChromium
