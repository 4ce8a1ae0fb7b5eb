import MiniChromium.StringNumberConversions

/-!
# Which numerals are accepted

`StringToUint` and its siblings reject what is above the range. The branch for a minus
sign was written for the minimum of a signed type, and takes numerals below zero for an
unsigned one. `HexStringToInt` compares a signed accumulator with a bound that comes
from an unsigned type, and takes a prefix without digits.
-/
namespace MiniChromium

open IntegralType MiniChromium.Num Numeral

variable {traits : NumberTraits}

section Parts

variable {s : List UInt8} {σ : ℤ} {ds : List ℕ}

theorem denotes_iff_of_parts {base : ℕ} (h : Parts base (prefixes base) s σ ds) {z : ℤ} :
    Denotes base (prefixes base) s z ↔ ds ≠ [] ∧ z = σ * value base ds := by
  constructor
  · rintro ⟨σ', ds', h', hne, hz⟩
    obtain ⟨rfl, rfl⟩ := parts_unique h h'
    exact ⟨hne, hz⟩
  · rintro ⟨hne, hz⟩
    exact ⟨σ, ds, h, hne, hz⟩

theorem reads_iff_of_parts (h : Parts traits.kBase (prefixes traits.kBase) s σ ds)
    {o : Num traits.valueType} : Reads traits s o ↔ ¬SignPart s σ ∧
      EachDigit traits.kBase ((signOf traits σ).Passes σ) ds ∧
      staticCast traits.valueType (σ * value traits.kBase ds) = o := by
  constructor
  · rintro ⟨σ', ds', h', hsign, hrest⟩
    obtain ⟨rfl, rfl⟩ := parts_unique h h'
    exact ⟨hsign, hrest⟩
  · rintro ⟨hsign, hrest⟩
    exact ⟨σ, ds, h, hsign, hrest⟩

/-- A sign alone has no digits. -/
theorem parts_of_signPart {base : ℕ} (h : SignPart s σ) : Parts base (prefixes base) s σ [] := by
  refine ⟨s, [], (List.append_nil s).symm, h, [], ?_, [], rfl, .nil⟩
  unfold prefixes
  split_ifs <;> decide

theorem not_signPart_of_parts {base : ℕ} (h : Parts base (prefixes base) s σ ds) (hne : ds ≠ []) :
    ¬SignPart s σ := by
  intro hs
  exact hne (parts_unique h (parts_of_signPart hs)).2

theorem signPart_of_parts_nil {base : ℕ} (hbase : base ≠ 16)
    (h : Parts base (prefixes base) s σ []) : SignPart s σ := by
  obtain ⟨signPart, rest, rfl, hsign, pre, hpre, body, rfl, hd⟩ := h
  rw [prefixes, if_neg hbase, List.mem_singleton] at hpre
  subst hpre
  cases hd
  simpa using hsign

theorem accepted_iff (hbase : traits.kBase = 10 ∨ traits.kBase = 16) :
    (invoke traits s).1 = true ↔ ∃ o, Reads traits s o := by
  simp only [← invoke_eq_iff hbase]
  constructor
  · intro h
    exact ⟨(invoke traits s).2, Prod.ext h rfl⟩
  · rintro ⟨o, ho⟩
    rw [ho]

/-- For a string of this form only the checks decide. -/
theorem accepted_iff_of_parts (hbase : traits.kBase = 10 ∨ traits.kBase = 16)
    (h : Parts traits.kBase (prefixes traits.kBase) s σ ds) (hsign : ¬SignPart s σ) :
    (invoke traits s).1 = true ↔ EachDigit traits.kBase ((signOf traits σ).Passes σ) ds := by
  simp only [accepted_iff hbase, reads_iff_of_parts h, exists_and_left, exists_eq', and_true]
  exact and_iff_right hsign

theorem output_of_accepted (hbase : traits.kBase = 10 ∨ traits.kBase = 16)
    (h : Parts traits.kBase (prefixes traits.kBase) s σ ds)
    (haccepted : (invoke traits s).1 = true) :
    (invoke traits s).2 = staticCast traits.valueType (σ * value traits.kBase ds) := by
  have hreads := (invoke_eq_iff hbase (s := s)).mp (Prod.ext haccepted rfl)
  exact ((reads_iff_of_parts h).mp hreads).2.2.symm

variable {I : ℤ → Prop} {O : Num traits.valueType → ℤ → Prop}

/-- On a numeral the function is right if its checks pass on a number in range, and fail
on any other. -/
theorem accepts_iff_of_parts (hbase : traits.kBase = 10 ∨ traits.kBase = 16)
    (hO : ∀ z, I z → O (staticCast traits.valueType z) z) (hne : ds ≠ [])
    (h : Parts traits.kBase (prefixes traits.kBase) s σ ds) :
    ((invoke traits s).1 = true ↔ ∃ z, Denotes traits.kBase (prefixes traits.kBase) s z ∧ I z) ∧
      (∀ z, Denotes traits.kBase (prefixes traits.kBase) s z → I z → O (invoke traits s).2 z) ↔
    (EachDigit traits.kBase ((signOf traits σ).Passes σ) ds ↔ I (σ * value traits.kBase ds)) := by
  have haccepted := accepted_iff_of_parts hbase h (not_signPart_of_parts h hne)
  have hdenotes : (∃ z, Denotes traits.kBase (prefixes traits.kBase) s z ∧ I z) ↔
      I (σ * value traits.kBase ds) := by
    simp only [denotes_iff_of_parts h, and_assoc, exists_and_left, exists_eq_left]
    exact and_iff_right hne
  rw [haccepted, hdenotes]
  refine and_iff_left_of_imp fun hiff z hz hI => ?_
  obtain ⟨-, rfl⟩ := (denotes_iff_of_parts h).mp hz
  rw [output_of_accepted hbase h (haccepted.mpr (hiff.mpr hI))]
  exact hO _ hI

/-- On any other string the function is right if it returns false. -/
theorem accepts_iff_of_not_numeral
    (h : ∀ σ ds, Parts traits.kBase (prefixes traits.kBase) s σ ds → ds = []) :
    ((invoke traits s).1 = true ↔ ∃ z, Denotes traits.kBase (prefixes traits.kBase) s z ∧ I z) ∧
      (∀ z, Denotes traits.kBase (prefixes traits.kBase) s z → I z → O (invoke traits s).2 z) ↔
    ¬(invoke traits s).1 = true := by
  have hdenotes : ∀ z, ¬Denotes traits.kBase (prefixes traits.kBase) s z := by
    rintro z ⟨σ, ds, hp, hne, -⟩
    exact hne (h σ ds hp)
  simp [hdenotes]

end Parts

section Checks

variable {T : IntegralType} {v d : ℕ}

theorem positive_passes {σ : ℤ} : (positive traits).Passes σ v d ↔
    ¬((staticCast traits.valueType (σ * v)).val >
        (staticCast traits.valueType (traits.max / traits.kBase)).val ∨
      (staticCast traits.valueType (σ * v)).val =
        (staticCast traits.valueType (traits.max / traits.kBase)).val ∧
      d > traits.max % traits.kBase) := by
  simp only [Sign.Passes, positive, ite_eq_right_iff, reduceCtorEq, imp_false]

theorem negative_passes {σ : ℤ} : (negative traits).Passes σ v d ↔
    ¬((staticCast traits.valueType (σ * v)).val < traits.min.tdiv traits.kBase ∨
      (staticCast traits.valueType (σ * v)).val = traits.min.tdiv traits.kBase ∧
      d > 0 - traits.min.tmod traits.kBase) := by
  simp only [Sign.Passes, negative, ite_eq_right_iff, reduceCtorEq, imp_false]

/-- The check for a plus sign, in a type whose values bound it. -/
theorem positive_passes_iff (hv : v ≤ T.max) (hd : d < 10) :
    (positive (decimalTraits T)).Passes 1 v d ↔ (v * 10 + d : ℕ) ≤ T.max := by
  have hlow := T.lowest_nonpos
  have hmax := T.max_pos
  have hcast : (staticCast T (1 * v)).val = v := by
    rw [one_mul]
    exact staticCast_of_inRange ⟨by omega, hv⟩
  have hbound : (staticCast T (T.max / (10 : ℕ))).val = T.max / 10 :=
    staticCast_of_inRange ⟨by omega, by omega⟩
  simp only [positive_passes, decimalTraits, NumberTraits.max, hcast, hbound]
  omega

theorem staticCast_eq_zero_iff (z : ℤ) : (staticCast T z).val = 0 ↔ T.modulus ∣ z := by
  have hmod := staticCast_modEq T z
  constructor
  · intro h
    rw [h] at hmod
    exact Int.modEq_zero_iff_dvd.mp hmod.symm
  · intro h
    rw [staticCast_congr (Int.modEq_zero_iff_dvd.mpr h), staticCast_zero]

/-- The check for a minus sign, in an unsigned type: only a zero stops it. -/
theorem negative_passes_iff (hT : T.isSigned = false) :
    (negative (decimalTraits T)).Passes (-1) v d ↔ (T.modulus ∣ v → d = 0) := by
  have hnonneg := (staticCast T (-1 * v)).nonneg hT
  have hzero : (staticCast T (-1 * v)).val = 0 ↔ T.modulus ∣ v := by
    rw [staticCast_eq_zero_iff, neg_one_mul, Int.dvd_neg]
  simp only [negative_passes, decimalTraits, NumberTraits.min, lowest_of_unsigned hT,
    Int.zero_tdiv, Int.zero_tmod, hzero, not_lt.mpr hnonneg, false_or, not_and]
  exact imp_congr_right fun _ => by omega

theorem negative_hex_passes_iff (hv : v ≤ 2 ^ 31) (hd : d < 16) :
    (negative hexTraits).Passes (-1) v d ↔ v * 16 + d ≤ 2 ^ 31 := by
  have hlow : IntegralType.int32.lowest = -2 ^ 31 := rfl
  have hmax : IntegralType.int32.max = 2 ^ 31 - 1 := rfl
  have hcast : (staticCast .int32 (-1 * v)).val = -v := by
    rw [neg_one_mul]
    exact staticCast_of_inRange ⟨by omega, by omega⟩
  have hdiv : hexTraits.min.tdiv hexTraits.kBase = -2 ^ 27 := by decide
  have hmod : hexTraits.min.tmod hexTraits.kBase = 0 := by decide
  rw [negative_passes, hdiv, hmod, show hexTraits.valueType = .int32 from rfl, hcast]
  omega

theorem positive_hex_passes_iff (hd : d < 16) :
    (positive hexTraits).Passes 1 v d ↔ ¬(2 ^ 28 ≤ v % 2 ^ 32 ∧ v % 2 ^ 32 < 2 ^ 31) := by
  have hbound : (staticCast .int32 (hexTraits.max / hexTraits.kBase)).val = 2 ^ 28 - 1 := by decide
  have hmod : hexTraits.max % hexTraits.kBase = 15 := by decide
  have hcast : (staticCast .int32 (1 * v)).val = -2 ^ 31 + (v + 2 ^ 31) % 2 ^ 32 := by
    rw [one_mul]
    rfl
  rw [positive_passes, hmod, show hexTraits.valueType = .int32 from rfl, hbound, hcast]
  omega

end Checks

section Decimal

variable {T : IntegralType} {s : List UInt8} {ds : List ℕ}

/-- The function returns true on the numerals of numbers in the range of the type, and on
nothing else, and stores the number. -/
def AcceptsDecimal (T : IntegralType) (f : List UInt8 → Bool × Num T) (s : List UInt8) : Prop :=
  ((f s).1 = true ↔ ∃ z, Denotes 10 (prefixes 10) s z ∧ T.InRange z) ∧
    ∀ z, Denotes 10 (prefixes 10) s z → T.InRange z → (f s).2.val = z

/-- A minus sign before digits that are not all zero, of which no zero value modulo the
range of the type stops the reader. -/
def NegativeRead (T : IntegralType) (s : List UInt8) : Prop :=
  ∃ ds, Parts 10 (prefixes 10) s (-1) ds ∧ value 10 ds ≠ 0 ∧
    EachDigit 10 (fun v d => T.modulus ∣ v → d = 0) ds

theorem parts_sign {base : ℕ} {σ : ℤ} (h : Parts base (prefixes base) s σ ds) :
    σ = 1 ∨ σ = -1 := by
  obtain ⟨signPart, rest, -, hsign, -⟩ := h
  cases hsign with
  | none => exact .inl rfl
  | plus => exact .inl rfl
  | minus => exact .inr rfl

theorem parts_digits_lt {base : ℕ} {σ : ℤ} (h : Parts base (prefixes base) s σ ds) :
    ∀ d ∈ ds, d < base := by
  obtain ⟨signPart, rest, -, -, pre, -, body, -, hd⟩ := h
  exact hd.lt

/-- With a plus sign, or none, exactly the numerals up to the maximum are read. -/
theorem positive_eachDigit_iff (hds : ∀ d ∈ ds, d < 10) (hne : ds ≠ []) :
    EachDigit 10 ((positive (decimalTraits T)).Passes 1) ds ↔ (value 10 ds : ℤ) ≤ T.max := by
  have h10 : 10 ≤ T.max := by cases T <;> decide
  refine eachDigit_iff_le (by decide) (by omega) (fun v d hd hv => ?_) hds hne
  exact positive_passes_iff hv hd

theorem acceptsDecimal_iff_of_parts {σ : ℤ} (hne : ds ≠ []) (h : Parts 10 (prefixes 10) s σ ds) :
    AcceptsDecimal T (invoke (decimalTraits T)) s ↔
      (EachDigit 10 ((signOf (decimalTraits T) σ).Passes σ) ds ↔ T.InRange (σ * value 10 ds)) :=
  @accepts_iff_of_parts (decimalTraits T) s σ ds T.InRange (fun o z => o.val = z) (.inl rfl)
    (fun _ hz => staticCast_of_inRange hz) hne h

theorem acceptsDecimal_of_positive (hne : ds ≠ []) (h : Parts 10 (prefixes 10) s 1 ds) :
    AcceptsDecimal T (invoke (decimalTraits T)) s := by
  rw [acceptsDecimal_iff_of_parts hne h]
  refine (positive_eachDigit_iff (parts_digits_lt h) hne).trans ?_
  rw [one_mul]
  exact (and_iff_right (T.lowest_nonpos.trans (Int.natCast_nonneg _))).symm

theorem acceptsDecimal_iff_of_negative (hT : T.isSigned = false) (hne : ds ≠ [])
    (h : Parts 10 (prefixes 10) s (-1) ds) :
    AcceptsDecimal T (invoke (decimalTraits T)) s ↔ ¬(value 10 ds ≠ 0 ∧
      EachDigit 10 (fun v d => T.modulus ∣ v → d = 0) ds) := by
  rw [acceptsDecimal_iff_of_parts hne h]
  have hpasses : EachDigit 10 ((signOf (decimalTraits T) (-1)).Passes (-1)) ds ↔
      EachDigit 10 (fun v d => T.modulus ∣ v → d = 0) ds :=
    EachDigit.congr (parts_digits_lt h) fun v d _ => negative_passes_iff hT
  have hrange : T.InRange (-1 * value 10 ds) ↔ value 10 ds = 0 := by
    have hmax := T.max_pos
    rw [IntegralType.InRange, lowest_of_unsigned hT]
    omega
  have hzero : value 10 ds = 0 → EachDigit 10 (fun v d => T.modulus ∣ v → d = 0) ds := by
    rintro hvalue pre d post rfl - -
    exact (value_eq_zero_iff (by decide) _).mp hvalue d (by simp)
  rw [hpasses, hrange]
  constructor
  · rintro hiff ⟨hvalue, heach⟩
    exact hvalue (hiff.mp heach)
  · intro hnot
    refine ⟨fun heach => ?_, hzero⟩
    by_contra hvalue
    exact hnot ⟨hvalue, heach⟩

theorem acceptsDecimal_of_not_numeral (h : ∀ σ ds, Parts 10 (prefixes 10) s σ ds → ds = []) :
    AcceptsDecimal T (invoke (decimalTraits T)) s := by
  apply (@accepts_iff_of_not_numeral (decimalTraits T) s T.InRange (fun o z => o.val = z) h).mpr
  rw [accepted_iff (.inl rfl)]
  rintro ⟨o, σ, ds, hp, hsign, -⟩
  obtain rfl := h σ ds hp
  exact hsign (signPart_of_parts_nil (show 10 ≠ 16 by decide) hp)

/-- A string is read as the numeral it is, unless it is a negative one that is read. -/
theorem acceptsDecimal_iff (hT : T.isSigned = false) (s : List UInt8) :
    AcceptsDecimal T (invoke (decimalTraits T)) s ↔ ¬NegativeRead T s := by
  by_cases h : ∃ σ ds, Parts 10 (prefixes 10) s σ ds ∧ ds ≠ []
  · obtain ⟨σ, ds, hp, hne⟩ := h
    rcases parts_sign hp with rfl | rfl
    · refine iff_of_true (acceptsDecimal_of_positive hne hp) ?_
      rintro ⟨ds', hp', -⟩
      exact absurd (parts_unique hp hp').1 (by decide)
    · rw [acceptsDecimal_iff_of_negative hT hne hp, not_iff_not]
      constructor
      · intro h
        exact ⟨ds, hp, h⟩
      · rintro ⟨ds', hp', h⟩
        rwa [(parts_unique hp hp').2]
  · push Not at h
    refine iff_of_true (acceptsDecimal_of_not_numeral h) ?_
    rintro ⟨ds, hp, hvalue, -⟩
    rw [h _ _ hp] at hvalue
    exact hvalue rfl

end Decimal

/-- The unsigned functions are right but for negative numerals. -/
theorem stringToUnsigned_accepts_iff (s : List UInt8) :
    (AcceptsDecimal .uint32 stringToUint s ↔ ¬NegativeRead .uint32 s) ∧
    (AcceptsDecimal .uint64 stringToUint64 s ↔ ¬NegativeRead .uint64 s) ∧
    (AcceptsDecimal .uint64 stringToSizeT s ↔ ¬NegativeRead .uint64 s) :=
  ⟨acceptsDecimal_iff rfl s, acceptsDecimal_iff rfl s, acceptsDecimal_iff rfl s⟩

/-- `-1` is read as the largest number of the type. -/
theorem stringToUint_reads_minus_one :
    stringToUint [0x2D, 0x31] = (true, maxValue .uint32) ∧
      ¬AcceptsDecimal .uint32 stringToUint [0x2D, 0x31] := by
  refine ⟨by decide, fun h => ?_⟩
  obtain ⟨z, ⟨σ, ds, hp, -, rfl⟩, hlow, -⟩ := h.1.mp (by decide)
  have hminus : Parts 10 (prefixes 10) [0x2D, 0x31] (-1) [1] :=
    ⟨[0x2D], [0x31], rfl, .minus, [], by decide, [0x31], rfl, .cons (by decide) .nil⟩
  obtain ⟨rfl, rfl⟩ := parts_unique hp hminus
  exact absurd hlow (by decide)

section Hex

variable {s : List UInt8} {ds : List ℕ}

/-- `HexStringToInt` returns true on the numerals of numbers that 32 bits hold, signed or
unsigned, and on nothing else, and stores the number modulo `2 ^ 32`. -/
def AcceptsHex (s : List UInt8) : Prop :=
  ((hexStringToInt s).1 = true ↔
    ∃ z, Denotes 16 (prefixes 16) s z ∧ -2 ^ 31 ≤ z ∧ z ≤ 2 ^ 32 - 1) ∧
  ∀ z, Denotes 16 (prefixes 16) s z → -2 ^ 31 ≤ z ∧ z ≤ 2 ^ 32 - 1 →
    (hexStringToInt s).2.val ≡ z [ZMOD 2 ^ 32]

/-- A prefix with no digits after it. -/
def BarePrefix (s : List UInt8) : Prop :=
  ∃ signPart pre σ, s = signPart ++ pre ∧ SignPart signPart σ ∧
    (pre = [0x30, 0x78] ∨ pre = [0x30, 0x58])

/-- Too many digits, none of which comes when the accumulator is above the bound: it is
compared as a signed number. -/
def OverlongRead (s : List UInt8) : Prop :=
  ∃ ds, Parts 16 (prefixes 16) s 1 ds ∧ 2 ^ 32 ≤ value 16 ds ∧
    EachDigit 16 (fun v _ => ¬(2 ^ 28 ≤ v % 2 ^ 32 ∧ v % 2 ^ 32 < 2 ^ 31)) ds

theorem acceptsHex_iff_of_parts {σ : ℤ} (hne : ds ≠ []) (h : Parts 16 (prefixes 16) s σ ds) :
    AcceptsHex s ↔ (EachDigit 16 ((signOf hexTraits σ).Passes σ) ds ↔
      -2 ^ 31 ≤ σ * value 16 ds ∧ σ * value 16 ds ≤ 2 ^ 32 - 1) :=
  @accepts_iff_of_parts hexTraits s σ ds (fun z => -2 ^ 31 ≤ z ∧ z ≤ 2 ^ 32 - 1)
    (fun o z => o.val ≡ z [ZMOD 2 ^ 32]) (.inr rfl)
    (fun z _ => staticCast_modEq .int32 z) hne h

/-- The branch for the minus sign is exact. -/
theorem acceptsHex_of_negative (hne : ds ≠ []) (h : Parts 16 (prefixes 16) s (-1) ds) :
    AcceptsHex s := by
  rw [acceptsHex_iff_of_parts hne h]
  have heach : EachDigit 16 ((negative hexTraits).Passes (-1)) ds ↔
      (value 16 ds : ℤ) ≤ 2 ^ 31 := by
    refine eachDigit_iff_le (by decide) (by decide) (fun v d hd hv => ?_) (parts_digits_lt h) hne
    rw [negative_hex_passes_iff (by omega) hd]
    omega
  refine heach.trans ?_
  omega

theorem acceptsHex_iff_of_positive (hne : ds ≠ []) (h : Parts 16 (prefixes 16) s 1 ds) :
    AcceptsHex s ↔ ¬(2 ^ 32 ≤ value 16 ds ∧
      EachDigit 16 (fun v _ => ¬(2 ^ 28 ≤ v % 2 ^ 32 ∧ v % 2 ^ 32 < 2 ^ 31)) ds) := by
  have hpasses : EachDigit 16 ((signOf hexTraits 1).Passes 1) ds ↔
      EachDigit 16 (fun v _ => ¬(2 ^ 28 ≤ v % 2 ^ 32 ∧ v % 2 ^ 32 < 2 ^ 31)) ds :=
    EachDigit.congr (parts_digits_lt h) fun v d hd => positive_hex_passes_iff hd
  have hexact : EachDigit 16 (fun v d => v * 16 + d < 2 ^ 32) ds ↔ value 16 ds < 2 ^ 32 := by
    have hle : EachDigit 16 (fun v d => v * 16 + d < 2 ^ 32) ds ↔
        (value 16 ds : ℤ) ≤ 2 ^ 32 - 1 := by
      refine eachDigit_iff_le (by decide) (by decide) (fun v d _ _ => ?_) (parts_digits_lt h) hne
      omega
    rw [hle]
    omega
  have hsmall : value 16 ds < 2 ^ 32 →
      EachDigit 16 (fun v _ => ¬(2 ^ 28 ≤ v % 2 ^ 32 ∧ v % 2 ^ 32 < 2 ^ 31)) ds := by
    intro hv pre d post heq hpre
    have hlt := hexact.mpr hv pre d post heq hpre
    dsimp only at hlt
    omega
  rw [acceptsHex_iff_of_parts hne h, hpasses, one_mul]
  constructor
  · rintro hiff ⟨hvalue, heach⟩
    have hrange := (hiff.mp heach).2
    omega
  · intro hnot
    constructor
    · intro heach
      by_contra hrange
      exact hnot ⟨by omega, heach⟩
    · intro hrange
      exact hsmall (by omega)

theorem barePrefix_iff :
    BarePrefix s ↔ ∃ σ, Parts 16 (prefixes 16) s σ [] ∧ ¬SignPart s σ := by
  constructor
  · rintro ⟨signPart, pre, σ, rfl, hsign, hpre⟩
    refine ⟨σ, ⟨signPart, pre, rfl, hsign, pre, ?_, [], (List.append_nil pre).symm, .nil⟩, ?_⟩
    · rcases hpre with rfl | rfl <;> decide
    · intro h
      have hlen := h.length_le
      rw [List.length_append] at hlen
      rcases hpre with rfl | rfl <;> simp at hlen
  · rintro ⟨σ, ⟨signPart, rest, rfl, hsign, pre, hpre, body, rfl, hd⟩, hnot⟩
    cases hd
    rw [List.append_nil] at hnot ⊢
    rw [prefixes, if_pos rfl] at hpre
    simp only [List.mem_cons, List.not_mem_nil, or_false] at hpre
    rcases hpre with rfl | hpre
    · rw [List.append_nil] at hnot
      exact absurd hsign hnot
    · exact ⟨signPart, pre, σ, rfl, hsign, hpre⟩

theorem acceptsHex_iff_of_not_numeral (h : ∀ σ ds, Parts 16 (prefixes 16) s σ ds → ds = []) :
    AcceptsHex s ↔ ¬BarePrefix s := by
  refine (@accepts_iff_of_not_numeral hexTraits s (fun z => -2 ^ 31 ≤ z ∧ z ≤ 2 ^ 32 - 1)
    (fun o z => o.val ≡ z [ZMOD 2 ^ 32]) h).trans (not_congr ?_)
  rw [accepted_iff (.inr rfl), barePrefix_iff]
  constructor
  · rintro ⟨o, σ, ds, hp, hsign, -⟩
    obtain rfl := h σ ds hp
    exact ⟨σ, hp, hsign⟩
  · rintro ⟨σ, hp, hsign⟩
    exact ⟨_, σ, [], hp, hsign, eachDigit_nil _ _, rfl⟩

/-- `HexStringToInt` is right but for two kinds of strings. -/
theorem hexStringToInt_accepts_iff (s : List UInt8) :
    AcceptsHex s ↔ ¬BarePrefix s ∧ ¬OverlongRead s := by
  by_cases h : ∃ σ ds, Parts 16 (prefixes 16) s σ ds ∧ ds ≠ []
  · obtain ⟨σ, ds, hp, hne⟩ := h
    have hbare : ¬BarePrefix s := by
      rw [barePrefix_iff]
      rintro ⟨σ', hp', -⟩
      exact hne (parts_unique hp hp').2
    rw [and_iff_right hbare]
    rcases parts_sign hp with rfl | rfl
    · rw [acceptsHex_iff_of_positive hne hp, not_iff_not]
      constructor
      · intro hread
        exact ⟨ds, hp, hread⟩
      · rintro ⟨ds', hp', hread⟩
        rwa [(parts_unique hp hp').2]
    · refine iff_of_true (acceptsHex_of_negative hne hp) ?_
      rintro ⟨ds', hp', -⟩
      exact absurd (parts_unique hp hp').1 (by decide)
  · push Not at h
    rw [acceptsHex_iff_of_not_numeral h]
    refine (and_iff_left ?_).symm
    rintro ⟨ds, hp, hvalue, -⟩
    rw [h _ _ hp] at hvalue
    exact absurd hvalue (by decide)

/-- `0x` and `800000000` are read as zero. -/
theorem hexStringToInt_reads_no_numeral :
    (hexStringToInt [0x30, 0x78] = (true, 0) ∧ ¬AcceptsHex [0x30, 0x78]) ∧
    hexStringToInt [0x38, 0x30, 0x30, 0x30, 0x30, 0x30, 0x30, 0x30, 0x30] = (true, 0) ∧
      ¬AcceptsHex [0x38, 0x30, 0x30, 0x30, 0x30, 0x30, 0x30, 0x30, 0x30] := by
  refine ⟨⟨by decide, fun h => ?_⟩, by decide, fun h => ?_⟩
  · obtain ⟨z, ⟨σ, ds, hp, hne, -⟩, -⟩ := h.1.mp (by decide)
    have hbare : Parts 16 (prefixes 16) [0x30, 0x78] 1 [] :=
      ⟨[], [0x30, 0x78], rfl, .none, [0x30, 0x78], by decide, [], rfl, .nil⟩
    exact hne (parts_unique hp hbare).2
  · obtain ⟨z, ⟨σ, ds, hp, -, rfl⟩, -, hmax⟩ := h.1.mp (by decide)
    have hlong : Parts 16 (prefixes 16) [0x38, 0x30, 0x30, 0x30, 0x30, 0x30, 0x30, 0x30, 0x30] 1
        [8, 0, 0, 0, 0, 0, 0, 0, 0] :=
      ⟨[], _, rfl, .none, [], by decide, _, rfl, by unfold Digits; simp; decide⟩
    obtain ⟨rfl, rfl⟩ := parts_unique hp hlong
    exact absurd hmax (by decide)

end Hex

end MiniChromium
