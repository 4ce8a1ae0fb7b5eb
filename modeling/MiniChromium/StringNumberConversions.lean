import MiniChromium.IntegralType
import MiniChromium.Numeral

/-!
# From strings to numbers

`StringToInt` and its siblings are one function over traits: the type of the number,
its base, and the type whose largest value bounds it. A string is a list of bytes; `int`
is in two's complement, and `size_t` has 64 bits.
-/
namespace MiniChromium

open IntegralType MiniChromium.Num Numeral

/-- `BaseCharToDigit<CHAR, BASE, BASE_LTE_10>::Convert`. -/
def convert (base : ℕ) (baseLte10 : Bool) (c : UInt8) : Option ℕ :=
  let c := c.toNat
  if baseLte10 then if c ≥ 0x30 ∧ c < 0x30 + base then some (c - 0x30) else none
  else if c ≥ 0x30 ∧ c ≤ 0x39 then some (c - 0x30)
  else if c ≥ 0x61 ∧ c < 0x61 + base - 10 then some (c - 0x61 + 10)
  else if c ≥ 0x41 ∧ c < 0x41 + base - 10 then some (c - 0x41 + 10)
  else none

/-- `CharToDigit`. -/
def charToDigit (base : ℕ) (c : UInt8) : Option ℕ := convert base (decide (base ≤ 10)) c

/-- `LocalIsWhitespace`, with `isspace` of the C locale. -/
def localIsWhitespace (c : UInt8) : Bool := c = 0x20 || (0x09 ≤ c && c ≤ 0x0D)

/-- `BaseIteratorRangeToNumberTraits`, with the type that `max` returns. -/
structure NumberTraits where
  valueType : IntegralType
  kBase : ℕ
  maxType : IntegralType

/-- `traits::min()`. -/
def NumberTraits.min (traits : NumberTraits) : ℤ := traits.valueType.lowest

/-- `traits::max()`. -/
def NumberTraits.max (traits : NumberTraits) : ℤ := traits.maxType.max

variable (traits : NumberTraits)

/-- The template parameter `Sign`. A check that fails leaves its bound in `*output`. -/
structure Sign where
  checkBounds : Num traits.valueType → ℕ → Option (Num traits.valueType)
  increment : ℕ → Num traits.valueType → Num traits.valueType

/-- `Positive`. -/
def positive : Sign traits where
  checkBounds output newDigit :=
    if output.val > (staticCast traits.valueType (traits.max / traits.kBase)).val ∨
        (output.val = (staticCast traits.valueType (traits.max / traits.kBase)).val ∧
          newDigit > traits.max % traits.kBase) then
      some (staticCast traits.valueType traits.max)
    else none
  increment increment output := staticCast traits.valueType (output.val + increment)

/-- `Negative`. -/
def negative : Sign traits where
  checkBounds output newDigit :=
    if output.val < traits.min.tdiv traits.kBase ∨
        (output.val = traits.min.tdiv traits.kBase ∧
          newDigit > 0 - traits.min.tmod traits.kBase) then
      some (staticCast traits.valueType traits.min)
    else none
  increment increment output := staticCast traits.valueType (output.val - increment)

variable {traits}

/-- The loop of `Base::Invoke`: what it returns, and `*output`. -/
def baseInvokeLoop (sign : Sign traits) (isFirst : Bool) (output : Num traits.valueType) :
    List UInt8 → Bool × Num traits.valueType
  | [] => (true, output)
  | c :: current =>
    match charToDigit traits.kBase c with
    | none => (false, output)
    | some newDigit =>
      if isFirst then baseInvokeLoop sign false (sign.increment newDigit output) current
      else
        match sign.checkBounds output newDigit with
        | some bound => (false, bound)
        | none =>
          let output := staticCast traits.valueType (output.val * traits.kBase)
          baseInvokeLoop sign false (sign.increment newDigit output) current

/-- The characters after `0x` or `0X`, in base 16. -/
def skipPrefix (base : ℕ) : List UInt8 → List UInt8
  | 0x30 :: c :: rest => if base = 16 ∧ (c = 0x78 ∨ c = 0x58) then rest else 0x30 :: c :: rest
  | s => s

/-- `Base::Invoke`. -/
def baseInvoke (sign : Sign traits) (s : List UInt8) : Bool × Num traits.valueType :=
  if s.isEmpty then (false, 0)
  else baseInvokeLoop sign true 0 (skipPrefix traits.kBase s)

/-- After the white space: the sign, and the digits. -/
def invokeSigned (traits : NumberTraits) (s : List UInt8) : Bool × Num traits.valueType :=
  match s with
  | [] => baseInvoke (positive traits) []
  | c :: rest =>
    if c = 0x2D then baseInvoke (negative traits) rest
    else baseInvoke (positive traits) (if c = 0x2B then rest else c :: rest)

/-- The loop over the white space: `valid`, and `begin`. -/
def skipWhitespace (valid : Bool) : List UInt8 → Bool × List UInt8
  | [] => (valid, [])
  | c :: begin => if localIsWhitespace c then skipWhitespace false begin else (valid, c :: begin)

/-- `IteratorRangeToNumber::Invoke`. -/
def invoke (traits : NumberTraits) (s : List UInt8) : Bool × Num traits.valueType :=
  let (valid, begin) := skipWhitespace true s
  let (invoked, output) := invokeSigned traits begin
  (valid && invoked, output)

/-- `BaseIteratorRangeToNumberTraits<..., VALUE, 10>`. -/
def decimalTraits (valueType : IntegralType) : NumberTraits := ⟨valueType, 10, valueType⟩

/-- `HexIteratorRangeToIntTraits`, whose `max` is that of `unsigned int`. -/
def hexTraits : NumberTraits := ⟨.int32, 16, .uint32⟩

/-- `StringToInt`. -/
def stringToInt : List UInt8 → Bool × Num .int32 := invoke (decimalTraits .int32)

/-- `StringToUint`. -/
def stringToUint : List UInt8 → Bool × Num .uint32 := invoke (decimalTraits .uint32)

/-- `StringToInt64`. -/
def stringToInt64 : List UInt8 → Bool × Num .int64 := invoke (decimalTraits .int64)

/-- `StringToUint64`. -/
def stringToUint64 : List UInt8 → Bool × Num .uint64 := invoke (decimalTraits .uint64)

/-- `StringToSizeT`. -/
def stringToSizeT : List UInt8 → Bool × Num .uint64 := invoke (decimalTraits .uint64)

/-- `HexStringToInt`. -/
def hexStringToInt : List UInt8 → Bool × Num .int32 := invoke hexTraits

theorem charToDigit_eq {base : ℕ} (hbase : base = 10 ∨ base = 16) (c : UInt8) :
    charToDigit base c = digitValue base c := by
  have h10 : ∀ n < 256, charToDigit 10 (UInt8.ofNat n) = digitValue 10 (UInt8.ofNat n) := by
    decide +kernel
  have h16 : ∀ n < 256, charToDigit 16 (UInt8.ofNat n) = digitValue 16 (UInt8.ofNat n) := by
    decide +kernel
  rw [← UInt8.ofNat_toNat (x := c)]
  rcases hbase with rfl | rfl
  · exact h10 _ c.toNat_lt
  · exact h16 _ c.toNat_lt

/-- The prefixes that the base allows. -/
def prefixes (base : ℕ) : List (List UInt8) :=
  if base = 16 then [[], [0x30, 0x78], [0x30, 0x58]] else [[]]

theorem unsigned_prefixes (base : ℕ) : Unsigned (prefixes base) := by
  unfold Unsigned prefixes
  split_ifs <;> simp

theorem exists_skipPrefix (base : ℕ) (s : List UInt8) :
    ∃ pre ∈ prefixes base, s = pre ++ skipPrefix base s := by
  have hnil : [] ∈ prefixes base := by
    unfold prefixes
    split_ifs <;> decide
  unfold skipPrefix
  split
  · next c rest =>
    split_ifs with h
    · obtain ⟨rfl, rfl | rfl⟩ := h
      · exact ⟨[0x30, 0x78], by decide, rfl⟩
      · exact ⟨[0x30, 0x58], by decide, rfl⟩
    · exact ⟨[], hnil, rfl⟩
  · exact ⟨[], hnil, rfl⟩

/-- No digit is taken for a prefix. -/
theorem skipPrefix_of_digits {base : ℕ} {s : List UInt8} {ds : List ℕ} (h : Digits base s ds) :
    skipPrefix base s = s := by
  unfold skipPrefix
  split
  · next c rest =>
    refine if_neg ?_
    rintro ⟨rfl, hc⟩
    cases h with
    | cons _ h =>
      cases h with
      | cons hd _ =>
        rcases hc with rfl | rfl
        · simp [digitValue] at hd
          omega
        · simp [digitValue] at hd
          omega
  · rfl

/-- What is left after the prefix is the digits. -/
theorem body_iff {base : ℕ} {s : List UInt8} {ds : List ℕ} :
    Body base (prefixes base) s ds ↔ Digits base (skipPrefix base s) ds := by
  constructor
  · rintro ⟨pre, hpre, body, rfl, hd⟩
    unfold prefixes at hpre
    split_ifs at hpre with hbase
    · subst hbase
      simp only [List.mem_cons, List.not_mem_nil, or_false] at hpre
      rcases hpre with rfl | rfl | rfl
      · rwa [List.nil_append, skipPrefix_of_digits hd]
      · exact hd
      · exact hd
    · obtain rfl := List.mem_singleton.mp hpre
      rwa [List.nil_append, skipPrefix_of_digits hd]
  · intro hd
    obtain ⟨pre, hpre, hs⟩ := exists_skipPrefix base s
    exact ⟨pre, hpre, _, hs, hd⟩

theorem parts_unique {base : ℕ} {s : List UInt8} {sign sign' : ℤ} {ds ds' : List ℕ}
    (h : Parts base (prefixes base) s sign ds) (h' : Parts base (prefixes base) s sign' ds') :
    sign = sign' ∧ ds = ds' := by
  have hbody : ∀ {t}, Body base (prefixes base) t ds → Body base (prefixes base) t ds' →
      ds = ds' := by
    intro t ht ht'
    exact (body_iff.mp ht).unique (body_iff.mp ht')
  have hp := unsigned_prefixes base
  by_cases hminus : s.head? = some 0x2D
  · obtain ⟨t, rfl⟩ := List.head?_eq_some_iff.mp hminus
    obtain ⟨rfl, ht⟩ := (parts_signed_iff hp .minus).mp h
    obtain ⟨rfl, ht'⟩ := (parts_signed_iff hp .minus).mp h'
    exact ⟨rfl, hbody ht ht'⟩
  by_cases hplus : s.head? = some 0x2B
  · obtain ⟨t, rfl⟩ := List.head?_eq_some_iff.mp hplus
    obtain ⟨rfl, ht⟩ := (parts_signed_iff hp .plus).mp h
    obtain ⟨rfl, ht'⟩ := (parts_signed_iff hp .plus).mp h'
    exact ⟨rfl, hbody ht ht'⟩
  · obtain ⟨rfl, ht⟩ := (parts_unsigned_iff hplus hminus).mp h
    obtain ⟨rfl, ht'⟩ := (parts_unsigned_iff hplus hminus).mp h'
    exact ⟨rfl, hbody ht ht'⟩

/-- A digit adds `σ` times its value, up to wrapping. -/
structure Sign.Multiplies (sign : Sign traits) (σ : ℤ) : Prop where
  increment : ∀ d output, sign.increment d output = staticCast traits.valueType (output.val + σ * d)

theorem positive_multiplies : (positive traits).Multiplies 1 :=
  ⟨fun d output => by rw [one_mul]; rfl⟩

theorem negative_multiplies : (negative traits).Multiplies (-1) :=
  ⟨fun d output => by rw [neg_one_mul, ← sub_eq_add_neg]; rfl⟩

/-- The check before the digit `d` passes, after digits of value `v`. -/
def Sign.Passes (sign : Sign traits) (σ : ℤ) (v d : ℕ) : Prop :=
  sign.checkBounds (staticCast traits.valueType (σ * v)) d = none

theorem Sign.Multiplies.increment_staticCast {sign : Sign traits} {σ : ℤ} (h : sign.Multiplies σ)
    (v d : ℕ) :
    sign.increment d (staticCast traits.valueType
        ((staticCast traits.valueType (σ * v)).val * traits.kBase)) =
      staticCast traits.valueType (σ * (v * traits.kBase + d : ℕ)) := by
  rw [h.increment]
  refine staticCast_congr ?_
  have hv := (staticCast_modEq traits.valueType (σ * v)).mul_right (traits.kBase : ℤ)
  have hmod := ((staticCast_modEq traits.valueType _).trans hv).add_right (σ * d)
  rwa [show σ * v * traits.kBase + σ * d = σ * (v * traits.kBase + d : ℕ) by push_cast; ring]
    at hmod

theorem Sign.Multiplies.increment_zero {sign : Sign traits} {σ : ℤ} (h : sign.Multiplies σ)
    (d : ℕ) : sign.increment d 0 = staticCast traits.valueType (σ * d) := by
  rw [h.increment, val_zero, zero_add]

/-- The loop after the digits `pre`: it reads on if all characters are digits and every
check passes, and computes the value up to wrapping. -/
theorem baseInvokeLoop_eq_iff {sign : Sign traits} {σ : ℤ} (hsign : sign.Multiplies σ)
    (hbase : traits.kBase = 10 ∨ traits.kBase = 16) {pre : List ℕ} {cs : List UInt8}
    (hpre : EachDigit traits.kBase (sign.Passes σ) pre) {o : Num traits.valueType} :
    baseInvokeLoop sign pre.isEmpty (staticCast traits.valueType (σ * value traits.kBase pre)) cs =
      (true, o) ↔
    ∃ ds, Digits traits.kBase cs ds ∧ EachDigit traits.kBase (sign.Passes σ) (pre ++ ds) ∧
      staticCast traits.valueType (σ * value traits.kBase (pre ++ ds)) = o := by
  induction cs generalizing pre with
  | nil =>
    rw [baseInvokeLoop, Prod.mk.injEq, eq_self, true_and]
    constructor
    · intro ho
      exact ⟨[], .nil, by rwa [List.append_nil], by rwa [List.append_nil]⟩
    · rintro ⟨ds, hd, -, ho⟩
      cases hd
      rwa [List.append_nil] at ho
  | cons c cs ih =>
    rw [baseInvokeLoop, charToDigit_eq hbase]
    cases hc : digitValue traits.kBase c with
    | none =>
      refine iff_of_false (fun h => Bool.false_ne_true (congrArg Prod.fst h)) ?_
      rintro ⟨ds, hd, -⟩
      exact not_digits_cons hc hd
    | some d =>
      rw [exists_digits_cons_iff hc]
      dsimp only
      by_cases hnil : pre = []
      · subst hnil
        have hfirst := @ih ([] ++ [d]) (eachDigit_concat_iff.mpr ⟨hpre, absurd rfl⟩)
        simp only [List.nil_append, value_singleton, List.singleton_append] at hfirst
        rw [← hsign.increment_zero d] at hfirst
        rw [value_nil, Nat.cast_zero, mul_zero, ← val_zero (T := traits.valueType),
          staticCast_self]
        exact hfirst
      · have hempty : pre.isEmpty = false := by simpa using hnil
        rw [if_neg (by simp [hempty])]
        cases hcheck : sign.checkBounds (staticCast traits.valueType
            (σ * value traits.kBase pre)) d with
        | some bound =>
          refine iff_of_false (fun h => Bool.false_ne_true (congrArg Prod.fst h)) ?_
          rintro ⟨ds, -, hchecks, -⟩
          have hpass := hchecks pre d ds rfl hnil
          rw [Sign.Passes, hcheck] at hpass
          cases hpass
        | none =>
          have hnext := ih (eachDigit_concat_iff.mpr ⟨hpre, fun _ => hcheck⟩)
          rw [value_concat, ← hsign.increment_staticCast,
            show (pre ++ [d]).isEmpty = false by simp] at hnext
          simp only [List.append_assoc, List.singleton_append] at hnext
          exact hnext

theorem baseInvoke_eq_iff {sign : Sign traits} {σ : ℤ} (hsign : sign.Multiplies σ)
    (hbase : traits.kBase = 10 ∨ traits.kBase = 16) {s : List UInt8} {o : Num traits.valueType} :
    baseInvoke sign s = (true, o) ↔ s ≠ [] ∧ ∃ ds, Body traits.kBase (prefixes traits.kBase) s ds ∧
      EachDigit traits.kBase (sign.Passes σ) ds ∧
      staticCast traits.valueType (σ * value traits.kBase ds) = o := by
  have hloop := @baseInvokeLoop_eq_iff _ _ _ hsign hbase [] (skipPrefix traits.kBase s)
    (eachDigit_nil _ _) o
  rw [value_nil, Nat.cast_zero, mul_zero, ← val_zero (T := traits.valueType),
    staticCast_self] at hloop
  simp only [body_iff]
  unfold baseInvoke
  cases s with
  | nil => simp
  | cons c s => exact hloop.trans (and_iff_right (List.cons_ne_nil c s)).symm

/-- The class that handles the sign. -/
def signOf (traits : NumberTraits) (σ : ℤ) : Sign traits :=
  if σ < 0 then negative traits else positive traits

/-- The string is a sign, a prefix and digits, with something after the sign; the checks
of its sign all pass, and `o` is the value up to wrapping. -/
def Reads (traits : NumberTraits) (s : List UInt8) (o : Num traits.valueType) : Prop :=
  ∃ σ ds, Parts traits.kBase (prefixes traits.kBase) s σ ds ∧ ¬SignPart s σ ∧
    EachDigit traits.kBase ((signOf traits σ).Passes σ) ds ∧
    staticCast traits.valueType (σ * value traits.kBase ds) = o

/-- The string with its sign taken off. -/
theorem reads_iff {s rest : List UInt8} {σ₀ : ℤ} {o : Num traits.valueType}
    (hparts : ∀ {σ ds}, Parts traits.kBase (prefixes traits.kBase) s σ ds ↔
      σ = σ₀ ∧ Body traits.kBase (prefixes traits.kBase) rest ds)
    (hsign : SignPart s σ₀ ↔ rest = []) :
    Reads traits s o ↔ rest ≠ [] ∧ ∃ ds, Body traits.kBase (prefixes traits.kBase) rest ds ∧
      EachDigit traits.kBase ((signOf traits σ₀).Passes σ₀) ds ∧
      staticCast traits.valueType (σ₀ * value traits.kBase ds) = o := by
  constructor
  · rintro ⟨σ, ds, hp, hs, h⟩
    obtain ⟨rfl, hbody⟩ := hparts.mp hp
    exact ⟨mt hsign.mpr hs, ds, hbody, h⟩
  · rintro ⟨hne, ds, hbody, h⟩
    exact ⟨σ₀, ds, hparts.mpr ⟨rfl, hbody⟩, mt hsign.mp hne, h⟩

theorem signPart_cons_iff {c : UInt8} {s : List UInt8} {σ : ℤ} :
    SignPart (c :: s) σ ↔ (c = 0x2B ∧ σ = 1 ∨ c = 0x2D ∧ σ = -1) ∧ s = [] := by
  constructor
  · intro h
    cases h with
    | plus => exact ⟨.inl ⟨rfl, rfl⟩, rfl⟩
    | minus => exact ⟨.inr ⟨rfl, rfl⟩, rfl⟩
  · rintro ⟨⟨rfl, rfl⟩ | ⟨rfl, rfl⟩, rfl⟩
    · exact .plus
    · exact .minus

theorem invokeSigned_eq_iff (hbase : traits.kBase = 10 ∨ traits.kBase = 16) {s : List UInt8}
    {o : Num traits.valueType} : invokeSigned traits s = (true, o) ↔ Reads traits s o := by
  have hp := unsigned_prefixes traits.kBase
  cases s with
  | nil =>
    rw [invokeSigned, baseInvoke_eq_iff positive_multiplies hbase,
      reads_iff (parts_unsigned_iff (by simp) (by simp)) (iff_of_true .none rfl)]
    rfl
  | cons c s =>
    rw [invokeSigned]
    by_cases hminus : c = 0x2D
    · subst hminus
      rw [if_pos rfl, baseInvoke_eq_iff negative_multiplies hbase,
        reads_iff (parts_signed_iff hp .minus) (by simp [signPart_cons_iff])]
      rfl
    · rw [if_neg hminus, baseInvoke_eq_iff positive_multiplies hbase]
      by_cases hplus : c = 0x2B
      · subst hplus
        rw [if_pos rfl, reads_iff (parts_signed_iff hp .plus) (by simp [signPart_cons_iff])]
        rfl
      · rw [if_neg hplus, reads_iff (parts_unsigned_iff (by simpa using hplus)
          (by simpa using hminus)) (by simp [signPart_cons_iff, hplus, hminus])]
        rfl

/-- Nothing that starts with white space is read. -/
theorem not_reads_of_whitespace {c : UInt8} {s : List UInt8} {o : Num traits.valueType}
    (hc : localIsWhitespace c = true) : ¬Reads traits (c :: s) o := by
  have hne : ∀ c' : UInt8, localIsWhitespace c' = false → c ≠ c' := by
    rintro c' hc' rfl
    rw [hc] at hc'
    cases hc'
  intro h
  have hplus := hne 0x2B (by decide)
  have hminus := hne 0x2D (by decide)
  rw [reads_iff (parts_unsigned_iff (by simpa using hplus) (by simpa using hminus))
    (by simp [signPart_cons_iff, hplus, hminus])] at h
  obtain ⟨-, ds, hbody, -⟩ := h
  obtain ⟨pre, hpre, body, hs, hd⟩ := hbody
  cases pre with
  | nil =>
    rw [List.nil_append] at hs
    subst hs
    have hle : c.toNat < 0x30 := by
      have h : ∀ n < 256, localIsWhitespace (UInt8.ofNat n) = true → n < 0x30 := by decide +kernel
      exact h _ c.toNat_lt (by rwa [UInt8.ofNat_toNat])
    refine not_digits_cons ?_ hd
    unfold digitValue
    dsimp only
    rw [if_neg (by omega), if_neg (by omega), if_neg (by omega)]
    rfl
  | cons c' pre =>
    obtain ⟨rfl, -⟩ := List.cons.inj hs
    exact hne 0x30 (by decide) (unsigned_prefixes _ _ hpre c rfl)

/-- What the function accepts, and what it then stores. -/
theorem invoke_eq_iff (hbase : traits.kBase = 10 ∨ traits.kBase = 16) {s : List UInt8}
    {o : Num traits.valueType} : invoke traits s = (true, o) ↔ Reads traits s o := by
  have hskip : ∀ s, (skipWhitespace false s).1 = false := by
    intro s
    induction s with
    | nil => rfl
    | cons c s ih =>
      rw [skipWhitespace]
      split_ifs
      · exact ih
      · rfl
  unfold invoke
  cases s with
  | nil => simpa [skipWhitespace] using invokeSigned_eq_iff hbase
  | cons c s =>
    rw [skipWhitespace]
    by_cases hc : localIsWhitespace c = true
    · rw [if_pos hc]
      refine iff_of_false (fun h => ?_) (not_reads_of_whitespace hc)
      have hvalid := congrArg Prod.fst h
      simp [hskip s] at hvalid
    · rw [if_neg hc]
      simpa using invokeSigned_eq_iff hbase

end MiniChromium
