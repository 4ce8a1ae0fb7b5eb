import MiniChromium.BestEffortNumbers
import MiniChromium.TracedArithmetic

/-!
# Overflow in the digit loop

The loop multiplies and increments in the type of the number. `CheckBounds` comes before the
multiplication, with the bounds of that type, and keeps both in range. `HexStringToInt` has
the upper bound of an unsigned type, and does not.
-/
namespace MiniChromium

open IntegralType MiniChromium.Num Numeral

/-- `Sign`, with the exact value of what `Increment` stores. -/
structure TracedSign (traits : NumberTraits) extends Sign traits where
  exact : ℕ → Num traits.valueType → ℤ
  increment_eq : ∀ d output, increment d output = staticCast traits.valueType (exact d output)

/-- `Positive`: `*output += increment`. -/
def tracedPositive (traits : NumberTraits) : TracedSign traits where
  toSign := positive traits
  exact increment output := output.val + increment
  increment_eq _ _ := rfl

/-- `Negative`: `*output -= increment`. -/
def tracedNegative (traits : NumberTraits) : TracedSign traits where
  toSign := negative traits
  exact increment output := output.val - increment
  increment_eq _ _ := rfl

variable {traits : NumberTraits}

/-- The loop of `Base::Invoke`. -/
def tracedInvokeLoop (sign : TracedSign traits) (isFirst : Bool) (output : Num traits.valueType) :
    List UInt8 → Traced (Num traits.valueType)
  | [] => pure output
  | c :: current => do
    let newDigit ← Traced.ofOption (charToDigit traits.kBase c)
    if isFirst then
      let output ← Traced.compute traits.valueType (sign.exact newDigit output)
      tracedInvokeLoop sign false output current
    else
      Traced.check (sign.checkBounds output newDigit = none)
      let output ← Traced.compute traits.valueType (output.val * traits.kBase)
      let output ← Traced.compute traits.valueType (sign.exact newDigit output)
      tracedInvokeLoop sign false output current

/-- `Base::Invoke`. -/
def tracedBaseInvoke (sign : TracedSign traits) (s : List UInt8) : Traced (Num traits.valueType) :=
  if s.isEmpty then Traced.ofOption none
  else tracedInvokeLoop sign true 0 (skipPrefix traits.kBase s)

/-- The sign, and the digits. -/
def tracedInvokeSigned (traits : NumberTraits) (s : List UInt8) : Traced (Num traits.valueType) :=
  match s with
  | [] => tracedBaseInvoke (tracedPositive traits) []
  | c :: rest =>
    if c = 0x2D then tracedBaseInvoke (tracedNegative traits) rest
    else tracedBaseInvoke (tracedPositive traits) (if c = 0x2B then rest else c :: rest)

/-- `IteratorRangeToNumber::Invoke`, which goes over the digits behind white space as well. -/
def tracedInvoke (traits : NumberTraits) (s : List UInt8) : Traced (Num traits.valueType) := do
  let output ← tracedInvokeSigned traits (skipWhitespace true s).2
  Traced.check ((skipWhitespace true s).1 = true)
  pure output

/-- `StringToInt`. -/
def tracedStringToInt : List UInt8 → Traced (Num .int32) := tracedInvoke (decimalTraits .int32)

/-- `StringToInt64`. -/
def tracedStringToInt64 : List UInt8 → Traced (Num .int64) := tracedInvoke (decimalTraits .int64)

/-- `HexStringToInt`. -/
def tracedHexStringToInt : List UInt8 → Traced (Num .int32) := tracedInvoke hexTraits

section Results

theorem tracedInvokeLoop_value {sign : TracedSign traits} {isFirst : Bool}
    {output o : Num traits.valueType} {cs : List UInt8} :
    (tracedInvokeLoop sign isFirst output cs).value = some o ↔
      baseInvokeLoop sign.toSign isFirst output cs = (true, o) := by
  induction cs generalizing isFirst output with
  | nil => simp [tracedInvokeLoop, baseInvokeLoop]
  | cons c cs ih =>
    rw [tracedInvokeLoop, baseInvokeLoop, Traced.value_bind, Traced.value_ofOption]
    cases charToDigit traits.kBase c with
    | none => simp
    | some d =>
      cases isFirst with
      | true =>
        simp only [Option.bind_some, if_pos, Traced.value_bind, Traced.value_compute,
          ← sign.increment_eq]
        exact ih
      | false =>
        simp only [Option.bind_some, Bool.false_eq_true, if_false, Traced.value_bind,
          Traced.value_check, Traced.value_compute, ← sign.increment_eq]
        cases sign.checkBounds output d with
        | some bound => simp
        | none =>
          rw [if_pos rfl, Option.bind_some]
          exact ih

theorem tracedBaseInvoke_value {sign : TracedSign traits} {s : List UInt8}
    {o : Num traits.valueType} :
    (tracedBaseInvoke sign s).value = some o ↔ baseInvoke sign.toSign s = (true, o) := by
  rw [tracedBaseInvoke, baseInvoke]
  split_ifs
  · simp
  · exact tracedInvokeLoop_value

theorem tracedInvokeSigned_value {s : List UInt8} {o : Num traits.valueType} :
    (tracedInvokeSigned traits s).value = some o ↔ invokeSigned traits s = (true, o) := by
  unfold tracedInvokeSigned invokeSigned
  cases s with
  | nil => exact tracedBaseInvoke_value
  | cons c rest =>
    dsimp only
    split_ifs
    · exact tracedBaseInvoke_value
    · exact tracedBaseInvoke_value
    · exact tracedBaseInvoke_value

/-- What is traced returns what the code returns. -/
theorem tracedInvoke_value {s : List UInt8} {o : Num traits.valueType} :
    (tracedInvoke traits s).value = some o ↔ invoke traits s = (true, o) := by
  rw [tracedInvoke, invoke, Traced.value_bind, Option.bind_eq_some_iff]
  simp only [tracedInvokeSigned_value, Traced.value_bind, Traced.value_check, Traced.value_pure]
  cases (skipWhitespace true s).1 with
  | true => simp [Prod.ext_iff]
  | false => simp

end Results

section Step

variable {sign : TracedSign traits} {isFirst : Bool} {output : Num traits.valueType}
  {c : UInt8} {cs : List UInt8} {d : ℕ}

/-- Nothing is computed from a character that is no digit. -/
theorem exact_loop_of_none (hc : charToDigit traits.kBase c = none) :
    (tracedInvokeLoop sign isFirst output (c :: cs)).Exact := by
  rw [tracedInvokeLoop, hc]
  exact Traced.exact_bind.mpr ⟨Traced.exact_ofOption _, nofun⟩

theorem exact_loop_first_iff (hc : charToDigit traits.kBase c = some d) :
    (tracedInvokeLoop sign true output (c :: cs)).Exact ↔
      traits.valueType.InRange (sign.exact d output) ∧
      (tracedInvokeLoop sign false (staticCast traits.valueType (sign.exact d output))
        cs).Exact := by
  rw [tracedInvokeLoop, hc]
  simp

/-- The multiplication and the increment are reached if the check passes. -/
theorem exact_loop_iff (hc : charToDigit traits.kBase c = some d) :
    (tracedInvokeLoop sign false output (c :: cs)).Exact ↔
      (sign.checkBounds output d = none → ∀ scaled,
        scaled = staticCast traits.valueType (output.val * traits.kBase) →
        traits.valueType.InRange (output.val * traits.kBase) ∧
        traits.valueType.InRange (sign.exact d scaled) ∧
        (tracedInvokeLoop sign false
          (staticCast traits.valueType (sign.exact d scaled)) cs).Exact) := by
  rw [tracedInvokeLoop, hc]
  simp

end Step

section Guards

variable {sign : TracedSign traits} {σ : ℤ} {T : IntegralType} {v : ℕ}

/-- A digit is in range, and so is what the next digit makes of it when its check passes. -/
structure TracedSign.Guards (sign : TracedSign traits) (σ : ℤ) : Prop
    extends sign.toSign.Multiplies σ where
  base : traits.kBase = 10 ∨ traits.kBase = 16
  unit : σ = 1 ∨ σ = -1
  exact : ∀ d output, sign.exact d output = output.val + σ * d
  digit : ∀ d : ℕ, d < traits.kBase → traits.valueType.InRange (σ * d)
  step : ∀ v d : ℕ, d < traits.kBase → traits.valueType.InRange (σ * v) →
    sign.toSign.Passes σ v d → traits.valueType.InRange (σ * (v * traits.kBase + d : ℕ))

/-- What lies between zero and a value of the type is one. -/
theorem inRange_of_le (hσ : σ = 1 ∨ σ = -1) {w : ℕ} (hw : T.InRange (σ * w)) (hv : v ≤ w) :
    T.InRange (σ * v) := by
  have hlow := T.lowest_nonpos
  have hmax := T.max_pos
  unfold IntegralType.InRange at *
  rcases hσ with rfl | rfl
  · omega
  · omega

/-- Where the checks guard the sign, nothing in the loop overflows. -/
theorem TracedSign.Guards.exact_loop (h : sign.Guards σ) {isFirst : Bool} (cs : List UInt8)
    (hv : traits.valueType.InRange (σ * v)) (hfirst : isFirst = true → v = 0) :
    (tracedInvokeLoop sign isFirst (staticCast traits.valueType (σ * v)) cs).Exact := by
  induction cs generalizing isFirst v with
  | nil => exact Traced.exact_pure _
  | cons c cs ih =>
    cases hc : charToDigit traits.kBase c with
    | none => exact exact_loop_of_none hc
    | some d =>
      rw [charToDigit_eq h.base] at hc
      have hd : d < traits.kBase := digitValue_lt hc
      rw [← charToDigit_eq h.base] at hc
      cases isFirst with
      | true =>
        have hzero : sign.exact d (staticCast traits.valueType (σ * v)) = σ * d := by
          rw [h.exact, hfirst rfl, Nat.cast_zero, mul_zero, staticCast_zero, zero_add]
        rw [exact_loop_first_iff hc, hzero]
        exact ⟨h.digit d hd, ih (h.digit d hd) nofun⟩
      | false =>
        rw [exact_loop_iff hc]
        rintro hpass scaled rfl
        have hstep := h.step v d hd hv hpass
        have hscaled : traits.valueType.InRange (σ * (v * traits.kBase : ℕ)) :=
          inRange_of_le h.unit hstep (Nat.le_add_right _ _)
        have hmul : (staticCast traits.valueType (σ * v)).val * traits.kBase =
            σ * (v * traits.kBase : ℕ) := by
          rw [staticCast_of_inRange hv, Nat.cast_mul, mul_assoc]
        have hadd : sign.exact d (staticCast traits.valueType (σ * (v * traits.kBase : ℕ))) =
            σ * (v * traits.kBase + d : ℕ) := by
          rw [h.exact, staticCast_of_inRange hscaled, Nat.cast_add, mul_add]
        rw [hmul, hadd]
        exact ⟨hscaled, hstep, ih hstep nofun⟩

theorem TracedSign.Guards.exact_baseInvoke (h : sign.Guards σ) (s : List UInt8) :
    (tracedBaseInvoke sign s).Exact := by
  rw [tracedBaseInvoke]
  split_ifs
  · exact Traced.exact_ofOption _
  · have hzero : staticCast traits.valueType (σ * (0 : ℕ)) = 0 := by
      rw [Nat.cast_zero, mul_zero, ← val_zero (T := traits.valueType), staticCast_self]
    rw [← hzero]
    refine h.exact_loop _ ?_ fun _ => rfl
    rw [Nat.cast_zero, mul_zero]
    exact inRange_zero _

theorem tracedPositive_guards : (tracedPositive (decimalTraits T)).Guards 1 where
  toMultiplies := positive_multiplies
  base := .inl rfl
  unit := .inl rfl
  exact d output := by rw [one_mul]; rfl
  digit d hd := inRange_digit (.inl rfl) hd
  step v d hd hv hpass := (positive_clamps.passes_iff v d hd hv).mp hpass

theorem tracedNegative_guards (hT : T.isSigned = true) :
    (tracedNegative (decimalTraits T)).Guards (-1) where
  toMultiplies := negative_multiplies
  base := .inl rfl
  unit := .inr rfl
  exact d output := by rw [neg_one_mul, ← sub_eq_add_neg]; rfl
  digit d hd := inRange_digit (.inr ⟨rfl, hT⟩) hd
  step v d hd hv hpass := ((negative_clamps hT).passes_iff v d hd hv).mp hpass

/-- Below zero, the bound of `HexStringToInt` is that of its type. -/
theorem tracedNegative_hex_guards : (tracedNegative hexTraits).Guards (-1) where
  toMultiplies := negative_multiplies
  base := .inr rfl
  unit := .inr rfl
  exact d output := by rw [neg_one_mul, ← sub_eq_add_neg]; rfl
  digit d hd := by
    have hd : d < 16 := hd
    have hlow : IntegralType.int32.lowest = -2 ^ 31 := rfl
    have hmax : IntegralType.int32.max = 2 ^ 31 - 1 := rfl
    exact ⟨by dsimp only [hexTraits]; omega, by dsimp only [hexTraits]; omega⟩
  step v d hd hv hpass := by
    have hlow : IntegralType.int32.lowest = -2 ^ 31 := rfl
    have hmax : IntegralType.int32.max = 2 ^ 31 - 1 := rfl
    have hle : v ≤ 2 ^ 31 := by
      have := hv.1
      dsimp only [hexTraits] at this
      omega
    have hpass := (negative_hex_passes_iff hle hd).mp hpass
    exact ⟨by dsimp only [hexTraits]; omega, by dsimp only [hexTraits]; omega⟩

end Guards

section Hex

variable {pre : List ℕ} {c : UInt8} {cs : List UInt8} {d : ℕ}

/-- Some of the digits at the front, after the digits `pre`, denote a number that needs all
32 bits. -/
def ReachesSignBit (pre : List ℕ) (cs : List UInt8) : Prop :=
  ∃ front back ds, cs = front ++ back ∧ Digits 16 front ds ∧
    2 ^ 31 ≤ value 16 (pre ++ ds) ∧ value 16 (pre ++ ds) < 2 ^ 32

theorem not_reachesSignBit_nil (hpre : value 16 pre < 2 ^ 31) : ¬ ReachesSignBit pre [] := by
  rintro ⟨front, back, ds, hcs, hd, hle, -⟩
  obtain ⟨rfl, rfl⟩ := List.append_eq_nil_iff.mp hcs.symm
  cases hd
  rw [List.append_nil] at hle
  omega

theorem not_reachesSignBit_of_none (hpre : value 16 pre < 2 ^ 31) (hc : digitValue 16 c = none) :
    ¬ ReachesSignBit pre (c :: cs) := by
  rintro ⟨front, back, ds, hcs, hd, hle, -⟩
  cases hd with
  | nil =>
    rw [List.append_nil] at hle
    omega
  | @cons c' d front ds hd _ =>
    obtain ⟨rfl, -⟩ := List.cons.inj hcs
    rw [hc] at hd
    cases hd

theorem reachesSignBit_cons (hpre : value 16 pre < 2 ^ 31) (hc : digitValue 16 c = some d) :
    ReachesSignBit pre (c :: cs) ↔ ReachesSignBit (pre ++ [d]) cs := by
  constructor
  · rintro ⟨front, back, ds, hcs, hd, hle, hlt⟩
    cases hd with
    | nil =>
      rw [List.append_nil] at hle
      omega
    | @cons c' d' front ds hd' hd =>
      obtain ⟨rfl, rfl⟩ := List.cons.inj hcs
      obtain rfl : d = d' := Option.some.inj (hc.symm.trans hd')
      refine ⟨front, back, ds, rfl, hd, ?_, ?_⟩
      · rwa [List.append_assoc, List.singleton_append]
      · rwa [List.append_assoc, List.singleton_append]
  · rintro ⟨front, back, ds, rfl, hd, hle, hlt⟩
    rw [List.append_assoc, List.singleton_append] at hle hlt
    exact ⟨c :: front, back, d :: ds, rfl, .cons hc hd, hle, hlt⟩

theorem not_reachesSignBit_of_le (hpre : 2 ^ 32 ≤ value 16 pre) : ¬ ReachesSignBit pre cs := by
  rintro ⟨front, back, ds, -, -, -, hlt⟩
  have hmono : value 16 pre ≤ value 16 (pre ++ ds) := value_le_value_append (by decide) pre ds
  omega

theorem inRange_int32_iff {v : ℕ} : IntegralType.int32.InRange v ↔ v < 2 ^ 31 := by
  have hlow : IntegralType.int32.lowest = -2 ^ 31 := rfl
  have hmax : IntegralType.int32.max = 2 ^ 31 - 1 := rfl
  unfold IntegralType.InRange
  omega

/-- An increment after which the accumulator still fits. -/
theorem exact_hex_increment {v : ℕ} (hv : v < 2 ^ 31) (d : ℕ) :
    (tracedPositive hexTraits).exact d (staticCast hexTraits.valueType v) = (v + d : ℕ) := by
  rw [Nat.cast_add]
  exact congrArg (· + (d : ℤ)) (staticCast_of_inRange (inRange_int32_iff.mpr hv))

theorem exact_hex_first_iff (hc : charToDigit 16 c = some d) (hd : d < 16) :
    (tracedInvokeLoop (tracedPositive hexTraits) true
      (staticCast hexTraits.valueType (0 : ℕ)) (c :: cs)).Exact ↔
    (tracedInvokeLoop (tracedPositive hexTraits) false
      (staticCast hexTraits.valueType d) cs).Exact := by
  refine (exact_loop_first_iff hc).trans ?_
  rw [exact_hex_increment (by decide), zero_add]
  exact and_iff_right (inRange_int32_iff.mpr (by omega))

/-- The check stops the loop from 2 ^ 28 on, and the multiplication fits below 2 ^ 27. -/
theorem exact_hex_next_iff {v : ℕ} (hv : v < 2 ^ 31) (hc : charToDigit 16 c = some d)
    (hd : d < 16) :
    (tracedInvokeLoop (tracedPositive hexTraits) false
      (staticCast hexTraits.valueType v) (c :: cs)).Exact ↔
    2 ^ 28 ≤ v ∨ v < 2 ^ 27 ∧ (tracedInvokeLoop (tracedPositive hexTraits) false
      (staticCast hexTraits.valueType (v * 16 + d : ℕ)) cs).Exact := by
  have hpasses := @positive_hex_passes_iff v d hd
  rw [Sign.Passes, one_mul] at hpasses
  have hscale : (staticCast hexTraits.valueType (v : ℤ)).val * hexTraits.kBase =
      (v * 16 : ℕ) := by
    rw [Nat.cast_mul]
    exact congrArg (· * (16 : ℤ)) (staticCast_of_inRange (inRange_int32_iff.mpr hv))
  refine (exact_loop_iff hc).trans ?_
  rw [hscale]
  by_cases hstop : 2 ^ 28 ≤ v
  · refine iff_of_true (fun h => absurd h ?_) (.inl hstop)
    exact mt hpasses.mp (by omega)
  have hcheck := hpasses.mpr (by omega)
  rw [or_iff_right hstop]
  constructor
  · intro h
    obtain ⟨hmul, -, hloop⟩ := h hcheck _ rfl
    have hmul := inRange_int32_iff.mp hmul
    rw [exact_hex_increment hmul] at hloop
    exact ⟨by omega, hloop⟩
  · rintro ⟨hfits, hloop⟩ - scaled rfl
    have hmul : v * 16 < 2 ^ 31 := by omega
    rw [exact_hex_increment hmul]
    exact ⟨inRange_int32_iff.mpr hmul, inRange_int32_iff.mpr (by omega), hloop⟩

/-- The loop overflows where the digits reach the sign bit. -/
theorem exact_hex_loop_iff (hpre : value 16 pre < 2 ^ 31) :
    (tracedInvokeLoop (tracedPositive hexTraits) pre.isEmpty
      (staticCast hexTraits.valueType (value 16 pre)) cs).Exact ↔ ¬ ReachesSignBit pre cs := by
  induction cs generalizing pre with
  | nil => exact iff_of_true (Traced.exact_pure _) (not_reachesSignBit_nil hpre)
  | cons c cs ih =>
    cases hc : charToDigit 16 c with
    | none =>
      refine iff_of_true (exact_loop_of_none hc) (not_reachesSignBit_of_none hpre ?_)
      rwa [← charToDigit_eq (.inr rfl)]
    | some d =>
      have hdigit : digitValue 16 c = some d := by rwa [← charToDigit_eq (.inr rfl)]
      have hd := digitValue_lt hdigit
      have hvalue := value_concat 16 pre d
      have hnext := @ih (pre ++ [d])
      rw [List.isEmpty_eq_false_iff.mpr (by simp), hvalue] at hnext
      rw [reachesSignBit_cons hpre hdigit]
      by_cases hnil : pre = []
      · subst hnil
        rw [value_nil, zero_mul, zero_add] at hnext
        exact (exact_hex_first_iff hc hd).trans (hnext (by omega))
      rw [List.isEmpty_eq_false_iff.mpr hnil, exact_hex_next_iff hpre hc hd]
      by_cases hstop : 2 ^ 28 ≤ value 16 pre
      · exact iff_of_true (.inl hstop) (not_reachesSignBit_of_le (by omega))
      by_cases hfits : value 16 pre < 2 ^ 27
      · rw [or_iff_right hstop, and_iff_right hfits]
        exact hnext (by omega)
      · -- the check passes, and the multiplication overflows
        refine iff_of_false (not_or.mpr ⟨hstop, fun h => hfits h.1⟩) (not_not.mpr ?_)
        exact ⟨[], cs, [], rfl, .nil, by rw [List.append_nil]; omega,
          by rw [List.append_nil]; omega⟩

/-- Without a minus sign, some digits at the front denote a number that needs all 32 bits. -/
def HexOverflows (s : List UInt8) : Prop :=
  (splitSign (s.dropWhile localIsWhitespace)).1 = 1 ∧
    ReachesSignBit [] (skipPrefix 16 (splitSign (s.dropWhile localIsWhitespace)).2)

theorem exact_baseInvoke_hex_iff (s : List UInt8) :
    (tracedBaseInvoke (tracedPositive hexTraits) s).Exact ↔
      ¬ ReachesSignBit [] (skipPrefix 16 s) := by
  rw [tracedBaseInvoke]
  cases s with
  | nil => exact iff_of_true (Traced.exact_ofOption _) (not_reachesSignBit_nil (by decide))
  | cons c s =>
    have hzero : staticCast hexTraits.valueType (value 16 [] : ℕ) = 0 := by
      rw [value_nil, Nat.cast_zero, ← val_zero (T := hexTraits.valueType), staticCast_self]
    have hloop := @exact_hex_loop_iff [] (skipPrefix 16 (c :: s)) (by decide)
    rw [hzero] at hloop
    exact hloop

/-- The sign decides which class goes over the digits, also behind white space. -/
theorem exact_invoke_iff (s : List UInt8) :
    (tracedInvoke traits s).Exact ↔
      (tracedBaseInvoke
        (if (splitSign (s.dropWhile localIsWhitespace)).1 = 1 then tracedPositive traits
          else tracedNegative traits) (splitSign (s.dropWhile localIsWhitespace)).2).Exact := by
  rw [tracedInvoke, skipWhitespace_eq]
  simp only [Traced.exact_bind, Traced.exact_check, Traced.exact_pure, implies_true, and_true]
  cases s.dropWhile localIsWhitespace with
  | nil => rfl
  | cons c rest =>
    rw [tracedInvokeSigned, splitSign_cons]
    by_cases hminus : c = 0x2D
    · rw [if_pos hminus, if_pos hminus, if_neg (show ¬(-1 : ℤ) = 1 by decide)]
    · rw [if_neg hminus, if_neg hminus]
      by_cases hplus : c = 0x2B
      · rw [if_pos hplus, if_pos hplus, if_pos rfl]
      · rw [if_neg hplus, if_neg hplus, if_pos rfl]

end Hex

/-- Reading a decimal number into a signed type never overflows. -/
theorem exact_decimal {T : IntegralType} (hT : T.isSigned = true) (s : List UInt8) :
    (tracedInvoke (decimalTraits T) s).Exact := by
  rw [exact_invoke_iff]
  split_ifs
  · exact tracedPositive_guards.exact_baseInvoke _
  · exact (tracedNegative_guards hT).exact_baseInvoke _

/-- `StringToInt` and `StringToInt64` never overflow, and `HexStringToInt` does where digits
reach the sign bit. -/
theorem exact_digitLoops_iff (s : List UInt8) :
    ((tracedStringToInt s).Exact ∧ (tracedStringToInt64 s).Exact) ∧
      ((tracedHexStringToInt s).Exact ↔ ¬ HexOverflows s) := by
  refine ⟨⟨exact_decimal rfl s, exact_decimal rfl s⟩, ?_⟩
  refine (exact_invoke_iff s).trans ?_
  rw [HexOverflows]
  split_ifs with hsign
  · rw [exact_baseInvoke_hex_iff, and_iff_right hsign]
  · refine iff_of_true (tracedNegative_hex_guards.exact_baseInvoke _) ?_
    exact fun h => hsign h.1

/-- The eighth digit of 80000000 overflows. -/
theorem hexStringToInt_overflows : ¬ ∀ s, ((tracedStringToInt s).Exact ∧
    (tracedStringToInt64 s).Exact) ∧ (tracedHexStringToInt s).Exact := by
  intro h
  have hexact := (h [0x38, 0x30, 0x30, 0x30, 0x30, 0x30, 0x30, 0x30]).2 (.int32, 2 ^ 31) (by decide)
  exact absurd hexact (by decide)

example : (hexStringToInt [0x38, 0x30, 0x30, 0x30, 0x30, 0x30, 0x30, 0x30]).2.val = -2 ^ 31 := by
  decide

end MiniChromium
