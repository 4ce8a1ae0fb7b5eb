import MiniChromium.NumberRanges

/-!
# Numbers read as far as possible

`StringToInt` and `StringToInt64` store a number when they return false as well: that of
the digits they have come to, or the bound it would have passed. What they store and
return is one function of the parts of the string.
-/
namespace MiniChromium

open IntegralType MiniChromium.Num Numeral

def isDigit (c : UInt8) : Bool := (digitValue 10 c).isSome

/-- The sign at the front, and what is after it. -/
def splitSign : List UInt8 → ℤ × List UInt8
  | 0x2D :: s => (-1, s)
  | 0x2B :: s => (1, s)
  | s => (1, s)

/-- The number that the longest run of digits at the front denotes, zero if it is empty. -/
def runValue (s : List UInt8) : ℕ := value 10 ((s.takeWhile isDigit).filterMap (digitValue 10))

/-- White space, a sign, the longest run of digits, and the rest: the clamped number of
the digits, and whether they are all there is, besides a sign, and the number fits. -/
def bestEffort (T : IntegralType) (s : List UInt8) : Bool × ℤ :=
  let (sign, unsigned) := splitSign (s.dropWhile localIsWhitespace)
  let z := sign * runValue unsigned
  (decide (s.takeWhile localIsWhitespace = [] ∧ unsigned.takeWhile isDigit ≠ [] ∧
    unsigned.dropWhile isDigit = [] ∧ T.InRange z), T.clamp z)

variable {T : IntegralType} {traits : NumberTraits} {σ : ℤ} {v w d : ℕ}

/-- The bound on the side of the sign. -/
def signBound (T : IntegralType) (σ : ℤ) : ℤ := if σ < 0 then T.lowest else T.max

/-- A number beyond the bound does not come back with more digits. -/
theorem clamp_eq_signBound (hσ : σ = 1 ∨ σ = -1 ∧ T.isSigned = true)
    (hv : ¬T.InRange (σ * v)) (hw : v ≤ w) :
    ¬T.InRange (σ * w) ∧ T.clamp (σ * w) = signBound T σ := by
  have hlow := T.lowest_nonpos
  have hmax := T.max_pos
  unfold IntegralType.InRange IntegralType.clamp BoundedInt.clamp signBound at *
  obtain rfl | ⟨rfl, -⟩ := hσ
  · rw [if_neg (by decide)]
    omega
  · rw [if_pos (by decide)]
    omega

/-- Every type holds a digit, with either sign if it is signed. -/
theorem inRange_digit (hσ : σ = 1 ∨ σ = -1 ∧ T.isSigned = true) (hd : d < 10) :
    T.InRange (σ * d) := by
  have hmax : 10 ≤ T.max := by cases T <;> decide
  have hlow := T.lowest_nonpos
  unfold IntegralType.InRange
  obtain rfl | ⟨rfl, hT⟩ := hσ
  · omega
  · have hsigned := lowest_of_signed hT
    omega

/-- The checks of the sign are tight, and a check that fails leaves the bound. -/
structure Sign.Clamps (sign : Sign traits) (σ : ℤ) : Prop extends sign.Multiplies σ where
  decimal : traits.kBase = 10
  unit : σ = 1 ∨ σ = -1 ∧ traits.valueType.isSigned = true
  passes_iff : ∀ v d : ℕ, d < 10 → traits.valueType.InRange (σ * v) →
    (sign.Passes σ v d ↔ traits.valueType.InRange (σ * (v * 10 + d : ℕ)))
  bound : ∀ output d bound, sign.checkBounds output d = some bound →
    bound.val = signBound traits.valueType σ

theorem positive_clamps : (positive (decimalTraits T)).Clamps 1 where
  toMultiplies := positive_multiplies
  decimal := rfl
  unit := .inl rfl
  passes_iff v d hd hv := by
    rw [one_mul] at hv ⊢
    have hlow : T.lowest ≤ (v * 10 + d : ℕ) := T.lowest_nonpos.trans (Int.natCast_nonneg _)
    exact (positive_passes_iff (T := T) hv.2 hd).trans (and_iff_right hlow).symm
  bound output d bound h := by
    simp only [positive, Option.ite_none_right_eq_some, Option.some.injEq] at h
    rw [← h.2, signBound, if_neg (by decide)]
    exact staticCast_of_inRange (maxValue T).inRange

/-- The check for a minus sign, in a signed type: the minimum is divided towards zero. -/
theorem negative_passes_signed_iff (hT : T.isSigned = true) (hv : T.lowest ≤ -v) (hd : d < 10) :
    (negative (decimalTraits T)).Passes (-1) v d ↔ T.lowest ≤ -(v * 10 + d : ℕ) := by
  have hlow := lowest_of_signed hT
  have hmax := T.max_pos
  have hcast : (staticCast T (-1 * v)).val = -v := by
    rw [neg_one_mul]
    exact staticCast_of_inRange ⟨hv, by omega⟩
  have hneg : T.lowest = -(T.max + 1) := by omega
  have hdiv : T.lowest.tdiv 10 = -((T.max + 1) / 10) := by
    rw [hneg, Int.neg_tdiv, Int.tdiv_eq_ediv_of_nonneg (by omega)]
  have hmod : T.lowest.tmod 10 = -((T.max + 1) % 10) := by
    rw [hneg, Int.neg_tmod, Int.tmod_eq_emod_of_nonneg (by omega)]
  simp only [negative_passes, decimalTraits, NumberTraits.min, hcast, Nat.cast_ofNat, hdiv, hmod]
  omega

theorem negative_clamps (hT : T.isSigned = true) : (negative (decimalTraits T)).Clamps (-1) where
  toMultiplies := negative_multiplies
  decimal := rfl
  unit := .inr ⟨rfl, hT⟩
  passes_iff v d hd hv := by
    rw [neg_one_mul] at hv ⊢
    have hmax : -((v * 10 + d : ℕ) : ℤ) ≤ T.max := by
      have := T.max_pos
      omega
    exact (negative_passes_signed_iff hT hv.1 hd).trans (and_iff_left hmax).symm
  bound output d bound h := by
    simp only [negative, Option.ite_none_right_eq_some, Option.some.injEq] at h
    rw [← h.2, signBound, if_pos (by decide)]
    exact staticCast_of_inRange (lowestValue T).inRange

theorem isDigit_iff {c : UInt8} : isDigit c = true ↔ ∃ d, digitValue 10 c = some d :=
  Option.isSome_iff_exists

theorem runValue_nil : runValue [] = 0 := rfl

/-- The number of the digits read and of those that follow. -/
def runValueFrom (pre : List ℕ) (cs : List UInt8) : ℕ :=
  value 10 (pre ++ (cs.takeWhile isDigit).filterMap (digitValue 10))

theorem runValueFrom_of_none {c : UInt8} {cs : List UInt8} {pre : List ℕ}
    (hc : digitValue 10 c = none) : runValueFrom pre (c :: cs) = value 10 pre := by
  simp [runValueFrom, isDigit, hc]

theorem runValueFrom_of_some {c : UInt8} {cs : List UInt8} {pre : List ℕ}
    (hc : digitValue 10 c = some d) :
    runValueFrom pre (c :: cs) = runValueFrom (pre ++ [d]) cs := by
  simp [runValueFrom, isDigit, hc]

/-- The loop after the digits `pre`, whose number fits, stores the clamped number of all
the digits, and returns true if they are all that is left and their number fits. -/
theorem baseInvokeLoop_clamps {sign : Sign traits} (h : sign.Clamps σ) (cs : List UInt8)
    {pre : List ℕ} (hpre : traits.valueType.InRange (σ * value 10 pre)) :
    ((baseInvokeLoop sign pre.isEmpty (staticCast traits.valueType (σ * value 10 pre)) cs).1 =
        true ↔
      cs.dropWhile isDigit = [] ∧ traits.valueType.InRange (σ * runValueFrom pre cs)) ∧
    (baseInvokeLoop sign pre.isEmpty (staticCast traits.valueType (σ * value 10 pre)) cs).2.val =
      traits.valueType.clamp (σ * runValueFrom pre cs) := by
  have hcast : (staticCast traits.valueType (σ * value 10 pre)).val =
      traits.valueType.clamp (σ * value 10 pre) := by
    rw [staticCast_of_inRange hpre, clamp_of_inRange hpre]
  induction cs generalizing pre with
  | nil =>
    rw [baseInvokeLoop, runValueFrom, List.takeWhile_nil, List.filterMap_nil, List.append_nil]
    exact ⟨iff_of_true rfl ⟨rfl, hpre⟩, hcast⟩
  | cons c cs ih =>
    rw [baseInvokeLoop, h.decimal, charToDigit_eq (.inl rfl)]
    cases hc : digitValue 10 c with
    | none =>
      have hdigit : isDigit c = false := by simp [isDigit, hc]
      rw [runValueFrom_of_none hc]
      refine ⟨iff_of_false Bool.false_ne_true fun hrest => ?_, hcast⟩
      simp [hdigit] at hrest
    | some d =>
      have hd : d < 10 := digitValue_lt hc
      have hdigit : isDigit c = true := isDigit_iff.mpr ⟨d, hc⟩
      have hfit : traits.valueType.InRange (σ * value 10 (pre ++ [d])) → _ :=
        fun hfit => @ih (pre ++ [d]) hfit
          (by rw [staticCast_of_inRange hfit, clamp_of_inRange hfit])
      have hstep : σ * value 10 (pre ++ [d]) = σ * (value 10 pre * 10 + d : ℕ) := by
        rw [value_concat]
      rw [List.dropWhile_cons_of_pos hdigit, runValueFrom_of_some hc]
      dsimp only
      by_cases hnil : pre = []
      · subst hnil
        have hfirst : traits.valueType.InRange (σ * value 10 [d]) := by
          rw [value_singleton]
          exact inRange_digit h.unit hd
        have hnext := hfit hfirst
        have hzero : staticCast traits.valueType (σ * value 10 []) = 0 := by
          rw [value_nil, Nat.cast_zero, mul_zero, ← val_zero (T := traits.valueType),
            staticCast_self]
        rw [hzero, h.increment_zero]
        rw [List.nil_append, value_singleton] at hnext
        exact hnext
      · have hempty : pre.isEmpty = false := by simpa using hnil
        rw [if_neg (by simp [hempty])]
        cases hcheck : sign.checkBounds (staticCast traits.valueType (σ * value 10 pre)) d with
        | none =>
          have hpass := (h.passes_iff _ d hd hpre).mp hcheck
          have hnext := hfit (hstep ▸ hpass)
          have hincrement := h.increment_staticCast (value 10 pre) d
          rw [h.decimal, ← hstep] at hincrement
          rw [← hincrement, show (pre ++ [d]).isEmpty = false by simp] at hnext
          exact hnext
        | some bound =>
          have hout : ¬traits.valueType.InRange (σ * value 10 (pre ++ [d])) := by
            rw [hstep, ← h.passes_iff _ d hd hpre, Sign.Passes, hcheck]
            exact Option.some_ne_none bound
          obtain ⟨hrange, hclamp⟩ := clamp_eq_signBound h.unit hout
            (value_le_value_append (Nat.succ_pos 9) (pre ++ [d])
              ((cs.takeWhile isDigit).filterMap (digitValue 10)))
          refine ⟨iff_of_false Bool.false_ne_true fun hall => hrange hall.2, ?_⟩
          exact (h.bound _ _ _ hcheck).trans hclamp.symm

/-- After the sign: there must be a digit. -/
theorem baseInvoke_clamps {sign : Sign traits} (h : sign.Clamps σ) (s : List UInt8) :
    ((baseInvoke sign s).1 = true ↔ s.takeWhile isDigit ≠ [] ∧ s.dropWhile isDigit = [] ∧
      traits.valueType.InRange (σ * runValue s)) ∧
    (baseInvoke sign s).2.val = traits.valueType.clamp (σ * runValue s) := by
  have hzero : traits.valueType.InRange (σ * value 10 []) := by
    rw [value_nil, Nat.cast_zero, mul_zero]
    exact inRange_zero _
  have hstart : staticCast traits.valueType (σ * value 10 []) = 0 := by
    rw [value_nil, Nat.cast_zero, mul_zero, ← val_zero (T := traits.valueType), staticCast_self]
  have hskip : skipPrefix traits.kBase s = s := by
    unfold skipPrefix
    split
    · exact if_neg fun hbase => absurd (h.decimal ▸ hbase.1) (by decide)
    · rfl
  cases s with
  | nil =>
    refine ⟨iff_of_false Bool.false_ne_true fun hrun => hrun.1 rfl, ?_⟩
    rw [runValue_nil, Nat.cast_zero, mul_zero, clamp_of_inRange (inRange_zero _)]
    rfl
  | cons c s =>
    have hloop := baseInvokeLoop_clamps h (c :: s) hzero
    rw [hstart] at hloop
    rw [baseInvoke, hskip]
    refine ⟨hloop.1.trans (and_iff_right_of_imp ?_).symm, hloop.2⟩
    rintro ⟨hdrop, -⟩ htake
    have hsplit := List.takeWhile_append_dropWhile (p := isDigit) (l := c :: s)
    rw [htake, hdrop] at hsplit
    cases hsplit

theorem splitSign_cons (c : UInt8) (s : List UInt8) :
    splitSign (c :: s) =
      if c = 0x2D then (-1, s) else if c = 0x2B then (1, s) else (1, c :: s) := by
  unfold splitSign
  split <;> simp_all

theorem invokeSigned_clamps (hT : T.isSigned = true) (s : List UInt8) :
    ((invokeSigned (decimalTraits T) s).1 = true ↔ (splitSign s).2.takeWhile isDigit ≠ [] ∧
      (splitSign s).2.dropWhile isDigit = [] ∧
      T.InRange ((splitSign s).1 * runValue (splitSign s).2)) ∧
    (invokeSigned (decimalTraits T) s).2.val =
      T.clamp ((splitSign s).1 * runValue (splitSign s).2) := by
  cases s with
  | nil => exact baseInvoke_clamps positive_clamps []
  | cons c s =>
    rw [invokeSigned, splitSign_cons]
    by_cases hminus : c = 0x2D
    · rw [if_pos hminus, if_pos hminus]
      exact baseInvoke_clamps (negative_clamps hT) s
    · rw [if_neg hminus, if_neg hminus]
      by_cases hplus : c = 0x2B
      · rw [if_pos hplus, if_pos hplus]
        exact baseInvoke_clamps positive_clamps s
      · rw [if_neg hplus, if_neg hplus]
        exact baseInvoke_clamps positive_clamps (c :: s)

theorem skipWhitespace_eq (valid : Bool) (s : List UInt8) :
    skipWhitespace valid s =
      (valid && (s.takeWhile localIsWhitespace).isEmpty, s.dropWhile localIsWhitespace) := by
  induction s generalizing valid with
  | nil => simp [skipWhitespace]
  | cons c s ih =>
    rw [skipWhitespace]
    cases hc : localIsWhitespace c with
    | true => simp [hc, ih]
    | false => simp [hc]

theorem invoke_eq_bestEffort (hT : T.isSigned = true) (s : List UInt8) :
    (invoke (decimalTraits T) s).1 = (bestEffort T s).1 ∧
      (invoke (decimalTraits T) s).2.val = (bestEffort T s).2 := by
  obtain ⟨hvalid, hout⟩ := invokeSigned_clamps hT (s.dropWhile localIsWhitespace)
  rw [invoke, skipWhitespace_eq, bestEffort]
  refine ⟨?_, hout⟩
  rw [Bool.eq_iff_iff, Bool.and_eq_true, hvalid, decide_eq_true_iff, Bool.true_and,
    List.isEmpty_iff]

/-- `StringToInt` and `StringToInt64` are the best effort on every string. -/
theorem stringToInt_eq_bestEffort (s : List UInt8) :
    ((stringToInt s).1 = (bestEffort .int32 s).1 ∧
      (stringToInt s).2.val = (bestEffort .int32 s).2) ∧
    (stringToInt64 s).1 = (bestEffort .int64 s).1 ∧
      (stringToInt64 s).2.val = (bestEffort .int64 s).2 :=
  ⟨invoke_eq_bestEffort rfl s, invoke_eq_bestEffort rfl s⟩

example : stringToInt [0x20, 0x2D, 0x37, 0x61] = (false, ⟨-7, by decide⟩) := by decide

end MiniChromium
