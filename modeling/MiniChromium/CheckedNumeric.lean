import MiniChromium.CheckedProduct

/-!
# Checked numbers

A `CheckedNumeric` is a validity flag and a value. One theorem for each member
says exactly when its result is valid, and which integer it holds then.
-/
namespace MiniChromium

open IntegralType MiniChromium.Num

/-- `CheckedNumeric<T>`, with the two members of its `CheckedNumericState`. -/
structure CheckedNumeric (T : IntegralType) where
  stateIsValid : Bool
  value : Num T
  deriving DecidableEq

namespace CheckedNumeric

variable {T U V : IntegralType}

/-- `CheckedNumericState(value, is_valid)`. -/
def ofState (V : IntegralType) {Src : IntegralType} (value : Num Src) (isValid : Bool) :
    CheckedNumeric V :=
  ⟨isValid && isValueInRange V value, staticCast V value.val⟩

/-- The implicit constructor from a number of any type. -/
def ofNum (V : IntegralType) {Src : IntegralType} (value : Num Src) : CheckedNumeric V :=
  ⟨isValueInRange V value, staticCast V value.val⟩

/-- `IsValid<Dst>()`. -/
def isValidFor (Dst : IntegralType) (c : CheckedNumeric T) : Bool :=
  c.stateIsValid && isValueInRange Dst c.value

/-- `IsValid()`. -/
def isValid (c : CheckedNumeric T) : Bool := c.isValidFor T

/-- The converting copy constructor, which is also `Cast<Dst>()`. -/
def cast (Dst : IntegralType) (c : CheckedNumeric T) : CheckedNumeric Dst :=
  ofState Dst c.value c.isValid

/-- `MathOp`, in its binary and its assignment form; `doOp` is `Math::Do`. -/
def mathOp (doOp : Num T → Num U → Num V → Bool × Num V) (lhs : CheckedNumeric T)
    (rhs : CheckedNumeric U) : CheckedNumeric V :=
  if lhs.isValid && rhs.isValid then
    let result := doOp lhs.value rhs.value 0
    ofState V result.2 result.1
  else ofState V (0 : Num V) false

/-- `NegateWrapper`. -/
def negateWrapper (value : Num T) : Num T := staticCast T (0 - value.asUnsigned.val)

/-- `FastRuntimeNegate`. The subtraction always writes its result here. -/
def fastRuntimeNegate (tc : Toolchain) (c : CheckedNumeric T) : CheckedNumeric T :=
  let result := checkedSubOp tc T (0 : Num T) c.value 0
  ofState T result.2 (c.isValid && result.1)

/-- `operator-()`; the flag is `MustTreatAsConstexpr(value)`. -/
def neg (tc : Toolchain) (mustTreatAsConstexpr : Bool) (c : CheckedNumeric T) :
    CheckedNumeric T :=
  if mustTreatAsConstexpr || !T.isSigned then
    ofState T (negateWrapper c.value)
      (c.isValid && (!T.isSigned || decide ((negateWrapper c.value).val ≠ T.lowest)))
  else fastRuntimeNegate tc c

/-- `Abs()`. -/
def abs (tc : Toolchain) (mustTreatAsConstexpr : Bool) (c : CheckedNumeric T) :
    CheckedNumeric T :=
  if !c.value.isValueNegative then c else neg tc mustTreatAsConstexpr c

/-- The type of `b ? t : u`. -/
def conditionalType (T U : IntegralType) : IntegralType := if T = U then T else sumType T U

/-- `Max(rhs)`. Both branches of the conditional go through its common type. -/
def max (c : CheckedNumeric T) (rhs : CheckedNumeric U) :
    CheckedNumeric (maxExponentPromotion T U) :=
  let chosen := if isGreater c.value rhs.value then
      staticCast (conditionalType T U) c.value.val
    else staticCast (conditionalType T U) rhs.value.val
  ofState _ (staticCast (maxExponentPromotion T U) chosen.val) (c.stateIsValid && rhs.isValid)

/-- `Min(rhs)`. -/
def min (c : CheckedNumeric T) (rhs : CheckedNumeric U) :
    CheckedNumeric (lowestValuePromotion T U) :=
  let chosen := if isLess c.value rhs.value then
      staticCast (conditionalType T U) c.value.val
    else staticCast (conditionalType T U) rhs.value.val
  ofState _ (staticCast (lowestValuePromotion T U) chosen.val) (c.stateIsValid && rhs.isValid)

/-- The state is its own range check: a stored value is in range. -/
@[simp] theorem isValid_eq (c : CheckedNumeric T) : c.isValid = c.stateIsValid := by
  have h : isValueInRange T c.value = true := (isValueInRange_iff T c.value).mpr c.value.inRange
  rw [isValid, isValidFor, h, Bool.and_true]

/-- The number is valid exactly under `C`, and then it is `z`. -/
structure Holds (c : CheckedNumeric T) (C : Prop) (z : ℤ) : Prop where
  valid_iff : c.isValid = true ↔ C
  val_eq : c.isValid = true → c.value.val = z

theorem Holds.congr_left {c : CheckedNumeric T} {C D : Prop} {z : ℤ} (h : c.Holds C z)
    (hCD : C ↔ D) : c.Holds D z := ⟨h.valid_iff.trans hCD, h.val_eq⟩

theorem ofState_holds (V : IntegralType) {Src : IntegralType} (value : Num Src) (isValid : Bool) :
    (ofState V value isValid).Holds (isValid = true ∧ V.InRange value.val) value.val := by
  have hv : (ofState V value isValid).isValid = true ↔ isValid = true ∧ V.InRange value.val := by
    rw [isValid_eq, ofState, Bool.and_eq_true, isValueInRange_iff]
  exact ⟨hv, fun h => staticCast_of_inRange (hv.mp h).2⟩

/-- Storing the result of a checked operation keeps what it computes. -/
theorem ofState_of_computes {p : Bool × Num V} {C D : Prop} {z : ℤ} {b : Bool}
    (h : Computes p C z) (hb : b = true ↔ D) :
    (ofState V p.2 (b && p.1)).Holds (D ∧ C) z := by
  have hs := ofState_holds V p.2 (b && p.1)
  have hv : (ofState V p.2 (b && p.1)).isValid = true ↔ b = true ∧ p.1 = true := by
    rw [hs.valid_iff, Bool.and_eq_true, and_iff_left p.2.inRange]
  refine ⟨hv.trans (and_congr hb h.valid_iff), fun ht => ?_⟩
  rw [hs.val_eq ht]
  exact h.val_eq (hv.mp ht).2

theorem cast_holds (Dst : IntegralType) (c : CheckedNumeric T) :
    (c.cast Dst).Holds (c.isValid = true ∧ Dst.InRange c.value.val) c.value.val :=
  ofState_holds Dst c.value c.isValid

/-- An operation on checked numbers short-circuits on an invalid operand. -/
theorem mathOp_holds (doOp : Num T → Num U → Num V → Bool × Num V) (lhs : CheckedNumeric T)
    (rhs : CheckedNumeric U) {C : Prop} {z : ℤ} (h : Computes (doOp lhs.value rhs.value 0) C z) :
    (mathOp doOp lhs rhs).Holds ((lhs.isValid = true ∧ rhs.isValid = true) ∧ C) z := by
  unfold mathOp
  by_cases hv : (lhs.isValid && rhs.isValid) = true
  · rw [if_pos hv]
    have hd := ofState_of_computes h (b := true) (D := True) (by simp)
    simpa only [Bool.true_and, true_and, (Bool.and_eq_true_iff.mp hv)] using hd
  · rw [if_neg hv]
    have hf := (ofState_holds V (0 : Num V) false).valid_iff
    simp only [Bool.false_eq_true, false_and, iff_false] at hf
    rw [Bool.and_eq_true] at hv
    exact ⟨iff_of_false hf fun h => hv h.1, fun h => absurd h hf⟩

theorem negateWrapper_modEq (x : Num T) : (negateWrapper x).val ≡ -x.val [ZMOD T.modulus] := by
  have h := (staticCast_modEq T (0 - x.asUnsigned.val))
  rw [zero_sub] at h
  simpa only [negateWrapper, zero_sub] using h.trans x.asUnsigned_modEq.neg

theorem negateWrapper_of_inRange {x : Num T} (h : T.InRange (-x.val)) :
    (negateWrapper x).val = -x.val := by
  rw [← staticCast_self (negateWrapper x), staticCast_congr (negateWrapper_modEq x),
    staticCast_of_inRange h]

/-- The comparison with the minimum detects the only overflow of a negation. -/
theorem negateWrapper_computes (x : Num T) (hT : T.isSigned = true) :
    Computes (decide ((negateWrapper x).val ≠ T.lowest), negateWrapper x)
      (T.InRange (-x.val)) (-x.val) := by
  have hs := IntegralType.lowest_of_signed hT
  have hl := x.lowest_le
  have hu := x.le_max
  by_cases hin : T.InRange (-x.val)
  · have hv := negateWrapper_of_inRange hin
    refine ⟨iff_of_true (decide_eq_true ?_) hin, fun _ => hv⟩
    rw [hv]
    omega
  · -- The minimum is its own negation.
    have hmin : -x.val = T.lowest + T.modulus := by
      have hm := modulus_of_signed hT
      unfold IntegralType.InRange at hin
      omega
    have hc : -x.val ≡ T.lowest [ZMOD T.modulus] := by rw [hmin]; simp [Int.ModEq]
    refine Computes.of_eq_false (decide_eq_false (not_not.mpr ?_)) hin
    rw [← staticCast_self (negateWrapper x), staticCast_congr ((negateWrapper_modEq x).trans hc)]
    exact staticCast_of_inRange (Num.lowestValue T).inRange

/-- Negation fails on the minimum alone, on both paths. -/
theorem neg_holds (tc : Toolchain) (mustTreatAsConstexpr : Bool) (c : CheckedNumeric T)
    (hT : T.isSigned = true) :
    (c.neg tc mustTreatAsConstexpr).Holds (c.isValid = true ∧ T.InRange (-c.value.val))
      (-c.value.val) := by
  unfold neg
  cases mustTreatAsConstexpr with
  | true =>
    simp only [Bool.true_or, if_true, hT, Bool.not_true, Bool.false_or]
    exact ofState_of_computes (negateWrapper_computes c.value hT) Iff.rfl
  | false =>
    simp only [hT, Bool.not_true, Bool.or_self, Bool.false_eq_true, if_false]
    have hP : (wordPromotion T T).isTypeInRange T = true := by
      clear tc hT c; revert T; decide
    have hsub := checkedSubOp_computes tc (V := T) (.inr rfl) (0 : Num T) c.value 0
    rw [val_zero, zero_sub] at hsub
    refine ofState_of_computes (hsub.congr_left ?_) Iff.rfl
    refine and_iff_right_of_imp fun h => .inr ⟨⟨?_, ?_⟩, h.of_isTypeInRange hP⟩
    · exact (wordPromotion T T).inRange_zero
    · exact c.value.inRange.of_isTypeInRange hP

theorem abs_holds (tc : Toolchain) (mustTreatAsConstexpr : Bool) (c : CheckedNumeric T)
    (hT : T.isSigned = true) :
    (c.abs tc mustTreatAsConstexpr).Holds (c.isValid = true ∧ T.InRange |c.value.val|)
      |c.value.val| := by
  unfold abs
  by_cases hneg : c.value.val < 0
  · have hn : c.value.isValueNegative = true := (isValueNegative_iff _).mpr hneg
    rw [hn, abs_of_neg hneg]
    exact neg_holds tc mustTreatAsConstexpr c hT
  · have hn : c.value.isValueNegative = false := by
      rwa [← Bool.not_eq_true, isValueNegative_iff]
    rw [hn, abs_of_nonneg (not_lt.mp hneg)]
    exact ⟨(and_iff_left c.value.inRange).symm, fun _ => rfl⟩

/-- The common type of the conditional does not change what is stored, as long as
the result type holds the chosen value. -/
theorem conditional_holds {R : IntegralType} (b : Bool) (x y : ℤ) (isValid : Bool)
    (hR : R = maxExponentPromotion T U ∨ R = lowestValuePromotion T U)
    (hin : R.InRange (if b then x else y)) :
    (ofState R (staticCast R (if b then staticCast (conditionalType T U) x
      else staticCast (conditionalType T U) y).val) isValid).Holds (isValid = true)
        (if b then x else y) := by
  have hdvd : ∀ R T U : IntegralType, R = maxExponentPromotion T U ∨ R = lowestValuePromotion T U →
      (conditionalType T U).modulus % R.modulus = 0 := by decide
  have hstore : staticCast R (staticCast (conditionalType T U) (if b then x else y)).val =
      staticCast R (if b then x else y) :=
    staticCast_congr ((staticCast_modEq _ _).of_dvd (Int.dvd_of_emod_eq_zero (hdvd R T U hR)))
  have hh := ofState_holds R (staticCast R (if b then x else y)) isValid
  rw [staticCast_of_inRange hin] at hh
  rw [← apply_ite (staticCast (conditionalType T U)), hstore]
  exact hh.congr_left (and_iff_left hin)

theorem max_holds (c : CheckedNumeric T) (rhs : CheckedNumeric U) :
    (c.max rhs).Holds (c.isValid = true ∧ rhs.isValid = true)
      (Max.max c.value.val rhs.value.val) := by
  have hz : Max.max c.value.val rhs.value.val =
      if isGreater c.value rhs.value then c.value.val else rhs.value.val := by
    rw [isGreater_eq]
    split_ifs with h <;> simp only [decide_eq_true_eq] at h <;> omega
  have hin := inRange_max c.value rhs.value
  rw [hz] at hin ⊢
  refine (conditional_holds _ _ _ _ (.inl rfl) hin).congr_left ?_
  rw [Bool.and_eq_true, isValid_eq c]

theorem min_holds (c : CheckedNumeric T) (rhs : CheckedNumeric U) :
    (c.min rhs).Holds (c.isValid = true ∧ rhs.isValid = true)
      (Min.min c.value.val rhs.value.val) := by
  have hz : Min.min c.value.val rhs.value.val =
      if isLess c.value rhs.value then c.value.val else rhs.value.val := by
    rw [isLess_eq]
    split_ifs with h <;> simp only [decide_eq_true_eq] at h <;> omega
  have hin := inRange_min c.value rhs.value
  rw [hz] at hin ⊢
  refine (conditional_holds _ _ _ _ (.inr rfl) hin).congr_left ?_
  rw [Bool.and_eq_true, isValid_eq c]

end CheckedNumeric

end MiniChromium
