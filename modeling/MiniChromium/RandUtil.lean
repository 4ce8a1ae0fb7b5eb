import MiniChromium.TracedArithmetic
import Mathlib.Data.Set.Card

/-!
# Random integers

`RandGenerator` throws away the numbers above the last multiple of its range, and `RandInt`
asks it for a number below `max - min + 1`. The numbers that `RandUint64` draws are a list; the
generator has not returned when it runs out.
-/
namespace MiniChromium.RandUtil

open IntegralType MiniChromium.Num

section Code

/-- `max_acceptable_value` of `RandGenerator`. -/
def maxAcceptableValue (range : Num .uint64) : Num .uint64 :=
  staticCast .uint64 (IntegralType.max .uint64 / range.val * range.val - 1)

/-- `RandGenerator`. -/
def randGenerator (range : Num .uint64) (draws : List (Num .uint64)) : Option (Num .uint64) :=
  if range.val > 0 then
    (draws.find? fun value => !decide (value.val > (maxAcceptableValue range).val)).map
      fun value => staticCast .uint64 (value.val % range.val)
  else none

/-- A draw that ends the loop of `RandGenerator`. -/
def Accepted (range value : Num .uint64) : Prop :=
  ¬ value.val > (maxAcceptableValue range).val

instance (range value : Num .uint64) : Decidable (Accepted range value) :=
  inferInstanceAs (Decidable (¬ _))

/-- `range` of `RandInt`; `min` is converted to the type of the other operand. -/
def randRange (min max : Num .int32) : Num .uint64 :=
  let difference := staticCast .uint64 ((staticCast .uint64 max.val).val -
    (staticCast .uint64 min.val).val)
  staticCast .uint64 (difference.val + 1)

/-- `RandInt`, with its operations on `int`. -/
def randInt (min max : Num .int32) (draws : List (Num .uint64)) : Traced (Num .int32) := do
  Traced.check (min.val ≤ max.val)
  let number ← Traced.ofOption (randGenerator (randRange min max) draws)
  let offset ← Traced.compute .int32 number.val
  let result ← Traced.compute .int32 (min.val + offset.val)
  Traced.check (result.val ≥ min.val)
  Traced.check (result.val ≤ max.val)
  return result

/-- `RandInt` adds the number drawn to `min` within `int`, and stays between its bounds. -/
structure StaysInRange (min max : Num .int32) (draws : List (Num .uint64))
    (number : Num .uint64) : Prop where
  exact : (randInt min max draws).Exact
  value : ∃ result ∈ (randInt min max draws).value,
    result.val = min.val + number.val ∧ min.val ≤ result.val ∧ result.val ≤ max.val

end Code

section Generator

variable {range number : Num .uint64} {draws : List (Num .uint64)}

theorem one_le_quotient (h : 0 < range.val) : 1 ≤ IntegralType.max .uint64 / range.val :=
  (Int.le_ediv_iff_mul_le h).mpr (by simpa using range.le_max)

theorem le_last_multiple (h : 0 < range.val) :
    range.val ≤ IntegralType.max .uint64 / range.val * range.val :=
  le_mul_of_one_le_left h.le (one_le_quotient h)

theorem inRange_emod (h : 0 < range.val) (value : Num .uint64) :
    InRange .uint64 (value.val % range.val) := by
  have hlt := Int.emod_lt_of_pos value.val h
  exact ⟨Int.emod_nonneg value.val h.ne', (hlt.trans_le range.le_max).le⟩

theorem maxAcceptableValue_val (h : 0 < range.val) :
    (maxAcceptableValue range).val = IntegralType.max .uint64 / range.val * range.val - 1 := by
  have hmultiple := le_last_multiple h
  have hmax := Int.ediv_mul_le (IntegralType.max .uint64) h.ne'
  apply staticCast_of_inRange
  rw [InRange, lowest_of_unsigned rfl]
  omega

/-- Whatever is drawn, the generator returns a number below its range. -/
theorem randGenerator_lt (h : randGenerator range draws = some number) :
    number.val < range.val := by
  unfold randGenerator at h
  split_ifs at h with hpos
  obtain ⟨value, -, rfl⟩ := Option.map_eq_some_iff.mp h
  rw [staticCast_of_inRange (inRange_emod hpos value)]
  exact Int.emod_lt_of_pos value.val hpos

/-- Every number below the range is what the generator makes of some draw. -/
theorem randGenerator_singleton (h : number.val < range.val) :
    randGenerator range [number] = some number := by
  have hnonneg := number.nonneg rfl
  have hpos : range.val > 0 := by omega
  have hmultiple := le_last_multiple hpos
  have haccepted : ¬ number.val > (maxAcceptableValue range).val := by
    rw [maxAcceptableValue_val hpos]
    omega
  rw [randGenerator, if_pos hpos, List.find?_cons_of_pos (by simpa using haccepted)]
  simp [Int.emod_eq_of_lt hnonneg h]

theorem randGenerator_cons (h : 0 < range.val) (value : Num .uint64) :
    randGenerator range (value :: draws) =
      if Accepted range value then some (staticCast .uint64 (value.val % range.val))
      else randGenerator range draws := by
  by_cases hvalue : value.val > (maxAcceptableValue range).val
  · simp [randGenerator, Accepted, h, hvalue]
  · simp [randGenerator, Accepted, h, hvalue]

theorem accepted_iff (h : 0 < range.val) (value : Num .uint64) :
    Accepted range value ↔ value.val < IntegralType.max .uint64 / range.val * range.val := by
  rw [Accepted, maxAcceptableValue_val h]
  omega

/-- A count of numbers, all of them below `n`. -/
theorem ncard_of_lt {s : Set (Num .uint64)} {n : ℕ} (f : ℕ → ℤ)
    (hf : ∀ i < n, ∃ value ∈ s, value.val = f i) (hs : ∀ value ∈ s, ∃ i < n, f i = value.val)
    (hinj : ∀ i j, f i = f j → i = j) : s.ncard = n := by
  choose g hg hval using hf
  apply Set.ncard_eq_of_bijective g
  · intro value hvalue
    obtain ⟨i, hi, heq⟩ := hs value hvalue
    exact ⟨i, hi, Num.ext ((hval i hi).trans heq)⟩
  · exact hg
  · intro i j hi hj heq
    exact hinj i j (by rw [← hval i hi, ← hval j hj, heq])

/-- The draws that give a remainder are a progression, one in each multiple of the range. -/
theorem ncard_accepted_emod (h : 0 < range.val) {r : ℤ} (hr : 0 ≤ r) (hlt : r < range.val) :
    {value : Num .uint64 | Accepted range value ∧ value.val % range.val = r}.ncard =
      (IntegralType.max .uint64 / range.val).toNat := by
  have hmax := Int.ediv_mul_le (IntegralType.max .uint64) h.ne'
  set q := IntegralType.max .uint64 / range.val with hq
  apply ncard_of_lt fun i => i * range.val + r
  · intro i hi
    have hstep : (i + 1) * range.val ≤ q * range.val := by
      apply mul_le_mul_of_nonneg_right _ h.le
      omega
    rw [add_mul, one_mul] at hstep
    have hbelow : i * range.val + r < q * range.val := by omega
    have hnonneg : 0 ≤ i * range.val + r := by positivity
    have hrange : InRange .uint64 (i * range.val + r) := by
      rw [InRange, lowest_of_unsigned rfl]
      omega
    refine ⟨⟨_, hrange⟩, ⟨(accepted_iff h _).mpr hbelow, ?_⟩, rfl⟩
    rw [Int.mul_add_emod_self_right, Int.emod_eq_of_lt hr hlt]
  · rintro value ⟨haccepted, hvalue⟩
    have hquot : value.val / range.val < q :=
      Int.ediv_lt_of_lt_mul h ((accepted_iff h value).mp haccepted)
    have hnonneg : 0 ≤ value.val / range.val := Int.ediv_nonneg (value.nonneg rfl) h.le
    refine ⟨(value.val / range.val).toNat, by omega, ?_⟩
    rw [Int.toNat_of_nonneg hnonneg, ← hvalue, Int.ediv_mul_add_emod]
  · intro i j heq
    have hmul := mul_right_cancel₀ h.ne' (add_right_cancel heq)
    exact_mod_cast hmul

theorem ncard_accepted (h : 0 < range.val) :
    {value : Num .uint64 | Accepted range value}.ncard =
      (IntegralType.max .uint64 / range.val * range.val).toNat := by
  have hmax := Int.ediv_mul_le (IntegralType.max .uint64) h.ne'
  apply ncard_of_lt fun i => i
  · intro i hi
    have hrange : InRange .uint64 i := by
      rw [InRange, lowest_of_unsigned rfl]
      omega
    have hbelow : i < IntegralType.max .uint64 / range.val * range.val := by omega
    exact ⟨⟨_, hrange⟩, (accepted_iff h _).mpr hbelow, rfl⟩
  · intro value hvalue
    have hlt := (accepted_iff h value).mp hvalue
    have hnonneg := value.nonneg rfl
    exact ⟨value.val.toNat, by omega, by omega⟩
  · intro i j heq
    exact_mod_cast heq

/-- What lies above the last multiple is less than a range, and less than half of all numbers. -/
theorem half_le_last_multiple (h : 0 < range.val) :
    2 ^ 63 ≤ IntegralType.max .uint64 / range.val * range.val := by
  have hdivision := Int.ediv_mul_add_emod (IntegralType.max .uint64) range.val
  have hlt := Int.emod_lt_of_pos (IntegralType.max .uint64) h
  have hmultiple := le_last_multiple h
  have hmax : IntegralType.max .uint64 = 2 ^ 64 - 1 := by decide
  omega

/-- The generator is uniform: nothing wraps in the bound of the draws, every remainder has the
same number of draws that are kept, the first of them decides the result, and at least half of
the draws are kept. -/
theorem randGenerator_uniform (range : Num .uint64) (h : 0 < range.val) :
    (InRange .uint64 (IntegralType.max .uint64 / range.val) ∧
      InRange .uint64 (IntegralType.max .uint64 / range.val * range.val) ∧
      (maxAcceptableValue range).val =
        IntegralType.max .uint64 / range.val * range.val - 1) ∧
    1 ≤ IntegralType.max .uint64 / range.val ∧
    (∀ r, 0 ≤ r → r < range.val →
      {value : Num .uint64 | Accepted range value ∧ value.val % range.val = r}.ncard =
        (IntegralType.max .uint64 / range.val).toNat) ∧
    (∀ value draws, (randGenerator range (value :: draws)).map Num.val =
      if Accepted range value then some (value.val % range.val)
      else (randGenerator range draws).map Num.val) ∧
    (∀ draws number, randGenerator range draws = some number → number.val < range.val) ∧
    2 ^ 63 ≤ {value : Num .uint64 | Accepted range value}.ncard := by
  have hmultiple := le_last_multiple h
  have hmax := Int.ediv_mul_le (IntegralType.max .uint64) h.ne'
  have hone := one_le_quotient h
  have hquotient : IntegralType.max .uint64 / range.val ≤
      IntegralType.max .uint64 / range.val * range.val :=
    le_mul_of_one_le_right (by omega) h
  refine ⟨⟨?_, ?_, maxAcceptableValue_val h⟩, hone, ?_, ?_, ?_, ?_⟩
  · rw [InRange, lowest_of_unsigned rfl]
    omega
  · rw [InRange, lowest_of_unsigned rfl]
    omega
  · intro r hr hlt
    exact ncard_accepted_emod h hr hlt
  · intro value draws
    rw [randGenerator_cons h]
    split_ifs with haccepted
    · rw [Option.map_some, staticCast_of_inRange (inRange_emod h value)]
    · rfl
  · intro draws number
    exact randGenerator_lt
  · have hhalf := half_le_last_multiple h
    rw [ncard_accepted h]
    omega

theorem randGenerator_uniform_ten :
    {value : Num .uint64 | Accepted (staticCast .uint64 10) value ∧ value.val % 10 = 3}.ncard =
      1844674407370955161 :=
  ((randGenerator_uniform (staticCast .uint64 10) (by decide)).2.2.1 3 (by decide)
    (by decide)).trans (by decide)

end Generator

section Bounds

variable {min max : Num .int32} {number : Num .uint64} {draws : List (Num .uint64)}

theorem randRange_val (h : min.val ≤ max.val) :
    (randRange min max).val = max.val - min.val + 1 := by
  have hmin := min.lowest_le
  have hmax := max.le_max
  have hcongr : (staticCast .uint64 ((staticCast .uint64 max.val).val -
      (staticCast .uint64 min.val).val)).val + 1 ≡ max.val - min.val + 1
      [ZMOD (IntegralType.uint64).modulus] :=
    ((staticCast_modEq _ _).trans
      ((staticCast_modEq _ _).sub (staticCast_modEq _ _))).add_right 1
  have hsigned : lowest .int32 = -IntegralType.max .int32 - 1 := lowest_of_signed rfl
  have hwide : 2 * IntegralType.max .int32 + 2 ≤ IntegralType.max .uint64 := by decide
  have hrange : InRange .uint64 (max.val - min.val + 1) := by
    rw [InRange, lowest_of_unsigned rfl]
    omega
  rw [randRange, staticCast_congr hcongr, staticCast_of_inRange hrange]

/-- The draw is narrowed to `int` before it is added to `min`. -/
theorem exact_randInt_iff (h : min.val ≤ max.val)
    (hnumber : randGenerator (randRange min max) draws = some number) :
    (randInt min max draws).Exact ↔ InRange .int32 number.val ∧
      InRange .int32 (min.val + (staticCast .int32 number.val).val) := by
  simp [randInt, h, hnumber]

theorem value_randInt {result : Num .int32} (h : min.val ≤ max.val)
    (hnumber : randGenerator (randRange min max) draws = some number)
    (hresult : result = staticCast .int32 (min.val + (staticCast .int32 number.val).val))
    (hle : min.val ≤ result.val) (hmax : result.val ≤ max.val) :
    (randInt min max draws).value = some result := by
  subst hresult
  simp [randInt, h, hnumber, hle, hmax]

theorem staysInRange_iff (h : min.val ≤ max.val)
    (hnumber : randGenerator (randRange min max) draws = some number) :
    StaysInRange min max draws number ↔ number.val ≤ IntegralType.max .int32 := by
  constructor
  · intro hstays
    exact ((exact_randInt_iff h hnumber).mp hstays.exact).1.2
  · intro hle
    have hnonneg := number.nonneg rfl
    have hlt := randGenerator_lt hnumber
    rw [randRange_val h] at hlt
    have hmin := min.lowest_le
    have hmax := max.le_max
    have hcast : InRange .int32 number.val := ⟨(lowest_nonpos _).trans hnonneg, hle⟩
    have hsum : InRange .int32 (min.val + number.val) := ⟨by omega, by omega⟩
    have hresult : (staticCast .int32 (min.val + (staticCast .int32 number.val).val)).val =
        min.val + number.val := by
      rw [staticCast_of_inRange hcast, staticCast_of_inRange hsum]
    constructor
    · rw [exact_randInt_iff h hnumber, staticCast_of_inRange hcast]
      exact ⟨hcast, hsum⟩
    · refine ⟨_, value_randInt h hnumber rfl ?_ ?_, hresult, ?_, ?_⟩ <;> rw [hresult] <;> omega

/-- The range is the number of the values from `min` to `max`. `RandInt` is right about a number
that `RandGenerator` returns if and only if it is an `int`, and so about all of them if and only
if `max - min` is. -/
theorem randInt_staysInRange_iff (min max : Num .int32) (h : min.val ≤ max.val) :
    (randRange min max).val = max.val - min.val + 1 ∧
      (∀ draws number, randGenerator (randRange min max) draws = some number →
        (StaysInRange min max draws number ↔ number.val ≤ IntegralType.max .int32)) ∧
      ((∀ draws number, randGenerator (randRange min max) draws = some number →
          StaysInRange min max draws number) ↔ max.val - min.val ≤ IntegralType.max .int32) := by
  refine ⟨randRange_val h, fun _ _ => staysInRange_iff h, ?_⟩
  have hrange := randRange_val h
  constructor
  · intro hstays
    have hwidth : InRange .uint64 (max.val - min.val) := by
      have hmax := (randRange min max).le_max
      rw [InRange, lowest_of_unsigned rfl]
      omega
    have hlt : (Num.mk (max.val - min.val) hwidth).val < (randRange min max).val := by
      rw [hrange]
      exact Int.lt_succ_self _
    have hnumber := randGenerator_singleton hlt
    exact (staysInRange_iff h hnumber).mp (hstays _ _ hnumber)
  · intro hwidth draws number hnumber
    have hlt := randGenerator_lt hnumber
    exact (staysInRange_iff h hnumber).mpr (by omega)

theorem randInt_staysInRange_byte :
    StaysInRange 0 (staticCast .int32 255) [staticCast .uint64 300] (staticCast .uint64 44) := by
  have h : (0 : Num .int32).val ≤ (staticCast .int32 255).val := by decide
  have hnumber : randGenerator (randRange 0 (staticCast .int32 255)) [staticCast .uint64 300] =
      some (staticCast .uint64 44) := by decide
  exact ((randInt_staysInRange_iff 0 (staticCast .int32 255) h).2.1 _ _ hnumber).mpr (by decide)

/-- With every `int` between the bounds, the draw 2^31 makes the addition overflow. -/
theorem randInt_overflows : ¬ ∀ (min max : Num .int32) (draws : List (Num .uint64))
    (number : Num .uint64), min.val ≤ max.val →
      randGenerator (randRange min max) draws = some number →
        StaysInRange min max draws number := by
  intro hclaim
  have h : (lowestValue .int32).val ≤ (maxValue .int32).val := by decide
  have hnumber : randGenerator (randRange (lowestValue .int32) (maxValue .int32))
      [staticCast .uint64 2147483648] = some (staticCast .uint64 2147483648) := by decide
  have hexact := (hclaim _ _ _ _ h hnumber).exact
  rw [exact_randInt_iff h hnumber] at hexact
  exact absurd hexact.2 (by decide)

end Bounds

end MiniChromium.RandUtil
