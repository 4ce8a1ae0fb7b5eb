import MiniChromium.CheckedSum

/-!
# The checked remainder

`CheckedModOp` has none of the guards of the division: it converts both operands
to the promotion type and takes the remainder there. What that yields is compared
with the remainder of the unbounded integers, and the operands for which `%` is
not defined are found.
-/
namespace MiniChromium

open IntegralType MiniChromium.Num

variable {T U P V : IntegralType}

/-- The remainder of a truncating division. -/
def exactRemainder (x y : ℤ) : ℤ := x - y * x.tdiv y

theorem exactRemainder_eq_tmod (x y : ℤ) : exactRemainder x y = x.tmod y := (Int.tmod_def x y).symm

/-- The `%` that is evaluated, if any, has neither a zero divisor nor the minimum
of the promotion type with minus one. -/
def ModOpDefined (x : Num T) (y : Num U) : Prop :=
  ∀ p ∈ checkedModOpOperands x y,
    p.2.val ≠ 0 ∧ ¬(p.1.val = (bigEnoughPromotion T U).lowest ∧ p.2.val = -1)

instance (x : Num T) (y : Num U) : Decidable (ModOpDefined x y) :=
  inferInstanceAs (Decidable (∀ p ∈ checkedModOpOperands x y, _))

/-- A valid result is the exact remainder. -/
def ModOpExact (V : IntegralType) (x : Num T) (y : Num U) (result : Num V) : Prop :=
  (checkedModOp V x y result).1 = true →
    (checkedModOp V x y result).2.val = exactRemainder x.val y.val

instance (V : IntegralType) (x : Num T) (y : Num U) (result : Num V) :
    Decidable (ModOpExact V x y result) :=
  inferInstanceAs (Decidable (_ → _))

/-- No nonzero divisor converts to zero. -/
theorem staticCast_divisor_ne_zero (y : Num U) (hy : y.val ≠ 0) :
    (staticCast (bigEnoughPromotion T U) y.val).val ≠ 0 := by
  have hb : ∀ T U : IntegralType, U.max < (bigEnoughPromotion T U).modulus ∧
      -(bigEnoughPromotion T U).modulus < U.lowest := by decide
  obtain ⟨hu, hl⟩ := hb T U
  have hyl := y.lowest_le
  have hyu := y.le_max
  intro h0
  have hmod := staticCast_modEq (bigEnoughPromotion T U) y.val
  rw [h0] at hmod
  refine hy (Int.eq_zero_of_abs_lt_dvd (Int.modEq_zero_iff_dvd.mp hmod.symm) ?_)
  rw [abs_lt]
  omega

/-- With operands that fit, the only undefined remainder is that of the minimum by
minus one. -/
theorem modOpDefined_iff (x : Num T) (y : Num U) :
    ModOpDefined x y ↔ ¬((bigEnoughPromotion T U).isSigned = true ∧
      x.val = (bigEnoughPromotion T U).lowest ∧ y.val = -1) := by
  unfold ModOpDefined checkedModOpOperands
  by_cases hy : y.val = 0
  · simp [hy]
  have hne := staticCast_divisor_ne_zero (T := T) y hy
  simp only [hy, ne_eq, not_false_eq_true, if_true, Option.mem_def, Option.some.injEq, forall_eq']
  rw [and_iff_right hne, not_iff_not]
  cases hP : (bigEnoughPromotion T U).isSigned with
  | true =>
    have hfit : ∀ T U : IntegralType, (bigEnoughPromotion T U).isSigned = true →
        (bigEnoughPromotion T U).isTypeInRange T = true ∧
          (bigEnoughPromotion T U).isTypeInRange U = true := by decide
    obtain ⟨hT, hU⟩ := hfit T U hP
    rw [staticCast_of_inRange (x.inRange.of_isTypeInRange hT),
      staticCast_of_inRange (y.inRange.of_isTypeInRange hU)]
    simp
  | false =>
    have hnn := (staticCast (bigEnoughPromotion T U) y.val).nonneg hP
    simp only [Bool.false_eq_true, false_and, iff_false]
    omega

/-- A negative dividend wrapped modulo `n` has a nonnegative remainder, the exact
one is not positive. -/
theorem emod_add_eq_tmod_iff {n x y : ℤ} (hx : x < 0) (hy : 0 < y) :
    (n + x) % y = x.tmod y ↔ y ∣ n ∧ y ∣ x := by
  have hpos := Int.emod_nonneg (n + x) hy.ne'
  have hneg : x.tmod y ≤ 0 := by
    have := Int.tmod_nonneg (a := -x) y (by omega)
    rw [Int.neg_tmod] at this
    omega
  constructor
  · intro h
    have hdx : y ∣ x := Int.dvd_of_tmod_eq_zero (by omega)
    have hdn : y ∣ n + x := Int.dvd_of_emod_eq_zero (by omega)
    exact ⟨(Int.dvd_add_left hdx).mp hdn, hdx⟩
  · intro ⟨hn, hdx⟩
    rw [Int.emod_eq_zero_of_dvd (Int.dvd_add hn hdx), Int.tmod_eq_zero_of_dvd hdx]

/-- A negative divisor wrapped modulo `n` is at least half of `n`, so its quotient
is zero or one. -/
theorem emod_add_divisor_eq_tmod_iff {n x y : ℤ} (hx : 0 ≤ x) (hxn : x < n) (hy : y < 0)
    (hyn : -(2 * y) ≤ n) : x % (n + y) = x.tmod y ↔ x < -y ∨ (-y ∣ n ∧ n + y ≤ x) := by
  have hq : x.tmod y = x % (-y) := by
    rw [← Int.tmod_eq_emod_of_nonneg hx, Int.tmod_neg]
  have hlt : x % (-y) < -y := Int.emod_lt_of_pos x (by omega)
  rw [hq]
  rcases lt_or_ge x (n + y) with hD | hD
  · rw [Int.emod_eq_of_lt hx hD]
    constructor
    · intro h
      exact .inl (by omega)
    · rintro (h | h)
      · exact (Int.emod_eq_of_lt hx h).symm
      · omega
  · -- The wrapped divisor is subtracted once.
    have hone : x % (n + y) = x - (n + y) := by
      rw [← Int.sub_emod_right, Int.emod_eq_of_lt (by omega) (by omega)]
    have hdvd : x - (n + y) = x % (-y) ↔ -y ∣ n := by
      have hsmall : (x - (n + y)) % (-y) = x - (n + y) := Int.emod_eq_of_lt (by omega) (by omega)
      rw [← hsmall, eq_comm]
      show x ≡ x - (n + y) [ZMOD -y] ↔ _
      rw [Int.modEq_iff_dvd, show x - (n + y) - x = -n + -y by ring,
        Int.dvd_add_left (Int.dvd_refl _),
        Int.dvd_neg]
    rw [hone, hdvd]
    constructor
    · intro h
      exact .inr ⟨h, hD⟩
    · rintro (h | h)
      · omega
      · exact h.1

/-- The remainder that is computed differs from the exact one only where a negative
operand stands beside a 64-bit unsigned one. There a negative dividend must be
divisible together with `2 ^ 64`, unless the result is rejected, and a negative
divisor must leave the quotient zero, or one and divide `2 ^ 64`. -/
def ModOpSafe (V : IntegralType) (x : Num T) (y : Num U) : Prop :=
  ¬((bigEnoughPromotion T U).isSigned = true ∧ x.val = (bigEnoughPromotion T U).lowest ∧
      y.val = -1) ∧
    (T.isSigned = true ∧ U = .uint64 ∧ x.val < 0 ∧ y.val ≠ 0 →
      y.val ∣ 2 ^ 64 ∧ y.val ∣ x.val ∨ V.max < (2 ^ 64 + x.val) % y.val) ∧
    (T = .uint64 ∧ U.isSigned = true ∧ y.val < 0 →
      x.val < -y.val ∨ (-y.val ∣ 2 ^ 64 ∧ 2 ^ 64 + y.val ≤ x.val))

instance (V : IntegralType) (x : Num T) (y : Num U) : Decidable (ModOpSafe V x y) :=
  inferInstanceAs (Decidable (_ ∧ _ ∧ _))

/-- What is stored, and when it is valid, by the remainder taken in the promotion
type. -/
theorem checkedModOp_of_remainder (x : Num T) (y : Num U) (result : Num V) (r : ℤ)
    (hy : y.val ≠ 0) (hr : (staticCast (bigEnoughPromotion T U) x.val).val.tmod
      (staticCast (bigEnoughPromotion T U) y.val).val = r)
    (hin : (bigEnoughPromotion T U).InRange r) :
    Computes (checkedModOp V x y result) (V.InRange r) r := by
  have hops : checkedModOpOperands x y = some (staticCast (bigEnoughPromotion T U) x.val,
      staticCast (bigEnoughPromotion T U) y.val) := if_pos hy
  simp only [checkedModOp, hops, hr]
  exact computes_of_inRange V hin

/-- A remainder stays in the range of its operands. -/
theorem inRange_tmod {P : IntegralType} {x : ℤ} (y : ℤ) (hx : P.InRange x) :
    P.InRange (x.tmod y) := by
  have habs : (x.tmod y).natAbs ≤ x.natAbs := by
    rw [Int.natAbs_tmod]
    exact Nat.mod_le _ _
  have hpos : 0 ≤ x → 0 ≤ x.tmod y := fun h => Int.tmod_nonneg y h
  have hneg : x ≤ 0 → x.tmod y ≤ 0 := fun h => by
    have := Int.tmod_nonneg y (show 0 ≤ -x by omega)
    rw [Int.neg_tmod] at this
    omega
  have hl := P.lowest_nonpos
  have hm := P.max_pos
  unfold IntegralType.InRange at *
  omega

/-- A stored remainder `r` is acceptable when it is exact or rejected. -/
theorem modOpExact_iff {x : Num T} {y : Num U} {result : Num V} {r : ℤ}
    (h : Computes (checkedModOp V x y result) (V.InRange r) r) :
    ModOpExact V x y result ↔ ¬V.InRange r ∨ r = x.val.tmod y.val := by
  unfold ModOpExact
  rw [exactRemainder_eq_tmod, h.valid_iff]
  constructor
  · intro hv
    by_cases hr : V.InRange r
    · exact .inr ((h.val_eq (h.valid_iff.mpr hr)).symm.trans (hv hr))
    · exact .inl hr
  · rintro (hr | hr) hv
    · exact absurd hv hr
    · rw [h.val_eq (h.valid_iff.mpr hv), hr]

/-- A negative signed value converts to the 64-bit unsigned type by adding `2 ^ 64`. -/
theorem staticCast_uint64_of_neg (x : Num T) (hT : T.isSigned = true) (hx : x.val < 0) :
    (staticCast .uint64 x.val).val = 2 ^ 64 + x.val ∧ (2 : ℤ) ^ 63 ≤ 2 ^ 64 + x.val := by
  have hb : ∀ T : IntegralType, T.isSigned = true → -2 ^ 63 ≤ T.lowest := by decide
  have hl := (hb T hT).trans x.lowest_le
  have hc : 2 ^ 64 + x.val ≡ x.val [ZMOD IntegralType.uint64.modulus] := by
    rw [show IntegralType.uint64.modulus = 2 ^ 64 from rfl]
    simp [Int.ModEq]
  rw [← staticCast_congr hc]
  refine ⟨staticCast_of_inRange ⟨?_, ?_⟩, by omega⟩
  · rw [show IntegralType.uint64.lowest = 0 from rfl]
    omega
  · rw [show IntegralType.uint64.max = 2 ^ 64 - 1 from rfl]
    omega

theorem modOpExact_of_neg_dividend (x : Num T) (y : Num .uint64) (result : Num V)
    (hT : T.isSigned = true) (hx : x.val < 0) (hy : y.val ≠ 0) :
    ModOpExact V x y result ↔
      y.val ∣ 2 ^ 64 ∧ y.val ∣ x.val ∨ V.max < (2 ^ 64 + x.val) % y.val := by
  have hP : bigEnoughPromotion T .uint64 = .uint64 := by clear hx x; revert T; decide
  obtain ⟨hpx, hx64⟩ := staticCast_uint64_of_neg x hT hx
  have hy0 : 0 < y.val := lt_of_le_of_ne (y.nonneg rfl) (Ne.symm hy)
  have hr0 := Int.emod_nonneg (2 ^ 64 + x.val) hy
  have hr1 := Int.emod_lt_of_pos (2 ^ 64 + x.val) hy0
  have hin : (bigEnoughPromotion T .uint64).InRange ((2 ^ 64 + x.val) % y.val) := by
    rw [hP]
    exact ⟨hr0, hr1.le.trans y.le_max⟩
  have hr : (staticCast (bigEnoughPromotion T .uint64) x.val).val.tmod
      (staticCast (bigEnoughPromotion T .uint64) y.val).val = (2 ^ 64 + x.val) % y.val := by
    rw [hP, hpx, staticCast_self, Int.tmod_eq_emod_of_nonneg (by omega)]
  have hV : ¬V.InRange ((2 ^ 64 + x.val) % y.val) ↔ V.max < (2 ^ 64 + x.val) % y.val := by
    have := V.lowest_nonpos
    unfold IntegralType.InRange
    omega
  rw [modOpExact_iff (checkedModOp_of_remainder x y result _ hy hr hin), hV,
    emod_add_eq_tmod_iff hx hy0, or_comm]

theorem modOpExact_of_neg_divisor (hV : V = .uint64) (x : Num .uint64) (y : Num U)
    (result : Num V) (hU : U.isSigned = true) (hy : y.val < 0) :
    ModOpExact V x y result ↔ x.val < -y.val ∨ (-y.val ∣ 2 ^ 64 ∧ 2 ^ 64 + y.val ≤ x.val) := by
  subst hV
  have hP : bigEnoughPromotion .uint64 U = .uint64 := by clear hy y; revert U; decide
  obtain ⟨hpy, hy64⟩ := staticCast_uint64_of_neg y hU hy
  have hx0 := x.nonneg rfl
  have hxu : x.val < 2 ^ 64 := by
    have := x.le_max
    rw [show IntegralType.uint64.max = 2 ^ 64 - 1 from rfl] at this
    omega
  have hin : IntegralType.uint64.InRange (x.val % (2 ^ 64 + y.val)) := by
    have h0 := Int.emod_nonneg x.val (show 2 ^ 64 + y.val ≠ 0 by omega)
    have h1 := Int.emod_lt_of_pos x.val (show 0 < 2 ^ 64 + y.val by omega)
    refine ⟨h0, ?_⟩
    rw [show IntegralType.uint64.max = 2 ^ 64 - 1 from rfl]
    omega
  have hr : (staticCast (bigEnoughPromotion .uint64 U) x.val).val.tmod
      (staticCast (bigEnoughPromotion .uint64 U) y.val).val = x.val % (2 ^ 64 + y.val) := by
    rw [hP, hpy, staticCast_self, Int.tmod_eq_emod_of_nonneg hx0]
  rw [modOpExact_iff (checkedModOp_of_remainder x y result _ hy.ne hr (hP.symm ▸ hin)),
    emod_add_divisor_eq_tmod_iff hx0 hxu hy (by omega), or_iff_right (not_not.mpr hin)]

/-- A zero divisor is reported. -/
theorem modOpExact_of_zero (x : Num T) (y : Num U) (result : Num V) (hy : y.val = 0) :
    ModOpExact V x y result := by
  have hops : checkedModOpOperands x y = none := if_neg (not_not.mpr hy)
  intro hv
  simp [checkedModOp, hops] at hv

theorem modOpExact_of_fit (x : Num T) (y : Num U) (result : Num V)
    (h : OperandsFit (bigEnoughPromotion T U) x y) : ModOpExact V x y result := by
  by_cases hy : y.val = 0
  · exact modOpExact_of_zero x y result hy
  · have hr : (staticCast (bigEnoughPromotion T U) x.val).val.tmod
        (staticCast (bigEnoughPromotion T U) y.val).val = x.val.tmod y.val := by
      rw [staticCast_of_inRange h.1, staticCast_of_inRange h.2]
    exact (modOpExact_iff (checkedModOp_of_remainder x y result _ hy hr
      (inRange_tmod y.val h.1))).mpr (.inr rfl)

/-- The checked remainder is defined and sound exactly under `ModOpSafe`. -/
theorem checkedModOp_sound_iff (hV : V = maxExponentPromotion T U ∨ V = T) (x : Num T) (y : Num U)
    (result : Num V) :
    ModOpDefined x y ∧ ModOpExact V x y result ↔ ModOpSafe V x y := by
  unfold ModOpSafe
  rw [modOpDefined_iff]
  refine and_congr_right fun _ => ?_
  have hun : IntegralType.uint64.isSigned = false := rfl
  by_cases hmix : MixedSignWord x y
  · rcases hmix with ⟨hT, rfl, hx⟩ | ⟨rfl, hU, hy⟩
    · have hT' : T ≠ .uint64 := by rintro rfl; simp [hun] at hT
      by_cases hy : y.val = 0
      · exact iff_of_true (modOpExact_of_zero x y result hy)
          ⟨fun h => absurd hy h.2.2.2, fun h => absurd h.1 hT'⟩
      · rw [modOpExact_of_neg_dividend x y result hT hx hy]
        exact ⟨fun h => ⟨fun _ => h, fun h' => absurd h'.1 hT'⟩,
          fun h => h.1 ⟨hT, rfl, hx, hy⟩⟩
    · have hVu : V = .uint64 := by
        have hmax : ∀ U : IntegralType, U.isSigned = true →
            maxExponentPromotion .uint64 U = .uint64 := by decide
        exact hV.elim (fun h => h.trans (hmax U hU)) id
      rw [modOpExact_of_neg_divisor hVu x y result hU hy]
      exact ⟨fun h => ⟨fun h' => by simp [hun] at h', fun _ => h⟩, fun h => h.2 ⟨rfl, hU, hy⟩⟩
  · have hfit := (operandsFit_iff_not_mixed x y (.inr rfl)).mpr hmix
    exact iff_of_true (modOpExact_of_fit x y result hfit)
      ⟨fun h => absurd (.inl ⟨h.1, h.2.1, h.2.2.1⟩) hmix, fun h => absurd (.inr h) hmix⟩

/-- The hypothesis holds of 32-bit operands. -/
theorem checkedModOp_sound_int32 :
    ModOpDefined (⟨-7, by decide⟩ : Num .int32) (⟨3, by decide⟩ : Num .int32) ∧
      ModOpExact .int32 (⟨-7, by decide⟩ : Num .int32) (⟨3, by decide⟩ : Num .int32) 0 :=
  (checkedModOp_sound_iff (.inl rfl) _ _ 0).mpr (by decide)

/-- The minimum of `int` by minus one reaches `%`, and `int64_t(-1) % uint64_t(5)` is
reported valid with the value zero. -/
theorem checkedModOp_unsound :
    ¬ModOpDefined (Num.lowestValue .int32) (⟨-1, by decide⟩ : Num .int32) ∧
      ¬ModOpExact .uint64 (⟨-1, by decide⟩ : Num .int64) (⟨5, by decide⟩ : Num .uint64) 0 := by
  decide

end MiniChromium
