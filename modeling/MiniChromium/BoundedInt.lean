import Mathlib.Data.Int.ModEq
import Mathlib.Tactic.Ring
import Mathlib.Tactic.NormNum

/-!
# Wrapping and clamping into an interval of integers

A fixed-width integer type is an interval `[lo, lo + n)`. `wrap` picks the
representative of a residue class modulo `n` that lies in it, `clamp` the
nearest element of `[lo, hi]`. Nothing here depends on a particular width.
-/
namespace MiniChromium.BoundedInt

/-- The element of `[lo, lo + n)` congruent to `z` modulo `n`. -/
def wrap (lo n z : ℤ) : ℤ := lo + (z - lo) % n

theorem le_wrap {n : ℤ} (hn : 0 < n) (lo z : ℤ) : lo ≤ wrap lo n z := by
  have h := Int.emod_nonneg (z - lo) hn.ne'
  unfold wrap; omega

theorem wrap_lt {n : ℤ} (hn : 0 < n) (lo z : ℤ) : wrap lo n z < lo + n := by
  have h := Int.emod_lt_of_pos (z - lo) hn
  unfold wrap; omega

/-- A value that wraps from above only gets smaller. -/
theorem wrap_le {lo n z : ℤ} (hn : 0 < n) (h : lo ≤ z) : wrap lo n z ≤ z := by
  have hdm := Int.mul_ediv_add_emod (z - lo) n
  have hq := mul_nonneg hn.le (Int.ediv_nonneg (sub_nonneg.mpr h) hn.le)
  unfold wrap; omega

/-- A value already in the interval is not changed. -/
theorem wrap_of_mem {lo n z : ℤ} (hl : lo ≤ z) (hu : z < lo + n) : wrap lo n z = z := by
  unfold wrap
  rw [Int.emod_eq_of_lt (by omega) (by omega)]
  omega

theorem wrap_modEq (lo n z : ℤ) : wrap lo n z ≡ z [ZMOD n] := by
  have h : (z - lo) % n ≡ z - lo [ZMOD n] := Int.mod_modEq _ _
  simpa [wrap] using h.add_left lo

theorem wrap_congr {n z z' : ℤ} (lo : ℤ) (h : z ≡ z' [ZMOD n]) :
    wrap lo n z = wrap lo n z' := by
  unfold wrap
  rw [show (z - lo) % n = (z' - lo) % n from h.sub_right lo]

/-- The element of `[lo, hi]` nearest to `z`. -/
def clamp (lo hi z : ℤ) : ℤ := max lo (min z hi)

theorem clamp_of_mem {lo hi z : ℤ} (hl : lo ≤ z) (hu : z ≤ hi) : clamp lo hi z = z := by
  unfold clamp; omega

theorem clamp_eq_lo_iff {lo hi z : ℤ} (hlh : lo < hi) : clamp lo hi z = lo ↔ z ≤ lo := by
  unfold clamp; omega

theorem clamp_eq_hi_iff {lo hi z : ℤ} (hlh : lo < hi) : clamp lo hi z = hi ↔ hi ≤ z := by
  unfold clamp; omega

theorem clamp_mem {lo hi : ℤ} (hlh : lo ≤ hi) (z : ℤ) :
    lo ≤ clamp lo hi z ∧ clamp lo hi z ≤ hi := by
  unfold clamp; omega

/-- Clamping into a wider interval first changes nothing. -/
theorem clamp_clamp {lo hi lo' hi' : ℤ} (hlh : lo ≤ hi) (hl : lo' ≤ lo) (hu : hi ≤ hi') (z : ℤ) :
    clamp lo hi (clamp lo' hi' z) = clamp lo hi z := by
  unfold clamp; omega

/-- Complementing all `n` bits of a number below `2 ^ n`. -/
theorem xor_two_pow_sub_one {n x : ℕ} (h : x < 2 ^ n) : x ^^^ (2 ^ n - 1) = 2 ^ n - 1 - x := by
  have hx : (BitVec.ofNat n x).toNat = x := by simp [Nat.mod_eq_of_lt h]
  have hnot := congrArg BitVec.toNat (BitVec.xor_allOnes (x := BitVec.ofNat n x))
  rwa [BitVec.toNat_xor, BitVec.toNat_allOnes, BitVec.toNat_not, hx] at hnot

end MiniChromium.BoundedInt
