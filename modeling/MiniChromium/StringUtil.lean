import MiniChromium.IntegralType
import MiniChromium.Loops
import Mathlib.Data.Vector.Basic

/-!
# Copying strings into a buffer

`strlcpy` and `wcslcpy` are `lcpyT` for two types of characters. Reading behind the NUL of the
source and writing outside the destination have no outcome in the model.
-/
namespace MiniChromium.StringUtil

open IntegralType MiniChromium.Num Loops

set_option linter.unusedSectionVars false

section Code

variable {α : Type} [DecidableEq α] [Zero α]

/-- Writing to a place in a buffer. -/
def write (dst : List α) (i : Num .uint64) (c : α) : Option (List α) :=
  if i.val < dst.length then some (dst.set i.val.toNat c) else none

/-- `++i`. -/
def increment (i : Num .uint64) : Num .uint64 := staticCast .uint64 (i.val + 1)

/-- A turn of the first loop of `lcpyT`, which leaves with the length of the source if it has
copied the NUL. -/
def copyTurn (src : List α) (dstSize : Num .uint64) (state : Num .uint64 × List α) :
    Option ((Option (Num .uint64) × List α) ⊕ (Num .uint64 × List α)) :=
  let (i, dst) := state
  if i.val < dstSize.val then
    src[i.val.toNat]?.bind fun c =>
      (write dst i c).map fun dst =>
        if c = 0 then .inl (some i, dst) else .inr (increment i, dst)
  else some (.inl (none, dst))

/-- A turn of the second loop, which counts the rest of the source. -/
def countTurn (src : List α) (dstSize : Num .uint64) :
    Option (Num .uint64 ⊕ Num .uint64) :=
  src[dstSize.val.toNat]?.map fun c => if c ≠ 0 then .inr (increment dstSize) else .inl dstSize

/-- `lcpyT`: what it returns, and what the buffer holds then. -/
def lcpyT (turns : ℕ) (dst src : List α) (dstSize : Num .uint64) :
    Option (Num .uint64 × List α) := do
  let (copied, dst) ← loop (copyTurn src dstSize) turns (0, dst)
  match copied with
  | some i => return (i, dst)
  | none =>
    let dst ←
      if dstSize.val ≠ 0 then write dst (staticCast .uint64 (dstSize.val - 1)) 0 else some dst
    let dstSize ← loop (countTurn src) turns dstSize
    return (dstSize, dst)

/-- `strlcpy`. -/
def strlcpy (turns : ℕ) (dst src : List (Num .int8)) (dstSize : Num .uint64) :
    Option (Num .uint64 × List (Num .int8)) :=
  lcpyT turns dst src dstSize

/-- `wcslcpy`, where the type of `wchar_t` depends on the platform. -/
def wcslcpy {wchar : IntegralType} (turns : ℕ) (dst src : List (Num wchar))
    (dstSize : Num .uint64) : Option (Num .uint64 × List (Num wchar)) :=
  lcpyT turns dst src dstSize

end Code

/-- A string with a NUL at its end, whose place is a `size_t`. -/
structure CString (α : Type) [Zero α] where
  chars : List α
  ne_zero : ∀ c ∈ chars, c ≠ 0
  length_le : (chars.length : ℤ) ≤ IntegralType.max .uint64

section Copying

variable {α : Type} [DecidableEq α] [Zero α] {dst dst' : List α} {i dstSize : Num .uint64}

namespace CString

/-- The array of the characters, up to the NUL. -/
def cells (src : CString α) : List α := src.chars ++ [0]

variable (src : CString α)

theorem cells_of_lt {i : ℕ} (h : i < src.chars.length) :
    ∃ c, src.cells[i]? = some c ∧ c ≠ 0 ∧ src.chars.take (i + 1) = src.chars.take i ++ [c] := by
  refine ⟨src.chars[i], ?_, src.ne_zero _ (List.getElem_mem h), ?_⟩
  · rw [cells, List.getElem?_append_left h, List.getElem?_eq_getElem h]
  · rw [List.take_add_one, List.getElem?_eq_getElem h, Option.toList_some]

theorem cells_length : src.cells[src.chars.length]? = some 0 := by
  simp [cells]

end CString

theorem increment_val (src : CString α) (h : i.val < src.chars.length) :
    (increment i).val = i.val + 1 := by
  have hlength := src.length_le
  have hnonneg := i.nonneg rfl
  exact staticCast_of_inRange ⟨(lowest_nonpos _).trans (by omega), by omega⟩

/-- The buffer once some characters are copied. -/
def copied (src : CString α) (dst : List α) (n : ℕ) : List α := src.chars.take n ++ dst.drop n

theorem copied_length {src : CString α} {n : ℕ} (hn : n ≤ src.chars.length)
    (hle : n ≤ dst.length) : (copied src dst n).length = dst.length := by
  rw [copied, List.length_append, List.length_take, List.length_drop]
  omega

theorem set_copied {src : CString α} {n : ℕ} (hn : n ≤ src.chars.length) (hlt : n < dst.length)
    (c : α) : (copied src dst n).set n c = src.chars.take n ++ c :: dst.drop (n + 1) := by
  have hlength : (src.chars.take n).length = n := by
    rw [List.length_take]
    omega
  rw [copied, List.set_append_right _ _ hlength.le, hlength, Nat.sub_self,
    List.drop_eq_getElem_cons hlt, List.set_cons_zero]

/-- What the first loop leaves: the whole string with its NUL, or a full buffer. -/
def CopyLeft (src : CString α) (dst : List α) (dstSize : Num .uint64) :
    Option (Num .uint64) × List α → Prop
  | (some i, dst') => i.val = src.chars.length ∧ i.val < dstSize.val ∧
    dst' = src.chars ++ 0 :: dst.drop (src.chars.length + 1)
  | (none, dst') => dstSize.val ≤ src.chars.length ∧ dst' = src.chars.take dstSize.val.toNat

theorem copyTurn_progress (src : CString α) (hdst : (dst.length : ℤ) = dstSize.val)
    (state : Num .uint64 × List α)
    (h : state.1.val ≤ dstSize.val ∧ state.1.val ≤ src.chars.length ∧
      state.2 = copied src dst state.1.val.toNat) :
    ∃ next, copyTurn src.cells dstSize state = some next ∧
      Progress (fun state : Num .uint64 × List α => (dstSize.val - state.1.val).toNat)
        (fun state => state.1.val ≤ dstSize.val ∧ state.1.val ≤ src.chars.length ∧
          state.2 = copied src dst state.1.val.toNat)
        (CopyLeft src dst dstSize) state next := by
  obtain ⟨i, dst'⟩ := state
  obtain ⟨hsize, hlength, hcopied⟩ := h
  dsimp only at hsize hlength hcopied
  subst hcopied
  have hnonneg := i.nonneg rfl
  unfold copyTurn
  dsimp only
  split_ifs with hlt
  · have hwrite : ∀ c, write (copied src dst i.val.toNat) i c =
        some (src.chars.take i.val.toNat ++ c :: dst.drop (i.val.toNat + 1)) := by
      intro c
      have hplace : i.val < (copied src dst i.val.toNat).length := by
        rw [copied_length (by omega) (by omega)]
        omega
      rw [write, if_pos hplace, set_copied (by omega) (by omega)]
    by_cases hend : i.val = src.chars.length
    · have hread : src.cells[i.val.toNat]? = some 0 := by
        rw [hend, Int.toNat_natCast]
        exact src.cells_length
      rw [hread, Option.bind_some, hwrite, Option.map_some, if_pos rfl]
      refine ⟨_, rfl, hend, hlt, ?_⟩
      rw [hend, Int.toNat_natCast, List.take_length]
    · obtain ⟨c, hread, hc, htake⟩ := src.cells_of_lt (i := i.val.toNat) (by omega)
      have hincrement := increment_val src (i := i) (by omega)
      rw [hread, Option.bind_some, hwrite, Option.map_some, if_neg hc]
      refine ⟨_, rfl, ⟨by dsimp only; omega, by dsimp only; omega, ?_⟩, by dsimp only; omega⟩
      have hnext : (increment i).val.toNat = i.val.toNat + 1 := by omega
      dsimp only
      rw [hnext, copied, htake, List.append_assoc, List.singleton_append]
  · have hfull : i.val.toNat = dst.length := by omega
    refine ⟨_, rfl, by omega, ?_⟩
    rw [copied, hfull, List.drop_length, List.append_nil, ← hdst, Int.toNat_natCast]

/-- The second loop ends at the NUL. -/
theorem countTurn_progress (src : CString α) (size : Num .uint64)
    (h : size.val ≤ src.chars.length) :
    ∃ next, countTurn src.cells size = some next ∧
      Progress (fun size : Num .uint64 => ((src.chars.length : ℤ) - size.val).toNat)
        (fun size => size.val ≤ src.chars.length)
        (fun size : Num .uint64 => size.val = src.chars.length) size next := by
  have hnonneg := size.nonneg rfl
  unfold countTurn
  by_cases hend : size.val = src.chars.length
  · have hread : src.cells[size.val.toNat]? = some 0 := by
      rw [hend, Int.toNat_natCast]
      exact src.cells_length
    rw [hread, Option.map_some, if_neg (not_not.mpr rfl)]
    exact ⟨_, rfl, hend⟩
  · obtain ⟨c, hread, hc, -⟩ := src.cells_of_lt (i := size.val.toNat) (by omega)
    have hincrement := increment_val src (i := size) (by omega)
    rw [hread, Option.map_some, if_pos hc]
    exact ⟨_, rfl, by omega, by dsimp only; omega⟩

/-- What the contract of `strlcpy` says of a result: the length of the source, and as much of the
source as fits in front of a NUL, if there is room for one. -/
def Contract (src : CString α) (dst : List α) (result : Num .uint64 × List α) : Prop :=
  result.1.val = src.chars.length ∧
    if dst.length = 0 then result.2 = dst
    else result.2 = src.chars.take (min src.chars.length (dst.length - 1)) ++
      0 :: dst.drop (min src.chars.length (dst.length - 1) + 1)

/-- The last character of a full buffer is replaced by the NUL. -/
theorem write_last {src : CString α} (hle : dstSize.val ≤ src.chars.length)
    (hpos : 0 < dstSize.val) :
    write (src.chars.take dstSize.val.toNat) (staticCast .uint64 (dstSize.val - 1)) 0 =
      some (src.chars.take (dstSize.val.toNat - 1) ++ [0]) := by
  have hmax := dstSize.le_max
  have hval : (staticCast .uint64 (dstSize.val - 1)).val = dstSize.val - 1 :=
    staticCast_of_inRange ⟨(lowest_nonpos _).trans (by omega), by omega⟩
  obtain ⟨c, -, -, htake⟩ := src.cells_of_lt (i := dstSize.val.toNat - 1) (by omega)
  rw [show dstSize.val.toNat - 1 + 1 = dstSize.val.toNat by omega] at htake
  have hlength : (src.chars.take (dstSize.val.toNat - 1)).length = dstSize.val.toNat - 1 := by
    rw [List.length_take]
    omega
  have hplace : (dstSize.val - 1).toNat = (src.chars.take (dstSize.val.toNat - 1)).length := by
    omega
  rw [write, hval, if_pos (by rw [List.length_take]; omega), htake, hplace,
    List.set_append_right _ _ le_rfl, Nat.sub_self, List.set_cons_zero]

/-- `lcpyT` ends within both arrays and keeps the contract. -/
theorem lcpyT_contract (src : CString α) (dst : List α) (hdst : (dst.length : ℤ) = dstSize.val) :
    ∃ result, Contract src dst result ∧
      ∀ turns, dst.length + src.chars.length < turns →
        lcpyT turns dst src.cells dstSize = some result := by
  obtain ⟨⟨left, dst'⟩, hleft, hcopy⟩ := loop_of_progress _ _ _ (copyTurn_progress src hdst)
    (0, dst) ⟨dstSize.nonneg rfl, Int.natCast_nonneg _, by simp [copied]⟩
  rw [val_zero, Int.sub_zero] at hcopy
  cases left with
  | some i =>
    obtain ⟨hi, hlt, hdst'⟩ := hleft
    refine ⟨(i, dst'), ⟨hi, ?_⟩, fun turns hturns => ?_⟩
    · rw [if_neg (by omega), min_eq_left (by omega), List.take_length]
      exact hdst'
    · rw [lcpyT, hcopy turns (by omega)]
      rfl
  | none =>
    obtain ⟨hle, rfl⟩ := hleft
    obtain ⟨size, hsize, hcount⟩ := loop_of_progress _ _ _ (countTurn_progress src) dstSize hle
    by_cases hzero : dstSize.val = 0
    · have hnil : dst = [] := List.length_eq_zero_iff.mp (by omega)
      refine ⟨(size, []), ⟨hsize, by rw [hnil]; rfl⟩, fun turns hturns => ?_⟩
      rw [lcpyT, hcopy turns (by omega)]
      simp [hzero, hcount turns (by omega)]
    · refine ⟨(size, src.chars.take (dstSize.val.toNat - 1) ++ [0]), ⟨hsize, ?_⟩,
        fun turns hturns => ?_⟩
      · have hplace : dst.length - 1 + 1 = dst.length := by omega
        rw [if_neg (by omega), min_eq_right (by omega), hplace, List.drop_length, ← hdst,
          Int.toNat_natCast]
      · have hwrite := write_last hle (by have := dstSize.nonneg rfl; omega)
        rw [lcpyT, hcopy turns (by omega)]
        simp [hzero, hwrite, hcount turns (by omega)]

/-- For every string and every buffer the function ends, within both arrays, and keeps the
contract. -/
def MeetsContract (lcpy : ℕ → List α → List α → Num .uint64 → Option (Num .uint64 × List α)) :
    Prop :=
  ∀ (src : CString α) (dstSize : Num .uint64) (dst : List.Vector α dstSize.val.toNat),
    ∃ result, Contract src dst.toList result ∧
      ∀ turns, dst.toList.length + src.chars.length < turns →
        lcpy turns dst.toList src.cells dstSize = some result

theorem lcpyT_meetsContract : MeetsContract (α := α) lcpyT := by
  intro src dstSize dst
  have hnonneg := dstSize.nonneg rfl
  exact lcpyT_contract src dst.toList (by rw [List.Vector.toList_length]; omega)

end Copying

/-- `strlcpy` and `wcslcpy` meet the contract of the BSD functions. -/
theorem lcpy_meets_contract :
    MeetsContract strlcpy ∧ ∀ wchar : IntegralType, MeetsContract (@wcslcpy wchar) :=
  ⟨lcpyT_meetsContract, fun _ => lcpyT_meetsContract⟩

/-- Four characters do not fit into three cells. -/
example : lcpyT 9 [7, 7, 7] [1, 2, 3, 4, 0] (staticCast .uint64 3) =
    some (staticCast .uint64 4, [1, 2, 0]) := by decide

end MiniChromium.StringUtil
