import Mathlib.Algebra.Ring.Int.Defs
import Mathlib.Data.List.Basic
import Mathlib.Tactic.Common

/-!
# Regions of a memory

A memory has an element at every position. A list is read from the positions behind one another,
and written to them. What is written to a part of a region is spliced into what is read there, and
it is not seen in a region apart.
-/
namespace MiniChromium.Regions

variable {α : Type} {memory : ℤ → α} {first first' position : ℤ} {length total offset : ℕ}
  {values : List α}

/-- The elements at so many positions from the first one on. -/
def read (memory : ℤ → α) (first : ℤ) (length : ℕ) : List α :=
  (List.range length).map fun i : ℕ => memory (first + i)

/-- The memory with these elements from the first position on. -/
def write (memory : ℤ → α) (first : ℤ) (values : List α) (position : ℤ) : α :=
  if first ≤ position then values[(position - first).toNat]?.getD (memory position)
  else memory position

/-- A list with other elements from an offset on. -/
def splice (l : List α) (offset : ℕ) (values : List α) : List α :=
  l.take offset ++ (values ++ l.drop (offset + values.length))

@[simp]
theorem length_read (memory : ℤ → α) (first : ℤ) (length : ℕ) :
    (read memory first length).length = length := by
  simp [read]

theorem getElem?_read (memory : ℤ → α) (first : ℤ) (length i : ℕ) :
    (read memory first length)[i]? = if i < length then some (memory (first + i)) else none := by
  by_cases hi : i < length
  · simp [read, hi]
  · simp [read, hi]

@[simp]
theorem write_nil (memory : ℤ → α) (first : ℤ) : write memory first [] = memory := by
  funext position
  simp [write]

theorem write_apply (memory : ℤ → α) (first : ℤ) (values : List α) (i : ℤ) :
    write memory first values (first + i) =
      if 0 ≤ i then values[i.toNat]?.getD (memory (first + i)) else memory (first + i) := by
  rw [write, add_sub_cancel_left]
  by_cases hi : 0 ≤ i
  · rw [if_pos (by omega), if_pos hi]
  · rw [if_neg (by omega), if_neg hi]

/-- Outside of where it is written the memory stays. -/
theorem write_of_outside (h : position < first ∨ first + values.length ≤ position) :
    write memory first values position = memory position := by
  rw [write]
  split_ifs with hle
  · rw [List.getElem?_eq_none (by omega), Option.getD_none]
  · rfl

/-- One element. -/
theorem write_singleton (memory : ℤ → α) (first : ℤ) (value : α) :
    write memory first [value] = Function.update memory first value := by
  funext position
  by_cases hposition : position = first
  · simp [write, hposition]
  · rw [Function.update_of_ne hposition, write_of_outside]
    rw [List.length_singleton]
    omega

theorem read_congr {memory' : ℤ → α}
    (h : ∀ position, first ≤ position → position < first + length →
      memory' position = memory position) :
    read memory' first length = read memory first length := by
  refine List.map_congr_left fun i hi => ?_
  have hlt := List.mem_range.mp hi
  exact h _ (by omega) (by omega)

/-- What is written apart from a region is not read there. -/
theorem read_write_of_apart (h : first + length ≤ first' ∨ first' + values.length ≤ first) :
    read (write memory first' values) first length = read memory first length :=
  read_congr fun _ _ _ => write_of_outside (by omega)

theorem getElem?_splice (h : offset + values.length ≤ length) (l : List α) (hl : l.length = length)
    (i : ℕ) : (splice l offset values)[i]? =
      if offset ≤ i ∧ i < offset + values.length then values[i - offset]? else l[i]? := by
  rw [splice]
  rcases Nat.lt_or_ge i offset with hi | hi
  · rw [List.getElem?_append_left (by rw [List.length_take]; omega), List.getElem?_take_of_lt hi,
      if_neg (by omega)]
  · have htake : (l.take offset).length = offset := by rw [List.length_take]; omega
    rw [List.getElem?_append_right (by omega), htake]
    rcases Nat.lt_or_ge i (offset + values.length) with hlt | hge
    · rw [List.getElem?_append_left (by omega), if_pos ⟨hi, hlt⟩]
    · rw [List.getElem?_append_right (by omega), List.getElem?_drop, if_neg (by omega)]
      congr 1
      omega

/-- What is written to a part of a region is spliced into what is read there. -/
theorem read_write (h : offset + values.length ≤ length) :
    read (write memory (first + offset) values) first length =
      splice (read memory first length) offset values := by
  refine List.ext_getElem? fun i => ?_
  rw [getElem?_splice h _ (length_read ..), getElem?_read, getElem?_read]
  have hsplit : first + (i : ℤ) = first + offset + ((i : ℤ) - offset) := by omega
  by_cases hi : offset ≤ i ∧ i < offset + values.length
  · have hnat : ((i : ℤ) - offset).toNat = i - offset := by omega
    rw [if_pos (by omega), if_pos hi, hsplit, write_apply, if_pos (by omega), hnat,
      List.getElem?_eq_getElem (by omega), Option.getD_some]
  · rw [if_neg hi, write_of_outside (by omega)]

/-- A part of what is read in a region. -/
theorem read_part (h : offset + length ≤ total) :
    read memory (first + offset) length = ((read memory first total).drop offset).take length := by
  refine List.ext_getElem? fun i => ?_
  rw [getElem?_read, List.getElem?_take, List.getElem?_drop, getElem?_read]
  by_cases hi : i < length
  · rw [if_pos hi, if_pos hi, if_pos (by omega)]
    congr 2
    omega
  · rw [if_neg hi, if_neg hi]

theorem splice_all {l : List α} (h : l.length = values.length) : splice l 0 values = values := by
  rw [splice, List.take_zero, List.nil_append, Nat.zero_add, ← h, List.drop_length, List.append_nil]

theorem splice_singleton {l : List α} (h : offset < l.length) (value : α) :
    splice l offset [value] = l.set offset value := by
  rw [List.set_eq_take_append_cons_drop, if_pos h]
  rfl

end MiniChromium.Regions
