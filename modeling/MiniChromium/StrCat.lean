import MiniChromium.IntegralType

/-!
# Concatenation

`StrAppendT` adds up the lengths of its pieces in a `size_t`, resizes the string once, and then
copies one piece behind the other without a look at the end of the string. The pieces are views
of other strings, of which several may be the same.
-/
namespace MiniChromium.StrCat

open IntegralType MiniChromium.Num

/-- How appending ends; the last but one is a write behind the end of the string. -/
inductive Outcome (α : Type)
  | lengthError
  | outOfBounds
  | done (dest : List α)

section Code

variable {α : Type}

/-- `total_size`. -/
def totalSize (initialSize : ℕ) (pieces : List (List α)) : Num .uint64 :=
  pieces.foldl (fun totalSize cur => staticCast .uint64 (totalSize.val + cur.length))
    (staticCast .uint64 initialSize)

/-- `Resize`. What new characters are is left open. -/
def resize (fresh : ℕ → α) (str : List α) (totalSize : ℕ) : List α :=
  str.take totalSize ++ (List.range (totalSize - str.length)).map fresh

/-- The loop that copies the pieces, from `dest_char` on. -/
def copyPieces : List (List α) → ℕ → List α → Option (List α)
  | [], _, dest => some dest
  | cur :: pieces, destChar, dest =>
    if destChar + cur.length ≤ dest.length then
      copyPieces pieces (destChar + cur.length)
        (dest.take destChar ++ cur ++ dest.drop (destChar + cur.length))
    else none

/-- `StrAppendT`, where no string is longer than `max_size()`. -/
def strAppendT (maxSize : ℕ) (fresh : ℕ → α) (dest : List α) (pieces : List (List α)) : Outcome α :=
  let total := (totalSize dest.length pieces).val.toNat
  if total > maxSize then .lengthError
  else if dest.length ≤ total then
    match copyPieces pieces dest.length (resize fresh dest total) with
    | none => .outOfBounds
    | some dest => .done dest
  else .outOfBounds

/-- `StrCatT`. -/
def strCatT (maxSize : ℕ) (fresh : ℕ → α) (pieces : List (List α)) : Outcome α :=
  strAppendT maxSize fresh [] pieces

end Code

variable {α : Type} {fresh : ℕ → α} {dest front rest : List α} {pieces : List (List α)}

theorem totalSize_eq (initialSize : ℕ) (pieces : List (List α)) :
    totalSize initialSize pieces =
      staticCast .uint64 ((initialSize + pieces.flatten.length : ℕ) : ℤ) := by
  rw [totalSize]
  induction pieces generalizing initialSize with
  | nil => rfl
  | cons cur pieces ih =>
    have hfirst : staticCast .uint64 ((staticCast .uint64 initialSize).val + cur.length) =
        staticCast .uint64 ((initialSize + cur.length : ℕ) : ℤ) := by
      push_cast
      exact staticCast_congr ((staticCast_modEq .uint64 initialSize).add_right _)
    rw [List.foldl_cons, hfirst, ih, List.flatten_cons, List.length_append, Nat.add_assoc]

/-- The sum of the lengths, as it wraps. -/
theorem totalSize_toNat (initialSize : ℕ) (pieces : List (List α)) :
    (totalSize initialSize pieces).val.toNat =
      (initialSize + pieces.flatten.length) % 2 ^ 64 := by
  have hmod := staticCast_modEq .uint64 ((initialSize + pieces.flatten.length : ℕ) : ℤ)
  rw [← totalSize_eq, Int.ModEq] at hmod
  have hmodulus : IntegralType.uint64.modulus = 2 ^ 64 := by decide
  have hmax : IntegralType.uint64.max = 2 ^ 64 - 1 := by decide
  have hnonneg := (totalSize initialSize pieces).nonneg rfl
  have hle := (totalSize initialSize pieces).le_max
  rw [hmodulus] at hmod
  omega

/-- The pieces fit exactly if they are as long as what is behind the first characters, or
shorter. -/
theorem copyPieces_eq (pieces : List (List α)) (front rest : List α) :
    copyPieces pieces front.length (front ++ rest) =
      if pieces.flatten.length ≤ rest.length then
        some (front ++ pieces.flatten ++ rest.drop pieces.flatten.length)
      else none := by
  induction pieces generalizing front rest with
  | nil => simp [copyPieces]
  | cons cur pieces ih =>
    rw [copyPieces, List.flatten_cons, List.length_append, List.length_append]
    by_cases hcur : cur.length ≤ rest.length
    · have hrest : (front ++ rest).take front.length ++ cur ++
          (front ++ rest).drop (front.length + cur.length) =
          front ++ cur ++ rest.drop cur.length := by
        rw [List.take_left, List.drop_append, List.drop_eq_nil_of_le (by omega), List.nil_append,
          Nat.add_sub_cancel_left]
      have hlength : front.length + cur.length = (front ++ cur).length := List.length_append.symm
      rw [if_pos (by omega), hrest, hlength, ih, List.length_drop, List.drop_drop]
      by_cases hfits : pieces.flatten.length ≤ rest.length - cur.length
      · rw [if_pos hfits, if_pos (by omega)]
        simp only [List.append_assoc]
      · rw [if_neg hfits, if_neg (by omega)]
    · rw [if_neg (by omega), if_neg (by omega)]

/-- The string is what it was with all pieces behind it, unless that is too long: a sum of the
lengths that no string may have raises an error, and where the sum wraps to one that a string
may have, pieces are written behind the end. -/
theorem strAppendT_eq (maxSize : ℕ) (fresh : ℕ → α) (dest : List α) (pieces : List (List α)) :
    strAppendT maxSize fresh dest pieces =
      if (dest ++ pieces.flatten).length % 2 ^ 64 > maxSize then .lengthError
      else if (dest ++ pieces.flatten).length < 2 ^ 64 then .done (dest ++ pieces.flatten)
      else .outOfBounds := by
  rw [strAppendT, totalSize_toNat, List.length_append]
  set exact := dest.length + pieces.flatten.length with hexact
  by_cases hlong : exact % 2 ^ 64 > maxSize
  · rw [if_pos hlong, if_pos hlong]
  rw [if_neg hlong, if_neg hlong]
  by_cases hroom : dest.length ≤ exact % 2 ^ 64
  · have hresize : resize fresh dest (exact % 2 ^ 64) =
        dest ++ (List.range (exact % 2 ^ 64 - dest.length)).map fresh := by
      rw [resize, List.take_of_length_le hroom]
    rw [if_pos hroom, hresize, copyPieces_eq, List.length_map, List.length_range]
    by_cases hfits : exact < 2 ^ 64
    · rw [Nat.mod_eq_of_lt hfits, if_pos (by omega), if_pos hfits,
        List.drop_eq_nil_of_le (by rw [List.length_map, List.length_range]; omega), List.append_nil]
    · have hless := Nat.mod_lt exact (Nat.two_pow_pos 64)
      rw [if_neg (by omega), if_neg hfits]
  · have hfits : ¬exact < 2 ^ 64 := fun hfits => hroom (by rw [Nat.mod_eq_of_lt hfits]; omega)
    rw [if_neg hroom, if_neg hfits]

example : strCatT 100 (fun _ => 'x') [['a', 'b'], [], ['c']] = .done ['a', 'b', 'c'] := by
  rfl

end MiniChromium.StrCat
