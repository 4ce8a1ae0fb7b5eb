import MiniChromium.FilePath
import Mathlib.Data.List.Lex
import Mathlib.Order.Lattice

/-!
# Equality and order of paths

`operator==` folds the case of the drive letter and `operator<` compares the strings as they
are. A set or a map takes two paths for one when neither is less.
-/
namespace MiniChromium.FilePath

section Code

variable (config : FilePathConfig)

/-- `::tolower`, in the C locale. -/
def tolower (c : CharType) : CharType :=
  if 'A'.toNat ≤ c ∧ c ≤ 'Z'.toNat then c - 'A'.toNat + 'a'.toNat else c

/-- `EqualDriveLetterCaseInsensitive`. -/
def equalDriveLetterCaseInsensitive (a b : StringType) : Bool :=
  let aLetterPos := findDriveLetter config a
  let bLetterPos := findDriveLetter config b
  if aLetterPos = npos ∨ bLetterPos = npos then a == b
  else if tolower (charAt a 0) ≠ tolower (charAt b 0) then false
  else
    let aRest := a.drop (aLetterPos + 1).toNat
    let bRest := b.drop (bLetterPos + 1).toNat
    aRest == bRest

/-- `operator==`. -/
def operatorEq (p that : FilePath) : Bool :=
  if config.usesDriveLetters then equalDriveLetterCaseInsensitive config p.path that.path
  else p.path == that.path

/-- `operator!=`. -/
def operatorNe (p that : FilePath) : Bool :=
  if config.usesDriveLetters then !equalDriveLetterCaseInsensitive config p.path that.path
  else p.path != that.path

/-- `operator<`. -/
def operatorLt (p that : FilePath) : Bool := decide (p.path < that.path)

/-- The paths are one but for the case of their drive letters. -/
def DiffersInDriveLetterCase (p q : FilePath) : Prop :=
  config.usesDriveLetters = true ∧ ∃ letter letter' rest,
    p.path = letter :: ':'.toNat :: rest ∧ q.path = letter' :: ':'.toNat :: rest ∧
      letter ≠ letter' ∧ tolower letter = tolower letter'

/-- The string with its drive letter, if any, in lower case. -/
def foldDriveLetter (path : StringType) : StringType :=
  (drivePrefix config path).map tolower ++ afterDrive config path

end Code

section Order

variable {α : Type*} [LinearOrder α] {x y : α} {r : Prop}

def ExactlyOne (p q r : Prop) : Prop := p ∧ ¬ q ∧ ¬ r ∨ ¬ p ∧ q ∧ ¬ r ∨ ¬ p ∧ ¬ q ∧ r

theorem exactlyOne_iff (h : x = y → r) : ExactlyOne (x < y) (y < x) r ↔ (r → x = y) := by
  obtain hlt | heq | hgt := lt_trichotomy x y
  · simp [ExactlyOne, hlt, hlt.not_gt, hlt.ne]
  · simp [ExactlyOne, heq, h heq]
  · simp [ExactlyOne, hgt, hgt.not_gt, hgt.ne']

theorem neither_less_iff (h : x = y → r) : (¬ x < y ∧ ¬ y < x ↔ r) ↔ (r → x = y) := by
  rw [not_lt, not_lt, and_comm, ← le_antisymm_iff]
  exact ⟨Iff.mpr, Iff.intro h⟩

end Order

section Fold

variable {config : FilePathConfig} {drive rest drive' rest' : StringType}

theorem tolower_isLetter {letter : CharType}
    (h : 'A'.toNat ≤ letter ∧ letter ≤ 'Z'.toNat ∨ 'a'.toNat ≤ letter ∧ letter ≤ 'z'.toNat) :
    'a'.toNat ≤ tolower letter ∧ tolower letter ≤ 'z'.toNat := by
  unfold tolower
  simp only [Char.reduceToNat, CharType] at h ⊢
  split_ifs <;> omega

/-- Only a letter has another case. -/
theorem isLetter_of_tolower_eq {letter letter' : CharType} (hne : letter ≠ letter')
    (h : tolower letter = tolower letter') :
    'A'.toNat ≤ letter ∧ letter ≤ 'Z'.toNat ∨ 'a'.toNat ≤ letter ∧ letter ≤ 'z'.toNat := by
  unfold tolower at h
  simp only [Char.reduceToNat, CharType] at h hne ⊢
  split_ifs at h <;> omega

theorem isDrive_letter {letter : CharType} (huses : config.usesDriveLetters = true)
    (h : 'A'.toNat ≤ letter ∧ letter ≤ 'Z'.toNat ∨ 'a'.toNat ≤ letter ∧ letter ≤ 'z'.toNat)
    (rest : StringType) : IsDrive config [letter, ':'.toNat] rest := by
  rw [IsDrive, List.cons_append, List.cons_append, findDriveLetter, if_pos ⟨huses, rfl, h⟩]
  rfl

/-- The string tells where its drive letter specification ends. -/
theorem IsDrive.append_eq_append_iff (h : IsDrive config drive rest)
    (h' : IsDrive config drive' rest') :
    drive ++ rest = drive' ++ rest' ↔ drive = drive' ∧ rest = rest' := by
  constructor
  · intro heq
    have hdrive := h.drivePrefix_append
    have hrest := h.afterDrive_append
    rw [heq, h'.drivePrefix_append] at hdrive
    rw [heq, h'.afterDrive_append] at hrest
    exact ⟨hdrive.symm, hrest.symm⟩
  · rintro ⟨rfl, rfl⟩
    rfl

/-- Folding leaves a drive letter specification one. -/
theorem IsDrive.map_tolower (h : IsDrive config drive rest) :
    IsDrive config (drive.map tolower) rest := by
  obtain rfl | ⟨huses, letter, rfl, hletter⟩ := h.eq_nil_or
  · exact h
  · exact isDrive_letter huses (.inr (tolower_isLetter hletter)) rest

theorem IsDrive.foldDriveLetter_append (h : IsDrive config drive rest) :
    foldDriveLetter config (drive ++ rest) = drive.map tolower ++ rest := by
  rw [foldDriveLetter, h.drivePrefix_append, h.afterDrive_append]

theorem foldDriveLetter_eq_iff (h : IsDrive config drive rest)
    (h' : IsDrive config drive' rest') :
    foldDriveLetter config (drive ++ rest) = foldDriveLetter config (drive' ++ rest') ↔
      drive.map tolower = drive'.map tolower ∧ rest = rest' := by
  rw [h.foldDriveLetter_append, h'.foldDriveLetter_append]
  exact h.map_tolower.append_eq_append_iff h'.map_tolower

/-- A path without a drive letter is equal to itself alone. -/
theorem foldDriveLetter_eq_iff_eq (h : IsDrive config drive rest)
    (h' : IsDrive config drive' rest') (hnil : drive = [] ∨ drive' = []) :
    foldDriveLetter config (drive ++ rest) = foldDriveLetter config (drive' ++ rest') ↔
      drive ++ rest = drive' ++ rest' := by
  rw [foldDriveLetter_eq_iff h h', h.append_eq_append_iff h']
  apply and_congr_left'
  obtain rfl | rfl := hnil
  · rw [List.map_nil, List.nil_eq, List.nil_eq, List.map_eq_nil_iff]
  · rw [List.map_nil, List.map_eq_nil_iff]

theorem foldDriveLetter_of_not_usesDriveLetters (h : config.usesDriveLetters = false)
    (path : StringType) : foldDriveLetter config path = path := by
  obtain ⟨drive, rest, hdrive, rfl⟩ := exists_isDrive config path
  obtain rfl | ⟨huses, -⟩ := hdrive.eq_nil_or
  · exact hdrive.foldDriveLetter_append
  · simp [h] at huses

theorem equalDriveLetterCaseInsensitive_iff (a b : StringType) :
    equalDriveLetterCaseInsensitive config a b = true ↔
      foldDriveLetter config a = foldDriveLetter config b := by
  obtain ⟨drive, rest, h, rfl⟩ := exists_isDrive config a
  obtain ⟨drive', rest', h', rfl⟩ := exists_isDrive config b
  rw [equalDriveLetterCaseInsensitive, h.findDriveLetter_append, h'.findDriveLetter_append]
  obtain rfl | ⟨-, letter, rfl, -⟩ := h.eq_nil_or
  · simpa [npos] using (foldDriveLetter_eq_iff_eq h h' (.inl rfl)).symm
  obtain rfl | ⟨-, letter', rfl, -⟩ := h'.eq_nil_or
  · simpa [npos] using (foldDriveLetter_eq_iff_eq h h' (.inr rfl)).symm
  rw [foldDriveLetter_eq_iff h h']
  by_cases hlower : tolower letter = tolower letter'
  · simp [npos, charAt, hlower]
  · simp [npos, charAt, hlower]

theorem operatorEq_iff_foldDriveLetter (p q : FilePath) :
    operatorEq config p q = true ↔
      foldDriveLetter config p.path = foldDriveLetter config q.path := by
  rw [operatorEq]
  split_ifs with huses
  · exact equalDriveLetterCaseInsensitive_iff p.path q.path
  · rw [Bool.not_eq_true] at huses
    simp [foldDriveLetter_of_not_usesDriveLetters huses]

/-- Equal paths are one string, or differ in the case of the drive letter. -/
theorem operatorEq_iff (p q : FilePath) :
    operatorEq config p q = true ↔ p.path = q.path ∨ DiffersInDriveLetterCase config p q := by
  rw [operatorEq_iff_foldDriveLetter]
  constructor
  · intro h
    obtain ⟨drive, rest, hp, hpath⟩ := exists_isDrive config p.path
    obtain ⟨drive', rest', hq, hpath'⟩ := exists_isDrive config q.path
    rw [← hpath, ← hpath'] at h
    obtain rfl | ⟨huses, letter, rfl, -⟩ := hp.eq_nil_or
    · left
      rwa [foldDriveLetter_eq_iff_eq hp hq (.inl rfl), hpath, hpath'] at h
    obtain rfl | ⟨-, letter', rfl, -⟩ := hq.eq_nil_or
    · left
      rwa [foldDriveLetter_eq_iff_eq hp hq (.inr rfl), hpath, hpath'] at h
    obtain ⟨hdrive, rfl⟩ := (foldDriveLetter_eq_iff hp hq).mp h
    by_cases hletter : letter = letter'
    · left
      rw [← hpath, ← hpath', hletter]
    · have hlower : tolower letter = tolower letter' := by simpa using hdrive
      exact .inr ⟨huses, letter, letter', rest, hpath.symm, hpath'.symm, hletter, hlower⟩
  · rintro (h | ⟨huses, letter, letter', rest, hpath, hpath', hletter, hlower⟩)
    · rw [h]
    · have hdrive := isDrive_letter huses (isLetter_of_tolower_eq hletter hlower) rest
      have hdrive' :=
        isDrive_letter huses (isLetter_of_tolower_eq hletter.symm hlower.symm) rest
      rw [hpath, hpath']
      apply (foldDriveLetter_eq_iff hdrive hdrive').mpr
      simp [hlower]

theorem equivalence_operatorEq (config : FilePathConfig) :
    Equivalence (fun p q : FilePath => operatorEq config p q = true) := by
  simp only [operatorEq_iff_foldDriveLetter]
  exact eq_equivalence.comap fun p : FilePath => foldDriveLetter config p.path

theorem operatorNe_eq_not (config : FilePathConfig) (p q : FilePath) :
    operatorNe config p q = !operatorEq config p q := by
  rw [operatorNe, operatorEq]
  split_ifs <;> rfl

theorem operatorLt_iff (p q : FilePath) : operatorLt p q = true ↔ p.path < q.path :=
  decide_eq_true_iff

/-- Equality goes beyond the strings where the drive letters differ in case, and there alone. -/
theorem path_eq_of_operatorEq_iff (config : FilePathConfig) (p q : FilePath) :
    (operatorEq config p q = true → p.path = q.path) ↔ ¬ DiffersInDriveLetterCase config p q := by
  rw [operatorEq_iff]
  constructor
  · intro h hdiffers
    have hpath := h (.inr hdiffers)
    obtain ⟨-, letter, letter', rest, hp, hq, hletter, -⟩ := hdiffers
    rw [hp, hq, List.cons.injEq] at hpath
    exact hletter hpath.1
  · rintro hsame (h | hdiffers)
    · exact h
    · exact absurd hdiffers hsame

/-- `operator==` is an equivalence with `operator!=` its negation, and the order agrees with it
on the paths that do not differ in the case of their drive letters alone: exactly one of
less, greater and equal holds, and what an ordered container takes for one path is equal. -/
theorem operators_consistent_iff (config : FilePathConfig) :
    Equivalence (fun p q : FilePath => operatorEq config p q = true) ∧
      (∀ p q, operatorNe config p q = !operatorEq config p q) ∧
      ∀ p q,
        (ExactlyOne (operatorLt p q = true) (operatorLt q p = true)
            (operatorEq config p q = true) ↔ ¬ DiffersInDriveLetterCase config p q) ∧
          ((¬ operatorLt p q = true ∧ ¬ operatorLt q p = true ↔ operatorEq config p q = true) ↔
            ¬ DiffersInDriveLetterCase config p q) := by
  refine ⟨equivalence_operatorEq config, operatorNe_eq_not config, fun p q => ?_⟩
  have heq : p.path = q.path → operatorEq config p q = true := fun h =>
    (operatorEq_iff p q).mpr (.inl h)
  simp only [operatorLt_iff]
  rw [← path_eq_of_operatorEq_iff]
  constructor
  · exact exactlyOne_iff heq
  · exact neither_less_iff heq

/-- `C:a` and `c:a` are equal, and the first is less. -/
theorem operators_inconsistent_drive_case : ¬ ∀ (config : FilePathConfig) (p q : FilePath),
    ExactlyOne (operatorLt p q = true) (operatorLt q p = true) (operatorEq config p q = true) := by
  intro h
  have hone := h windows (ofString (literal ['C', ':', 'a'])) (ofString (literal ['c', ':', 'a']))
  revert hone
  unfold ExactlyOne
  decide

end Fold

end MiniChromium.FilePath
