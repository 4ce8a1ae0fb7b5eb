import Mathlib.Data.List.DropRight
import Mathlib.Tactic.Common

/-!
# File paths

`FilePath` with its separators and drive letters, which are configured independently.
A code unit is a number, and a position in a string is an integer, with `npos` as -1: the
code adds to it and expects the result to be that of -1.
-/
namespace MiniChromium

/-- `FILE_PATH_USES_DRIVE_LETTERS` and `FILE_PATH_USES_WIN_SEPARATORS`. -/
structure FilePathConfig where
  usesDriveLetters : Bool
  usesWinSeparators : Bool

namespace FilePath

def posix : FilePathConfig := ⟨false, false⟩

def windows : FilePathConfig := ⟨true, true⟩

abbrev CharType := ℕ

abbrev StringType := List CharType

/-- `FILE_PATH_LITERAL`. -/
def literal (s : List Char) : StringType := s.map Char.toNat

/-- `StringType::npos`. -/
def npos : ℤ := -1

/-- `path[pos]`. -/
def charAt (path : StringType) (pos : ℤ) : CharType := path.getD pos.toNat 0

/-- `path.resize(n)`. -/
def resize (path : StringType) (n : ℤ) : StringType :=
  path.take n.toNat ++ List.replicate (n.toNat - path.length) 0

/-- `path.find_last_of(chars)`. -/
def findLastOf (chars : StringType) : StringType → ℤ
  | [] => npos
  | c :: path =>
    let last := findLastOf chars path
    if last = npos then if c ∈ chars then 0 else npos else last + 1

section Config

variable (config : FilePathConfig)

/-- `kSeparators`, without the NUL. -/
def kSeparators : StringType :=
  if config.usesWinSeparators then literal ['\\', '/'] else literal ['/']

/-- `kCurrentDirectory`. -/
def kCurrentDirectory : StringType := literal ['.']

/-- `IsSeparator`. -/
def isSeparator (character : CharType) : Bool := (kSeparators config).any (character == ·)

/-- `FindDriveLetter`. -/
def findDriveLetter : StringType → ℤ
  | letter :: colon :: _ =>
    if config.usesDriveLetters = true ∧ colon = ':'.toNat ∧
        ('A'.toNat ≤ letter ∧ letter ≤ 'Z'.toNat ∨ 'a'.toNat ≤ letter ∧ letter ≤ 'z'.toNat) then 1
    else npos
  | _ => npos

/-- The `for` loop of `StripTrailingSeparatorsInternal`, by the position. -/
def stripFrom (start : ℤ) : ℕ → ℤ → StringType → StringType
  | 0, _, path => path
  | pos + 1, lastStripped, path =>
    if (pos + 1 : ℤ) > start ∧ isSeparator config (charAt path pos) = true then
      if (pos + 1 : ℤ) ≠ start + 1 ∨ lastStripped = start + 2 ∨
          isSeparator config (charAt path (start - 1)) = false then
        stripFrom start pos (pos + 1) (resize path pos)
      else stripFrom start pos lastStripped path
    else path

/-- `StripTrailingSeparatorsInternal`. -/
def stripTrailingSeparatorsInternal (path : StringType) : StringType :=
  stripFrom config (findDriveLetter config path + 2) path.length npos path

/-- `DirName` up to the second stripping: the path is cut at its last separator. -/
def cutAtLastSeparator (path : StringType) : StringType :=
  let letter := findDriveLetter config path
  let lastSeparator := findLastOf (kSeparators config) path
  if lastSeparator = npos then resize path (letter + 1)
  else if lastSeparator = letter + 1 then resize path (letter + 2)
  else if lastSeparator = letter + 2 ∧ isSeparator config (charAt path (letter + 1)) = true then
    resize path (letter + 3)
  else if lastSeparator ≠ 0 then resize path lastSeparator
  else path

/-- `DirName` on the string of the path. -/
def dirNameString (path : StringType) : StringType :=
  let newPath := stripTrailingSeparatorsInternal config
    (cutAtLastSeparator config (stripTrailingSeparatorsInternal config path))
  if newPath.length = 0 then kCurrentDirectory else newPath

end Config

section Strings

variable {chars a b path path' : StringType} {c s : CharType}

@[simp] theorem charAt_append_cons : charAt (a ++ c :: b) a.length = c := by simp [charAt]

theorem resize_append : resize (a ++ b) a.length = a := by simp [resize]

theorem resize_eq {n : ℤ} (h : path = a ++ b) (hn : n = a.length) : resize path n = a := by
  rw [h, hn, resize_append]

theorem resize_isPrefix {n : ℤ} (h : n ≤ path.length) : resize path n <+: path := by
  have hpad : n.toNat - path.length = 0 := by omega
  rw [resize, hpad, List.replicate_zero, List.append_nil]
  exact List.take_prefix n.toNat path

theorem findLastOf_eq_npos (h : ∀ c ∈ path, c ∉ chars) : findLastOf chars path = npos := by
  induction path with
  | nil => rfl
  | cons c path ih =>
    obtain ⟨hc, h⟩ := List.forall_mem_cons.mp h
    simp [findLastOf, ih h, hc]

theorem findLastOf_append_cons (hs : s ∈ chars) (h : ∀ c ∈ b, c ∉ chars) :
    findLastOf chars (a ++ s :: b) = a.length := by
  induction a with
  | nil => simp [findLastOf, findLastOf_eq_npos h, hs]
  | cons c a ih =>
    have hne : (a.length : ℤ) ≠ npos := by
      rw [npos]
      omega
    simp [findLastOf, ih, hne]

theorem findLastOf_lt : findLastOf chars path < path.length := by
  induction path with
  | nil => exact Int.negSucc_lt_zero 0
  | cons c path ih =>
    simp only [findLastOf, List.length_cons, npos]
    split_ifs <;> omega

end Strings

section Drive

variable {config : FilePathConfig} {drive rest rest' path : StringType}

theorem mem_kSeparators_iff {c : CharType} :
    c ∈ kSeparators config ↔ isSeparator config c = true := by
  simp [isSeparator]

theorem eq_of_isSeparator {c : CharType} (h : isSeparator config c = true) :
    c = '/'.toNat ∨ c = '\\'.toNat := by
  rw [← mem_kSeparators_iff, kSeparators] at h
  split at h
  · simpa [literal, or_comm] using h
  · exact .inl (by simpa [literal] using h)

theorem isSeparator_dot : isSeparator config '.'.toNat = false := Bool.eq_false_iff.mpr fun h =>
  (eq_of_isSeparator h).elim (by decide) (by decide)

theorem findDriveLetter_cases (config : FilePathConfig) (path : StringType) :
    findDriveLetter config path = npos ∨ findDriveLetter config path = 1 ∧ 2 ≤ path.length := by
  unfold findDriveLetter
  split
  · split_ifs
    · exact .inr ⟨rfl, by simp⟩
    · exact .inl rfl
  · exact .inl rfl

/-- The path before the end of the drive letter specification. -/
def drivePrefix (config : FilePathConfig) (path : StringType) : StringType :=
  path.take (findDriveLetter config path + 1).toNat

/-- The path after the drive letter specification. -/
def afterDrive (config : FilePathConfig) (path : StringType) : StringType :=
  path.drop (findDriveLetter config path + 1).toNat

/-- The specification ends where `FindDriveLetter` says. -/
def IsDrive (config : FilePathConfig) (drive rest : StringType) : Prop :=
  findDriveLetter config (drive ++ rest) + 1 = drive.length

theorem isDrive_split (path : StringType) :
    IsDrive config (drivePrefix config path) (afterDrive config path) := by
  rw [IsDrive, drivePrefix, afterDrive, List.take_append_drop, List.length_take]
  obtain h | ⟨h, hlength⟩ := findDriveLetter_cases config path
  · simp [h, npos]
  · rw [h]
    omega

theorem drivePrefix_append_afterDrive (path : StringType) :
    drivePrefix config path ++ afterDrive config path = path := List.take_append_drop ..

theorem exists_isDrive (config : FilePathConfig) (path : StringType) :
    ∃ drive rest, IsDrive config drive rest ∧ drive ++ rest = path :=
  ⟨_, _, isDrive_split path, drivePrefix_append_afterDrive path⟩

theorem IsDrive.findDriveLetter_append (h : IsDrive config drive rest) :
    findDriveLetter config (drive ++ rest) = drive.length - 1 := by
  rw [IsDrive] at h
  omega

theorem IsDrive.drivePrefix_append (h : IsDrive config drive rest) :
    drivePrefix config (drive ++ rest) = drive := by
  rw [IsDrive] at h
  simp [drivePrefix, h]

theorem IsDrive.afterDrive_append (h : IsDrive config drive rest) :
    afterDrive config (drive ++ rest) = rest := by
  rw [IsDrive] at h
  simp [afterDrive, h]

/-- A drive letter specification is a letter and a colon. -/
theorem IsDrive.eq_nil_or (h : IsDrive config drive rest) :
    drive = [] ∨ config.usesDriveLetters = true ∧ ∃ letter, drive = [letter, ':'.toNat] ∧
      ('A'.toNat ≤ letter ∧ letter ≤ 'Z'.toNat ∨ 'a'.toNat ≤ letter ∧ letter ≤ 'z'.toNat) := by
  rw [IsDrive] at h
  match drive with
  | [] => exact .inl rfl
  | [c] =>
    obtain hc | ⟨hc, -⟩ := findDriveLetter_cases config ([c] ++ rest) <;> rw [hc] at h <;> cases h
  | letter :: colon :: drive =>
    simp only [List.cons_append, findDriveLetter, List.length_cons] at h
    split_ifs at h with hletter
    · obtain rfl : drive = [] := List.length_eq_zero_iff.mp (by omega)
      obtain ⟨huses, rfl, hletter⟩ := hletter
      exact .inr ⟨huses, letter, rfl, hletter⟩
    · rw [npos] at h
      omega

/-- Cutting the path behind the specification leaves it as it is. -/
theorem IsDrive.of_isPrefix (h : IsDrive config drive rest) (hp : rest' <+: rest) :
    IsDrive config drive rest' := by
  obtain ⟨tail, rfl⟩ := hp
  rw [IsDrive] at h ⊢
  match drive, rest' with
  | [], [] => rfl
  | [], [c] => rfl
  | [], c :: d :: rest' => exact h
  | [c], [] =>
    obtain hc | ⟨hc, -⟩ := findDriveLetter_cases config ([c] ++ ([] ++ tail)) <;>
      rw [hc] at h <;> cases h
  | [c], d :: rest' => exact h
  | c :: d :: drive, rest' => exact h

end Drive

section Strip

variable {config : FilePathConfig} {drive rest front seps path : StringType} {c s : CharType}
  {start last : ℤ}

theorem stripFrom_of_le {pos : ℕ} (h : pos ≤ start) :
    stripFrom config start pos last path = path := by
  cases pos with
  | zero => rfl
  | succ pos =>
    rw [stripFrom, if_neg]
    rintro ⟨hgt, -⟩
    push_cast at h
    omega

theorem stripFrom_isPrefix (pos : ℕ) (hpos : pos ≤ path.length) :
    stripFrom config start pos last path <+: path := by
  induction pos generalizing last path with
  | zero => exact List.prefix_rfl
  | succ pos ih =>
    have hresize : resize path pos <+: path := resize_isPrefix (by omega)
    have hlength : pos ≤ (resize path pos).length := by
      simp only [resize, List.length_append, List.length_take, List.length_replicate]
      omega
    rw [stripFrom]
    split_ifs
    · exact (ih hlength).trans hresize
    · exact ih (Nat.le_of_succ_le hpos)
    · exact List.prefix_rfl

theorem strip_isPrefix (path : StringType) :
    stripTrailingSeparatorsInternal config path <+: path := stripFrom_isPrefix _ le_rfl

/-- A path that ends in a separator at the position is cut there, if it has more than the
two separators that are kept. -/
theorem stripFrom_concat (hs : isSeparator config s = true) (hstart : start ≤ front.length)
    (hcut : (front.length + 1 : ℤ) ≠ start + 1 ∨ last = start + 2 ∨
      isSeparator config (charAt (front ++ [s]) (start - 1)) = false) :
    stripFrom config start (front.length + 1) last (front ++ [s]) =
      stripFrom config start front.length (front.length + 1) front := by
  rw [stripFrom, if_pos ⟨by omega, by rwa [charAt_append_cons]⟩, if_pos hcut, resize_append]

/-- The separators behind another character are removed. -/
theorem stripFrom_trailing (hc : isSeparator config c = false)
    (hle : start ≤ front.length + 1) (hseps : ∀ s ∈ seps, isSeparator config s = true) :
    stripFrom config start (front ++ c :: seps).length last (front ++ c :: seps) =
      front ++ [c] := by
  induction seps using List.reverseRecOn generalizing last with
  | nil => simp [stripFrom, hc]
  | append_singleton seps s ih =>
    obtain ⟨hseps, hs⟩ := List.forall_mem_append.mp hseps
    have hcons : front ++ c :: (seps ++ [s]) = (front ++ c :: seps) ++ [s] := by simp
    rw [hcons, List.length_append, List.length_singleton,
      stripFrom_concat (hs s (List.mem_singleton_self s)) (by simp; omega), ih hseps]
    by_cases hpos : ((front ++ c :: seps).length + 1 : ℤ) = start + 1
    · refine .inr (.inr ?_)
      have hfront : start - 1 = front.length := by
        simp only [List.length_append, List.length_cons] at hpos
        omega
      rw [List.append_assoc, List.cons_append, hfront, charAt_append_cons, hc]
    · exact .inl hpos

/-- Once three separators were seen, one is kept. -/
theorem stripFrom_separators (hs : ∀ x ∈ seps, isSeparator config x = true) :
    stripFrom config (drive.length + 1) (drive ++ s :: seps).length
      ((drive ++ s :: seps).length + 1) (drive ++ s :: seps) = drive ++ [s] := by
  induction seps using List.reverseRecOn with
  | nil => simp [stripFrom]
  | append_singleton seps x ih =>
    obtain ⟨hs, hx⟩ := List.forall_mem_append.mp hs
    have hcons : drive ++ s :: (seps ++ [x]) = (drive ++ s :: seps) ++ [x] := by simp
    have hstart : (drive.length + 1 : ℤ) ≤ (drive ++ s :: seps).length := by
      rw [List.length_append, List.length_cons]
      omega
    rw [hcons, List.length_append, List.length_singleton,
      stripFrom_concat (hx x (List.mem_singleton_self x)) hstart, ih hs]
    simp only [List.length_append, List.length_cons]
    omega

/-- What is left of the path after the drive letter: of separators alone the first, or
both if there are two. -/
def strippedRest (config : FilePathConfig) (rest : StringType) : StringType :=
  if rest.all (isSeparator config) then if rest.length = 2 then rest else rest.take 1
  else rest.rdropWhile (isSeparator config)

/-- Where a list of code units ends in one of some kind, the last other one stands
before these. -/
theorem exists_rdropWhile_concat {p : CharType → Bool} (h : rest.all p = false) :
    ∃ front c trailing, rest = front ++ c :: trailing ∧ p c = false ∧
      (∀ s ∈ trailing, p s = true) ∧ rest.rdropWhile p = front ++ [c] := by
  have hne : rest.rdropWhile p ≠ [] := fun hnil => by
    rw [List.rdropWhile_eq_nil_iff, ← List.all_eq_true, h] at hnil
    cases hnil
  have hlast := List.rdropWhile_last_not p rest hne
  refine ⟨(rest.rdropWhile p).dropLast, (rest.rdropWhile p).getLast hne, rest.rtakeWhile p,
    ?_, by simpa using hlast, fun s hs => List.mem_rtakeWhile_imp hs,
    (List.dropLast_append_getLast hne).symm⟩
  rw [← List.singleton_append, ← List.append_assoc, List.dropLast_append_getLast hne]
  exact (List.rdropWhile_append_rtakeWhile ..).symm

/-- Exactly two separators are kept: nothing was stripped before the second. -/
theorem stripFrom_two {t : CharType} (hs : isSeparator config s = true) :
    stripFrom config (drive.length + 1) (drive ++ [s, t]).length npos (drive ++ [s, t]) =
      drive ++ [s, t] := by
  have hfirst : charAt (drive ++ [s, t]) drive.length = s := charAt_append_cons
  have hnpos : npos ≠ (drive.length + 1 + 2 : ℤ) := by
    rw [npos]
    omega
  simp [stripFrom, hfirst, hs, hnpos]

theorem strip_append (h : IsDrive config drive rest) :
    stripTrailingSeparatorsInternal config (drive ++ rest) =
      drive ++ strippedRest config rest := by
  have hstart : findDriveLetter config (drive ++ rest) + 2 = drive.length + 1 := by
    rw [IsDrive] at h
    omega
  rw [stripTrailingSeparatorsInternal, hstart, strippedRest]
  split_ifs with hall hlength
  · obtain ⟨s, t, rfl⟩ := List.length_eq_two.mp hlength
    exact stripFrom_two (List.all_eq_true.mp hall s List.mem_cons_self)
  · match rest with
    | [] => exact stripFrom_of_le (by rw [List.append_nil]; omega)
    | [s] => exact stripFrom_of_le (by simp)
    | [s, t] => exact absurd rfl hlength
    | s :: t :: u :: seps =>
      -- the first of three or more separators to go is not the second one
      obtain ⟨front, x, hx⟩ := List.eq_nil_or_concat (u :: seps) |>.resolve_left nofun
      have hsep := List.all_eq_true.mp hall
      rw [hx, List.concat_eq_append] at hsep ⊢
      have hcons : drive ++ s :: t :: (front ++ [x]) = (drive ++ s :: t :: front) ++ [x] := by simp
      rw [hcons, List.length_append, List.length_singleton,
        stripFrom_concat (hsep x (by simp)) (by simp; omega) (.inl (by simp; omega))]
      exact stripFrom_separators fun y hy => hsep y (by simp at hy ⊢; tauto)
  · obtain ⟨front, c, trailing, rfl, hc, htrailing, hdrop⟩ :=
      exists_rdropWhile_concat (Bool.eq_false_iff.mpr hall)
    have hstart : (drive.length + 1 : ℤ) ≤ (drive ++ front).length + 1 := by
      rw [List.length_append]
      omega
    rw [hdrop, ← List.append_assoc, stripFrom_trailing hc hstart htrailing, List.append_assoc]

theorem strippedRest_isPrefix (config : FilePathConfig) (rest : StringType) :
    strippedRest config rest <+: rest := by
  unfold strippedRest
  split_ifs
  · exact List.prefix_rfl
  · exact List.take_prefix 1 rest
  · exact List.rdropWhile_prefix ..

/-- Stripping again strips nothing. -/
theorem strippedRest_strippedRest (config : FilePathConfig) (rest : StringType) :
    strippedRest config (strippedRest config rest) = strippedRest config rest := by
  cases hall : rest.all (isSeparator config) with
  | true =>
    match rest with
    | [] => rfl
    | [s] => simp_all [strippedRest]
    | [s, t] => simp_all [strippedRest]
    | s :: t :: u :: seps => simp_all [strippedRest]
  | false =>
    obtain ⟨front, c, trailing, -, hc, -, hdrop⟩ := exists_rdropWhile_concat hall
    have hfront : (front ++ [c]).all (isSeparator config) = false := by simp [hc]
    rw [strippedRest, strippedRest, hall, if_neg Bool.false_ne_true, hdrop, hfront,
      if_neg Bool.false_ne_true, List.rdropWhile_concat_neg _ _ _ (by simp [hc])]

theorem strip_strip (path : StringType) :
    stripTrailingSeparatorsInternal config (stripTrailingSeparatorsInternal config path) =
      stripTrailingSeparatorsInternal config path := by
  obtain ⟨drive, rest, hdrive, rfl⟩ := exists_isDrive config path
  rw [strip_append hdrive, strip_append (hdrive.of_isPrefix (strippedRest_isPrefix config rest)),
    strippedRest_strippedRest]

end Strip

/-- A prefix of a prefix of the path, or the current directory. -/
theorem cutAtLastSeparator_isPrefix (config : FilePathConfig) (path : StringType) :
    cutAtLastSeparator config path <+: path := by
  have hlast : findLastOf (kSeparators config) path < path.length := findLastOf_lt
  have hletter := findDriveLetter_cases config path
  unfold cutAtLastSeparator
  dsimp only
  split_ifs with hnone hroot halternate
  · exact resize_isPrefix (by rw [npos] at hletter; omega)
  · exact resize_isPrefix (by omega)
  · exact resize_isPrefix (by omega)
  · exact resize_isPrefix (Int.le_of_lt hlast)
  · exact List.prefix_rfl

theorem dirNameString_eq_or_isPrefix (config : FilePathConfig) (path : StringType) :
    dirNameString config path = kCurrentDirectory ∨ dirNameString config path <+: path := by
  unfold dirNameString
  dsimp only
  split_ifs
  · exact .inl rfl
  · exact .inr ((strip_isPrefix _).trans ((cutAtLastSeparator_isPrefix config _).trans
      (strip_isPrefix path)))

end FilePath

/-- A path; it holds no NUL. -/
structure FilePath where
  path : FilePath.StringType
  nulFree : 0 ∉ path

namespace FilePath

theorem ext_path {p q : FilePath} (h : p.path = q.path) : p = q := by
  cases p
  cases q
  cases h
  rfl

/-- The constructor cuts the string at its first NUL. -/
def ofString (path : StringType) : FilePath where
  path := path.takeWhile (· ≠ 0)
  nulFree h := by simpa using List.mem_takeWhile_imp h

/-- `DirName`. -/
def dirName (config : FilePathConfig) (p : FilePath) : FilePath where
  path := dirNameString config p.path
  nulFree h := by
    obtain hcurrent | hpre := dirNameString_eq_or_isPrefix config p.path
    · rw [hcurrent] at h
      exact absurd h (by decide)
    · exact p.nulFree (hpre.subset h)

theorem path_dirName (config : FilePathConfig) (p : FilePath) :
    (dirName config p).path = dirNameString config p.path := rfl

end FilePath

end MiniChromium
