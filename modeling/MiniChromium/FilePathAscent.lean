import MiniChromium.FilePathRoots
import Mathlib.Logic.Function.Iterate

/-!
# The way up

The directory name of a path is shorter than the path, or it is the current directory, or the
path is a root and stays the same.
-/
namespace MiniChromium.FilePath

/-- The current directory, one or two separators, or a drive letter with two at most. -/
def IsTop (config : FilePathConfig) (path : StringType) : Prop :=
  path = kCurrentDirectory ∨ ∃ drive root, path = drive ++ root ∧
    (∀ c ∈ root, isSeparator config c = true) ∧ root.length ≤ 2 ∧
    (drive = [] ∧ root ≠ [] ∨ config.usesDriveLetters = true ∧ ∃ letter,
      drive = [letter, ':'.toNat] ∧
        ('A'.toNat ≤ letter ∧ letter ≤ 'Z'.toNat ∨ 'a'.toNat ≤ letter ∧ letter ≤ 'z'.toNat))

variable {config : FilePathConfig} {drive rest front component trailing path : StringType}

theorem isTop_append (hdrive : IsDrive config drive rest)
    (hall : rest.all (isSeparator config) = true) (hlength : rest.length ≤ 2)
    (hne : drive ++ rest ≠ []) : IsTop config (drive ++ rest) := by
  refine .inr ⟨drive, rest, rfl, List.all_eq_true.mp hall, hlength, ?_⟩
  obtain rfl | hletter := hdrive.eq_nil_or
  · exact .inl ⟨rfl, hne⟩
  · exact .inr hletter

/-- A path without a component: its separators are stripped. -/
theorem dirNameString_of_all (hdrive : IsDrive config drive rest)
    (hall : rest.all (isSeparator config) = true) :
    dirNameString config (drive ++ rest) =
      if drive ++ strippedRest config rest = [] then kCurrentDirectory
      else drive ++ strippedRest config rest := by
  obtain ⟨hfront, hcut⟩ := strippedRest_of_all hall
  have hname := (dirNameString_append hdrive (List.append_nil _).symm hfront nofun).2
  rwa [hcut, strippedRest_strippedRest] at hname

theorem dirNameString_kCurrentDirectory (config : FilePathConfig) :
    dirNameString config kCurrentDirectory = kCurrentDirectory := by
  obtain ⟨usesDriveLetters, usesWinSeparators⟩ := config
  cases usesDriveLetters <;> cases usesWinSeparators <;> rfl

/-- One step up. -/
theorem dirNameString_step (config : FilePathConfig) (path : StringType) :
    (dirNameString config path = path ∧ IsTop config path) ∨
      dirNameString config path = kCurrentDirectory ∨
      (dirNameString config path).length < path.length := by
  obtain ⟨drive, rest, hdrive, rfl⟩ := exists_isDrive config path
  cases hall : rest.all (isSeparator config) with
  | true =>
    rw [dirNameString_of_all hdrive hall]
    split_ifs with hempty
    · exact .inr (.inl rfl)
    · obtain heq | hlt := (strippedRest_isPrefix config rest).length_le.eq_or_lt
      · have hsame := (strippedRest_isPrefix config rest).eq_of_length heq
        have hlength := length_strippedRest_le hall
        rw [hsame] at hempty hlength ⊢
        exact .inl ⟨rfl, isTop_append hdrive hall hlength hempty⟩
      · refine .inr (.inr ?_)
        rw [List.length_append, List.length_append]
        omega
  | false =>
    obtain ⟨front, component, trailing, h⟩ := exists_lastComponent hall
    rw [(dirNameString_append hdrive h.strippedRest h.front_eq h.not_separator).2]
    split_ifs with hempty
    · exact .inr (.inl rfl)
    · have hdir :=
        ((strippedRest_isPrefix config _).trans (cutRest_isPrefix config front)).length_le
      have hcomponent := List.length_pos_of_ne_nil h.component_ne
      refine .inr (.inr ?_)
      rw [h.split]
      simp only [List.length_append]
      omega

/-- Whoever goes up from a path comes to a top, in no more steps than the path has characters
and one more. -/
theorem dirName_iterate (config : FilePathConfig) (p : FilePath) :
    ∃ k ≤ p.path.length + 1,
      dirName config ((dirName config)^[k] p) = (dirName config)^[k] p ∧
        IsTop config ((dirName config)^[k] p).path := by
  induction hn : p.path.length using Nat.strong_induction_on generalizing p with
  | h n ih =>
    have hstep := dirNameString_step config p.path
    rw [← path_dirName] at hstep
    obtain ⟨hfixed, htop⟩ | hcurrent | hshorter := hstep
    · exact ⟨0, Nat.zero_le _, ext_path hfixed, htop⟩
    · have htwice : (dirName config (dirName config p)).path = (dirName config p).path := by
        rw [path_dirName, hcurrent, dirNameString_kCurrentDirectory]
      refine ⟨1, Nat.le_add_left 1 n, ?_⟩
      rw [Function.iterate_one]
      exact ⟨ext_path htwice, .inl hcurrent⟩
    · obtain ⟨k, hk, hend⟩ :=
        ih (dirName config p).path.length (hn ▸ hshorter) (dirName config p) rfl
      refine ⟨k + 1, by omega, ?_⟩
      rw [Function.iterate_succ_apply]
      exact hend

example : ((dirName windows)^[2] (ofString (literal ['C', ':', '\\', 'a', '/', 'b']))).path =
    literal ['C', ':', '\\'] := by decide

end MiniChromium.FilePath
