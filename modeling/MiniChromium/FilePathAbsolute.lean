import MiniChromium.FilePathComponents

/-!
# Absolute paths

A path is absolute by the separators at its front: one is enough behind a drive letter, and
where there are no drive letters; otherwise it takes two. Stripping and appending keep or lose
separators for reasons of their own.
-/
namespace MiniChromium.FilePath

/-- `IsAbsolute`. -/
def isAbsolute (config : FilePathConfig) (p : FilePath) : Bool := isPathAbsolute config p.path

/-- How many separators behind the drive letter make a path absolute. -/
def rootLength (config : FilePathConfig) (drive : StringType) : ℕ :=
  if config.usesDriveLetters = true ∧ drive = [] then 2 else 1

section Conditions

variable (config : FilePathConfig)

/-- Without a drive letter where there are some: at least three separators alone, or at least
four before one component. -/
def HasLongRoot (path : StringType) : Prop :=
  config.usesDriveLetters = true ∧ drivePrefix config path = [] ∧
    (components config path).length ≤ 1 ∧
    3 + (components config path).length ≤ leadingSeparators config (afterDrive config path)

/-- Where there are drive letters: a drive letter alone or one separator alone, before a
separator; or at least three separators alone, before none. -/
def JoinMovesRoot (path appended : StringType) : Prop :=
  config.usesDriveLetters = true ∧ components config path = [] ∧
    (drivePrefix config path ≠ [] ∧ afterDrive config path = [] ∧
        0 < leadingSeparators config appended ∨
      drivePrefix config path = [] ∧
        (leadingSeparators config (afterDrive config path) = 1 ∧
            0 < leadingSeparators config appended ∨
          3 ≤ leadingSeparators config (afterDrive config path) ∧
            leadingSeparators config appended = 0))

end Conditions

variable {config : FilePathConfig} {drive rest rest' front component trailing path appended :
  StringType}

theorem leadingSeparators_cons (c : CharType) (rest : StringType) :
    leadingSeparators config (c :: rest) =
      if isSeparator config c = true then leadingSeparators config rest + 1 else 0 := by
  unfold leadingSeparators
  cases h : isSeparator config c <;> simp [h]

/-- `IsPathAbsolute` counts the separators behind the drive letter. -/
theorem isPathAbsolute_append (h : IsDrive config drive rest) :
    isPathAbsolute config (drive ++ rest) =
      decide (rootLength config drive ≤ leadingSeparators config rest) := by
  rw [IsDrive] at h
  unfold isPathAbsolute
  obtain rfl | ⟨huses, letter, rfl, -⟩ := IsDrive.eq_nil_or h
  · have hnone : findDriveLetter config ([] ++ rest) = npos := by
      rw [npos]
      rw [List.length_nil] at h
      omega
    rw [hnone, rootLength]
    cases huses : config.usesDriveLetters with
    | true =>
      cases rest with
      | nil => rfl
      | cons c rest =>
        cases rest with
        | nil => cases hc : isSeparator config c <;> simp [leadingSeparators, hc]
        | cons d rest =>
          cases hc : isSeparator config c <;> cases hd : isSeparator config d <;>
            simp [leadingSeparators_cons, charAt, hc, hd]
    | false =>
      cases rest with
      | nil => rfl
      | cons c rest =>
        cases hc : isSeparator config c <;> simp [leadingSeparators_cons, charAt, hc]
  · have hone : findDriveLetter config ([letter, ':'.toNat] ++ rest) = 1 := by
      simp only [List.length_cons, List.length_nil] at h
      omega
    rw [hone, rootLength, huses]
    cases rest with
    | nil => rfl
    | cons c rest =>
      have hlength : (2 : ℤ) < rest.length + 1 + 1 + 1 := by omega
      cases hc : isSeparator config c <;> simp [leadingSeparators_cons, charAt, npos, hc, hlength]

/-- The current directory is relative, like nothing at all. -/
theorem isPathAbsolute_dirNameString (hdrive : IsDrive config drive rest)
    (hrest : strippedRest config rest = front ++ component)
    (hfront : front = [] ∨ ∃ f s, front = f ++ [s] ∧ isSeparator config s = true)
    (hcomponent : ∀ c ∈ component, isSeparator config c = false) :
    isPathAbsolute config (dirNameString config (drive ++ rest)) =
      decide (rootLength config drive ≤
        leadingSeparators config (strippedRest config (cutRest config front))) := by
  obtain ⟨hdir, hname⟩ := dirNameString_append hdrive hrest hfront hcomponent
  rw [hname]
  split_ifs with hempty
  · obtain ⟨rfl, hnil⟩ := List.append_eq_nil_iff.mp hempty
    have hdot : ∀ c ∈ kCurrentDirectory, isSeparator config c = false := fun c hc => by
      rw [List.mem_singleton.mp hc, isSeparator_dot]
    rw [isPathAbsolute_component hdot, hnil, rootLength]
    split_ifs <;> rfl
  · exact isPathAbsolute_append hdir

/-- Before one component three separators become two, and more become one. -/
theorem leadingSeparators_dir (h : LastComponent config rest front component trailing) :
    leadingSeparators config (strippedRest config (cutRest config front)) =
      if front.all (isSeparator config) = true ∧ 3 ≤ front.length then
        if front.length = 3 then 2 else 1
      else leadingSeparators config rest := by
  rw [leadingSeparators_strippedRest]
  cases hall : front.all (isSeparator config) with
  | true =>
    have hcut := all_of_isPrefix hall (cutRest_isPrefix config front)
    rw [h.leadingSeparators_eq hall, hcut, leadingSeparators_of_all hcut, cutRest, hall]
    simp only [and_true, true_and]
    by_cases htwo : front.length ≤ 2
    · rw [if_pos htwo]
      split_ifs <;> omega
    · rw [if_neg htwo, List.length_dropLast]
      split_ifs <;> omega
  | false =>
    obtain rfl | ⟨f, s, rfl, hs⟩ := h.front_eq
    · cases hall
    · have hf : f.all (isSeparator config) = false := by simpa [hs] using hall
      have hcut : cutRest config (f ++ [s]) = f := by
        rw [cutRest, hall, if_neg (by simp), List.dropLast_concat]
      rw [hcut, hf, if_neg (by simp), if_neg (by simp), h.split, List.append_assoc,
        List.append_assoc, leadingSeparators_append hf]

/-- Two counts of separators make a root or not together, unless a root takes two. -/
theorem rootLength_le_iff {m n : ℕ} {long : Prop} (htwo : (2 ≤ m ↔ 2 ≤ n) ↔ ¬ long)
    (hone : 1 ≤ m ↔ 1 ≤ n) :
    (rootLength config drive ≤ m ↔ rootLength config drive ≤ n) ↔
      ¬ ((config.usesDriveLetters = true ∧ drive = []) ∧ long) := by
  rw [rootLength]
  split_ifs with hletters
  · rwa [and_iff_right hletters]
  · exact iff_of_true hone fun h => hletters h.1

theorem isPathAbsolute_dirNameString_iff (config : FilePathConfig) (path : StringType) :
    isPathAbsolute config (dirNameString config path) = isPathAbsolute config path ↔
      ¬ HasLongRoot config path := by
  obtain ⟨drive, rest, hdrive, rfl⟩ := exists_isDrive config path
  rw [HasLongRoot, ← and_assoc, components, hdrive.drivePrefix_append, hdrive.afterDrive_append,
    isPathAbsolute_append hdrive]
  cases hall : rest.all (isSeparator config) with
  | true =>
    obtain ⟨hfront, hcut⟩ := strippedRest_of_all hall
    rw [isPathAbsolute_dirNameString hdrive (List.append_nil _).symm hfront
      (fun _ hc => absurd hc List.not_mem_nil), hcut,
      strippedRest_strippedRest, leadingSeparators_strippedRest, hall,
      runs_of_all (List.all_eq_true.mp hall), decide_eq_decide]
    apply rootLength_le_iff
    · simp only [true_and, List.length_nil]
      split_ifs <;> omega
    · split_ifs <;> omega
  | false =>
    obtain ⟨front, component, trailing, h⟩ := exists_lastComponent hall
    rw [isPathAbsolute_dirNameString hdrive h.strippedRest h.front_eq h.not_separator,
      leadingSeparators_dir h, h.runs_eq, decide_eq_decide, List.length_append,
      List.length_singleton]
    cases hfront : front.all (isSeparator config) with
    | true =>
      rw [h.leadingSeparators_eq hfront, runs_of_all (List.all_eq_true.mp hfront)]
      apply rootLength_le_iff
      · simp only [true_and, List.length_nil]
        split_ifs <;> omega
      · simp only [true_and]
        split_ifs <;> omega
    | false =>
      have hruns : (runs (isSeparator config) front).length ≠ 0 := fun hzero => by
        rw [all_of_runs_eq_nil (List.length_eq_zero_iff.mp hzero)] at hfront
        cases hfront
      refine iff_of_true ?_ fun hlong => ?_
      · simp only [Bool.false_eq_true, false_and, if_false]
      · omega

/-- Behind a path that is not a drive letter alone, what is appended does not make one. -/
theorem appendString_drive (component : StringType) (hdrive : IsDrive config drive rest)
    (hne : rest ≠ []) (hcurrent : drive ++ rest ≠ kCurrentDirectory) :
    ∃ joined, appendString config (drive ++ rest) component =
        drive ++ (strippedRest config rest ++ (joined ++ component.takeWhile (· ≠ 0))) ∧
      IsDrive config drive
        (strippedRest config rest ++ (joined ++ component.takeWhile (· ≠ 0))) ∧
      (rest.all (isSeparator config) = true → joined = []) := by
  have hstripped := hdrive.of_isPrefix (strippedRest_isPrefix config rest)
  obtain ⟨f, c, hc⟩ := (List.eq_nil_or_concat (strippedRest config rest)).resolve_left
    (strippedRest_ne_nil hne)
  rw [List.concat_eq_append] at hc
  rw [appendString_of_ne hcurrent, strip_append hdrive, hc]
  rw [hc] at hstripped
  generalize component.takeWhile (· ≠ 0) = appended
  refine ⟨joint config (drive ++ (f ++ [c])) appended, by simp only [List.append_assoc], ?_,
    fun hall => ?_⟩
  · by_cases happended : appended = []
    · simpa [happended] using hstripped
    · rw [joint_concat hstripped happended]
      split_ifs with hsep
      · have hfront := hstripped.of_isPrefix (List.prefix_append f [c])
        have hjoined : IsDrive config drive (f ++ c :: appended) := hfront.append_cons hsep
        simpa using hjoined
      · have hjoined : IsDrive config drive
            (f ++ [c] ++ charAt (kSeparators config) 0 :: appended) :=
          hstripped.append_cons (isSeparator_kSeparators config)
        simpa using hjoined
  · have hsep : isSeparator config c = true := by
      have hstrip := all_of_isPrefix hall (strippedRest_isPrefix config rest)
      rw [hc] at hstrip
      exact List.all_eq_true.mp hstrip c (by simp)
    by_cases happended : appended = []
    · rw [happended, joint_nil_right]
    · rw [joint_concat hstripped happended, if_pos hsep]

theorem leadingSeparators_append_of_all (h : front.all (isSeparator config) = true) :
    leadingSeparators config (front ++ rest) = front.length + leadingSeparators config rest := by
  rw [leadingSeparators, List.takeWhile_append_of_pos (List.all_eq_true.mp h), List.length_append,
    leadingSeparators]

/-- A drive letter alone, and nothing at all. -/
theorem isPathAbsolute_appendString_drive (hdrive : IsDrive config drive [])
    (hrelative : isPathAbsolute config (component.takeWhile (· ≠ 0)) = false) :
    isPathAbsolute config (appendString config (drive ++ []) component) =
        isPathAbsolute config (drive ++ []) ↔
      ¬ JoinMovesRoot config (drive ++ []) (component.takeWhile (· ≠ 0)) := by
  have hcurrent : drive ++ [] ≠ kCurrentDirectory := by
    obtain rfl | ⟨-, letter, rfl, -⟩ := hdrive.eq_nil_or <;> nofun
  have hstrip : strippedRest config [] = [] := rfl
  have hruns : runs (isSeparator config) [] = [] := rfl
  rw [JoinMovesRoot, appendString_of_ne hcurrent, strip_append hdrive, components,
    hdrive.drivePrefix_append, hdrive.afterDrive_append, hstrip, hruns, List.append_nil]
  obtain rfl | ⟨huses, letter, hletter, -⟩ := hdrive.eq_nil_or
  · rw [joint_nil_left, List.append_nil, List.nil_append, hrelative]
    refine iff_of_true ?_ fun hmoves => ?_
    · exact (isPathAbsolute_component (by simp)).symm
    · have hzero : leadingSeparators config [] = 0 := rfl
      obtain ⟨-, -, ⟨hne, -⟩ | ⟨-, hmoves⟩⟩ := hmoves
      · exact hne rfl
      · omega
  · have hne : drive ≠ [] := by
      rw [hletter]
      exact List.cons_ne_nil letter _
    have hbehind : IsDrive config drive (component.takeWhile (· ≠ 0)) := hdrive.of_ne_nil hne
    have habs := isPathAbsolute_append hbehind
    have hnone := isPathAbsolute_append hdrive
    rw [rootLength, if_neg fun h => hne h.2] at habs hnone
    rw [joint_drive hdrive, List.append_nil, habs]
    rw [List.append_nil] at hnone
    rw [hnone, decide_eq_decide]
    have hzero : leadingSeparators config [] = 0 := rfl
    simp [huses, hne, hzero]

/-- Appending a relative component. -/
theorem isPathAbsolute_appendString_iff
    (hrelative : isPathAbsolute config (component.takeWhile (· ≠ 0)) = false) :
    isPathAbsolute config (appendString config path component) = isPathAbsolute config path ↔
      ¬ JoinMovesRoot config path (component.takeWhile (· ≠ 0)) := by
  by_cases hcurrent : path = kCurrentDirectory
  · have hcomponent : ∀ c ∈ kCurrentDirectory, isSeparator config c = false := fun c hc => by
      rw [List.mem_singleton.mp hc, isSeparator_dot]
    rw [hcurrent, appendString, if_pos rfl, hrelative, isPathAbsolute_component hcomponent]
    refine iff_of_true rfl fun hmoves => ?_
    have hruns : runs (isSeparator config) kCurrentDirectory = [] := hmoves.2.1
    have hne : kCurrentDirectory ≠ [] := List.cons_ne_nil _ _
    rw [runs_of_not hne hcomponent] at hruns
    cases hruns
  obtain ⟨drive, rest, hdrive, rfl⟩ := exists_isDrive config path
  by_cases hne : rest = []
  · subst hne
    exact isPathAbsolute_appendString_drive hdrive hrelative
  obtain ⟨joined, happend, hdrive', hjoined⟩ :=
    appendString_drive component hdrive hne hcurrent
  rw [happend, isPathAbsolute_append hdrive', isPathAbsolute_append hdrive, JoinMovesRoot,
    components, hdrive.drivePrefix_append, hdrive.afterDrive_append, decide_eq_decide]
  cases hall : rest.all (isSeparator config) with
  | true =>
    have hstripped := all_of_isPrefix hall (strippedRest_isPrefix config rest)
    have hlead : leadingSeparators config (strippedRest config rest) = _ :=
      leadingSeparators_strippedRest rest
    have hlength := List.length_pos_of_ne_nil hne
    rw [leadingSeparators_of_all hstripped, hall, leadingSeparators_of_all hall] at hlead
    rw [hjoined hall, List.nil_append, leadingSeparators_append_of_all hstripped, hlead,
      leadingSeparators_of_all hall, rootLength]
    by_cases hletters : config.usesDriveLetters = true ∧ drive = []
    · rw [if_pos hletters]
      simp only [hletters, hne, runs_of_all (List.all_eq_true.mp hall), true_and, ne_eq,
        not_true_eq_false, false_and, false_or]
      split_ifs <;> omega
    · rw [if_neg hletters]
      refine iff_of_true (by split_ifs <;> omega) ?_
      rintro ⟨huses, -, ⟨-, hnil, -⟩ | ⟨hnil, -⟩⟩
      · exact hne hnil
      · exact hletters ⟨huses, hnil⟩
  | false =>
    have hlead : leadingSeparators config (strippedRest config rest) = _ :=
      leadingSeparators_strippedRest rest
    have hstripped : (strippedRest config rest).all (isSeparator config) = false := by
      obtain ⟨front, component, trailing, h⟩ := exists_lastComponent hall
      rw [h.strippedRest]
      exact h.not_all
    rw [hall, if_neg (by simp)] at hlead
    rw [leadingSeparators_append hstripped, hlead]
    refine iff_of_true Iff.rfl fun hmoves => ?_
    rw [all_of_runs_eq_nil hmoves.2.1] at hall
    cases hall

/-- The directory name is absolute if the path is, except where a long root is cut to one
separator; and appending a relative component keeps a path absolute or relative, except where
the separators of both make up a root or the long root of the path is cut. -/
theorem isAbsolute_preserved_iff (config : FilePathConfig) (p : FilePath) :
    (isAbsolute config (dirName config p) = isAbsolute config p ↔
      ¬ HasLongRoot config p.path) ∧
    ∀ component, isPathAbsolute config (component.takeWhile (· ≠ 0)) = false →
      (isAbsolute config (append config p component) = isAbsolute config p ↔
        ¬ JoinMovesRoot config p.path (component.takeWhile (· ≠ 0))) :=
  ⟨isPathAbsolute_dirNameString_iff config p.path,
    fun _ hrelative => isPathAbsolute_appendString_iff hrelative⟩

/-- Three separators alone are absolute, their directory name and what is appended to them is
not; and one separator alone is not absolute, with another one appended it is. -/
theorem isAbsolute_not_preserved :
    isAbsolute windows (ofString (literal ['/', '/', '/'])) = true ∧
      isAbsolute windows (dirName windows (ofString (literal ['/', '/', '/']))) = false ∧
      isAbsolute windows (append windows (ofString (literal ['/', '/', '/'])) (literal ['a'])) =
        false ∧
      isAbsolute windows (ofString (literal ['/'])) = false ∧
      isPathAbsolute windows (literal ['/', 'a']) = false ∧
      isAbsolute windows (append windows (ofString (literal ['/'])) (literal ['/', 'a'])) =
        true := by decide

/-- `C:\a` with `b` behind it. -/
theorem isAbsolute_preserved_windows :
    isAbsolute windows (append windows (ofString (literal ['C', ':', '\\', 'a'])) (literal ['b'])) =
      isAbsolute windows (ofString (literal ['C', ':', '\\', 'a'])) := by
  have h := isAbsolute_preserved_iff windows (ofString (literal ['C', ':', '\\', 'a']))
  refine (h.2 (literal ['b']) (by decide)).mpr ?_
  unfold JoinMovesRoot
  decide

end MiniChromium.FilePath
