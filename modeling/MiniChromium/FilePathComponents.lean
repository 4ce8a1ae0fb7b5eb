import MiniChromium.FilePathRoots

/-!
# The components of a path

The components are the runs of other characters between separators, after the drive letter.
The base name is the last one, the directory name has the others, and appending the one to
the other gives all of them back.
-/
namespace MiniChromium.FilePath

section Runs

variable {α : Type*} {p : α → Bool} {a b l : List α} {s : α}

/-- The nonempty runs of elements that are not separators. -/
def runs (p : α → Bool) (l : List α) : List (List α) :=
  (l.splitOnP p).filter fun run => !run.isEmpty

theorem runs_append_cons (hs : p s = true) : runs p (a ++ s :: b) = runs p a ++ runs p b := by
  rw [runs, List.splitOnP_append_cons a b hs, List.filter_append, runs, runs]

@[simp] theorem runs_nil : runs p [] = [] := rfl

theorem runs_concat (hs : p s = true) : runs p (a ++ [s]) = runs p a := by
  rw [runs_append_cons hs, runs_nil, List.append_nil]

theorem runs_of_not (hne : l ≠ []) (h : ∀ c ∈ l, p c = false) : runs p l = [l] := by
  rw [runs, List.splitOnP_eq_singleton h]
  simp [hne]

theorem runs_append_of_all (h : ∀ c ∈ l, p c = true) : runs p (a ++ l) = runs p a := by
  induction l using List.reverseRecOn with
  | nil => rw [List.append_nil]
  | append_singleton l s ih =>
    obtain ⟨hl, hs⟩ := List.forall_mem_append.mp h
    rw [← List.append_assoc, runs_concat (hs s (List.mem_singleton_self s)), ih hl]

theorem runs_of_all (h : ∀ c ∈ l, p c = true) : runs p l = [] := runs_append_of_all (a := []) h

end Runs

section Code

variable (config : FilePathConfig)

/-- `IsPathAbsolute`. -/
def isPathAbsolute (path : StringType) : Bool :=
  if config.usesDriveLetters then
    let letter := findDriveLetter config path
    if letter ≠ npos then
      decide ((path.length : ℤ) > letter + 1) && isSeparator config (charAt path (letter + 1))
    else
      decide (path.length > 1) && isSeparator config (charAt path 0) &&
        isSeparator config (charAt path 1)
  else decide (path.length > 0) && isSeparator config (charAt path 0)

/-- `BaseName` on the string of the path. -/
def baseNameString (path : StringType) : StringType :=
  let stripped := stripTrailingSeparatorsInternal config path
  let letter := findDriveLetter config stripped
  let newPath := if letter ≠ npos then stripped.drop (letter + 1).toNat else stripped
  let lastSeparator := findLastOf (kSeparators config) newPath
  if lastSeparator ≠ npos ∧ lastSeparator < newPath.length - 1 then
    newPath.drop (lastSeparator + 1).toNat
  else newPath

/-- `Append` on the strings of the paths. Its `DCHECK` is that the component is not
`isPathAbsolute`. -/
def appendString (path component : StringType) : StringType :=
  let appended := component.takeWhile (· ≠ 0)
  if path = kCurrentDirectory then appended
  else
    let newPath := stripTrailingSeparatorsInternal config path
    let separator :=
      if (appended.length > 0 ∧ newPath.length > 0) ∧
          isSeparator config (charAt newPath (newPath.length - 1)) = false ∧
          findDriveLetter config newPath + 1 ≠ newPath.length then [charAt (kSeparators config) 0]
      else []
    newPath ++ separator ++ appended

/-- The components of a path. -/
def components (path : StringType) : List StringType :=
  runs (isSeparator config) (afterDrive config path)

end Code

variable {config : FilePathConfig} {drive rest rest' front component trailing path : StringType}

/-- A suffix of a stripped path. -/
theorem baseNameString_subset (config : FilePathConfig) (path : StringType) :
    baseNameString config path ⊆ path := by
  have hstrip : stripTrailingSeparatorsInternal config path ⊆ path :=
    (strip_isPrefix path).subset
  unfold baseNameString
  dsimp only
  split_ifs
  · exact fun c hc => hstrip (List.mem_of_mem_drop (List.mem_of_mem_drop hc))
  · exact fun c hc => hstrip (List.mem_of_mem_drop hc)
  · exact fun c hc => hstrip (List.mem_of_mem_drop hc)
  · exact hstrip

/-- `BaseName`. -/
def baseName (config : FilePathConfig) (p : FilePath) : FilePath where
  path := baseNameString config p.path
  nulFree h := p.nulFree (baseNameString_subset config p.path h)

theorem nul_notMem_appendString (hpath : 0 ∉ path) : 0 ∉ appendString config path component := by
  have happended : 0 ∉ component.takeWhile (· ≠ 0) := fun h => by
    simpa using List.mem_takeWhile_imp h
  have hseparator : charAt (kSeparators config) 0 ≠ 0 := by
    unfold kSeparators
    split_ifs <;> decide
  have hstrip : 0 ∉ stripTrailingSeparatorsInternal config path := fun h =>
    hpath ((strip_isPrefix path).subset h)
  unfold appendString
  dsimp only
  split_ifs
  · exact happended
  · simp only [List.mem_append, List.mem_singleton, not_or]
    exact ⟨⟨hstrip, hseparator.symm⟩, happended⟩
  · simp only [List.append_nil, List.mem_append, not_or]
    exact ⟨hstrip, happended⟩

/-- `Append`. -/
def append (config : FilePathConfig) (p : FilePath) (component : StringType) : FilePath where
  path := appendString config p.path component
  nulFree := nul_notMem_appendString p.nulFree

theorem LastComponent.runs_eq (h : LastComponent config rest front component trailing) :
    runs (isSeparator config) rest = runs (isSeparator config) front ++ [component] := by
  have hcomponent := runs_of_not h.component_ne h.not_separator
  rw [h.split, runs_append_of_all h.separators]
  obtain rfl | ⟨f, s, rfl, hs⟩ := h.front_eq
  · rw [List.nil_append, hcomponent, runs_nil, List.nil_append]
  · rw [List.append_assoc, List.singleton_append, runs_append_cons hs, hcomponent, runs_concat hs]

/-- Without a component there are separators at most. -/
theorem all_of_runs_eq_nil (h : runs (isSeparator config) rest = []) :
    rest.all (isSeparator config) = true := by
  by_contra hall
  obtain ⟨front, component, trailing, hlast⟩ :=
    exists_lastComponent (Bool.eq_false_iff.mpr hall)
  rw [hlast.runs_eq] at h
  exact List.append_ne_nil_of_right_ne_nil _ (List.cons_ne_nil component []) h

theorem runs_strippedRest (rest : StringType) :
    runs (isSeparator config) (strippedRest config rest) = runs (isSeparator config) rest := by
  cases hall : rest.all (isSeparator config) with
  | true =>
    rw [runs_of_all (List.all_eq_true.mp hall)]
    exact runs_of_all
      (List.all_eq_true.mp (all_of_isPrefix hall (strippedRest_isPrefix config rest)))
  | false =>
    obtain ⟨front, component, trailing, h⟩ := exists_lastComponent hall
    conv_rhs => rw [h.split, runs_append_of_all h.separators]
    rw [h.strippedRest]

/-- The cut takes a separator off the front of the path, and no component. -/
theorem runs_cutRest (hfront : front = [] ∨ ∃ f s, front = f ++ [s] ∧ isSeparator config s = true) :
    runs (isSeparator config) (cutRest config front) = runs (isSeparator config) front := by
  unfold cutRest
  split_ifs
  · rfl
  · obtain rfl | ⟨f, s, rfl, hs⟩ := hfront
    · rfl
    · rw [List.dropLast_concat, runs_concat hs]

theorem baseNameString_append (hdrive : IsDrive config drive rest)
    (h : LastComponent config rest front component trailing) :
    baseNameString config (drive ++ rest) = component := by
  have hfront : front ++ component <+: rest := h.split ▸ List.prefix_append ..
  have hletter := hdrive.of_isPrefix hfront
  have herase : (if findDriveLetter config (drive ++ (front ++ component)) ≠ npos then
      (drive ++ (front ++ component)).drop
        (findDriveLetter config (drive ++ (front ++ component)) + 1).toNat
      else drive ++ (front ++ component)) = front ++ component := by
    rw [IsDrive] at hletter
    split_ifs with hnone
    · rw [hletter, Int.toNat_natCast, List.drop_left]
    · have hdrive : drive = [] := by
        rw [not_not.mp hnone, npos] at hletter
        exact List.length_eq_zero_iff.mp (by omega)
      rw [hdrive, List.nil_append]
  have hnone : ∀ c ∈ component, c ∉ kSeparators config := fun c hc hmem => by
    rw [mem_kSeparators_iff, h.not_separator c hc] at hmem
    cases hmem
  rw [baseNameString, strip_append hdrive, h.strippedRest, herase]
  obtain rfl | ⟨f, s, rfl, hs⟩ := h.front_eq
  · rw [List.nil_append, findLastOf_eq_npos hnone, if_neg (by simp)]
  · have hcons : f ++ [s] ++ component = f ++ s :: component := by simp
    have hlength := List.length_pos_of_ne_nil h.component_ne
    rw [hcons, findLastOf_append_cons (mem_kSeparators_iff.mpr hs) hnone, if_pos]
    · have hdrop : ((f.length : ℤ) + 1).toNat = (f ++ [s]).length := by simp
      rw [← hcons, hdrop, List.drop_left]
    · simp only [npos, List.length_append, List.length_cons]
      omega

/-- A separator among the first two characters excludes a drive letter. -/
theorem findDriveLetter_separator {c s : CharType} (hs : isSeparator config s = true) :
    findDriveLetter config (s :: rest) = npos ∧ findDriveLetter config (c :: s :: rest) = npos := by
  constructor
  · cases rest with
    | nil => rfl
    | cons d rest =>
      refine if_neg fun h => ?_
      obtain rfl | rfl := eq_of_isSeparator hs <;> exact absurd h.2.2 (by decide)
  · refine if_neg fun h => ?_
    obtain rfl | rfl := eq_of_isSeparator hs <;> exact absurd h.2.1 (by decide)

/-- What is behind a drive letter does not change it. -/
theorem IsDrive.of_ne_nil (h : IsDrive config drive rest) (hne : drive ≠ []) :
    IsDrive config drive rest' := by
  rw [IsDrive] at h ⊢
  cases drive with
  | nil => exact absurd rfl hne
  | cons c drive =>
    cases drive with
    | nil =>
      obtain hc | ⟨hc, -⟩ := findDriveLetter_cases config ([c] ++ rest) <;> rw [hc] at h <;> cases h
    | cons d drive => exact h

/-- Nor does what is behind a separator. -/
theorem IsDrive.append_cons {s : CharType} (h : IsDrive config drive front)
    (hs : isSeparator config s = true) : IsDrive config drive (front ++ s :: rest) := by
  by_cases hdrive : drive = []
  · subst hdrive
    rw [IsDrive] at h ⊢
    cases front with
    | nil => simp [(findDriveLetter_separator (c := 0) hs).1, npos]
    | cons c front =>
      cases front with
      | nil => simp [(findDriveLetter_separator hs).2, npos]
      | cons d front => exact h
  · exact h.of_ne_nil hdrive

theorem strippedRest_ne_nil (h : rest ≠ []) : strippedRest config rest ≠ [] := by
  unfold strippedRest
  split_ifs with hall
  · exact h
  · simpa using h
  · rwa [ne_eq, List.rdropWhile_eq_nil_iff, ← List.all_eq_true]

theorem cutRest_ne_nil (h : front ≠ [])
    (hfront : front = [] ∨ ∃ f s, front = f ++ [s] ∧ isSeparator config s = true) :
    cutRest config front ≠ [] := by
  obtain ⟨f, s, rfl, hs⟩ := hfront.resolve_left h
  unfold cutRest
  split_ifs with hroot
  · exact h
  · rw [List.dropLast_concat]
    rintro rfl
    exact hroot (by simp [hs])

theorem charAt_concat {c : CharType} :
    charAt (drive ++ (front ++ [c])) (((drive ++ (front ++ [c])).length : ℤ) - 1) = c := by
  have hlength : ((drive ++ (front ++ [c])).length : ℤ) - 1 = (drive ++ front).length := by
    simp
    omega
  rw [hlength, ← List.append_assoc, charAt_append_cons]

/-- What `Append` puts between the stripped path and what it appends. -/
def joint (config : FilePathConfig) (newPath appended : StringType) : StringType :=
  if (appended.length > 0 ∧ newPath.length > 0) ∧
      isSeparator config (charAt newPath (newPath.length - 1)) = false ∧
      findDriveLetter config newPath + 1 ≠ newPath.length then [charAt (kSeparators config) 0]
  else []

theorem appendString_of_ne (hcurrent : path ≠ kCurrentDirectory) :
    appendString config path component =
      stripTrailingSeparatorsInternal config path ++
        joint config (stripTrailingSeparatorsInternal config path)
          (component.takeWhile (· ≠ 0)) ++ component.takeWhile (· ≠ 0) := if_neg hcurrent

@[simp] theorem joint_nil_left (appended : StringType) : joint config [] appended = [] :=
  if_neg fun h => absurd h.1.2 (Nat.lt_irrefl 0)

@[simp] theorem joint_nil_right (newPath : StringType) : joint config newPath [] = [] :=
  if_neg fun h => absurd h.1.1 (Nat.lt_irrefl 0)

/-- Behind a drive letter alone there is nothing. -/
theorem joint_drive (h : IsDrive config drive []) (appended : StringType) :
    joint config drive appended = [] := by
  rw [IsDrive, List.append_nil] at h
  exact if_neg fun hjoint => hjoint.2.2 h

theorem joint_concat {c : CharType} {appended : StringType}
    (h : IsDrive config drive (front ++ [c])) (hne : appended ≠ []) :
    joint config (drive ++ (front ++ [c])) appended =
      if isSeparator config c = true then [] else [charAt (kSeparators config) 0] := by
  rw [joint, charAt_concat]
  cases hsep : isSeparator config c with
  | true => rw [if_neg fun hjoint => Bool.false_ne_true hjoint.2.1.symm, if_pos rfl]
  | false =>
    rw [IsDrive] at h
    rw [if_neg Bool.false_ne_true, if_pos]
    refine ⟨⟨List.length_pos_of_ne_nil hne, List.length_pos_of_ne_nil (by simp)⟩, rfl, ?_⟩
    rw [h]
    simp
    omega

theorem isSeparator_kSeparators (config : FilePathConfig) :
    isSeparator config (charAt (kSeparators config) 0) = true := by
  rw [← mem_kSeparators_iff]
  unfold kSeparators
  split_ifs <;> decide

theorem takeWhile_nul (hnul : 0 ∉ component) : component.takeWhile (· ≠ 0) = component := by
  rw [List.takeWhile_eq_self_iff]
  intro c hc
  simpa using fun h : c = 0 => hnul (h ▸ hc)

theorem appendString_kCurrentDirectory (hnul : 0 ∉ component) :
    appendString config kCurrentDirectory component = component := by
  rw [appendString, if_pos rfl, takeWhile_nul hnul]

/-- Between a path and a component that stands alone there is a separator, or the end of the
drive letter. -/
theorem appendString_append (hdrive : IsDrive config drive rest) (hne : drive ++ rest ≠ [])
    (hcurrent : drive ++ rest ≠ kCurrentDirectory) (hcomponent : component ≠ [])
    (hnul : 0 ∉ component) :
    ∃ front', appendString config (drive ++ rest) component = drive ++ (front' ++ component) ∧
      IsDrive config drive (front' ++ component) ∧
      (front' = [] ∨ ∃ f s, front' = f ++ [s] ∧ isSeparator config s = true) ∧
      runs (isSeparator config) front' = runs (isSeparator config) rest := by
  have hstripped := hdrive.of_isPrefix (strippedRest_isPrefix config rest)
  have hruns : runs (isSeparator config) (strippedRest config rest) =
      runs (isSeparator config) rest :=
    runs_strippedRest rest
  rw [appendString_of_ne hcurrent, takeWhile_nul hnul, strip_append hdrive]
  obtain hnil | ⟨f, c, hc⟩ := List.eq_nil_or_concat (strippedRest config rest)
  · -- only the drive letter is left
    have hdrive' : drive ≠ [] := by
      rintro rfl
      exact strippedRest_ne_nil hne hnil
    rw [hnil] at hstripped hruns ⊢
    refine ⟨[], ?_, hstripped.of_ne_nil hdrive', .inl rfl, hruns⟩
    rw [List.append_nil, joint_drive hstripped, List.append_nil, List.nil_append]
  · rw [List.concat_eq_append] at hc
    rw [hc] at hstripped hruns ⊢
    rw [joint_concat hstripped hcomponent]
    cases hsep : isSeparator config c with
    | true =>
      have hfront := hstripped.of_isPrefix (List.prefix_append f [c])
      refine ⟨f ++ [c], by simp, ?_, .inr ⟨f, c, rfl, hsep⟩, hruns⟩
      rw [List.append_assoc]
      exact hfront.append_cons hsep
    | false =>
      have hs := isSeparator_kSeparators config
      refine ⟨f ++ [c] ++ [charAt (kSeparators config) 0], by simp, ?_, .inr ⟨_, _, rfl, hs⟩,
        (runs_concat hs).trans hruns⟩
      rw [List.append_assoc]
      exact hstripped.append_cons hs

/-- The path is one component, without a drive letter and without a separator before it. -/
def IsSingleComponent (config : FilePathConfig) (path : StringType) : Prop :=
  drivePrefix config path = [] ∧ leadingSeparators config (afterDrive config path) = 0 ∧
    (components config path).length = 1

/-- A component alone is relative, as `Append` expects. -/
theorem isPathAbsolute_component (h : ∀ c ∈ component, isSeparator config c = false) :
    isPathAbsolute config component = false := by
  have hchar : ∀ pos : ℤ, pos.toNat < component.length →
      isSeparator config (charAt component pos) = false := fun pos hlt => by
    rw [charAt, List.getD_eq_getElem?_getD, List.getElem?_eq_getElem hlt, Option.getD_some]
    exact h _ (List.getElem_mem hlt)
  have hletter := findDriveLetter_cases config component
  unfold isPathAbsolute
  dsimp only
  split_ifs <;> rw [Bool.eq_false_iff] <;> intro habs <;>
    simp only [Bool.and_eq_true, decide_eq_true_eq] at habs
  · rw [hchar _ (by omega)] at habs
    cases habs.2
  · rw [hchar 0 (by simpa using Nat.zero_lt_of_lt habs.1.1)] at habs
    cases habs.1.2
  · rw [hchar 0 habs.1] at habs
    cases habs.2

theorem LastComponent.isSingleComponent_iff (hdrive : IsDrive config drive rest)
    (h : LastComponent config rest front component trailing) :
    IsSingleComponent config (drive ++ rest) ↔ drive = [] ∧ front = [] := by
  rw [IsSingleComponent, components, hdrive.drivePrefix_append, hdrive.afterDrive_append, h.runs_eq]
  refine and_congr_right fun _ => ⟨fun hsingle => ?_, ?_⟩
  · have hruns : runs (isSeparator config) front = [] := by simpa using hsingle.2
    rw [h.leadingSeparators_eq (all_of_runs_eq_nil hruns)] at hsingle
    exact List.length_eq_zero_iff.mp hsingle.1
  · rintro rfl
    exact ⟨h.leadingSeparators_eq rfl, by simp⟩

/-- The directory name of a path with a last component is the current directory, or the drive
letter with the components in front of the last. -/
theorem dirNameString_cases (hdrive : IsDrive config drive rest)
    (h : LastComponent config rest front component trailing) :
    (drive = [] ∧ front = [] ∧ dirNameString config (drive ++ rest) = kCurrentDirectory) ∨
      ∃ rest', ¬(drive = [] ∧ front = []) ∧ dirNameString config (drive ++ rest) = drive ++ rest' ∧
        drive ++ rest' ≠ [] ∧ IsDrive config drive rest' ∧
        runs (isSeparator config) rest' = runs (isSeparator config) front := by
  obtain ⟨hdir, hname⟩ := dirNameString_append hdrive h.strippedRest h.front_eq h.not_separator
  have hruns := (runs_strippedRest (cutRest config front)).trans (runs_cutRest h.front_eq)
  by_cases hfront : drive = [] ∧ front = []
  · obtain ⟨rfl, rfl⟩ := hfront
    exact .inl ⟨rfl, rfl, hname⟩
  · have hne : drive ++ strippedRest config (cutRest config front) ≠ [] := by
      rw [ne_eq, List.append_eq_nil_iff]
      rintro ⟨hnil, hempty⟩
      exact strippedRest_ne_nil (cutRest_ne_nil (fun hf => hfront ⟨hnil, hf⟩) h.front_eq) hempty
    exact .inr ⟨_, hfront, hname.trans (if_neg hne), hne, hdir, hruns⟩

/-- The base name is the last component, the directory name has the drive letter and the other
components, and appending the one to the other gives all of them back. A path that is one
component is in the current directory, where appending gives the component alone. -/
theorem dirName_append_baseName (config : FilePathConfig) (p : FilePath)
    (h : components config p.path ≠ []) :
    (baseName config p).path = (components config p.path).getLast h ∧
    isPathAbsolute config (baseName config p).path = false ∧
    drivePrefix config (dirName config p).path = drivePrefix config p.path ∧
    (IsSingleComponent config p.path → (dirName config p).path = kCurrentDirectory) ∧
    (¬IsSingleComponent config p.path →
      components config (dirName config p).path = (components config p.path).dropLast) ∧
    ((dirName config p).path = kCurrentDirectory →
      (append config (dirName config p) (baseName config p).path).path = (baseName config p).path) ∧
    ((dirName config p).path ≠ kCurrentDirectory →
      drivePrefix config (append config (dirName config p) (baseName config p).path).path =
          drivePrefix config p.path ∧
        components config (append config (dirName config p) (baseName config p).path).path =
          components config p.path) := by
  obtain ⟨drive, rest, hdrive, hpath⟩ := exists_isDrive config p.path
  have hrest : components config p.path = runs (isSeparator config) rest := by
    rw [components, ← hpath, hdrive.afterDrive_append]
  have hall : rest.all (isSeparator config) = false := by
    rw [Bool.eq_false_iff]
    intro hall
    exact h (hrest.trans (runs_of_all (List.all_eq_true.mp hall)))
  obtain ⟨front, component, trailing, hlast⟩ := exists_lastComponent hall
  have hcomponents := hrest.trans hlast.runs_eq
  have hbase : baseNameString config p.path = component :=
    hpath ▸ baseNameString_append hdrive hlast
  have hnul : 0 ∉ component := hbase ▸ (baseName config p).nulFree
  have hsingle := hlast.isSingleComponent_iff hdrive
  have hprefix : drivePrefix config p.path = drive := hpath ▸ hdrive.drivePrefix_append
  have hname := dirNameString_cases hdrive hlast
  rw [hpath] at hsingle hname
  have habs := isPathAbsolute_component hlast.not_separator
  simp only [append, baseName, dirName, hbase, hprefix, hsingle, hcomponents, List.getLast_concat,
    List.dropLast_concat, habs, true_and]
  obtain ⟨rfl, rfl, hcurrent⟩ | ⟨rest', hnot, hdir, hne, hdrive', hruns⟩ := hname
  · rw [hcurrent, root_kCurrentDirectory.1, appendString_kCurrentDirectory hnul]
    simp
  · have hprefix' : drivePrefix config (dirNameString config p.path) = drive := by
      rw [hdir, hdrive'.drivePrefix_append]
    refine ⟨hprefix', fun hs => absurd hs hnot, fun _ => ?_, fun hcurrent => ?_, fun hcurrent => ?_⟩
    · rw [components, hdir, hdrive'.afterDrive_append, hruns]
    · rw [hcurrent, appendString_kCurrentDirectory hnul]
    · rw [hdir] at hcurrent ⊢
      obtain ⟨front', happend, hdrive'', hfront', hruns'⟩ :=
        appendString_append hdrive' hne hcurrent hlast.component_ne hnul
      have hjoined : LastComponent config (front' ++ component) front' component [] :=
        ⟨(List.append_nil _).symm, hfront', hlast.component_ne, hlast.not_separator, nofun⟩
      rw [happend, components, hdrive''.drivePrefix_append, hdrive''.afterDrive_append,
        hjoined.runs_eq, hruns', hruns]
      exact ⟨rfl, rfl⟩

/-- `C:\a/b\` has the components a and b, and the drive letter stays. -/
theorem dirName_append_baseName_windows :
    (baseName windows (ofString (literal ['C', ':', '\\', 'a', '/', 'b', '\\']))).path =
        literal ['b'] ∧
      drivePrefix windows (dirName windows
        (ofString (literal ['C', ':', '\\', 'a', '/', 'b', '\\']))).path = literal ['C', ':'] :=
  have h := dirName_append_baseName windows
    (ofString (literal ['C', ':', '\\', 'a', '/', 'b', '\\'])) (by decide)
  ⟨h.1.trans (by decide), h.2.2.1.trans (by decide)⟩

example : (append posix (ofString (literal ['a', '/'])) (literal ['b'])).path =
    literal ['a', '/', 'b'] := by decide

end MiniChromium.FilePath
