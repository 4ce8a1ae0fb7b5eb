import MiniChromium.FilePathAscent
import MiniChromium.FilePathExtensions

/-!
# Down and up again

`Append` of one component is undone by `DirName`, up to the separators at the end of the path
that it started from, and `BaseName` gives the component back. Going down any number of
components, as many directory names go back up.
-/
namespace MiniChromium.FilePath

variable {config : FilePathConfig} {drive rest front component path : StringType} {c : CharType}

/-- What can be a component: nothing in it is a separator. -/
structure IsComponent (config : FilePathConfig) (component : StringType) : Prop where
  ne_nil : component ≠ []
  nulFree : 0 ∉ component
  not_separator : ∀ c ∈ component, isSeparator config c = false

/-- The path, as a directory name has it. -/
def directory (config : FilePathConfig) (p : FilePath) : FilePath :=
  if p.path = [] then ofString kCurrentDirectory else stripped config p

/-- `Append` of one component after the other. -/
def descend (config : FilePathConfig) (p : FilePath) (path : List StringType) : FilePath :=
  path.foldl (append config) p

/-- A component that begins with a drive letter stays what it is where nothing precedes it. -/
def IsJoined (config : FilePathConfig) (p : FilePath) (component : StringType) : Prop :=
  p.path = [] ∨ p.path = kCurrentDirectory → drivePrefix config component = []

/-- The cut takes off the separator that was put between a path and a component, and none that
is left of the path. -/
theorem strippedRest_cutRest_joint (hdrive : IsDrive config drive rest)
    (hcomponent : component ≠ []) :
    strippedRest config (cutRest config (strippedRest config rest ++
      joint config (drive ++ strippedRest config rest) component)) = strippedRest config rest := by
  have hstripped := hdrive.of_isPrefix (strippedRest_isPrefix config rest)
  obtain hnil | ⟨f, c, hc⟩ := List.eq_nil_or_concat (strippedRest config rest)
  · rw [hnil] at hstripped ⊢
    rw [List.append_nil, joint_drive hstripped]
    rfl
  · rw [List.concat_eq_append] at hc
    have hagain := strippedRest_strippedRest config rest
    have hall : isSeparator config c = true → (f ++ [c]).all (isSeparator config) = true :=
      fun hsep => hc ▸ all_of_isPrefix (all_of_strippedRest_concat hc hsep)
        (strippedRest_isPrefix config rest)
    rw [hc] at hstripped hagain ⊢
    rw [joint_concat hstripped hcomponent]
    cases hsep : isSeparator config c with
    | true =>
      -- a root, which is not cut
      have hcut := (strippedRest_of_all (hall hsep)).2
      rw [hagain] at hcut
      rw [if_pos rfl, List.append_nil, hcut, hagain]
    | false =>
      have hnot :
          (f ++ [c] ++ [charAt (kSeparators config) 0]).all (isSeparator config) = false := by
        simp [hsep]
      rw [if_neg Bool.false_ne_true, cutRest, hnot, if_neg (by simp), List.dropLast_concat, hagain]

/-- Whatever is appended to nothing, or to the current directory, is alone. -/
theorem appendString_alone (hpath : path = [] ∨ path = kCurrentDirectory) (hnul : 0 ∉ component) :
    appendString config path component = component := by
  obtain rfl | rfl := hpath
  · have hstrip : stripTrailingSeparatorsInternal config [] = [] :=
      List.prefix_nil.mp (strip_isPrefix [])
    rw [appendString_of_ne (by decide), takeWhile_nul hnul, hstrip, joint_nil_left]
    rfl
  · exact appendString_kCurrentDirectory hnul

/-- A component that stands at the end, behind the drive letter and a separator, if any. -/
theorem IsComponent.lastComponent (h : IsComponent config component)
    (hfront : front = [] ∨ ∃ f s, front = f ++ [s] ∧ isSeparator config s = true) :
    LastComponent config (front ++ component) front component [] :=
  ⟨(List.append_nil _).symm, hfront, h.ne_nil, h.not_separator, nofun⟩

theorem isDrive_of_drivePrefix (h : drivePrefix config path = []) : IsDrive config [] path := by
  obtain ⟨drive, rest, hdrive, rfl⟩ := exists_isDrive config path
  rw [hdrive.drivePrefix_append] at h
  subst h
  exact hdrive

theorem strip_kCurrentDirectory (config : FilePathConfig) :
    stripTrailingSeparatorsInternal config kCurrentDirectory = kCurrentDirectory := by
  obtain ⟨usesDriveLetters, usesWinSeparators⟩ := config
  cases usesDriveLetters <;> cases usesWinSeparators <;> rfl

/-- A path with a component appended to it, and what the directory name leaves of it. -/
structure Appended (config : FilePathConfig) (p q : FilePath) (component : StringType)
    (drive front : StringType) : Prop where
  path_eq : q.path = drive ++ (front ++ component)
  isDrive : IsDrive config drive (front ++ component)
  last : LastComponent config (front ++ component) front component []
  directory_eq : (if drive ++ strippedRest config (cutRest config front) = [] then
    kCurrentDirectory else drive ++ strippedRest config (cutRest config front)) =
      (directory config p).path
  joined : p.path ≠ [] → p.path ≠ kCurrentDirectory → drive ++ front ≠ [] ∧
    drive = drivePrefix config p.path ∧
      runs (isSeparator config) front = components config p.path

theorem path_directory (p : FilePath) : (directory config p).path =
    if p.path = [] then kCurrentDirectory else stripTrailingSeparatorsInternal config p.path := by
  rw [directory]
  split_ifs <;> rfl

theorem exists_appended (p : FilePath) (h : IsComponent config component)
    (hjoined : IsJoined config p component) :
    ∃ drive front, Appended config p (append config p component) component drive front := by
  by_cases halone : p.path = [] ∨ p.path = kCurrentDirectory
  · refine ⟨[], [], appendString_alone halone h.nulFree, isDrive_of_drivePrefix (hjoined halone),
      h.lastComponent (.inl rfl), ?_,
      fun hne hcurrent => absurd halone (not_or.mpr ⟨hne, hcurrent⟩)⟩
    rw [path_directory]
    obtain hnil | hcurrent := halone
    · rw [if_pos hnil]
      rfl
    · rw [hcurrent, strip_kCurrentDirectory, ite_self]
      rfl
  · obtain ⟨drive, rest, hdrive, hpath⟩ := exists_isDrive config p.path
    rw [not_or, ← hpath] at halone
    obtain ⟨hne, hcurrent⟩ := halone
    obtain ⟨front, happend, hdrive', hfront, hruns⟩ :=
      appendString_append hdrive hne hcurrent h.ne_nil h.nulFree
    have hjoint : front = strippedRest config rest ++
        joint config (drive ++ strippedRest config rest) component := by
      have heq := happend
      rw [appendString_of_ne hcurrent, takeWhile_nul h.nulFree, strip_append hdrive] at heq
      simp only [List.append_assoc] at heq
      rw [← List.append_assoc (strippedRest config rest)] at heq
      exact (List.append_cancel_right (List.append_cancel_left heq)).symm
    have hstripped : drive ++ strippedRest config rest ≠ [] := fun hnil => by
      obtain ⟨rfl, hempty⟩ := List.append_eq_nil_iff.mp hnil
      exact strippedRest_ne_nil hne hempty
    have hcut : strippedRest config (cutRest config front) = strippedRest config rest := by
      rw [hjoint, strippedRest_cutRest_joint hdrive h.ne_nil]
    refine ⟨drive, front, ?_, hdrive', h.lastComponent hfront, ?_, fun _ _ => ⟨?_, ?_, ?_⟩⟩
    · rw [← happend, hpath]
      rfl
    · rw [hcut, path_directory, ← hpath, if_neg hstripped, if_neg hne, strip_append hdrive]
    · rw [hjoint, ← List.append_assoc]
      exact List.append_ne_nil_of_left_ne_nil hstripped _
    · rw [← hpath, hdrive.drivePrefix_append]
    · rw [hruns, ← hpath, components, hdrive.afterDrive_append]

section Appended

variable {p q : FilePath}

theorem Appended.dirName_eq (h : Appended config p q component drive front) :
    dirName config q = directory config p := by
  have hname := (dirNameString_append h.isDrive h.last.strippedRest h.last.front_eq
    h.last.not_separator).2
  refine ext_path ?_
  rw [path_dirName, h.path_eq, hname, h.directory_eq]

theorem Appended.baseName_eq (h : Appended config p q component drive front) :
    (baseName config q).path = component := by
  change baseNameString config q.path = component
  rw [h.path_eq, baseNameString_append h.isDrive h.last]

/-- There are no separators to strip behind a component. -/
theorem Appended.directory_eq_self (h : Appended config p q component drive front) :
    directory config q = q := by
  refine ext_path ?_
  rw [path_directory, h.path_eq, strip_append h.isDrive, h.last.strippedRest, if_neg]
  simp [h.last.component_ne]

theorem Appended.components_eq (h : Appended config p q component drive front)
    (hne : p.path ≠ []) (hcurrent : p.path ≠ kCurrentDirectory) :
    components config q.path = components config p.path ++ [component] ∧
      drivePrefix config q.path = drivePrefix config p.path := by
  obtain ⟨-, hdrive, hruns⟩ := h.joined hne hcurrent
  rw [components, h.path_eq, h.isDrive.afterDrive_append, h.isDrive.drivePrefix_append,
    h.last.runs_eq, hruns, hdrive]
  exact ⟨rfl, rfl⟩

/-- A path with something before its last component is neither empty nor the current
directory. -/
theorem Appended.ne (h : Appended config p q component drive front)
    (hne : p.path ≠ []) (hcurrent : p.path ≠ kCurrentDirectory) :
    q.path ≠ [] ∧ q.path ≠ kCurrentDirectory := by
  have hfront := List.length_pos_of_ne_nil (h.joined hne hcurrent).1
  have hcomponent := List.length_pos_of_ne_nil h.last.component_ne
  have hlength : 2 ≤ q.path.length := by
    rw [h.path_eq, ← List.append_assoc, List.length_append]
    omega
  constructor <;> rintro hpath <;> rw [hpath] at hlength <;> exact absurd hlength (by decide)

end Appended

variable {p : FilePath} {path path1 path2 : List StringType}

theorem descend_concat (p : FilePath) (path : List StringType) (component : StringType) :
    descend config p (path ++ [component]) = append config (descend config p path) component := by
  rw [descend, List.foldl_append]
  rfl

/-- What can be appended to a path one after the other. -/
structure IsDescent (config : FilePathConfig) (p : FilePath) (path : List StringType) : Prop where
  isComponent : ∀ component ∈ path, IsComponent config component
  isJoined : ∀ component ∈ path, IsJoined config p component

theorem IsDescent.left (h : IsDescent config p (path1 ++ path2)) : IsDescent config p path1 :=
  ⟨fun component hmem => h.1 component (List.mem_append_left _ hmem),
    fun component hmem => h.2 component (List.mem_append_left _ hmem)⟩

/-- The last step of a descent, and where it starts. -/
theorem IsDescent.last_step {component : StringType}
    (h : IsDescent config p (path ++ [component])) :
    (p.path ≠ [] → p.path ≠ kCurrentDirectory →
      (descend config p path).path ≠ [] ∧ (descend config p path).path ≠ kCurrentDirectory) ∧
    ∃ drive front, Appended config (descend config p path) (descend config p (path ++ [component]))
      component drive front := by
  induction path using List.reverseRecOn generalizing component with
  | nil =>
    have hmem : component ∈ [] ++ [component] := List.mem_singleton_self component
    exact ⟨fun hne hcurrent => ⟨hne, hcurrent⟩,
      exists_appended p (h.isComponent _ hmem) (h.isJoined _ hmem)⟩
  | append_singleton path last ih =>
    obtain ⟨hstart, drive, front, hlast⟩ := ih h.left
    have hmem : component ∈ path ++ [last] ++ [component] := List.mem_concat_self
    have hne : p.path ≠ [] → p.path ≠ kCurrentDirectory →
        (descend config p (path ++ [last])).path ≠ [] ∧
          (descend config p (path ++ [last])).path ≠ kCurrentDirectory := fun hne hcurrent =>
      hlast.ne (hstart hne hcurrent).1 (hstart hne hcurrent).2
    refine ⟨hne, ?_⟩
    rw [descend_concat p (path ++ [last])]
    refine exists_appended _ (h.isComponent _ hmem) fun halone => h.isJoined _ hmem ?_
    by_contra hp
    rw [not_or] at hp
    exact absurd halone (not_or.mpr (hne hp.1 hp.2))

theorem IsDescent.directory_descend (h : IsDescent config p path) (hne : path ≠ []) :
    directory config (descend config p path) = descend config p path := by
  obtain ⟨front, last, rfl⟩ := (List.eq_nil_or_concat path).resolve_left hne
  rw [List.concat_eq_append] at h ⊢
  obtain ⟨-, _, _, hlast⟩ := h.last_step
  exact hlast.directory_eq_self

theorem IsDescent.components_descend (h : IsDescent config p path) (hne : p.path ≠ [])
    (hcurrent : p.path ≠ kCurrentDirectory) :
    components config (descend config p path).path = components config p.path ++ path ∧
      drivePrefix config (descend config p path).path = drivePrefix config p.path := by
  induction path using List.reverseRecOn with
  | nil => exact ⟨(List.append_nil _).symm, rfl⟩
  | append_singleton path component ih =>
    obtain ⟨hstart, _, _, hlast⟩ := h.last_step
    obtain ⟨hcomponents, hdrive⟩ := hlast.components_eq (hstart hne hcurrent).1
      (hstart hne hcurrent).2
    obtain ⟨ihcomponents, ihdrive⟩ := ih h.left
    rw [hcomponents, hdrive, ihcomponents, List.append_assoc]
    exact ⟨rfl, ihdrive⟩

/-- As many steps up as there were steps down. -/
theorem IsDescent.iterate_dirName (h : IsDescent config p (path1 ++ path2)) (hne : path2 ≠ []) :
    (dirName config)^[path2.length] (descend config p (path1 ++ path2)) =
      directory config (descend config p path1) := by
  induction path2 using List.reverseRecOn with
  | nil => exact absurd rfl hne
  | append_singleton path2 component ih =>
    rw [← List.append_assoc] at h ⊢
    obtain ⟨-, _, _, hlast⟩ := h.last_step
    rw [List.length_append, List.length_singleton, Function.iterate_succ_apply, hlast.dirName_eq]
    by_cases hpath2 : path2 = []
    · rw [hpath2, List.append_nil]
      rfl
    · rw [h.left.directory_descend (List.append_ne_nil_of_right_ne_nil _ hpath2), ih h.left hpath2]

/-- Whoever goes down from a path, and then up as many steps as there were components to the
way behind some place, is at that place again; only the separators at the end of the path where
he started may be gone. At the end of the way are all components of the path and of the way. -/
theorem dirName_descend (config : FilePathConfig) (p : FilePath) (path1 path2 : List StringType)
    (h : IsDescent config p (path1 ++ path2)) (hpath2 : path2 ≠ []) :
    (dirName config)^[path2.length] (descend config p (path1 ++ path2)) =
      directory config (descend config p path1) ∧
    (path1 ≠ [] → directory config (descend config p path1) = descend config p path1) ∧
    (baseName config (descend config p (path1 ++ path2))).path = path2.getLast hpath2 ∧
    (p.path ≠ [] → p.path ≠ kCurrentDirectory →
      components config (descend config p (path1 ++ path2)).path =
          components config p.path ++ (path1 ++ path2) ∧
        drivePrefix config (descend config p (path1 ++ path2)).path =
          drivePrefix config p.path) := by
  refine ⟨h.iterate_dirName hpath2, h.left.directory_descend, ?_, h.components_descend⟩
  obtain ⟨front, last, rfl⟩ := (List.eq_nil_or_concat path2).resolve_left hpath2
  simp only [List.concat_eq_append, List.getLast_concat, ← List.append_assoc] at h ⊢
  obtain ⟨-, _, _, hlast⟩ := h.last_step
  exact hlast.baseName_eq

/-- From `C:\x\` down to a and b, and back to `C:\x`. -/
theorem dirName_descend_windows :
    ((dirName windows)^[2] (descend windows (ofString (literal ['C', ':', '\\', 'x', '\\']))
        [literal ['a'], literal ['b']])).path = literal ['C', ':', '\\', 'x'] ∧
      (baseName windows (descend windows (ofString (literal ['C', ':', '\\', 'x', '\\']))
        [literal ['a'], literal ['b']])).path = literal ['b'] :=
  have hcomponent : ∀ component ∈ [literal ['a'], literal ['b']], IsComponent windows component :=
    List.forall_mem_cons.mpr ⟨⟨by decide, by decide, by decide⟩,
      List.forall_mem_cons.mpr ⟨⟨by decide, by decide, by decide⟩, nofun⟩⟩
  have h := dirName_descend windows (ofString (literal ['C', ':', '\\', 'x', '\\'])) []
    [literal ['a'], literal ['b']] ⟨hcomponent, fun _ _ hpath => absurd hpath (by decide)⟩
    (by decide)
  ⟨(congrArg FilePath.path h.1).trans (by decide), h.2.2.1⟩

end MiniChromium.FilePath
