import Mathlib.Data.List.Infix
import Mathlib.Logic.Function.Basic
import Mathlib.Tactic.Common

/-!
# Files, directories and symbolic links

A tree has an entry for some of the paths, which are lists of names, without the names of the
directory itself and of the one above. A symbolic link has a path that is read from the directory
that the link is in, or from the root. Looking for a path follows the links on it, as many as the
system allows, also one at its end; what makes or removes an entry follows those in front of it.
-/
namespace MiniChromium.FileSystem

inductive Entry (ν : Type)
  | file
  | directory
  | link (target : List ν)
  | absoluteLink (target : List ν)
  deriving DecidableEq

/-- `os.path.islink`, of what is there. -/
def Entry.isLink {ν : Type} : Entry ν → Bool
  | link _ | absoluteLink _ => true
  | file | directory => false

abbrev FileTree (ν : Type) := List ν → Option (Entry ν)

section Code

variable {ν : Type} [DecidableEq ν]

/-- What is at a path. The root is a directory. -/
def entryAt (t : FileTree ν) (path : List ν) : Option (Entry ν) :=
  if path = [] then some .directory else t path

/-- The names of a path are gone through from a directory, up to the first link. -/
def walk (t : FileTree ν) (follow : List ν → List ν → Option (List ν)) :
    List ν → List ν → Option (List ν)
  | directory, [] => some directory
  | directory, name :: names =>
    match t (directory ++ [name]) with
    | none => none
    | some .file => if names = [] then some (directory ++ [name]) else none
    | some .directory => walk t follow (directory ++ [name]) names
    | some (.link target) => follow directory (target ++ names)
    | some (.absoluteLink target) => follow [] (target ++ names)

/-- Where a path leads to, with so many links. -/
def resolve (t : FileTree ν) : ℕ → List ν → List ν → Option (List ν)
  | 0 => walk t fun _ _ => none
  | links + 1 => walk t (resolve t links)

/-- `MAXSYMLINKS`. -/
def maxSymlinks : ℕ := 32

/-- `os.path.exists`. -/
def pathExists (t : FileTree ν) (path : List ν) : Bool := (resolve t maxSymlinks [] path).isSome

/-- `os.path.isdir`. -/
def isDirectory (t : FileTree ν) (path : List ν) : Bool :=
  (resolve t maxSymlinks [] path).any fun place => entryAt t place = some .directory

/-- Where the entry of a path is or can be made: in the directory that the front leads to. -/
def locate (t : FileTree ν) (path : List ν) : Option (List ν) :=
  match path.getLast? with
  | none => none
  | some name =>
    if isDirectory t path.dropLast then
      (resolve t maxSymlinks [] path.dropLast).map fun directory => directory ++ [name]
    else none

/-- `os.lstat`: a link at the end is not followed. -/
def lstat (t : FileTree ν) (path : List ν) : Option (Entry ν) := (locate t path).bind t

/-- A new entry. There is no result where there is one, as where the system call fails. -/
def create (t : FileTree ν) (entry : Entry ν) (path : List ν) : Option (FileTree ν) :=
  (locate t path).bind fun place =>
    match t place with
    | none => some (Function.update t place (some entry))
    | some _ => none

/-- `os.mkdir`. -/
def mkdir (t : FileTree ν) (path : List ν) : Option (FileTree ν) := create t .directory path

/-- `os.symlink`, to a relative path. -/
def symlink (t : FileTree ν) (target path : List ν) : Option (FileTree ν) :=
  create t (.link target) path

/-- `os.symlink`, to an absolute path. -/
def symlinkAbsolute (t : FileTree ν) (target path : List ν) : Option (FileTree ν) :=
  create t (.absoluteLink target) path

/-- `os.unlink`, which raises where there is nothing or a directory. -/
def unlink (t : FileTree ν) (path : List ν) : Option (FileTree ν) :=
  (locate t path).bind fun place =>
    match t place with
    | none => none
    | some .directory => none
    | some _ => some (Function.update t place none)

/-- `os.makedirs`, with the names of the path in reverse. Where a directory above is a file or
a link that leads nowhere, the error there is passed over, but there is one again below. -/
def makedirsReverse (t : FileTree ν) : List ν → Option (FileTree ν)
  | [] => none
  | name :: above =>
    if above = [] ∨ pathExists t above.reverse = true then mkdir t (above.reverse ++ [name])
    else (makedirsReverse t above).bind fun t => mkdir t (above.reverse ++ [name])

/-- `os.makedirs`. -/
def makedirs (t : FileTree ν) (path : List ν) : Option (FileTree ν) :=
  makedirsReverse t path.reverse

end Code

section Walk

variable {ν : Type} {t : FileTree ν}
  {follow : List ν → List ν → Option (List ν)} {directory target names : List ν} {name : ν}
  {links : ℕ}

@[simp] theorem resolve_nil : resolve t links directory [] = some directory := by
  cases links <;> rfl

theorem walk_none (h : t (directory ++ [name]) = none) :
    walk t follow directory (name :: names) = none := by
  rw [walk, h]

theorem walk_file (h : t (directory ++ [name]) = some .file) :
    walk t follow directory (name :: names) =
      if names = [] then some (directory ++ [name]) else none := by
  rw [walk, h]

theorem walk_directory (h : t (directory ++ [name]) = some .directory) :
    walk t follow directory (name :: names) = walk t follow (directory ++ [name]) names := by
  rw [walk, h]

theorem resolve_link (h : t (directory ++ [name]) = some (.link target)) :
    resolve t (links + 1) directory (name :: names) =
      resolve t links directory (target ++ names) := by
  rw [resolve, walk, h]

theorem resolve_none (h : t (directory ++ [name]) = none) :
    resolve t links directory (name :: names) = none := by
  cases links <;> exact walk_none h

theorem resolve_file (h : t (directory ++ [name]) = some .file) :
    resolve t links directory (name :: names) =
      if names = [] then some (directory ++ [name]) else none := by
  cases links <;> exact walk_file h

theorem resolve_directory (h : t (directory ++ [name]) = some .directory) :
    resolve t links directory (name :: names) = resolve t links (directory ++ [name]) names := by
  cases links <;> exact walk_directory h

/-- At the end of a path there is what is there, unless it is a link. -/
theorem resolve_isSome (h : ∀ entry, t (directory ++ [name]) = some entry → entry.isLink = false) :
    (resolve t links directory [name]).isSome = (t (directory ++ [name])).isSome := by
  cases hentry : t (directory ++ [name]) with
  | none =>
    rw [resolve_none hentry]
    rfl
  | some entry => cases entry with
    | link target | absoluteLink target => exact absurd (h _ hentry) (by simp [Entry.isLink])
    | file =>
      rw [resolve_file hentry]
      rfl
    | directory =>
      rw [resolve_directory hentry, resolve_nil]
      rfl

end Walk

/-- What is in the tree is in a directory that is there. -/
def WellFormed {ν : Type} (t : FileTree ν) : Prop :=
  ∀ path name, t (path ++ [name]) ≠ none → entryAt t path = some .directory

theorem not_append_isPrefix {ν : Type} {path : List ν} {name : ν} : ¬path ++ [name] <+: path := by
  intro h
  have hlength := h.length_le
  rw [List.length_append, List.length_singleton] at hlength
  omega

/-- There is no link on the path, nor at its end. -/
def NoLinkOn {ν : Type} (t : FileTree ν) (path : List ν) : Prop :=
  ∀ front, front ≠ [] → front <+: path → ∀ entry, t front = some entry → entry.isLink = false

/-- There is a file on the path, or at its end. -/
def Blocked {ν : Type} (t : FileTree ν) (path : List ν) : Prop :=
  ∃ front, front <+: path ∧ entryAt t front = some .file

/-- The tree with directories all along a path. -/
def putDirectories {ν : Type} [DecidableEq ν] (path : List ν) (t : FileTree ν) : FileTree ν :=
  fun other => if other ≠ [] ∧ other <+: path then some .directory else t other

section Entries

variable {ν : Type} {t : FileTree ν} {path front rest names : List ν} {name : ν} {links : ℕ}

@[simp] theorem entryAt_nil : entryAt t [] = some .directory := rfl

theorem entryAt_of_ne (h : path ≠ []) : entryAt t path = t path := if_neg h

@[simp] theorem entryAt_append : entryAt t (path ++ [name]) = t (path ++ [name]) :=
  entryAt_of_ne (by simp)

/-- Above what is there are directories. -/
theorem WellFormed.above (h : WellFormed t) (hrest : rest ≠ [])
    (hentry : entryAt t (front ++ rest) ≠ none) : entryAt t front = some .directory := by
  induction rest generalizing front with
  | nil => exact absurd rfl hrest
  | cons name rest ih =>
    rw [List.append_cons] at hentry
    by_cases hlast : rest = []
    · rw [hlast, List.append_nil, entryAt_append] at hentry
      exact h front name hentry
    · have hnext := ih hlast hentry
      rw [entryAt_append] at hnext
      exact h front name (by rw [hnext]; simp)

theorem WellFormed.of_prefix (h : WellFormed t) (hfront : front <+: path)
    (hentry : entryAt t path = some .directory) : entryAt t front = some .directory := by
  obtain ⟨rest, rfl⟩ := hfront
  by_cases hrest : rest = []
  · rwa [hrest, List.append_nil] at hentry
  · exact h.above hrest (by rw [hentry]; simp)

theorem WellFormed.noLinkOn (h : WellFormed t) (hentry : entryAt t path = some .directory) :
    NoLinkOn t path := by
  intro front hne hfront entry heq
  have hdirectory := h.of_prefix hfront hentry
  rw [entryAt_of_ne hne, heq] at hdirectory
  rw [Option.some_inj.mp hdirectory]
  rfl

theorem NoLinkOn.of_prefix (h : NoLinkOn t path) (hfront : front <+: path) : NoLinkOn t front :=
  fun other hne hother => h other hne (hother.trans hfront)

/-- A path without links leads to itself, if there is something. -/
theorem resolve_append (h : WellFormed t) (hfront : entryAt t front = some .directory)
    (hlink : NoLinkOn t (front ++ names)) :
    resolve t links front names = (entryAt t (front ++ names)).map fun _ => front ++ names := by
  induction names generalizing front with
  | nil =>
    rw [List.append_nil, hfront, resolve_nil]
    rfl
  | cons name names ih =>
    have hmissing : t (front ++ [name]) ≠ some .directory → names ≠ [] →
        entryAt t (front ++ name :: names) = none := fun hentry hne => by
      rw [List.append_cons]
      by_contra hsome
      exact hentry (entryAt_append (t := t) ▸ h.above hne hsome)
    cases hentry : t (front ++ [name]) with
    | none =>
      rw [resolve_none hentry]
      by_cases hlast : names = []
      · rw [hlast, entryAt_append, hentry]
        rfl
      · rw [hmissing (by rw [hentry]; simp) hlast]
        rfl
    | some entry => cases entry with
      | file =>
        rw [resolve_file hentry]
        by_cases hlast : names = []
        · rw [hlast, entryAt_append, hentry, if_pos rfl]
          rfl
        · rw [hmissing (by rw [hentry]; simp) hlast, if_neg hlast]
          rfl
      | directory =>
        rw [List.append_cons] at hlink ⊢
        rw [resolve_directory hentry]
        exact ih (by rw [entryAt_append, hentry]) hlink
      | link target | absoluteLink target =>
        have hfront : front ++ [name] <+: front ++ name :: names :=
          ⟨names, (List.append_cons _ _ _).symm⟩
        exact absurd (hlink _ (by simp) hfront _ hentry) (by simp [Entry.isLink])

theorem resolve_eq (h : WellFormed t) (hlink : NoLinkOn t path) :
    resolve t links [] path = (entryAt t path).map fun _ => path := resolve_append h rfl hlink

theorem pathExists_eq (h : WellFormed t) (hlink : NoLinkOn t path) :
    pathExists t path = (entryAt t path).isSome := by
  rw [pathExists, resolve_eq h hlink, Option.isSome_map]

theorem blocked_append :
    Blocked t (path ++ [name]) ↔ Blocked t path ∨ t (path ++ [name]) = some .file := by
  constructor
  · rintro ⟨front, hfront, hfile⟩
    rcases List.prefix_concat_iff.mp hfront with rfl | hfront
    · rw [entryAt_append] at hfile
      exact .inr hfile
    · exact .inl ⟨front, hfront, hfile⟩
  · rintro (⟨front, hfront, hfile⟩ | hfile)
    · exact ⟨front, hfront.trans (List.prefix_append _ _), hfile⟩
    · exact ⟨_, List.prefix_rfl, entryAt_append.trans hfile⟩

theorem not_blocked_of_directory (h : WellFormed t) (hentry : entryAt t path = some .directory) :
    ¬Blocked t path := by
  rintro ⟨front, hfront, hfile⟩
  rw [h.of_prefix hfront hentry] at hfile
  exact absurd hfile (by simp)

/-- What is at the end of a path without files and links. -/
theorem entryAt_cases (hlink : NoLinkOn t path) (hblocked : ¬Blocked t path) :
    entryAt t path = none ∨ entryAt t path = some .directory := by
  cases hentry : entryAt t path with
  | none => exact .inl rfl
  | some entry => cases entry with
    | directory => exact .inr rfl
    | file => exact absurd ⟨path, List.prefix_rfl, hentry⟩ hblocked
    | link target | absoluteLink target =>
      have hpath : path ≠ [] := by
        rintro rfl
        exact absurd hentry (by simp)
      rw [entryAt_of_ne hpath] at hentry
      exact absurd (hlink path hpath List.prefix_rfl _ hentry) (by simp [Entry.isLink])

end Entries

section Directories

variable {ν : Type} [DecidableEq ν] {t : FileTree ν} {path : List ν} {name : ν}

theorem isDirectory_iff (h : WellFormed t) (hlink : NoLinkOn t path) :
    isDirectory t path = true ↔ entryAt t path = some .directory := by
  rw [isDirectory, resolve_eq h hlink]
  cases hentry : entryAt t path with
  | none => simp
  | some entry => simp [hentry]

theorem locate_append (h : WellFormed t) (hlink : NoLinkOn t path) :
    locate t (path ++ [name]) =
      if entryAt t path = some .directory then some (path ++ [name]) else none := by
  rw [locate, List.getLast?_concat, List.dropLast_concat]
  dsimp only
  by_cases hentry : entryAt t path = some .directory
  · rw [if_pos ((isDirectory_iff h hlink).mpr hentry), if_pos hentry, resolve_eq h hlink, hentry]
    rfl
  · rw [if_neg (mt (isDirectory_iff h hlink).mp hentry), if_neg hentry]

/-- An entry is made in a directory, where there is none. -/
theorem create_append (entry : Entry ν) (h : WellFormed t) (hlink : NoLinkOn t path) :
    create t entry (path ++ [name]) =
      if entryAt t path = some .directory ∧ t (path ++ [name]) = none then
        some (Function.update t (path ++ [name]) (some entry))
      else none := by
  rw [create, locate_append h hlink]
  by_cases hdirectory : entryAt t path = some .directory
  · rw [if_pos hdirectory, Option.bind_some]
    cases hentry : t (path ++ [name]) with
    | none => exact (if_pos ⟨hdirectory, rfl⟩).symm
    | some other => exact (if_neg fun hnone => absurd hnone.2 nofun).symm
  · rw [if_neg hdirectory, if_neg (mt And.left hdirectory)]
    rfl

theorem entryAt_putDirectories : entryAt (putDirectories path t) path = some .directory := by
  by_cases hpath : path = []
  · rw [hpath, entryAt_nil]
  · rw [entryAt_of_ne hpath, putDirectories, if_pos ⟨hpath, List.prefix_rfl⟩]

theorem putDirectories_apart {other : List ν} (h : ¬other <+: path) :
    putDirectories path t other = t other := if_neg (mt And.right h)

theorem WellFormed.putDirectories (h : WellFormed t) :
    WellFormed (putDirectories path t) := by
  intro above name hentry
  by_cases habove : above <+: path
  · by_cases hnil : above = []
    · rw [hnil, entryAt_nil]
    · rw [entryAt_of_ne hnil, FileSystem.putDirectories, if_pos ⟨hnil, habove⟩]
  · have hbelow : ¬above ++ [name] <+: path := mt ((List.prefix_append _ _).trans) habove
    rw [putDirectories_apart hbelow] at hentry
    have hdirectory := h above name hentry
    have hnil : above ≠ [] := by
      rintro rfl
      exact habove List.nil_prefix
    rw [entryAt_of_ne hnil] at hdirectory ⊢
    rw [putDirectories_apart habove, hdirectory]

/-- Nothing is put where the path is a directory. -/
theorem WellFormed.putDirectories_eq_self (h : WellFormed t)
    (hentry : entryAt t path = some .directory) : FileSystem.putDirectories path t = t := by
  funext other
  rw [FileSystem.putDirectories]
  split_ifs with hother
  · rw [← h.of_prefix hother.2 hentry, entryAt_of_ne hother.1]
  · rfl

theorem update_putDirectories : Function.update (putDirectories path t) (path ++ [name])
    (some .directory) = putDirectories (path ++ [name]) t := by
  funext other
  by_cases hlast : other = path ++ [name]
  · rw [hlast, Function.update_self, putDirectories, if_pos ⟨by simp, List.prefix_rfl⟩]
  · rw [Function.update_of_ne hlast]
    simp only [putDirectories, List.prefix_concat_iff, hlast, false_or]

theorem makedirs_append : makedirs t (path ++ [name]) =
    if path = [] ∨ pathExists t path = true then mkdir t (path ++ [name])
    else (makedirs t path).bind fun t => mkdir t (path ++ [name]) := by
  rw [makedirs, List.reverse_concat, makedirsReverse, List.reverse_reverse, makedirs]
  simp only [List.reverse_eq_nil_iff]

/-- The directories on a path are made, but in a file. -/
theorem makedirs_eq (h : WellFormed t) (hlink : NoLinkOn t path)
    (hentry : entryAt t path ≠ some .directory) :
    (Blocked t path → makedirs t path = none) ∧
      (¬Blocked t path → makedirs t path = some (putDirectories path t)) := by
  induction path using List.reverseRecOn with
  | nil => exact absurd rfl hentry
  | append_singleton path name ih =>
    have hlinks := hlink.of_prefix (List.prefix_append path [name])
    rw [blocked_append, makedirs_append, pathExists_eq h hlinks]
    by_cases hdirectory : entryAt t path = some .directory
    · have hblocked := not_blocked_of_directory h hdirectory
      rw [hdirectory, if_pos (.inr rfl), mkdir, create_append _ h hlinks, hdirectory,
        or_iff_right hblocked]
      constructor
      · intro hfile
        rw [hfile, if_neg (by simp)]
      · intro hfile
        have hclear : ¬Blocked t (path ++ [name]) := by simp [blocked_append, hblocked, hfile]
        have hnone := (entryAt_cases hlink hclear).resolve_right hentry
        rw [entryAt_append] at hnone
        rw [if_pos ⟨rfl, hnone⟩, ← update_putDirectories, h.putDirectories_eq_self hdirectory]
    · have hnone : t (path ++ [name]) = none := by
        by_contra hsome
        exact hdirectory (h path name hsome)
      have hnil : path ≠ [] := by
        rintro rfl
        exact hdirectory rfl
      obtain ⟨hraises, hmakes⟩ := ih hlinks hdirectory
      rw [hnone, or_iff_left (by simp)]
      constructor
      · intro hblocked
        split_ifs
        · rw [mkdir, create_append _ h hlinks, if_neg (mt And.left hdirectory)]
        · rw [hraises hblocked]
          rfl
      · intro hblocked
        have hmissing := (entryAt_cases hlinks hblocked).resolve_right hdirectory
        rw [hmissing, if_neg (by simpa using hnil), hmakes hblocked, Option.bind_some, mkdir]
        have hput : WellFormed (putDirectories path t) := h.putDirectories
        rw [create_append _ hput (hput.noLinkOn entryAt_putDirectories),
          putDirectories_apart not_append_isPrefix, if_pos ⟨entryAt_putDirectories, hnone⟩,
          update_putDirectories]

end Directories

end MiniChromium.FileSystem
