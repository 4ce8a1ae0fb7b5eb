import Mathlib.Algebra.Ring.Nat
import Mathlib.Data.List.TakeWhile
import MiniChromium.FileSystem
import MiniChromium.PListInterpolate
import MiniChromium.UnicodeDigits

/-!
# Information about the SDK

The version of Xcode is printed as a number, and the paths of the SDK may be given as links in a
directory of the build, which are kept up to date.
-/
namespace MiniChromium.SdkInfo

open FileSystem PListUtil UnicodeDigits

section Code

/-- `os.path.join(dst, os.path.basename(src))`: the name is empty if `src` is the root. -/
def linkLocation (dst src : List String) : List String := dst ++ src.getLast?.toList

/-- The link at a location is made, or made anew if it has another path. -/
def updateSymlink (location src : List String) (t : FileTree String) : Option (FileTree String) :=
  if (lstat t location).any Entry.isLink then
    if lstat t location = some (.absoluteLink src) then some t
    else (unlink t location).bind fun t => symlinkAbsolute t src location
  else symlinkAbsolute t src location

/-- `CreateXcodeSymlinkAt`, of an absolute path. There is no result where it raises. -/
def createXcodeSymlinkAt (dst : List String) (t : FileTree String) (src : List String) :
    Option (FileTree String) :=
  (if isDirectory t dst then some t else makedirs t dst).bind
    (updateSymlink (linkLocation dst src) src)

end Code

variable {dst src : List String} {t t' : FileTree String}

/-- Nothing but a link is in the way. -/
def Linkable (t : FileTree String) (path : List String) : Prop :=
  ∀ entry, entryAt t path = some entry → entry.isLink = true

/-- The tree with the link to a path. -/
def withLink (dst : List String) (t : FileTree String) (src : List String) : FileTree String :=
  Function.update t (linkLocation dst src) (some (.absoluteLink src))

/-- The directory of the links is there. -/
structure LinksIn (dst : List String) (t : FileTree String) : Prop where
  wellFormed : WellFormed t
  directory : entryAt t dst = some .directory

theorem exists_linkLocation (dst : List String) (hsrc : src ≠ []) :
    ∃ name, linkLocation dst src = dst ++ [name] ∧ src.getLast? = some name := by
  have hlast := List.getLast?_eq_some_getLast hsrc
  exact ⟨src.getLast hsrc, by rw [linkLocation, hlast]; rfl, hlast⟩

theorem entryAt_linkLocation (hsrc : src ≠ []) :
    entryAt t (linkLocation dst src) = t (linkLocation dst src) := by
  obtain ⟨name, hlocation, -⟩ := exists_linkLocation dst hsrc
  rw [hlocation, entryAt_append]

namespace LinksIn

theorem ne_nil (h : LinksIn dst t) (hlinkable : Linkable t (linkLocation dst src)) : src ≠ [] := by
  rintro rfl
  have hlocation : linkLocation dst [] = dst := List.append_nil dst
  rw [hlocation] at hlinkable
  exact absurd (hlinkable _ h.directory) (by decide)

theorem locate_linkLocation (h : LinksIn dst t) (hsrc : src ≠ []) :
    locate t (linkLocation dst src) = some (linkLocation dst src) := by
  obtain ⟨name, hlocation, -⟩ := exists_linkLocation dst hsrc
  rw [hlocation, locate_append h.wellFormed (h.wellFormed.noLinkOn h.directory),
    if_pos h.directory]

/-- The directory stays when an entry in it changes that is no directory. -/
theorem update (h : LinksIn dst t) (hlinkable : Linkable t (linkLocation dst src))
    (entry : Option (Entry String)) :
    LinksIn dst (Function.update t (linkLocation dst src) entry) := by
  have hsrc := h.ne_nil hlinkable
  obtain ⟨name, hlocation, -⟩ := exists_linkLocation dst hsrc
  have hkeep : ∀ path, entryAt t path = some .directory →
      entryAt (Function.update t (linkLocation dst src) entry) path = some .directory := by
    intro path hpath
    by_cases hnil : path = []
    · rw [hnil, entryAt_nil]
    · have hne : path ≠ linkLocation dst src := by
        rintro rfl
        exact absurd (hlinkable _ hpath) (by decide)
      rw [entryAt_of_ne hnil] at hpath ⊢
      rw [Function.update_of_ne hne, hpath]
  refine ⟨fun path other hother => ?_, hkeep dst h.directory⟩
  by_cases hpath : path ++ [other] = linkLocation dst src
  · rw [hlocation] at hpath
    rw [(List.append_inj' hpath rfl).1]
    exact hkeep dst h.directory
  · rw [Function.update_of_ne hpath] at hother
    exact hkeep path (h.wellFormed path other hother)

theorem withLink (h : LinksIn dst t) (hlinkable : Linkable t (linkLocation dst src)) :
    LinksIn dst (withLink dst t src) := h.update hlinkable _

/-- The link is made, unless something else is in its way. -/
theorem updateSymlink_eq (h : LinksIn dst t) (hlinkable : Linkable t (linkLocation dst src)) :
    updateSymlink (linkLocation dst src) src t = some (SdkInfo.withLink dst t src) := by
  have hsrc := h.ne_nil hlinkable
  have hlocate := h.locate_linkLocation hsrc
  have hagain := (h.update hlinkable none).locate_linkLocation hsrc
  rw [Linkable, entryAt_linkLocation hsrc] at hlinkable
  rw [updateSymlink, lstat, hlocate, Option.bind_some, SdkInfo.withLink]
  cases hentry : t (linkLocation dst src) with
  | none =>
    rw [Option.any_none, if_neg (by decide), symlinkAbsolute, create, hlocate, Option.bind_some,
      hentry]
  | some entry =>
    have hlink := hlinkable entry hentry
    rw [Option.any_some, if_pos hlink]
    by_cases hsame : entry = .absoluteLink src
    · rw [if_pos (congrArg some hsame), ← hsame, ← hentry, Function.update_eq_self]
    · have hunlink : unlink t (linkLocation dst src) =
          some (Function.update t (linkLocation dst src) none) := by
        rw [unlink, hlocate, Option.bind_some, hentry]
        cases entry with
        | link target | absoluteLink target => rfl
        | file | directory => exact absurd hlink (by decide)
      rw [if_neg (mt Option.some_inj.mp hsame), hunlink, Option.bind_some, symlinkAbsolute, create,
        hagain, Option.bind_some, Function.update_self]
      dsimp only
      rw [Function.update_idem]

/-- The root has no location in a directory. -/
theorem locate_dst (h : LinksIn dst t) : dst = [] ∧ locate t dst = none ∨
    dst ≠ [] ∧ locate t dst = some dst := by
  rcases List.eq_nil_or_concat' dst with rfl | ⟨above, name, rfl⟩
  · exact .inl ⟨rfl, rfl⟩
  · have habove := h.wellFormed.of_prefix (List.prefix_append above [name]) h.directory
    refine .inr ⟨by simp, ?_⟩
    rw [locate_append h.wellFormed (h.wellFormed.noLinkOn habove), if_pos habove]

theorem updateSymlink_eq_none (h : LinksIn dst t)
    (hlinkable : ¬Linkable t (linkLocation dst src)) :
    updateSymlink (linkLocation dst src) src t = none := by
  simp only [Linkable, not_forall] at hlinkable
  obtain ⟨entry, hentry, hlink⟩ := hlinkable
  have hlocate : locate t (linkLocation dst src) = none ∨ linkLocation dst src ≠ [] ∧
      locate t (linkLocation dst src) = some (linkLocation dst src) := by
    by_cases hsrc : src = []
    · have hlocation : linkLocation dst [] = dst := List.append_nil dst
      rw [hsrc, hlocation]
      exact h.locate_dst.imp_left And.right
    · obtain ⟨name, hlocation, -⟩ := exists_linkLocation dst hsrc
      exact .inr ⟨by simp [hlocation], h.locate_linkLocation hsrc⟩
  rw [updateSymlink, lstat, symlinkAbsolute, create]
  rcases hlocate with hlocate | ⟨hne, hlocate⟩
  · rw [hlocate]
    rfl
  · rw [entryAt_of_ne hne] at hentry
    rw [hlocate, Option.bind_some, hentry, Option.any_some, if_neg hlink, Option.bind_some, hentry]

/-- In a directory that is there, all is about the link. -/
theorem createXcodeSymlinkAt_eq (h : LinksIn dst t) :
    createXcodeSymlinkAt dst t src = updateSymlink (linkLocation dst src) src t := by
  have hlink := h.wellFormed.noLinkOn h.directory
  rw [createXcodeSymlinkAt, if_pos ((isDirectory_iff h.wellFormed hlink).mpr h.directory),
    Option.bind_some]

end LinksIn

/-- The directory is made first, where it is missing. -/
theorem createXcodeSymlinkAt_putDirectories (src : List String) (h : WellFormed t)
    (hlink : NoLinkOn t dst) :
    (Blocked t dst → createXcodeSymlinkAt dst t src = none) ∧
      (¬Blocked t dst → LinksIn dst (putDirectories dst t) ∧ createXcodeSymlinkAt dst t src =
        updateSymlink (linkLocation dst src) src (putDirectories dst t)) := by
  have hlinksIn : LinksIn dst (putDirectories dst t) := ⟨h.putDirectories, entryAt_putDirectories⟩
  have hisdir := isDirectory_iff h hlink
  rw [createXcodeSymlinkAt]
  by_cases hdirectory : entryAt t dst = some .directory
  · rw [if_pos (hisdir.mpr hdirectory), h.putDirectories_eq_self hdirectory]
    exact ⟨fun hblocked => absurd hblocked (not_blocked_of_directory h hdirectory),
      fun _ => ⟨⟨h, hdirectory⟩, rfl⟩⟩
  · obtain ⟨hraises, hmakes⟩ := makedirs_eq h hlink hdirectory
    rw [if_neg (mt hisdir.mp hdirectory)]
    refine ⟨fun hblocked => ?_, fun hblocked => ⟨hlinksIn, ?_⟩⟩
    · rw [hraises hblocked]
      rfl
    · rw [hmakes hblocked]
      rfl

theorem entryAt_withLink_of_ne {path : List String} (h : path ≠ linkLocation dst src) :
    entryAt (withLink dst t src) path = entryAt t path := by
  rw [entryAt, entryAt, withLink, Function.update_of_ne h]

theorem linkable_withLink_iff {path : List String} (hsrc : Linkable t (linkLocation dst src)) :
    Linkable (withLink dst t src) path ↔ Linkable t path := by
  by_cases hpath : path = linkLocation dst src
  · rw [hpath]
    refine iff_of_true (fun entry hentry => ?_) hsrc
    by_cases hnil : linkLocation dst src = []
    · rw [hnil] at hentry hsrc
      exact hsrc entry hentry
    · rw [entryAt_of_ne hnil, withLink, Function.update_self] at hentry
      rw [← Option.some_inj.mp hentry]
      rfl
  · rw [Linkable, entryAt_withLink_of_ne hpath, Linkable]

theorem Linkable.foldl {path : List String} {srcs : List (List String)} (h : Linkable t path)
    (hsrcs : ∀ src ∈ srcs, Linkable t (linkLocation dst src)) :
    Linkable (srcs.foldl (SdkInfo.withLink dst) t) path := by
  induction srcs generalizing t with
  | nil => exact h
  | cons src srcs ih =>
    obtain ⟨hsrc, hsrcs⟩ := List.forall_mem_cons.mp hsrcs
    exact ih ((linkable_withLink_iff hsrc).mpr h) fun other hmem =>
      (linkable_withLink_iff hsrc).mpr (hsrcs other hmem)

/-- The links are made one after the other, unless something else is in the way of one. -/
theorem LinksIn.foldlM (h : LinksIn dst t) (srcs : List (List String)) :
    ((∀ src ∈ srcs, Linkable t (linkLocation dst src)) ∧
        srcs.foldlM (createXcodeSymlinkAt dst) t = some (srcs.foldl (SdkInfo.withLink dst) t) ∧
        LinksIn dst (srcs.foldl (SdkInfo.withLink dst) t)) ∨
      (∃ src ∈ srcs, ¬Linkable t (linkLocation dst src)) ∧
        srcs.foldlM (createXcodeSymlinkAt dst) t = none := by
  induction srcs generalizing t with
  | nil => exact .inl ⟨nofun, rfl, h⟩
  | cons src srcs ih =>
    rw [List.foldlM_cons, List.foldl_cons, h.createXcodeSymlinkAt_eq]
    by_cases hsrc : Linkable t (linkLocation dst src)
    · rw [h.updateSymlink_eq hsrc]
      simp only [List.forall_mem_cons, List.exists_mem_cons_iff, hsrc, true_and, not_true_eq_false,
        false_or]
      have hnext := ih (h.withLink hsrc)
      simp only [linkable_withLink_iff hsrc] at hnext
      exact hnext
    · rw [h.updateSymlink_eq_none hsrc]
      exact .inr ⟨⟨src, List.mem_cons_self, hsrc⟩, rfl⟩

/-- A name has the link to the last path with that name. -/
theorem foldl_withLink_apply (srcs : List (List String)) (t : FileTree String) (name : String)
    (hsrcs : ∀ src ∈ srcs, src ≠ []) :
    srcs.foldl (withLink dst) t (dst ++ [name]) =
      ((srcs.reverse.find? fun src => src.getLast? = some name).map .absoluteLink).or
        (t (dst ++ [name])) := by
  induction srcs generalizing t with
  | nil => rfl
  | cons src srcs ih =>
    obtain ⟨hsrc, hsrcs⟩ := List.forall_mem_cons.mp hsrcs
    obtain ⟨other, hlocation, hlast⟩ := exists_linkLocation dst hsrc
    rw [List.foldl_cons, ih _ hsrcs, List.reverse_cons, List.find?_append, Option.map_or,
      Option.or_assoc]
    congr 1
    by_cases hname : other = name
    · simp [withLink, hlocation, hlast, hname]
    · simp [withLink, hlocation, hlast, hname, Ne.symm hname]

theorem foldl_withLink_of_ne {path : List String} (srcs : List (List String))
    (h : ∀ src ∈ srcs, path ≠ linkLocation dst src) (t : FileTree String) :
    srcs.foldl (withLink dst) t path = t path := by
  induction srcs generalizing t with
  | nil => rfl
  | cons src srcs ih =>
    obtain ⟨hsrc, hsrcs⟩ := List.forall_mem_cons.mp h
    rw [List.foldl_cons, ih hsrcs, withLink, Function.update_of_ne hsrc]

/-- What the links are, in a directory that is there. -/
theorem LinksIn.links (h : LinksIn dst t) (srcs : List (List String)) :
    (srcs.foldlM (createXcodeSymlinkAt dst) t = none ↔
        ∃ src ∈ srcs, ¬Linkable t (linkLocation dst src)) ∧
      ∀ t', srcs.foldlM (createXcodeSymlinkAt dst) t = some t' →
        LinksIn dst t' ∧
        (∀ name, t' (dst ++ [name]) =
          ((srcs.reverse.find? fun src => src.getLast? = some name).map .absoluteLink).or
            (t (dst ++ [name]))) ∧
        (∀ path, (∀ src ∈ srcs, path ≠ linkLocation dst src) → t' path = t path) ∧
        srcs.foldlM (createXcodeSymlinkAt dst) t' = some t' := by
  rcases h.foldlM srcs with ⟨hall, hrun, hlinks⟩ | ⟨hexists, hrun⟩
  · refine ⟨iff_of_false (by rw [hrun]; simp) fun ⟨src, hmem, hnot⟩ => hnot (hall src hmem), ?_⟩
    rw [hrun]
    rintro t' ⟨⟩
    have hsrcs : ∀ src ∈ srcs, src ≠ [] := fun src hmem => h.ne_nil (hall src hmem)
    have hname : ∀ t name, srcs.foldl (SdkInfo.withLink dst) t (dst ++ [name]) =
        ((srcs.reverse.find? fun src => src.getLast? = some name).map .absoluteLink).or
          (t (dst ++ [name])) := fun t name => foldl_withLink_apply srcs t name hsrcs
    have hother : ∀ path, (∀ src ∈ srcs, path ≠ linkLocation dst src) → ∀ t,
        srcs.foldl (SdkInfo.withLink dst) t path = t path :=
      fun path hpath t => foldl_withLink_of_ne srcs hpath t
    refine ⟨hlinks, hname t, fun path hpath => hother path hpath t, ?_⟩
    have hagain : srcs.foldl (SdkInfo.withLink dst) (srcs.foldl (SdkInfo.withLink dst) t) =
        srcs.foldl (SdkInfo.withLink dst) t := by
      funext path
      by_cases hpath : ∃ src ∈ srcs, path = linkLocation dst src
      · obtain ⟨src, hmem, rfl⟩ := hpath
        obtain ⟨name, hlocation, -⟩ := exists_linkLocation dst (hsrcs src hmem)
        rw [hlocation, hname, hname, ← Option.or_assoc, Option.or_self]
      · exact hother path (fun src hmem heq => hpath ⟨src, hmem, heq⟩) _
    rcases hlinks.foldlM srcs with ⟨-, hrun', -⟩ | ⟨⟨src, hmem, hnot⟩, -⟩
    · rw [hrun', hagain]
    · exact absurd ((hall src hmem).foldl hall) hnot
  · exact ⟨iff_of_true hrun hexists, fun t' h => absurd (hrun.symm.trans h) nofun⟩

/-- The new directories are not in the way of a link. -/
theorem linkable_putDirectories_iff :
    Linkable (putDirectories dst t) (linkLocation dst src) ↔
      src ≠ [] ∧ Linkable t (linkLocation dst src) := by
  by_cases hsrc : src = []
  · have hlocation : linkLocation dst [] = dst := List.append_nil dst
    rw [hsrc, hlocation]
    refine iff_of_false (fun h => ?_) fun h => h.1 rfl
    exact absurd (h _ entryAt_putDirectories) (by decide)
  · obtain ⟨name, hlocation, -⟩ := exists_linkLocation dst hsrc
    rw [and_iff_right hsrc, hlocation, Linkable, Linkable, entryAt_append, entryAt_append,
      putDirectories_apart not_append_isPrefix]

/-- The links that are made raise only where a file is on the way to them, or something else is
in the way of one. Each name has the link to the last path with that name, the directory is made
where it is missing, and all else stays. Made again, the links are the same. -/
theorem createXcodeSymlinks (hwell : WellFormed t) (hlink : NoLinkOn t dst)
    (srcs : List (List String)) :
    (srcs.foldlM (createXcodeSymlinkAt dst) t = none ↔
        ∃ src ∈ srcs, src = [] ∨ Blocked t dst ∨ ¬Linkable t (linkLocation dst src)) ∧
      ∀ t', srcs.foldlM (createXcodeSymlinkAt dst) t = some t' →
        (srcs ≠ [] → WellFormed t' ∧ entryAt t' dst = some .directory) ∧
        (∀ name, t' (dst ++ [name]) =
          ((srcs.reverse.find? fun src => src.getLast? = some name).map .absoluteLink).or
            (t (dst ++ [name]))) ∧
        (∀ path, ¬path <+: dst → (∀ src ∈ srcs, path ≠ linkLocation dst src) →
          t' path = t path) ∧
        srcs.foldlM (createXcodeSymlinkAt dst) t' = some t' := by
  cases srcs with
  | nil =>
    refine ⟨iff_of_false nofun (by simp), ?_⟩
    rintro t' ⟨⟩
    exact ⟨fun h => absurd rfl h, fun _ => rfl, fun _ _ _ => rfl, rfl⟩
  | cons first rest =>
    obtain ⟨hraises, hmakes⟩ := createXcodeSymlinkAt_putDirectories first hwell hlink
    by_cases hblocked : Blocked t dst
    · rw [List.foldlM_cons, hraises hblocked]
      exact ⟨iff_of_true rfl ⟨first, List.mem_cons_self, .inr (.inl hblocked)⟩, nofun⟩
    · obtain ⟨hlinks, hfirst⟩ := hmakes hblocked
      have hstart : (first :: rest).foldlM (createXcodeSymlinkAt dst) t =
          (first :: rest).foldlM (createXcodeSymlinkAt dst) (putDirectories dst t) := by
        rw [List.foldlM_cons, List.foldlM_cons, hfirst, hlinks.createXcodeSymlinkAt_eq]
      have hbelow : ∀ {name}, ¬dst ++ [name] <+: dst := not_append_isPrefix
      generalize first :: rest = srcs at hstart ⊢
      obtain ⟨hnone, hsome⟩ := hlinks.links srcs
      rw [hstart, hnone]
      constructor
      · simp only [linkable_putDirectories_iff, not_and_or, not_not, hblocked, false_or]
      · intro t' hrun
        obtain ⟨hlinks', hname, hother, hagain⟩ := hsome t' hrun
        refine ⟨fun _ => ⟨hlinks'.wellFormed, hlinks'.directory⟩, fun name => ?_,
          fun path hpath hne => ?_, hagain⟩
        · rw [hname, putDirectories_apart hbelow]
        · rw [hother path hne, putDirectories_apart hpath]

/-- In an empty tree, the second of two links with one name stays. -/
theorem createXcodeSymlinks_two :
    ∃ t', [["Xcode", "SDK"], ["Tools", "SDK"]].foldlM (createXcodeSymlinkAt ["out", "links"])
        (fun _ => none) = some t' ∧
      t' ["out", "links", "SDK"] = some (.absoluteLink ["Tools", "SDK"]) := by
  have hwell : WellFormed fun _ : List String => none := fun _ _ h => absurd rfl h
  have hlink : NoLinkOn (fun _ => none) ["out", "links"] := fun _ _ _ _ h => nomatch h
  obtain ⟨hnone, hsome⟩ :=
    createXcodeSymlinks hwell hlink [["Xcode", "SDK"], ["Tools", "SDK"]]
  have hruns : [["Xcode", "SDK"], ["Tools", "SDK"]].foldlM
      (createXcodeSymlinkAt ["out", "links"]) (fun _ => none) ≠ none := by
    rw [Ne, hnone]
    rintro ⟨src, hmem, rfl | ⟨front, -, hfile⟩ | hlinkable⟩
    · exact absurd hmem (by decide)
    · simp [entryAt] at hfile
    · refine hlinkable fun entry hentry => ?_
      simp [entryAt, linkLocation] at hentry
  obtain ⟨t', hrun⟩ := Option.ne_none_iff_exists'.mp hruns
  exact ⟨t', hrun, (hsome t' hrun).2.1 "SDK"⟩

section Code

/-- `SplitVersion`: the first three parts, or zeros where there are fewer. -/
def splitVersion (version : Text) : Text × Text × Text :=
  let parts := version.splitOn '.'
  (parts.getD 0 ['0'], parts.getD 1 ['0'], parts.getD 2 ['0'])

/-- `FormatVersion`. -/
def formatVersion (version : Text) : Text :=
  let (major, minor, patch) := splitVersion version
  (List.replicate (2 - major.length) ' ' ++ major ++ minor ++ patch).map fun c =>
    if c = ' ' then '0' else c

/-- A blank around a number. -/
def intBlank (c : Char) : Bool := isSpace c && !(0x1C ≤ c.toNat && c.toNat ≤ 0x1F)

/-- Digits with single underscores between them. -/
def intOfDigits (text : Text) : Option ℕ :=
  let groups := text.splitOn '_'
  if groups.all fun digits => digits ≠ [] && digits.all isDecimal then
    some (ofDecimals groups.flatten)
  else none

/-- `int(text, 10)`. -/
def intOfText (text : Text) : Option ℤ :=
  match ((text.dropWhile intBlank).reverse.dropWhile intBlank).reverse with
  | '-' :: digits => (intOfDigits digits).map fun n => -n
  | '+' :: digits => (intOfDigits digits).map Int.ofNat
  | digits => (intOfDigits digits).map Int.ofNat

/-- `settings['xcode_version_int']`. -/
def xcodeVersionInt (version : Text) : Option ℤ := intOfText (formatVersion version)

end Code

/-- A version with these numbers. -/
def versionText (numbers : List ℕ) : Text := ['.'].intercalate (numbers.map (Nat.toDigits 10))

variable {major minor patch : ℕ} {rest : List ℕ}

theorem intBlank_of_isDigit {c : Char} (h : c.isDigit = true) : intBlank c = false := by
  have hrange := toNat_of_isDigit h
  simp only [intBlank, isSpace, Bool.and_eq_false_iff, Bool.or_eq_false_iff,
    decide_eq_false_iff_not]
  omega

/-- Digits are read as the number they are the digits of. -/
theorem intOfText_of_isDigit {text : Text} (hne : text ≠ [])
    (h : ∀ c ∈ text, c.isDigit = true) :
    intOfText text = some ((Nat.ofDigitChars 10 text 0 : ℕ) : ℤ) := by
  have hdrop : ∀ text : Text, (∀ c ∈ text, c.isDigit = true) → text.dropWhile intBlank = text := by
    intro text h
    cases text with
    | nil => rfl
    | cons c text =>
      rw [List.dropWhile_cons_of_neg]
      rw [intBlank_of_isDigit (h c List.mem_cons_self)]
      decide
  have hsplit : text.splitOn '_' = [text] := by
    have hone : ∀ digits ∈ [text], '_' ∉ digits := by
      intro digits hmem hunderscore
      rw [List.mem_singleton.mp hmem] at hunderscore
      exact absurd (h _ hunderscore) (by decide)
    have hsplit := List.splitOn_intercalate '_' hone (List.cons_ne_nil _ _)
    rwa [List.intercalate_singleton] at hsplit
  have hall : text.all isDecimal = true :=
    List.all_eq_true.mpr fun c hc => isDecimal_of_isDigit (h c hc)
  have hdigits : intOfDigits text = some (Nat.ofDigitChars 10 text 0) := by
    rw [intOfDigits, hsplit]
    simp [hne, hall, ofDecimals_of_isDigit h]
  have hsign : ∀ {c digits}, text = c :: digits → c.isDigit = true := by
    rintro c digits rfl
    exact h c List.mem_cons_self
  rw [intOfText, hdrop text h, hdrop text.reverse (by simpa using h), List.reverse_reverse]
  split
  · exact absurd (hsign rfl) (by decide)
  · exact absurd (hsign rfl) (by decide)
  · rw [hdigits]
    rfl

theorem splitVersion_versionText (major : ℕ) (rest : List ℕ) :
    splitVersion (versionText (major :: rest)) = (Nat.toDigits 10 major,
      Nat.toDigits 10 (rest.getD 0 0), Nat.toDigits 10 (rest.getD 1 0)) := by
  have hdot : ∀ part ∈ (major :: rest).map (Nat.toDigits 10), '.' ∉ part := by
    intro part hpart hmem
    obtain ⟨n, -, rfl⟩ := List.mem_map.mp hpart
    exact absurd (isDigit_of_mem_toDigits hmem) (by decide)
  rw [splitVersion, versionText, List.splitOn_intercalate '.' hdot (by simp)]
  rcases rest with _ | ⟨minor, _ | ⟨patch, rest⟩⟩ <;> simp [Nat.toDigits_zero]

/-- The digits of the three numbers, the first one with a zero in front if it has one digit. -/
theorem formatVersion_versionText (major : ℕ) (rest : List ℕ) :
    formatVersion (versionText (major :: rest)) =
      List.replicate (2 - (Nat.toDigits 10 major).length) '0' ++ Nat.toDigits 10 major ++
        Nat.toDigits 10 (rest.getD 0 0) ++ Nat.toDigits 10 (rest.getD 1 0) := by
  have hdigits : ∀ n, (Nat.toDigits 10 n).map (fun c => if c = ' ' then '0' else c) =
      Nat.toDigits 10 n := by
    intro n
    refine (List.map_congr_left fun c hc => ?_).trans (List.map_id _)
    refine if_neg ?_
    rintro rfl
    exact absurd (isDigit_of_mem_toDigits hc) (by decide)
  rw [formatVersion, splitVersion_versionText]
  simp [hdigits]

/-- The digits of the three numbers are read as one number. -/
theorem xcodeVersionInt_versionText (major : ℕ) (rest : List ℕ) :
    xcodeVersionInt (versionText (major :: rest)) =
      some ((10 ^ (Nat.toDigits 10 (rest.getD 1 0)).length *
        (10 ^ (Nat.toDigits 10 (rest.getD 0 0)).length * major + rest.getD 0 0) +
          rest.getD 1 0 : ℕ) : ℤ) := by
  have hread : ∀ n value, Nat.ofDigitChars 10 (Nat.toDigits 10 n) value =
      10 ^ (Nat.toDigits 10 n).length * value + n := by
    intro n value
    rw [Nat.ofDigitChars_eq_ofDigitChars_zero, Nat.ofDigitChars_ten_toDigits]
  rw [xcodeVersionInt, formatVersion_versionText, intOfText_of_isDigit]
  · simp only [Nat.ofDigitChars_append, Nat.ofDigitChars_replicate_zero, hread, mul_zero, zero_add]
  · simp [Nat.toDigits_ne_nil]
  · simp only [List.mem_append]
    rintro c (((h | h) | h) | h)
    · rw [(List.mem_replicate.mp h).2]
      decide
    all_goals exact isDigit_of_mem_toDigits h

theorem length_toDigits_of_lt {n : ℕ} (h : n < 10) : (Nat.toDigits 10 n).length = 1 := by
  rw [Nat.toDigits_of_lt_base h, List.length_singleton]

/-- Where the second and third numbers have one digit, the versions are numbered in their
order, and a version has four digits if its first number has two at most. Further parts make no
difference. -/
theorem xcodeVersionInt_lt_iff (major major' : ℕ) (rest rest' : List ℕ)
    (hrest : rest.getD 0 0 < 10 ∧ rest.getD 1 0 < 10)
    (hrest' : rest'.getD 0 0 < 10 ∧ rest'.getD 1 0 < 10) :
    (major < 100 → (formatVersion (versionText (major :: rest))).length = 4) ∧
      ∃ n n', xcodeVersionInt (versionText (major :: rest)) = some n ∧
        xcodeVersionInt (versionText (major' :: rest')) = some n' ∧
        (n < n' ↔ major < major' ∨ major = major' ∧
          (rest.getD 0 0 < rest'.getD 0 0 ∨ rest.getD 0 0 = rest'.getD 0 0 ∧
            rest.getD 1 0 < rest'.getD 1 0)) := by
  refine ⟨fun hmajor => ?_, _, _, xcodeVersionInt_versionText _ _,
    xcodeVersionInt_versionText _ _, ?_⟩
  · have hlength : (Nat.toDigits 10 major).length ≤ 2 :=
      (Nat.length_toDigits_le_iff (by decide) (by decide)).mpr hmajor
    rw [formatVersion_versionText]
    simp only [List.length_append, List.length_replicate, length_toDigits_of_lt hrest.1,
      length_toDigits_of_lt hrest.2]
    omega
  · rw [length_toDigits_of_lt hrest.1, length_toDigits_of_lt hrest.2,
      length_toDigits_of_lt hrest'.1, length_toDigits_of_lt hrest'.2]
    omega

/-- A version where the second number has two digits can be numbered after a later one. -/
example : (xcodeVersionInt ['9', '.', '1', '0'], xcodeVersionInt ['1', '0', '.', '0']) =
    (some 9100, some 1000) := by
  decide

theorem xcodeVersionInt_lt_iff_two :
    (9 < 100 → (formatVersion (versionText [9, 3])).length = 4) ∧
      ∃ n n', xcodeVersionInt (versionText [9, 3]) = some n ∧
        xcodeVersionInt (versionText [10, 0, 1, 5]) = some n' ∧
        (n < n' ↔ 9 < 10 ∨ 9 = 10 ∧ (3 < 0 ∨ 3 = 0 ∧ 0 < 1)) :=
  xcodeVersionInt_lt_iff 9 10 [3] [0, 1, 5] ⟨by decide, by decide⟩ ⟨by decide, by decide⟩

end MiniChromium.SdkInfo
