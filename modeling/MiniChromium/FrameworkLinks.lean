import MiniChromium.FileSystem
import MiniChromium.Runs

/-!
# The links of a framework

What is in a framework of the Mac is in a directory of its version, and is found by links at the
top. Some of the directories there are optional. A build puts them there, or not, and then the
links are made or removed, over what the builds before have left.
-/
namespace MiniChromium.Codesign

open FileSystem Runs

section Code

/-- `CreateSymlink`. -/
def createSymlink (value location : List String) (t : FileTree String) : Option (FileTree String) :=
  (if pathExists t location then unlink t location else some t).bind fun t =>
    symlink t value location

/-- The optional links, one turn of the loop. -/
def createOptionalSymlink (t : FileTree String) (name : String) : Option (FileTree String) :=
  if pathExists t ["Versions", "A", name] then
    createSymlink ["Versions", "Current", name] [name] t
  else if pathExists t [name] then unlink t [name]
  else some t

def optionalNames : List String := ["Headers", "Resources", "Modules"]

/-- The branch of `CodeSignBundleAction._Execute` for a framework of the Mac, in the tree of the
bundle. There is no result where it raises. -/
def linkFramework (binaryName : String) (t : FileTree String) : Option (FileTree String) := do
  let t ← createSymlink ["A"] ["Versions", "Current"] t
  let t ← createSymlink ["Versions", "Current", binaryName] [binaryName] t
  optionalNames.foldlM createOptionalSymlink t

end Code

/-- The binary and the optional directories of the version. -/
structure Content (binaryName : String) (present : String → Bool) (t : FileTree String) : Prop where
  versions : t ["Versions"] = some .directory
  version : t ["Versions", "A"] = some .directory
  binary : t ["Versions", "A", binaryName] = some .file
  optional : ∀ name ∈ optionalNames,
    t ["Versions", "A", name] = if present name then some .directory else none

/-- The links at the top, of a framework that has been built or not. -/
structure Links (binaryName : String) (built : Bool) (linked : String → Prop)
    (t : FileTree String) : Prop where
  current : t ["Versions", "Current"] = if built then some (.link ["A"]) else none
  binary : t [binaryName] =
    if built then some (.link ["Versions", "Current", binaryName]) else none
  optional : ∀ name ∈ optionalNames, linked name ∧
    t [name] = some (.link ["Versions", "Current", name]) ∨ ¬linked name ∧ t [name] = none

variable {binaryName name : String} {built : Bool} {linked : String → Prop}
  {present : String → Bool} {t t' : FileTree String}

section Exists

theorem pathExists_none (h : t [name] = none) : pathExists t [name] = false := by
  rw [pathExists, resolve_none h]
  rfl

theorem pathExists_version (hversions : t ["Versions"] = some .directory)
    (hversion : t ["Versions", "A"] = some .directory)
    (h : ∀ entry, t ["Versions", "A", name] = some entry → entry.isLink = false) :
    pathExists t ["Versions", "A", name] = (t ["Versions", "A", name]).isSome := by
  rw [pathExists, resolve_directory hversions, resolve_directory hversion]
  exact resolve_isSome h

/-- A link by way of the current version is found if what it leads to is there. -/
theorem pathExists_current (hversions : t ["Versions"] = some .directory)
    (hversion : t ["Versions", "A"] = some .directory)
    (hcurrent : t ["Versions", "Current"] = some (.link ["A"]))
    (hlink : t [name] = some (.link ["Versions", "Current", name]))
    (h : ∀ entry, t ["Versions", "A", name] = some entry → entry.isLink = false) :
    pathExists t [name] = (t ["Versions", "A", name]).isSome := by
  rw [pathExists, maxSymlinks, resolve_link hlink, List.append_nil, resolve_directory hversions,
    resolve_link hcurrent, List.singleton_append, resolve_directory hversion]
  exact resolve_isSome h

end Exists

theorem locate_version (hversions : t ["Versions"] = some .directory) :
    locate t ["Versions", name] = some ["Versions", name] := by
  have hresolve : ∀ links, resolve t links [] ["Versions"] = some ["Versions"] := fun links =>
    (resolve_directory hversions).trans resolve_nil
  have hdirectory : isDirectory t ["Versions"] = true := by
    rw [isDirectory, hresolve, Option.any_some, entryAt_of_ne (by simp), hversions]
    rfl
  change (if isDirectory t ["Versions"] = true then _ else none) = _
  rw [if_pos hdirectory]
  change (resolve t maxSymlinks [] ["Versions"]).map _ = _
  rw [hresolve]
  rfl

/-- The location is where it seems to be, and stays there when its entry changes. -/
def Located (t : FileTree String) (location : List String) : Prop :=
  ∀ entry, locate (Function.update t location entry) location = some location

theorem Located.locate {location : List String} (h : Located t location) :
    locate t location = some location := by
  have hself := h (t location)
  rwa [Function.update_eq_self] at hself

theorem located_top : Located t [name] := fun _ => rfl

theorem located_version (hversions : t ["Versions"] = some .directory) :
    Located t ["Versions", name] := by
  intro entry
  apply locate_version
  rw [Function.update_of_ne (by simp), hversions]

theorem createSymlink_new {value location : List String} (hlocated : Located t location)
    (h : t location = none) (hexists : pathExists t location = false) :
    createSymlink value location t = some (Function.update t location (some (.link value))) := by
  rw [createSymlink, hexists, if_neg (by decide), Option.bind_some, symlink, create,
    hlocated.locate, Option.bind_some, h]

/-- A link that leads somewhere is replaced. -/
theorem createSymlink_old {value location target : List String} (hlocated : Located t location)
    (h : t location = some (.link target)) (hexists : pathExists t location = true) :
    createSymlink value location t = some (Function.update t location (some (.link value))) := by
  rw [createSymlink, hexists, if_pos rfl, unlink, hlocated.locate, Option.bind_some, h]
  dsimp only
  rw [Option.bind_some, symlink, create, hlocated none, Option.bind_some, Function.update_self]
  dsimp only
  rw [Function.update_idem]

theorem Links.createSymlink_current (h : Links binaryName built linked t)
    (hversions : t ["Versions"] = some .directory)
    (hversion : t ["Versions", "A"] = some .directory) :
    createSymlink ["A"] ["Versions", "Current"] t =
      some (Function.update t ["Versions", "Current"] (some (.link ["A"]))) := by
  have hcurrent := h.current
  cases built with
  | false =>
    refine createSymlink_new (located_version hversions) hcurrent ?_
    rw [pathExists, resolve_directory hversions, resolve_none hcurrent]
    rfl
  | true =>
    refine createSymlink_old (located_version hversions) hcurrent ?_
    rw [pathExists, maxSymlinks, resolve_directory hversions, resolve_link hcurrent,
      List.append_nil, resolve_directory hversion]
    rfl

/-- A link at the top is made anew, whether it was there or not, if it leads somewhere. -/
theorem createSymlink_top (hversions : t ["Versions"] = some .directory)
    (hversion : t ["Versions", "A"] = some .directory)
    (hcurrent : t ["Versions", "Current"] = some (.link ["A"]))
    {entry : Entry String} (hentry : t ["Versions", "A", name] = some entry)
    (hnolink : entry.isLink = false)
    (hlink : t [name] = some (.link ["Versions", "Current", name]) ∨ t [name] = none) :
    createSymlink ["Versions", "Current", name] [name] t =
      some (Function.update t [name] (some (.link ["Versions", "Current", name]))) := by
  rcases hlink with hlink | hnone
  · refine createSymlink_old located_top hlink ?_
    rw [pathExists_current hversions hversion hcurrent hlink, hentry]
    · rfl
    · rintro _ heq
      rwa [← Option.some_inj.mp (hentry.symm.trans heq)]
  · exact createSymlink_new located_top hnone (pathExists_none hnone)

theorem isLink_of_content
    (hcontent : t ["Versions", "A", name] = if present name then some .directory else none) :
    ∀ entry, t ["Versions", "A", name] = some entry → entry.isLink = false := by
  rw [hcontent]
  split_ifs
  · rintro _ ⟨⟩
    rfl
  · nofun

/-- One turn makes the link of a directory that is present. It leaves any other one: the link
of a directory that is gone leads nowhere, so that it is not found. -/
theorem createOptionalSymlink_eq (hversions : t ["Versions"] = some .directory)
    (hversion : t ["Versions", "A"] = some .directory)
    (hcurrent : t ["Versions", "Current"] = some (.link ["A"]))
    (hcontent : t ["Versions", "A", name] = if present name then some .directory else none)
    (hlink : t [name] = some (.link ["Versions", "Current", name]) ∨ t [name] = none) :
    createOptionalSymlink t name =
      some (if present name then
        Function.update t [name] (some (.link ["Versions", "Current", name])) else t) := by
  have hnolink := isLink_of_content hcontent
  rw [createOptionalSymlink, pathExists_version hversions hversion hnolink]
  cases hpresent : present name with
  | true =>
    rw [hpresent, if_pos rfl] at hcontent
    rw [hcontent, Option.isSome_some, if_pos rfl, if_pos rfl]
    exact createSymlink_top hversions hversion hcurrent hcontent rfl hlink
  | false =>
    rw [hpresent, if_neg (by decide)] at hcontent
    have hexists : pathExists t [name] = false := by
      rcases hlink with hlink | hnone
      · rw [pathExists_current hversions hversion hcurrent hlink hnolink, hcontent]
        rfl
      · exact pathExists_none hnone
    rw [hcontent, hexists]
    rfl

theorem foldlM_createOptionalSymlink (present : String → Bool) {names : List String}
    (hnodup : names.Nodup) (hname : "Versions" ∉ names)
    (hversions : t ["Versions"] = some .directory)
    (hversion : t ["Versions", "A"] = some .directory)
    (hcurrent : t ["Versions", "Current"] = some (.link ["A"]))
    (hcontent : ∀ name ∈ names,
      t ["Versions", "A", name] = if present name then some .directory else none)
    (hlink : ∀ name ∈ names,
      t [name] = some (.link ["Versions", "Current", name]) ∨ t [name] = none) :
    ∃ t', names.foldlM createOptionalSymlink t = some t' ∧
      (∀ name ∈ names, t' [name] =
        if present name then some (.link ["Versions", "Current", name]) else t [name]) ∧
      ∀ path, (∀ name ∈ names, path ≠ [name]) → t' path = t path := by
  induction names generalizing t with
  | nil => exact ⟨t, rfl, nofun, fun _ _ => rfl⟩
  | cons name names ih =>
    rw [List.nodup_cons] at hnodup
    rw [List.mem_cons, not_or] at hname
    obtain ⟨hcontent₀, hcontent⟩ := List.forall_mem_cons.mp hcontent
    obtain ⟨hlink₀, hlink⟩ := List.forall_mem_cons.mp hlink
    have hstep := createOptionalSymlink_eq hversions hversion hcurrent hcontent₀ hlink₀
    generalize hnext : (if present name then
      Function.update t [name] (some (.link ["Versions", "Current", name])) else t) = next at hstep
    -- The turn changes the one link at most.
    have hkeep : ∀ path, path ≠ [name] → next path = t path := by
      intro path hne
      rw [← hnext]
      split_ifs
      · rw [Function.update_of_ne hne]
      · rfl
    have hself : next [name] =
        if present name then some (.link ["Versions", "Current", name]) else t [name] := by
      rw [← hnext]
      split_ifs
      · rw [Function.update_self]
      · rfl
    have hother : ∀ other ∈ names, next [other] = t [other] := by
      intro other hmem
      refine hkeep _ fun heq => hnodup.1 ?_
      rw [← List.singleton_inj.mp heq]
      exact hmem
    obtain ⟨t', hrun, hnames, hpaths⟩ := ih hnodup.2 hname.2
      ((hkeep _ (by simpa using hname.1)).trans hversions) ((hkeep _ (by simp)).trans hversion)
      ((hkeep _ (by simp)).trans hcurrent)
      (fun other hmem => (hkeep _ (by simp)).trans (hcontent other hmem))
      (fun other hmem => by rw [hother other hmem]; exact hlink other hmem)
    refine ⟨t', by rw [List.foldlM_cons, hstep]; exact hrun, ?_, fun path hpath => ?_⟩
    · refine List.forall_mem_cons.mpr ⟨?_, fun other hmem => ?_⟩
      · have hpath : ∀ other ∈ names, [name] ≠ [other] := fun other hmem heq =>
          hnodup.1 (by rw [List.singleton_inj.mp heq]; exact hmem)
        rw [hpaths _ hpath, hself]
      · rw [hnames other hmem, hother other hmem]
    · obtain ⟨hne, hothers⟩ := List.forall_mem_cons.mp hpath
      rw [hpaths path hothers, hkeep path hne]

/-- The name of the binary is none of the other names. -/
def IsBinaryName (binaryName : String) : Prop :=
  binaryName ≠ "Versions" ∧ binaryName ∉ optionalNames

instance : DecidablePred IsBinaryName := fun _ => inferInstanceAs (Decidable (_ ∧ _))

/-- Over what has been left, the links of all that is present are made, and none is removed. -/
theorem linkFramework_links (hname : IsBinaryName binaryName)
    (hlinks : Links binaryName built linked t) (hcontent : Content binaryName present t) :
    ∃ t', linkFramework binaryName t = some t' ∧
      Links binaryName true (fun name => linked name ∨ present name = true) t' ∧
      Content binaryName present t' := by
  obtain ⟨hversionsname, hoptional⟩ := hname
  have hfirst := hlinks.createSymlink_current hcontent.versions hcontent.version
  generalize ht₁ : Function.update t ["Versions", "Current"] (some (.link ["A"])) = t₁ at hfirst
  have hkeep₁ : ∀ path, path ≠ ["Versions", "Current"] → t₁ path = t path := fun path hne => by
    rw [← ht₁, Function.update_of_ne hne]
  have hcurrent₁ : t₁ ["Versions", "Current"] = some (.link ["A"]) := by
    rw [← ht₁, Function.update_self]
  have hversions₁ := (hkeep₁ ["Versions"] (by simp)).trans hcontent.versions
  have hversion₁ := (hkeep₁ ["Versions", "A"] (by simp)).trans hcontent.version
  have hbinary₁ := (hkeep₁ ["Versions", "A", binaryName] (by simp)).trans hcontent.binary
  have hlink₁ : t₁ [binaryName] = some (.link ["Versions", "Current", binaryName]) ∨
      t₁ [binaryName] = none := by
    rw [hkeep₁ _ (by simp), hlinks.binary]
    cases built <;> simp
  have hsecond := createSymlink_top hversions₁ hversion₁ hcurrent₁ hbinary₁ rfl hlink₁
  generalize ht₂ : Function.update t₁ [binaryName]
    (some (.link ["Versions", "Current", binaryName])) = t₂ at hsecond
  have hkeep₂ : ∀ path, path ≠ [binaryName] → t₂ path = t₁ path := fun path hne => by
    rw [← ht₂, Function.update_of_ne hne]
  have htop : ∀ name ∈ optionalNames, t₂ [name] = t [name] := fun name hmem => by
    have hne : name ≠ binaryName := ne_of_mem_of_not_mem hmem hoptional
    rw [hkeep₂ _ (by simpa using hne), hkeep₁ _ (by simp)]
  have hversions₂ := (hkeep₂ ["Versions"] (by simpa using Ne.symm hversionsname)).trans hversions₁
  have hversion₂ := (hkeep₂ ["Versions", "A"] (by simp)).trans hversion₁
  have hcurrent₂ := (hkeep₂ ["Versions", "Current"] (by simp)).trans hcurrent₁
  have hcontent₂ : ∀ name, t₂ ["Versions", "A", name] = t ["Versions", "A", name] := fun name => by
    rw [hkeep₂ _ (by simp), hkeep₁ _ (by simp)]
  have hnodup : optionalNames.Nodup := by decide
  have hnoversions : "Versions" ∉ optionalNames := by decide
  obtain ⟨t', hrun, hnames, hpaths⟩ := foldlM_createOptionalSymlink present hnodup hnoversions
    hversions₂ hversion₂ hcurrent₂
    (fun name hmem => (hcontent₂ name).trans (hcontent.optional name hmem))
    (fun name hmem => by
      rw [htop name hmem]
      exact (hlinks.optional name hmem).imp And.right And.right)
  have hother : ∀ path, path.length ≠ 1 → t' path = t₂ path := fun path hlength =>
    hpaths path fun name _ heq => hlength (by rw [heq]; rfl)
  have hbinary : t' [binaryName] = t₂ [binaryName] := hpaths _ fun name hmem heq =>
    hoptional (by rw [List.singleton_inj.mp heq]; exact hmem)
  have hversions : t' ["Versions"] = t₂ ["Versions"] := hpaths _ fun name hmem heq =>
    absurd (List.singleton_inj.mp heq ▸ hmem) (by decide)
  refine ⟨t', ?_, ⟨?_, ?_, fun name hmem => ?_⟩, ⟨?_, ?_, ?_, fun name hmem => ?_⟩⟩
  · rw [linkFramework, hfirst]
    change (createSymlink _ _ t₁).bind _ = _
    rw [hsecond]
    exact hrun
  · rw [hother _ (by simp), hcurrent₂]
    rfl
  · rw [hbinary, ← ht₂, Function.update_self]
    rfl
  · rw [hnames name hmem, htop name hmem]
    rcases hlinks.optional name hmem with ⟨hlinked, hentry⟩ | ⟨hlinked, hentry⟩ <;>
      cases hpresent : present name <;> simp [hlinked, hentry]
  · rw [hversions, hversions₂]
  · rw [hother _ (by simp), hversion₂]
  · rw [hother _ (by simp), hcontent₂, hcontent.binary]
  · rw [hother _ (by simp), hcontent₂, hcontent.optional name hmem]

/-- What is done before the links are made does not touch the links. -/
structure KeepsLinks (binaryName : String) (t t' : FileTree String) : Prop where
  current : t' ["Versions", "Current"] = t ["Versions", "Current"]
  binary : t' [binaryName] = t [binaryName]
  optional : ∀ name ∈ optionalNames, t' [name] = t [name]

theorem Links.keep (h : Links binaryName built linked t) (hkeep : KeepsLinks binaryName t t') :
    Links binaryName built linked t' where
  current := hkeep.current.trans h.current
  binary := hkeep.binary.trans h.binary
  optional := fun name hmem => by
    rw [hkeep.optional name hmem]
    exact h.optional name hmem

/-- A build puts what is present into the version, whatever has been there, and then the links
are made. -/
def Build (binaryName : String) (t : FileTree String) (present : String → Bool)
    (t' : FileTree String) : Prop :=
  ∃ t₀, KeepsLinks binaryName t t₀ ∧ Content binaryName present t₀ ∧
    linkFramework binaryName t₀ = some t'

theorem Build.links (hname : IsBinaryName binaryName) (hlinks : Links binaryName built linked t)
    (h : Build binaryName t present t') :
    Links binaryName true (fun name => linked name ∨ present name = true) t' ∧
      Content binaryName present t' := by
  obtain ⟨t₀, hkeep, hcontent, hrun⟩ := h
  obtain ⟨t₁, hrun₁, h₁⟩ := linkFramework_links hname (hlinks.keep hkeep) hcontent
  obtain rfl := Option.some_inj.mp (hrun.symm.trans hrun₁)
  exact h₁

/-- A tree with that content, and with the links that have been there. -/
def putContent (binaryName : String) (present : String → Bool) (t : FileTree String) :
    FileTree String
  | ["Versions"] => some .directory
  | ["Versions", "A"] => some .directory
  | ["Versions", "A", name] =>
    if name = binaryName then some .file
    else if name ∈ optionalNames then if present name then some .directory else none
    else t ["Versions", "A", name]
  | path => t path

/-- Every build is possible after every other. -/
theorem exists_build (hname : IsBinaryName binaryName) (hlinks : Links binaryName built linked t)
    (present : String → Bool) : ∃ t', Build binaryName t present t' := by
  obtain ⟨hversions, hoptional⟩ := hname
  have hkeep : KeepsLinks binaryName t (putContent binaryName present t) := by
    refine ⟨by simp [putContent], by simp [putContent, hversions], fun name hmem => ?_⟩
    have hne : name ≠ "Versions" := by
      rintro rfl
      exact absurd hmem (by decide)
    simp [putContent, hne]
  have hcontent : Content binaryName present (putContent binaryName present t) := by
    refine ⟨rfl, rfl, if_pos rfl, fun name hmem => ?_⟩
    have hne : name ≠ binaryName := ne_of_mem_of_not_mem hmem hoptional
    simp [putContent, hne, hmem]
  obtain ⟨t', hrun, -⟩ := linkFramework_links ⟨hversions, hoptional⟩ (hlinks.keep hkeep) hcontent
  exact ⟨t', _, hkeep, hcontent, hrun⟩

theorem exists_run (hname : IsBinaryName binaryName) (hlinks : Links binaryName built linked t)
    (presents : List (String → Bool)) : ∃ t', Run (Build binaryName) t presents t' := by
  induction presents generalizing t built linked with
  | nil => exact ⟨t, .nil t⟩
  | cons present presents ih =>
    obtain ⟨t₁, hbuild⟩ := exists_build hname hlinks present
    obtain ⟨t', hrun⟩ := ih (hbuild.links hname hlinks).1
    exact ⟨t', .cons hbuild hrun⟩

/-- A directory has a link at the top if it was ever present. -/
theorem run_links (hname : IsBinaryName binaryName)
    (hstart : Links binaryName false (fun _ => False) t) {presents : List (String → Bool)}
    (h : Run (Build binaryName) t presents t') :
    Links binaryName (!presents.isEmpty) (fun name => ∃ present ∈ presents, present name = true)
      t' := by
  refine Run.history_induction (I := fun presents t => Links binaryName (!presents.isEmpty)
    (fun name => ∃ present ∈ presents, present name = true) t) ?_ ?_ h
  · simpa using hstart
  · intro presents t present t' hlinks hstep
    have hnext := (hstep.links hname hlinks).1
    have hempty : (presents ++ [present]).isEmpty = false := by simp
    rw [hempty]
    simpa [or_and_right, exists_or] using hnext

/-- No build raises. After the last one the link of an optional directory is there if the
directory was ever present, and it leads somewhere only if the directory still is: the branch
that is to remove the others never does, for what it looks at is where the link leads. -/
theorem builds_links (hname : IsBinaryName binaryName)
    (hstart : Links binaryName false (fun _ => False) t) {presents : List (String → Bool)}
    (h : Run (Build binaryName) t presents t') :
    (∀ present t₀, KeepsLinks binaryName t' t₀ → Content binaryName present t₀ →
        ∃ t'', linkFramework binaryName t₀ = some t'') ∧
      ∀ name ∈ optionalNames,
        (t' [name] = some (.link ["Versions", "Current", name]) ↔
          ∃ present ∈ presents, present name = true) ∧
        (t' [name] = none ↔ ∀ present ∈ presents, present name = false) ∧
        ∀ present, presents.getLast? = some present →
          (pathExists t' [name] = true ↔ present name = true) := by
  have hlinks := run_links hname hstart h
  refine ⟨fun present t₀ hkeep hcontent => ?_, fun name hmem => ⟨?_, ?_, fun present hlast => ?_⟩⟩
  · obtain ⟨t'', hrun, -⟩ := linkFramework_links hname (hlinks.keep hkeep) hcontent
    exact ⟨t'', hrun⟩
  · rcases hlinks.optional name hmem with ⟨hlinked, hentry⟩ | ⟨hlinked, hentry⟩ <;>
      simp [hlinked, hentry]
  · have hnever : (∀ present ∈ presents, present name = false) ↔
        ¬∃ present ∈ presents, present name = true := by simp
    rw [hnever]
    rcases hlinks.optional name hmem with ⟨hlinked, hentry⟩ | ⟨hlinked, hentry⟩ <;>
      simp [hlinked, hentry]
  · obtain ⟨before, rfl⟩ := List.getLast?_eq_some_iff.mp hlast
    obtain ⟨t₁, hrun, hbuild⟩ := Run.append_iff.mp h
    obtain _ | ⟨hstep, _ | _⟩ := hbuild
    obtain ⟨hlinked, hcontent⟩ := hstep.links hname (run_links hname hstart hrun)
    have hnolink := isLink_of_content (hcontent.optional name hmem)
    rcases hlinks.optional name hmem with ⟨hever, hentry⟩ | ⟨hnever, hentry⟩
    · rw [pathExists_current hcontent.versions hcontent.version hlinked.current hentry hnolink,
        hcontent.optional name hmem]
      split_ifs with hpresent <;> simp [hpresent]
    · rw [pathExists_none hentry]
      have hpresent : ¬present name = true := fun hpresent =>
        hnever ⟨present, List.mem_append_right _ (List.mem_singleton.mpr rfl), hpresent⟩
      simp [hpresent]

/-- A framework that has headers and then has none keeps a link to them that leads nowhere. -/
theorem builds_links_two :
    ∃ t', Run (Build "F") (fun _ => none) [fun _ => true, fun name => name != "Headers"] t' ∧
      t' ["Headers"] = some (.link ["Versions", "Current", "Headers"]) ∧
      pathExists t' ["Headers"] = false := by
  have hname : IsBinaryName "F" := by decide
  have hstart : Links "F" false (fun _ => False) fun _ => none :=
    ⟨rfl, rfl, fun _ _ => .inr ⟨id, rfl⟩⟩
  obtain ⟨t', hrun⟩ := exists_run hname hstart [fun _ => true, fun name => name != "Headers"]
  obtain ⟨hlink, -, hexists⟩ := (builds_links hname hstart hrun).2 "Headers" (by decide)
  refine ⟨t', hrun, hlink.mpr ⟨_, List.mem_cons_self, rfl⟩, ?_⟩
  have hlast := hexists _ rfl
  simpa using hlast

end MiniChromium.Codesign
