import MiniChromium.Delimited
import MiniChromium.ProvisioningProfiles
import MiniChromium.Replace

/-!
# Entitlements

The entitlements of a bundle are those of a template, with those of the provisioning profile
that are missing in it. The variables in its strings are replaced one after the other, so that
the value of one may complete the name of the next. With the values that they have it does not:
what comes out is the same as if all variables were replaced in one pass.
-/
namespace MiniChromium.Codesign

open Delimited OrderedDict PListUtil Replace

variable {β : Type}

section Code

/-- The text `$(key)`. -/
def reference (key : Text) : Text := '$' :: '(' :: (key ++ [')'])

/-- What `replace` finds in front of a text. -/
def replacement (key substitution text : Text) : Option (ℕ × Text) :=
  if reference key <+: text then some (key.length + 2, substitution) else none

/-- The first branch of `_ExpandVariables`. -/
def expandString (substitutions : List (Text × Text)) (data : Text) : Text :=
  substitutions.foldl (fun data entry => replaceAll (replacement entry.1 entry.2) data) data

mutual

/-- The other branches of `_ExpandVariables`, for a function that takes strings. -/
def mapStrings (expand : Text → Text) : PList (Scalar β) → PList (Scalar β)
  | .dict entries => .dict (mapStringsEntries expand entries)
  | .list items => .list (mapStringsItems expand items)
  | .scalar (.string data) => .scalar (.string (expand data))
  | .scalar (.other data) => .scalar (.other data)
termination_by structural value => value

def mapStringsEntries (expand : Text → Text) :
    List (String × PList (Scalar β)) → List (String × PList (Scalar β))
  | [] => []
  | (key, value) :: rest => (key, mapStrings expand value) :: mapStringsEntries expand rest
termination_by structural entries => entries

def mapStringsItems (expand : Text → Text) : List (PList (Scalar β)) → List (PList (Scalar β))
  | [] => []
  | value :: rest => mapStrings expand value :: mapStringsItems expand rest
termination_by structural items => items

end

/-- `ExpandVariables` of a dictionary. -/
def expandVariables (substitutions : List (Text × Text))
    (data : List (String × PList (Scalar β))) : List (String × PList (Scalar β)) :=
  mapStringsEntries (expandString substitutions) data

/-- `LoadDefaults`. -/
def loadDefaults (data defaults : List (String × PList (Scalar β))) :
    List (String × PList (Scalar β)) :=
  defaults.foldl
    (fun data entry => if entry.1 ∈ keys data then data else set data entry.1 entry.2) data

/-- The variables of `GenerateEntitlements`. -/
def entitlementVariables (bundleIdentifier appIdentifierPrefix : Text) : List (Text × Text) :=
  [("CFBundleIdentifier".toList, bundleIdentifier),
    ("AppIdentifierPrefix".toList, appIdentifierPrefix)]

/-- `GenerateEntitlements`, of what is in the template. There are none if the profile has an
empty list of prefixes. -/
def generateEntitlements (template : List (String × PList (Scalar β)))
    (provisioningProfile : Option (ProvisioningProfile β)) (bundleIdentifier : Text) :
    Option (List (String × PList (Scalar β))) :=
  match provisioningProfile with
  | some profile => do
    let entitlements := loadDefaults template (profile.entitlements.getD [])
    let appIdentifierPrefix := (← profile.applicationIdentifierPrefix) ++ ['.']
    return expandVariables (entitlementVariables bundleIdentifier appIdentifierPrefix)
      entitlements
  | none => some (expandVariables (entitlementVariables bundleIdentifier ['*', '.']) template)

end Code

variable {key key' value data text : Text} {substitutions : List (Text × Text)}

/-- A name that does not end early is found out by its parenthesis. -/
theorem reference_prefix_iff (hkey : ')' ∉ key) (hkey' : ')' ∉ key') (rest : Text) :
    reference key <+: reference key' ++ rest ↔ key = key' := by
  rw [← delimited_prefix_iff hkey hkey' rest]
  simp [reference]

/-- Two references at one place are the same. -/
theorem eq_of_reference_prefix (hkey : ')' ∉ key) (hkey' : ')' ∉ key')
    (h : reference key <+: text) (h' : reference key' <+: text) : key = key' := by
  obtain ⟨rest, rfl⟩ := h'
  exact (reference_prefix_iff hkey hkey' rest).mp h

theorem length_lt_reference_append (key rest : Text) :
    rest.length < (reference key ++ rest).length := by
  rw [List.length_append, reference, List.length_cons]
  omega

@[simp] theorem replacement_of_ne {c : Char} (hc : c ≠ '$') (key value rest : Text) :
    replacement key value (c :: rest) = none := by
  simp [replacement, reference, Ne.symm hc]

theorem replaceAll_replacement_reference (key value rest : Text) :
    replaceAll (replacement key value) (reference key ++ rest) =
      value ++ replaceAll (replacement key value) rest := by
  have hsome : replacement key value ('$' :: ('(' :: (key ++ [')']) ++ rest)) =
      some (('(' :: (key ++ [')'])).length, value) := by
    have hfront : reference key <+: '$' :: ('(' :: (key ++ [')']) ++ rest) :=
      List.prefix_append (reference key) rest
    rw [replacement, if_pos hfront, List.length_cons, List.length_append]
    rfl
  exact replaceAll_cons_some hsome

theorem replaceAll_replacement_append (h : '$' ∉ data) (key value rest : Text) :
    replaceAll (replacement key value) (data ++ rest) =
      data ++ replaceAll (replacement key value) rest :=
  replaceAll_append (fun _ hc rest =>
    replacement_of_ne (ne_of_mem_of_not_mem hc h) key value rest) rest

/-- What stands for the reference in front of a text. -/
def replacements (substitutions : List (Text × Text)) (text : Text) : Option (ℕ × Text) :=
  (substitutions.find? fun entry => reference entry.1 <+: text).map fun entry =>
    (entry.1.length + 2, entry.2)

/-- Neither a reference nor its end comes with a value, and a value is no part of a name. -/
structure Separate (substitutions : List (Text × Text)) : Prop where
  nodup : (keys substitutions).Nodup
  key : ∀ entry ∈ substitutions, '$' ∉ entry.1 ∧ ')' ∉ entry.1 ∧ '.' ∉ entry.1
  value : ∀ entry ∈ substitutions, '$' ∉ entry.2 ∧ ')' ∉ entry.2 ∧ '.' ∈ entry.2

theorem Separate.of_cons {entry : Text × Text} (h : Separate (entry :: substitutions)) :
    Separate substitutions where
  nodup := (List.nodup_cons.mp h.nodup).2
  key := fun _ hmem => h.key _ (List.mem_cons_of_mem _ hmem)
  value := fun _ hmem => h.value _ (List.mem_cons_of_mem _ hmem)

theorem replacements_eq_none_iff :
    replacements substitutions text = none ↔
      ∀ entry ∈ substitutions, ¬reference entry.1 <+: text := by
  simp [replacements]

theorem replacements_reference (h : Separate substitutions) (hmem : (key, value) ∈ substitutions)
    (hfront : reference key <+: text) :
    replacements substitutions text = some (key.length + 2, value) := by
  cases hfind : substitutions.find? fun entry => reference entry.1 <+: text with
  | none => exact absurd hfront (by simpa using List.find?_eq_none.mp hfind _ hmem)
  | some entry =>
    have hentry : entry ∈ substitutions := List.mem_of_find?_eq_some hfind
    have hfound : reference entry.1 <+: text := by simpa using List.find?_some hfind
    have hkey : entry.1 = key :=
      eq_of_reference_prefix (h.key _ hentry).2.1 (h.key _ hmem).2.1 hfound hfront
    have heq : entry = (key, value) := List.inj_on_of_nodup_map h.nodup hentry hmem hkey
    rw [replacements, hfind, heq, Option.map_some]

theorem replaceAll_replacements_reference (h : Separate substitutions)
    (hmem : (key, value) ∈ substitutions) (rest : Text) :
    replaceAll (replacements substitutions) (reference key ++ rest) =
      value ++ replaceAll (replacements substitutions) rest := by
  have hfront : reference key <+: '$' :: ('(' :: (key ++ [')']) ++ rest) :=
    List.prefix_append (reference key) rest
  have hsome : replacements substitutions ('$' :: ('(' :: (key ++ [')']) ++ rest)) =
      some (('(' :: (key ++ [')'])).length, value) := by
    rw [replacements_reference h hmem hfront, List.length_cons, List.length_append]
    rfl
  exact replaceAll_cons_some hsome

theorem replaceAll_replacements_append (h : '$' ∉ data) (rest : Text) :
    replaceAll (replacements substitutions) (data ++ rest) =
      data ++ replaceAll (replacements substitutions) rest := by
  refine replaceAll_append (fun c hc rest => replacements_eq_none_iff.mpr fun entry _ => ?_) rest
  have hne : c ≠ '$' := ne_of_mem_of_not_mem hc h
  simp [reference, Ne.symm hne]

/-- A name and its parenthesis that are there after a replacement have been there before. -/
theorem closed_prefix_of_replaceAll {name : Text} (hvalue : ')' ∉ value) (hdot : '.' ∈ value)
    (hname : '.' ∉ name) (h : name ++ [')'] <+: replaceAll (replacement key value) text) :
    name ++ [')'] <+: text := by
  induction text generalizing name with
  | nil => exact h
  | cons c text ih =>
    by_cases href : reference key <+: c :: text
    · obtain ⟨rest, hrest⟩ := href
      rw [← hrest, replaceAll_replacement_reference] at h
      rcases List.prefix_or_prefix_of_prefix h (List.prefix_append value _) with hp | hp
      · exact absurd (hp.subset (by simp)) hvalue
      · have hmem : '.' ∈ name ++ [')'] := hp.subset hdot
        simp [hname] at hmem
    · rw [replaceAll_cons_none (if_neg href)] at h
      cases name with
      | nil => simpa [List.cons_prefix_cons] using h
      | cons d name =>
        rw [List.cons_append, List.cons_prefix_cons] at h ⊢
        rw [List.mem_cons, not_or] at hname
        exact ⟨h.1, ih hname.2 h.2⟩

/-- The first variable may be replaced before the others. -/
theorem replaceAll_replacements_cons (h : Separate ((key, value) :: substitutions)) (text : Text) :
    replaceAll (replacements ((key, value) :: substitutions)) text =
      replaceAll (replacements substitutions) (replaceAll (replacement key value) text) := by
  obtain ⟨hkeydollar, hkeyclose, hkeydot⟩ := h.key _ List.mem_cons_self
  obtain ⟨hvaluedollar, hvalueclose, hvaluedot⟩ := h.value _ List.mem_cons_self
  induction hlength : text.length using Nat.strong_induction_on generalizing text with
  | _ length ih =>
    by_cases hfirst : reference key <+: text
    · obtain ⟨rest, rfl⟩ := hfirst
      have hrest := ih rest.length (hlength ▸ length_lt_reference_append _ rest) rest rfl
      rw [replaceAll_replacement_reference, replaceAll_replacements_reference h List.mem_cons_self,
        replaceAll_replacements_append hvaluedollar, hrest]
    by_cases hother : ∃ entry ∈ substitutions, reference entry.1 <+: text
    · -- A reference of another variable stays, and is replaced afterwards.
      obtain ⟨⟨key', value'⟩, hmem, rest, rfl⟩ := hother
      have hrest := ih rest.length (hlength ▸ length_lt_reference_append _ rest) rest rfl
      have hname : '$' ∉ '(' :: (key' ++ [')']) := by
        have hdollar : '$' ∉ key' := (h.of_cons.key _ hmem).1
        simp [hdollar]
      have hstays : replaceAll (replacement key value) (reference key' ++ rest) =
          reference key' ++ replaceAll (replacement key value) rest :=
        (replaceAll_cons_none (if_neg hfirst)).trans
          (congrArg _ (replaceAll_replacement_append hname key value rest))
      rw [hstays, replaceAll_replacements_reference h (List.mem_cons_of_mem _ hmem),
        replaceAll_replacements_reference h.of_cons hmem, hrest]
    · cases text with
      | nil => rfl
      | cons c rest =>
        have hrest := ih rest.length (by simp [← hlength]) rest rfl
        have hnone : replacements ((key, value) :: substitutions) (c :: rest) = none := by
          refine replacements_eq_none_iff.mpr (List.forall_mem_cons.mpr ⟨hfirst, ?_⟩)
          exact fun entry hmem hfront => hother ⟨entry, hmem, hfront⟩
        -- A reference that is there after the replacement is an old one.
        have hnone' : replacements substitutions (c :: replaceAll (replacement key value) rest) =
            none := by
          refine replacements_eq_none_iff.mpr fun entry hmem hfront => ?_
          rw [reference, ← List.cons_append, List.cons_prefix_cons] at hfront
          have hname : '.' ∉ '(' :: entry.1 := by
            have hdot : '.' ∉ entry.1 := (h.of_cons.key _ hmem).2.2
            simp [hdot]
          have hold := closed_prefix_of_replaceAll hvalueclose hvaluedot hname hfront.2
          exact hother ⟨entry, hmem, List.cons_prefix_cons.mpr ⟨hfront.1, hold⟩⟩
        rw [replaceAll_cons_none hnone, replaceAll_cons_none (if_neg hfirst),
          replaceAll_cons_none hnone', hrest]

/-- Replacing the variables one after the other is replacing them in one pass. -/
theorem expandString_eq_replaceAll (h : Separate substitutions) (data : Text) :
    expandString substitutions data = replaceAll (replacements substitutions) data := by
  induction substitutions generalizing data with
  | nil => exact (replaceAll_eq_self (fun _ => rfl) data).symm
  | cons entry substitutions ih =>
    rw [replaceAll_replacements_cons h, ← ih h.of_cons]
    rfl

/-- An identifier without a dot may complete the name of the other variable. -/
example :
    expandString (entitlementVariables "Identifier".toList "*.".toList)
        "$(App$(CFBundleIdentifier)Prefix)".toList = "*.".toList ∧
      replaceAll (replacements (entitlementVariables "Identifier".toList "*.".toList))
        "$(App$(CFBundleIdentifier)Prefix)".toList = "$(AppIdentifierPrefix)".toList := by
  decide

theorem Separate.perm {substitutions' : List (Text × Text)} (h : Separate substitutions)
    (hperm : substitutions'.Perm substitutions) : Separate substitutions' where
  nodup := (hperm.map Prod.fst).nodup_iff.mpr h.nodup
  key := fun entry hmem => h.key entry (hperm.mem_iff.mp hmem)
  value := fun entry hmem => h.value entry (hperm.mem_iff.mp hmem)

/-- In one pass the order of the variables does not matter. -/
theorem replacements_perm {substitutions' : List (Text × Text)} (h : Separate substitutions)
    (hperm : substitutions'.Perm substitutions) :
    replacements substitutions' = replacements substitutions := by
  funext text
  by_cases hexists : ∃ entry ∈ substitutions, reference entry.1 <+: text
  · obtain ⟨⟨key, value⟩, hmem, hfront⟩ := hexists
    rw [replacements_reference h hmem hfront,
      replacements_reference (h.perm hperm) (hperm.mem_iff.mpr hmem) hfront]
  · have hnone : ∀ entry ∈ substitutions, ¬reference entry.1 <+: text :=
      fun entry hmem hfront => hexists ⟨entry, hmem, hfront⟩
    rw [replacements_eq_none_iff.mpr hnone, replacements_eq_none_iff.mpr fun entry hmem =>
      hnone entry (hperm.mem_iff.mp hmem)]

theorem expandString_perm {substitutions' : List (Text × Text)} (h : Separate substitutions)
    (hperm : substitutions'.Perm substitutions) :
    expandString substitutions' = replaceAll (replacements substitutions) := by
  funext data
  rw [expandString_eq_replaceAll (h.perm hperm), replacements_perm h hperm]

section Dict

variable {expand : Text → Text} {entries defaults : List (String × PList (Scalar β))}

theorem keys_mapStringsEntries : keys (mapStringsEntries expand entries) = keys entries := by
  induction entries with
  | nil => rfl
  | cons entry rest ih => rw [mapStringsEntries, keys_cons, ih, keys_cons]

theorem lookup_mapStringsEntries (name : String) :
    (mapStringsEntries expand entries).lookup name =
      (entries.lookup name).map (mapStrings expand) := by
  induction entries with
  | nil => rfl
  | cons entry rest ih =>
    rw [mapStringsEntries, List.lookup_cons, List.lookup_cons, ih]
    cases name == entry.1 <;> rfl

/-- What the template has is kept. -/
theorem lookup_loadDefaults (name : String) :
    (loadDefaults entries defaults).lookup name =
      (entries.lookup name).or (defaults.lookup name) := by
  induction defaults generalizing entries with
  | nil => exact Option.or_none.symm
  | cons entry rest ih =>
    rw [loadDefaults, List.foldl_cons, ← loadDefaults, ih, List.lookup_cons]
    by_cases hname : name = entry.1
    · rw [hname, beq_self_eq_true]
      split_ifs with hmem
      · cases hlookup : entries.lookup entry.1 with
        | none => exact absurd hlookup (mem_keys_iff.mp hmem)
        | some value => rfl
      · rw [lookup_set_self, not_not.mp (mt mem_keys_iff.mpr hmem)]
        rfl
    · rw [beq_eq_false_iff_ne.mpr hname]
      split_ifs with hmem
      · rfl
      · rw [lookup_set_of_ne hname]

theorem keys_loadDefaults (hnodup : (keys defaults).Nodup) :
    keys (loadDefaults entries defaults) = joinKeys (keys entries) (keys defaults) := by
  induction defaults generalizing entries with
  | nil => simp [loadDefaults, joinKeys, keys]
  | cons entry rest ih =>
    rw [keys_cons, List.nodup_cons] at hnodup
    rw [loadDefaults, List.foldl_cons, ← loadDefaults, ih hnodup.2, keys_cons]
    split_ifs with hmem
    · rw [joinKeys_cons_of_mem hmem]
    · rw [keys_set, if_neg hmem, joinKeys_cons_of_notMem hmem hnodup.1]

end Dict

/-- The entitlements that the profile has for the bundle. -/
def defaultsOf (provisioningProfile : Option (ProvisioningProfile β)) :
    List (String × PList (Scalar β)) :=
  (provisioningProfile.bind fun profile => profile.entitlements).getD []

/-- What is in front of the dot in the application identifier. -/
def teamOf : Option (ProvisioningProfile β) → Option Text
  | some profile => profile.applicationIdentifierPrefix
  | none => some ['*']

theorem generateEntitlements_eq_some {template result : List (String × PList (Scalar β))}
    {provisioningProfile : Option (ProvisioningProfile β)} {bundleIdentifier : Text}
    (h : generateEntitlements template provisioningProfile bundleIdentifier = some result) :
    ∃ team, teamOf provisioningProfile = some team ∧
      result = expandVariables (entitlementVariables bundleIdentifier (team ++ ['.']))
        (loadDefaults template (defaultsOf provisioningProfile)) := by
  cases provisioningProfile with
  | none => exact ⟨['*'], rfl, (Option.some_inj.mp h).symm⟩
  | some profile =>
    rw [generateEntitlements] at h
    cases hteam : profile.applicationIdentifierPrefix with
    | none => rw [hteam] at h; cases h
    | some team =>
      rw [hteam] at h
      exact ⟨team, hteam, (Option.some_inj.mp h).symm⟩

theorem separate_entitlementVariables {bundleIdentifier team : Text}
    (hid : '$' ∉ bundleIdentifier ∧ ')' ∉ bundleIdentifier ∧ '.' ∈ bundleIdentifier)
    (hteam : '$' ∉ team ∧ ')' ∉ team) :
    Separate (entitlementVariables bundleIdentifier (team ++ ['.'])) where
  nodup := by simp [entitlementVariables, keys]
  key := by simp [entitlementVariables]
  value := by simp [entitlementVariables, hid, hteam]

/-- The entitlements are those of the template and those of the profile that are missing in it,
with the variables replaced in one pass, in whatever order the variables are taken. -/
theorem generateEntitlements_lookup {template result : List (String × PList (Scalar β))}
    {provisioningProfile : Option (ProvisioningProfile β)} {bundleIdentifier : Text}
    (hid : '$' ∉ bundleIdentifier ∧ ')' ∉ bundleIdentifier ∧ '.' ∈ bundleIdentifier)
    (hteam : ∀ team, teamOf provisioningProfile = some team → '$' ∉ team ∧ ')' ∉ team)
    (hnodup : (keys (defaultsOf provisioningProfile)).Nodup)
    (h : generateEntitlements template provisioningProfile bundleIdentifier = some result) :
    ∃ team, teamOf provisioningProfile = some team ∧
      keys result = joinKeys (keys template) (keys (defaultsOf provisioningProfile)) ∧
      (∀ name, result.lookup name =
        ((template.lookup name).or ((defaultsOf provisioningProfile).lookup name)).map
          (mapStrings (replaceAll
            (replacements (entitlementVariables bundleIdentifier (team ++ ['.'])))))) ∧
      ∀ substitutions,
        substitutions.Perm (entitlementVariables bundleIdentifier (team ++ ['.'])) →
          result = expandVariables substitutions
            (loadDefaults template (defaultsOf provisioningProfile)) := by
  obtain ⟨team, hteamOf, rfl⟩ := generateEntitlements_eq_some h
  have hseparate := separate_entitlementVariables hid (hteam team hteamOf)
  refine ⟨team, hteamOf, ?_, fun name => ?_, fun substitutions hperm => ?_⟩
  · rw [expandVariables, keys_mapStringsEntries, keys_loadDefaults hnodup]
  · rw [expandVariables, lookup_mapStringsEntries, lookup_loadDefaults,
      expandString_perm hseparate (.refl _)]
  · rw [expandVariables, expandVariables, expandString_perm hseparate hperm,
      expandString_perm hseparate (.refl _)]

/-- Entitlements with one access group. -/
def accessGroup (group : String) : List (String × PList (Scalar Unit)) :=
  [("keychain-access-groups", .list [.scalar (.string group.toList)])]

theorem generateEntitlements_lookup_group :
    ∃ team, teamOf (some (profileOf "T.*".toList)) = some team ∧
      keys (accessGroup "T.a.b" ++ defaultsOf (some (profileOf "T.*".toList))) =
        joinKeys (keys (accessGroup "$(AppIdentifierPrefix)$(CFBundleIdentifier)"))
          (keys (defaultsOf (some (profileOf "T.*".toList)))) ∧
      (∀ name, (accessGroup "T.a.b" ++ defaultsOf (some (profileOf "T.*".toList))).lookup name =
        (((accessGroup "$(AppIdentifierPrefix)$(CFBundleIdentifier)").lookup name).or
          ((defaultsOf (some (profileOf "T.*".toList))).lookup name)).map
          (mapStrings (replaceAll
            (replacements (entitlementVariables "a.b".toList (team ++ ['.'])))))) ∧
      ∀ substitutions,
        substitutions.Perm (entitlementVariables "a.b".toList (team ++ ['.'])) →
          accessGroup "T.a.b" ++ defaultsOf (some (profileOf "T.*".toList)) =
            expandVariables substitutions
              (loadDefaults (accessGroup "$(AppIdentifierPrefix)$(CFBundleIdentifier)")
                (defaultsOf (some (profileOf "T.*".toList)))) := by
  refine generateEntitlements_lookup (by decide) ?_ (by decide) rfl
  rintro _ ⟨⟩
  decide

end MiniChromium.Codesign
