import Mathlib.Data.List.MinMax
import Mathlib.Data.Prod.Lex
import MiniChromium.Fnmatch
import MiniChromium.PListSubstitute

/-!
# Provisioning profiles

A bundle is signed with one of the installed profiles: those that expire within an hour are
passed over, the application identifier has to match the pattern of the profile, and of these
profiles the one with the longest pattern is taken, of several the one that expires last.
-/
namespace MiniChromium.Codesign

open PListUtil Fnmatch

/-- The data of a profile that are used; dates are counted in microseconds. -/
structure ProvisioningProfile (β : Type) where
  path : Text
  applicationIdentifierPrefixes : Option (List Text)
  entitlements : Option (List (String × PList (Scalar β)))
  expirationDate? : Option ℤ

/-- What is written to the standard error output. -/
inductive Message
  | ignoringExpired (path : Text)
  | noProfileFound (bundleIdentifier : Text)
  | willExpireSoon (path : Text)
  deriving DecidableEq

/-- How `FindProvisioningProfile` ends: an exception, an exit status, or a profile if there is
one. -/
inductive Selection (β : Type)
  | raised
  | exit (status : ℕ) (messages : List Message)
  | returned (profile : Option (ProvisioningProfile β)) (messages : List Message)

/-- The order of pairs of a length and a date. -/
instance specificityOrder : LinearOrder (ℕ ×ₗ ℤ) :=
  @Prod.Lex.instLinearOrder ℕ ℤ Nat.instLinearOrder Int.instLinearOrder

instance specificityPreorder : Preorder (ℕ ×ₗ ℤ) := specificityOrder.toPreorder

instance specificityDecidableLT : DecidableLT (ℕ ×ₗ ℤ) := specificityOrder.toDecidableLT

section Code

variable {β : Type}

namespace ProvisioningProfile

variable (p : ProvisioningProfile β)

/-- `application_identifier_pattern`; there is none where it is no string. -/
def applicationIdentifierPattern : Option Text :=
  match (p.entitlements.getD []).lookup "application-identifier" with
  | none => some []
  | some (.scalar (.string pattern)) => some pattern
  | some _ => none

/-- `application_identifier_prefix`; there is none in an empty list. -/
def applicationIdentifierPrefix : Option Text :=
  (p.applicationIdentifierPrefixes.getD [[]]).head?

/-- `expiration_date`. Where it is missing the clock is read, each time it is asked for; one value
stands for all of these readings. -/
def expirationDate (clock : ℤ) : ℤ := p.expirationDate?.getD clock

/-- `ValidToSignBundle`. -/
def validToSignBundle (bundleIdentifier : Text) : Option Bool := do
  return fnmatch ((← p.applicationIdentifierPrefix) ++ '.' :: bundleIdentifier)
    (← p.applicationIdentifierPattern)

/-- The key of `max`. -/
def specificity (clock : ℤ) : ℕ ×ₗ ℤ :=
  toLex ((p.applicationIdentifierPattern.getD []).length, p.expirationDate clock)

end ProvisioningProfile

def oneHour : ℤ := 3600 * 1000000

def oneWeek : ℤ := 7 * 24 * oneHour

/-- The loop of `FindProvisioningProfile`. -/
def validProvisioningProfiles (now clock : ℤ) (bundleIdentifier : Text) :
    List (ProvisioningProfile β) → Option (List Message × List (ProvisioningProfile β))
  | [] => some ([], [])
  | p :: profiles =>
    if p.expirationDate clock - now < oneHour then
      (validProvisioningProfiles now clock bundleIdentifier profiles).map fun found =>
        (.ignoringExpired p.path :: found.1, found.2)
    else do
      let valid ← p.validToSignBundle bundleIdentifier
      let found ← validProvisioningProfiles now clock bundleIdentifier profiles
      return (found.1, if valid then p :: found.2 else found.2)

/-- `FindProvisioningProfile`, of the installed profiles in the order of the directory. -/
def findProvisioningProfile (now clock : ℤ) (profiles : List (ProvisioningProfile β))
    (bundleIdentifier : Text) (required : Bool) : Selection β :=
  match validProvisioningProfiles now clock bundleIdentifier profiles with
  | none => .raised
  | some (messages, valid) =>
    match valid.argmax fun p => p.specificity clock with
    | none =>
      if required then .exit 1 (messages ++ [.noProfileFound bundleIdentifier])
      else .returned none messages
    | some selected =>
      .returned (some selected) (messages ++
        if selected.expirationDate clock - now < 2 * oneWeek then [.willExpireSoon selected.path]
        else [])

end Code

variable {β : Type} {now clock : ℤ} {bundleIdentifier : Text}
  {profiles profiles' : List (ProvisioningProfile β)} {p q : ProvisioningProfile β}

/-- The bundle may be signed with the profile, which is still valid for a while. -/
def Usable (now clock : ℤ) (bundleIdentifier : Text) (p : ProvisioningProfile β) : Prop :=
  oneHour ≤ p.expirationDate clock - now ∧ p.validToSignBundle bundleIdentifier = some true

instance (now clock : ℤ) (bundleIdentifier : Text) :
    DecidablePred (Usable (β := β) now clock bundleIdentifier) := fun _ =>
  inferInstanceAs (Decidable (_ ∧ _))

/-- The profile has data of the wrong type, or none, where they are looked at. -/
def Raises (now clock : ℤ) (bundleIdentifier : Text) (p : ProvisioningProfile β) : Prop :=
  oneHour ≤ p.expirationDate clock - now ∧ p.validToSignBundle bundleIdentifier = none

/-- The loop collects the usable profiles, unless it raises. -/
theorem validProvisioningProfiles_cases (now clock : ℤ) (bundleIdentifier : Text)
    (profiles : List (ProvisioningProfile β)) :
    validProvisioningProfiles now clock bundleIdentifier profiles = none ∧
        (∃ p ∈ profiles, Raises now clock bundleIdentifier p) ∨
      (∃ messages, validProvisioningProfiles now clock bundleIdentifier profiles =
        some (messages, profiles.filter fun p => Usable now clock bundleIdentifier p)) ∧
        ∀ p ∈ profiles, ¬Raises now clock bundleIdentifier p := by
  induction profiles with
  | nil => exact .inr ⟨⟨[], rfl⟩, nofun⟩
  | cons p profiles ih =>
    rw [validProvisioningProfiles]
    by_cases hexpired : p.expirationDate clock - now < oneHour
    · have hnot : ¬Usable now clock bundleIdentifier p := fun h => absurd h.1 (not_le.mpr hexpired)
      have hraises : ¬Raises now clock bundleIdentifier p := fun h =>
        absurd h.1 (not_le.mpr hexpired)
      rw [if_pos hexpired, List.filter_cons_of_neg (by simpa using hnot)]
      obtain ⟨hnone, q, hq, hraisesq⟩ | ⟨⟨messages, hsome⟩, hall⟩ := ih
      · exact .inl ⟨by rw [hnone]; rfl, q, List.mem_cons_of_mem _ hq, hraisesq⟩
      · exact .inr ⟨⟨_, by rw [hsome]; rfl⟩, List.forall_mem_cons.mpr ⟨hraises, hall⟩⟩
    · rw [if_neg hexpired]
      cases hvalid : p.validToSignBundle bundleIdentifier with
      | none => exact .inl ⟨rfl, p, List.mem_cons_self, not_lt.mp hexpired, hvalid⟩
      | some valid =>
        have hraises : ¬Raises now clock bundleIdentifier p := fun h =>
          absurd (hvalid.symm.trans h.2) nofun
        obtain ⟨hnone, q, hq, hraisesq⟩ | ⟨⟨messages, hsome⟩, hall⟩ := ih
        · exact .inl ⟨by rw [hnone]; rfl, q, List.mem_cons_of_mem _ hq, hraisesq⟩
        · refine .inr ⟨⟨messages, ?_⟩, List.forall_mem_cons.mpr ⟨hraises, hall⟩⟩
          rw [hsome]
          cases valid with
          | true =>
            have husable : Usable now clock bundleIdentifier p := ⟨not_lt.mp hexpired, hvalid⟩
            rw [List.filter_cons_of_pos (by simpa using husable)]
            rfl
          | false =>
            have hnot : ¬Usable now clock bundleIdentifier p := fun h =>
              absurd (hvalid.symm.trans h.2) (by decide)
            rw [List.filter_cons_of_neg (by simpa using hnot)]
            rfl

/-- What is right to do with the installed profiles. -/
structure Selects (now clock : ℤ) (profiles : List (ProvisioningProfile β))
    (bundleIdentifier : Text) (required : Bool) (selection : Selection β) : Prop where
  raised_iff : selection = .raised ↔ ∃ p ∈ profiles, Raises now clock bundleIdentifier p
  exit : ∀ status messages, selection = .exit status messages → status = 1 ∧ required = true ∧
    ∀ p ∈ profiles, ¬Usable now clock bundleIdentifier p
  none : ∀ messages, selection = .returned none messages → required = false ∧
    ∀ p ∈ profiles, ¬Usable now clock bundleIdentifier p
  some : ∀ selected messages, selection = .returned (some selected) messages →
    selected ∈ profiles ∧ Usable now clock bundleIdentifier selected ∧
      ∀ p ∈ profiles, Usable now clock bundleIdentifier p →
        p.specificity clock ≤ selected.specificity clock

theorem selects_findProvisioningProfile (now clock : ℤ) (profiles : List (ProvisioningProfile β))
    (bundleIdentifier : Text) (required : Bool) :
    Selects now clock profiles bundleIdentifier required
      (findProvisioningProfile now clock profiles bundleIdentifier required) := by
  rw [findProvisioningProfile]
  obtain ⟨hnone, hraises⟩ | ⟨⟨messages, hsome⟩, hraises⟩ :=
    validProvisioningProfiles_cases now clock bundleIdentifier profiles
  · rw [hnone]
    exact ⟨iff_of_true rfl hraises, nofun, nofun, nofun⟩
  · have hno : ¬∃ p ∈ profiles, Raises now clock bundleIdentifier p := fun ⟨p, hp, h⟩ =>
      hraises p hp h
    rw [hsome]
    dsimp only
    cases hmax : (profiles.filter fun p => Usable now clock bundleIdentifier p).argmax
        fun p => p.specificity clock with
    | none =>
      have hall : ∀ p ∈ profiles, ¬Usable now clock bundleIdentifier p := by
        simpa using List.argmax_eq_none.mp hmax
      dsimp only
      split_ifs with hrequired
      · refine ⟨iff_of_false nofun hno, ?_, nofun, nofun⟩
        rintro _ _ ⟨⟩
        exact ⟨rfl, hrequired, hall⟩
      · exact ⟨iff_of_false nofun hno, nofun, fun _ _ => ⟨Bool.eq_false_iff.mpr hrequired, hall⟩,
          nofun⟩
    | some selected =>
      have hmem := List.argmax_mem hmax
      rw [List.mem_filter, decide_eq_true_eq] at hmem
      refine ⟨iff_of_false nofun hno, nofun, nofun, ?_⟩
      rintro _ _ ⟨⟩
      exact ⟨hmem.1, hmem.2, fun p hp husable =>
        List.le_of_mem_argmax (List.mem_filter.mpr ⟨hp, decide_eq_true husable⟩) hmax⟩

/-- The kind of a selection, and how specific the profile is. -/
def Selection.rank (clock : ℤ) : Selection β → Option (ℕ ⊕ Option (ℕ ×ₗ ℤ))
  | .raised => none
  | .exit status _ => some (.inl status)
  | .returned profile _ => some (.inr (profile.map fun p => p.specificity clock))

/-- What is right is determined but for profiles that are equally specific. -/
theorem Selects.rank_eq {required : Bool} {selection selection' : Selection β}
    (h : Selects now clock profiles bundleIdentifier required selection)
    (h' : Selects now clock profiles' bundleIdentifier required selection')
    (hmem : ∀ p, p ∈ profiles ↔ p ∈ profiles') :
    selection.rank clock = selection'.rank clock := by
  have hraised : selection = .raised ↔ selection' = .raised := by
    rw [h.raised_iff, h'.raised_iff]
    simp only [hmem]
  cases selection with
  | raised => rw [hraised.mp rfl]
  | exit status messages =>
    obtain ⟨rfl, hrequired, hno⟩ := h.exit _ _ rfl
    cases selection' with
    | raised => exact absurd (hraised.mpr rfl) nofun
    | exit status' messages' => rw [(h'.exit _ _ rfl).1]; rfl
    | returned profile messages' => cases profile with
      | none => exact absurd (hrequired.symm.trans (h'.none _ rfl).1) (by decide)
      | some selected =>
        obtain ⟨hin, husable, -⟩ := h'.some _ _ rfl
        exact absurd husable (hno selected ((hmem selected).mpr hin))
  | returned profile messages =>
    cases selection' with
    | raised => exact absurd (hraised.mpr rfl) nofun
    | exit status' messages' =>
      obtain ⟨-, hrequired, hno⟩ := h'.exit _ _ rfl
      cases profile with
      | none => exact absurd (hrequired.symm.trans (h.none _ rfl).1) (by decide)
      | some selected =>
        obtain ⟨hin, husable, -⟩ := h.some _ _ rfl
        exact absurd husable (hno selected ((hmem selected).mp hin))
    | returned profile' messages' =>
      cases profile with
      | none => cases profile' with
        | none => rfl
        | some selected' =>
          obtain ⟨hin, husable, -⟩ := h'.some _ _ rfl
          exact absurd husable ((h.none _ rfl).2 selected' ((hmem selected').mpr hin))
      | some selected =>
        obtain ⟨hin, husable, hmax⟩ := h.some _ _ rfl
        cases profile' with
        | none => exact absurd husable ((h'.none _ rfl).2 selected ((hmem selected).mp hin))
        | some selected' =>
          obtain ⟨hin', husable', hmax'⟩ := h'.some _ _ rfl
          have heq : selected.specificity clock = selected'.specificity clock :=
            le_antisymm (hmax' selected ((hmem selected).mp hin) husable)
              (hmax selected' ((hmem selected').mpr hin') husable')
          rw [Selection.rank, Selection.rank, Option.map_some, Option.map_some, heq]

/-- The selection is right, and the order of the directory has no influence on its kind and on
how specific the profile is. A profile without an expiration date counts as expired, if the
profiles are looked at within an hour. -/
theorem findProvisioningProfile_order (now clock : ℤ) (profiles : List (ProvisioningProfile β))
    (bundleIdentifier : Text) (required : Bool) :
    Selects now clock profiles bundleIdentifier required
        (findProvisioningProfile now clock profiles bundleIdentifier required) ∧
      (∀ profiles', profiles'.Perm profiles →
        (findProvisioningProfile now clock profiles' bundleIdentifier required).rank clock =
          (findProvisioningProfile now clock profiles bundleIdentifier required).rank clock) ∧
      (clock - now < oneHour → ∀ p ∈ profiles, p.expirationDate? = none →
        ¬Usable now clock bundleIdentifier p) := by
  have h := selects_findProvisioningProfile now clock profiles bundleIdentifier required
  refine ⟨h, fun profiles' hperm => ?_, fun hclock p _ hnone husable => ?_⟩
  · exact (selects_findProvisioningProfile now clock profiles' bundleIdentifier required).rank_eq h
      fun p => hperm.mem_iff
  · have hle := husable.1
    rw [ProvisioningProfile.expirationDate, hnone, Option.getD_none] at hle
    exact absurd hle (not_le.mpr hclock)

/-- The bundles that may be signed with a profile. -/
def identifiers (p : ProvisioningProfile β) : Set Text :=
  {bundleIdentifier | p.validToSignBundle bundleIdentifier = some true}

def IsExplicit (p : ProvisioningProfile β) : Prop :=
  ∃ pattern, p.applicationIdentifierPattern = some pattern ∧ IsPlain pattern

def IsWildcard (p : ProvisioningProfile β) : Prop :=
  ∃ stem, p.applicationIdentifierPattern = some (stem ++ ['*']) ∧ IsPlain stem

theorem IsExplicit.not_isWildcard (h : IsExplicit p) : ¬IsWildcard p := by
  obtain ⟨pattern, hpattern, hplain⟩ := h
  intro ⟨stem, hstem, _⟩
  have heq : stem ++ ['*'] = pattern := Option.some_inj.mp (hstem.symm.trans hpattern)
  have hmem : '*' ∈ pattern := by simp [← heq]
  exact (hplain '*' hmem).1 rfl

variable {team pattern stem : Text}

theorem mem_identifiers (hteam : p.applicationIdentifierPrefix = some team)
    (hpattern : p.applicationIdentifierPattern = some pattern) :
    bundleIdentifier ∈ identifiers p ↔
      fnmatch (team ++ '.' :: bundleIdentifier) pattern = true := by
  change p.validToSignBundle bundleIdentifier = some true ↔ _
  rw [ProvisioningProfile.validToSignBundle, hteam, hpattern]
  exact Option.some_inj

theorem mem_identifiers_explicit (hteam : p.applicationIdentifierPrefix = some team)
    (hpattern : p.applicationIdentifierPattern = some pattern) (hplain : IsPlain pattern) :
    bundleIdentifier ∈ identifiers p ↔ team ++ '.' :: bundleIdentifier = pattern := by
  rw [mem_identifiers hteam hpattern, fnmatch_plain hplain]

theorem mem_identifiers_wildcard (hteam : p.applicationIdentifierPrefix = some team)
    (hpattern : p.applicationIdentifierPattern = some (stem ++ ['*'])) (hplain : IsPlain stem) :
    bundleIdentifier ∈ identifiers p ↔ stem <+: team ++ '.' :: bundleIdentifier := by
  rw [mem_identifiers hteam hpattern, fnmatch_star hplain]

/-- A pattern that is at least as long is at least as specific, unless it ends in `*` and the
other one does not. -/
theorem identifiers_subset_iff (hp : bundleIdentifier ∈ identifiers p)
    (hq : bundleIdentifier ∈ identifiers q)
    (hteamp : p.applicationIdentifierPrefix = some team)
    (hteamq : q.applicationIdentifierPrefix = some team)
    (hkindp : IsExplicit p ∨ IsWildcard p) (hkindq : IsExplicit q ∨ IsWildcard q)
    (hlength : (q.applicationIdentifierPattern.getD []).length ≤
      (p.applicationIdentifierPattern.getD []).length) :
    identifiers p ⊆ identifiers q ↔ ¬(IsWildcard p ∧ IsExplicit q) := by
  rcases hkindp with hexplicit | ⟨stem, hstem, hplain⟩
  · -- Only the bundle itself may be signed with the first profile.
    refine iff_of_true (fun other hother => ?_) fun h => hexplicit.not_isWildcard h.1
    obtain ⟨pattern, hpattern, hplain⟩ := hexplicit
    rw [mem_identifiers_explicit hteamp hpattern hplain] at hp hother
    have heq : other = bundleIdentifier := by simpa using hother.trans hp.symm
    rwa [heq]
  · rw [mem_identifiers_wildcard hteamp hstem hplain] at hp
    rcases hkindq with hexplicit | ⟨stemq, hstemq, hplainq⟩
    · refine iff_of_false (fun hsub => ?_) fun h => h ⟨⟨stem, hstem, hplain⟩, hexplicit⟩
      obtain ⟨pattern, hpattern, hplainq⟩ := hexplicit
      rw [mem_identifiers_explicit hteamq hpattern hplainq] at hq
      -- A longer identifier begins with the stem, and is another one.
      have hlonger : bundleIdentifier ++ ['.'] ∈ identifiers p := by
        rw [mem_identifiers_wildcard hteamp hstem hplain, ← List.cons_append, ← List.append_assoc]
        exact hp.trans (List.prefix_append _ _)
      have hmem := hsub hlonger
      rw [mem_identifiers_explicit hteamq hpattern hplainq, ← hq] at hmem
      simp at hmem
    · have hwildcard : IsWildcard q := ⟨stemq, hstemq, hplainq⟩
      refine iff_of_true (fun other hother => ?_) fun h => h.2.not_isWildcard hwildcard
      rw [mem_identifiers_wildcard hteamq hstemq hplainq] at hq ⊢
      rw [mem_identifiers_wildcard hteamp hstem hplain] at hother
      rw [hstem, hstemq] at hlength
      have hle : stemq.length ≤ stem.length := by simpa using hlength
      exact (List.prefix_of_prefix_length_le hq hp hle).trans hother

/-- The selected profile is the most specific, but for a pattern that ends in `*`: where it has
all of the identifier, or all but the last character and a later expiration date, it is taken
and the profile of the one application is not. -/
theorem findProvisioningProfile_specific {required : Bool} {messages : List Message}
    (hselected : findProvisioningProfile now clock profiles bundleIdentifier required =
      .returned (some p) messages)
    (hq : q ∈ profiles) (husable : Usable now clock bundleIdentifier q)
    (hteamp : p.applicationIdentifierPrefix = some team)
    (hteamq : q.applicationIdentifierPrefix = some team)
    (hkindp : IsExplicit p ∨ IsWildcard p) (hkindq : IsExplicit q ∨ IsWildcard q) :
    (identifiers p ⊆ identifiers q ↔ ¬(IsWildcard p ∧ IsExplicit q)) ∧
      (IsWildcard p → IsExplicit q → ∃ stem,
        p.applicationIdentifierPattern = some (stem ++ ['*']) ∧
          (stem = team ++ '.' :: bundleIdentifier ∨
            (∃ c, stem ++ [c] = team ++ '.' :: bundleIdentifier) ∧
              q.expirationDate clock ≤ p.expirationDate clock)) := by
  obtain ⟨-, husablep, hmax⟩ := (selects_findProvisioningProfile now clock profiles
    bundleIdentifier required).some _ _ hselected
  have hle := Prod.Lex.le_iff.mp (hmax q hq husable)
  have hlength : (q.applicationIdentifierPattern.getD []).length ≤
      (p.applicationIdentifierPattern.getD []).length := hle.elim le_of_lt fun h => h.1.le
  refine ⟨identifiers_subset_iff husablep.2 husable.2 hteamp hteamq hkindp hkindq hlength, ?_⟩
  rintro ⟨stem, hstem, hplain⟩ ⟨pattern, hpattern, hplainq⟩
  have hp : bundleIdentifier ∈ identifiers p := husablep.2
  have hqmem : bundleIdentifier ∈ identifiers q := husable.2
  rw [mem_identifiers_wildcard hteamp hstem hplain] at hp
  rw [mem_identifiers_explicit hteamq hpattern hplainq] at hqmem
  obtain ⟨rest, hrest⟩ := hp
  refine ⟨stem, hstem, ?_⟩
  rw [hstem, hpattern, ← hqmem, ← hrest] at hlength
  cases rest with
  | nil => exact .inl (by rw [← hrest, List.append_nil])
  | cons c rest =>
    have hnil : rest = [] := by
      have hlast : rest.length ≤ 0 := by simpa using hlength
      exact List.length_eq_zero_iff.mp (Nat.le_zero.mp hlast)
    rw [hnil] at hrest
    refine .inr ⟨⟨c, hrest⟩, hle.elim (fun h => ?_) fun h => h.2⟩
    -- Patterns of one length are compared by their expiration dates.
    have hlt : (q.applicationIdentifierPattern.getD []).length <
      (p.applicationIdentifierPattern.getD []).length := h
    rw [hstem, hpattern, ← hqmem, ← hrest] at hlt
    simp at hlt

/-- A profile of the team `T` that does not expire soon. -/
def profileOf (pattern : Text) : ProvisioningProfile Unit :=
  ⟨[], some [['T']], some [("application-identifier", .scalar (.string pattern))],
    some (2 * oneWeek)⟩

theorem findProvisioningProfile_specific_two :
    (identifiers (profileOf ['T', '.', 'a', '*']) ⊆ identifiers (profileOf ['T', '.', 'a']) ↔
      ¬(IsWildcard (profileOf ['T', '.', 'a', '*']) ∧ IsExplicit (profileOf ['T', '.', 'a']))) ∧
      (IsWildcard (profileOf ['T', '.', 'a', '*']) → IsExplicit (profileOf ['T', '.', 'a']) →
        ∃ stem, (profileOf ['T', '.', 'a', '*']).applicationIdentifierPattern =
            some (stem ++ ['*']) ∧
          (stem = ['T'] ++ '.' :: ['a'] ∨ (∃ c, stem ++ [c] = ['T'] ++ '.' :: ['a']) ∧
            (profileOf ['T', '.', 'a']).expirationDate 0 ≤
              (profileOf ['T', '.', 'a', '*']).expirationDate 0)) := by
  have hselected : findProvisioningProfile 0 0
      [profileOf ['T', '.', 'a'], profileOf ['T', '.', 'a', '*']] ['a'] true =
        .returned (some (profileOf ['T', '.', 'a', '*'])) [] := rfl
  have husable : Usable 0 0 ['a'] (profileOf ['T', '.', 'a']) := by decide
  have hplain : IsPlain ['T', '.', 'a'] := by simp [IsPlain]
  exact findProvisioningProfile_specific hselected List.mem_cons_self husable rfl rfl
    (.inr ⟨['T', '.', 'a'], rfl, hplain⟩) (.inl ⟨['T', '.', 'a'], rfl, hplain⟩)

end MiniChromium.Codesign
