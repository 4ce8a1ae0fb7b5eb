import MiniChromium.FilePath

/-!
# The root of a directory name

Two separators at the front of a path are an alternate root, one or more than two are the
plain root. Stripping keeps the root of a path; cutting at the last separator does so
unless it cuts the third of three separators. What stripping leaves is a normal form.
-/
namespace MiniChromium.FilePath

inductive RootClass
  | relative | alternateRoot | plainRoot
  deriving DecidableEq

/-- The root that a number of separators stands for. -/
def RootClass.ofCount : ℕ → RootClass
  | 0 => .relative
  | 2 => .alternateRoot
  | _ => .plainRoot

section Model

variable (config : FilePathConfig)

/-- The number of separators at the front. -/
def leadingSeparators (rest : StringType) : ℕ := (rest.takeWhile (isSeparator config)).length

/-- The root of a path, after its drive letter. -/
def rootClass (path : StringType) : RootClass :=
  .ofCount (leadingSeparators config (afterDrive config path))

/-- A path and its directory name have one drive and one root. -/
def SameRoot (path path' : StringType) : Prop :=
  drivePrefix config path = drivePrefix config path' ∧
    rootClass config path = rootClass config path'

/-- After the drive letter, a path of exactly three separators and one component, with
any number of separators behind it. -/
def IsThirdChild (path : StringType) : Prop :=
  let rest := afterDrive config path
  let component := (rest.drop 3).rdropWhile (isSeparator config)
  leadingSeparators config rest = 3 ∧ component ≠ [] ∧ ∀ c ∈ component, isSeparator config c = false

end Model

section Lists

variable {p : CharType → Bool} {l t : StringType} {c : CharType}

theorem rdropWhile_append_of_all (h : ∀ c ∈ t, p c = true) :
    (l ++ t).rdropWhile p = l.rdropWhile p := by
  induction t using List.reverseRecOn with
  | nil => rw [List.append_nil]
  | append_singleton t c ih =>
    obtain ⟨ht, hc⟩ := List.forall_mem_append.mp h
    rw [← List.append_assoc, List.rdropWhile_concat_pos _ _ _ (hc c (List.mem_singleton_self c)),
      ih ht]

theorem takeWhile_append_of_not_all (h : l.all p = false) :
    (l ++ t).takeWhile p = l.takeWhile p := by
  induction l with
  | nil => cases h
  | cons c l ih =>
    cases hc : p c with
    | false => simp [hc]
    | true =>
      rw [List.all_cons, hc, Bool.true_and] at h
      simp [hc, ih h]

end Lists

variable {config : FilePathConfig} {drive rest front component trailing path : StringType}

/-- What is after the drive letter, around its last component. -/
structure LastComponent (config : FilePathConfig) (rest front component trailing : StringType) :
    Prop where
  split : rest = front ++ component ++ trailing
  front_eq : front = [] ∨ ∃ f s, front = f ++ [s] ∧ isSeparator config s = true
  component_ne : component ≠ []
  not_separator : ∀ c ∈ component, isSeparator config c = false
  separators : ∀ c ∈ trailing, isSeparator config c = true

theorem exists_lastComponent (h : rest.all (isSeparator config) = false) :
    ∃ front component trailing, LastComponent config rest front component trailing := by
  obtain ⟨l, c, trailing, rfl, hc, htrailing, -⟩ := exists_rdropWhile_concat h
  cases hl : l.all (fun c => !isSeparator config c) with
  | true =>
    refine ⟨[], l ++ [c], trailing, by simp, .inl rfl, by simp, ?_, htrailing⟩
    simpa [or_imp, forall_and, hc] using hl
  | false =>
    obtain ⟨f, s, component, rfl, hs, hcomponent, -⟩ := exists_rdropWhile_concat hl
    refine ⟨f ++ [s], component ++ [c], trailing, by simp, .inr ⟨f, s, rfl, by simpa using hs⟩,
      by simp, ?_, htrailing⟩
    simpa [or_imp, forall_and, hc] using hcomponent

theorem LastComponent.not_all (h : LastComponent config rest front component trailing) :
    (front ++ component).all (isSeparator config) = false := by
  obtain ⟨c, hc⟩ := List.exists_mem_of_ne_nil _ h.component_ne
  refine List.all_eq_false.mpr ⟨c, List.mem_append_right _ hc, ?_⟩
  simp [h.not_separator c hc]

theorem LastComponent.rdropWhile (h : LastComponent config rest front component trailing) :
    rest.rdropWhile (isSeparator config) = front ++ component := by
  rw [h.split, rdropWhile_append_of_all h.separators, List.rdropWhile_eq_self_iff]
  intro hne
  rw [List.getLast_append_of_ne_nil hne h.component_ne, h.not_separator _ (List.getLast_mem _)]
  exact Bool.false_ne_true

theorem LastComponent.strippedRest (h : LastComponent config rest front component trailing) :
    strippedRest config rest = front ++ component := by
  have hall : rest.all (isSeparator config) = false := by
    rw [h.split, List.all_append, h.not_all, Bool.false_and]
  rw [FilePath.strippedRest, hall, if_neg Bool.false_ne_true, h.rdropWhile]

theorem IsDrive.not_separator (h : IsDrive config drive rest) :
    ∀ c ∈ drive, isSeparator config c = false := by
  obtain rfl | ⟨-, letter, rfl, hletter⟩ := h.eq_nil_or
  · exact nofun
  · refine fun c hc => Bool.eq_false_iff.mpr fun hsep => ?_
    obtain rfl | rfl := eq_of_isSeparator hsep <;> obtain rfl | hc := List.mem_cons.mp hc <;>
      first
        | exact absurd hletter (by decide)
        | exact absurd (List.mem_singleton.mp hc) (by decide)

/-- What is left after the drive letter when the last component is cut off: the separator
before it goes too, unless nothing but one separator more is before that. -/
def cutRest (config : FilePathConfig) (front : StringType) : StringType :=
  if front.length ≤ 2 ∧ front.all (isSeparator config) = true then front else front.dropLast

theorem cutAtLastSeparator_append
    (hdrive : IsDrive config drive (front ++ component))
    (hfront : front = [] ∨ ∃ f s, front = f ++ [s] ∧ isSeparator config s = true)
    (hcomponent : ∀ c ∈ component, isSeparator config c = false) :
    cutAtLastSeparator config (drive ++ (front ++ component)) = drive ++ cutRest config front := by
  have hnone : ∀ c ∈ component, c ∉ kSeparators config := fun c hc hmem => by
    rw [mem_kSeparators_iff, hcomponent c hc] at hmem
    cases hmem
  rw [cutAtLastSeparator, hdrive.findDriveLetter_append]
  obtain rfl | ⟨f, s, rfl, hs⟩ := hfront
  · have hlast : findLastOf (kSeparators config) (drive ++ ([] ++ component)) = npos := by
      refine findLastOf_eq_npos fun c hc => ?_
      obtain hc | hc := List.mem_append.mp hc
      · rw [mem_kSeparators_iff, hdrive.not_separator c hc]
        exact Bool.false_ne_true
      · exact hnone c hc
    rw [hlast, if_pos rfl, cutRest, if_pos ⟨Nat.zero_le 2, rfl⟩, Int.sub_add_cancel, resize_append,
      List.append_nil]
  · have hlast : findLastOf (kSeparators config) (drive ++ (f ++ [s] ++ component)) =
        (drive ++ f).length := by
      have hcons : drive ++ (f ++ [s] ++ component) = (drive ++ f) ++ s :: component := by simp
      rw [hcons, findLastOf_append_cons (mem_kSeparators_iff.mpr hs) hnone]
    have hne : ((drive ++ f).length : ℤ) ≠ npos := by
      rw [npos]
      omega
    rw [hlast, if_neg hne]
    by_cases hroot : ((drive ++ f).length : ℤ) = drive.length - 1 + 1
    · -- the separator is the first character
      obtain rfl : f = [] := by
        rw [List.length_append] at hroot
        exact List.length_eq_zero_iff.mp (by omega)
      rw [if_pos hroot, cutRest, if_pos (by simp [hs])]
      exact resize_eq (b := component) (by simp) (by simp; omega)
    rw [if_neg hroot]
    by_cases halternate : ((drive ++ f).length : ℤ) = drive.length - 1 + 2 ∧
        isSeparator config (charAt (drive ++ (f ++ [s] ++ component)) (drive.length - 1 + 1)) = true
    · obtain ⟨x, rfl⟩ : ∃ x, f = [x] := by
        have hlength := halternate.1
        rw [List.length_append] at hlength
        exact List.length_eq_one_iff.mp (by omega)
      have hx : isSeparator config x = true := by
        have hx := halternate.2
        rwa [Int.sub_add_cancel, List.append_assoc, List.singleton_append, charAt_append_cons] at hx
      rw [if_pos halternate, cutRest, if_pos (by simp [hs, hx])]
      exact resize_eq (b := component) (by simp) (by simp; omega)
    · have hzero : ((drive ++ f).length : ℤ) ≠ 0 := by
        rw [List.length_append] at hroot ⊢
        omega
      have hcut : ¬((f ++ [s]).length ≤ 2 ∧ (f ++ [s]).all (isSeparator config) = true) := by
        rintro ⟨hlength, hall⟩
        obtain ⟨x, rfl⟩ : ∃ x, f = [x] := by
          rw [List.length_append] at hroot hlength
          exact List.length_eq_one_iff.mp (by simp at hlength; omega)
        refine halternate ⟨by simp; omega, ?_⟩
        rw [Int.sub_add_cancel, List.append_assoc, List.singleton_append, charAt_append_cons]
        exact List.all_eq_true.mp hall x List.mem_cons_self
      rw [if_neg halternate, if_pos hzero, cutRest, if_neg hcut, List.dropLast_concat]
      exact resize_eq (b := s :: component) (by simp) rfl

theorem cutRest_isPrefix (config : FilePathConfig) (front : StringType) :
    cutRest config front <+: front := by
  unfold cutRest
  split_ifs
  · exact List.prefix_rfl
  · exact List.dropLast_prefix front

theorem all_of_isPrefix {p : CharType → Bool} (h : rest.all p = true) (hp : front <+: rest) :
    front.all p = true :=
  List.all_eq_true.mpr fun c hc => List.all_eq_true.mp h c (hp.subset hc)

theorem leadingSeparators_of_all (h : rest.all (isSeparator config) = true) :
    leadingSeparators config rest = rest.length := by
  rw [leadingSeparators, List.takeWhile_eq_self_iff.mpr (List.all_eq_true.mp h)]

theorem leadingSeparators_append (h : front.all (isSeparator config) = false) :
    leadingSeparators config (front ++ rest) = leadingSeparators config front := by
  rw [leadingSeparators, takeWhile_append_of_not_all h, leadingSeparators]

/-- How many separators at the front stripping leaves. -/
theorem leadingSeparators_strippedRest (rest : StringType) :
    leadingSeparators config (strippedRest config rest) =
      if rest.all (isSeparator config) = true ∧ 3 ≤ leadingSeparators config rest then 1
      else leadingSeparators config rest := by
  cases hall : rest.all (isSeparator config) with
  | true =>
    have hstripped := all_of_isPrefix hall (strippedRest_isPrefix config rest)
    rw [leadingSeparators_of_all hall, leadingSeparators_of_all hstripped, strippedRest,
      if_pos hall]
    simp only [true_and]
    by_cases htwo : rest.length = 2
    · rw [if_pos htwo, htwo, if_neg (by decide)]
    · rw [if_neg htwo, List.length_take]
      split_ifs <;> omega
  | false =>
    obtain ⟨front, c, trailing, rfl, hc, -, hdrop⟩ := exists_rdropWhile_concat hall
    have hfront : (front ++ [c]).all (isSeparator config) = false := by simp [hc]
    have hcons : front ++ c :: trailing = front ++ [c] ++ trailing := by simp
    rw [if_neg (by simp), strippedRest, hall, if_neg Bool.false_ne_true, hdrop, hcons,
      leadingSeparators_append hfront]

/-- Stripping keeps the root: of three separators or more it leaves one. -/
theorem ofCount_strippedRest (rest : StringType) :
    RootClass.ofCount (leadingSeparators config (strippedRest config rest)) =
      .ofCount (leadingSeparators config rest) := by
  rw [leadingSeparators_strippedRest]
  split_ifs with hlong
  · obtain ⟨n, hn⟩ := Nat.exists_eq_add_of_le' hlong.2
    rw [hn]
    rfl
  · rfl

theorem rootClass_append (h : IsDrive config drive rest) :
    rootClass config (drive ++ rest) = .ofCount (leadingSeparators config rest) := by
  rw [rootClass, h.afterDrive_append]

/-- The directory name is what the cut leaves, stripped once more; if that is nothing, neither
a drive nor a separator, it is the current directory. -/
theorem dirNameString_append (hdrive : IsDrive config drive rest)
    (hrest : strippedRest config rest = front ++ component)
    (hfront : front = [] ∨ ∃ f s, front = f ++ [s] ∧ isSeparator config s = true)
    (hcomponent : ∀ c ∈ component, isSeparator config c = false) :
    IsDrive config drive (strippedRest config (cutRest config front)) ∧
      dirNameString config (drive ++ rest) =
        if drive ++ strippedRest config (cutRest config front) = [] then kCurrentDirectory
        else drive ++ strippedRest config (cutRest config front) := by
  have hstripped : front ++ component <+: rest := hrest ▸ strippedRest_isPrefix config rest
  have hcut : cutRest config front <+: rest :=
    (cutRest_isPrefix config front).trans ((List.prefix_append front component).trans hstripped)
  refine ⟨hdrive.of_isPrefix ((strippedRest_isPrefix config _).trans hcut), ?_⟩
  rw [dirNameString, strip_append hdrive, hrest,
    cutAtLastSeparator_append (hdrive.of_isPrefix hstripped) hfront hcomponent,
    strip_append (hdrive.of_isPrefix hcut)]
  simp only [List.length_eq_zero_iff]

/-- The current directory has no drive and no root. -/
theorem root_kCurrentDirectory :
    drivePrefix config kCurrentDirectory = [] ∧
      rootClass config kCurrentDirectory = .ofCount 0 := by
  have hdot : isSeparator config 46 = false := isSeparator_dot
  refine ⟨rfl, ?_⟩
  rw [rootClass, leadingSeparators]
  simp [afterDrive, kCurrentDirectory, literal, findDriveLetter, npos, hdot]

/-- The directory name has the drive of the path, and the root of what the cut leaves. -/
theorem root_dirNameString (hdrive : IsDrive config drive rest)
    (hrest : strippedRest config rest = front ++ component)
    (hfront : front = [] ∨ ∃ f s, front = f ++ [s] ∧ isSeparator config s = true)
    (hcomponent : ∀ c ∈ component, isSeparator config c = false) :
    drivePrefix config (dirNameString config (drive ++ rest)) = drive ∧
      rootClass config (dirNameString config (drive ++ rest)) =
        .ofCount (leadingSeparators config (cutRest config front)) := by
  obtain ⟨hdir, hname⟩ := dirNameString_append hdrive hrest hfront hcomponent
  rw [hname, ← ofCount_strippedRest]
  split_ifs with hempty
  · obtain ⟨rfl, hnil⟩ := List.append_eq_nil_iff.mp hempty
    rw [hnil]
    exact root_kCurrentDirectory
  · exact ⟨hdir.drivePrefix_append, rootClass_append hdir⟩

theorem length_strippedRest_le (hall : rest.all (isSeparator config) = true) :
    (strippedRest config rest).length ≤ 2 := by
  rw [strippedRest, if_pos hall]
  split_ifs with htwo
  · exact htwo.le
  · exact (List.length_take_le 1 rest).trans (by decide)

/-- Of separators alone, stripping leaves at most two, which the cut keeps. -/
theorem strippedRest_of_all (hall : rest.all (isSeparator config) = true) :
    (strippedRest config rest = [] ∨
      ∃ f s, strippedRest config rest = f ++ [s] ∧ isSeparator config s = true) ∧
    cutRest config (strippedRest config rest) = strippedRest config rest := by
  have hstripped := all_of_isPrefix hall (strippedRest_isPrefix config rest)
  have hlength := length_strippedRest_le hall
  refine ⟨(List.eq_nil_or_concat _).imp_right ?_, if_pos ⟨hlength, hstripped⟩⟩
  rintro ⟨f, s, hs⟩
  rw [List.concat_eq_append] at hs
  exact ⟨f, s, hs, List.all_eq_true.mp hstripped s (by simp [hs])⟩

theorem LastComponent.drop (h : LastComponent config rest front component trailing) {n : ℕ}
    (hn : n ≤ front.length) :
    LastComponent config (rest.drop n) (front.drop n) component trailing where
  split := by rw [h.split, List.append_assoc, List.drop_append_of_le_length hn, List.append_assoc]
  front_eq := by
    obtain rfl | ⟨f, s, rfl, hs⟩ := h.front_eq
    · exact .inl List.drop_nil
    · obtain hn | hn := Nat.lt_or_eq_of_le hn
      · rw [List.length_append, List.length_singleton] at hn
        exact .inr ⟨f.drop n, s, List.drop_append_of_le_length (by omega), hs⟩
      · exact .inl (List.drop_eq_nil_of_le hn.ge)
  component_ne := h.component_ne
  not_separator := h.not_separator
  separators := h.separators

theorem LastComponent.leadingSeparators_eq
    (h : LastComponent config rest front component trailing)
    (hall : front.all (isSeparator config) = true) :
    leadingSeparators config rest = front.length := by
  obtain ⟨c, component, rfl⟩ := List.exists_cons_of_ne_nil h.component_ne
  have hc : isSeparator config c = false := h.not_separator c List.mem_cons_self
  rw [h.split, List.append_assoc, leadingSeparators,
    List.takeWhile_append_of_pos (List.all_eq_true.mp hall)]
  simp [hc]

/-- Only one of three separators at the front may not be cut. -/
theorem LastComponent.root_iff (h : LastComponent config rest front component trailing) :
    RootClass.ofCount (leadingSeparators config (cutRest config front)) =
      .ofCount (leadingSeparators config rest) ↔
    ¬(front.length = 3 ∧ front.all (isSeparator config) = true) := by
  cases hall : front.all (isSeparator config) with
  | true =>
    have hcut := leadingSeparators_of_all (all_of_isPrefix hall (cutRest_isPrefix config front))
    rw [h.leadingSeparators_eq hall, hcut, cutRest, hall]
    simp only [and_true]
    split_ifs with hlength
    · exact iff_of_true rfl (by omega)
    · rw [List.length_dropLast]
      match hn : front.length with
      | 0 | 1 | 2 => omega
      | 3 => simp [RootClass.ofCount]
      | n + 4 => simp [RootClass.ofCount]
  | false =>
    obtain rfl | ⟨f, s, rfl, hs⟩ := h.front_eq
    · cases hall
    · have hf : f.all (isSeparator config) = false := by simpa [hs] using hall
      rw [cutRest, hall, if_neg (by simp), List.dropLast_concat, h.split, List.append_assoc,
        leadingSeparators_append hall, leadingSeparators_append hf]
      simp

theorem LastComponent.isThirdChild_iff
    (h : LastComponent config (afterDrive config path) front component trailing) :
    IsThirdChild config path ↔ front.length = 3 ∧ front.all (isSeparator config) = true := by
  unfold IsThirdChild
  dsimp only
  cases hall : front.all (isSeparator config) with
  | true =>
    rw [h.leadingSeparators_eq hall]
    simp only [and_true]
    refine ⟨fun hthird => hthird.1, fun hlength => ⟨hlength, ?_⟩⟩
    rw [(h.drop hlength.ge).rdropWhile, List.drop_eq_nil_of_le hlength.le, List.nil_append]
    exact ⟨h.component_ne, h.not_separator⟩
  | false =>
    refine iff_of_false ?_ (by simp)
    rintro ⟨hthree, -, hnot⟩
    obtain rfl | ⟨f, s, rfl, hs⟩ := h.front_eq
    · cases hall
    · have hf : f.all (isSeparator config) = false := by simpa [hs] using hall
      have hlength : 3 ≤ f.length := by
        rw [h.split, List.append_assoc, List.append_assoc, leadingSeparators_append hf,
          leadingSeparators] at hthree
        exact hthree ▸ (List.takeWhile_prefix _).length_le
      rw [(h.drop (by simp; omega)).rdropWhile, List.drop_append_of_le_length hlength] at hnot
      rw [hnot s (by simp)] at hs
      cases hs

theorem dirNameString_sameRoot_iff (config : FilePathConfig) (path : StringType) :
    SameRoot config (dirNameString config path) path ↔ ¬IsThirdChild config path := by
  obtain ⟨drive, rest, hdrive, hpath⟩ := exists_isDrive config path
  have hrest : afterDrive config path = rest := hpath ▸ hdrive.afterDrive_append
  rw [SameRoot, rootClass, rootClass, hrest, ← hpath, hdrive.drivePrefix_append]
  cases hall : rest.all (isSeparator config) with
  | true =>
    -- what stripping leaves is the root, which the cut keeps
    obtain ⟨hfront, hcut⟩ := strippedRest_of_all hall
    have hroot := root_dirNameString hdrive (List.append_nil _).symm hfront nofun
    rw [hcut, ofCount_strippedRest, rootClass] at hroot
    refine iff_of_true hroot fun hthird => hthird.2.1 ?_
    rw [hpath, hrest, List.rdropWhile_eq_nil_iff]
    exact fun c hc => List.all_eq_true.mp hall c (List.mem_of_mem_drop hc)
  | false =>
    obtain ⟨front, component, trailing, h⟩ := exists_lastComponent hall
    have hroot := root_dirNameString hdrive h.strippedRest h.front_eq h.not_separator
    rw [rootClass] at hroot
    rw [hroot.1, hroot.2, h.root_iff, hpath]
    have := (hrest ▸ h : LastComponent config (afterDrive config path) _ _ _).isThirdChild_iff
    simp [this]

/-- A directory name has the drive and the root of its path, unless the path is three
separators with one component: cut at the third, two are left. -/
theorem dirName_sameRoot_iff (config : FilePathConfig) (p : FilePath) :
    SameRoot config (dirName config p).path p.path ↔ ¬IsThirdChild config p.path :=
  dirNameString_sameRoot_iff config p.path

/-- `DirName` of ///a is //, an alternate root. -/
theorem dirName_changes_root :
    (dirName posix (ofString (literal ['/', '/', '/', 'a']))).path = literal ['/', '/'] ∧
      ¬SameRoot posix (dirName posix (ofString (literal ['/', '/', '/', 'a']))).path
        (ofString (literal ['/', '/', '/', 'a'])).path := by
  unfold SameRoot
  decide

example : (dirName windows (ofString (literal ['C', ':', '\\', 'a', '/']))).path =
    literal ['C', ':', '\\'] := by decide

section NormalForm

variable {config : FilePathConfig} {drive rest front path : StringType} {s : CharType} {n : ℕ}

/-- The given number of separators and nothing else. -/
def IsSeparators (config : FilePathConfig) (n : ℕ) (rest : StringType) : Prop :=
  rest.length = n ∧ ∀ s ∈ rest, isSeparator config s = true

/-- What `StripTrailingSeparatorsInternal` makes of a path. -/
structure IsNormalFormOf (config : FilePathConfig) (path result : StringType) : Prop where
  /-- Separators at the end are all that goes. -/
  removed : ∃ seps, path = result ++ seps ∧ ∀ s ∈ seps, isSeparator config s = true
  drive : drivePrefix config result = drivePrefix config path
  stable : stripTrailingSeparatorsInternal config result = result
  /-- A separator at the end is that of a root. -/
  trailing : ∀ front s, result = front ++ [s] → isSeparator config s = true →
    IsSeparators config 1 (afterDrive config result) ∨
      IsSeparators config 2 (afterDrive config result)
  two : IsSeparators config 2 (afterDrive config result) →
    IsSeparators config 2 (afterDrive config path)
  three : ∀ n ≥ 3, IsSeparators config n (afterDrive config path) →
    IsSeparators config 1 (afterDrive config result)

/-- Only separators are taken off what follows the drive letter. -/
theorem exists_strippedRest_append (config : FilePathConfig) (rest : StringType) :
    ∃ seps, rest = strippedRest config rest ++ seps ∧ ∀ s ∈ seps, isSeparator config s = true := by
  cases hall : rest.all (isSeparator config) with
  | true =>
    obtain ⟨seps, hseps⟩ := strippedRest_isPrefix config rest
    refine ⟨seps, hseps.symm, fun s hs => List.all_eq_true.mp hall s ?_⟩
    rw [← hseps]
    exact List.mem_append_right _ hs
  | false =>
    obtain ⟨front, c, seps, hrest, -, hseps, hdrop⟩ := exists_rdropWhile_concat hall
    refine ⟨seps, ?_, hseps⟩
    rw [strippedRest, hall, if_neg Bool.false_ne_true, hdrop, List.append_assoc,
      List.singleton_append, hrest]

/-- What ends in a separator after stripping had nothing but separators. -/
theorem all_of_strippedRest_concat (h : strippedRest config rest = front ++ [s])
    (hs : isSeparator config s = true) : rest.all (isSeparator config) = true := by
  cases hall : rest.all (isSeparator config) with
  | true => rfl
  | false =>
    obtain ⟨front', c, -, -, hc, -, hdrop⟩ := exists_rdropWhile_concat hall
    rw [strippedRest, hall, if_neg Bool.false_ne_true, hdrop] at h
    have hlast : [c] = [s] := (List.append_inj' h rfl).2
    rw [List.singleton_inj.mp hlast, hs] at hc
    cases hc

theorem strippedRest_two (h : IsSeparators config 2 (strippedRest config rest)) :
    IsSeparators config 2 rest := by
  obtain ⟨front, s, hfront⟩ := (List.eq_nil_or_concat _).resolve_left
    (List.ne_nil_of_length_pos (h.1 ▸ Nat.two_pos))
  rw [List.concat_eq_append] at hfront
  have hall := all_of_strippedRest_concat hfront (h.2 s (by simp [hfront]))
  have hlength := h.1
  rw [strippedRest, if_pos hall] at hlength
  split_ifs at hlength with htwo
  · exact ⟨htwo, List.all_eq_true.mp hall⟩
  · have := List.length_take_le 1 rest
    omega

theorem strippedRest_three (hn : 3 ≤ n) (h : IsSeparators config n rest) :
    IsSeparators config 1 (strippedRest config rest) := by
  have hall : rest.all (isSeparator config) = true := List.all_eq_true.mpr h.2
  have htwo : ¬ rest.length = 2 := by
    rw [h.1]
    omega
  rw [strippedRest, if_pos hall, if_neg htwo]
  refine ⟨?_, fun s hs => h.2 s (List.mem_of_mem_take hs)⟩
  rw [List.length_take, h.1]
  omega

/-- For every path, stripping gives its normal form. -/
theorem strip_isNormalFormOf (config : FilePathConfig) (path : StringType) :
    IsNormalFormOf config path (stripTrailingSeparatorsInternal config path) := by
  obtain ⟨drive, rest, hdrive, rfl⟩ := exists_isDrive config path
  have hresult := hdrive.of_isPrefix (strippedRest_isPrefix config rest)
  have hafter : afterDrive config (stripTrailingSeparatorsInternal config (drive ++ rest)) =
      strippedRest config rest := by
    rw [strip_append hdrive, hresult.afterDrive_append]
  refine ⟨?_, ?_, strip_strip _, fun front s hfront hs => ?_, fun htwo => ?_, fun n hn hrest => ?_⟩
  · obtain ⟨seps, hrest, hseps⟩ := exists_strippedRest_append config rest
    refine ⟨seps, ?_, hseps⟩
    rw [strip_append hdrive, List.append_assoc, ← hrest]
  · rw [strip_append hdrive, hresult.drivePrefix_append, hdrive.drivePrefix_append]
  · rw [strip_append hdrive] at hfront
    rw [hafter]
    obtain hnil | ⟨front', s', hconcat⟩ := List.eq_nil_or_concat (strippedRest config rest)
    · -- the drive letter has no separator
      rw [hnil, List.append_nil] at hfront
      have := hdrive.not_separator s (by simp [hfront])
      rw [hs] at this
      cases this
    · rw [List.concat_eq_append] at hconcat
      rw [hconcat, ← List.append_assoc] at hfront
      obtain rfl : s' = s := List.singleton_inj.mp (List.append_inj' hfront rfl).2
      have hall := all_of_strippedRest_concat hconcat hs
      have hlength := length_strippedRest_le hall
      have hseps := List.all_eq_true.mp (all_of_isPrefix hall (strippedRest_isPrefix config rest))
      have hpos : 0 < (strippedRest config rest).length := by
        rw [hconcat, List.length_append]
        exact Nat.succ_pos _
      obtain hone | htwo : (strippedRest config rest).length = 1 ∨
          (strippedRest config rest).length = 2 := by omega
      · exact .inl ⟨hone, hseps⟩
      · exact .inr ⟨htwo, hseps⟩
  · rw [hafter] at htwo
    rw [hdrive.afterDrive_append]
    exact strippedRest_two htwo
  · rw [hdrive.afterDrive_append] at hrest
    rw [hafter]
    exact strippedRest_three hn hrest

end NormalForm

end MiniChromium.FilePath
