import Mathlib.Data.List.Sort
import Mathlib.Order.Minimal
import MiniChromium.PListInterpolate
import MiniChromium.UnicodeDigits

/-!
# The SDK of the Mac

`xcodebuild` lists the SDKs that are there. Of those for the platform that are no older than the
minimum, the oldest one is taken, and `xcrun` is asked for its path.
-/
namespace MiniChromium.MacSdk

open Backtracking PListUtil UnicodeDigits

section Code

/-- The characters that end a line. -/
def isLineBoundary (c : Char) : Bool :=
  let n := c.toNat
  (0x0A ≤ n && n ≤ 0x0D) || (0x1C ≤ n && n ≤ 0x1E) || n = 0x85 || n = 0x2028 || n = 0x2029

/-- `splitlines`, where a line that has begun is given. -/
def splitlinesFrom (line : Text) : Text → List Text
  | [] => if line = [] then [] else [line]
  | '\r' :: '\n' :: rest => line :: splitlinesFrom [] rest
  | c :: rest =>
    if isLineBoundary c then line :: splitlinesFrom [] rest else splitlinesFrom (line ++ [c]) rest

def splitlines (text : Text) : List Text := splitlinesFrom [] text

/-- `rstrip`, of characters of a class. -/
def rstrip (p : Char → Bool) (text : Text) : Text := (text.reverse.dropWhile p).reverse

/-- `(\d+)`. -/
def digitsRegexp : Regex Char Unit := .group () (.plus isDecimal)

/-- What the first group holds. -/
def captured (groups : List (Unit × Text)) : Text := (groups.lookup ()).getD []

/-- `_AsVersion`. A tuple is a list. -/
def asVersion (versionStr : Text) : List ℕ :=
  (Backtracking.scan digitsRegexp 0 versionStr).filterMap
    (Sum.elim (fun _ => none) fun groups => some (ofDecimals (captured groups)))

/-- `str` of a tuple of numbers. -/
def strTuple (version : List ℕ) : Text :=
  '(' :: [',', ' '].intercalate (version.map (Nat.toDigits 10)) ++
    if version.length = 1 then [',', ')'] else [')']

/-- `[ \t]`. -/
def blank (c : Char) : Bool := c = ' ' || c = '\t'

/-- `.`. -/
def dot (c : Char) : Bool := c ≠ '\n'

/-- `(.+)`. -/
def suffixRegexp : Regex Char Unit := .group () (.plus dot)

/-- `[ \t]-sdk `, the platform and `(.+)`. -/
def optionRegexp (platform : Text) : Regex Char Unit :=
  .seq (.char blank) (literalThen ("-sdk ".toList ++ platform) suffixRegexp)

/-- The regular expression for a line. It ends with `$`, which holds at the first match: the
group takes the rest of the line. -/
def sdkRegexp (platform : Text) : Regex Char Unit :=
  .seq (.char blank) (.seq (.char dot) (.seq (.star dot) (optionRegexp platform)))

/-- `match.group(1)`, if the line matches. -/
def sdkVersionStr (platform line : Text) : Option Text :=
  (first (sdkRegexp platform) line).map fun m => captured m.groups

/-- What the tools of the developer return, and the paths of the file system. -/
structure Tools where
  /-- The status of `xcode-select --print-path`. -/
  xcodeSelect : ℤ
  /-- The status and the output of `xcodebuild -showsdks`. -/
  xcodebuild : ℤ × Text
  /-- The output of `xcrun`, where it succeeds. -/
  xcrun : List Text → Option Text
  realpath : Text → Text

inductive SdkError
  | calledProcessError
  | didNotMeetCriteria (criteria : List (String × Option Text))
  deriving DecidableEq

/-- `_RunXCRun`. -/
def runXCRun (tools : Tools) (args : List Text) (sdk : Option Text) : Except SdkError Text :=
  match tools.xcrun ((sdk.elim [] fun sdk => ["--sdk".toList, sdk]) ++ args) with
  | none => .error .calledProcessError
  | some output => .ok (rstrip isSpace output)

/-- `_SDKPath`. -/
def sdkPath (tools : Tools) (sdk : Option Text) : Except SdkError Text :=
  runXCRun tools ["--show-sdk-path".toList] sdk

/-- `_SDKVersion`. -/
def sdkVersion (tools : Tools) (sdk : Option Text) : Except SdkError (List ℕ) :=
  (runXCRun tools ["--show-sdk-version".toList] sdk).map asVersion

/-- The versions of the SDKs for the platform that are listed and no older than the minimum. -/
def sdkVersionStrs (platform minimum output : Text) : List Text :=
  ((splitlines output).filterMap (sdkVersionStr platform)).filter fun version =>
    ¬asVersion version < asVersion minimum

/-- `_FindPlatformSDKWithMinimumVersion`. -/
def findPlatformSDKWithMinimumVersion (tools : Tools) (platform minimum : Text) :
    Except SdkError (List ℕ × Text) := do
  if tools.xcodebuild.1 = 0 then
    let sorted := (sdkVersionStrs platform minimum tools.xcodebuild.2).insertionSort fun v w =>
      ¬asVersion w < asVersion v
    match sorted with
    | [] => .error (.didNotMeetCriteria [("minimum", minimum), ("platform", platform)])
    | version :: _ => do
      let path ← sdkPath tools (platform ++ version)
      return (asVersion version, path)
  else
    let path ← sdkPath tools none
    let version ← sdkVersion tools none
    if version < asVersion minimum then
      .error (.didNotMeetCriteria [("minimum", minimum), ("platform", platform),
        ("sdk_path", path), ("sdk_version", strTuple version)])
    else return (version, path)

structure Arguments where
  developerDir : Option Text
  exact : Option Text
  minimum : Option Text
  path : Option Text
  platform : Text

/-- The version and the path that `main` looks up. -/
def lookUp (tools : Tools) (parsed : Arguments) : Except SdkError (List ℕ × Text) := do
  match parsed.path, parsed.exact, parsed.minimum with
  | some path, _, _ => return (← sdkVersion tools (tools.realpath path), path)
  | none, none, none =>
    return (← sdkVersion tools parsed.platform, ← sdkPath tools parsed.platform)
  | none, some exact, _ =>
    let sdk := parsed.platform ++ exact
    return (← sdkVersion tools sdk, ← sdkPath tools sdk)
  | none, none, some minimum => findPlatformSDKWithMinimumVersion tools parsed.platform minimum

/-- How `main` ends. The hint for the standard error output is left out. -/
inductive Outcome
  | raised (error : SdkError)
  | returned (status : ℕ) (output : Text)
  deriving DecidableEq

/-- The checks of `main` and what it prints. -/
def checkAndPrint (parsed : Arguments) (version : List ℕ) (path : Text) : Outcome :=
  if (parsed.exact.any fun exact => version ≠ asVersion exact) ||
      parsed.minimum.any fun minimum => version < asVersion minimum then
    .raised (.didNotMeetCriteria [("developer_dir", parsed.developerDir), ("exact", parsed.exact),
      ("minimum", parsed.minimum), ("path", parsed.path), ("platform", parsed.platform),
      ("sdk_path", path), ("sdk_version", strTuple version)])
  else .returned 0 (strTuple version ++ '\n' :: rstrip (· = '/') path ++ ['\n'])

/-- `main`, where the environment holds `DEVELOPER_DIR` or not, and the tools depend on it. -/
def main (tools : Option Text → Tools) (developerDir : Option Text) (parsed : Arguments) :
    Outcome :=
  let developerDir := parsed.developerDir.or developerDir
  if developerDir = none ∧ (tools developerDir).xcodeSelect ≠ 0 then .returned 1 []
  else
    match lookUp (tools developerDir) parsed with
    | .error error => .raised error
    | .ok (version, path) => checkAndPrint parsed version path

end Code

variable {platform line text v w : Text} {c : Char}

/-- The line has an SDK for the platform with this text behind it. -/
def Occurs (platform line v : Text) : Prop :=
  v ≠ [] ∧ ∃ c d front, blank c = true ∧ blank d = true ∧ front ≠ [] ∧
    line = c :: front ++ d :: ("-sdk ".toList ++ platform ++ v)

/-- The text is behind the last SDK for the platform in the line. -/
def Lists (platform line v : Text) : Prop :=
  Occurs platform line v ∧ ∀ w, Occurs platform line w → v.length ≤ w.length

theorem dot_of_notMem (h : '\n' ∉ text) : ∀ c ∈ text, dot c = true := by
  intro c hc
  exact decide_eq_true (ne_of_mem_of_not_mem hc h)

/-- The group takes everything. -/
theorem first_suffixRegexp (h : '\n' ∉ v) (hne : v ≠ []) :
    first suffixRegexp v = some ⟨[((), v)], v, []⟩ := by
  obtain ⟨c, v, rfl⟩ := List.exists_cons_of_ne_nil hne
  have hplus : first (.plus dot : Regex Char Unit) (c :: v ++ []) = some ⟨[], c :: v, []⟩ :=
    first_plus (dot_of_notMem h) nofun
  rw [List.append_nil] at hplus
  rw [suffixRegexp, first_group, hplus]
  rfl

/-- The option, the platform and the text behind them. -/
theorem first_optionRegexp (h : '\n' ∉ v) (hne : v ≠ []) (hc : blank c = true) :
    first (optionRegexp platform) (c :: ("-sdk ".toList ++ platform ++ v)) =
      some ⟨[((), v)], c :: ("-sdk ".toList ++ platform ++ v), []⟩ := by
  rw [optionRegexp, first_seq_char_cons, if_pos hc, first_literalThen_append,
    first_suffixRegexp h hne]
  rfl

/-- The option is matched only where it is. -/
theorem of_first_optionRegexp {m : Match Char Unit}
    (h : first (optionRegexp platform) text = some m) :
    ∃ d v, blank d = true ∧ v ≠ [] ∧ text = d :: ("-sdk ".toList ++ platform ++ v) := by
  cases text with
  | nil => cases h
  | cons d text =>
    rw [optionRegexp, first_seq_char_cons] at h
    split_ifs at h with hd
    obtain ⟨m', h', -⟩ := Option.map_eq_some_iff.mp h
    obtain ⟨v, rfl⟩ := prefix_of_first_literalThen h'
    refine ⟨d, v, hd, ?_, rfl⟩
    rintro rfl
    rw [first_literalThen_append] at h'
    cases h'

theorem first_sdkRegexp (platform : Text) (c d : Char) (text : Text) :
    (first (sdkRegexp platform) (c :: d :: text)).map (fun m => captured m.groups) =
      if blank c ∧ dot d then
        (splits dot text).reverse.findSome? fun split =>
          (first (optionRegexp platform) split.2).map fun m => captured m.groups
      else none := by
  rw [sdkRegexp, first_seq_char_cons]
  by_cases hc : blank c = true
  · rw [if_pos hc, first_seq_char_cons]
    by_cases hd : dot d = true
    · rw [if_pos hd, if_pos ⟨hc, hd⟩, first_seq, run, List.findSome?_map, Option.map_map,
        Option.map_map, List.map_findSome?]
      refine congrArg (fun f => (splits dot text).reverse.findSome? f) (funext fun split => ?_)
      exact (Option.map_map ..)
    · rw [if_neg hd, if_neg (fun h => hd h.2)]
      rfl
  · rw [if_neg hc, if_neg (fun h => hc h.1)]
    rfl

/-- A line that lists an SDK matches. -/
theorem sdkVersionStr_of_lists (hline : '\n' ∉ line) (h : Lists platform line v) :
    sdkVersionStr platform line = some v := by
  obtain ⟨⟨hv, c, d, front, hc, hd, hfront, rfl⟩, hleast⟩ := h
  obtain ⟨e, front, rfl⟩ := List.exists_cons_of_ne_nil hfront
  have hdot := dot_of_notMem hline
  have hback : '\n' ∉ v := fun h => hline (by simp [h])
  rw [List.cons_append, List.cons_append] at hleast ⊢
  rw [sdkVersionStr, first_sdkRegexp, if_pos ⟨hc, hdot e (by simp)⟩]
  refine findSome?_reverse_splits (fun a ha => hdot a (by simp [ha])) ?_ ?_
  · intro longer back hrest hne hlonger
    rw [Option.map_eq_none_iff, Option.eq_none_iff_forall_ne_some]
    intro m hm
    obtain ⟨d', w, hd', hw, rfl⟩ := of_first_optionRegexp hm
    have hlength := congrArg List.length hrest
    have hpos := List.length_pos_of_ne_nil hne
    have hle := hleast w
      ⟨hw, c, d', e :: front ++ longer, hc, hd', by simp, by rw [hrest]; simp⟩
    simp only [List.length_append, List.length_cons] at hlength
    omega
  · rw [first_optionRegexp hback hv hd]
    rfl

/-- Of the texts behind an SDK one is the shortest. -/
theorem exists_lists (h : Occurs platform line v) : ∃ w, Lists platform line w := by
  obtain ⟨w, hw, hleast⟩ :=
    exists_minimalFor_of_wellFoundedLT (Occurs platform line) List.length ⟨v, h⟩
  exact ⟨w, hw, fun u hu => (le_total w.length u.length).elim id (hleast hu)⟩

theorem occurs_of_sdkVersionStr (h : sdkVersionStr platform line = some v) :
    ∃ w, Occurs platform line w := by
  match line with
  | [] => cases h
  | [c] =>
    rw [sdkVersionStr, sdkRegexp, first_seq_char_cons] at h
    split_ifs at h <;> cases h
  | c :: d :: text =>
    rw [sdkVersionStr, first_sdkRegexp] at h
    split_ifs at h with hc
    obtain ⟨split, hsplit, h⟩ := List.exists_of_findSome?_eq_some h
    obtain ⟨m, hm, -⟩ := Option.map_eq_some_iff.mp h
    obtain ⟨e, w, he, hw, hrest⟩ := of_first_optionRegexp hm
    obtain ⟨rfl, -⟩ := mem_splits.mp (List.mem_reverse.mp hsplit)
    exact ⟨w, hw, c, e, d :: split.1, hc.1, he, List.cons_ne_nil _ _, by rw [hrest]; rfl⟩

/-- A line matches where it lists an SDK. -/
theorem sdkVersionStr_eq_some_iff (hline : '\n' ∉ line) :
    sdkVersionStr platform line = some v ↔ Lists platform line v := by
  refine ⟨fun h => ?_, sdkVersionStr_of_lists hline⟩
  obtain ⟨w, hw⟩ := occurs_of_sdkVersionStr h
  obtain ⟨w, hw⟩ := exists_lists hw
  rwa [← Option.some_inj.mp ((sdkVersionStr_of_lists hline hw).symm.trans h)]

theorem notMem_of_splitlinesFrom (hline : '\n' ∉ line) :
    ∀ found ∈ splitlinesFrom line text, '\n' ∉ found := by
  fun_induction splitlinesFrom line text with
  | case1 => exact nofun
  | case2 => simpa using hline
  | case3 line rest ih => exact List.forall_mem_cons.mpr ⟨hline, ih (by simp)⟩
  | case4 line c rest _ hc ih => exact List.forall_mem_cons.mpr ⟨hline, ih (by simp)⟩
  | case5 line c rest _ hc ih =>
    refine ih fun h => ?_
    rcases List.mem_append.mp h with h | h
    · exact hline h
    · obtain rfl := List.mem_singleton.mp h
      exact absurd (by decide) hc

theorem notMem_of_mem_splitlines (h : line ∈ splitlines text) : '\n' ∉ line :=
  notMem_of_splitlinesFrom (by simp) line h

theorem asVersion_toDigits_append (n : ℕ) (hrest : ∀ c ∈ text.head?, isDecimal c = false) :
    asVersion (Nat.toDigits 10 n ++ text) = n :: asVersion text := by
  have hne : Nat.toDigits 10 n ≠ [] := Nat.toDigits_ne_nil
  obtain ⟨c, digits, hdigits⟩ := List.exists_cons_of_ne_nil hne
  have hall : ∀ d ∈ c :: digits, isDecimal d = true :=
    fun d hd => isDecimal_of_isDigit (isDigit_of_mem_toDigits (hdigits ▸ hd))
  have hfirst : first digitsRegexp (c :: digits ++ text) =
      some ⟨[((), c :: digits)], c :: digits, text⟩ := by
    rw [digitsRegexp, first_group, first_plus hall hrest]
    rfl
  have hread : captured [((), Nat.toDigits 10 n)] = Nat.toDigits 10 n := rfl
  rw [asVersion, hdigits, scan_of_first hfirst (List.cons_ne_nil _ _), ← hdigits]
  simp [hread, ofDecimals_toDigits, asVersion]

theorem asVersion_cons (hc : isDecimal c = false) : asVersion (c :: text) = asVersion text := by
  have hfirst : first digitsRegexp (c :: text) = none := by
    rw [digitsRegexp, first_group, Regex.plus, first_seq_char_cons, if_neg (ne_true_of_eq_false hc)]
    rfl
  rw [asVersion, scan_of_none hfirst, List.filterMap_cons]
  rfl

/-- A version of numbers between points is read as these numbers. -/
theorem asVersion_intercalate (numbers : List ℕ) :
    asVersion (['.'].intercalate (numbers.map (Nat.toDigits 10))) = numbers := by
  have hpoint : isDecimal '.' = false := by decide
  induction numbers with
  | nil => rfl
  | cons n numbers ih =>
    cases numbers with
    | nil =>
      have hn : asVersion (Nat.toDigits 10 n ++ []) = [n] := asVersion_toDigits_append n nofun
      rw [List.map_singleton, List.intercalate_singleton, ← List.append_nil (Nat.toDigits 10 n), hn]
    | cons m numbers =>
      rw [List.map_cons, List.map_cons, List.intercalate_cons_cons, List.append_assoc,
        asVersion_toDigits_append n (by simpa using hpoint), List.singleton_append,
        asVersion_cons hpoint,
        ← List.map_cons, ih]

/-- A name, and the option for an SDK behind it. -/
def printed (c : Char) (name : Text) (d : Char) (option : Text) : Text :=
  c :: name ++ d :: ("-sdk ".toList ++ option)

/-- Only the text behind the option is behind an SDK. -/
theorem occurs_printed_iff {c d : Char} {name option : Text} (hc : blank c = true)
    (hd : blank d = true) (hname : name ≠ []) (hapart : ¬"-sdk ".toList <:+: name ++ [d])
    (hoption : ∀ e ∈ option, blank e = false) :
    Occurs platform (printed c name d option) v ↔ v ≠ [] ∧ option = platform ++ v := by
  constructor
  · rintro ⟨hv, c', d', front, -, hd', -, hline⟩
    refine ⟨hv, ?_⟩
    have htail : name ++ d :: ("-sdk ".toList ++ option) =
        front ++ d' :: ("-sdk ".toList ++ platform ++ v) := (List.cons.inj hline).2
    rw [List.append_assoc] at htail
    rcases List.append_eq_append_iff.mp htail with ⟨z, rfl, hz⟩ | ⟨z, rfl, hz⟩
    · cases z with
      | nil => exact List.append_cancel_left (List.cons.inj hz).2
      | cons e z =>
        -- The option has one blank, and one behind it would have another.
        have htext : "-sdk ".toList ++ option =
            z ++ d' :: ("-sdk ".toList ++ (platform ++ v)) := (List.cons.inj hz).2
        have hcount := congrArg (List.countP blank) htext
        have hnone : option.countP blank = 0 := List.countP_eq_zero.mpr (by simpa using hoption)
        have hone : "-sdk ".toList.countP blank = 1 := by decide
        simp only [List.countP_append, List.countP_cons, hnone, hone, hd', if_true] at hcount
        omega
    · cases z with
      | nil => exact (List.append_cancel_left (List.cons.inj hz).2).symm
      | cons e z =>
        have htext : "-sdk ".toList ++ (platform ++ v) =
            z ++ d :: ("-sdk ".toList ++ option) := (List.cons.inj hz).2
        have hfront : "-sdk ".toList <+: z ++ d :: ("-sdk ".toList ++ option) :=
          htext ▸ List.prefix_append _ _
        have hback : z ++ [d] <+: z ++ d :: ("-sdk ".toList ++ option) :=
          (List.prefix_append_right_inj z).mpr ⟨_, rfl⟩
        rcases Nat.lt_or_ge (z ++ [d]).length 5 with hshort | hlong
        · have hpre : z ++ [d] <+: "-sdk".toList :=
            List.prefix_of_prefix_length_le
              (List.prefix_of_prefix_length_le hback hfront hshort.le)
              (List.prefix_append "-sdk".toList [' ']) (Nat.lt_succ_iff.mp hshort)
          have hnone : "-sdk".toList.all (fun e => !blank e) = true := by decide
          have hblank := List.all_eq_true.mp hnone d (hpre.subset (by simp))
          rw [hd] at hblank
          cases hblank
        · have hpre := List.prefix_of_prefix_length_le hfront hback hlong
          have hsuffix : z ++ [d] <:+ front ++ e :: z ++ [d] := ⟨front ++ [e], by simp⟩
          exact absurd (hpre.isInfix.trans hsuffix.isInfix) hapart
  · rintro ⟨hv, rfl⟩
    exact ⟨hv, c, d, name, hc, hd, hname, by rw [printed, List.append_assoc]⟩

/-- A printed line lists the SDK for every platform that its option begins with. It gives back
the numbers of a version that is printed behind the platform. -/
theorem sdkVersionStr_printed {c d : Char} {name option : Text} (hc : blank c = true)
    (hd : blank d = true) (hname : name ≠ []) (hapart : ¬"-sdk ".toList <:+: name ++ [d])
    (hoption : ∀ e ∈ option, blank e = false) (hline : '\n' ∉ printed c name d option) :
    (∀ platform v, sdkVersionStr platform (printed c name d option) = some v ↔
      v ≠ [] ∧ option = platform ++ v) ∧
    ∀ platform numbers, numbers ≠ [] →
      option = platform ++ ['.'].intercalate (numbers.map (Nat.toDigits 10)) →
      (sdkVersionStr platform (printed c name d option)).map asVersion = some numbers := by
  have hoccurs : ∀ platform v, Occurs platform (printed c name d option) v ↔
      v ≠ [] ∧ option = platform ++ v := fun _ _ => occurs_printed_iff hc hd hname hapart hoption
  have hstr : ∀ platform v, sdkVersionStr platform (printed c name d option) = some v ↔
      v ≠ [] ∧ option = platform ++ v := by
    intro platform v
    rw [sdkVersionStr_eq_some_iff hline, Lists, hoccurs]
    refine and_iff_left_of_imp fun h w hw => ?_
    rw [List.append_cancel_left (h.2.symm.trans ((hoccurs platform w).mp hw).2)]
  refine ⟨hstr, fun platform numbers hne heq => ?_⟩
  have hversion : ['.'].intercalate (numbers.map (Nat.toDigits 10)) ≠ [] := by
    intro h
    exact hne (by rw [← asVersion_intercalate numbers, h]; rfl)
  rw [(hstr platform _).mpr ⟨hversion, heq⟩, Option.map_some, asVersion_intercalate]

theorem sdkVersionStr_printed_two :
    (∀ platform v, sdkVersionStr platform
        (printed '\t' "macOS 10.13".toList '\t' "macosx10.13".toList) = some v ↔
      v ≠ [] ∧ "macosx10.13".toList = platform ++ v) ∧
    ∀ platform numbers, numbers ≠ [] →
      "macosx10.13".toList = platform ++ ['.'].intercalate (numbers.map (Nat.toDigits 10)) →
      (sdkVersionStr platform
        (printed '\t' "macOS 10.13".toList '\t' "macosx10.13".toList)).map asVersion =
          some numbers :=
  sdkVersionStr_printed rfl rfl (List.cons_ne_nil _ _)
    (fun h => absurd (h.subset (by simp : '-' ∈ "-sdk ".toList)) (by simp))
    (by simp [blank]) (by simp [printed])

section Sorting

variable {α : Type} {r : α → α → Prop} [DecidableRel r]

/-- What a stable sort has in front is the first of those that may be in front. -/
theorem insertionSort_cases (htotal : ∀ a b, r a b ∨ r b a)
    (htrans : ∀ a b c, r a b → r b c → r a c) (l : List α) :
    l = [] ∧ l.insertionSort r = [] ∨
      ∃ front a back rest, l = front ++ a :: back ∧ l.insertionSort r = a :: rest ∧
        (∀ b ∈ front, ¬r b a) ∧ ∀ b ∈ back, r a b := by
  induction l with
  | nil => exact .inl ⟨rfl, rfl⟩
  | cons c l ih =>
    right
    rcases ih with ⟨rfl, hsort⟩ | ⟨front, a, back, rest, rfl, hsort, hfront, hback⟩
    · exact ⟨[], c, [], [], rfl, rfl, nofun, nofun⟩
    · rw [List.insertionSort_cons, hsort]
      by_cases hc : r c a
      · refine ⟨[], c, front ++ a :: back, a :: rest, rfl,
          List.orderedInsert_cons_of_le r rest hc, nofun, ?_⟩
        intro b hb
        rcases List.mem_append.mp hb with hb | hb
        · exact htrans c a b hc ((htotal a b).resolve_right (hfront b hb))
        · rcases List.mem_cons.mp hb with rfl | hb
          · exact hc
          · exact htrans c a b hc (hback b hb)
      · exact ⟨c :: front, a, back, _, rfl, List.orderedInsert_of_not_le r rest hc,
          List.forall_mem_cons.mpr ⟨hc, hfront⟩, hback⟩

end Sorting

variable {minimum output : Text}

/-- The line lists an SDK for the platform that is no older than the minimum. -/
def Candidate (platform minimum line v : Text) : Prop :=
  Lists platform line v ∧ ¬asVersion v < asVersion minimum

theorem candidate_iff (h : line ∈ splitlines output) :
    (sdkVersionStr platform line).filter (fun v => ¬asVersion v < asVersion minimum) = some v ↔
      Candidate platform minimum line v := by
  rw [Option.filter_eq_some_iff, sdkVersionStr_eq_some_iff (notMem_of_mem_splitlines h),
    decide_eq_true_iff]
  rfl

/-- The version that is sorted to the front is the oldest one, and of equal ones the first. -/
theorem insertionSort_sdkVersionStrs (platform minimum output : Text) :
    ((sdkVersionStrs platform minimum output).insertionSort
        (fun v w => ¬asVersion w < asVersion v) = [] ∧
      ∀ line ∈ splitlines output, ∀ v, ¬Candidate platform minimum line v) ∨
    ∃ front line back v rest, splitlines output = front ++ line :: back ∧
      (sdkVersionStrs platform minimum output).insertionSort
        (fun v w => ¬asVersion w < asVersion v) = v :: rest ∧
      Candidate platform minimum line v ∧
      (∀ other ∈ front, ∀ w, Candidate platform minimum other w → asVersion v < asVersion w) ∧
      ∀ other ∈ back, ∀ w, Candidate platform minimum other w → ¬asVersion w < asVersion v := by
  have htotal : ∀ v w : Text, ¬asVersion w < asVersion v ∨ ¬asVersion v < asVersion w := by
    intro v w
    rw [← not_and_or]
    exact fun h => List.lt_asymm h.1 h.2
  have htrans : ∀ u v w : Text, ¬asVersion v < asVersion u → ¬asVersion w < asVersion v →
      ¬asVersion w < asVersion u := by
    intro u v w huv hvw
    exact List.not_lt.mpr (List.le_trans (List.not_lt.mp huv) (List.not_lt.mp hvw))
  have hmem : ∀ line ∈ splitlines output, ∀ v, Candidate platform minimum line v →
      (sdkVersionStr platform line).filter (fun v => ¬asVersion v < asVersion minimum) = some v :=
    fun line hline v h => (candidate_iff hline).mpr h
  rcases insertionSort_cases htotal htrans (sdkVersionStrs platform minimum output) with
    ⟨hnil, hsort⟩ | ⟨front, v, back, rest, hsplit, hsort, hfront, hback⟩
  · refine .inl ⟨hsort, fun line hline v h => ?_⟩
    rw [sdkVersionStrs, List.filter_filterMap, List.filterMap_eq_nil_iff] at hnil
    cases (hnil line hline).symm.trans (hmem line hline v h)
  · right
    rw [sdkVersionStrs, List.filter_filterMap, List.filterMap_eq_append_iff] at hsplit
    obtain ⟨lines, lines', hlines, rfl, hsplit⟩ := hsplit
    obtain ⟨skipped, line, after, rfl, hskipped, hline, rfl⟩ := List.filterMap_eq_cons_iff.mp hsplit
    have hin : ∀ other, other ∈ lines ++ (skipped ++ line :: after) → other ∈ splitlines output :=
      fun other h => hlines ▸ h
    refine ⟨lines ++ skipped, line, after, v, rest, by rw [hlines, List.append_assoc], hsort,
      (candidate_iff (hin line (by simp))).mp hline, ?_, ?_⟩
    · intro other hother w hw
      have hfound := hmem other (hin other (by simp only [List.mem_append] at hother ⊢; tauto)) w hw
      rcases List.mem_append.mp hother with hother | hother
      · exact not_not.mp (hfront w (List.mem_filterMap.mpr ⟨other, hother, hfound⟩))
      · cases (hskipped other hother).symm.trans hfound
    · intro other hother w hw
      have hfound := hmem other (hin other (by simp [hother])) w hw
      exact hback w (List.mem_filterMap.mpr ⟨other, hother, hfound⟩)

/-- A version that is old enough passes the checks, where nothing else is asked for. -/
theorem checkAndPrint_minimum {parsed : Arguments} {version : List ℕ} (path : Text)
    (hexact : parsed.exact = none) (hminimum : parsed.minimum = some minimum)
    (h : ¬version < asVersion minimum) :
    checkAndPrint parsed version path =
      .returned 0 (strTuple version ++ '\n' :: rstrip (· = '/') path ++ ['\n']) := by
  rw [checkAndPrint, hexact, hminimum]
  exact if_neg (by simpa using h)

/-- With a minimum and nothing else to choose by, the oldest of the SDKs listed that are old
enough is looked up, and the first of these: there is no error where there is one, unless `xcrun`
fails, and then its version passes the checks of `main`. -/
theorem main_minimum (tools : Option Text → Tools) (developerDir : Option Text)
    (parsed : Arguments) (t : Tools) (ht : tools (parsed.developerDir.or developerDir) = t)
    (hpath : parsed.path = none) (hexact : parsed.exact = none)
    (hminimum : parsed.minimum = some minimum)
    (hselect : parsed.developerDir.or developerDir = none → t.xcodeSelect = 0)
    (hbuild : t.xcodebuild.1 = 0) :
    (main tools developerDir parsed = .raised (.didNotMeetCriteria
          [("minimum", minimum), ("platform", parsed.platform)]) ∧
        ∀ line ∈ splitlines t.xcodebuild.2, ∀ v, ¬Candidate parsed.platform minimum line v) ∨
      ∃ front line back v, splitlines t.xcodebuild.2 = front ++ line :: back ∧
        Candidate parsed.platform minimum line v ∧
        (∀ other ∈ front, ∀ w, Candidate parsed.platform minimum other w →
          asVersion v < asVersion w) ∧
        (∀ other ∈ back, ∀ w, Candidate parsed.platform minimum other w →
          ¬asVersion w < asVersion v) ∧
        main tools developerDir parsed =
          (t.xcrun ["--sdk".toList, parsed.platform ++ v, "--show-sdk-path".toList]).elim
            (.raised .calledProcessError) fun path => .returned 0
              (strTuple (asVersion v) ++ '\n' :: rstrip (· = '/') (rstrip isSpace path) ++
                ['\n']) := by
  have hmain : main tools developerDir parsed =
      match findPlatformSDKWithMinimumVersion t parsed.platform minimum with
      | .error error => .raised error
      | .ok (version, path) => checkAndPrint parsed version path := by
    rw [main, ht, if_neg fun h => h.2 (hselect h.1), lookUp, hpath, hexact, hminimum]
  rw [hmain, findPlatformSDKWithMinimumVersion, if_pos hbuild]
  rcases insertionSort_sdkVersionStrs parsed.platform minimum t.xcodebuild.2 with
    ⟨hsort, hnone⟩ | ⟨front, line, back, v, rest, hlines, hsort, hv, hfront, hback⟩
  · rw [hsort]
    exact .inl ⟨rfl, hnone⟩
  · rw [hsort]
    refine .inr ⟨front, line, back, v, hlines, hv, hfront, hback, ?_⟩
    have hpath : sdkPath t (parsed.platform ++ v) =
        match t.xcrun ["--sdk".toList, parsed.platform ++ v, "--show-sdk-path".toList] with
        | none => .error .calledProcessError
        | some output => .ok (rstrip isSpace output) := rfl
    dsimp only
    rw [hpath]
    cases t.xcrun ["--sdk".toList, parsed.platform ++ v, "--show-sdk-path".toList] with
    | none => rfl
    | some path => exact checkAndPrint_minimum (rstrip isSpace path) hexact hminimum hv.2

/-- Tools that know three SDKs. -/
def threeSdks : Tools where
  xcodeSelect := 0
  xcodebuild := (0, "macOS SDKs:\n\tmacOS 10.9 \t-sdk macosx10.9\n".toList ++
    "\tmacOS 10.13 \t-sdk macosx10.13\n\tmacOS 10.12 \t-sdk macosx10.12\n".toList)
  xcrun args := some ("/".toList ++ args.getD 1 [] ++ ".sdk/\n".toList)
  realpath path := path

def atLeast (minimum : String) : Arguments :=
  ⟨none, none, some minimum.toList, none, "macosx".toList⟩

/-- The versions are compared as numbers. -/
example : main (fun _ => threeSdks) none (atLeast "10.10") =
    .returned 0 "(10, 12)\n/macosx10.12.sdk\n".toList := by
  decide

theorem main_minimum_two :
    (main (fun _ => threeSdks) none (atLeast "10.10") = .raised (.didNotMeetCriteria
          [("minimum", some "10.10".toList), ("platform", some "macosx".toList)]) ∧
        ∀ line ∈ splitlines threeSdks.xcodebuild.2, ∀ v,
          ¬Candidate "macosx".toList "10.10".toList line v) ∨
      ∃ front line back v, splitlines threeSdks.xcodebuild.2 = front ++ line :: back ∧
        Candidate "macosx".toList "10.10".toList line v ∧
        (∀ other ∈ front, ∀ w, Candidate "macosx".toList "10.10".toList other w →
          asVersion v < asVersion w) ∧
        (∀ other ∈ back, ∀ w, Candidate "macosx".toList "10.10".toList other w →
          ¬asVersion w < asVersion v) ∧
        main (fun _ => threeSdks) none (atLeast "10.10") =
          (threeSdks.xcrun ["--sdk".toList, "macosx".toList ++ v, "--show-sdk-path".toList]).elim
            (.raised .calledProcessError) fun path => .returned 0
              (strTuple (asVersion v) ++ '\n' :: rstrip (· = '/') (rstrip isSpace path) ++
                ['\n']) :=
  main_minimum (fun _ => threeSdks) none (atLeast "10.10") threeSdks rfl rfl rfl rfl (fun _ => rfl)
    rfl

end MiniChromium.MacSdk
