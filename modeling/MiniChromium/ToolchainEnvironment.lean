import Mathlib.Data.List.TakeWhile
import Mathlib.Order.Basic
import Mathlib.Tactic.Common
import MiniChromium.Delimited
import MiniChromium.WinHelper

/-!
# The environment of the toolchain

For each architecture a script sets the environment of the compiler, and `set` prints it. The
variables that matter are picked out of what is printed, whatever the case of their names, and
are saved in a file, from which the wrappers of the tools read them.
-/
namespace MiniChromium.WinHelper

open Delimited OrderedDict

section Code

/-- `splitlines`, where a line that has begun is given. -/
def splitlinesFrom (line : Text) : Text → List Text
  | [] => if line = [] then [] else [line]
  | '\r' :: '\n' :: rest => line :: splitlinesFrom [] rest
  | c :: rest =>
    if c = '\n' ∨ c = '\r' then line :: splitlinesFrom [] rest
    else splitlinesFrom (line ++ [c]) rest

def splitlines (text : Text) : List Text := splitlinesFrom [] text

/-- `envvars_to_save`. -/
def envvarsToSave : List Text :=
  ["include".toList, "lib".toList, "libpath".toList, "path".toList, "pathext".toList,
    "systemroot".toList, "temp".toList, "tmp".toList]

def lower (text : Text) : Text := text.map Char.toLower

def upper (text : Text) : Text := text.map Char.toUpper

/-- The inner loop of `_ExtractImportantEnvironment`; there is no result where it raises. -/
def saveLine (env : List (Text × Text)) (line : Text) : Option (List (Text × Text)) :=
  match envvarsToSave.find? fun envvar => envvar ++ ['='] <+: lower line with
  | none => some env
  | some _ =>
    match splitOnce line with
    | [var, setting] => some (set env (upper var) setting)
    | _ => none

def required : List Text := ["SYSTEMROOT".toList, "TEMP".toList, "TMP".toList]

/-- What `_GenerateEnvironmentFiles` ends with where it raises. -/
inductive EnvironmentError
  | valueError
  | notSet (required : Text)
  | failed (returncode : ℤ)
  deriving DecidableEq

/-- `_ExtractImportantEnvironment`. -/
def extractImportantEnvironment (outputOfSet : Text) :
    Except EnvironmentError (List (Text × Text)) :=
  match (splitlines outputOfSet).foldlM saveLine [] with
  | none => .error .valueError
  | some env =>
    match required.find? (· ∉ keys env) with
    | some required => .error (.notSet required)
    | none => .ok env

def archs : List Text := ["x86".toList, "amd64".toList, "arm64".toList]

/-- `script_arch_name`. -/
def scriptArchName (scriptPath arch : Text) : Text :=
  if arch = "arm64".toList then "x86_arm64".toList
  else if "SetEnv.cmd".toList <:+ scriptPath ∧ arch = "amd64".toList then "/x64".toList
  else arch

def basename (arch : Text) : Text := "environment.".toList ++ arch

/-- The loop of `_GenerateEnvironmentFiles`, with the files of the output directory and what
the script returns and prints for its argument. -/
def generateFor (run : Text → ℤ × Text) (scriptPath : Text) :
    List Text → (Text → Text) → (Text → Text) × Except EnvironmentError (List Text)
  | [], files => (files, .ok [])
  | arch :: archs, files =>
    let popen := run (scriptArchName scriptPath arch)
    if popen.1 ≠ 0 then (files, .error (.failed popen.1))
    else
      match extractImportantEnvironment popen.2 with
      | .error error => (files, .error error)
      | .ok env =>
        let written := Function.update files (basename arch) (formatAsEnvironmentBlock env)
        let rest := generateFor run scriptPath archs written
        (rest.1, rest.2.map (basename arch :: ·))

/-- `_GenerateEnvironmentFiles`. -/
def generateEnvironmentFiles (run : Text → ℤ × Text) (scriptPath : Text) (files : Text → Text) :
    (Text → Text) × Except EnvironmentError (List Text) :=
  generateFor run scriptPath archs files

end Code

variable {c : Char} {text line var setting : Text} {env : List (Text × Text)}

theorem toLower_of_le (h : 128 ≤ c.toNat) : c.toLower = c := by
  have hletter : ¬(c.val ≥ 'A'.val ∧ c.val ≤ 'Z'.val) := by
    intro hle
    have hz : c.toNat ≤ 90 := hle.2
    omega
  exact dif_neg hletter

/-- What holds of the characters of ASCII, one after the other. -/
theorem ascii_induction (P : Char → Prop) (h : ∀ n < 128, P (Char.ofNat n)) (hc : c.toNat < 128) :
    P c := by
  have hn := h c.toNat hc
  rwa [Char.ofNat_toNat] at hn

theorem toUpper_toLower (c : Char) : c.toLower.toUpper = c.toUpper := by
  by_cases hc : c.toNat < 128
  · exact ascii_induction (fun c => c.toLower.toUpper = c.toUpper) (by decide) hc
  · rw [toLower_of_le (not_lt.mp hc)]

theorem toLower_eq_iff : c.toLower = '=' ↔ c = '=' := by
  by_cases hc : c.toNat < 128
  · exact ascii_induction (fun c => c.toLower = '=' ↔ c = '=') (by decide) hc
  · rw [toLower_of_le (not_lt.mp hc)]

theorem upper_lower (text : Text) : upper (lower text) = upper text := by
  rw [upper, lower, List.map_map]
  exact List.map_congr_left fun c _ => toUpper_toLower c

theorem mem_lower_iff : '=' ∈ lower text ↔ '=' ∈ text := by
  simp [lower, toLower_eq_iff]

/-- The variable that a line sets, if it is to be saved. -/
def settingOf (line : Text) : Option (Text × Text) :=
  match splitOnce line with
  | [var, setting] => if lower var ∈ envvarsToSave then some (upper var, setting) else none
  | _ => none

theorem envvar_notMem : ∀ envvar ∈ envvarsToSave, '=' ∉ envvar := by decide

theorem splitOnce_of_notMem (h : '=' ∉ line) : splitOnce line = [line] := by
  have hdrop : line.dropWhile (· ≠ '=') = [] := by
    rw [List.dropWhile_eq_nil_iff]
    exact fun c hc => decide_eq_true (ne_of_mem_of_not_mem hc h)
  rw [splitOnce, hdrop]

theorem eq_notMem_or_item (line : Text) :
    '=' ∉ line ∨ ∃ var setting, line = item (var, setting) ∧ '=' ∉ var := by
  by_cases h : '=' ∈ line
  · obtain ⟨var, setting, hline, hvar⟩ := List.eq_append_cons_of_mem h
    exact .inr ⟨var, setting, hline, hvar⟩
  · exact .inl h

/-- The name of a variable is looked for up to the equals sign. -/
theorem front_item_iff {envvar : Text} (hmem : envvar ∈ envvarsToSave) (h : '=' ∉ var) :
    envvar ++ ['='] <+: lower (item (var, setting)) ↔ envvar = lower var := by
  have hlower : lower (item (var, setting)) = lower var ++ '=' :: lower setting := by
    simp [lower, item]
  rw [hlower]
  exact delimited_prefix_iff (envvar_notMem envvar hmem) (mt mem_lower_iff.mp h) _

theorem saveLine_eq (env : List (Text × Text)) (line : Text) :
    saveLine env line =
      some ((settingOf line).elim env fun entry => set env entry.1 entry.2) := by
  rw [saveLine]
  cases hfind : envvarsToSave.find? fun envvar => envvar ++ ['='] <+: lower line with
  | none =>
    have hall : ∀ envvar ∈ envvarsToSave, ¬envvar ++ ['='] <+: lower line := by
      simpa using List.find?_eq_none.mp hfind
    have hnone : settingOf line = none := by
      rcases eq_notMem_or_item line with hline | ⟨var, setting, rfl, hvar⟩
      · rw [settingOf, splitOnce_of_notMem hline]
      · rw [settingOf, splitOnce_item hvar]
        exact if_neg fun hmem => hall _ hmem ((front_item_iff hmem hvar).mpr rfl)
    rw [hnone]
    rfl
  | some envvar =>
    have hmem : envvar ∈ envvarsToSave := List.mem_of_find?_eq_some hfind
    have hfront : envvar ++ ['='] <+: lower line := by simpa using List.find?_some hfind
    have hline : '=' ∈ line := mem_lower_iff.mp (hfront.subset (by simp))
    obtain ⟨var, setting, rfl, hvar⟩ := (eq_notMem_or_item line).resolve_left (not_not.mpr hline)
    have hlower : envvar = lower var := (front_item_iff hmem hvar).mp hfront
    rw [settingOf, splitOnce_item hvar]
    dsimp only
    rw [if_pos (hlower ▸ hmem)]
    rfl

/-- The variables to be saved, in the order in which they are printed. -/
def settings (outputOfSet : Text) : List (Text × Text) :=
  (splitlines outputOfSet).filterMap settingOf

theorem foldlM_saveLine (lines : List Text) (env : List (Text × Text)) :
    lines.foldlM saveLine env =
      some ((lines.filterMap settingOf).foldl (fun env entry => set env entry.1 entry.2) env) := by
  induction lines generalizing env with
  | nil => rfl
  | cons line lines ih =>
    rw [List.foldlM_cons, saveLine_eq]
    cases hsetting : settingOf line with
    | none =>
      rw [List.filterMap_cons_none hsetting]
      exact ih env
    | some entry =>
      rw [List.filterMap_cons_some hsetting]
      exact ih _

/-- Every variable has the value that is printed last, and the required ones are there. -/
structure Extracts (outputOfSet : Text) (env : List (Text × Text)) : Prop where
  nodup : (keys env).Nodup
  lookup : ∀ name, env.lookup name = (settings outputOfSet).reverse.lookup name
  mem : ∀ entry ∈ env, entry ∈ settings outputOfSet
  required : ∀ name ∈ required, name ∈ keys env

/-- What is extracted, unless a required variable is not printed. -/
theorem extractImportantEnvironment_cases (text : Text) :
    (∃ env, extractImportantEnvironment text = .ok env ∧ Extracts text env) ∨
      ∃ name ∈ required, extractImportantEnvironment text = .error (.notSet name) ∧
        name ∉ keys (settings text) := by
  have hnil : (keys ([] : List (Text × Text))).Nodup := List.nodup_nil
  have hnodup := nodup_keys_foldl_set hnil (settings text)
  have hlookup := lookup_foldl_set ([] : List (Text × Text)) (settings text)
  simp only [List.lookup_nil, Option.or_none] at hlookup
  rw [extractImportantEnvironment, foldlM_saveLine, ← settings]
  dsimp only
  cases hfind : required.find? (· ∉ keys ((settings text).foldl
      (fun env entry => set env entry.1 entry.2) [])) with
  | some name =>
    have hname : name ∉ keys ((settings text).foldl
        (fun env entry => set env entry.1 entry.2) []) := by
      simpa using List.find?_some hfind
    rw [mem_keys_iff, hlookup, ← mem_keys_iff, keys, List.map_reverse, List.mem_reverse] at hname
    exact .inr ⟨name, List.mem_of_find?_eq_some hfind, rfl, hname⟩
  | none =>
    refine .inl ⟨_, rfl, hnodup, fun name => ?_, fun entry hentry => ?_, ?_⟩
    · convert hlookup name
    · have hentries := lookup_of_mem hnodup hentry
      rw [hlookup] at hentries
      exact List.mem_reverse.mp (mem_of_lookup hentries)
    · simpa using List.find?_eq_none.mp hfind

theorem mem_splitlinesFrom (hline : ∀ c ∈ line, c ≠ '\n' ∧ c ≠ '\r') :
    ∀ found ∈ splitlinesFrom line text, ∀ c ∈ found,
      (c ∈ line ∨ c ∈ text) ∧ c ≠ '\n' ∧ c ≠ '\r' := by
  fun_induction splitlinesFrom line text with
  | case1 => simp
  | case2 line hne => simpa using fun c hc => ⟨hc, hline c hc⟩
  | case3 line rest ih =>
    intro found hfound c hc
    rcases List.mem_cons.mp hfound with rfl | hfound
    · exact ⟨.inl hc, hline c hc⟩
    · obtain ⟨hmem, hbreak⟩ := ih (by simp) found hfound c hc
      have hrest : c ∈ rest := by simpa using hmem
      exact ⟨.inr (by simp [hrest]), hbreak⟩
  | case4 line d rest hcrlf hbreak ih =>
    intro found hfound c hc
    rcases List.mem_cons.mp hfound with rfl | hfound
    · exact ⟨.inl hc, hline c hc⟩
    · obtain ⟨hmem, hbreak⟩ := ih (by simp) found hfound c hc
      have hrest : c ∈ rest := by simpa using hmem
      exact ⟨.inr (by simp [hrest]), hbreak⟩
  | case5 line d rest hcrlf hbreak ih =>
    intro found hfound c hc
    rw [not_or] at hbreak
    have hline' : ∀ c ∈ line ++ [d], c ≠ '\n' ∧ c ≠ '\r' := by
      intro c hc
      rcases List.mem_append.mp hc with hc | hc
      · exact hline c hc
      · rwa [List.mem_singleton.mp hc]
    obtain ⟨hmem, hbreak⟩ := ih hline' found hfound c hc
    simp only [List.mem_append, List.mem_singleton] at hmem
    exact ⟨by rw [List.mem_cons]; tauto, hbreak⟩

/-- The lines have the characters of the text but for the line breaks. -/
theorem mem_splitlines {found : Text} (hfound : found ∈ splitlines text) (hc : c ∈ found) :
    c ∈ text ∧ c ≠ '\n' ∧ c ≠ '\r' := by
  obtain ⟨hmem, hbreak⟩ := mem_splitlinesFrom (by simp) found hfound c hc
  exact ⟨by simpa using hmem, hbreak⟩

/-- The names that are saved. -/
def savedNames : List Text := envvarsToSave.map upper

theorem mem_settings {entry : Text × Text} (h : entry ∈ settings text) :
    entry.1 ∈ savedNames ∧ ∀ c ∈ entry.2, c ∈ text ∧ c ≠ '\n' ∧ c ≠ '\r' := by
  obtain ⟨line, hline, hsetting⟩ := List.mem_filterMap.mp h
  rcases eq_notMem_or_item line with hnone | ⟨var, setting, rfl, hvar⟩
  · rw [settingOf, splitOnce_of_notMem hnone] at hsetting
    cases hsetting
  · rw [settingOf, splitOnce_item hvar] at hsetting
    dsimp only at hsetting
    split_ifs at hsetting with hmem
    cases hsetting
    refine ⟨?_, fun c hc => mem_splitlines hline (by simp [item, hc])⟩
    rw [savedNames, ← upper_lower]
    exact List.mem_map_of_mem hmem

/-- What is written and read back as it is. -/
def IsPortable (c : Char) : Prop := c.toNat < 128 ∧ c ≠ '\r'

instance : DecidablePred IsPortable := fun _ => inferInstanceAs (Decidable (_ ∧ _))

theorem savedNames_portable :
    ∀ name ∈ savedNames, '=' ∉ name ∧ nul ∉ name ∧ ∀ c ∈ name, IsPortable c := by
  have hall : savedNames.all fun name =>
      name.all fun c => c ≠ '=' && c ≠ nul && decide (IsPortable c) := by decide
  intro name hname
  have hchars := List.all_eq_true.mp (List.all_eq_true.mp hall name hname)
  simp only [Bool.and_eq_true, decide_eq_true_eq] at hchars
  exact ⟨fun h => (hchars _ h).1.1 rfl, fun h => (hchars _ h).1.2 rfl, fun c h => (hchars c h).2⟩

theorem portable_block (h : ∀ entry ∈ env, ∀ c ∈ item entry, IsPortable c) :
    ∀ c ∈ formatAsEnvironmentBlock env, IsPortable c := by
  have hnul : IsPortable nul := by decide
  rw [formatAsEnvironmentBlock, foldl_append_items, List.nil_append]
  intro c hc
  rcases List.mem_append.mp hc with hc | hc
  · obtain ⟨entry, hentry, hc⟩ := List.mem_flatMap.mp hc
    rcases List.mem_append.mp hc with hc | hc
    · exact h entry hentry c hc
    · rwa [List.mem_singleton.mp hc]
  · rwa [List.mem_singleton.mp hc]

/-- The items of a block are found again. -/
theorem splitOn_block (hne : env ≠ []) (h : ∀ entry ∈ env, nul ∉ item entry) :
    ((formatAsEnvironmentBlock env).take ((formatAsEnvironmentBlock env).length - 2)).splitOn nul =
      env.map item := by
  have hitems : ∀ text ∈ env.map item, nul ∉ text := by
    intro text htext
    obtain ⟨entry, hentry, rfl⟩ := List.mem_map.mp htext
    exact h entry hentry
  have hnonempty : env.map item ≠ [] := mt List.map_eq_nil_iff.mp hne
  rw [formatAsEnvironmentBlock_eq hne, List.length_append]
  exact (congrArg _ List.take_left).trans (List.splitOn_intercalate nul hitems hnonempty)

/-- What is written in UTF-8 is read as it is, as far as every encoding of the system has it and
the translation of line breaks leaves it alone. -/
def ReadsBack (readBack : Text → Text) : Prop :=
  ∀ text, (∀ c ∈ text, IsPortable c) → readBack text = text

theorem Extracts.getEnvAsDict (h : Extracts text env) (hnul : nul ∉ text)
    (hascii : ∀ c ∈ text, c.toNat < 128) {readBack : Text → Text} (hread : ReadsBack readBack)
    {files : Text → Text} {arch : Text} (hfile : files arch = formatAsEnvironmentBlock env) :
    WinHelper.getEnvAsDict (fun name => readBack (files name)) arch = some env := by
  have hname : ∀ entry ∈ env,
      '=' ∉ entry.1 ∧ nul ∉ entry.1 ∧ ∀ c ∈ entry.1, IsPortable c := fun entry hentry =>
    savedNames_portable _ (mem_settings (h.mem entry hentry)).1
  have hvalue : ∀ entry ∈ env, ∀ c ∈ entry.2, c ∈ text ∧ c ≠ '\n' ∧ c ≠ '\r' :=
    fun entry hentry => (mem_settings (h.mem entry hentry)).2
  have hne : env ≠ [] := by
    rintro rfl
    exact absurd (h.required "TMP".toList (by decide)) (by decide)
  have hportable : ∀ entry ∈ env, ∀ c ∈ item entry, IsPortable c := by
    intro entry hentry c hc
    rw [item, List.mem_append, List.mem_cons] at hc
    rcases hc with hc | rfl | hc
    · exact (hname entry hentry).2.2 c hc
    · decide
    · obtain ⟨hmem, -, hbreak⟩ := hvalue entry hentry c hc
      exact ⟨hascii c hmem, hbreak⟩
  have hnulitem : ∀ entry ∈ env, nul ∉ item entry := fun entry hentry =>
    nul_notMem_item (hname entry hentry).2.1 fun hc => hnul (hvalue entry hentry _ hc).1
  have hpairs : (env.map item).map splitOnce = env.map fun entry => [entry.1, entry.2] := by
    rw [List.map_map]
    exact List.map_congr_left fun entry hentry => splitOnce_item (hname entry hentry).1
  rw [WinHelper.getEnvAsDict, hfile, hread _ (portable_block hportable),
    splitOn_block hne hnulitem, hpairs, dict_pairs h.nodup]

section Generate

/-- The script succeeds for the architecture, and what is extracted is in the file. -/
def Saved (run : Text → ℤ × Text) (scriptPath : Text) (files : Text → Text) (arch : Text) : Prop :=
  (run (scriptArchName scriptPath arch)).1 = 0 ∧
    ∃ env, Extracts (run (scriptArchName scriptPath arch)).2 env ∧
      files (basename arch) = formatAsEnvironmentBlock env

/-- The script fails for the architecture, or does not set a required variable. -/
def Fails (run : Text → ℤ × Text) (scriptPath arch : Text) (error : EnvironmentError) : Prop :=
  (run (scriptArchName scriptPath arch)).1 ≠ 0 ∧
      error = .failed (run (scriptArchName scriptPath arch)).1 ∨
    (run (scriptArchName scriptPath arch)).1 = 0 ∧
      ∃ name ∈ required, error = .notSet name ∧
        name ∉ keys (settings (run (scriptArchName scriptPath arch)).2)

variable (run : Text → ℤ × Text) (scriptPath : Text)

theorem basename_inj {arch arch' : Text} : basename arch = basename arch' ↔ arch = arch' :=
  List.append_right_inj _

/-- The files of the architectures up to the first one that fails are written, and no others. -/
theorem generateFor_cases {archs : List Text} (hnodup : archs.Nodup) (files : Text → Text) :
    ∃ done, (∀ arch ∈ done, Saved run scriptPath (generateFor run scriptPath archs files).1 arch) ∧
      (∀ name, (∀ arch ∈ done, name ≠ basename arch) →
        (generateFor run scriptPath archs files).1 name = files name) ∧
      (archs = done ∧ (generateFor run scriptPath archs files).2 = .ok (done.map basename) ∨
        ∃ arch rest error, archs = done ++ arch :: rest ∧
          (generateFor run scriptPath archs files).2 = .error error ∧
          Fails run scriptPath arch error) := by
  induction archs generalizing files with
  | nil => exact ⟨[], nofun, fun _ _ => rfl, .inl ⟨rfl, rfl⟩⟩
  | cons arch archs ih =>
    rw [List.nodup_cons] at hnodup
    rw [generateFor]
    dsimp only
    by_cases hcode : (run (scriptArchName scriptPath arch)).1 = 0
    · rw [if_neg (not_not.mpr hcode)]
      rcases extractImportantEnvironment_cases (run (scriptArchName scriptPath arch)).2 with
        ⟨env, hextract, hextracts⟩ | ⟨name, hname, hextract, hnotset⟩
      · rw [hextract]
        dsimp only
        obtain ⟨done, hsaved, hkeep, hend⟩ := ih hnodup.2
          (Function.update files (basename arch) (formatAsEnvironmentBlock env))
        have hdone : arch ∉ done := by
          rcases hend with ⟨rfl, -⟩ | ⟨_, _, _, rfl, -, -⟩
          · exact hnodup.1
          · exact fun hmem => hnodup.1 (List.mem_append_left _ hmem)
        have hfile := hkeep (basename arch) fun other hother heq =>
          hdone (basename_inj.mp heq ▸ hother)
        rw [Function.update_self] at hfile
        refine ⟨arch :: done, List.forall_mem_cons.mpr ⟨⟨hcode, env, hextracts, hfile⟩, hsaved⟩,
          fun name hname => ?_, ?_⟩
        · obtain ⟨hne, hothers⟩ := List.forall_mem_cons.mp hname
          rw [hkeep name hothers, Function.update_of_ne hne]
        · rcases hend with ⟨rfl, hresult⟩ | ⟨failing, rest, error, rfl, hresult, hfails⟩
          · exact .inl ⟨rfl, by rw [hresult]; rfl⟩
          · exact .inr ⟨failing, rest, error, rfl, by rw [hresult]; rfl, hfails⟩
      · rw [hextract]
        exact ⟨[], nofun, fun _ _ => rfl,
          .inr ⟨arch, archs, _, rfl, rfl, .inr ⟨hcode, name, hname, rfl, hnotset⟩⟩⟩
    · rw [if_pos hcode]
      exact ⟨[], nofun, fun _ _ => rfl, .inr ⟨arch, archs, _, rfl, rfl, .inl ⟨hcode, rfl⟩⟩⟩

/-- What `set` prints for a small environment. -/
def printed : Text := "TEMP=t\r\nX=1\r\nPath=a;b=c\r\nSystemRoot=w\r\nTMP=\r\n".toList

/-- The dictionary of that environment. -/
example : extractImportantEnvironment printed =
    .ok [("TEMP".toList, "t".toList), ("PATH".toList, "a;b=c".toList),
      ("SYSTEMROOT".toList, "w".toList), ("TMP".toList, [])] := by
  decide

end Generate

end MiniChromium.WinHelper
