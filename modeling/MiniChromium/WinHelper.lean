import MiniChromium.OrderedDict

/-!
# The saved environment

An environment block is a list of key=value items, each with a NUL behind it, and one more
NUL. What reads it back drops the last two characters, splits at the NULs, and splits every
item at its first equals sign.
-/
namespace MiniChromium.WinHelper

open OrderedDict

abbrev Text := List Char

section Code

def nul : Char := '\x00'

/-- `_FormatAsEnvironmentBlock`. -/
def formatAsEnvironmentBlock (envvarDict : List (Text × Text)) : Text :=
  envvarDict.foldl (fun block item => block ++ (item.1 ++ ['='] ++ item.2 ++ [nul])) [] ++ [nul]

/-- `item.split('=', 1)`. -/
def splitOnce (item : Text) : List Text :=
  match item.dropWhile (· ≠ '=') with
  | [] => [item]
  | _ :: value => [item.takeWhile (· ≠ '='), value]

/-- `dict(kvs)`, which raises for what is no pair. -/
def dict (kvs : List (List Text)) : Option (List (Text × Text)) :=
  kvs.foldlM (fun entries kv =>
    match kv with
    | [key, value] => some (set entries key value)
    | _ => none) []

/-- `_GetEnvAsDict`, with what is read from a file. -/
def getEnvAsDict (readFile : Text → Text) (arch : Text) : Option (List (Text × Text)) :=
  let contents := readFile arch
  let pairs := (contents.take (contents.length - 2)).splitOn nul
  dict (pairs.map splitOnce)

end Code

/-- A dictionary that can be an environment. -/
structure Environment where
  entries : List (Text × Text)
  distinct : (keys entries).Nodup
  ne_nil : entries ≠ []
  key_eq : ∀ entry ∈ entries, '=' ∉ entry.1
  key_nul : ∀ entry ∈ entries, nul ∉ entry.1
  value_nul : ∀ entry ∈ entries, nul ∉ entry.2

/-- The item of a block for an entry. -/
def item (entry : Text × Text) : Text := entry.1 ++ '=' :: entry.2

section RoundTrip

variable {entries : List (Text × Text)} {entry : Text × Text}

theorem foldl_append_items (block : Text) (entries : List (Text × Text)) :
    entries.foldl (fun block item => block ++ (item.1 ++ ['='] ++ item.2 ++ [nul])) block =
      block ++ entries.flatMap fun entry => item entry ++ [nul] := by
  induction entries generalizing block with
  | nil => simp
  | cons entry rest ih =>
    have hitem : entry.1 ++ ['='] ++ entry.2 ++ [nul] = item entry ++ [nul] := by simp [item]
    rw [List.foldl_cons, ih, List.flatMap_cons, hitem, List.append_assoc]

/-- Terminators are separators with one more at the end. -/
theorem flatMap_eq_intercalate (h : entries ≠ []) :
    (entries.flatMap fun entry => item entry ++ [nul]) =
      [nul].intercalate (entries.map item) ++ [nul] := by
  induction entries with
  | nil => exact absurd rfl h
  | cons entry rest ih =>
    cases rest with
    | nil => simp
    | cons next rest =>
      rw [List.flatMap_cons, ih (List.cons_ne_nil next rest), List.map_cons, List.map_cons,
        List.map_cons, List.intercalate_cons_cons]
      simp only [List.append_assoc]

theorem formatAsEnvironmentBlock_eq (h : entries ≠ []) :
    formatAsEnvironmentBlock entries =
      [nul].intercalate (entries.map item) ++ [nul, nul] := by
  rw [formatAsEnvironmentBlock, foldl_append_items, List.nil_append, flatMap_eq_intercalate h,
    List.append_assoc, List.singleton_append]

/-- An item is split where its key ends, whatever is in its value. -/
theorem splitOnce_item (h : '=' ∉ entry.1) : splitOnce (item entry) = [entry.1, entry.2] := by
  have hkey : ∀ c ∈ entry.1, decide (c ≠ '=') = true := by
    intro c hc
    exact decide_eq_true (ne_of_mem_of_not_mem hc h)
  have hdrop : (item entry).dropWhile (· ≠ '=') = '=' :: entry.2 := by
    rw [item, List.dropWhile_append_of_pos hkey]
    rfl
  have htake : (item entry).takeWhile (· ≠ '=') = entry.1 := by
    rw [item, List.takeWhile_append_of_pos hkey]
    exact List.append_nil _
  rw [splitOnce, hdrop, htake]

theorem nul_notMem_item (hkey : nul ∉ entry.1) (hvalue : nul ∉ entry.2) : nul ∉ item entry := by
  rw [item, List.mem_append, List.mem_cons]
  rintro (h | h | h)
  · exact hkey h
  · exact absurd h (by decide)
  · exact hvalue h

/-- Pairs with distinct keys make the dictionary of these pairs. -/
theorem dict_pairs (h : (keys entries).Nodup) :
    dict (entries.map fun entry => [entry.1, entry.2]) = some entries := by
  have hfold : ∀ result : List (Text × Text),
      (entries.map fun entry => [entry.1, entry.2]).foldlM (fun entries kv =>
        match kv with
        | [key, value] => some (set entries key value)
        | _ => none) result =
      some (entries.foldl (fun result entry => set result entry.1 entry.2) result) := by
    induction entries with
    | nil => exact fun result => rfl
    | cons entry rest ih => exact fun result => ih (List.nodup_cons.mp h).2 _
  have hset : entries.foldl (fun result entry => set result entry.1 entry.2) [] = [] ++ entries :=
    foldl_set h
  rw [dict, hfold, hset, List.nil_append]

/-- `_GetEnvAsDict` reads what `_FormatAsEnvironmentBlock` formats. -/
theorem getEnvAsDict_format (env : Environment) {readFile : Text → Text} {arch : Text}
    (hread : readFile arch = formatAsEnvironmentBlock env.entries) :
    getEnvAsDict readFile arch = some env.entries := by
  have hitems : env.entries.map item ≠ [] := mt List.map_eq_nil_iff.mp env.ne_nil
  have hnul : ∀ text ∈ env.entries.map item, nul ∉ text := by
    intro text htext
    obtain ⟨entry, hentry, rfl⟩ := List.mem_map.mp htext
    exact nul_notMem_item (env.key_nul entry hentry) (env.value_nul entry hentry)
  have hcontents : (readFile arch).take ((readFile arch).length - 2) =
      [nul].intercalate (env.entries.map item) := by
    rw [hread, formatAsEnvironmentBlock_eq env.ne_nil, List.length_append]
    exact List.take_left
  have hpairs : (env.entries.map item).map splitOnce =
      env.entries.map fun entry => [entry.1, entry.2] := by
    rw [List.map_map]
    exact List.map_congr_left fun entry hentry => splitOnce_item (env.key_eq entry hentry)
  rw [getEnvAsDict, hcontents, List.splitOn_intercalate nul hnul hitems, hpairs,
    dict_pairs env.distinct]

/-- An empty value, and a value with an equals sign. -/
theorem getEnvAsDict_format_two :
    getEnvAsDict (fun _ => formatAsEnvironmentBlock [(['A'], ['=']), (['B'], [])]) ['x'] =
      some [(['A'], ['=']), (['B'], [])] :=
  getEnvAsDict_format ⟨[(['A'], ['=']), (['B'], [])], by decide, by decide, by decide, by decide,
    by decide⟩ rfl

/-- Nothing is read back from the block of the empty dictionary. -/
example : getEnvAsDict (fun _ => formatAsEnvironmentBlock []) ['x'] = none := by decide

end RoundTrip

end MiniChromium.WinHelper
