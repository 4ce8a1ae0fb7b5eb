import Mathlib.Data.List.Nodup

/-!
# Dictionaries that keep the order of insertion

A dictionary is a list of entries with distinct keys. A key that is assigned again keeps its
place, and a new key goes to the end; look-up is that of lists.
-/
namespace MiniChromium.OrderedDict

variable {κ β : Type*} {entries : List (κ × β)} {key key' : κ} {value : β}

/-- The keys of the entries, in order. -/
def keys (entries : List (κ × β)) : List κ := entries.map Prod.fst

@[simp] theorem keys_cons (entry : κ × β) (rest : List (κ × β)) :
    keys (entry :: rest) = entry.1 :: keys rest := rfl

theorem mem_keys_of_mem (h : (key, value) ∈ entries) : key ∈ keys entries :=
  List.mem_map_of_mem h

variable [DecidableEq κ]

/-- The entry of the key is replaced, or is a new one at the end. -/
def set (entries : List (κ × β)) (key : κ) (value : β) : List (κ × β) :=
  match entries with
  | [] => [(key, value)]
  | entry :: rest =>
    if entry.1 = key then (key, value) :: rest else entry :: set rest key value

/-- A key is there exactly where its look-up finds something. -/
theorem mem_keys_iff : key ∈ keys entries ↔ entries.lookup key ≠ none := by
  rw [ne_eq, List.lookup_eq_none_iff]
  simp [keys]

theorem mem_of_lookup (h : entries.lookup key = some value) : (key, value) ∈ entries := by
  obtain ⟨front, back, rfl, -⟩ := List.lookup_eq_some_iff.mp h
  exact List.mem_append_right _ List.mem_cons_self

/-- Where the keys are distinct, every entry is the one that its key finds. -/
theorem lookup_of_mem (hnodup : (keys entries).Nodup) (h : (key, value) ∈ entries) :
    entries.lookup key = some value := by
  induction entries with
  | nil => cases h
  | cons entry rest ih =>
    rw [keys_cons, List.nodup_cons] at hnodup
    rcases List.mem_cons.mp h with rfl | h
    · exact List.lookup_cons_self
    · have hne : ¬ key = entry.1 := by
        rintro rfl
        exact hnodup.1 (mem_keys_of_mem h)
      rw [List.lookup_cons, beq_eq_false_iff_ne.mpr hne]
      exact ih hnodup.2 h

@[simp] theorem lookup_set_self (entries : List (κ × β)) (key : κ) (value : β) :
    (set entries key value).lookup key = some value := by
  induction entries with
  | nil => exact List.lookup_cons_self
  | cons entry rest ih =>
    rw [set]
    split_ifs with h
    · exact List.lookup_cons_self
    · rw [List.lookup_cons, beq_eq_false_iff_ne.mpr (Ne.symm h)]
      exact ih

theorem lookup_set_of_ne (h : key' ≠ key) (entries : List (κ × β)) (value : β) :
    (set entries key value).lookup key' = entries.lookup key' := by
  induction entries with
  | nil => rw [set, List.lookup_cons, beq_eq_false_iff_ne.mpr h]
  | cons entry rest ih =>
    rw [set]
    split_ifs with hentry
    · rw [List.lookup_cons, List.lookup_cons, hentry, beq_eq_false_iff_ne.mpr h]
    · rw [List.lookup_cons, List.lookup_cons, ih]

/-- An assignment keeps the keys distinct. -/
theorem nodup_keys_set (hnodup : (keys entries).Nodup) (key : κ) (value : β) :
    (keys (set entries key value)).Nodup := by
  induction entries with
  | nil => exact List.nodup_singleton _
  | cons entry rest ih =>
    rw [keys_cons, List.nodup_cons] at hnodup
    rw [set]
    split_ifs with hentry
    · rw [keys_cons, List.nodup_cons]
      exact ⟨hentry ▸ hnodup.1, hnodup.2⟩
    · rw [keys_cons, List.nodup_cons]
      refine ⟨fun hmem => ?_, ih hnodup.2⟩
      rw [mem_keys_iff, lookup_set_of_ne hentry] at hmem
      exact hnodup.1 (mem_keys_iff.mpr hmem)

/-- A new key goes to the end. -/
theorem set_of_notMem (h : key ∉ keys entries) (value : β) :
    set entries key value = entries ++ [(key, value)] := by
  induction entries with
  | nil => rfl
  | cons entry rest ih =>
    rw [keys_cons, List.mem_cons, not_or] at h
    rw [set, if_neg (Ne.symm h.1), ih h.2, List.cons_append]

/-- Entries with distinct keys, assigned one after the other, stay as they are. -/
theorem foldl_set {entries' : List (κ × β)} (h : (keys (entries ++ entries')).Nodup) :
    entries'.foldl (fun result entry => set result entry.1 entry.2) entries =
      entries ++ entries' := by
  induction entries' generalizing entries with
  | nil => exact (List.append_nil entries).symm
  | cons entry rest ih =>
    have hentry : entry.1 ∉ keys entries := by
      rw [keys, List.map_append, List.map_cons, List.nodup_append] at h
      exact fun hmem => h.2.2 _ hmem _ List.mem_cons_self rfl
    rw [List.foldl_cons, set_of_notMem hentry, ih, List.append_assoc, List.singleton_append]
    rwa [List.append_assoc]

theorem nodup_keys_foldl_set (hnodup : (keys entries).Nodup) (entries' : List (κ × β)) :
    (keys (entries'.foldl (fun result entry => set result entry.1 entry.2) entries)).Nodup := by
  induction entries' generalizing entries with
  | nil => exact hnodup
  | cons entry rest ih => exact ih (nodup_keys_set hnodup entry.1 entry.2)

/-- After assignments in turn a key has the value of the last one. -/
theorem lookup_foldl_set (entries entries' : List (κ × β)) (key : κ) :
    (entries'.foldl (fun result entry => set result entry.1 entry.2) entries).lookup key =
      (entries'.reverse.lookup key).or (entries.lookup key) := by
  induction entries' generalizing entries with
  | nil => rfl
  | cons entry rest ih =>
    rw [List.foldl_cons, ih, List.reverse_cons, List.lookup_append, Option.or_assoc]
    congr 1
    by_cases h : key = entry.1
    · rw [h, lookup_set_self, List.lookup_cons_self, Option.some_or]
    · rw [lookup_set_of_ne h, List.lookup_cons, beq_eq_false_iff_ne.mpr h, List.lookup_nil,
        Option.none_or]

theorem keys_set (entries : List (κ × β)) (key : κ) (value : β) :
    keys (set entries key value) =
      if key ∈ keys entries then keys entries else keys entries ++ [key] := by
  induction entries with
  | nil => rfl
  | cons entry rest ih =>
    rw [set]
    by_cases h : entry.1 = key
    · rw [if_pos h, keys_cons, keys_cons, h, if_pos List.mem_cons_self]
    · have hmem : key ∈ keys (entry :: rest) ↔ key ∈ keys rest := by
        rw [keys_cons, List.mem_cons, or_iff_right (Ne.symm h)]
      rw [if_neg h, keys_cons, ih]
      split_ifs with hrest hcons hcons
      · rfl
      · exact absurd (hmem.mpr hrest) hcons
      · exact absurd (hmem.mp hcons) hrest
      · rfl

/-- Dictionaries with the same keys in the same order and the same look-ups are equal. -/
theorem eq_of_lookup {entries' : List (κ × β)} (hnodup : (keys entries).Nodup)
    (hkeys : keys entries = keys entries')
    (h : ∀ key, entries.lookup key = entries'.lookup key) : entries = entries' := by
  induction entries generalizing entries' with
  | nil => exact (List.map_eq_nil_iff.mp hkeys.symm).symm
  | cons entry rest ih =>
    obtain _ | ⟨entry', rest'⟩ := entries'
    · cases hkeys
    obtain ⟨key, value⟩ := entry
    obtain ⟨key', value'⟩ := entry'
    rw [keys_cons, keys_cons, List.cons.injEq] at hkeys
    obtain ⟨rfl, hkeys⟩ := hkeys
    have hvalue : value = value' := by
      have := h key
      rw [List.lookup_cons_self, List.lookup_cons_self] at this
      exact Option.some.inj this
    rw [keys_cons, List.nodup_cons] at hnodup
    have hrest : rest = rest' := by
      refine ih hnodup.2 hkeys fun key' => ?_
      by_cases hne : key' = key
      · have hnone := mt mem_keys_iff.mpr hnodup.1
        have hnone' := mt mem_keys_iff.mpr (hkeys ▸ hnodup.1)
        rw [hne, not_not.mp hnone, not_not.mp hnone']
      · have hlookup := h key'
        rwa [List.lookup_cons, List.lookup_cons, beq_eq_false_iff_ne.mpr hne] at hlookup
    rw [hvalue, hrest]

/-- The keys of both, those that are new in the second after those of the first. -/
def joinKeys (keys1 keys2 : List κ) : List κ := keys1 ++ keys2.filter (· ∉ keys1)

@[simp] theorem nil_joinKeys (keys2 : List κ) : joinKeys [] keys2 = keys2 := by
  simp [joinKeys]

theorem joinKeys_cons_of_mem {keys1 : List κ} (h : key ∈ keys1) (rest : List κ) :
    joinKeys keys1 (key :: rest) = joinKeys keys1 rest := by
  simp [joinKeys, h]

theorem joinKeys_cons_of_notMem {keys1 rest : List κ} (h : key ∉ keys1) (hrest : key ∉ rest) :
    joinKeys keys1 (key :: rest) = joinKeys (keys1 ++ [key]) rest := by
  have hfilter : rest.filter (· ∉ keys1) = rest.filter (· ∉ keys1 ++ [key]) := by
    refine List.filter_congr fun key' hkey' => ?_
    have hne : key' ≠ key := ne_of_mem_of_not_mem hkey' hrest
    simp [hne]
  rw [joinKeys, joinKeys, List.filter_cons_of_pos (by simpa using h), hfilter, List.append_assoc,
    List.singleton_append]

theorem joinKeys_assoc (keys1 keys2 keys3 : List κ) :
    joinKeys (joinKeys keys1 keys2) keys3 = joinKeys keys1 (joinKeys keys2 keys3) := by
  have hfilter : keys3.filter (· ∉ keys1 ++ keys2.filter (· ∉ keys1)) =
      (keys3.filter (· ∉ keys2)).filter (· ∉ keys1) := by
    rw [List.filter_filter]
    refine List.filter_congr fun key _ => ?_
    by_cases h : key ∈ keys1
    · simp [h]
    · simp [h]
  rw [joinKeys, joinKeys, hfilter, joinKeys, joinKeys, List.filter_append, List.append_assoc]

end MiniChromium.OrderedDict
