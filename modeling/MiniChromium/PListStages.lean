import Mathlib.Data.List.Induction
import MiniChromium.PListUtil

/-!
# Merging property lists in stages

`MergeAction` folds `MergePList` over its files. Where the values at every key path are of one
kind, a merge never raises, and it does not matter where the fold is split.
-/
namespace MiniChromium.PListUtil

open OrderedDict

section Paths

variable {α : Type}

/-- The value at a key path. -/
def valueAt : List String → PList α → Option (PList α)
  | [], value => some value
  | key :: path, .dict entries => (entries.lookup key).bind (valueAt path)
  | _ :: _, _ => none

/-- Both dictionaries, both lists or both scalars. -/
def SameKind : PList α → PList α → Prop
  | .dict _, .dict _ => True
  | .list _, .list _ => True
  | .scalar _, .scalar _ => True
  | _, _ => False

/-- Any two values found at the same key path are of one kind. -/
def Alike (value1 value2 : PList α) : Prop :=
  ∀ path found1 found2, valueAt path value1 = some found1 → valueAt path value2 = some found2 →
    SameKind found1 found2

variable {value1 value2 value3 : PList α} {entries1 entries2 : List (String × PList α)}
  {key : String}

theorem SameKind.refl (value : PList α) : SameKind value value := by
  cases value <;> trivial

theorem SameKind.symm (h : SameKind value1 value2) : SameKind value2 value1 := by
  cases value1 <;> cases value2 <;> trivial

theorem SameKind.trans (h : SameKind value1 value2) (h' : SameKind value2 value3) :
    SameKind value1 value3 := by
  cases value1 <;> cases value2 <;> cases value3 <;> trivial

theorem Alike.sameKind (h : Alike value1 value2) : SameKind value1 value2 := h [] _ _ rfl rfl

theorem Alike.symm (h : Alike value1 value2) : Alike value2 value1 :=
  fun path found2 found1 h2 h1 => (h path found1 found2 h1 h2).symm

theorem valueAt_cons (path : List String) (h : entries1.lookup key = some value1) :
    valueAt (key :: path) (.dict entries1) = valueAt path value1 := by
  rw [valueAt, h, Option.bind_some]

/-- What two alike dictionaries have at a key is alike. -/
theorem Alike.lookup (h : Alike (.dict entries1) (.dict entries2))
    (h1 : entries1.lookup key = some value1) (h2 : entries2.lookup key = some value2) :
    Alike value1 value2 := by
  intro path found1 found2 hfound1 hfound2
  refine h (key :: path) found1 found2 ?_ ?_
  · rw [valueAt_cons path h1, hfound1]
  · rw [valueAt_cons path h2, hfound2]

/-- Nothing is found below the empty dictionary. -/
theorem alike_nil_left (entries : List (String × PList α)) : Alike (.dict []) (.dict entries) := by
  intro path found1 found2 h1 h2
  cases path with
  | nil =>
    obtain rfl := Option.some.inj h1
    obtain rfl := Option.some.inj h2
    trivial
  | cons key path => cases h1

/-- Where the values are alike, a list meets a list only. -/
theorem Alike.not_clash (h : Alike (.dict entries1) (.dict entries2)) :
    ¬ Clash entries1 entries2 := by
  intro hclash
  induction hclash with
  | @here _ _ key value items h1 hlist h2 =>
    have hkind := (h.lookup h1 h2).sameKind
    cases value with
    | dict entries => exact hkind
    | list items1 => exact hlist items1 rfl
    | scalar value => exact hkind
  | deeper h1 h2 _ ih => exact ih (h.lookup h1 h2)

end Paths

section Stages

variable {α : Type} {plist1 plist2 plist3 merged : List (String × PList α)} {key : String}
  {value found : PList α} {path : List String}

/-- What a merge has at a key, from what its two arguments have there. -/
def mergedAt (oldValue : Option (PList α)) : Option (PList α) → Option (PList α)
  | none => oldValue
  | some value => mergedValue oldValue value

theorem mergedAt_none_left (value : Option (PList α)) : mergedAt none value = value := by
  rcases value with _ | (entries | items | value) <;> rfl

theorem lookup_eq_mergedAt (hnodup : (keys plist2).Nodup)
    (h : mergePList plist1 plist2 = some merged) (key : String) :
    merged.lookup key = mergedAt (plist1.lookup key) (plist2.lookup key) := by
  obtain ⟨hassigned, hkept⟩ := lookup_mergePList hnodup h
  cases hkey : plist2.lookup key with
  | none => exact hkept key hkey
  | some value =>
    obtain ⟨value', hvalue', hlookup⟩ := hassigned key value hkey
    rw [hlookup, mergedAt, hvalue']

theorem keys_mergeItems {result items : List (String × PList α)}
    (h : Pending plist1 plist2 result items)
    (hmerged : mergeItems plist1 plist2 result items = some merged) :
    keys merged = joinKeys (keys result) (keys items) := by
  induction items generalizing result with
  | nil =>
    obtain rfl : result = merged := Option.some.inj hmerged
    simp [joinKeys, keys]
  | cons item rest ih =>
    obtain ⟨key, value⟩ := item
    rw [mergeItems_cons h, Option.bind_eq_some_iff] at hmerged
    obtain ⟨value', -, hmerged⟩ := hmerged
    rw [ih (h.assign value') hmerged, keys_set, keys_cons]
    have hrest : key ∉ keys rest := (List.nodup_cons.mp h.nodup).1
    split_ifs with hkey
    · rw [joinKeys_cons_of_mem hkey]
    · rw [joinKeys_cons_of_notMem hkey hrest]

/-- The keys of a merge: those of the first argument, then the new ones of the second. -/
theorem keys_mergePList (hnodup : (keys plist2).Nodup)
    (h : mergePList plist1 plist2 = some merged) :
    keys merged = joinKeys (keys plist1) (keys plist2) :=
  keys_mergeItems (.start hnodup) h

/-- Alike property lists are merged without an error. -/
theorem Alike.mergePList (hplist2 : WellFormed (.dict plist2))
    (h : Alike (.dict plist1) (.dict plist2)) :
    ∃ merged, PListUtil.mergePList plist1 plist2 = some merged := by
  refine Option.ne_none_iff_exists'.mp fun hnone => ?_
  exact h.not_clash (clash_of_mergePList hplist2 hnone)

/-- A list only ever becomes a list. -/
theorem mergedValue_eq_list {oldValue : Option (PList α)} {items2 : List (PList α)}
    (h : mergedValue oldValue (.list items2) = some value) : ∃ items, value = .list items := by
  rcases oldValue with _ | (entries1 | items1 | value1)
  · exact ⟨items2, (Option.some.inj h).symm⟩
  · cases h
  · exact ⟨items1 ++ items2, (Option.some.inj h).symm⟩
  · cases h

/-- What a merge has at a key path is of the kind of what one of its arguments has there. -/
theorem valueAt_mergePList (hplist2 : WellFormed (.dict plist2))
    (h : mergePList plist1 plist2 = some merged)
    (hfound : valueAt path (.dict merged) = some found) :
    (∃ found1, valueAt path (.dict plist1) = some found1 ∧ SameKind found1 found) ∨
    ∃ found2, valueAt path (.dict plist2) = some found2 ∧ SameKind found2 found := by
  induction path generalizing plist1 plist2 merged with
  | nil =>
    obtain rfl := Option.some.inj hfound
    exact .inl ⟨.dict plist1, rfl, trivial⟩
  | cons key path ih =>
    obtain ⟨value, hvalue, hfound⟩ := Option.bind_eq_some_iff.mp hfound
    have hmerged := lookup_eq_mergedAt hplist2.nodup h key
    rw [hvalue] at hmerged
    cases hkey : plist2.lookup key with
    | none =>
      rw [hkey] at hmerged
      exact .inl ⟨found, (valueAt_cons path hmerged.symm).trans hfound, .refl found⟩
    | some value2 =>
      rw [hkey, mergedAt] at hmerged
      cases value2 with
      | dict entries2 =>
        rcases mergedValue_dict (plist1.lookup key) entries2 with
          ⟨entries1, hold, hvalue'⟩ | ⟨-, hvalue'⟩
        · -- two dictionaries were merged, and the path goes on in one of them
          rw [hvalue'] at hmerged
          obtain ⟨entries, hentries, rfl⟩ := Option.map_eq_some_iff.mp hmerged.symm
          rw [valueAt_cons path hold, valueAt_cons path hkey]
          exact ih (hplist2.lookup hkey) hentries hfound
        · rw [hvalue'] at hmerged
          obtain rfl := Option.some.inj hmerged
          exact .inr ⟨found, (valueAt_cons path hkey).trans hfound, .refl found⟩
      | list items2 =>
        obtain ⟨items, rfl⟩ := mergedValue_eq_list hmerged.symm
        cases path with
        | nil =>
          obtain rfl := Option.some.inj hfound
          exact .inr ⟨.list items2, valueAt_cons [] hkey, trivial⟩
        | cons key' path => cases hfound
      | scalar value2 =>
        obtain rfl := Option.some.inj hmerged
        exact .inr ⟨found, (valueAt_cons path hkey).trans hfound, .refl found⟩

/-- A merge is alike to what both of its arguments are alike to. -/
theorem Alike.of_mergePList (hplist2 : WellFormed (.dict plist2))
    (h : PListUtil.mergePList plist1 plist2 = some merged) (h1 : Alike (.dict plist1) value)
    (h2 : Alike (.dict plist2) value) : Alike (.dict merged) value := by
  intro path found found' hfound hfound'
  rcases valueAt_mergePList hplist2 h hfound with
    ⟨found1, hfound1, hkind⟩ | ⟨found2, hfound2, hkind⟩
  · exact hkind.symm.trans (h1 path found1 found' hfound1 hfound')
  · exact hkind.symm.trans (h2 path found2 found' hfound2 hfound')

/-- What is assigned at a key does not depend on the order of two merges, if that is so of the
dictionaries merged for it. -/
theorem mergedAt_assoc {value1 value2 value3 : Option (PList α)}
    (h12 : ∀ found1 found2, value1 = some found1 → value2 = some found2 → Alike found1 found2)
    (h23 : ∀ found2 found3, value2 = some found2 → value3 = some found3 → Alike found2 found3)
    (ih : ∀ entries1 entries2 entries3, value1 = some (.dict entries1) →
      value2 = some (.dict entries2) → value3 = some (.dict entries3) →
      ∃ merged12 merged23 merged, mergePList entries1 entries2 = some merged12 ∧
        mergePList merged12 entries3 = some merged ∧
        mergePList entries2 entries3 = some merged23 ∧
        mergePList entries1 merged23 = some merged) :
    mergedAt (mergedAt value1 value2) value3 = mergedAt value1 (mergedAt value2 value3) := by
  rcases value3 with _ | value3
  · rfl
  rcases value1 with _ | value1
  · rw [mergedAt_none_left, mergedAt_none_left]
  rcases value2 with _ | value2
  · rw [mergedAt_none_left]
    rfl
  have hkind12 := (h12 value1 value2 rfl rfl).sameKind
  have hkind23 := (h23 value2 value3 rfl rfl).sameKind
  cases value3 with
  | dict entries3 =>
    cases value2 with
    | dict entries2 =>
      cases value1 with
      | dict entries1 =>
        obtain ⟨merged12, merged23, merged, h12, hleft, h23, hright⟩ :=
          ih entries1 entries2 entries3 rfl rfl rfl
        have hmerge12 : mergedValue (some (.dict entries1)) (.dict entries2) =
            some (.dict merged12) := by
          rw [mergedValue, mergeDict_dicts, h12, Option.map_some]
        have hmerge23 : mergedValue (some (.dict entries2)) (.dict entries3) =
            some (.dict merged23) := by
          rw [mergedValue, mergeDict_dicts, h23, Option.map_some]
        rw [mergedAt, mergedAt, mergedAt, hmerge12, hmerge23, mergedAt, mergedValue, mergedValue,
          mergeDict_dicts, mergeDict_dicts, hleft, hright]
      | list items1 => exact absurd hkind12 not_false
      | scalar value1 => exact absurd hkind12 not_false
    | list items2 => exact absurd hkind23 not_false
    | scalar value2 => exact absurd hkind23 not_false
  | list items3 =>
    cases value2 with
    | dict entries2 => exact absurd hkind23 not_false
    | list items2 =>
      cases value1 with
      | dict entries1 => exact absurd hkind12 not_false
      | list items1 =>
        have happend := List.append_assoc items1 items2 items3
        exact congrArg (fun items => some (PList.list items)) happend
      | scalar value1 => exact absurd hkind12 not_false
    | scalar value2 => exact absurd hkind23 not_false
  | scalar value3 =>
    cases value2 with
    | dict entries2 => exact absurd hkind23 not_false
    | list items2 => exact absurd hkind23 not_false
    | scalar value2 => rfl

/-- Of three alike property lists, it does not matter which two are merged first. -/
theorem mergePList_assoc (hplist1 : WellFormed (.dict plist1)) (hplist2 : WellFormed (.dict plist2))
    (hplist3 : WellFormed (.dict plist3)) (h12 : Alike (.dict plist1) (.dict plist2))
    (h23 : Alike (.dict plist2) (.dict plist3)) (h13 : Alike (.dict plist1) (.dict plist3)) :
    ∃ merged12 merged23 merged, mergePList plist1 plist2 = some merged12 ∧
      mergePList merged12 plist3 = some merged ∧ mergePList plist2 plist3 = some merged23 ∧
      mergePList plist1 merged23 = some merged := by
  induction hplist3 using WellFormed.dict_induction generalizing plist1 plist2 with
  | dict plist3 hplist3 ih =>
    obtain ⟨merged12, hmerged12⟩ := h12.mergePList hplist2
    obtain ⟨merged23, hmerged23⟩ := h23.mergePList hplist3
    have hwell12 := wellFormed_mergePList hplist1 hplist2 hmerged12
    have hwell23 := wellFormed_mergePList hplist2 hplist3 hmerged23
    obtain ⟨left, hleft⟩ := (h13.of_mergePList hplist2 hmerged12 h23).mergePList hplist3
    obtain ⟨right, hright⟩ :=
      (h12.symm.of_mergePList hplist3 hmerged23 h13.symm).symm.mergePList hwell23
    refine ⟨merged12, merged23, left, hmerged12, hleft, hmerged23, ?_⟩
    have hkeys : keys left = keys right := by
      rw [keys_mergePList hplist3.nodup hleft, keys_mergePList hwell23.nodup hright,
        keys_mergePList hplist2.nodup hmerged12, keys_mergePList hplist3.nodup hmerged23,
        joinKeys_assoc]
    have hlookup : ∀ key, left.lookup key = right.lookup key := by
      intro key
      rw [lookup_eq_mergedAt hplist3.nodup hleft, lookup_eq_mergedAt hwell23.nodup hright,
        lookup_eq_mergedAt hplist2.nodup hmerged12, lookup_eq_mergedAt hplist3.nodup hmerged23]
      refine mergedAt_assoc (fun _ _ => h12.lookup) (fun _ _ => h23.lookup) ?_
      intro entries1 entries2 entries3 hentries1 hentries2 hentries3
      exact ih key entries3 hentries3 (hplist1.lookup hentries1) (hplist2.lookup hentries2)
        (h12.lookup hentries1 hentries2) (h23.lookup hentries2 hentries3)
        (h13.lookup hentries1 hentries3)
    rw [hright, eq_of_lookup (wellFormed_mergePList hwell12 hplist3 hleft).nodup hkeys hlookup]

/-- Merging into the empty dictionary copies. -/
theorem nil_mergePList (hplist2 : WellFormed (.dict plist2)) :
    mergePList [] plist2 = some plist2 := by
  obtain ⟨merged, hmerged⟩ := (alike_nil_left plist2).mergePList hplist2
  have hnil : WellFormed (.dict ([] : List (String × PList α))) := .dict List.nodup_nil nofun
  have hkeys : keys merged = keys plist2 := by
    rw [keys_mergePList hplist2.nodup hmerged]
    exact nil_joinKeys _
  have hlookup : ∀ key, merged.lookup key = plist2.lookup key := by
    intro key
    rw [lookup_eq_mergedAt hplist2.nodup hmerged]
    exact mergedAt_none_left _
  rw [hmerged, eq_of_lookup (wellFormed_mergePList hnil hplist2 hmerged).nodup hkeys hlookup]

end Stages

section MergeAction

variable {α File : Type} {loadPList : File → Dict α} {path : List File} {value : PList α}

namespace MergeAction

/-- The data that `MergeAction._Execute` saves. -/
def execute (loadPList : File → Dict α) (path : List File) : Option (List (String × PList α)) :=
  path.foldlM (fun data filename => mergePList data (loadPList filename).entries) []

theorem execute_append_singleton (path : List File) (filename : File) :
    execute loadPList (path ++ [filename]) = (execute loadPList path).bind fun data =>
      mergePList data (loadPList filename).entries := by
  rw [execute, List.foldlM_append]
  exact bind_congr fun data => bind_pure _

/-- Alike files are merged without an error, into what is alike to whatever they all are. -/
theorem execute_alike (h : ∀ filename ∈ path, ∀ filename' ∈ path,
      Alike (.dict (loadPList filename).entries) (.dict (loadPList filename').entries)) :
    ∃ data : Dict α, execute loadPList path = some data.entries ∧
      ∀ entries : List (String × PList α),
        (∀ filename ∈ path, Alike (.dict (loadPList filename).entries) (.dict entries)) →
        Alike (.dict data.entries) (.dict entries) := by
  induction path using List.reverseRecOn with
  | nil => exact ⟨⟨[], .dict List.nodup_nil nofun⟩, rfl, fun entries _ => alike_nil_left entries⟩
  | append_singleton path filename ih =>
    have hmem := List.mem_append_right path (List.mem_singleton_self filename)
    obtain ⟨data, hdata, halike⟩ := ih fun filename1 h1 filename2 h2 =>
      h filename1 (List.mem_append_left _ h1) filename2 (List.mem_append_left _ h2)
    have hlast := halike (loadPList filename).entries fun filename1 h1 =>
      h filename1 (List.mem_append_left _ h1) filename hmem
    have hwell := (loadPList filename).wellFormed
    obtain ⟨merged, hmerged⟩ := hlast.mergePList hwell
    refine ⟨⟨merged, wellFormed_mergePList data.wellFormed hwell hmerged⟩, ?_, ?_⟩
    · rw [execute_append_singleton, hdata, Option.bind_some, hmerged]
    · intro entries hentries
      have hleft := halike entries fun filename1 h1 =>
        hentries filename1 (List.mem_append_left _ h1)
      exact hleft.of_mergePList hwell hmerged (hentries filename hmem)

/-- Merging the results of two folds is folding on. -/
theorem execute_append {path1 path2 : List File} {data1 data2 : Dict α}
    (hdata1 : execute loadPList path1 = some data1.entries)
    (hdata2 : execute loadPList path2 = some data2.entries)
    (h1 : ∀ filename ∈ path2, Alike (.dict (loadPList filename).entries) (.dict data1.entries))
    (h2 : ∀ filename ∈ path2, ∀ filename' ∈ path2,
      Alike (.dict (loadPList filename).entries) (.dict (loadPList filename').entries)) :
    ∃ data : Dict α, execute loadPList (path1 ++ path2) = some data.entries ∧
      mergePList data1.entries data2.entries = some data.entries := by
  induction path2 using List.reverseRecOn generalizing data2 with
  | nil =>
    obtain hnil : [] = data2.entries := Option.some.inj hdata2
    rw [List.append_nil, ← hnil]
    exact ⟨data1, hdata1, rfl⟩
  | append_singleton path2 filename ih =>
    have hmem := List.mem_append_right path2 (List.mem_singleton_self filename)
    have hfront : ∀ filename1 ∈ path2, filename1 ∈ path2 ++ [filename] :=
      fun filename1 hfilename1 => List.mem_append_left _ hfilename1
    have h2front := fun filename1 hfilename1 filename2 hfilename2 =>
      h2 filename1 (hfront _ hfilename1) filename2 (hfront _ hfilename2)
    obtain ⟨front, hexecute, halike⟩ := execute_alike h2front
    obtain ⟨data, hdata, hmerged⟩ :=
      ih hexecute (fun filename1 hfilename1 => h1 filename1 (hfront _ hfilename1)) h2front
    have hfilename := halike (loadPList filename).entries fun filename1 hfilename1 =>
      h2 filename1 (hfront _ hfilename1) filename hmem
    have hdata1' := halike data1.entries fun filename1 hfilename1 =>
      h1 filename1 (hfront _ hfilename1)
    obtain ⟨merged12, merged23, merged, h12, hleft, h23, hright⟩ :=
      mergePList_assoc data1.wellFormed front.wellFormed (loadPList filename).wellFormed
        hdata1'.symm hfilename (h1 filename hmem).symm
    obtain rfl : data.entries = merged12 := Option.some.inj (hmerged.symm.trans h12)
    rw [execute_append_singleton, hexecute, Option.bind_some, h23] at hdata2
    obtain rfl := Option.some.inj hdata2
    have hwell := wellFormed_mergePList data.wellFormed (loadPList filename).wellFormed hleft
    refine ⟨⟨merged, hwell⟩, ?_, hright⟩
    rw [← List.append_assoc, execute_append_singleton, hdata, Option.bind_some, hleft]

end MergeAction

/-- The empty dictionary is neutral, alike property lists may be merged in either order of
grouping, and `MergeAction` may fold over any part of its files first. -/
theorem mergePList_in_stages :
    (∀ plist1 plist2 plist3 : Dict α, Alike (.dict plist1.entries) (.dict plist2.entries) →
      Alike (.dict plist2.entries) (.dict plist3.entries) →
      Alike (.dict plist1.entries) (.dict plist3.entries) →
      ∃ merged12 merged23 merged : Dict α,
        mergePList plist1.entries plist2.entries = some merged12.entries ∧
        mergePList merged12.entries plist3.entries = some merged.entries ∧
        mergePList plist2.entries plist3.entries = some merged23.entries ∧
        mergePList plist1.entries merged23.entries = some merged.entries) ∧
    (∀ plist : Dict α, mergePList [] plist.entries = some plist.entries ∧
      mergePList plist.entries [] = some plist.entries) ∧
    ∀ {File : Type} (loadPList : File → Dict α) (path1 path2 : List File),
      (∀ filename ∈ path1 ++ path2, ∀ filename' ∈ path1 ++ path2,
        Alike (.dict (loadPList filename).entries) (.dict (loadPList filename').entries)) →
      ∃ data1 data2 data : Dict α,
        MergeAction.execute loadPList path1 = some data1.entries ∧
        MergeAction.execute loadPList path2 = some data2.entries ∧
        MergeAction.execute loadPList (path1 ++ path2) = some data.entries ∧
        mergePList data1.entries data2.entries = some data.entries := by
  refine ⟨fun plist1 plist2 plist3 h12 h23 h13 => ?_, fun plist => ?_, ?_⟩
  · obtain ⟨merged12, merged23, merged, hmerged12, hleft, hmerged23, hright⟩ :=
      mergePList_assoc plist1.wellFormed plist2.wellFormed plist3.wellFormed h12 h23 h13
    have hwell12 := wellFormed_mergePList plist1.wellFormed plist2.wellFormed hmerged12
    have hwell23 := wellFormed_mergePList plist2.wellFormed plist3.wellFormed hmerged23
    have hwell := wellFormed_mergePList hwell12 plist3.wellFormed hleft
    exact ⟨⟨merged12, hwell12⟩, ⟨merged23, hwell23⟩, ⟨merged, hwell⟩, hmerged12, hleft, hmerged23,
      hright⟩
  · exact ⟨nil_mergePList plist.wellFormed, rfl⟩
  · intro File loadPList path1 path2 h
    have h1 : ∀ filename ∈ path1, filename ∈ path1 ++ path2 :=
      fun filename hfilename => List.mem_append_left _ hfilename
    have h2 : ∀ filename ∈ path2, filename ∈ path1 ++ path2 :=
      fun filename hfilename => List.mem_append_right _ hfilename
    obtain ⟨data1, hdata1, halike⟩ := MergeAction.execute_alike fun filename hfilename filename'
      hfilename' => h filename (h1 _ hfilename) filename' (h1 _ hfilename')
    have hfiles := fun filename hfilename filename' hfilename' =>
      h filename (h2 _ hfilename) filename' (h2 _ hfilename')
    obtain ⟨data2, hdata2, -⟩ := MergeAction.execute_alike hfiles
    obtain ⟨data, hdata, hmerged⟩ := MergeAction.execute_append hdata1 hdata2
      (fun filename hfilename => (halike _ fun filename' hfilename' =>
        h filename' (h1 _ hfilename') filename (h2 _ hfilename)).symm) hfiles
    exact ⟨data1, data2, data, hdata1, hdata2, hdata, hmerged⟩

/-- One list at one key. -/
def listAt (key : String) (item : α) : Dict α where
  entries := [(key, .list [.scalar item])]
  wellFormed := wellFormed_singleton
    (.list fun _ hitem => List.mem_singleton.mp hitem ▸ .scalar item)

theorem alike_listAt (key : String) (item item' : α) :
    Alike (.dict (listAt key item).entries) (.dict (listAt key item').entries) := by
  intro path found1 found2 h1 h2
  obtain _ | ⟨key', path⟩ := path
  · obtain rfl := Option.some.inj h1
    obtain rfl := Option.some.inj h2
    trivial
  · obtain ⟨list1, hlist1, h1⟩ := Option.bind_eq_some_iff.mp h1
    obtain ⟨list2, hlist2, h2⟩ := Option.bind_eq_some_iff.mp h2
    obtain rfl := List.mem_singleton.mp (mem_of_lookup hlist1) |> Prod.mk.inj |>.2
    obtain rfl := List.mem_singleton.mp (mem_of_lookup hlist2) |> Prod.mk.inj |>.2
    cases path with
    | nil =>
      obtain rfl := Option.some.inj h1
      obtain rfl := Option.some.inj h2
      trivial
    | cons key'' path => cases h1

theorem mergePList_in_stages_lists :
    (∃ merged12 merged23 merged : Dict Nat,
      mergePList (listAt "k" 1).entries (listAt "k" 2).entries = some merged12.entries ∧
      mergePList merged12.entries (listAt "k" 3).entries = some merged.entries ∧
      mergePList (listAt "k" 2).entries (listAt "k" 3).entries = some merged23.entries ∧
      mergePList (listAt "k" 1).entries merged23.entries = some merged.entries) ∧
    ∃ data1 data2 data : Dict Nat,
      MergeAction.execute (listAt "k") [1] = some data1.entries ∧
      MergeAction.execute (listAt "k") [2, 3] = some data2.entries ∧
      MergeAction.execute (listAt "k") [1, 2, 3] = some data.entries ∧
      mergePList data1.entries data2.entries = some data.entries :=
  ⟨mergePList_in_stages.1 _ _ _ (alike_listAt "k" 1 2) (alike_listAt "k" 2 3)
    (alike_listAt "k" 1 3),
    mergePList_in_stages.2.2 (listAt "k") [1] [2, 3] fun item _ item' _ =>
      alike_listAt "k" item item'⟩

end MergeAction

end MiniChromium.PListUtil
