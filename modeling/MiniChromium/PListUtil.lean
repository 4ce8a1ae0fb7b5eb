import MiniChromium.OrderedDict

/-!
# Merging property lists

`MergePList` goes through the items of its second argument and assigns each to a copy of the
first, after it has merged two dictionaries or joined two lists. Its docstring says what the
result holds at every key. A `TypeError` is the outcome `none`: the source adds to a list what
the first argument has at the key, whatever that is.
-/
namespace MiniChromium.PListUtil

open OrderedDict

/-- A value of a property list. Strings, numbers, dates and so on are all `scalar`. -/
inductive PList (α : Type) where
  | dict (entries : List (String × PList α))
  | list (items : List (PList α))
  | scalar (value : α)

/-- No dictionary in the value has a key twice. -/
inductive WellFormed {α : Type} : PList α → Prop
  | dict {entries : List (String × PList α)} :
    (keys entries).Nodup → (∀ entry ∈ entries, WellFormed entry.2) → WellFormed (.dict entries)
  | list {items : List (PList α)} : (∀ item ∈ items, WellFormed item) → WellFormed (.list items)
  | scalar (value : α) : WellFormed (.scalar value)

/-- A property list dictionary. -/
structure Dict (α : Type) where
  entries : List (String × PList α)
  wellFormed : WellFormed (.dict entries)

section Code

variable {α : Type}

/-- `+` with a list on the right, which takes only a list on the left. -/
def concat : PList α → PList α → Option (PList α)
  | .list items1, .list items2 => some (.list (items1 ++ items2))
  | _, _ => none

/-- The second `if` of the loop of `MergePList`. -/
def mergeList (plist1 plist2 : List (String × PList α)) (key : String) :
    PList α → Option (PList α)
  | .list _ => concat ((plist1.lookup key).getD (.list [])) ((plist2.lookup key).getD (.list []))
  | value => some value

mutual

/-- The first `if` of the loop of `MergePList`, with what the result has at the key. -/
def mergeDict (oldValue : Option (PList α)) : PList α → Option (PList α)
  | .dict entries =>
    match oldValue with
    -- `MergePList(old_value, value)`
    | some (.dict oldEntries) => (mergeItems oldEntries entries oldEntries entries).map .dict
    | _ => some (.dict entries)
  | value => some value
termination_by structural value => value

/-- The loop of `MergePList` over the items of `plist2` that are left. -/
def mergeItems (plist1 plist2 result : List (String × PList α)) :
    List (String × PList α) → Option (List (String × PList α))
  | [] => some result
  | (key, value) :: rest => do
    let value ← mergeDict (result.lookup key) value
    let value ← mergeList plist1 plist2 key value
    mergeItems plist1 plist2 (set result key value) rest
termination_by structural items => items

end

/-- `MergePList`. -/
def mergePList (plist1 plist2 : List (String × PList α)) : Option (List (String × PList α)) :=
  mergeItems plist1 plist2 plist1 plist2

end Code

section Documentation

variable {α : Type}

/-- Two dictionaries or two lists, which are not replaced by one another. -/
def Combined : PList α → PList α → Prop
  | .dict _, .dict _ => True
  | .list _, .list _ => True
  | _, _ => False

/-- What the docstring says of a key: what the two arguments have there, and the result. -/
inductive Merges : Option (PList α) → Option (PList α) → Option (PList α) → Prop
  | neither : Merges none none none
  | first (value : PList α) : Merges (some value) none (some value)
  | second (value : PList α) : Merges none (some value) (some value)
  | dicts {entries1 entries2 entries : List (String × PList α)} :
    (∀ key, Merges (entries1.lookup key) (entries2.lookup key) (entries.lookup key)) →
    Merges (some (.dict entries1)) (some (.dict entries2)) (some (.dict entries))
  | lists (items1 items2 : List (PList α)) :
    Merges (some (.list items1)) (some (.list items2)) (some (.list (items1 ++ items2)))
  | replaced {value1 value2 : PList α} : ¬ Combined value1 value2 →
    Merges (some value1) (some value2) (some value2)

/-- The result has the keys of both arguments, and at each key what the docstring says. -/
structure Documented (plist1 plist2 result : List (String × PList α)) : Prop where
  keys_iff : ∀ key, key ∈ keys result ↔ key ∈ keys plist1 ∨ key ∈ keys plist2
  merges : ∀ key, Merges (plist1.lookup key) (plist2.lookup key) (result.lookup key)

/-- At some key that is reached through dictionaries on both sides, the second argument has a
list and the first has something else. -/
inductive Clash : List (String × PList α) → List (String × PList α) → Prop
  | here {plist1 plist2 : List (String × PList α)} {key : String} {value : PList α}
    {items : List (PList α)} : plist1.lookup key = some value →
    (∀ items1, value ≠ .list items1) → plist2.lookup key = some (.list items) →
    Clash plist1 plist2
  | deeper {plist1 plist2 entries1 entries2 : List (String × PList α)} {key : String} :
    plist1.lookup key = some (.dict entries1) → plist2.lookup key = some (.dict entries2) →
    Clash entries1 entries2 → Clash plist1 plist2

end Documentation

section Loop

variable {α : Type} {plist1 plist2 result merged : List (String × PList α)}
  {items : List (String × PList α)} {key : String} {value : PList α}

/-- What the loop assigns to a key of the second argument. -/
def mergedValue (oldValue : Option (PList α)) : PList α → Option (PList α)
  | .dict entries => mergeDict oldValue (.dict entries)
  | .list items => concat (oldValue.getD (.list [])) (.list items)
  | .scalar value => some (.scalar value)

theorem mergeDict_dicts (entries1 entries2 : List (String × PList α)) :
    mergeDict (some (.dict entries1)) (.dict entries2) =
      (mergePList entries1 entries2).map .dict := rfl

/-- Where there is no dictionary to merge with, a dictionary stays as it is. -/
theorem mergeDict_replaced {oldValue : Option (PList α)} (entries : List (String × PList α))
    (h : ∀ entries1, oldValue ≠ some (.dict entries1)) :
    mergeDict oldValue (.dict entries) = some (.dict entries) := by
  rcases oldValue with _ | (entries1 | items1 | value1)
  · rfl
  · exact absurd rfl (h entries1)
  · rfl
  · rfl

/-- A dictionary only ever becomes a dictionary, which the second `if` passes by. -/
theorem mergeDict_eq_dict {oldValue : Option (PList α)} {entries : List (String × PList α)}
    (h : mergeDict oldValue (.dict entries) = some value) : ∃ merged, value = .dict merged := by
  rcases oldValue with _ | (entries1 | items1 | value1)
  · exact ⟨entries, (Option.some.inj h).symm⟩
  · rw [mergeDict_dicts, Option.map_eq_some_iff] at h
    obtain ⟨merged, -, rfl⟩ := h
    exact ⟨merged, rfl⟩
  · exact ⟨entries, (Option.some.inj h).symm⟩
  · exact ⟨entries, (Option.some.inj h).symm⟩

theorem mergeDict_bind (h : plist2.lookup key = some value) :
    (mergeDict (plist1.lookup key) value).bind (mergeList plist1 plist2 key) =
      mergedValue (plist1.lookup key) value := by
  cases value with
  | dict entries =>
    rw [mergedValue]
    cases hmerged : mergeDict (plist1.lookup key) (.dict entries) with
    | none => rfl
    | some value =>
      obtain ⟨merged, rfl⟩ := mergeDict_eq_dict hmerged
      rfl
  | list items =>
    have hlist : mergeDict (plist1.lookup key) (.list items) = some (.list items) := rfl
    rw [hlist, Option.bind_some, mergeList, h]
    rfl
  | scalar value => rfl

/-- The items that are left, at whose keys the result still has what the first argument has. -/
structure Pending (plist1 plist2 result items : List (String × PList α)) : Prop where
  nodup : (keys items).Nodup
  untouched : ∀ key ∈ keys items, result.lookup key = plist1.lookup key
  found : ∀ item ∈ items, plist2.lookup item.1 = some item.2

theorem Pending.start (h : (keys plist2).Nodup) : Pending plist1 plist2 plist1 plist2 where
  nodup := h
  untouched _ _ := rfl
  found _ hitem := lookup_of_mem h hitem

/-- An assignment touches none of the keys that are left after it. -/
theorem Pending.assign (h : Pending plist1 plist2 result ((key, value) :: items))
    (value' : PList α) : Pending plist1 plist2 (set result key value') items := by
  obtain ⟨hkey, hnodup⟩ := List.nodup_cons.mp h.nodup
  refine ⟨hnodup, fun key' hkey' => ?_, fun item hitem => ?_⟩
  · have hne : key' ≠ key := by
      rintro rfl
      exact hkey hkey'
    rw [lookup_set_of_ne hne]
    exact h.untouched key' (List.mem_cons_of_mem _ hkey')
  · exact h.found item (List.mem_cons_of_mem _ hitem)

theorem mergeItems_cons (h : Pending plist1 plist2 result ((key, value) :: items)) :
    mergeItems plist1 plist2 result ((key, value) :: items) =
      (mergedValue (plist1.lookup key) value).bind fun value' =>
        mergeItems plist1 plist2 (set result key value') items := by
  have hresult := h.untouched key List.mem_cons_self
  rw [← mergeDict_bind (h.found (key, value) List.mem_cons_self), Option.bind_assoc, ← hresult]
  rfl

/-- A merge that does not raise has assigned, at every key of the second argument, a value that
was found, and has left the other keys alone. -/
theorem mergeItems_eq_some (h : Pending plist1 plist2 result items)
    (hmerged : mergeItems plist1 plist2 result items = some merged) :
    (∀ item ∈ items, ∃ value, mergedValue (plist1.lookup item.1) item.2 = some value ∧
      merged.lookup item.1 = some value) ∧
    ∀ key ∉ keys items, merged.lookup key = result.lookup key := by
  induction items generalizing result with
  | nil =>
    obtain rfl : result = merged := Option.some.inj hmerged
    exact ⟨fun item hitem => absurd hitem List.not_mem_nil, fun key hkey => rfl⟩
  | cons item rest ih =>
    obtain ⟨key, value⟩ := item
    rw [mergeItems_cons h, Option.bind_eq_some_iff] at hmerged
    obtain ⟨value', hvalue', hmerged⟩ := hmerged
    obtain ⟨hassigned, hkept⟩ := ih (h.assign value') hmerged
    have hkey : merged.lookup key = some value' := by
      rw [hkept key (List.nodup_cons.mp h.nodup).1, lookup_set_self]
    constructor
    · intro item hitem
      rcases List.mem_cons.mp hitem with rfl | hitem
      · exact ⟨value', hvalue', hkey⟩
      · exact hassigned item hitem
    · intro key' hkey'
      rw [keys_cons, List.mem_cons, not_or] at hkey'
      rw [hkept key' hkey'.2, lookup_set_of_ne hkey'.1]

/-- A merge that raises has found no value at some key of the second argument. -/
theorem mergeItems_eq_none (h : Pending plist1 plist2 result items)
    (hmerged : mergeItems plist1 plist2 result items = none) :
    ∃ item ∈ items, mergedValue (plist1.lookup item.1) item.2 = none := by
  induction items generalizing result with
  | nil => cases hmerged
  | cons item rest ih =>
    obtain ⟨key, value⟩ := item
    rw [mergeItems_cons h] at hmerged
    cases hvalue : mergedValue (plist1.lookup key) value with
    | none => exact ⟨(key, value), List.mem_cons_self, hvalue⟩
    | some value' =>
      rw [hvalue, Option.bind_some] at hmerged
      obtain ⟨item, hitem, hnone⟩ := ih (h.assign value') hmerged
      exact ⟨item, List.mem_cons_of_mem _ hitem, hnone⟩

/-- An assignment never makes a key appear twice. -/
theorem nodup_mergeItems (h : Pending plist1 plist2 result items) (hnodup : (keys result).Nodup)
    (hmerged : mergeItems plist1 plist2 result items = some merged) : (keys merged).Nodup := by
  induction items generalizing result with
  | nil =>
    obtain rfl : result = merged := Option.some.inj hmerged
    exact hnodup
  | cons item rest ih =>
    obtain ⟨key, value⟩ := item
    rw [mergeItems_cons h, Option.bind_eq_some_iff] at hmerged
    obtain ⟨value', -, hmerged⟩ := hmerged
    exact ih (h.assign value') (nodup_keys_set hnodup key value') hmerged

end Loop

section Merge

variable {α : Type} {plist1 plist2 merged : List (String × PList α)} {key : String}
  {value : PList α}

theorem WellFormed.nodup (h : WellFormed (.dict plist1)) : (keys plist1).Nodup := by
  cases h with
  | dict hnodup => exact hnodup

theorem WellFormed.lookup (h : WellFormed (.dict plist1)) (hkey : plist1.lookup key = some value) :
    WellFormed value := by
  cases h with
  | dict _ hentries => exact hentries _ (mem_of_lookup hkey)

/-- An induction over the dictionaries inside one another. -/
theorem WellFormed.dict_induction
    {motive : ∀ entries : List (String × PList α), WellFormed (.dict entries) → Prop}
    (dict : ∀ (entries : List (String × PList α)) (h : WellFormed (.dict entries)),
      (∀ key nested (hkey : entries.lookup key = some (.dict nested)),
        motive nested (h.lookup hkey)) → motive entries h)
    {entries : List (String × PList α)} (h : WellFormed (.dict entries)) : motive entries h := by
  have hall : ∀ value : PList α, WellFormed value → ∀ entries, value = .dict entries →
      ∀ h : WellFormed (.dict entries), motive entries h := by
    intro value hvalue
    induction hvalue with
    | dict _ _ ih =>
      intro entries hentries h
      cases hentries
      exact dict _ h fun key nested hkey =>
        ih _ (mem_of_lookup hkey) nested rfl (h.lookup hkey)
    | list => exact nofun
    | scalar => exact nofun
  exact hall _ h entries rfl h

/-- What a merge that does not raise has at each key. -/
theorem lookup_mergePList (hnodup : (keys plist2).Nodup)
    (h : mergePList plist1 plist2 = some merged) :
    (∀ key value, plist2.lookup key = some value → ∃ value',
      mergedValue (plist1.lookup key) value = some value' ∧ merged.lookup key = some value') ∧
    ∀ key, plist2.lookup key = none → merged.lookup key = plist1.lookup key := by
  obtain ⟨hassigned, hkept⟩ := mergeItems_eq_some (.start hnodup) h
  refine ⟨fun key value hkey => hassigned _ (mem_of_lookup hkey), fun key hkey => hkept key ?_⟩
  rw [mem_keys_iff, hkey]
  exact not_not.mpr rfl

/-- A list cannot be added to what is no list. -/
theorem mergedValue_eq_none {items : List (PList α)} (h : ∀ items1, value ≠ .list items1) :
    mergedValue (some value) (.list items) = none := by
  cases value with
  | dict entries => rfl
  | list items1 => exact absurd rfl (h items1)
  | scalar value => rfl

/-- A dictionary is merged with a dictionary, and takes the place of anything else. -/
theorem mergedValue_dict (oldValue : Option (PList α)) (entries : List (String × PList α)) :
    (∃ entries1, oldValue = some (.dict entries1) ∧
      mergedValue oldValue (.dict entries) = (mergePList entries1 entries).map .dict) ∨
    ((∀ entries1, oldValue ≠ some (.dict entries1)) ∧
      mergedValue oldValue (.dict entries) = some (.dict entries)) := by
  by_cases hold : ∃ entries1, oldValue = some (.dict entries1)
  · obtain ⟨entries1, rfl⟩ := hold
    exact .inl ⟨entries1, rfl, mergeDict_dicts entries1 entries⟩
  · have hold := not_exists.mp hold
    exact .inr ⟨hold, mergeDict_replaced entries hold⟩

/-- A merge raises where there is a clash. -/
theorem mergePList_of_clash (h : Clash plist1 plist2) (hplist2 : WellFormed (.dict plist2)) :
    mergePList plist1 plist2 = none := by
  by_contra hsome
  obtain ⟨merged, hmerged⟩ := Option.ne_none_iff_exists'.mp hsome
  have hassigned := (lookup_mergePList hplist2.nodup hmerged).1
  induction h generalizing merged with
  | here h1 hlist h2 =>
    obtain ⟨value', hvalue', -⟩ := hassigned _ _ h2
    rw [h1, mergedValue_eq_none hlist] at hvalue'
    cases hvalue'
  | @deeper _ _ entries1 entries2 _ h1 h2 _ ih =>
    obtain ⟨value', hvalue', -⟩ := hassigned _ _ h2
    rw [h1, mergedValue, mergeDict_dicts, Option.map_eq_some_iff] at hvalue'
    obtain ⟨merged, hmerged, -⟩ := hvalue'
    have hentries2 := hplist2.lookup h2
    exact ih hentries2 (hmerged ▸ Option.some_ne_none _) merged hmerged
      (lookup_mergePList hentries2.nodup hmerged).1

/-- A merge raises only where there is a clash. -/
theorem clash_of_mergePList (hplist2 : WellFormed (.dict plist2))
    (h : mergePList plist1 plist2 = none) : Clash plist1 plist2 := by
  induction hplist2 using WellFormed.dict_induction generalizing plist1 with
  | dict plist2 hplist2 ih =>
    obtain ⟨⟨key, value⟩, hitem, hvalue⟩ := mergeItems_eq_none (.start hplist2.nodup) h
    have hkey := lookup_of_mem hplist2.nodup hitem
    cases value with
    | dict entries =>
      rcases mergedValue_dict (plist1.lookup key) entries with
        ⟨entries1, hold, hmerged⟩ | ⟨hold, hmerged⟩
      · rw [hmerged, Option.map_eq_none_iff] at hvalue
        exact .deeper hold hkey (ih key entries hkey hvalue)
      · rw [hmerged] at hvalue
        cases hvalue
    | list items =>
      dsimp only at hvalue
      cases hold : plist1.lookup key with
      | none =>
        rw [hold] at hvalue
        cases hvalue
      | some value =>
        refine .here hold (fun items1 hlist => ?_) hkey
        rw [hold, hlist] at hvalue
        cases hvalue
    | scalar value => cases hvalue

/-- What is assigned at a key is what the docstring says, if that is so of the dictionaries
merged for it. -/
theorem merges_mergedValue {oldValue : Option (PList α)} {value' : PList α}
    (ih : ∀ entries1 entries2 merged, value = .dict entries2 →
      mergePList entries1 entries2 = some merged →
      ∀ key, Merges (entries1.lookup key) (entries2.lookup key) (merged.lookup key))
    (h : mergedValue oldValue value = some value') :
    Merges oldValue (some value) (some value') := by
  cases value with
  | dict entries2 =>
    rcases mergedValue_dict oldValue entries2 with ⟨entries1, rfl, hmerged⟩ | ⟨hold, hmerged⟩
    · rw [hmerged, Option.map_eq_some_iff] at h
      obtain ⟨merged, hmerged, rfl⟩ := h
      exact .dicts (ih entries1 entries2 merged rfl hmerged)
    · rw [hmerged] at h
      obtain rfl := Option.some.inj h
      rcases oldValue with _ | (entries1 | items1 | value1)
      · exact .second _
      · exact absurd rfl (hold entries1)
      · exact .replaced not_false
      · exact .replaced not_false
  | list items2 =>
    rcases oldValue with _ | (entries1 | items1 | value1)
    · obtain rfl := Option.some.inj h
      exact .second _
    · cases h
    · obtain rfl := Option.some.inj h
      exact .lists items1 items2
    · cases h
  | scalar value2 =>
    obtain rfl := Option.some.inj h
    rcases oldValue with _ | (entries1 | items1 | value1)
    · exact .second _
    · exact .replaced not_false
    · exact .replaced not_false
    · exact .replaced not_false

/-- A merge that does not raise has, at every key, what the docstring says. -/
theorem merges_mergePList (hplist2 : WellFormed (.dict plist2))
    (h : mergePList plist1 plist2 = some merged) (key : String) :
    Merges (plist1.lookup key) (plist2.lookup key) (merged.lookup key) := by
  induction hplist2 using WellFormed.dict_induction generalizing plist1 merged key with
  | dict plist2 hplist2 ih =>
    obtain ⟨hassigned, hkept⟩ := lookup_mergePList hplist2.nodup h
    cases hkey : plist2.lookup key with
    | none =>
      rw [hkept key hkey]
      cases plist1.lookup key with
      | none => exact .neither
      | some value => exact .first value
    | some value =>
      obtain ⟨value', hvalue', hlookup⟩ := hassigned key value hkey
      rw [hlookup]
      refine merges_mergedValue (fun entries1 entries2 merged hdict hmerged => ?_) hvalue'
      exact ih key entries2 (hdict ▸ hkey) hmerged

theorem wellFormed_concat {items1 items2 : List (PList α)} (h1 : WellFormed (.list items1))
    (h2 : WellFormed (.list items2)) : WellFormed (.list (items1 ++ items2)) := by
  cases h1 with
  | list h1 =>
    cases h2 with
    | list h2 => exact .list fun item hitem => (List.mem_append.mp hitem).elim (h1 item) (h2 item)

/-- A value assigned is well formed if the dictionaries merged for it are. -/
theorem wellFormed_mergedValue {oldValue : Option (PList α)} {value' : PList α}
    (hold : ∀ value, oldValue = some value → WellFormed value) (hvalue : WellFormed value)
    (ih : ∀ entries1 entries2 merged, value = .dict entries2 → WellFormed (.dict entries1) →
      mergePList entries1 entries2 = some merged → WellFormed (.dict merged))
    (h : mergedValue oldValue value = some value') : WellFormed value' := by
  cases value with
  | dict entries2 =>
    rcases mergedValue_dict oldValue entries2 with ⟨entries1, rfl, hmerged⟩ | ⟨-, hmerged⟩
    · rw [hmerged, Option.map_eq_some_iff] at h
      obtain ⟨merged, hmerged, rfl⟩ := h
      exact ih entries1 entries2 merged rfl (hold _ rfl) hmerged
    · rw [hmerged] at h
      exact Option.some.inj h ▸ hvalue
  | list items2 =>
    rcases oldValue with _ | (entries1 | items1 | value1)
    · exact Option.some.inj h ▸ hvalue
    · cases h
    · exact Option.some.inj h ▸ wellFormed_concat (hold _ rfl) hvalue
    · cases h
  | scalar value2 => exact Option.some.inj h ▸ hvalue

/-- Merging property list dictionaries gives one. -/
theorem wellFormed_mergePList (hplist1 : WellFormed (.dict plist1))
    (hplist2 : WellFormed (.dict plist2)) (h : mergePList plist1 plist2 = some merged) :
    WellFormed (.dict merged) := by
  induction hplist2 using WellFormed.dict_induction generalizing plist1 merged with
  | dict plist2 hplist2 ih =>
    have hnodup := nodup_mergeItems (.start hplist2.nodup) hplist1.nodup h
    obtain ⟨hassigned, hkept⟩ := lookup_mergePList hplist2.nodup h
    refine .dict hnodup fun ⟨key, value'⟩ hentry => ?_
    have hlookup := lookup_of_mem hnodup hentry
    cases hkey : plist2.lookup key with
    | none => exact hplist1.lookup ((hkept key hkey).symm.trans hlookup)
    | some value =>
      obtain ⟨assigned, hassigned, hlookup'⟩ := hassigned key value hkey
      obtain rfl : assigned = value' := Option.some.inj (hlookup'.symm.trans hlookup)
      refine wellFormed_mergedValue (fun _ => hplist1.lookup) (hplist2.lookup hkey)
        (fun entries1 entries2 merged hdict hentries1 => ?_) hassigned
      exact ih key entries2 (hdict ▸ hkey) hentries1

theorem Merges.ne_none_iff {value1 value2 value : Option (PList α)}
    (h : Merges value1 value2 value) : value ≠ none ↔ value1 ≠ none ∨ value2 ≠ none := by
  cases h <;> simp

/-- The docstring's rule for the values makes the keys those of both arguments. -/
theorem documented_of_merges
    (h : ∀ key, Merges (plist1.lookup key) (plist2.lookup key) (merged.lookup key)) :
    Documented plist1 plist2 merged := by
  refine ⟨fun key => ?_, h⟩
  rw [mem_keys_iff, mem_keys_iff, mem_keys_iff]
  exact (h key).ne_none_iff

/-- `MergePList` returns, with what its docstring says, exactly where there is no clash. -/
theorem mergePList_documented_iff (plist1 plist2 : Dict α) :
    (∃ result : Dict α, mergePList plist1.entries plist2.entries = some result.entries ∧
      Documented plist1.entries plist2.entries result.entries) ↔
    ¬ Clash plist1.entries plist2.entries := by
  constructor
  · rintro ⟨result, hmerged, -⟩ hclash
    rw [mergePList_of_clash hclash plist2.wellFormed] at hmerged
    cases hmerged
  · intro hclash
    cases hmerged : mergePList plist1.entries plist2.entries with
    | none => exact absurd (clash_of_mergePList plist2.wellFormed hmerged) hclash
    | some merged =>
      have hresult := wellFormed_mergePList plist1.wellFormed plist2.wellFormed hmerged
      have hmerges := merges_mergePList plist2.wellFormed hmerged
      exact ⟨⟨merged, hresult⟩, rfl, documented_of_merges hmerges⟩

example : mergePList [("a", .scalar 1), ("b", .list [.scalar 2])]
    [("b", .list [.scalar 3]), ("c", .dict [])] =
      some [("a", .scalar 1), ("b", .list [.scalar 2, .scalar 3]), ("c", .dict [])] := rfl

theorem wellFormed_singleton (h : WellFormed value) : WellFormed (.dict [(key, value)]) :=
  .dict (List.nodup_singleton _) fun _ hentry => List.mem_singleton.mp hentry ▸ h

/-- A list that meets a string is not used in its place: `str + list` raises. -/
theorem mergePList_raises : ¬ ∀ plist1 plist2 : Dict String, ∃ result : Dict String,
    mergePList plist1.entries plist2.entries = some result.entries ∧
      Documented plist1.entries plist2.entries result.entries := by
  intro h
  have hlist : WellFormed (.list [.scalar "x"]) :=
    .list fun _ hitem => List.mem_singleton.mp hitem ▸ .scalar "x"
  obtain ⟨result, hmerged, -⟩ := h ⟨[("k", .scalar "s")], wellFormed_singleton (.scalar "s")⟩
    ⟨[("k", .list [.scalar "x"])], wellFormed_singleton hlist⟩
  have hraises : mergePList [("k", .scalar "s")] [("k", .list [.scalar "x"])] = none := rfl
  rw [hraises] at hmerged
  cases hmerged

end Merge

end MiniChromium.PListUtil
