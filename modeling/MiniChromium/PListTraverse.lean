import MiniChromium.PListStages
import Mathlib.Data.List.Forall2
import Mathlib.Control.Basic

/-!
# Going through the scalars of a property list

A function that may fail is applied to every scalar of a value, in document order, and the first
failure ends the traversal. What it leaves of the value is its shape, and merging does not look
at scalars, so that a traversal may be done before or after it.
-/
namespace MiniChromium.PListUtil

open OrderedDict

variable {α α' ε : Type}

mutual

/-- The value with the function applied to its scalars. -/
def traverse (f : α → Except ε α') : PList α → Except ε (PList α')
  | .dict entries => (traverseEntries f entries).map .dict
  | .list items => (traverseItems f items).map .list
  | .scalar value => (f value).map .scalar
termination_by structural value => value

def traverseEntries (f : α → Except ε α') :
    List (String × PList α) → Except ε (List (String × PList α'))
  | [] => .ok []
  | (key, value) :: rest =>
    (traverse f value).bind fun value => (traverseEntries f rest).map ((key, value) :: ·)
termination_by structural entries => entries

def traverseItems (f : α → Except ε α') : List (PList α) → Except ε (List (PList α'))
  | [] => .ok []
  | value :: rest =>
    (traverse f value).bind fun value => (traverseItems f rest).map (value :: ·)
termination_by structural items => items

end

mutual

/-- The scalars of a value, in document order. -/
def scalars : PList α → List α
  | .dict entries => scalarsEntries entries
  | .list items => scalarsItems items
  | .scalar value => [value]
termination_by structural value => value

def scalarsEntries : List (String × PList α) → List α
  | [] => []
  | (_, value) :: rest => scalars value ++ scalarsEntries rest
termination_by structural entries => entries

def scalarsItems : List (PList α) → List α
  | [] => []
  | value :: rest => scalars value ++ scalarsItems rest
termination_by structural items => items

end

/-- The two values differ in their scalars at most, whose images the second one has. -/
def Maps (f : α → Except ε α') (value : PList α) (value' : PList α') : Prop :=
  traverse f value = .ok value'

def MapsEntry (f : α → Except ε α') (entry : String × PList α) (entry' : String × PList α') :
    Prop :=
  entry.1 = entry'.1 ∧ Maps f entry.2 entry'.2

section Maps

variable {f : α → Except ε α'}

theorem bind_eq_ok_iff {β γ : Type} {x : Except ε β} {g : β → Except ε γ} {y : γ} :
    x.bind g = .ok y ↔ ∃ z, x = .ok z ∧ g z = .ok y := by
  cases x <;> simp [Except.bind]

theorem map_eq_ok_iff {β γ : Type} {x : Except ε β} {g : β → γ} {y : γ} :
    x.map g = .ok y ↔ ∃ z, x = .ok z ∧ y = g z := by
  cases x <;> simp [Except.map, eq_comm]

theorem traverseEntries_eq_ok_iff {entries : List (String × PList α)}
    {entries' : List (String × PList α')} :
    traverseEntries f entries = .ok entries' ↔ List.Forall₂ (MapsEntry f) entries entries' := by
  induction entries generalizing entries' with
  | nil => cases entries' <;> simp [traverseEntries]
  | cons entry rest ih =>
    obtain ⟨key, value⟩ := entry
    simp only [traverseEntries, bind_eq_ok_iff, map_eq_ok_iff, ih, List.forall₂_cons_left_iff]
    constructor
    · rintro ⟨value', hvalue, rest', hrest, rfl⟩
      exact ⟨(key, value'), rest', ⟨rfl, hvalue⟩, hrest, rfl⟩
    · rintro ⟨⟨_, value'⟩, rest', ⟨rfl, hvalue⟩, hrest, rfl⟩
      exact ⟨value', hvalue, rest', hrest, rfl⟩

theorem traverseItems_eq_ok_iff {items : List (PList α)} {items' : List (PList α')} :
    traverseItems f items = .ok items' ↔ List.Forall₂ (Maps f) items items' := by
  induction items generalizing items' with
  | nil => cases items' <;> simp [traverseItems]
  | cons value rest ih =>
    simp only [traverseItems, bind_eq_ok_iff, map_eq_ok_iff, ih, List.forall₂_cons_left_iff]
    constructor
    · rintro ⟨value', hvalue, rest', hrest, rfl⟩
      exact ⟨value', rest', hvalue, hrest, rfl⟩
    · rintro ⟨value', rest', hvalue, hrest, rfl⟩
      exact ⟨value', hvalue, rest', hrest, rfl⟩

theorem maps_dict_iff {entries : List (String × PList α)} {value' : PList α'} :
    Maps f (.dict entries) value' ↔
      ∃ entries', List.Forall₂ (MapsEntry f) entries entries' ∧ value' = .dict entries' := by
  simp only [Maps, traverse, map_eq_ok_iff, traverseEntries_eq_ok_iff]

theorem maps_list_iff {items : List (PList α)} {value' : PList α'} :
    Maps f (.list items) value' ↔
      ∃ items', List.Forall₂ (Maps f) items items' ∧ value' = .list items' := by
  simp only [Maps, traverse, map_eq_ok_iff, traverseItems_eq_ok_iff]

theorem maps_scalar_iff {value : α} {value' : PList α'} :
    Maps f (.scalar value) value' ↔ ∃ v, f value = .ok v ∧ value' = .scalar v := by
  simp only [Maps, traverse, map_eq_ok_iff]

end Maps

section Scalars

variable {f : α → Except ε α'}

theorem mapM_append_except (l l' : List α) :
    (l ++ l').mapM f = (l.mapM f).bind fun v => (l'.mapM f).map (v ++ ·) := by
  rw [List.mapM_append]
  rfl

mutual

/-- The scalars are those that the function makes of the scalars, one after the other, and a
failure is the first one among them. -/
theorem scalars_traverse : ∀ value : PList α,
    (traverse f value).map scalars = (scalars value).mapM f
  | .dict entries => by
    have ih := scalarsEntries_traverse entries
    rw [scalars, ← ih, traverse]
    cases traverseEntries f entries <;> rfl
  | .list items => by
    have ih := scalarsItems_traverse items
    rw [scalars, ← ih, traverse]
    cases traverseItems f items <;> rfl
  | .scalar value => by
    rw [scalars, traverse, List.mapM_cons, List.mapM_nil]
    cases f value <;> rfl
termination_by structural value => value

theorem scalarsEntries_traverse : ∀ entries : List (String × PList α),
    (traverseEntries f entries).map scalarsEntries = (scalarsEntries entries).mapM f
  | [] => rfl
  | (key, value) :: rest => by
    have ih := scalars_traverse value
    have ihrest := scalarsEntries_traverse rest
    rw [scalarsEntries, mapM_append_except, ← ih, ← ihrest, traverseEntries]
    cases traverse f value <;> cases traverseEntries f rest <;> rfl
termination_by structural entries => entries

theorem scalarsItems_traverse : ∀ items : List (PList α),
    (traverseItems f items).map scalarsItems = (scalarsItems items).mapM f
  | [] => rfl
  | value :: rest => by
    have ih := scalars_traverse value
    have ihrest := scalarsItems_traverse rest
    rw [scalarsItems, mapM_append_except, ← ih, ← ihrest, traverseItems]
    cases traverse f value <;> cases traverseItems f rest <;> rfl
termination_by structural items => items

end

end Scalars

section Merge

variable {f : α → Except ε α'} {entries items plist1 plist2 result : List (String × PList α)}
  {entries' items' plist1' plist2' result' : List (String × PList α')} {key : String}

theorem rel_bind {β β' γ γ' : Type} {R : β → β' → Prop} {S : γ → γ' → Prop} {x : Option β}
    {x' : Option β'} {g : β → Option γ} {g' : β' → Option γ'} (h : Option.Rel R x x')
    (hg : ∀ y y', R y y' → Option.Rel S (g y) (g' y')) :
    Option.Rel S (x.bind g) (x'.bind g') := by
  cases h with
  | none => exact .none
  | some h => exact hg _ _ h

/-- The same key finds a value and its image, or finds nothing in both. -/
theorem lookup_maps (h : List.Forall₂ (MapsEntry f) entries entries') (key : String) :
    Option.Rel (Maps f) (entries.lookup key) (entries'.lookup key) := by
  induction h with
  | nil => exact .none
  | @cons entry entry' _ _ hentry _ ih =>
    obtain ⟨key₁, value⟩ := entry
    obtain ⟨key₂, value'⟩ := entry'
    obtain ⟨rfl, hvalue⟩ := hentry
    simp only [List.lookup_cons]
    cases key == key₁ with
    | false => exact ih
    | true => exact .some hvalue

theorem set_maps (h : List.Forall₂ (MapsEntry f) entries entries') (key : String)
    {value : PList α} {value' : PList α'} (hvalue : Maps f value value') :
    List.Forall₂ (MapsEntry f) (set entries key value) (set entries' key value') := by
  induction h with
  | nil => exact .cons ⟨rfl, hvalue⟩ .nil
  | @cons entry entry' rest rest' hentry hrest ih =>
    rw [OrderedDict.set, OrderedDict.set, hentry.1]
    split_ifs
    · exact .cons ⟨rfl, hvalue⟩ hrest
    · exact .cons hentry ih

/-- At the end of a key path there is a value and its image, or nothing in both. -/
theorem valueAt_maps (path : List String) {value : PList α} {value' : PList α'}
    (h : Maps f value value') :
    Option.Rel (Maps f) (valueAt path value) (valueAt path value') := by
  induction path generalizing value value' with
  | nil => exact .some h
  | cons key path ih =>
    cases value with
    | dict entries =>
      obtain ⟨entries', hentries, rfl⟩ := maps_dict_iff.mp h
      exact rel_bind (lookup_maps hentries key) fun _ _ hvalue => ih hvalue
    | list => obtain ⟨_, -, rfl⟩ := maps_list_iff.mp h; exact .none
    | scalar => obtain ⟨_, -, rfl⟩ := maps_scalar_iff.mp h; exact .none

theorem concat_maps {value1 value2 : PList α} {value1' value2' : PList α'}
    (h1 : Maps f value1 value1') (h2 : Maps f value2 value2') :
    Option.Rel (Maps f) (concat value1 value2) (concat value1' value2') := by
  cases value1 with
  | list items1 =>
    obtain ⟨items1', hitems1, rfl⟩ := maps_list_iff.mp h1
    cases value2 with
    | list items2 =>
      obtain ⟨items2', hitems2, rfl⟩ := maps_list_iff.mp h2
      exact .some (maps_list_iff.mpr ⟨_, List.rel_append hitems1 hitems2, rfl⟩)
    | dict => obtain ⟨_, -, rfl⟩ := maps_dict_iff.mp h2; exact .none
    | scalar => obtain ⟨_, -, rfl⟩ := maps_scalar_iff.mp h2; exact .none
  | dict => obtain ⟨_, -, rfl⟩ := maps_dict_iff.mp h1; exact .none
  | scalar => obtain ⟨_, -, rfl⟩ := maps_scalar_iff.mp h1; exact .none

theorem getD_maps {value : Option (PList α)} {value' : Option (PList α')}
    (h : Option.Rel (Maps f) value value') :
    Maps f (value.getD (.list [])) (value'.getD (.list [])) := by
  cases h with
  | none => exact maps_list_iff.mpr ⟨[], .nil, rfl⟩
  | some h => exact h

theorem mergeList_maps (h1 : List.Forall₂ (MapsEntry f) plist1 plist1')
    (h2 : List.Forall₂ (MapsEntry f) plist2 plist2') (key : String) {value : PList α}
    {value' : PList α'} (hvalue : Maps f value value') :
    Option.Rel (Maps f) (mergeList plist1 plist2 key value)
      (mergeList plist1' plist2' key value') := by
  cases value with
  | list =>
    obtain ⟨_, -, rfl⟩ := maps_list_iff.mp hvalue
    exact concat_maps (getD_maps (lookup_maps h1 key)) (getD_maps (lookup_maps h2 key))
  | dict =>
    obtain ⟨_, -, rfl⟩ := maps_dict_iff.mp hvalue
    exact .some hvalue
  | scalar =>
    obtain ⟨_, -, rfl⟩ := maps_scalar_iff.mp hvalue
    exact .some hvalue

mutual

theorem mergeDict_maps : ∀ (value : PList α) {value' : PList α'} {oldValue : Option (PList α)}
    {oldValue' : Option (PList α')}, Option.Rel (Maps f) oldValue oldValue' →
    Maps f value value' →
      Option.Rel (Maps f) (mergeDict oldValue value) (mergeDict oldValue' value')
  | .dict entries, value', oldValue, oldValue', hold, h => by
    obtain ⟨entries', hentries, rfl⟩ := maps_dict_iff.mp h
    have hdict : Option.Rel (Maps f) (some (PList.dict entries)) (some (PList.dict entries')) :=
      .some h
    cases hold with
    | none => exact hdict
    | @some oldValue oldValue' hold =>
      cases oldValue with
      | dict oldEntries =>
        obtain ⟨oldEntries', holdEntries, rfl⟩ := maps_dict_iff.mp hold
        have ih := mergeItems_maps entries hentries holdEntries hentries holdEntries
        simp only [mergeDict, Option.map_eq_bind]
        exact rel_bind ih fun _ _ hmerged => .some (maps_dict_iff.mpr ⟨_, hmerged, rfl⟩)
      | list => obtain ⟨_, -, rfl⟩ := maps_list_iff.mp hold; exact hdict
      | scalar => obtain ⟨_, -, rfl⟩ := maps_scalar_iff.mp hold; exact hdict
  | .list items, value', oldValue, oldValue', _, h => by
    obtain ⟨_, -, rfl⟩ := maps_list_iff.mp h
    exact .some h
  | .scalar value, value', oldValue, oldValue', _, h => by
    obtain ⟨_, -, rfl⟩ := maps_scalar_iff.mp h
    exact .some h
termination_by structural value => value

theorem mergeItems_maps : ∀ (items : List (String × PList α)) {items' : List (String × PList α')}
    {plist1 plist2 result : List (String × PList α)}
    {plist1' plist2' result' : List (String × PList α')},
    List.Forall₂ (MapsEntry f) items items' → List.Forall₂ (MapsEntry f) plist1 plist1' →
    List.Forall₂ (MapsEntry f) plist2 plist2' → List.Forall₂ (MapsEntry f) result result' →
      Option.Rel (List.Forall₂ (MapsEntry f)) (mergeItems plist1 plist2 result items)
        (mergeItems plist1' plist2' result' items')
  | [], items', _, _, _, _, _, _, h, _, _, hresult => by
    cases h
    exact .some hresult
  | (key, value) :: rest, items', plist1, plist2, result, plist1', plist2', result', h, h1, h2,
      hresult => by
    obtain ⟨⟨key', value'⟩, rest', ⟨hkey, hvalue⟩, hrest, rfl⟩ := List.forall₂_cons_left_iff.mp h
    obtain rfl : key = key' := hkey
    have hdict := mergeDict_maps value (lookup_maps hresult key) hvalue
    rw [mergeItems, mergeItems]
    exact rel_bind hdict fun _ _ hvalue => rel_bind (mergeList_maps h1 h2 key hvalue)
      fun _ _ hvalue => mergeItems_maps rest hrest h1 h2 (set_maps hresult key hvalue)
termination_by structural items => items

end

/-- Merging images gives the image of the merged value, and raises where merging the values
does. -/
theorem mergePList_maps (h1 : List.Forall₂ (MapsEntry f) plist1 plist1')
    (h2 : List.Forall₂ (MapsEntry f) plist2 plist2') :
    Option.Rel (List.Forall₂ (MapsEntry f)) (mergePList plist1 plist2)
      (mergePList plist1' plist2') :=
  mergeItems_maps plist2 h2 h1 h2 h1

end Merge

end MiniChromium.PListUtil
