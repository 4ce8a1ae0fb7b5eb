import Mathlib.Data.List.TakeWhile
import MiniChromium.PListInterpolate
import MiniChromium.PListTraverse
import MiniChromium.WinHelper

/-!
# Substituting in whole property lists

`Interpolate` goes through a value and interpolates its strings. The substitute action does so
with the rules of its command line, and the merge action may come before it or after it.
-/
namespace MiniChromium.PListUtil

open OrderedDict

/-- A scalar is a string or a value of another type. -/
inductive Scalar (β : Type)
  | string (value : Text)
  | other (value : β)
  deriving DecidableEq

variable {β : Type}

/-- The last two branches of `Interpolate`. -/
def interpolateScalar (substitutions : List (Text × Text)) :
    Scalar β → Except SubstitutionError (Scalar β)
  | .string value => (interpolateString value substitutions).map .string
  | .other value => .ok (.other value)

/-- `Interpolate`. -/
def interpolate (substitutions : List (Text × Text)) (value : PList (Scalar β)) :
    Except SubstitutionError (PList (Scalar β)) :=
  traverse (interpolateScalar substitutions) value

/-- `Interpolate` of a dictionary. -/
def interpolateDict (substitutions : List (Text × Text))
    (entries : List (String × PList (Scalar β))) :
    Except SubstitutionError (List (String × PList (Scalar β))) :=
  traverseEntries (interpolateScalar substitutions) entries

/-- What ends the substitute action: a rule without an equals sign, or an unknown variable. -/
inductive ActionError
  | valueError
  | substitutionError (error : SubstitutionError)

/-- `SubstituteAction._Execute`, up to the data that it saves. -/
def SubstituteAction.execute (substitution : List Text) (template : PList (Scalar β)) :
    Except ActionError (PList (Scalar β)) :=
  match WinHelper.dict (substitution.map WinHelper.splitOnce) with
  | none => .error .valueError
  | some substitutions => (interpolate substitutions template).mapError .substitutionError

variable {substitutions : List (Text × Text)} {substitution : List Text}

/-- The strings of a value are interpolated independently, in document order; the error is that
of the first string that has one. All else, the keys and the scalars of other types, stays. -/
theorem interpolate_scalars (substitutions : List (Text × Text)) (value : PList (Scalar β)) :
    (interpolate substitutions value).map scalars =
      (scalars value).mapM (interpolateScalar substitutions) ∧
    ∀ value', interpolate substitutions value = .ok value' → ∀ path,
      Option.Rel (fun at_ at' => interpolate substitutions at_ = .ok at') (valueAt path value)
        (valueAt path value') :=
  ⟨scalars_traverse value, fun _ h path => valueAt_maps path h⟩

/-- Rules whose keys end at an equals sign are assigned in turn. -/
theorem dict_rules {rules : List (Text × Text)} (h : ∀ rule ∈ rules, '=' ∉ rule.1) :
    WinHelper.dict ((rules.map WinHelper.item).map WinHelper.splitOnce) =
      some (rules.foldl (fun result rule => set result rule.1 rule.2) []) := by
  have hpairs : (rules.map WinHelper.item).map WinHelper.splitOnce =
      rules.map fun rule => [rule.1, rule.2] := by
    rw [List.map_map]
    exact List.map_congr_left fun rule hrule => WinHelper.splitOnce_item (h rule hrule)
  rw [hpairs, WinHelper.dict, List.foldlM_map]
  exact List.foldlM_pure

/-- A rule without an equals sign is no pair. -/
theorem dict_eq_none {rule : Text} (hmem : rule ∈ substitution) (h : '=' ∉ rule) :
    WinHelper.dict (substitution.map WinHelper.splitOnce) = none := by
  have hsplit : WinHelper.splitOnce rule = [rule] := by
    have hdrop : rule.dropWhile (· ≠ '=') = [] :=
      List.dropWhile_eq_nil_iff.mpr fun c hc => decide_eq_true (ne_of_mem_of_not_mem hc h)
    rw [WinHelper.splitOnce, hdrop]
  rw [WinHelper.dict, List.foldlM_map]
  generalize ([] : List (Text × Text)) = entries
  induction substitution generalizing entries with
  | nil => cases hmem
  | cons first rest ih =>
    rw [List.foldlM_cons]
    obtain rfl | hmem := List.mem_cons.mp hmem
    · rw [hsplit]
      rfl
    · cases hfirst : WinHelper.splitOnce first with
      | nil => rfl
      | cons key values => cases values with
        | nil => rfl
        | cons value values => cases values with
          | nil => exact ih hmem _
          | cons => rfl

/-- Every text with an equals sign is a rule whose key ends at the first one. -/
theorem exists_item {text : Text} (h : '=' ∈ text) :
    ∃ rule : Text × Text, text = WinHelper.item rule ∧ '=' ∉ rule.1 := by
  obtain ⟨key, value, rfl, hkey⟩ := List.eq_append_cons_of_mem h
  exact ⟨(key, value), rfl, hkey⟩

/-- The substitute action refuses a rule without an equals sign. Otherwise it interpolates its
template, and where a variable has several rules the last one counts. -/
theorem substituteAction_execute (substitution : List Text) (template : PList (Scalar β)) :
    (∃ rule ∈ substitution, '=' ∉ rule) ∧
      SubstituteAction.execute substitution template = .error .valueError ∨
    ∃ rules substitutions : List (Text × Text), substitution = rules.map WinHelper.item ∧
      (∀ rule ∈ rules, '=' ∉ rule.1) ∧
      (∀ key, substitutions.lookup key = rules.reverse.lookup key) ∧
      SubstituteAction.execute substitution template =
        (interpolate substitutions template).mapError .substitutionError := by
  by_cases hrule : ∃ rule ∈ substitution, '=' ∉ rule
  · obtain ⟨rule, hmem, hequals⟩ := hrule
    refine .inl ⟨⟨rule, hmem, hequals⟩, ?_⟩
    rw [SubstituteAction.execute, dict_eq_none hmem hequals]
  · simp only [not_exists, not_and, not_not] at hrule
    have hrules : ∃ rules : List (Text × Text), substitution = rules.map WinHelper.item ∧
        ∀ rule ∈ rules, '=' ∉ rule.1 := by
      clear template
      induction substitution with
      | nil => exact ⟨[], rfl, nofun⟩
      | cons text rest ih =>
        obtain ⟨rules, rfl, hkeys⟩ := ih fun rule hmem => hrule rule (List.mem_cons_of_mem _ hmem)
        obtain ⟨rule, rfl, hkey⟩ := exists_item (hrule text List.mem_cons_self)
        exact ⟨rule :: rules, rfl, List.forall_mem_cons.mpr ⟨hkey, hkeys⟩⟩
    obtain ⟨rules, rfl, hkeys⟩ := hrules
    refine .inr ⟨rules, rules.foldl (fun result rule => set result rule.1 rule.2) [], rfl, hkeys,
      fun key => ?_, ?_⟩
    · convert (lookup_foldl_set [] rules key).trans Option.or_none
    · rw [SubstituteAction.execute, dict_rules hkeys]

/-- Each file substituted and then all of them merged is what the merged files give when they
are substituted: it raises where they raise, and saves the same. -/
theorem merge_substitute {File : Type} (loadPList loadPList' : File → Dict (Scalar β))
    (path : List File) (h : ∀ filename ∈ path,
      interpolateDict substitutions (loadPList filename).entries =
        .ok (loadPList' filename).entries) :
    (MergeAction.execute loadPList path).map (interpolateDict substitutions) =
      (MergeAction.execute loadPList' path).map .ok := by
  have hrel : Option.Rel (List.Forall₂ (MapsEntry (interpolateScalar substitutions)))
      (MergeAction.execute loadPList path) (MergeAction.execute loadPList' path) := by
    induction path using List.reverseRecOn with
    | nil => exact .some .nil
    | append_singleton path filename ih =>
      rw [MergeAction.execute_append_singleton, MergeAction.execute_append_singleton]
      have hfile := h filename (List.mem_append_right path (List.mem_singleton_self filename))
      refine rel_bind (ih fun filename hmem => h filename (List.mem_append_left _ hmem))
        fun data data' hdata => mergePList_maps hdata ?_
      exact traverseEntries_eq_ok_iff.mp hfile
  generalize MergeAction.execute loadPList path = data at hrel ⊢
  generalize MergeAction.execute loadPList' path = data' at hrel ⊢
  cases hrel with
  | none => rfl
  | some hdata => exact congrArg some (traverseEntries_eq_ok_iff.mpr hdata)

/-- Two files with a list each, whose strings have the two kinds of reference. -/
theorem merge_substitute_lists :
    (MergeAction.execute (fun text => listAt "k" (Scalar.string (β := Nat) text))
        ["${x}".toList, "$(x)".toList]).map (interpolateDict [(['x'], ['1'])]) =
      (MergeAction.execute (fun _ => listAt "k" (Scalar.string ['1']))
        ["${x}".toList, "$(x)".toList]).map .ok :=
  merge_substitute _ _ _ <| List.forall_mem_cons.mpr ⟨rfl, List.forall_mem_cons.mpr ⟨rfl, nofun⟩⟩

end MiniChromium.PListUtil
