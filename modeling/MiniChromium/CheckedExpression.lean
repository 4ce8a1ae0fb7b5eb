import MiniChromium.CheckedNumeric

/-!
# Expressions of checked numbers

Expressions are built from leaves of any integer type by the overloaded operators
and the member functions, and evaluated node by node as the code does. Their
exact value is taken over unbounded integers. A valid root certifies every node
below it.
-/
namespace MiniChromium

open IntegralType MiniChromium.Num

/-- The operators that go through `MathOp`. -/
inductive CheckedArithOp
  | add | sub | mul | div | lsh | rsh
  deriving DecidableEq, Repr

namespace CheckedArithOp

variable {T U V : IntegralType}

/-- `Math::result_type`. -/
def resultType : CheckedArithOp → IntegralType → IntegralType → IntegralType
  | add, T, U | sub, T, U | mul, T, U | div, T, U => maxExponentPromotion T U
  | lsh, T, _ | rsh, T, _ => T

/-- `Math::Do`. -/
def doOp (tc : Toolchain) (V : IntegralType) (op : CheckedArithOp) (x : Num T) (y : Num U)
    (result : Num V) : Bool × Num V :=
  match op with
  | add => checkedAddOp tc V x y result
  | sub => checkedSubOp tc V x y result
  | mul => checkedMulOp tc V x y result
  | div => checkedDivOp V x y result
  | lsh => checkedLshOp V x y result
  | rsh => checkedRshOp V x y result

/-- The operator on unbounded integers, where it is defined. -/
def exact : CheckedArithOp → ℤ → ℤ → Option ℤ
  | add, a, b => some (a + b)
  | sub, a, b => some (a - b)
  | mul, a, b => some (a * b)
  | div, a, b => if b = 0 then none else some (a.tdiv b)
  | lsh, a, b => if 0 ≤ b then some (a * 2 ^ b.toNat) else none
  | rsh, a, b => if 0 ≤ b then some (a / 2 ^ b.toNat) else none

/-- Whatever an operator reports valid is exact. -/
theorem mathOp_sound (tc : Toolchain) (op : CheckedArithOp)
    (hV : V = op.resultType T U ∨ V = T) (lhs : CheckedNumeric T) (rhs : CheckedNumeric U)
    (h : (CheckedNumeric.mathOp (op.doOp tc V) lhs rhs).isValid = true) :
    (lhs.isValid = true ∧ rhs.isValid = true) ∧
      op.exact lhs.value.val rhs.value.val =
        some (CheckedNumeric.mathOp (op.doOp tc V) lhs rhs).value.val := by
  have hsound : ∀ {C : Prop} {z : ℤ}, Computes (op.doOp tc V lhs.value rhs.value 0) C z →
      (C → op.exact lhs.value.val rhs.value.val = some z) → _ := fun hc hz => by
    have hm := CheckedNumeric.mathOp_holds (op.doOp tc V) lhs rhs hc
    obtain ⟨hparts, hC⟩ := hm.valid_iff.mp h
    exact And.intro hparts ((hz hC).trans (congrArg some (hm.val_eq h).symm))
  cases op with
  | add => exact hsound (checkedAddOp_computes tc (hV.imp id .inl) _ _ _) fun _ => rfl
  | sub => exact hsound (checkedSubOp_computes tc hV _ _ _) fun _ => rfl
  | mul => exact hsound (checkedMulOp_computes tc (hV.imp id .inl) _ _ _) fun _ => rfl
  | div => exact hsound (checkedDivOp_computes hV _ _ _) fun hC => if_neg hC.1
  | lsh =>
    obtain rfl : V = T := hV.elim id id
    exact hsound (checkedLshOp_computes _ _) fun hC => if_pos hC.2.1
  | rsh =>
    obtain rfl : V = T := hV.elim id id
    exact hsound (checkedRshOp_computes _ _ _) fun hC => if_pos hC.1

end CheckedArithOp

/-- Expressions over checked numbers. The flag of a negation or absolute value is
`MustTreatAsConstexpr`, which the compiler decides at each place. -/
inductive CheckedExpr : IntegralType → Type
  | num {Src : IntegralType} (T : IntegralType) (value : Num Src) : CheckedExpr T
  | cast {T : IntegralType} (Dst : IntegralType) (e : CheckedExpr T) : CheckedExpr Dst
  | neg {T : IntegralType} (mustTreatAsConstexpr : Bool) (signed : T.isSigned = true)
      (e : CheckedExpr T) : CheckedExpr T
  | abs {T : IntegralType} (mustTreatAsConstexpr : Bool) (signed : T.isSigned = true)
      (e : CheckedExpr T) : CheckedExpr T
  | binary {T U : IntegralType} (op : CheckedArithOp) (l : CheckedExpr T) (r : CheckedExpr U) :
      CheckedExpr (op.resultType T U)
  | assign {T U : IntegralType} (op : CheckedArithOp) (l : CheckedExpr T) (r : CheckedExpr U) :
      CheckedExpr T
  | max {T U : IntegralType} (l : CheckedExpr T) (r : CheckedExpr U) :
      CheckedExpr (maxExponentPromotion T U)
  | min {T U : IntegralType} (l : CheckedExpr T) (r : CheckedExpr U) :
      CheckedExpr (lowestValuePromotion T U)
  | checkMax {T U : IntegralType} (l : CheckedExpr T) (r : CheckedExpr U) :
      CheckedExpr (maxExponentPromotion T U)
  | checkMin {T U : IntegralType} (l : CheckedExpr T) (r : CheckedExpr U) :
      CheckedExpr (lowestValuePromotion T U)

namespace CheckedExpr

variable {T : IntegralType}

/-- The checked number that the expression evaluates to. -/
def eval (tc : Toolchain) : {T : IntegralType} → CheckedExpr T → CheckedNumeric T
  | T, num _ value => CheckedNumeric.ofNum T value
  | _, cast Dst e => (e.eval tc).cast Dst
  | _, neg flag _ e => (e.eval tc).neg tc flag
  | _, abs flag _ e => (e.eval tc).abs tc flag
  | _, binary op l r => CheckedNumeric.mathOp (op.doOp tc _) (l.eval tc) (r.eval tc)
  | T, assign op l r => CheckedNumeric.mathOp (op.doOp tc T) (l.eval tc) (r.eval tc)
  | _, max l r => (l.eval tc).max (r.eval tc)
  | _, min l r => (l.eval tc).min (r.eval tc)
  | _, checkMax l r => CheckedNumeric.mathOp (checkedMaxOp _) (l.eval tc) (r.eval tc)
  | _, checkMin l r => CheckedNumeric.mathOp (checkedMinOp _) (l.eval tc) (r.eval tc)

/-- The value over unbounded integers; a division by zero or a negative shift has
none. -/
def exact : {T : IntegralType} → CheckedExpr T → Option ℤ
  | _, num _ value => some value.val
  | _, cast _ e => e.exact
  | _, neg _ _ e => e.exact.map fun a => -a
  | _, abs _ _ e => e.exact.map fun a => |a|
  | _, binary op l r => l.exact.bind fun a => r.exact.bind fun b => op.exact a b
  | _, assign op l r => l.exact.bind fun a => r.exact.bind fun b => op.exact a b
  | _, max l r => l.exact.bind fun a => r.exact.map fun b => Max.max a b
  | _, min l r => l.exact.bind fun a => r.exact.map fun b => Min.min a b
  | _, checkMax l r => l.exact.bind fun a => r.exact.map fun b => Max.max a b
  | _, checkMin l r => l.exact.bind fun a => r.exact.map fun b => Min.min a b

/-- The expression itself and all of its sub-expressions. -/
def subexpressions : {T : IntegralType} → CheckedExpr T → List ((T : IntegralType) × CheckedExpr T)
  | T, num _ value => [⟨T, num T value⟩]
  | _, cast Dst e => ⟨_, cast Dst e⟩ :: e.subexpressions
  | _, neg flag signed e => ⟨_, neg flag signed e⟩ :: e.subexpressions
  | _, abs flag signed e => ⟨_, abs flag signed e⟩ :: e.subexpressions
  | _, binary op l r => ⟨_, binary op l r⟩ :: (l.subexpressions ++ r.subexpressions)
  | _, assign op l r => ⟨_, assign op l r⟩ :: (l.subexpressions ++ r.subexpressions)
  | _, max l r => ⟨_, max l r⟩ :: (l.subexpressions ++ r.subexpressions)
  | _, min l r => ⟨_, min l r⟩ :: (l.subexpressions ++ r.subexpressions)
  | _, checkMax l r => ⟨_, checkMax l r⟩ :: (l.subexpressions ++ r.subexpressions)
  | _, checkMin l r => ⟨_, checkMin l r⟩ :: (l.subexpressions ++ r.subexpressions)

/-- What a valid root stands for. -/
def Certified (tc : Toolchain) (e : CheckedExpr T) : Prop :=
  (e.eval tc).isValid = true →
    (∀ s ∈ e.subexpressions, (s.2.eval tc).isValid = true) ∧
      e.exact = some (e.eval tc).value.val

theorem Certified.unary {tc : Toolchain} {T U : IntegralType} {e : CheckedExpr T}
    {node : CheckedExpr U} (ih : e.Certified tc) (f : ℤ → ℤ)
    (hsub : node.subexpressions = ⟨_, node⟩ :: e.subexpressions)
    (hexact : node.exact = e.exact.map f) {C : Prop}
    (hh : (node.eval tc).Holds ((e.eval tc).isValid = true ∧ C) (f (e.eval tc).value.val)) :
    node.Certified tc := by
  intro h
  obtain ⟨hparts, hz⟩ := ih (hh.valid_iff.mp h).1
  constructor
  · intro s hs
    rw [hsub, List.mem_cons] at hs
    rcases hs with rfl | hs
    · exact h
    · exact hparts s hs
  · rw [hexact, hz, hh.val_eq h, Option.map_some]

theorem Certified.node {tc : Toolchain} {T U V : IntegralType} {l : CheckedExpr T}
    {r : CheckedExpr U} {node : CheckedExpr V} (ihl : l.Certified tc) (ihr : r.Certified tc)
    (hsub : node.subexpressions = ⟨_, node⟩ :: (l.subexpressions ++ r.subexpressions))
    (hvalid : (node.eval tc).isValid = true →
      ((l.eval tc).isValid = true ∧ (r.eval tc).isValid = true) ∧
        (l.exact = some (l.eval tc).value.val → r.exact = some (r.eval tc).value.val →
          node.exact = some (node.eval tc).value.val)) : node.Certified tc := by
  intro h
  obtain ⟨⟨hl, hr⟩, hexact⟩ := hvalid h
  obtain ⟨hlparts, hlz⟩ := ihl hl
  obtain ⟨hrparts, hrz⟩ := ihr hr
  refine ⟨fun s hs => ?_, hexact hlz hrz⟩
  rw [hsub, List.mem_cons, List.mem_append] at hs
  rcases hs with rfl | hs | hs
  · exact h
  · exact hlparts s hs
  · exact hrparts s hs

/-- A node for a maximum or a minimum is valid when its operands are. -/
theorem Certified.extremum {tc : Toolchain} {T U V : IntegralType} {l : CheckedExpr T}
    {r : CheckedExpr U} {node : CheckedExpr V} (ihl : l.Certified tc) (ihr : r.Certified tc)
    (f : ℤ → ℤ → ℤ)
    (hsub : node.subexpressions = ⟨_, node⟩ :: (l.subexpressions ++ r.subexpressions))
    (hexact : node.exact = l.exact.bind fun a => r.exact.map fun b => f a b) {C : Prop}
    (hh : (node.eval tc).Holds (((l.eval tc).isValid = true ∧ (r.eval tc).isValid = true) ∧ C)
      (f (l.eval tc).value.val (r.eval tc).value.val)) : node.Certified tc := by
  refine ihl.node ihr hsub fun h => ⟨(hh.valid_iff.mp h).1, fun hl hr => ?_⟩
  rw [hexact, hl, hr, hh.val_eq h]
  rfl

/-- Induction over the expression: every operator reports valid only what is exact. -/
theorem certified (tc : Toolchain) (e : CheckedExpr T) : e.Certified tc := by
  induction e with
  | num T value =>
    intro h
    have hin : T.InRange value.val := by
      rwa [eval, CheckedNumeric.isValid_eq, CheckedNumeric.ofNum, isValueInRange_iff] at h
    refine ⟨fun s hs => ?_, congrArg some (staticCast_of_inRange hin).symm⟩
    obtain rfl := List.mem_singleton.mp hs
    exact h
  | cast Dst e ih => exact ih.unary id rfl (by simp [exact]) (CheckedNumeric.cast_holds Dst _)
  | neg flag signed e ih => exact ih.unary _ rfl rfl (CheckedNumeric.neg_holds tc flag _ signed)
  | abs flag signed e ih => exact ih.unary _ rfl rfl (CheckedNumeric.abs_holds tc flag _ signed)
  | binary op l r ihl ihr =>
    refine ihl.node ihr rfl fun h => ?_
    obtain ⟨hparts, hz⟩ := op.mathOp_sound tc (.inl rfl) _ _ h
    exact ⟨hparts, fun hl hr => by rw [exact, hl, hr]; exact hz⟩
  | assign op l r ihl ihr =>
    refine ihl.node ihr rfl fun h => ?_
    obtain ⟨hparts, hz⟩ := op.mathOp_sound tc (.inr rfl) _ _ h
    exact ⟨hparts, fun hl hr => by rw [exact, hl, hr]; exact hz⟩
  | max l r ihl ihr =>
    exact ihl.extremum ihr _ rfl rfl
      ((CheckedNumeric.max_holds _ _).congr_left (and_iff_left trivial).symm)
  | min l r ihl ihr =>
    exact ihl.extremum ihr _ rfl rfl
      ((CheckedNumeric.min_holds _ _).congr_left (and_iff_left trivial).symm)
  | checkMax l r ihl ihr =>
    exact ihl.extremum ihr _ rfl rfl
      (CheckedNumeric.mathOp_holds _ _ _ (checkedMaxOp_computes _ _ _))
  | checkMin l r ihl ihr =>
    exact ihl.extremum ihr _ rfl rfl
      (CheckedNumeric.mathOp_holds _ _ _ (checkedMinOp_computes _ _ _))

/-- Soundness of checked arithmetic: a valid root has only valid sub-results and
holds the exact value, and an invalid sub-result makes the root invalid. -/
theorem checkedExpr_sound (tc : Toolchain) (e : CheckedExpr T) :
    ((e.eval tc).isValid = true →
      (∀ s ∈ e.subexpressions, (s.2.eval tc).isValid = true) ∧
        e.exact = some (e.eval tc).value.val) ∧
    ∀ s ∈ e.subexpressions, (s.2.eval tc).isValid = false → (e.eval tc).isValid = false := by
  refine ⟨certified tc e, fun s hs hf => ?_⟩
  by_contra hroot
  have ht := (certified tc e (Bool.not_eq_false _ ▸ hroot)).1 s hs
  rw [hf] at ht
  exact Bool.false_ne_true ht

/-- The product of a shifted sum and a quotient, of four types, shrunk to a fifth. -/
def mixed : CheckedExpr .int16 :=
  .cast .int16 (.binary .mul
    (.binary .rsh (.binary .add (.num .int8 (staticCast .int8 (-5)))
      (.num .uint8 (staticCast .uint8 200))) (.num .uint8 (staticCast .uint8 1)))
    (.assign .div (.num .int64 (staticCast .int64 (-41))) (.num .uint32 (staticCast .uint32 2))))

/-- A valid root, of which every part is valid. -/
theorem checkedExpr_sound_mixed :
    (mixed.eval .other).isValid = true ∧
      (∀ s ∈ mixed.subexpressions, (s.2.eval .other).isValid = true) ∧
      mixed.exact = some (-1940) ∧ (mixed.eval .other).value.val = -1940 := by
  have hvalid : (mixed.eval .other).isValid = true := by decide
  obtain ⟨hparts, hexact⟩ := (checkedExpr_sound .other mixed).1 hvalid
  exact ⟨hvalid, hparts, rfl, Option.some_inj.mp hexact.symm⟩

end CheckedExpr

end MiniChromium
