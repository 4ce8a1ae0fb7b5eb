import MiniChromium.CheckedExpression
import MiniChromium.PortableArithmetic

/-!
# Chains of checked operations

`CheckAdd`, `CheckSub` and `CheckMul` take any number of operands of any types and work from
the left, each partial result in the type of its own pair of operands. The operators on
pointers are such chains over the address, and die where the chain is not valid.
-/
namespace MiniChromium

open IntegralType MiniChromium.Num

variable {T U V : IntegralType}

namespace CheckedNumeric

/-- `ValueOrDie<Dst>`, with no result where the `CHECK` fails. -/
def valueOrDie (Dst : IntegralType) (c : CheckedNumeric T) : Option (Num Dst) :=
  if c.isValidFor Dst then some (staticCast Dst c.value.val) else none

theorem isValidFor_iff (Dst : IntegralType) (c : CheckedNumeric T) :
    c.isValidFor Dst = true ↔ c.isValid = true ∧ Dst.InRange c.value.val := by
  rw [isValidFor, Bool.and_eq_true, isValueInRange_iff, isValid_eq]

/-- The accessor yields the integer that a number holds, where it is in range. -/
theorem Holds.valueOrDie_eq {c : CheckedNumeric T} {C : Prop} {z : ℤ} [Decidable C]
    (h : c.Holds C z) (Dst : IntegralType) :
    (c.valueOrDie Dst).map Num.val = if C ∧ Dst.InRange z then some z else none := by
  have hvalid : c.isValidFor Dst = true ↔ C ∧ Dst.InRange z := by
    rw [isValidFor_iff, h.valid_iff]
    exact and_congr_right fun hC => by rw [h.val_eq (h.valid_iff.mpr hC)]
  unfold valueOrDie
  by_cases hC : C ∧ Dst.InRange z
  · rw [if_pos (hvalid.mpr hC), if_pos hC, Option.map_some,
      h.val_eq (h.valid_iff.mpr hC.1), staticCast_of_inRange hC.2]
  · rw [if_neg (mt hvalid.mp hC), if_neg hC, Option.map_none]

end CheckedNumeric

/-- The operations whose chains are characterised here. -/
inductive ChainOp
  | add | sub | mul
  deriving DecidableEq

/-- A negative integer beside a 64-bit unsigned one. -/
def MixedSigns (T U : IntegralType) (a b : ℤ) : Prop :=
  (T.isSigned = true ∧ U = .uint64 ∧ a < 0) ∨ (T = .uint64 ∧ U.isSigned = true ∧ b < 0)

namespace ChainOp

def arithOp : ChainOp → CheckedArithOp
  | add => .add
  | sub => .sub
  | mul => .mul

/-- The operation on unbounded integers. -/
def exact : ChainOp → ℤ → ℤ → ℤ
  | add => (· + ·)
  | sub => (· - ·)
  | mul => (· * ·)

/-- The operands that the portable path does not give up on; the builtins take all. -/
def Accepts (tc : Toolchain) (op : ChainOp) (T U : IntegralType) (a b : ℤ) : Prop :=
  match op with
  | add => tc.checkedAddFastOpIsSupported = true ∨ ¬MixedSigns T U a b
  | sub => tc.checkedSubFastOpIsSupported = true ∨ ¬MixedSigns T U a b
  | mul => tc.checkedMulFastOpIsSupported T U = true ∨ ¬(MixedSigns T U a b ∧ a ≠ 0 ∧ b ≠ 0)

/-- One operation is valid where the operands are accepted and the exact result fits. -/
theorem computes (tc : Toolchain) (op : ChainOp) (x : Num T) (y : Num U) :
    Computes (op.arithOp.doOp tc (op.arithOp.resultType T U) x y 0)
      (op.Accepts tc T U x.val y.val ∧
        (op.arithOp.resultType T U).InRange (op.exact x.val y.val)) (op.exact x.val y.val) := by
  have hfit := operandsFit_iff_not_mixed (P := fastIntegerArithmeticPromotion T U) x y (.inl rfl)
  cases op with
  | add =>
    refine (checkedAddOp_computes tc (.inl rfl) x y 0).congr_left ?_
    rw [wordPromotion_eq, hfit]
    rfl
  | sub =>
    refine (checkedSubOp_computes tc (.inl rfl) x y 0).congr_left ?_
    refine and_congr_left fun hz => or_congr_right ?_
    refine (fit_difference_iff (.inl rfl) x y hz).trans (not_congr ?_)
    -- Beside a 64-bit unsigned operand the result is not below zero.
    have hunsigned : U = .uint64 → y.val ≤ x.val := by
      intro hU
      subst hU
      have hlowest : ∀ T, (maxExponentPromotion T .uint64).lowest = 0 := by decide
      have hz0 := hz.1
      rw [hlowest T] at hz0
      omega
    unfold MixedSignDifference MixedSigns
    refine or_congr_left (and_congr_right fun _ => and_congr_right fun hU => ?_)
    have hy := hunsigned hU
    subst hU
    have hy0 := y.nonneg rfl
    omega
  | mul =>
    refine (checkedMulOp_computes tc (.inl rfl) x y 0).congr_left ?_
    rw [hfit]
    refine and_congr_left fun _ => or_congr_right ?_
    unfold MixedSignWord MixedSigns
    tauto

end ChainOp

/-- An operand of a chain, with its type. -/
abbrev Operand := (U : IntegralType) × CheckedNumeric U

/-- `CheckMathOp`, from its first operand on. -/
def checkMathOp (tc : Toolchain) (op : CheckedArithOp) :
    {T : IntegralType} → CheckedNumeric T → List Operand → Operand
  | T, lhs, [] => ⟨T, lhs⟩
  | T, lhs, rhs :: args =>
    checkMathOp tc op (CheckedNumeric.mathOp (op.doOp tc (op.resultType T rhs.1)) lhs rhs.2) args

/-- Every operation of the chain accepts its operands, and its exact result is in range of the
type that it is computed in. -/
def PartialsFit (tc : Toolchain) (op : ChainOp) : IntegralType → ℤ → List Operand → Prop
  | _, _, [] => True
  | T, a, rhs :: args =>
    (op.Accepts tc T rhs.1 a rhs.2.value.val ∧
      (op.arithOp.resultType T rhs.1).InRange (op.exact a rhs.2.value.val)) ∧
    PartialsFit tc op (op.arithOp.resultType T rhs.1) (op.exact a rhs.2.value.val) args

/-- The result of the chain over unbounded integers. -/
def ChainOp.exactChain (op : ChainOp) (a : ℤ) (args : List Operand) : ℤ :=
  args.foldl (fun a rhs => op.exact a rhs.2.value.val) a

/-- A chain is valid exactly when its operands are, they are accepted and every partial result
fits, on every toolchain and for every mixture of types, and then it holds the exact result. -/
theorem chain_holds (tc : Toolchain) (op : ChainOp) (lhs : CheckedNumeric T)
    (args : List Operand) :
    (checkMathOp tc op.arithOp lhs args).2.Holds
      (lhs.isValid = true ∧ (∀ rhs ∈ args, rhs.2.isValid = true) ∧
        PartialsFit tc op T lhs.value.val args)
      (op.exactChain lhs.value.val args) := by
  induction args generalizing T with
  | nil => exact ⟨by simp [checkMathOp, PartialsFit], fun _ => rfl⟩
  | cons rhs args ih =>
    have hstep := CheckedNumeric.mathOp_holds _ lhs rhs.2 (op.computes tc lhs.value rhs.2.value)
    set partialResult := CheckedNumeric.mathOp
      (op.arithOp.doOp tc (op.arithOp.resultType T rhs.1)) lhs rhs.2 with hpartial
    have hrest := ih partialResult
    have hchain : checkMathOp tc op.arithOp lhs (rhs :: args) =
        checkMathOp tc op.arithOp partialResult args := rfl
    rw [hchain]
    by_cases hvalid : partialResult.isValid = true
    · have hval := hstep.val_eq hvalid
      obtain ⟨⟨hlhs, hrhs⟩, hfits⟩ := hstep.valid_iff.mp hvalid
      rw [hval] at hrest
      refine hrest.congr_left ?_
      simp only [hvalid, hlhs, hrhs, PartialsFit, hfits, List.forall_mem_cons, true_and]
    · have hinvalid := mt hrest.valid_iff.mp fun h => hvalid h.1
      refine ⟨iff_of_false hinvalid fun h => hvalid (hstep.valid_iff.mpr ?_), fun h =>
        absurd h hinvalid⟩
      obtain ⟨hlhs, hargs, hfits⟩ := h
      exact ⟨⟨hlhs, hargs rhs List.mem_cons_self⟩, hfits.1⟩

def checkAdd (tc : Toolchain) (lhs : CheckedNumeric T) (rhs : Operand) (args : List Operand) :
    Operand :=
  checkMathOp tc .add lhs (rhs :: args)

def checkSub (tc : Toolchain) (lhs : CheckedNumeric T) (rhs : Operand) (args : List Operand) :
    Operand :=
  checkMathOp tc .sub lhs (rhs :: args)

def checkMul (tc : Toolchain) (lhs : CheckedNumeric T) (rhs : Operand) (args : List Operand) :
    Operand :=
  checkMathOp tc .mul lhs (rhs :: args)

/-- The integers of the operands. -/
def values (args : List Operand) : List ℤ := args.map fun rhs => rhs.2.value.val

@[simp] theorem values_cons (rhs : Operand) (args : List Operand) :
    values (rhs :: args) = rhs.2.value.val :: values args := rfl

theorem exactChain_add (a : ℤ) (args : List Operand) :
    ChainOp.add.exactChain a args = a + (values args).sum := by
  induction args generalizing a with
  | nil => simp [ChainOp.exactChain, values]
  | cons rhs args ih =>
    have hstep : ChainOp.add.exactChain a (rhs :: args) =
        ChainOp.add.exactChain (a + rhs.2.value.val) args := rfl
    rw [hstep, ih, values_cons, List.sum_cons, add_assoc]

theorem exactChain_sub (a : ℤ) (args : List Operand) :
    ChainOp.sub.exactChain a args = a - (values args).sum := by
  induction args generalizing a with
  | nil => simp [ChainOp.exactChain, values]
  | cons rhs args ih =>
    have hstep : ChainOp.sub.exactChain a (rhs :: args) =
        ChainOp.sub.exactChain (a - rhs.2.value.val) args := rfl
    rw [hstep, ih, values_cons, List.sum_cons, sub_sub]

theorem exactChain_mul (a : ℤ) (args : List Operand) :
    ChainOp.mul.exactChain a args = a * (values args).prod := by
  induction args generalizing a with
  | nil => simp [ChainOp.exactChain, values]
  | cons rhs args ih =>
    have hstep : ChainOp.mul.exactChain a (rhs :: args) =
        ChainOp.mul.exactChain (a * rhs.2.value.val) args := rfl
    rw [hstep, ih, values_cons, List.prod_cons, mul_assoc]

/-- The variadic functions, for any number of operands of any types and on every toolchain:
the result is valid exactly when the operands are, each operation accepts its operands and no
partial result leaves its type, and then it is the exact sum, difference or product. -/
theorem variadics_exact (tc : Toolchain) (lhs : CheckedNumeric T) (rhs : Operand)
    (args : List Operand) :
    (checkAdd tc lhs rhs args).2.Holds
      (lhs.isValid = true ∧ (∀ arg ∈ rhs :: args, arg.2.isValid = true) ∧
        PartialsFit tc .add T lhs.value.val (rhs :: args))
      (lhs.value.val + (values (rhs :: args)).sum) ∧
    (checkSub tc lhs rhs args).2.Holds
      (lhs.isValid = true ∧ (∀ arg ∈ rhs :: args, arg.2.isValid = true) ∧
        PartialsFit tc .sub T lhs.value.val (rhs :: args))
      (lhs.value.val - (values (rhs :: args)).sum) ∧
    (checkMul tc lhs rhs args).2.Holds
      (lhs.isValid = true ∧ (∀ arg ∈ rhs :: args, arg.2.isValid = true) ∧
        PartialsFit tc .mul T lhs.value.val (rhs :: args))
      (lhs.value.val * (values (rhs :: args)).prod) := by
  rw [← exactChain_add, ← exactChain_sub, ← exactChain_mul]
  exact ⟨chain_holds tc .add lhs _, chain_holds tc .sub lhs _, chain_holds tc .mul lhs _⟩

theorem values_sum_nonneg (hT : T.isSigned = false) {args : List Operand}
    (hargs : ∀ rhs ∈ args, rhs.1 = T) : 0 ≤ (values args).sum := by
  refine List.sum_nonneg fun z hz => ?_
  obtain ⟨rhs, hmem, rfl⟩ := List.mem_map.mp hz
  exact rhs.2.value.nonneg (hargs rhs hmem ▸ hT)

theorem resultType_add_self (T : IntegralType) : ChainOp.add.arithOp.resultType T T = T := by
  simp [ChainOp.arithOp, CheckedArithOp.resultType, maxExponentPromotion]

/-- Within one unsigned type the partial sums only grow, so that only the last one matters. -/
theorem partialsFit_add_iff (tc : Toolchain) (hT : T.isSigned = false) {a : ℤ} (ha : T.InRange a)
    {args : List Operand} (hargs : ∀ rhs ∈ args, rhs.1 = T) :
    PartialsFit tc .add T a args ↔ a + (values args).sum ≤ T.max := by
  induction args generalizing a with
  | nil => exact iff_of_true trivial (by simpa [values] using ha.2)
  | cons rhs args ih =>
    obtain ⟨U, rhs⟩ := rhs
    have hU : U = T := hargs _ List.mem_cons_self
    subst hU
    have htail : ∀ rhs ∈ args, rhs.1 = U := fun rhs h => hargs rhs (List.mem_cons_of_mem _ h)
    have haccepts : ChainOp.add.Accepts tc U U a rhs.value.val := .inr (by simp [MixedSigns, hT])
    have h0 := lowest_of_unsigned hT
    have hrhs := rhs.value.nonneg hT
    have hrest := values_sum_nonneg hT htail
    have hal := ha.1
    simp only [PartialsFit, resultType_add_self, haccepts, true_and, values_cons, List.sum_cons,
      ← add_assoc]
    by_cases hin : U.InRange (a + rhs.value.val)
    · rw [← ih hin htail]
      exact and_iff_right hin
    · refine iff_of_false (fun h => hin h.1) fun h => hin ⟨?_, ?_⟩ <;> omega

/-- `CheckAdd` of numbers of one unsigned type, such as sizes: on every toolchain it is valid
exactly when the numbers are and their total fits, so that their order does not matter. -/
theorem checkAdd_unsigned (tc : Toolchain) (hT : T.isSigned = false) (lhs : CheckedNumeric T)
    (rhs : Operand) (args : List Operand) (hargs : ∀ arg ∈ rhs :: args, arg.1 = T) :
    (checkAdd tc lhs rhs args).2.Holds
      (lhs.isValid = true ∧ (∀ arg ∈ rhs :: args, arg.2.isValid = true) ∧
        lhs.value.val + (values (rhs :: args)).sum ≤ T.max)
      (lhs.value.val + (values (rhs :: args)).sum) := by
  have hchain := chain_holds tc .add lhs (rhs :: args)
  rw [exactChain_add, partialsFit_add_iff tc hT lhs.value.inRange hargs] at hchain
  exact hchain

/-- The hypotheses hold of three bytes whose total does not fit. -/
theorem checkAdd_unsigned_uint8 :
    (checkAdd .other (CheckedNumeric.ofNum .uint8 (maxValue .uint8))
      ⟨.uint8, CheckedNumeric.ofNum .uint8 (0 : Num .uint8)⟩
      [⟨.uint8, CheckedNumeric.ofNum .uint8 (maxValue .uint8)⟩]).2.isValid = false := by
  have hsum := checkAdd_unsigned .other rfl (CheckedNumeric.ofNum .uint8 (maxValue .uint8))
    ⟨.uint8, CheckedNumeric.ofNum .uint8 (0 : Num .uint8)⟩
    [⟨.uint8, CheckedNumeric.ofNum .uint8 (maxValue .uint8)⟩] (by simp)
  exact Bool.eq_false_iff.mpr (mt hsum.valid_iff.mp (by decide))

/-- The operators `+` and `-` of an `L*` and a `StrictNumeric<R>`; `size` is `sizeof(L)`. An
address is a `uintptr_t`. -/
def pointerOp (tc : Toolchain) (op : ChainOp) (size lhs : Num .uint64) {R : IntegralType}
    (rhs : Num R) : Option (Num .uint64) :=
  let offset := checkMul tc (CheckedNumeric.ofNum .uint64 size) ⟨R, CheckedNumeric.ofNum R rhs⟩ []
  (checkMathOp tc op.arithOp (CheckedNumeric.ofNum .uint64 lhs) [offset]).2.valueOrDie .uint64

def pointerPlus (tc : Toolchain) (size lhs : Num .uint64) {R : IntegralType} (rhs : Num R) :
    Option (Num .uint64) :=
  pointerOp tc .add size lhs rhs

def pointerMinus (tc : Toolchain) (size lhs : Num .uint64) {R : IntegralType} (rhs : Num R) :
    Option (Num .uint64) :=
  pointerOp tc .sub size lhs rhs

theorem CheckedNumeric.ofNum_self (x : Num T) :
    (CheckedNumeric.ofNum T x).isValid = true ∧ (CheckedNumeric.ofNum T x).value = x := by
  simp [CheckedNumeric.ofNum, x.inRange]

theorem resultType_uint64 (op : ChainOp) (R : IntegralType) :
    op.arithOp.resultType .uint64 R = .uint64 := by
  cases op <;> cases R <;> rfl

/-- The offset is valid where it is an exact `uint64_t`. -/
theorem offset_holds (tc : Toolchain) (size : Num .uint64) {R : IntegralType} (rhs : Num R) :
    (checkMul tc (CheckedNumeric.ofNum .uint64 size) ⟨R, CheckedNumeric.ofNum R rhs⟩ []).2.Holds
      (uint64.InRange (size.val * rhs.val)) (size.val * rhs.val) := by
  have hchain := chain_holds tc .mul (CheckedNumeric.ofNum .uint64 size)
    [⟨R, CheckedNumeric.ofNum R rhs⟩]
  obtain ⟨hsize, hsize'⟩ := CheckedNumeric.ofNum_self size
  obtain ⟨hrhs, hrhs'⟩ := CheckedNumeric.ofNum_self rhs
  simp only [hsize, hsize', hrhs, hrhs', List.forall_mem_singleton, true_and, PartialsFit, and_true,
    resultType_uint64, ChainOp.exactChain, List.foldl_cons, List.foldl_nil] at hchain
  refine hchain.congr_left (and_iff_right_of_imp fun hin => .inr ?_)
  rintro ⟨hmixed, hne, -⟩
  obtain ⟨h, -⟩ | ⟨-, -, hneg⟩ := hmixed
  · exact absurd h (by decide)
  · have hpos : 0 < size.val := lt_of_le_of_ne (size.nonneg rfl) hne.symm
    have hprod : size.val * rhs.val < 0 := mul_neg_of_pos_of_neg hpos hneg
    exact absurd hin.1 (not_le.mpr hprod)

/-- An operand of a type of its own, with what it holds, beside an address. -/
theorem addressOp_holds (tc : Toolchain) (op : ChainOp) (hop : op ≠ .mul) (lhs : Num .uint64)
    {offset : Operand} (htype : offset.1 = .uint64) {C : Prop} {z : ℤ} (h : offset.2.Holds C z) :
    (checkMathOp tc op.arithOp (CheckedNumeric.ofNum .uint64 lhs) [offset]).2.Holds
      (C ∧ uint64.InRange (op.exact lhs.val z)) (op.exact lhs.val z) := by
  have hchain := chain_holds tc op (CheckedNumeric.ofNum .uint64 lhs) [offset]
  obtain ⟨hlhs, hlhs'⟩ := CheckedNumeric.ofNum_self lhs
  have haccepts : op.Accepts tc .uint64 offset.1 lhs.val offset.2.value.val := by
    have hmixed : ¬MixedSigns .uint64 offset.1 lhs.val offset.2.value.val := by
      rintro (⟨h, -⟩ | ⟨-, h, -⟩)
      · exact absurd h (by decide)
      · rw [htype] at h
        exact absurd h (by decide)
    cases op with
    | add | sub => exact .inr hmixed
    | mul => exact absurd rfl hop
  simp only [hlhs, hlhs', List.forall_mem_singleton, true_and, PartialsFit, and_true, haccepts,
    resultType_uint64, ChainOp.exactChain, List.foldl_cons, List.foldl_nil] at hchain
  by_cases hvalid : offset.2.isValid = true
  · rw [h.val_eq hvalid] at hchain
    exact hchain.congr_left (and_congr_left' h.valid_iff)
  · have hinvalid := mt hchain.valid_iff.mp fun h => hvalid h.1
    refine ⟨iff_of_false hinvalid fun hC => hvalid (h.valid_iff.mpr hC.1), fun hv =>
      absurd hv hinvalid⟩

theorem pointerOp_eq (tc : Toolchain) (op : ChainOp) (hop : op ≠ .mul) (size lhs : Num .uint64)
    {R : IntegralType} (rhs : Num R) :
    (pointerOp tc op size lhs rhs).map Num.val =
      if uint64.InRange (size.val * rhs.val) ∧
          uint64.InRange (op.exact lhs.val (size.val * rhs.val)) then
        some (op.exact lhs.val (size.val * rhs.val))
      else none := by
  have htype : (checkMul tc (CheckedNumeric.ofNum .uint64 size)
      ⟨R, CheckedNumeric.ofNum R rhs⟩ []).1 = .uint64 := resultType_uint64 .mul R
  have hresult := addressOp_holds tc op hop lhs htype (offset_holds tc size rhs)
  rw [pointerOp, hresult.valueOrDie_eq .uint64]
  simp only [and_assoc, and_self]

/-- The addresses that are reached; neither operator wraps. -/
theorem pointerOp_eq_some_iff (tc : Toolchain) (op : ChainOp) (hop : op ≠ .mul)
    (size lhs : Num .uint64) {R : IntegralType} (rhs : Num R) (result : Num .uint64) :
    pointerOp tc op size lhs rhs = some result ↔
      uint64.InRange (size.val * rhs.val) ∧
        result.val = op.exact lhs.val (size.val * rhs.val) := by
  have heq := pointerOp_eq tc op hop size lhs rhs
  have hresult := result.inRange
  constructor
  · intro h
    rw [h, Option.map_some] at heq
    split_ifs at heq with hin
    exact ⟨hin.1, Option.some.inj heq⟩
  · rintro ⟨hin, hval⟩
    rw [← hval, if_pos ⟨hin, hresult⟩] at heq
    obtain ⟨r, hr, hrval⟩ := Option.map_eq_some_iff.mp heq
    rw [hr, Num.ext hrval]

end MiniChromium
