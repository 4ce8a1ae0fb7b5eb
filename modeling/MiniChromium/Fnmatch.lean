import Mathlib.Data.List.Infix
import Mathlib.Tactic.Common

/-!
# File name patterns

`fnmatch` compares a whole name with a pattern, where `*` stands for any characters, `?` for one
and brackets for one of a set, of those in it or of the others. A bracket that is not closed is a
character. A pattern without any of these is a name, and one with a `*` at its end is a prefix.
-/
namespace MiniChromium.Fnmatch

/-- What a set is made of. -/
inductive Item
  | char (c : Char)
  | range (low high : Char)
  deriving DecidableEq

inductive Token
  | star | any
  | literal (c : Char)
  | set (negated : Bool) (items : List Item)
  deriving DecidableEq

/-- What is between brackets, from left to right. -/
def items : List Char → List Item
  | c :: '-' :: d :: seq => .range c d :: items seq
  | c :: seq => .char c :: items seq
  | [] => []

/-- The range has something in it. -/
def Item.isOrdered : Item → Bool
  | char _ => true
  | range low high => low ≤ high

/-- A set, from what is between the brackets. Empty ranges are removed before the exclamation mark
is looked for, which may then be one that stood behind them, or one that began a range. -/
def tokenOfSet (stuff : List Char) : Token :=
  if stuff.head? = some '!' then .set true ((items stuff.tail).filter Item.isOrdered)
  else
    match (items stuff).filter Item.isOrdered with
    | .char '!' :: rest => .set true rest
    | .range '!' high :: rest => .set true (.char '-' :: .char high :: rest)
    | kept => .set false kept

/-- What follows an opening bracket up to the one that closes it, and the rest. A closing
bracket that comes first does not close. -/
def splitSet (pat : List Char) : Option (List Char × List Char) :=
  let mark := if pat.head? = some '!' then ['!'] else []
  let seq := if pat.head? = some '!' then pat.tail else pat
  let first := if seq.head? = some ']' then [']'] else []
  let inner := if seq.head? = some ']' then seq.tail else seq
  match inner.dropWhile (· ≠ ']') with
  | [] => none
  | _ :: rest => some (mark ++ first ++ inner.takeWhile (· ≠ ']'), rest)

/-- The tokens of a pattern that is no longer than the bound. -/
def tokensUpTo : ℕ → List Char → List Token
  | 0, _ => []
  | _ + 1, [] => []
  | bound + 1, c :: pat =>
    if c = '*' then .star :: tokensUpTo bound pat
    else if c = '?' then .any :: tokensUpTo bound pat
    else if c = '[' then
      match splitSet pat with
      | none => .literal '[' :: tokensUpTo bound pat
      | some (stuff, rest) => tokenOfSet stuff :: tokensUpTo bound rest
    else .literal c :: tokensUpTo bound pat

def tokens (pat : List Char) : List Token := tokensUpTo pat.length pat

def Item.accepts : Item → Char → Bool
  | char c, d => c = d
  | range low high, d => low ≤ d && d ≤ high

/-- A token other than `*` and a character. -/
def Token.accepts : Token → Char → Bool
  | .star, _ => false
  | .any, _ => true
  | .literal c, d => c = d
  | .set negated items, d => negated != items.any fun item => item.accepts d

def matchTokens : List Token → List Char → Bool
  | [], name => name.isEmpty
  | .star :: tokens, name => name.tails.any (matchTokens tokens)
  | _ :: _, [] => false
  | token :: tokens, c :: name => token.accepts c && matchTokens tokens name

/-- `fnmatch.fnmatch`, where the case of letters counts. -/
def fnmatch (name pat : List Char) : Bool := matchTokens (tokens pat) name

/-- The pattern stands for itself. -/
def IsPlain (pat : List Char) : Prop := ∀ c ∈ pat, c ≠ '*' ∧ c ≠ '?' ∧ c ≠ '['

instance (pat : List Char) : Decidable (IsPlain pat) :=
  inferInstanceAs (Decidable (∀ c ∈ pat, _))

variable {name pat rest : List Char}

theorem tokensUpTo_append (h : IsPlain pat) (bound : ℕ) (rest : List Char) :
    tokensUpTo (pat.length + bound) (pat ++ rest) = pat.map .literal ++ tokensUpTo bound rest := by
  induction pat with
  | nil => rw [List.length_nil, Nat.zero_add]; rfl
  | cons c pat ih =>
    obtain ⟨⟨hstar, hany, hset⟩, hpat⟩ := List.forall_mem_cons.mp h
    rw [List.length_cons, Nat.succ_add, List.cons_append, tokensUpTo, if_neg hstar, if_neg hany,
      if_neg hset, ih hpat, List.map_cons, List.cons_append]

theorem tokens_plain (h : IsPlain pat) : tokens pat = pat.map .literal := by
  have happend := tokensUpTo_append h 0 []
  rwa [Nat.add_zero, List.append_nil, tokensUpTo, List.append_nil] at happend

theorem tokens_plain_star (h : IsPlain pat) :
    tokens (pat ++ ['*']) = pat.map .literal ++ [.star] := by
  rw [tokens, List.length_append, List.length_singleton, tokensUpTo_append h]
  rfl

/-- Characters that stand for themselves are those at the front of the name. -/
theorem matchTokens_literals (tokens : List Token) :
    matchTokens (pat.map .literal ++ tokens) name = true ↔
      ∃ rest, name = pat ++ rest ∧ matchTokens tokens rest = true := by
  induction pat generalizing name with
  | nil => simp
  | cons c pat ih =>
    cases name with
    | nil => simp [matchTokens]
    | cons d name =>
      simp only [List.map_cons, List.cons_append, matchTokens, Token.accepts, Bool.and_eq_true,
        decide_eq_true_eq, ih, List.cons.injEq]
      constructor
      · rintro ⟨rfl, rest, rfl, hrest⟩
        exact ⟨rest, ⟨rfl, rfl⟩, hrest⟩
      · rintro ⟨rest, ⟨rfl, rfl⟩, hrest⟩
        exact ⟨rfl, rest, rfl, hrest⟩

theorem fnmatch_plain (h : IsPlain pat) : fnmatch name pat = true ↔ name = pat := by
  rw [fnmatch, tokens_plain h, ← List.append_nil (pat.map Token.literal), matchTokens_literals]
  simp [matchTokens]

theorem matchTokens_star : matchTokens [.star] rest = true := by
  rw [matchTokens, List.any_eq_true]
  exact ⟨[], (List.mem_tails _ _).mpr List.nil_suffix, rfl⟩

theorem fnmatch_star (h : IsPlain pat) : fnmatch name (pat ++ ['*']) = true ↔ pat <+: name := by
  rw [fnmatch, tokens_plain_star h, matchTokens_literals]
  exact ⟨fun ⟨rest, hname, _⟩ => ⟨rest, hname.symm⟩,
    fun ⟨rest, hname⟩ => ⟨rest, hname.symm, matchTokens_star⟩⟩

end MiniChromium.Fnmatch
