import MiniChromium.Backtracking

/-!
# Interpolating variable references

`InterpolateString` replaces references like ${NAME} and $(NAME:modifier) by values. One regular
expression for each of the two forms goes over the text, the second over what the first has left.
-/
namespace MiniChromium.PListUtil

open Backtracking

abbrev Text := List Char

section Code

/-- The names of the groups. -/
inductive Group
  | id | modifier
  deriving DecidableEq

/-- The white space of Unicode. -/
def isSpace (c : Char) : Bool :=
  let n := c.toNat
  (0x09 ≤ n && n ≤ 0x0D) || (0x1C ≤ n && n ≤ 0x20) || n = 0x85 || n = 0xA0 || n = 0x1680 ||
    (0x2000 ≤ n && n ≤ 0x200A) || n = 0x2028 || n = 0x2029 || n = 0x202F || n = 0x205F || n = 0x3000

/-- `INVALID_CHARACTER_REGEXP`. -/
def invalidCharacterRegexp : Regex Char Group := .char fun c => c = '_' || c = '/' || isSpace c

/-- `[^}]`. -/
def notBrace (c : Char) : Bool := c ≠ '}'

/-- `(?P<modifier>:[^}]*)`. -/
def modifierRegexp : Regex Char Group := .group .modifier (.seq (.char (· = ':')) (.star notBrace))

/-- The modifier, if there is one, and the closing bracket. -/
def closingRegexp (closing : Char) : Regex Char Group :=
  .seq (.opt modifierRegexp) (.char (· = closing))

/-- A reference between brackets. Both expressions have `[^}]` within. -/
def referenceRegexp (opening closing : Char) : Regex Char Group :=
  .seq (.char (· = '$')) (.seq (.char (· = opening))
    (.seq (.group .id (.lazyStar notBrace)) (closingRegexp closing)))

/-- `SUBSTITUTION_REGEXP_LIST`. -/
def substitutionRegexpList : List (Regex Char Group) :=
  [referenceRegexp '{' '}', referenceRegexp '(' ')']

structure SubstitutionError where
  key : Text

/-- `repl`. -/
def repl (substitutions : List (Text × Text)) (groups : List (Group × Text)) :
    Except SubstitutionError Text :=
  let id := (groups.lookup .id).getD []
  let modifier := groups.lookup .modifier
  match substitutions.lookup id with
  | none => .error ⟨id⟩
  | some value =>
    if modifier = some [':', 'i', 'd', 'e', 'n', 't', 'i', 'f', 'i', 'e', 'r'] then
      substitute invalidCharacterRegexp (fun _ => .ok ['_']) value
    else if modifier =
        some [':', 'r', 'f', 'c', '1', '0', '3', '4', 'i', 'd', 'e', 'n', 't', 'i', 'f', 'i', 'e',
          'r'] then
      substitute invalidCharacterRegexp (fun _ => .ok ['-']) value
    else .ok value

/-- `InterpolateString`. -/
def interpolateString (value : Text) (substitutions : List (Text × Text)) :
    Except SubstitutionError Text :=
  substitutionRegexpList.foldlM (fun value regexp => substitute regexp (repl substitutions) value)
    value

end Code

section Matching

variable {opening closing : Char} {id m rest s x y : Text} {c : Char}

/-- The closing bracket comes before the next brace that closes. -/
def Closes (closing : Char) (x : Text) : Prop :=
  ∃ front back, x = front ++ closing :: back ∧ ∀ c ∈ front, notBrace c = true

/-- A match with a modifier, as it is tried from the longest one on. -/
theorem first_modifier (closing : Char) (y : Text) :
    first (.seq modifierRegexp (.char (· = closing))) (':' :: y) =
      (splits notBrace y).reverse.findSome? fun split =>
        (first (.char (· = closing)) split.2).map
          (Match.append ⟨[(Group.modifier, ':' :: split.1)], ':' :: split.1, split.2⟩) := by
  rw [first_seq]
  have hrun : run modifierRegexp (':' :: y) =
      (splits notBrace y).reverse.map fun split =>
        ⟨[(Group.modifier, ':' :: split.1)], ':' :: split.1, split.2⟩ := by
    simp only [modifierRegexp, run, if_pos, decide_true, List.flatMap_singleton, List.map_map]
    rfl
  rw [hrun, List.findSome?_map]
  rfl

theorem first_closing (closing c : Char) (y : Text) :
    first (.char (· = closing) : Regex Char Group) (c :: y) =
      if c = closing then some ⟨[], [c], y⟩ else none := by
  rw [first_char_cons]
  simp only [decide_eq_true_eq]

theorem first_closing_eq_none_iff :
    first (.char (· = closing) : Regex Char Group) y = none ↔ ∀ z, y ≠ closing :: z := by
  cases y with
  | nil => exact iff_of_true rfl nofun
  | cons c y => simp [first_closing]

/-- The modifier goes on to the last closing bracket before a brace that closes. -/
theorem first_modifier_append (hm : ∀ c ∈ m, notBrace c = true)
    (hlast : notBrace closing = true → ¬Closes closing rest) :
    first (.seq modifierRegexp (.char (· = closing))) (':' :: (m ++ closing :: rest)) =
      some ⟨[(Group.modifier, ':' :: m)], ':' :: (m ++ [closing]), rest⟩ := by
  rw [first_modifier]
  refine findSome?_reverse_splits hm (fun front back hfront hne hall => ?_) ?_
  · rw [Option.map_eq_none_iff, first_closing_eq_none_iff]
    rintro z rfl
    obtain ⟨d, front, rfl⟩ := List.exists_cons_of_ne_nil hne
    obtain ⟨rfl, rfl⟩ := List.cons.inj hfront
    obtain ⟨hclosing, hall⟩ := List.forall_mem_cons.mp hall
    exact hlast hclosing ⟨front, z, rfl, hall⟩
  · rw [first_closing, if_pos rfl]
    rfl

/-- Only a colon starts a modifier. -/
theorem first_modifier_of_ne (hc : c ≠ ':') :
    first (.seq modifierRegexp (.char (· = closing))) (c :: y) = none := by
  rw [first_seq]
  have hrun : run modifierRegexp (c :: y) = [] := by
    simp only [modifierRegexp, run, decide_eq_true_eq, if_neg hc, List.flatMap_nil, List.map_nil]
  rw [hrun, List.findSome?_nil]

theorem first_modifier_eq_none_iff : first (.seq modifierRegexp (.char (· = closing))) y = none ↔
    ∀ z, y = ':' :: z → ¬Closes closing z := by
  cases y with
  | nil => exact iff_of_true rfl nofun
  | cons c y =>
    by_cases hc : c = ':'
    · subst hc
      rw [first_modifier, findSome?_reverse_splits_eq_none_iff]
      simp only [Option.map_eq_none_iff, first_closing_eq_none_iff]
      constructor
      · rintro hnone z hz ⟨front, back, rfl, hall⟩
        exact hnone front _ (List.cons.inj hz).2 hall back rfl
      · rintro hcloses front back rfl hall z rfl
        exact hcloses _ rfl ⟨front, z, rfl, hall⟩
    · exact iff_of_true (first_modifier_of_ne hc) fun z hz => absurd (List.cons.inj hz).1 hc

theorem first_closingRegexp_of_ne (hc : c ≠ ':') : first (closingRegexp closing) (c :: y) =
    if c = closing then some ⟨[], [c], y⟩ else none := by
  rw [closingRegexp, first_seq_opt, first_modifier_of_ne hc, Option.none_or, first_closing]

theorem first_closingRegexp_modifier (hm : ∀ c ∈ m, notBrace c = true)
    (hlast : notBrace closing = true → ¬Closes closing rest) :
    first (closingRegexp closing) (':' :: (m ++ closing :: rest)) =
      some ⟨[(Group.modifier, ':' :: m)], ':' :: (m ++ [closing]), rest⟩ := by
  rw [closingRegexp, first_seq_opt, first_modifier_append hm hlast, Option.some_or]

theorem first_closingRegexp_eq_none_iff : first (closingRegexp closing) y = none ↔
    (∀ z, y = ':' :: z → ¬Closes closing z) ∧ ∀ z, y ≠ closing :: z := by
  rw [closingRegexp, first_seq_opt, Option.or_eq_none_iff, first_modifier_eq_none_iff,
    first_closing_eq_none_iff]

/-- Behind the opening bracket: the characters of the id and what closes the reference. -/
theorem first_inner (closing : Char) (x : Text) :
    first (.seq (.group .id (.lazyStar notBrace)) (closingRegexp closing)) x =
      (splits notBrace x).findSome? fun split => (first (closingRegexp closing) split.2).map
        (Match.append ⟨[(Group.id, split.1)], split.1, split.2⟩) :=
  first_seq_group_lazyStar ..

theorem first_inner_eq_none_iff :
    first (.seq (.group .id (.lazyStar notBrace)) (closingRegexp closing)) x = none ↔
      ¬Closes closing x := by
  rw [first_inner, findSome?_splits_eq_none_iff]
  simp only [Option.map_eq_none_iff, first_closingRegexp_eq_none_iff]
  constructor
  · rintro hnone ⟨front, back, hx, hall⟩
    exact (hnone front _ hx hall).2 back rfl
  · rintro hcloses front back rfl hall
    constructor
    · rintro z rfl ⟨front', back, rfl, hall'⟩
      refine hcloses ⟨front ++ ':' :: front', back, ?_, ?_⟩
      · rw [List.append_assoc, List.cons_append]
      · exact List.forall_mem_append.mpr ⟨hall, List.forall_mem_cons.mpr ⟨by decide, hall'⟩⟩
    · rintro z rfl
      exact hcloses ⟨front, z, rfl, hall⟩

/-- The id ends at the first colon or closing bracket. -/
theorem first_inner_append {m : Match Char Group} (hid : ∀ c ∈ id, notBrace c = true)
    (hends : ∀ c ∈ id, c ≠ ':' ∧ c ≠ closing) (h : first (closingRegexp closing) rest = some m) :
    first (.seq (.group .id (.lazyStar notBrace)) (closingRegexp closing)) (id ++ rest) =
      some ⟨(Group.id, id) :: m.groups, id ++ m.text, m.rest⟩ := by
  rw [first_inner]
  refine findSome?_splits hid (fun front back hback hne => ?_) ?_
  · obtain ⟨c, back, rfl⟩ := List.exists_cons_of_ne_nil hne
    have hc : c ∈ id := hback ▸ List.mem_append_right front List.mem_cons_self
    rw [Option.map_eq_none_iff, List.cons_append, first_closingRegexp_of_ne (hends c hc).1]
    exact if_neg (hends c hc).2
  · rw [h]
    rfl

theorem first_referenceRegexp (opening closing : Char) (x : Text) :
    first (referenceRegexp opening closing) ('$' :: opening :: x) =
      (first (.seq (.group .id (.lazyStar notBrace)) (closingRegexp closing)) x).map fun m =>
        ⟨m.groups, '$' :: opening :: m.text, m.rest⟩ := by
  rw [referenceRegexp, first_seq_char_cons, if_pos (decide_eq_true rfl), first_seq_char_cons,
    if_pos (decide_eq_true rfl), Option.map_map]
  rfl

/-- A reference is at the front of the text, whatever is between its brackets. -/
def Refers (opening closing : Char) (s : Text) : Prop :=
  ∃ x, s = '$' :: opening :: x ∧ Closes closing x

theorem first_referenceRegexp_eq_none_iff :
    first (referenceRegexp opening closing) s = none ↔ ¬Refers opening closing s := by
  constructor
  · rintro hnone ⟨x, rfl, hx⟩
    rw [first_referenceRegexp, Option.map_eq_none_iff, first_inner_eq_none_iff] at hnone
    exact hnone hx
  · intro hrefers
    cases s with
    | nil => rfl
    | cons c s =>
      rw [referenceRegexp, first_seq_char_cons]
      split_ifs with hc
      · cases s with
        | nil => rfl
        | cons d x =>
          rw [first_seq_char_cons]
          split_ifs with hd
          · rw [Option.map_eq_none_iff, Option.map_eq_none_iff, first_inner_eq_none_iff]
            refine fun hx => hrefers ⟨x, ?_, hx⟩
            rw [of_decide_eq_true hc, of_decide_eq_true hd]
          · rfl
      · rfl

/-- The last of the closing brackets before a brace that closes. -/
theorem Closes.last (h : Closes closing x) (hclosing : notBrace closing = true) :
    ∃ front back, x = front ++ closing :: back ∧ (∀ c ∈ front, notBrace c = true) ∧
      ¬Closes closing back := by
  obtain ⟨front, back, rfl, hall⟩ := h
  induction hlength : back.length using Nat.strongRecOn generalizing front back with
  | ind n ih =>
    by_cases hback : Closes closing back
    · obtain ⟨front', back', rfl, hall'⟩ := hback
      obtain ⟨t, z, ht, hrest⟩ := ih back'.length (by grind) (front ++ closing :: front') back'
        (List.forall_mem_append.mpr ⟨hall, List.forall_mem_cons.mpr ⟨hclosing, hall'⟩⟩) rfl
      exact ⟨t, z, by rw [← ht, List.append_assoc, List.cons_append], hrest⟩
    · exact ⟨front, back, rfl, hall, hback⟩

end Matching

section Templates

/-- The two ways to write a reference. -/
inductive Brackets
  | braces | parens
  deriving DecidableEq

def Brackets.opening : Brackets → Char
  | .braces => '{'
  | .parens => '('

def Brackets.closing : Brackets → Char
  | .braces => '}'
  | .parens => ')'

def Brackets.regexp (b : Brackets) : Regex Char Group := referenceRegexp b.opening b.closing

/-- Text without references. -/
structure Literal where
  text : Text
  no_dollar : '$' ∉ text

/-- What is between the brackets. -/
structure Reference where
  id : Text
  /-- The modifier without its colon. -/
  modifier : Option Text
  id_chars : ∀ c ∈ id, c ≠ '}' ∧ c ≠ ')' ∧ c ≠ ':'
  modifier_chars : ∀ m ∈ modifier, '}' ∉ m

/-- The reference from its modifier on. -/
def Reference.writeClosing (b : Brackets) (r : Reference) : Text :=
  match r.modifier with
  | none => [b.closing]
  | some m => ':' :: (m ++ [b.closing])

def Reference.write (b : Brackets) (r : Reference) : Text :=
  '$' :: b.opening :: (r.id ++ r.writeClosing b)

/-- What a match of the reference holds. -/
def Reference.groups (r : Reference) : List (Group × Text) :=
  (.id, r.id) :: r.modifier.toList.map fun m => (.modifier, ':' :: m)

/-- The text that replaces the reference. -/
def Reference.value (substitutions : List (Text × Text)) (r : Reference) : Option Text :=
  (repl substitutions r.groups).toOption

inductive Piece
  | literal (t : Literal)
  | reference (b : Brackets) (r : Reference)

/-- The piece without its brackets. -/
def Piece.unbracketed : Piece → Literal ⊕ Reference
  | .literal t => .inl t
  | .reference _ r => .inr r

def Piece.text : Piece → Text
  | .literal t => t.text
  | .reference b r => r.write b

def render (T : List Piece) : Text := T.flatMap Piece.text

/-- The template with each reference replaced by its value, whatever the brackets. -/
def interpolated (substitutions : List (Text × Text)) : List (Literal ⊕ Reference) → Option Text
  | [] => some []
  | .inl t :: T => (interpolated substitutions T).map (t.text ++ ·)
  | .inr r :: T => (r.value substitutions).bind fun value =>
    (interpolated substitutions T).map (value ++ ·)

/-- What one pass has before it: literal text, text of the other pass, and the references it is
about. -/
inductive Chunk
  | literal (t : Literal)
  | copied (t : Text)
  | matched (r : Reference)

def Chunk.text (b : Brackets) : Chunk → Text
  | .literal t => t.text
  | .copied t => t
  | .matched r => r.write b

def written (b : Brackets) (chunks : List Chunk) : Text := chunks.flatMap (Chunk.text b)

/-- The pass copies the texts and matches the references. -/
def Chunk.seen : Chunk → List (Char ⊕ List (Group × Text))
  | .literal t => t.text.map .inl
  | .copied t => t.map .inl
  | .matched r => [.inr r.groups]

def seen (chunks : List Chunk) : List (Char ⊕ List (Group × Text)) := chunks.flatMap Chunk.seen

/-- The first pass is about the references in braces. -/
def Piece.inFirstPass : Piece → Chunk
  | .literal t => .literal t
  | .reference .braces r => .matched r
  | .reference .parens r => .copied (r.write .parens)

/-- The second pass is about those in parentheses, with the values of the others before it. -/
def Piece.inSecondPass (substitutions : List (Text × Text)) : Piece → Chunk
  | .literal t => .literal t
  | .reference .braces r => .copied ((r.value substitutions).getD [])
  | .reference .parens r => .matched r

def firstPass (T : List Piece) : List Chunk := T.map Piece.inFirstPass

def secondPass (substitutions : List (Text × Text)) (T : List Piece) : List Chunk :=
  T.map (Piece.inSecondPass substitutions)

end Templates

section Passes

variable {substitutions : List (Text × Text)} {b : Brackets} {r : Reference} {t : Literal}
  {rest : Text} {chunks : List Chunk} {T : List Piece}

/-- The modifier of a reference in parentheses is not followed by another closing one before a
brace that closes. -/
def Reference.EndsBefore (b : Brackets) (r : Reference) (rest : Text) : Prop :=
  b = .parens → r.modifier ≠ none → ¬Closes ')' rest

/-- No reference in the brackets starts in the text. -/
def StaysAsItIs (b : Brackets) (t rest : Text) : Prop :=
  ∀ front back, t = front ++ back → back ≠ [] → ¬Refers b.opening b.closing (back ++ rest)

/-- Up to the first reference without a substitution, the pass finds the references it is about
and none besides. -/
def Separates (substitutions : List (Text × Text)) (b : Brackets) : List Chunk → Prop
  | [] => True
  | .literal _ :: chunks => Separates substitutions b chunks
  | .copied t :: chunks => StaysAsItIs b t (written b chunks) ∧ Separates substitutions b chunks
  | .matched r :: chunks => r.EndsBefore b (written b chunks) ∧
    ((substitutions.lookup r.id).isSome → Separates substitutions b chunks)

theorem written_cons (b : Brackets) (chunk : Chunk) (chunks : List Chunk) :
    written b (chunk :: chunks) = chunk.text b ++ written b chunks := List.flatMap_cons

theorem seen_cons (chunk : Chunk) (chunks : List Chunk) :
    seen (chunk :: chunks) = chunk.seen ++ seen chunks := List.flatMap_cons

theorem Brackets.closing_ne_colon (b : Brackets) : b.closing ≠ ':' := by
  cases b with
  | braces => decide
  | parens => decide

theorem staysAsItIs_of_no_dollar {u : Text} (hu : '$' ∉ u) : StaysAsItIs b u rest := by
  rintro front back rfl hback ⟨x, hx, -⟩
  obtain ⟨c, back, rfl⟩ := List.exists_cons_of_ne_nil hback
  obtain ⟨rfl, -⟩ := List.cons.inj hx
  exact hu (List.mem_append_right front List.mem_cons_self)

theorem Reference.modifier_notBrace {m : Text} (hm : m ∈ r.modifier) :
    ∀ c ∈ m, notBrace c = true := by
  intro c hc
  refine decide_eq_true fun hbrace => r.modifier_chars m hm ?_
  rwa [← hbrace]

theorem Reference.first_closingRegexp (hends : r.EndsBefore b rest) :
    first (closingRegexp b.closing) (r.writeClosing b ++ rest) =
      some ⟨r.modifier.toList.map fun m => (.modifier, ':' :: m), r.writeClosing b, rest⟩ := by
  rw [Reference.writeClosing]
  cases hmodifier : r.modifier with
  | none => exact (first_closingRegexp_of_ne b.closing_ne_colon).trans (if_pos rfl)
  | some m =>
    have hlast : notBrace b.closing = true → ¬Closes b.closing rest := by
      intro hclosing
      cases b with
      | braces => cases hclosing
      | parens => exact hends rfl (hmodifier ▸ Option.some_ne_none m)
    dsimp only
    rw [List.cons_append, List.append_assoc, List.singleton_append]
    exact first_closingRegexp_modifier (r.modifier_notBrace hmodifier) hlast

/-- The match of a reference that ends where it should. -/
theorem Reference.first_regexp (hends : r.EndsBefore b rest) :
    first b.regexp (r.write b ++ rest) = some ⟨r.groups, r.write b, rest⟩ := by
  have hid : ∀ c ∈ r.id, notBrace c = true := fun c hc => decide_eq_true (r.id_chars c hc).1
  have hstop : ∀ c ∈ r.id, c ≠ ':' ∧ c ≠ b.closing := by
    intro c hc
    obtain ⟨hbrace, hparen, hcolon⟩ := r.id_chars c hc
    cases b with
    | braces => exact ⟨hcolon, hbrace⟩
    | parens => exact ⟨hcolon, hparen⟩
  rw [Brackets.regexp, Reference.write, List.cons_append, List.cons_append, List.append_assoc,
    first_referenceRegexp, first_inner_append hid hstop (r.first_closingRegexp hends)]
  rfl

/-- The modifier takes in the text up to the last parenthesis that closes. -/
theorem Reference.first_regexp_parens (hends : ¬r.EndsBefore .parens rest) :
    ∃ m, first (Brackets.regexp .parens) (r.write .parens ++ rest) = some m ∧
      m.groups ≠ r.groups := by
  simp only [Reference.EndsBefore, forall_const, Classical.not_imp, not_not] at hends
  obtain ⟨hmodifier, hcloses⟩ := hends
  obtain ⟨m, hm⟩ := Option.ne_none_iff_exists'.mp hmodifier
  obtain ⟨front, back, rfl, hfront, hlast⟩ := hcloses.last rfl
  have hnotBrace : ∀ c ∈ m ++ ')' :: front, c ≠ '}' := by
    refine List.forall_mem_append.mpr ⟨fun c hc => ?_, List.forall_mem_cons.mpr ⟨by decide, ?_⟩⟩
    · exact of_decide_eq_true (r.modifier_notBrace hm c hc)
    · exact fun c hc => of_decide_eq_true (hfront c hc)
  let longer : Reference := ⟨r.id, some (m ++ ')' :: front), r.id_chars, by
    intro m' hm' hbrace
    cases hm'
    exact hnotBrace '}' hbrace rfl⟩
  have hwrite : r.write .parens ++ (front ++ ')' :: back) = longer.write .parens ++ back := by
    simp only [Reference.write, Reference.writeClosing, hm, longer, Brackets.closing,
      List.cons_append, List.append_assoc, List.nil_append]
  refine ⟨_, hwrite ▸ longer.first_regexp fun _ _ => hlast, fun hgroups => ?_⟩
  simp [Reference.groups, longer, hm] at hgroups

theorem staysAsItIs_iff {u : Text} : StaysAsItIs b u rest ↔
    ∀ front back, u = front ++ back → back ≠ [] → first b.regexp (back ++ rest) = none := by
  simp only [StaysAsItIs, Brackets.regexp, first_referenceRegexp_eq_none_iff]

theorem repl_isOk (substitutions : List (Text × Text)) (r : Reference) :
    (repl substitutions r.groups).isOk = (substitutions.lookup r.id).isSome := by
  have hid : (r.groups.lookup .id).getD [] = r.id := rfl
  rw [repl, hid]
  cases substitutions.lookup r.id with
  | none => rfl
  | some value =>
    dsimp only
    split_ifs
    · exact assemble_isOk_iff.mpr fun _ _ => rfl
    · exact assemble_isOk_iff.mpr fun _ _ => rfl
    · rfl

/-- The pass sees what it should if and only if it separates the template. -/
theorem replaced_scan_iff_separates (substitutions : List (Text × Text)) (b : Brackets)
    (chunks : List Chunk) :
    replaced (repl substitutions) (scan b.regexp 0 (written b chunks)) =
      replaced (repl substitutions) (seen chunks) ↔ Separates substitutions b chunks := by
  induction chunks with
  | nil => exact iff_of_true rfl trivial
  | cons chunk chunks ih =>
    rw [written_cons, seen_cons]
    cases chunk with
    | literal t =>
      rw [Chunk.text, Chunk.seen, replaced_inl_append, replaced_scan_append_iff, ← staysAsItIs_iff,
        and_iff_right (staysAsItIs_of_no_dollar t.no_dollar), ih, Separates]
    | copied u =>
      rw [Chunk.text, Chunk.seen, replaced_inl_append, replaced_scan_append_iff, ← staysAsItIs_iff,
        ih, Separates]
    | matched r =>
      have hne (r : Reference) (b : Brackets) : r.write b ≠ [] := List.cons_ne_nil _ _
      rw [Chunk.text, Chunk.seen, List.singleton_append, replaced, Separates, ← repl_isOk]
      by_cases hends : r.EndsBefore b (written b chunks)
      · rw [replaced_scan_cons_iff (r.first_regexp hends) (hne r b), and_iff_right rfl, ih,
          and_iff_right hends]
      · refine iff_of_false (fun h => ?_) fun h => hends h.1
        obtain rfl : b = .parens := by
          by_contra hb
          exact hends fun h => absurd h hb
        obtain ⟨m, hfirst, hgroups⟩ := r.first_regexp_parens hends
        rw [Reference.write, List.cons_append, scan, ← List.cons_append, ← Reference.write,
          hfirst] at h
        exact hgroups (Sum.inr.inj (List.cons.inj h).1)

/-- Every reference in braces has a substitution. -/
def BracesSubstituted (substitutions : List (Text × Text)) (T : List Piece) : Prop :=
  ∀ r, .reference .braces r ∈ T → (substitutions.lookup r.id).isSome

theorem written_firstPass (T : List Piece) : written .braces (firstPass T) = render T := by
  rw [written, firstPass, List.flatMap_map, render]
  refine congrArg (T.flatMap ·) (funext fun piece => ?_)
  cases piece with
  | literal t => rfl
  | reference b r =>
    cases b with
    | braces => rfl
    | parens => rfl

theorem Reference.value_eq_none_iff :
    r.value substitutions = none ↔ ¬(substitutions.lookup r.id).isSome := by
  rw [← repl_isOk, Reference.value]
  cases repl substitutions r.groups with
  | error e => exact iff_of_true rfl nofun
  | ok value => exact iff_of_false nofun fun h => h rfl

theorem assemble_matched (chunks : List Chunk) :
    assemble (repl substitutions) (seen (.matched r :: chunks)) =
      (repl substitutions r.groups).bind fun value =>
        (assemble (repl substitutions) (seen chunks)).map (value ++ ·) := rfl

theorem assemble_literal (chunks : List Chunk) :
    assemble (repl substitutions) (seen (.literal t :: chunks)) =
      (assemble (repl substitutions) (seen chunks)).map (t.text ++ ·) :=
  assemble_inl_append ..

theorem assemble_copied (u : Text) (chunks : List Chunk) :
    assemble (repl substitutions) (seen (.copied u :: chunks)) =
      (assemble (repl substitutions) (seen chunks)).map (u ++ ·) :=
  assemble_inl_append ..

theorem firstPass_cons (piece : Piece) (T : List Piece) :
    firstPass (piece :: T) = piece.inFirstPass :: firstPass T := rfl

theorem secondPass_cons (substitutions : List (Text × Text)) (piece : Piece) (T : List Piece) :
    secondPass substitutions (piece :: T) =
      piece.inSecondPass substitutions :: secondPass substitutions T := rfl

theorem bracesSubstituted_cons {piece : Piece} : BracesSubstituted substitutions (piece :: T) ↔
    (∀ r, piece = .reference .braces r → (substitutions.lookup r.id).isSome) ∧
      BracesSubstituted substitutions T := by
  simp only [BracesSubstituted, List.mem_cons]
  grind

/-- The first pass raises nothing where every reference in braces has a substitution, and only
there. -/
theorem bracesSubstituted_iff : BracesSubstituted substitutions T ↔
    (assemble (repl substitutions) (seen (firstPass T))).isOk := by
  induction T with
  | nil => exact iff_of_true nofun rfl
  | cons piece T ih =>
    rw [bracesSubstituted_cons, ih, firstPass_cons, seen_cons]
    simp only [assemble_isOk_iff, List.mem_append, or_imp, forall_and]
    refine and_congr_left fun _ => ?_
    cases piece with
    | literal t => simp [Piece.inFirstPass, Chunk.seen]
    | reference b r =>
      cases b with
      | braces => simp [Piece.inFirstPass, Chunk.seen, repl_isOk]
      | parens => simp [Piece.inFirstPass, Chunk.seen]

theorem Reference.exists_value (h : (substitutions.lookup r.id).isSome) :
    ∃ value, repl substitutions r.groups = .ok value ∧ r.value substitutions = some value := by
  rw [← repl_isOk] at h
  rw [Reference.value]
  cases hvalue : repl substitutions r.groups with
  | error e =>
    rw [hvalue] at h
    cases h
  | ok value => exact ⟨value, rfl, rfl⟩

/-- What the first pass gives, where it sees what it should: the text for the second pass. -/
theorem assemble_firstPass (hT : BracesSubstituted substitutions T) :
    assemble (repl substitutions) (seen (firstPass T)) =
      .ok (written .parens (secondPass substitutions T)) := by
  induction T with
  | nil => rfl
  | cons piece T ih =>
    obtain ⟨hpiece, hrest⟩ := bracesSubstituted_cons.mp hT
    rw [firstPass_cons, secondPass_cons]
    cases piece with
    | literal t =>
      rw [Piece.inFirstPass, assemble_literal, ih hrest]
      rfl
    | reference b r =>
      cases b with
      | braces =>
        obtain ⟨value, hrepl, hvalue⟩ := Reference.exists_value (hpiece r rfl)
        rw [Piece.inFirstPass, assemble_matched, ih hrest, hrepl, Piece.inSecondPass, hvalue]
        rfl
      | parens =>
        rw [Piece.inFirstPass, assemble_copied, ih hrest]
        rfl

theorem toOption_map {ε : Type} (f : Text → Text) (x : Except ε Text) :
    (x.map f).toOption = x.toOption.map f := by
  cases x with
  | error e => rfl
  | ok text => rfl

/-- What the second pass gives, where it sees what it should: the template with its values. -/
theorem assemble_secondPass (hT : BracesSubstituted substitutions T) :
    (assemble (repl substitutions) (seen (secondPass substitutions T))).toOption =
      interpolated substitutions (T.map Piece.unbracketed) := by
  induction T with
  | nil => rfl
  | cons piece T ih =>
    obtain ⟨hpiece, hrest⟩ := bracesSubstituted_cons.mp hT
    rw [secondPass_cons, List.map_cons]
    cases piece with
    | literal t =>
      rw [Piece.inSecondPass, assemble_literal, toOption_map, ih hrest]
      rfl
    | reference b r =>
      rw [Piece.unbracketed, interpolated, ← ih hrest]
      cases b with
      | braces =>
        obtain ⟨value, -, hvalue⟩ := Reference.exists_value (hpiece r rfl)
        rw [Piece.inSecondPass, assemble_copied, toOption_map, hvalue]
        rfl
      | parens =>
        rw [Piece.inSecondPass, assemble_matched, Reference.value]
        cases repl substitutions r.groups with
        | error e => rfl
        | ok value => exact toOption_map ..

/-- A reference without a substitution leaves nothing. -/
theorem interpolated_eq_none (hT : ¬BracesSubstituted substitutions T) :
    interpolated substitutions (T.map Piece.unbracketed) = none := by
  induction T with
  | nil => exact absurd (fun _ => nofun) hT
  | cons piece T ih =>
    rw [bracesSubstituted_cons, not_and_or] at hT
    rw [List.map_cons]
    rcases hT with hpiece | hT
    · obtain ⟨r, hpiece⟩ := Classical.not_forall.mp hpiece
      obtain ⟨rfl, hr⟩ := Classical.not_imp.mp hpiece
      rw [Piece.unbracketed, interpolated, Reference.value_eq_none_iff.mpr hr, Option.bind_none]
    · cases piece with
      | literal t => rw [Piece.unbracketed, interpolated, ih hT, Option.map_none]
      | reference b r =>
        rw [Piece.unbracketed, interpolated, ih hT]
        simp only [Option.map_none, Option.bind_fun_none]

end Passes

section Interchange

variable {substitutions : List (Text × Text)} {T T' : List Piece}

/-- The text is that of the template with its values, and each pass replaces the references it is
about and no other text: no value is expanded again. -/
structure ReplacesReferences (substitutions : List (Text × Text)) (T : List Piece) : Prop where
  outcome : (interpolateString (render T) substitutions).toOption =
    interpolated substitutions (T.map Piece.unbracketed)
  first_pass : replaced (repl substitutions) (scan (Brackets.regexp .braces) 0 (render T)) =
    replaced (repl substitutions) (seen (firstPass T))
  second_pass : ∀ value,
    substitute (Brackets.regexp .braces) (repl substitutions) (render T) = .ok value →
      replaced (repl substitutions) (scan (Brackets.regexp .parens) 0 value) =
        replaced (repl substitutions) (seen (secondPass substitutions T))

/-- Each pass finds the references it is about and none besides. -/
structure KeepsApart (substitutions : List (Text × Text)) (T : List Piece) : Prop where
  first_pass : Separates substitutions .braces (firstPass T)
  second_pass : BracesSubstituted substitutions T →
    Separates substitutions .parens (secondPass substitutions T)

theorem interpolateString_eq_bind (value : Text) (substitutions : List (Text × Text)) :
    interpolateString value substitutions =
      (substitute (Brackets.regexp .braces) (repl substitutions) value).bind fun value =>
        substitute (Brackets.regexp .parens) (repl substitutions) value := by
  simp only [interpolateString, substitutionRegexpList, List.foldlM_cons, List.foldlM_nil,
    bind_pure]
  rfl

theorem substitute_written {b : Brackets} {chunks : List Chunk}
    (h : replaced (repl substitutions) (scan b.regexp 0 (written b chunks)) =
      replaced (repl substitutions) (seen chunks)) :
    substitute b.regexp (repl substitutions) (written b chunks) =
      assemble (repl substitutions) (seen chunks) := by
  rw [substitute, ← assemble_replaced, h, assemble_replaced]

/-- The first pass gives the text that the second one is about, or raises an error. -/
theorem substitute_render (h : Separates substitutions .braces (firstPass T)) :
    substitute (Brackets.regexp .braces) (repl substitutions) (render T) =
      assemble (repl substitutions) (seen (firstPass T)) := by
  rw [← written_firstPass]
  exact substitute_written ((replaced_scan_iff_separates ..).mpr h)

theorem KeepsApart.outcome (h : KeepsApart substitutions T) :
    (interpolateString (render T) substitutions).toOption =
      interpolated substitutions (T.map Piece.unbracketed) := by
  rw [interpolateString_eq_bind, substitute_render h.first_pass]
  by_cases hT : BracesSubstituted substitutions T
  · rw [assemble_firstPass hT]
    dsimp only [Except.bind]
    rw [substitute_written ((replaced_scan_iff_separates ..).mpr (h.second_pass hT)),
      assemble_secondPass hT]
  · rw [interpolated_eq_none hT]
    cases hfirst : assemble (repl substitutions) (seen (firstPass T)) with
    | error e => rfl
    | ok value =>
      refine absurd (bracesSubstituted_iff.mpr ?_) hT
      rw [hfirst]
      rfl

theorem replacesReferences_iff : ReplacesReferences substitutions T ↔
    KeepsApart substitutions T := by
  constructor
  · intro h
    have hfirst : Separates substitutions .braces (firstPass T) := by
      rw [← replaced_scan_iff_separates, written_firstPass]
      exact h.first_pass
    refine ⟨hfirst, fun hT => ?_⟩
    rw [← replaced_scan_iff_separates]
    exact h.second_pass _ ((substitute_render hfirst).trans (assemble_firstPass hT))
  · intro h
    refine ⟨h.outcome, ?_, fun value hvalue => ?_⟩
    · rw [← written_firstPass]
      exact (replaced_scan_iff_separates ..).mpr h.first_pass
    · rw [substitute_render h.first_pass] at hvalue
      have hT : BracesSubstituted substitutions T := by
        rw [bracesSubstituted_iff, hvalue]
        rfl
      obtain rfl := Except.ok.inj ((assemble_firstPass hT).symm.trans hvalue)
      exact (replaced_scan_iff_separates ..).mpr (h.second_pass hT)

/-- The braces are not those of a reference in parentheses. -/
theorem Reference.staysAsItIs {r : Reference} {rest : Text}
    (hr : '$' ∉ r.id ++ r.writeClosing .parens) :
    StaysAsItIs .braces (r.write .parens) rest := by
  intro front back hwrite hback
  cases front with
  | nil =>
    rintro ⟨x, hx, -⟩
    rw [List.nil_append] at hwrite
    rw [← hwrite] at hx
    exact absurd (List.cons.inj (List.cons.inj hx).2).1 (by decide)
  | cons c front =>
    have htail : '(' :: (r.id ++ r.writeClosing .parens) = front ++ back := (List.cons.inj hwrite).2
    have hdollar : '$' ∉ '(' :: (r.id ++ r.writeClosing .parens) :=
      fun h => hr ((List.mem_cons.mp h).resolve_left (by decide))
    exact staysAsItIs_of_no_dollar hdollar front back htail hback

/-- It is enough that the ids in parentheses and the values of the others have no dollar sign, and
that the references in parentheses have no modifiers. -/
theorem keepsApart_of_no_dollar
    (hreferences : ∀ r, .reference .parens r ∈ T → '$' ∉ r.id ∧ r.modifier = none)
    (hvalues : ∀ r value, .reference .braces r ∈ T → r.value substitutions = some value →
      '$' ∉ value) : KeepsApart substitutions T := by
  induction T with
  | nil => exact ⟨trivial, fun _ => trivial⟩
  | cons piece T ih =>
    obtain ⟨hfirst, hsecond⟩ := ih (fun r hr => hreferences r (List.mem_cons_of_mem _ hr))
      fun r value hr => hvalues r value (List.mem_cons_of_mem _ hr)
    cases piece with
    | literal t => exact ⟨hfirst, fun hT => hsecond (bracesSubstituted_cons.mp hT).2⟩
    | reference b r =>
      cases b with
      | braces =>
        refine ⟨⟨nofun, fun _ => hfirst⟩, fun hT => ⟨staysAsItIs_of_no_dollar ?_, ?_⟩⟩
        · cases hvalue : r.value substitutions with
          | none => exact List.not_mem_nil
          | some value => exact hvalues r value List.mem_cons_self hvalue
        · exact hsecond (bracesSubstituted_cons.mp hT).2
      | parens =>
        obtain ⟨hid, hmodifier⟩ := hreferences r List.mem_cons_self
        refine ⟨⟨r.staysAsItIs ?_, hfirst⟩, fun hT => ⟨fun _ h => absurd hmodifier h, fun _ => ?_⟩⟩
        · rw [Reference.writeClosing, hmodifier]
          exact List.not_mem_append hid (by decide)
        · exact hsecond (bracesSubstituted_cons.mp hT).2

/-- The references of a template are replaced, and nothing else, if and only if each pass can
keep them apart from the text of the other; two templates that differ in their brackets and are
both so give the same text. -/
theorem interpolateString_interchangeable_iff (substitutions : List (Text × Text))
    (T : List Piece) :
    (ReplacesReferences substitutions T ↔ KeepsApart substitutions T) ∧
      ∀ T', T'.map Piece.unbracketed = T.map Piece.unbracketed →
        KeepsApart substitutions T → KeepsApart substitutions T' →
        (interpolateString (render T) substitutions).toOption =
          (interpolateString (render T') substitutions).toOption := by
  refine ⟨replacesReferences_iff, fun T' hunbracketed h h' => ?_⟩
  rw [h.outcome, h'.outcome, hunbracketed]

/-- An id without a modifier, and an id with one in braces. -/
def plainAndIdentifier (b : Brackets) : List Piece :=
  [.reference b ⟨['A'], none, by simp, nofun⟩, .literal ⟨[' '], by decide⟩,
    .reference .braces ⟨['B'], some "identifier".toList, by simp, by simp⟩]

theorem interpolateString_interchangeable_two :
    let substitutions := [(['A'], ['a']), (['B'], ['b', '/'])]
    (interpolateString (render (plainAndIdentifier .braces)) substitutions).toOption =
      (interpolateString (render (plainAndIdentifier .parens)) substitutions).toOption := by
  intro substitutions
  have hapart : ∀ b, KeepsApart substitutions (plainAndIdentifier b) := by
    intro b
    apply keepsApart_of_no_dollar
    · intro r hr
      simp only [plainAndIdentifier, List.mem_cons, Piece.reference.injEq, reduceCtorEq, false_and,
        List.not_mem_nil, or_false] at hr
      obtain ⟨-, rfl⟩ := hr
      exact ⟨by decide, rfl⟩
    · intro r value hr hvalue
      simp only [plainAndIdentifier, List.mem_cons, Piece.reference.injEq, reduceCtorEq, false_or,
        List.not_mem_nil, or_false, true_and] at hr
      rcases hr with ⟨-, rfl⟩ | rfl
      · obtain rfl : ['a'] = value := Option.some_inj.mp hvalue
        decide
      · obtain rfl : ['b', '_'] = value := Option.some_inj.mp hvalue
        decide
  exact (interpolateString_interchangeable_iff substitutions (plainAndIdentifier .braces)).2
    (plainAndIdentifier .parens) rfl (hapart .braces) (hapart .parens)

/-- An id with a modifier, and an id without one. -/
def identifierAndPlain (b : Brackets) : List Piece :=
  [.reference b ⟨['A'], some ['i', 'd', 'e', 'n', 't', 'i', 'f', 'i', 'e', 'r'], by simp, by simp⟩,
    .literal ⟨[' '], by decide⟩, .reference b ⟨['B'], none, by simp, nofun⟩]

/-- An id whose value looks like a reference. -/
def nested (b : Brackets) : List Piece := [.reference b ⟨['C'], none, by simp, nofun⟩]

/-- In parentheses the first modifier runs on to the last of them; in braces the value is expanded
again. -/
theorem interpolateString_brackets_differ :
    let substitutions := [(['A'], ['a']), (['B'], ['b']), (['C'], ['$', '(', 'B', ')'])]
    (interpolateString (render (identifierAndPlain .braces)) substitutions).toOption =
        some ['a', ' ', 'b'] ∧
      (interpolateString (render (identifierAndPlain .parens)) substitutions).toOption =
        some ['a'] ∧
      (interpolateString (render (nested .braces)) substitutions).toOption = some ['b'] ∧
      (interpolateString (render (nested .parens)) substitutions).toOption =
        some ['$', '(', 'B', ')'] := by
  decide

end Interchange

end MiniChromium.PListUtil
