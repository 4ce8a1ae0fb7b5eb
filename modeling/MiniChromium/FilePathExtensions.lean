import MiniChromium.FilePathComponents

/-!
# File name extensions

The final extension is taken from the base name, which has no separators behind it, but it is
removed from the path by its length alone.
-/
namespace MiniChromium.FilePath

/-- `kParentDirectory`. -/
def kParentDirectory : StringType := literal ['.', '.']

/-- `kExtensionSeparator`. -/
def kExtensionSeparator : CharType := '.'.toNat

section Code

variable (config : FilePathConfig)

/-- `FinalExtension`. -/
def finalExtension (p : FilePath) : StringType :=
  let base := (baseName config p).path
  if base = kCurrentDirectory ∨ base = kParentDirectory then []
  else
    let dot := findLastOf [kExtensionSeparator] base
    if dot = npos then [] else base.drop dot.toNat

/-- `RemoveFinalExtension`. -/
def removeFinalExtension (p : FilePath) : FilePath :=
  let extension := finalExtension config p
  if (finalExtension config p).isEmpty then p
  else ofString (p.path.take (p.path.length - extension.length))

/-- A path without its trailing separators. -/
def stripped (p : FilePath) : FilePath where
  path := stripTrailingSeparatorsInternal config p.path
  nulFree h := p.nulFree ((strip_isPrefix p.path).subset h)

/-- The base name has a dot and is not one of the two special directories. -/
def HasExtension (p : FilePath) : Prop :=
  (baseName config p).path ≠ kCurrentDirectory ∧ (baseName config p).path ≠ kParentDirectory ∧
    kExtensionSeparator ∈ (baseName config p).path

end Code

section Strings

variable {p : CharType → Bool} {path a y : StringType} {c : CharType}

theorem findLastOf_singleton_cases (c : CharType) (path : StringType) :
    (c ∉ path ∧ findLastOf [c] path = npos) ∨
      ∃ a b, path = a ++ c :: b ∧ c ∉ b ∧ findLastOf [c] path = a.length := by
  cases hp : path.all (fun d => decide (d ≠ c)) with
  | true =>
    have hnot : c ∉ path := fun hc => by simpa using List.all_eq_true.mp hp c hc
    refine .inl ⟨hnot, findLastOf_eq_npos fun d hd hmem => hnot ?_⟩
    rwa [← List.mem_singleton.mp hmem]
  | false =>
    obtain ⟨a, d, b, rfl, hd, hb, -⟩ := exists_rdropWhile_concat hp
    obtain rfl : d = c := by simpa using hd
    have hnot : ∀ e ∈ b, e ∉ [d] := fun e he => by simpa using hb e he
    exact .inr ⟨a, b, rfl, fun hc => by simpa using hb d hc,
      findLastOf_append_cons (List.mem_singleton_self d) hnot⟩

/-- What is before an element of the other kind stays. -/
theorem length_lt_length_rdropWhile (hc : p c = false) (y : StringType) :
    a.length < ((a ++ c :: y).rdropWhile p).length := by
  induction y using List.reverseRecOn with
  | nil => simp [List.rdropWhile_concat_neg _ _ _ (show ¬ p c = true by simp [hc])]
  | append_singleton y d ih =>
    rw [← List.cons_append, ← List.append_assoc]
    cases hd : p d with
    | true => rwa [List.rdropWhile_concat_pos _ _ _ hd]
    | false =>
      rw [List.rdropWhile_concat_neg _ _ _ (by simp [hd])]
      simp

end Strings

section Strip

variable {config : FilePathConfig} {drive rest front component trailing a y : StringType}
  {c : CharType} {p : FilePath}

/-- Stripping keeps what is not a separator, with all that is before it. -/
theorem length_lt_length_strip (hc : isSeparator config c = false) (a y : StringType) :
    a.length < (stripTrailingSeparatorsInternal config (a ++ c :: y)).length := by
  obtain ⟨drive, rest, hdrive, hpath⟩ := exists_isDrive config (a ++ c :: y)
  rw [← hpath, strip_append hdrive, List.length_append]
  by_cases hle : drive.length ≤ a.length
  · -- the character is behind the drive letter
    obtain ⟨b, rfl⟩ := List.prefix_of_prefix_length_le ⟨rest, hpath⟩ ⟨c :: y, rfl⟩ hle
    obtain rfl : rest = b ++ c :: y := by simpa using hpath
    have hall : (b ++ c :: y).all (isSeparator config) = false := by simp [hc]
    have hlength := length_lt_length_rdropWhile (a := b) hc y
    rw [strippedRest, hall, if_neg Bool.false_ne_true, List.length_append]
    omega
  · omega

/-- The extension is the end of the base name from its last dot on. -/
theorem finalExtension_cases (config : FilePathConfig) (p : FilePath) :
    (¬ HasExtension config p ∧ finalExtension config p = []) ∨
      HasExtension config p ∧ ∃ stem extension,
        (baseName config p).path = stem ++ finalExtension config p ∧
          finalExtension config p = kExtensionSeparator :: extension := by
  unfold HasExtension finalExtension
  dsimp only
  by_cases hspecial : (baseName config p).path = kCurrentDirectory ∨
      (baseName config p).path = kParentDirectory
  · rw [if_pos hspecial]
    exact .inl ⟨by tauto, rfl⟩
  · obtain ⟨hcurrent, hparent⟩ := not_or.mp hspecial
    rw [if_neg hspecial]
    obtain ⟨hnot, hdot⟩ | ⟨stem, extension, hbase, -, hdot⟩ :=
      findLastOf_singleton_cases kExtensionSeparator (baseName config p).path
    · rw [if_pos hdot]
      exact .inl ⟨fun h => hnot h.2.2, rfl⟩
    · have hne : (stem.length : ℤ) ≠ npos := by
        rw [npos]
        omega
      refine .inr ⟨⟨hcurrent, hparent, by simp [hbase]⟩, stem, extension, ?_⟩
      rw [hdot, if_neg hne, hbase, Int.toNat_natCast, List.drop_left]
      exact ⟨rfl, rfl⟩

/-- A path with an extension has a last component. -/
theorem HasExtension.exists_lastComponent (h : HasExtension config p) :
    ∃ drive rest front trailing, IsDrive config drive rest ∧ drive ++ rest = p.path ∧
      LastComponent config rest front (baseName config p).path trailing := by
  obtain ⟨drive, rest, hdrive, hpath⟩ := exists_isDrive config p.path
  have hall : rest.all (isSeparator config) = false := by
    rw [Bool.eq_false_iff]
    intro hall
    have hmem := baseNameString_subset config p.path h.2.2
    rw [← hpath] at hmem
    obtain hmem | hmem := List.mem_append.mp hmem
    · obtain rfl | ⟨-, letter, rfl, hletter⟩ := hdrive.eq_nil_or
      · cases hmem
      · obtain rfl | hcolon := List.mem_cons.mp hmem
        · exact absurd hletter (by decide)
        · exact absurd (List.mem_singleton.mp hcolon) (by decide)
    · exact (eq_of_isSeparator (List.all_eq_true.mp hall _ hmem)).elim (by decide) (by decide)
  obtain ⟨front, component, trailing, hlast⟩ := FilePath.exists_lastComponent hall
  have hbase : (baseName config p).path = component := by
    change baseNameString config p.path = component
    rw [← hpath, baseNameString_append hdrive hlast]
  exact ⟨drive, rest, front, trailing, hdrive, hpath, hbase ▸ hlast⟩

theorem removeFinalExtension_of_not (h : ¬ HasExtension config p) :
    removeFinalExtension config p = p := by
  obtain ⟨-, hnil⟩ | ⟨hext, -⟩ := finalExtension_cases config p
  · rw [removeFinalExtension, hnil, List.isEmpty_nil, if_pos rfl]
  · exact absurd hext h

theorem path_removeFinalExtension (h : HasExtension config p) :
    (removeFinalExtension config p).path =
      p.path.take (p.path.length - (finalExtension config p).length) := by
  obtain ⟨hnot, -⟩ | ⟨-, stem, extension, -, hext⟩ := finalExtension_cases config p
  · exact absurd h hnot
  · rw [removeFinalExtension, if_neg (by simp [hext])]
    exact takeWhile_nul fun h => p.nulFree (List.mem_of_mem_take h)

theorem baseName_stripped (config : FilePathConfig) (p : FilePath) :
    baseName config (stripped config p) = baseName config p := by
  have hpath : baseNameString config (stripTrailingSeparatorsInternal config p.path) =
      baseNameString config p.path := by
    rw [baseNameString, strip_strip, baseNameString]
  exact ext_path hpath

theorem finalExtension_stripped (config : FilePathConfig) (p : FilePath) :
    finalExtension config (stripped config p) = finalExtension config p := by
  rw [finalExtension, baseName_stripped, finalExtension]

theorem hasExtension_stripped_iff :
    HasExtension config (stripped config p) ↔ HasExtension config p := by
  rw [HasExtension, baseName_stripped, HasExtension]

/-- The path up to the extension of its base name, and what is behind it. -/
theorem HasExtension.path_eq (h : HasExtension config p) :
    ∃ (a : StringType) (trailing : StringType),
      (stripped config p).path = a ++ finalExtension config p ∧
      p.path = a ++ finalExtension config p ++ trailing := by
  obtain ⟨drive, rest, front, trailing, hdrive, hpath, hlast⟩ := h.exists_lastComponent
  obtain ⟨hnot, -⟩ | ⟨-, stem, extension, hbase, -⟩ := finalExtension_cases config p
  · exact absurd h hnot
  · refine ⟨drive ++ (front ++ stem), trailing, ?_, ?_⟩
    · change stripTrailingSeparatorsInternal config p.path = _
      rw [← hpath, strip_append hdrive, hlast.strippedRest, hbase]
      simp
    · rw [← hpath, hlast.split, hbase]
      simp

/-- From the stripped path the extension is removed. -/
theorem removeFinalExtension_stripped (config : FilePathConfig) (p : FilePath) :
    (removeFinalExtension config (stripped config p)).path ++ finalExtension config p =
      (stripped config p).path := by
  by_cases hext : HasExtension config p
  · obtain ⟨a, trailing, hstripped, -⟩ := hext.path_eq
    rw [path_removeFinalExtension (hasExtension_stripped_iff.mpr hext), finalExtension_stripped,
      hstripped]
    simp
  · obtain ⟨-, hnil⟩ | ⟨hext', -⟩ := finalExtension_cases config p
    · rw [removeFinalExtension_of_not (mt hasExtension_stripped_iff.mp hext), hnil,
        List.append_nil]
    · exact absurd hext' hext

/-- With separators behind it, the path keeps the dot of its extension. -/
theorem length_lt_removeFinalExtension (h : HasExtension config p)
    (hne : (stripped config p).path ≠ p.path) :
    (removeFinalExtension config (stripped config p)).path.length <
      (stripped config (removeFinalExtension config p)).path.length := by
  obtain ⟨a, trailing, hstripped, hpath⟩ := h.path_eq
  obtain ⟨hnot, -⟩ | ⟨-, stem, extension, -, hext⟩ := finalExtension_cases config p
  · exact absurd h hnot
  have hremoved := removeFinalExtension_stripped config p
  rw [hstripped, List.append_cancel_right_eq] at hremoved
  have htrailing : trailing ≠ [] := by
    rintro rfl
    rw [hstripped, hpath, List.append_nil] at hne
    exact hne rfl
  obtain ⟨n, hn⟩ := Nat.exists_eq_succ_of_ne_zero (List.length_eq_zero_iff.not.mpr htrailing)
  have hpath' : (removeFinalExtension config p).path =
      a ++ kExtensionSeparator :: (extension ++ trailing).take n := by
    have hlength : (a ++ kExtensionSeparator :: extension ++ trailing).length -
        (kExtensionSeparator :: extension).length = a.length + (n + 1) := by
      simp
      omega
    rw [path_removeFinalExtension h, hpath, hext, hlength, List.append_assoc,
      List.take_length_add_append, List.cons_append, List.take_succ_cons]
  rw [hremoved]
  change _ < (stripTrailingSeparatorsInternal config (removeFinalExtension config p).path).length
  rw [hpath']
  exact length_lt_length_strip isSeparator_dot a _

/-- Removing the extension from a path with separators behind it is right if there is no
extension. -/
theorem removeFinalExtension_strip_iff (config : FilePathConfig) (p : FilePath) :
    (removeFinalExtension config (stripped config p)).path ++ finalExtension config p =
        (stripped config p).path ∧
      (stripped config (removeFinalExtension config p)).path =
        (stripped config (removeFinalExtension config (stripped config p))).path ↔
      (stripped config p).path = p.path ∨ ¬ HasExtension config p := by
  rw [and_iff_right (removeFinalExtension_stripped config p)]
  by_cases hext : HasExtension config p
  · refine ⟨fun h => .inl ?_, ?_⟩
    · by_contra hne
      have hlt := length_lt_removeFinalExtension hext hne
      rw [h] at hlt
      exact absurd (strip_isPrefix _).length_le (Nat.not_le_of_lt hlt)
    · intro h
      have hsame : stripped config p = p := ext_path (h.resolve_right (not_not.mpr hext))
      rw [hsame]
  · rw [removeFinalExtension_of_not hext,
      removeFinalExtension_of_not (mt hasExtension_stripped_iff.mp hext)]
    exact iff_of_true (strip_strip p.path).symm (.inr hext)

/-- Of `a.txt/` the dot stays. -/
theorem removeFinalExtension_trailing_separator :
    let p := ofString (literal ['a', '.', 't', 'x', 't', '/'])
    (stripped posix (removeFinalExtension posix p)).path = literal ['a', '.'] ∧
      (stripped posix (removeFinalExtension posix p)).path ≠
        (stripped posix (removeFinalExtension posix (stripped posix p))).path := by
  decide

end Strip

end MiniChromium.FilePath
