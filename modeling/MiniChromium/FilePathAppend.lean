import MiniChromium.FilePathAbsolute

/-!
# Appending twice

Where there are no drive letters, `Append` strips its left side and puts a separator behind it,
unless it ends in one. Behind a relative component only that component is stripped.
-/
namespace MiniChromium.FilePath

variable {config : FilePathConfig} {a b newPath appended appended' path component : StringType}

theorem isDrive_posix (path : StringType) : IsDrive posix [] path := by
  unfold IsDrive findDriveLetter
  split
  · exact congrArg (· + 1) (if_neg fun h => Bool.false_ne_true h.1)
  · rfl

theorem strip_posix (path : StringType) :
    stripTrailingSeparatorsInternal posix path = strippedRest posix path :=
  strip_append (isDrive_posix path)

/-- Of two strings the second is stripped, if it is not separators alone. -/
theorem strippedRest_append (hb : b.all (isSeparator config) = false) (a : StringType) :
    strippedRest config (a ++ b) = a ++ strippedRest config b := by
  have hab : (a ++ b).all (isSeparator config) = false := by simp [List.all_append, hb]
  obtain ⟨front, c, trailing, hsplit, hc, htrailing, hdrop⟩ := exists_rdropWhile_concat hb
  have hcons : a ++ b = a ++ front ++ [c] ++ trailing := by simp [hsplit]
  rw [strippedRest, strippedRest, hab, hb, if_neg Bool.false_ne_true, if_neg Bool.false_ne_true,
    hdrop, hcons, rdropWhile_append_of_all htrailing,
    List.rdropWhile_concat_neg _ _ _ (by simp [hc]), List.append_assoc]

/-- Only whether something is appended matters. -/
theorem joint_congr (h : appended = [] ↔ appended' = []) :
    joint config newPath appended = joint config newPath appended' := by
  unfold joint
  simp only [gt_iff_lt, List.length_pos_iff, ne_eq, h]

/-- And what the path ends in. -/
theorem joint_posix_append (hne : newPath ≠ []) (a appended : StringType) :
    joint posix (a ++ newPath) appended = joint posix newPath appended := by
  obtain ⟨f, c, hc⟩ := (List.eq_nil_or_concat newPath).resolve_left hne
  rw [List.concat_eq_append] at hc
  by_cases happended : appended = []
  · rw [happended, joint_nil_right, joint_nil_right]
  · have hwhole := joint_concat (isDrive_posix (a ++ f ++ [c])) happended
    have hend := joint_concat (isDrive_posix (f ++ [c])) happended
    rw [List.nil_append] at hwhole hend
    rw [hc, hend, ← List.append_assoc, hwhole]

theorem appendString_posix (hcurrent : path ≠ kCurrentDirectory) (hnul : 0 ∉ component) :
    appendString posix path component =
      strippedRest posix path ++ joint posix (strippedRest posix path) component ++ component := by
  rw [appendString_of_ne hcurrent, takeWhile_nul hnul, strip_posix]

/-- A relative string is not separators alone. -/
theorem all_eq_false_of_relative (hne : b ≠ []) (hrelative : isPathAbsolute posix b = false) :
    b.all (isSeparator posix) = false := by
  obtain ⟨c, b, rfl⟩ := List.exists_cons_of_ne_nil hne
  have hc : isSeparator posix c = false := by
    simpa [isPathAbsolute, posix, charAt] using hrelative
  simp [hc]

/-- The string of a path with something appended. -/
theorem path_append_posix {p : FilePath} (hcurrent : p.path ≠ kCurrentDirectory) (q : FilePath) :
    (append posix p q.path).path = strippedRest posix p.path ++
      joint posix (strippedRest posix p.path) q.path ++ q.path :=
  appendString_posix hcurrent q.nulFree

/-- Appending a relative path that is neither empty nor the current directory, and something
behind it, is appending both of them joined. -/
theorem append_append (a b c : FilePath) (hne : b.path ≠ [])
    (hrelative : isAbsolute posix b = false) (hcurrent : b.path ≠ kCurrentDirectory) :
    (append posix (append posix a b.path) c.path).path =
      (append posix a (append posix b c.path).path).path := by
  have hb := all_eq_false_of_relative hne hrelative
  have hstripped : strippedRest posix b.path ≠ [] := strippedRest_ne_nil hne
  have hjoined : (append posix b c.path).path ≠ [] := by
    rw [path_append_posix hcurrent]
    simp [hstripped]
  by_cases ha : a.path = kCurrentDirectory
  · -- both sides are the component alone
    have hleft : append posix a b.path = b := ext_path <| by
      change appendString posix a.path b.path = b.path
      rw [ha, appendString_kCurrentDirectory b.nulFree]
    have hright : (append posix a (append posix b c.path).path).path =
        (append posix b c.path).path := by
      change appendString posix a.path (append posix b c.path).path = _
      rw [ha, appendString_kCurrentDirectory (append posix b c.path).nulFree]
    rw [hleft, hright]
  · have hab := path_append_posix ha b
    have hleft : (append posix a b.path).path ≠ kCurrentDirectory := by
      rw [hab]
      intro hdot
      by_cases hnil : strippedRest posix a.path = []
      · rw [hnil, joint_nil_left, List.nil_append, List.nil_append] at hdot
        exact hcurrent hdot
      · have hlength := congrArg List.length hdot
        have hfirst := List.length_pos_of_ne_nil hnil
        have hsecond := List.length_pos_of_ne_nil hne
        have hone : kCurrentDirectory.length = 1 := rfl
        rw [List.length_append, List.length_append] at hlength
        omega
    have hstrip : strippedRest posix (append posix a b.path).path =
        strippedRest posix a.path ++ joint posix (strippedRest posix a.path) b.path ++
          strippedRest posix b.path := by
      rw [hab, strippedRest_append hb]
    rw [path_append_posix hleft, path_append_posix ha (append posix b c.path), hstrip,
      joint_posix_append hstripped]
    have hjoint : joint posix (strippedRest posix a.path) (append posix b c.path).path =
        joint posix (strippedRest posix a.path) b.path :=
      joint_congr (iff_of_false hjoined hne)
    rw [hjoint, path_append_posix hcurrent]
    simp only [List.append_assoc]

/-- `a//`, `b/` and `c`. -/
theorem append_append_separators :
    let a := ofString (literal ['a', '/', '/'])
    let b := ofString (literal ['b', '/'])
    let c := ofString (literal ['c'])
    (append posix (append posix a b.path) c.path).path =
        (append posix a (append posix b c.path).path).path ∧
      (append posix (append posix a b.path) c.path).path = literal ['a', '/', 'b', '/', 'c'] :=
  ⟨append_append _ _ _ (by decide) (by decide) (by decide), by decide⟩

end MiniChromium.FilePath
