import TlpiLearn.Foundations.CString
import TlpiLearn.Foundations.Constants
import Mathlib.Data.List.DropRight
import Mathlib.Tactic

/-!
# Pathnames

`dirname` follows the steps of POSIX, which leave open whether two slashes alone are one root or
two; `dirname_of_name` gives the directory of a name behind a slash. `pathname` puts the names on
the way from the root to a file together, and `components_slashed` takes them apart again.
-/

namespace TlpiLearn

/-- The string without the slashes at its end. -/
def stripSlashes (s : List UInt8) : List UInt8 := s.rdropWhile (· = slash)

/-- The string without the name at its end. -/
def stripName (s : List UInt8) : List UInt8 := s.rdropWhile (· ≠ slash)

/-- The last steps of `dirname`; `two` tells whether `//` is a directory of its own. -/
def dirnameEnd (two : Bool) (s : List UInt8) : List UInt8 :=
  if two ∧ s = [slash, slash] then s
  else if stripSlashes s = [] then [slash] else stripSlashes s

/-- `dirname`. -/
def dirname (two : Bool) (path : List UInt8) : List UInt8 :=
  if path = [slash, slash] then dirnameEnd two path
  else if path ≠ [] ∧ stripSlashes path = [] then [slash]
  else if slash ∉ stripSlashes path then [dot]
  else dirnameEnd two (stripName (stripSlashes path))

/-- The parts of a path between its slashes. -/
def components (path : List UInt8) : List (List UInt8) := path.splitOn slash

/-- The name of a file in its directory. -/
abbrev FileName :=
  { name : CString // name.val ≠ [] ∧ slash ∉ name.val ∧ name.val ≠ [dot] ∧ name.val ≠ [dot, dot] }

/-- The names with a slash in front of each. -/
def slashed (names : List FileName) : List UInt8 :=
  names.flatMap fun name : FileName => slash :: name.val.val

/-- The pathname of the file to which the names lead from the root; the last name comes first. -/
def pathname (names : List FileName) : List UInt8 :=
  if names = [] then [slash] else slashed names.reverse

variable {s f d : List UInt8}

theorem stripSlashes_append_slash (s : List UInt8) :
    stripSlashes (s ++ [slash]) = stripSlashes s :=
  List.rdropWhile_concat_pos _ _ _ (by simp)

theorem stripSlashes_eq_nil_iff : stripSlashes s = [] ↔ ∀ b ∈ s, b = slash := by
  simp [stripSlashes]

theorem isPrefix_stripSlashes (s : List UInt8) : stripSlashes s <+: s := List.rdropWhile_prefix _ _

/-- A string that does not end in a slash stays. -/
theorem stripSlashes_eq_self (h : s.getLast? ≠ some slash) : stripSlashes s = s := by
  refine List.rdropWhile_eq_self_iff.2 fun hne hlast => h ?_
  rw [List.getLast?_eq_getLast_of_ne_nil hne]
  simpa using hlast

theorem getLast?_stripSlashes (s : List UInt8) : (stripSlashes s).getLast? ≠ some slash := by
  intro h
  have hne : stripSlashes s ≠ [] := by
    intro hnil
    rw [hnil] at h
    cases h
  have hlast : ¬ (decide ((stripSlashes s).getLast hne = slash) = true) :=
    List.rdropWhile_last_not _ _ hne
  rw [List.getLast?_eq_getLast_of_ne_nil hne, Option.some.injEq] at h
  exact hlast (decide_eq_true h)

/-- A name behind a slash is the end of its path. -/
theorem getLast?_append_name (hf : slash ∉ f) (hne : f ≠ []) (d : List UInt8) :
    (d ++ slash :: f).getLast? ≠ some slash := by
  have hcons : (d ++ slash :: f).getLast? = f.getLast? := by
    rw [List.append_cons, List.getLast?_append_of_ne_nil _ hne]
  rw [hcons]
  exact fun h => hf (List.mem_of_getLast? h)

theorem stripName_append (hf : slash ∉ f) (d : List UInt8) :
    stripName (d ++ slash :: f) = d ++ [slash] := by
  induction f using List.reverseRecOn with
  | nil => exact List.rdropWhile_concat_neg _ _ _ (by simp)
  | append_singleton f b ih =>
    rw [List.mem_append, List.mem_singleton, not_or] at hf
    rw [← List.cons_append, ← List.append_assoc, stripName,
      List.rdropWhile_concat_pos _ _ _ (by simpa using Ne.symm hf.2)]
    exact ih hf.1

theorem stripName_eq_nil (h : slash ∉ s) : stripName s = [] := by
  refine List.rdropWhile_eq_nil_iff.2 fun b hb => ?_
  have hne : b ≠ slash := fun heq => h (heq ▸ hb)
  simpa using hne

/-- Every string with a slash has a last one. -/
theorem exists_last_slash (h : slash ∈ s) : ∃ d f, s = d ++ slash :: f ∧ slash ∉ f := by
  induction s using List.reverseRecOn with
  | nil => cases h
  | append_singleton s b ih =>
    by_cases hb : b = slash
    · exact ⟨s, [], by rw [hb], List.not_mem_nil⟩
    · have hs : slash ∈ s := by simpa [Ne.symm hb] using h
      obtain ⟨d, f, rfl, hf⟩ := ih hs
      exact ⟨d, f ++ [b], by simp, by simp [hf, Ne.symm hb]⟩

theorem length_dirnameEnd_le (two : Bool) (h : s ≠ []) : (dirnameEnd two s).length ≤ s.length := by
  rw [dirnameEnd]
  split_ifs
  · exact le_rfl
  · exact List.length_pos_iff.2 h
  · exact (isPrefix_stripSlashes s).length_le

theorem dirnameEnd_concat (two : Bool) (d : List UInt8) :
    dirnameEnd two (d ++ [slash]) =
      if two ∧ d = [slash] then [slash, slash]
      else if stripSlashes d = [] then [slash] else stripSlashes d := by
  have htwo : d ++ [slash] = [slash, slash] ↔ d = [slash] := by
    rw [show [slash, slash] = [slash] ++ [slash] from rfl, List.append_cancel_right_eq]
  rw [dirnameEnd, stripSlashes_append_slash]
  simp only [htwo]
  split_ifs with h
  · rw [h.2]
    rfl
  · rfl
  · rfl

/-- The directory of a single name. -/
theorem dirname_of_notMem (two : Bool) (h : slash ∉ stripSlashes s)
    (hs : s ≠ [] → stripSlashes s ≠ []) : dirname two s = [dot] := by
  have htwo : s ≠ [slash, slash] := by
    rintro rfl
    exact hs (by simp) (stripSlashes_eq_nil_iff.2 (by simp))
  rw [dirname, if_neg htwo, if_neg fun hnil => hs hnil.1 hnil.2, if_pos h]

/-- **The directory of a name** behind a slash, with slashes behind the name or not. -/
theorem dirname_of_name (two : Bool) (hf : slash ∉ f)
    (h : stripSlashes s = d ++ slash :: f) :
    dirname two s = dirnameEnd two (d ++ [slash]) := by
  have hnil : stripSlashes s ≠ [] := by simp [h]
  have htwo : s ≠ [slash, slash] := by
    rintro rfl
    exact hnil (stripSlashes_eq_nil_iff.2 (by simp))
  rw [dirname, if_neg htwo, if_neg fun hs => hnil hs.2, if_neg (by simp [h]), h,
    stripName_append hf]

/-! ## Components -/

@[simp] theorem components_nil : components [] = [[]] := List.splitOn_nil slash

/-- A slash separates the components on both sides of it. -/
theorem components_append (s t : List UInt8) :
    components (s ++ slash :: t) = components s ++ components t :=
  List.splitOn_append_cons_self s t

theorem components_of_notMem (h : slash ∉ s) : components s = [s] := List.splitOn_eq_singleton h

theorem slashed_concat (names : List FileName) (a : FileName) :
    slashed (names ++ [a]) = slashed names ++ slash :: a.val.val := by
  rw [slashed, List.flatMap_append, List.flatMap_singleton, slashed]

/-- **The components of a pathname** are its names, behind an empty one. -/
theorem components_slashed (names : List FileName) :
    components (slashed names) = [] :: names.map fun name : FileName => name.val.val := by
  induction names using List.reverseRecOn with
  | nil => exact components_nil
  | append_singleton names a ih =>
    rw [slashed_concat, components_append, ih, components_of_notMem a.property.2.1,
      List.map_append, List.map_singleton, List.cons_append]

theorem components_pathname (names : List FileName) :
    components (pathname names) = [] ::
      if names = [] then [[]] else names.reverse.map fun name : FileName => name.val.val := by
  rw [pathname]
  split_ifs
  · exact components_append [] []
  · exact components_slashed _

/-- A pathname is absolute. -/
theorem exists_pathname (names : List FileName) : ∃ s, pathname names = slash :: s := by
  rw [pathname]
  split_ifs with hnil
  · exact ⟨[], rfl⟩
  · obtain ⟨a, up, hcons⟩ := List.exists_cons_of_ne_nil (List.reverse_ne_nil_iff.2 hnil)
    exact ⟨a.val.val ++ slashed up, by rw [hcons, slashed, List.flatMap_cons, List.cons_append,
      slashed]⟩

end TlpiLearn
