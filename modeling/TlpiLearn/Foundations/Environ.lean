import TlpiLearn.Foundations.CString
import TlpiLearn.Foundations.Constants
import Mathlib.Tactic

/-!
# The environment

A list of strings, most of them `name=value`. `getenv` and `putenv` are those of the GNU C library:
the first entry that defines a name counts, a variable without a name is never found, and a list
grows at its end. `getenv_putenv` says that `putenv` sets the variable in front of the first equals
sign of its string, and no other.
-/

namespace TlpiLearn

/-- The name of an entry. -/
def nameOf (s : List UInt8) : List UInt8 := s.takeWhile (· ≠ equals)

/-- `Defines name s`: the string `s` is a definition of `name`. -/
def Defines (name s : List UInt8) : Prop := equals ∈ s ∧ nameOf s = name

instance (name s : List UInt8) : Decidable (Defines name s) :=
  inferInstanceAs (Decidable (equals ∈ s ∧ nameOf s = name))

/-- The value in an entry that starts with the name and an equals sign. -/
def valueOf (name s : List UInt8) : Option (List UInt8) :=
  if name ++ [equals] <+: s then some (s.drop (name.length + 1)) else none

/-- `getenv`. -/
def getenv (name : List UInt8) (es : List CString) : Option (List UInt8) :=
  if name = [] then none else es.findSome? fun e : CString => valueOf name e

/-- The list with `s` in the place of the first entry that starts with the name, or at its end. -/
def addEntry (name : List UInt8) (s : CString) : List CString → List CString
  | [] => [s]
  | e :: es => if (valueOf name e).isSome then s :: es else e :: addEntry name s es

/-- `putenv` of a string with an equals sign; `room` says whether there is memory for a longer
list. -/
def putenv (room : Bool) (s : CString) (es : List CString) : List CString :=
  if room ∨ ∃ e ∈ es, (valueOf (nameOf s) e).isSome then addEntry (nameOf s) s es else es

/-! ## Names -/

theorem equals_notMem_nameOf (s : List UInt8) : equals ∉ nameOf s := by
  intro h
  simpa using List.mem_takeWhile_imp h

theorem nameOf_eq_self {s : List UInt8} (h : equals ∉ s) : nameOf s = s := by
  refine List.takeWhile_eq_self_iff.2 fun b hb => ?_
  have hne : b ≠ equals := fun heq => h (heq ▸ hb)
  simpa using hne

theorem nameOf_append_of_notMem {s : List UInt8} (h : equals ∉ s) (t : List UInt8) :
    nameOf (s ++ t) = s ++ nameOf t := by
  have hself : s.takeWhile (· ≠ equals) = s := nameOf_eq_self h
  rw [nameOf, List.takeWhile_append, hself, if_pos rfl, nameOf]

/-- An entry with an equals sign is its name, and its value behind it. -/
theorem exists_value {s : List UInt8} (h : equals ∈ s) : ∃ v, s = nameOf s ++ equals :: v := by
  induction s with
  | nil => cases h
  | cons b s ih =>
    by_cases hb : b = equals
    · exact ⟨s, by simp [nameOf, hb]⟩
    · obtain ⟨v, hv⟩ := ih ((List.mem_cons.1 h).resolve_left (Ne.symm hb))
      have hcons : nameOf (b :: s) = b :: nameOf s :=
        List.takeWhile_cons_of_pos (by simpa using hb)
      exact ⟨v, by rw [hcons, List.cons_append, ← hv]⟩

theorem nameOf_append_equals {name : List UInt8} (hname : equals ∉ name) (v : List UInt8) :
    nameOf (name ++ equals :: v) = name := by
  rw [nameOf_append_of_notMem hname]
  simp [nameOf]

theorem valueOf_eq_some_iff {name s v : List UInt8} :
    valueOf name s = some v ↔ s = name ++ equals :: v := by
  rw [valueOf]
  constructor
  · intro h
    split_ifs at h with hpre
    obtain ⟨t, rfl⟩ := hpre
    cases h
    simp
  · rintro rfl
    have hpre : name ++ [equals] <+: name ++ equals :: v := ⟨v, by simp⟩
    rw [if_pos hpre, List.drop_append, List.drop_of_length_le (by omega)]
    simp

/-- The entries that have a value for a variable are its definitions. -/
theorem isSome_valueOf_iff {name s : List UInt8} (hname : equals ∉ name) :
    (valueOf name s).isSome ↔ Defines name s := by
  rw [Option.isSome_iff_exists]
  constructor
  · rintro ⟨v, hv⟩
    obtain rfl := valueOf_eq_some_iff.1 hv
    exact ⟨by simp, nameOf_append_equals hname v⟩
  · rintro ⟨heq, rfl⟩
    obtain ⟨v, hv⟩ := exists_value heq
    exact ⟨v, valueOf_eq_some_iff.2 hv⟩

theorem valueOf_eq_none_iff {name s : List UInt8} (hname : equals ∉ name) :
    valueOf name s = none ↔ ¬ Defines name s := by
  rw [← isSome_valueOf_iff hname, Option.not_isSome_iff_eq_none]

/-! ## Lookups -/

variable {name : List UInt8} {es : List CString}

/-- A variable is undefined if no entry defines it. -/
theorem getenv_eq_none_iff (hname : equals ∉ name) (hne : name ≠ []) :
    getenv name es = none ↔ ∀ e ∈ es, ¬ Defines name e := by
  rw [getenv, if_neg hne, List.findSome?_eq_none_iff]
  exact forall₂_congr fun e _ => valueOf_eq_none_iff hname

theorem getenv_cons {m : List UInt8} (hne : m ≠ []) (e : CString) (es : List CString) :
    getenv m (e :: es) = (valueOf m e).or (getenv m es) := by
  rw [getenv, getenv, if_neg hne, if_neg hne, List.findSome?_cons]
  cases valueOf m e <;> rfl

/-- The variable of the new entry has its value, and the others keep theirs. -/
theorem getenv_addEntry (es : List CString) {m v : List UInt8} {s : CString} (hm : equals ∉ m)
    (hne : m ≠ []) (hname : equals ∉ name) (hs : valueOf name s = some v) :
    getenv m (addEntry name s es) = if m = name then some v else getenv m es := by
  have hother {e : CString} (he : (valueOf name e).isSome) (hmn : m ≠ name) :
      valueOf m e = none := by
    rw [valueOf_eq_none_iff hm]
    rintro ⟨-, rfl⟩
    exact hmn ((isSome_valueOf_iff hname).1 he).2
  have hself : (valueOf name s).isSome := by rw [hs]; rfl
  induction es with
  | nil =>
    rw [addEntry, getenv_cons hne]
    split_ifs with hmn
    · rw [hmn, hs, Option.some_or]
    · rw [hother hself hmn, Option.none_or]
  | cons e es ih =>
    rw [addEntry]
    split_ifs with he hmn hmn
    · rw [getenv_cons hne, hmn, hs, Option.some_or]
    · rw [getenv_cons hne, getenv_cons hne, hother hself hmn, hother he hmn]
    · rw [getenv_cons hne, ih, if_pos hmn, hmn, Option.not_isSome_iff_eq_none.1 he, Option.none_or]
    · rw [getenv_cons hne, ih, if_neg hmn, getenv_cons hne]

/-- **`putenv` sets one variable** if its string has a name, and if there is a definition of it to
replace or room for a new one. -/
theorem getenv_putenv (es : List CString) {m : List UInt8} {s : CString} {v : List UInt8}
    (hm : equals ∉ m) (hs : s.val = nameOf s ++ equals :: v) (room : Bool) :
    getenv m (putenv room s es) =
      if m = nameOf s ∧ m ≠ [] ∧ (room ∨ getenv m es ≠ none) then some v else getenv m es := by
  obtain rfl | hne := eq_or_ne m []
  · simp [getenv]
  have hname := equals_notMem_nameOf s
  have hadd := getenv_addEntry es hm hne hname (valueOf_eq_some_iff.2 hs)
  have hroom (h : m = nameOf s) : (room ∨ ∃ e ∈ es, (valueOf (nameOf s) e).isSome) ↔
      (room ∨ getenv m es ≠ none) := by
    rw [ne_eq, getenv_eq_none_iff hm hne, h]
    simp only [isSome_valueOf_iff hname, not_forall, not_not, exists_prop]
  by_cases hmn : m = nameOf s
  · rw [putenv, apply_ite (getenv m), hadd, if_pos hmn]
    exact if_congr ((hroom hmn).trans (by simp [hmn, hmn ▸ hne])) rfl rfl
  · rw [if_neg fun h => hmn h.1, putenv]
    split_ifs with h
    · rw [hadd, if_neg hmn]
    · rfl

end TlpiLearn
