import TlpiLearn.Environ.SetEnv
import Mathlib.Tactic

/-!
# A copy of `unsetenv`

`my_unsetenv` of `6_3.c`. The buffer of the search is never emptied, so that the name of an entry
comes behind the names of the entries in front of it (`joined`), and the search stops at the first
entry where these make up the name that was asked for. `my_unsetenv_removes_iff` says when that
removes every definition of the name and nothing else.
-/

namespace TlpiLearn.UnsetEnv

open SetEnv (MAXLINE Environ)

/-- `""`. -/
def emptyString : CString := ⟨[], List.not_mem_nil⟩

/-- The inner loop: the string in the buffer is cut at its first equals sign. -/
def cut (env_name : List UInt8) : List UInt8 :=
  if equals ∈ cstr env_name then
    env_name.set ((cstr env_name).findIdx fun b => !decide (b ≠ equals)) 0
  else env_name

/-- The loop of `my_unsetenv`, with its buffer. -/
def search (env_name : List UInt8) (name : CString) : List CString → Option (ℤ × List CString)
  | [] => some (-1, [])
  | p :: ps => do
    let env_name ← strcat env_name p
    let env_name := cut env_name
    let z ← strcmp env_name name
    if z = 0 then some (0, emptyString :: ps)
    else (search env_name name ps).map fun r => (r.1, p :: r.2)

/-- `my_unsetenv`. It faults on a null `environ` and where its buffer is too small. -/
def my_unsetenv (name : CString) : Environ → Option (ℤ × Environ)
  | none => none
  | some es => (search (List.replicate MAXLINE 0) name es).map fun r => (r.1, some r.2)

/-- **What `unsetenv` does**: no entry defines the name any more, and the other entries are still
there, in their order. -/
def Removes (name : CString) (es es' : List CString) : Prop :=
  (∀ e ∈ es', ¬ Defines name e) ∧
    List.Sublist (es.filter fun e : CString => ¬ Defines name e) es'

/-- The names of the first `k` entries, put together. -/
def joined (es : List CString) (k : ℕ) : List UInt8 :=
  (es.take k).flatMap fun e : CString => nameOf e

/-- The names of the entries in front of the `k`-th, with `b` in front of them, do not make up
`name` at any of them. -/
def Unmatched (b : List UInt8) (name : CString) (es : List CString) (k : ℕ) : Prop :=
  ∀ j < k, b ++ joined es (j + 1) ≠ name

/-- The calls that remove the name: the buffer is large enough for the search, an entry that
defines the name is the first one at which the names make it up, and the first one at which they
do defines it, or is empty. -/
structure RemovesWhen (name : CString) (es : List CString) : Prop where
  fits : ∀ k (e : CString), es[k]? = some e → Unmatched [] name es k →
    (joined es k).length + e.val.length < MAXLINE
  found : ∀ k (e : CString), es[k]? = some e → Defines name e →
    Unmatched [] name es k ∧ joined es (k + 1) = name
  right : ∀ k (e : CString), es[k]? = some e → Unmatched [] name es k → joined es (k + 1) = name →
    Defines name e ∨ e = emptyString

variable {b mem : List UInt8} {name : CString} {es : List CString}

/-! ## The buffer -/

theorem length_cut (mem : List UInt8) : (cut mem).length = mem.length := by
  rw [cut]
  split_ifs
  · exact List.length_set
  · rfl

theorem cstr_cut (mem : List UInt8) : cstr (cut mem) = nameOf (cstr mem) := by
  rw [cut]
  split_ifs with heq
  · rw [cstr_set, nameOf, List.takeWhile_eq_take_findIdx_not]
  · rw [nameOf_eq_self heq]

/-- The buffer at the end of a turn of the loop. -/
theorem exists_buffer (name : CString) (hmem : equals ∉ cstr mem) {e : CString}
    (h : (cstr mem).length + e.val.length < mem.length) :
    ∃ mem' z, strcat mem e = some mem' ∧ strcmp (cut mem') name = some z ∧
      (z = 0 ↔ cstr mem ++ nameOf e = name) ∧ (cut mem').length = mem.length ∧
      cstr (cut mem') = cstr mem ++ nameOf e := by
  obtain ⟨mem', hmem', -, hlen, hstr⟩ := exists_strcat e.property h
  have hcut : cstr (cut mem') = cstr mem ++ nameOf e := by
    rw [cstr_cut, hstr, nameOf_append_of_notMem hmem]
  have hle : (nameOf e).length ≤ e.val.length := (List.takeWhile_prefix _).length_le
  have hzero : 0 ∈ cut mem' := by
    refine zero_mem_of_length_lt ?_
    rw [hcut, length_cut, hlen, List.length_append]
    omega
  have hname : ∀ c ∈ name.val, c ≠ 0 := fun c hc hc0 => name.property (hc0 ▸ hc)
  obtain ⟨z, hz, hiff⟩ := strcmp_eq hzero hname
  exact ⟨mem', z, hmem', hz, hcut ▸ hiff, (length_cut mem').trans hlen, hcut⟩

/-! ## The search -/

theorem joined_zero (es : List CString) : joined es 0 = [] := rfl

theorem joined_cons_succ (e : CString) (es : List CString) (k : ℕ) :
    joined (e :: es) (k + 1) = nameOf e ++ joined es k := rfl

theorem unmatched_zero (b : List UInt8) (name : CString) (es : List CString) :
    Unmatched b name es 0 := fun j hj => absurd hj (Nat.not_lt_zero j)

/-- The names behind the first entry. -/
theorem unmatched_cons_succ_iff {e : CString} {k : ℕ} :
    Unmatched b name (e :: es) (k + 1) ↔
      b ++ nameOf e ≠ name ∧ Unmatched (b ++ nameOf e) name es k := by
  simp only [Unmatched, joined_cons_succ, ← List.append_assoc]
  constructor
  · intro h
    exact ⟨by simpa [joined_zero] using h 0 (Nat.succ_pos k),
      fun j hj => h (j + 1) (Nat.succ_lt_succ hj)⟩
  · rintro ⟨hzero, hsucc⟩ j hj
    cases j with
    | zero => simpa [joined_zero] using hzero
    | succ j => exact hsucc j (Nat.lt_of_succ_lt_succ hj)

/-- **What the search does**: it runs off its buffer, or reaches the end of the list, or empties
the first entry at which the names make up the name. -/
theorem search_cases (mem : List UInt8) (name : CString) (es : List CString)
    (hmem : equals ∉ cstr mem) :
    (∃ k, ∃ e : CString, es[k]? = some e ∧ Unmatched (cstr mem) name es k ∧
        mem.length ≤ (cstr mem ++ joined es k).length + e.val.length ∧
        search mem name es = none) ∨
      (∀ k (e : CString), es[k]? = some e → Unmatched (cstr mem) name es k →
        (cstr mem ++ joined es k).length + e.val.length < mem.length) ∧
      (Unmatched (cstr mem) name es es.length ∧ search mem name es = some (-1, es) ∨
        ∃ k < es.length, Unmatched (cstr mem) name es k ∧
          cstr mem ++ joined es (k + 1) = name ∧
          search mem name es = some (0, es.set k emptyString)) := by
  induction es generalizing mem with
  | nil => exact .inr ⟨by simp, .inl ⟨unmatched_zero _ _ _, rfl⟩⟩
  | cons e es ih =>
    by_cases hfits : (cstr mem).length + e.val.length < mem.length
    · obtain ⟨mem', z, hstrcat, hz, hiff, hlen, hstr⟩ := exists_buffer name hmem hfits
      have hmem' : equals ∉ cstr (cut mem') := by
        rw [hstr, List.mem_append]
        exact not_or.2 ⟨hmem, equals_notMem_nameOf e⟩
      by_cases hmatch : cstr mem ++ nameOf e = name
      · refine .inr ⟨fun k d hd hun => ?_, .inr ⟨0, Nat.succ_pos _, unmatched_zero _ _ _, ?_, ?_⟩⟩
        · cases k with
          | zero =>
            cases hd
            simpa [joined_zero] using hfits
          | succ k => exact absurd hmatch (unmatched_cons_succ_iff.1 hun).1
        · simpa [joined_cons_succ, joined_zero] using hmatch
        · simp [search, hstrcat, hz, hiff.2 hmatch]
      · have hsearch : search mem name (e :: es) =
            (search (cut mem') name es).map fun r => (r.1, e :: r.2) := by
          simp [search, hstrcat, hz, mt hiff.1 hmatch]
        have happend (k : ℕ) : cstr mem ++ joined (e :: es) (k + 1) =
            cstr (cut mem') ++ joined es k := by
          rw [joined_cons_succ, hstr, List.append_assoc]
        have hun (k : ℕ) : Unmatched (cstr mem) name (e :: es) (k + 1) ↔
            Unmatched (cstr (cut mem')) name es k := by
          rw [unmatched_cons_succ_iff, hstr]
          exact and_iff_right hmatch
        rw [hsearch]
        obtain ⟨k, d, hd, hk, hle, hnone⟩ | ⟨hfit, hend⟩ := ih (cut mem') hmem'
        · refine .inl ⟨k + 1, d, hd, (hun k).2 hk, ?_, by rw [hnone, Option.map_none]⟩
          rwa [happend, ← hlen]
        · refine .inr ⟨fun k d hd hk => ?_, ?_⟩
          · cases k with
            | zero =>
              cases hd
              simpa [joined_zero] using hfits
            | succ k =>
              rw [happend, ← hlen]
              exact hfit k d hd ((hun k).1 hk)
          · obtain ⟨hk, hrun⟩ | ⟨k, hlt, hk, hjoined, hrun⟩ := hend
            · exact .inl ⟨(hun _).2 hk, by rw [hrun, Option.map_some]⟩
            · refine .inr ⟨k + 1, Nat.succ_lt_succ hlt, (hun k).2 hk, ?_, ?_⟩
              · rw [happend, hjoined]
              · rw [hrun, Option.map_some, List.set_cons_succ]
    · refine .inl ⟨0, e, rfl, unmatched_zero _ _ _, ?_, ?_⟩
      · simpa [joined_zero] using hfits
      · have hnone : strcat mem e = none := strcat_eq_none_iff.2 (not_lt.1 hfits)
        simp [search, hnone]

/-! ## The list behind the search -/

theorem not_defines_emptyString (name : CString) : ¬ Defines name emptyString :=
  fun h => List.not_mem_nil h.1

/-- A list without definitions of the name. -/
theorem removes_self_iff : Removes name es es ↔ ∀ e ∈ es, ¬ Defines name e :=
  and_iff_left List.filter_sublist

/-- An emptied entry has to be the only definition of the name, or to be empty before. -/
theorem removes_set_iff {k : ℕ} {e : CString} (he : es[k]? = some e) :
    Removes name es (es.set k emptyString) ↔
      (∀ j d, j ≠ k → es[j]? = some d → ¬ Defines name (d : CString)) ∧
        (Defines name e ∨ e = emptyString) := by
  obtain ⟨hk, rfl⟩ := List.getElem?_eq_some_iff.1 he
  constructor
  · rintro ⟨hnone, hsub⟩
    have hother (j : ℕ) (d : CString) (hj : j ≠ k) (hd : es[j]? = some d) : ¬ Defines name d := by
      refine hnone d (List.mem_of_getElem? (i := j) ?_)
      rw [List.getElem?_set_ne hj.symm, hd]
    refine ⟨hother, or_iff_not_imp_left.2 fun hdef => ?_⟩
    have hall : ∀ d ∈ es, ¬ Defines name d := by
      intro d hd
      obtain ⟨j, hj⟩ := List.mem_iff_getElem?.1 hd
      obtain rfl | hne := eq_or_ne j k
      · obtain rfl : es[j] = d := Option.some.inj (he.symm.trans hj)
        exact hdef
      · exact hother j d hne hj
    have hfilter : es.filter (fun d : CString => ¬ Defines name d) = es :=
      List.filter_eq_self.2 fun d hd => decide_eq_true (hall d hd)
    rw [hfilter] at hsub
    have heq : es = es.set k emptyString := hsub.eq_of_length List.length_set.symm
    have hget : (es.set k emptyString)[k]? = some emptyString := List.getElem?_set_self hk
    rw [← heq, he] at hget
    exact Option.some.inj hget
  · rintro ⟨hother, hdef⟩
    have hsplit : es = es.take k ++ es[k] :: es.drop (k + 1) := by
      rw [← List.drop_eq_getElem_cons hk, List.take_append_drop]
    constructor
    · intro d hd
      obtain ⟨j, hj⟩ := List.mem_iff_getElem?.1 hd
      obtain rfl | hne := eq_or_ne j k
      · rw [List.getElem?_set_self hk] at hj
        cases hj
        exact not_defines_emptyString name
      · rw [List.getElem?_set_ne hne.symm] at hj
        exact hother j d hne hj
    · obtain hdef | hempty := hdef
      · rw [List.set_eq_take_append_cons_drop, if_pos hk]
        nth_rewrite 1 [hsplit]
        rw [List.filter_append, List.filter_cons_of_neg (by simpa using hdef)]
        exact List.filter_sublist.append (List.filter_sublist.trans (List.sublist_cons_self _ _))
      · rw [← hempty, List.set_getElem_self]
        exact List.filter_sublist

/-! ## The condition -/

/-- There is only one first entry at which the names make up the name. -/
theorem Unmatched.eq {j k : ℕ} (hj : Unmatched b name es j)
    (hjoined : b ++ joined es (j + 1) = name) (hk : Unmatched b name es k)
    (hjoined' : b ++ joined es (k + 1) = name) : j = k := by
  obtain hlt | heq | hgt := lt_trichotomy j k
  · exact absurd hjoined (hk j hlt)
  · exact heq
  · exact absurd hjoined' (hj k hgt)

/-- The condition where the names make up the name nowhere. -/
theorem removesWhen_iff_of_unmatched
    (hfits : ∀ k (e : CString), es[k]? = some e → Unmatched [] name es k →
      (joined es k).length + e.val.length < MAXLINE)
    (hend : Unmatched [] name es es.length) :
    RemovesWhen name es ↔ ∀ e ∈ es, ¬ Defines name e := by
  have hnever {k : ℕ} {e : CString} (he : es[k]? = some e) : joined es (k + 1) ≠ name :=
    hend k (List.getElem?_eq_some_iff.1 he).1
  constructor
  · intro h e he hdef
    obtain ⟨k, hk⟩ := List.mem_iff_getElem?.1 he
    exact hnever hk (h.found k e hk hdef).2
  · intro hnone
    exact ⟨hfits, fun k e he hdef => absurd hdef (hnone e (List.mem_of_getElem? he)),
      fun k e he _ hjoined => absurd hjoined (hnever he)⟩

/-- The condition where the names make up the name first at the entry `e`. -/
theorem removesWhen_iff_of_matched
    (hfits : ∀ k (e : CString), es[k]? = some e → Unmatched [] name es k →
      (joined es k).length + e.val.length < MAXLINE)
    {k : ℕ} {e : CString} (he : es[k]? = some e) (hk : Unmatched [] name es k)
    (hjoined : joined es (k + 1) = name) :
    RemovesWhen name es ↔ (∀ j d, j ≠ k → es[j]? = some d → ¬ Defines name (d : CString)) ∧
      (Defines name e ∨ e = emptyString) := by
  constructor
  · intro h
    refine ⟨fun j d hne hd hdefines => ?_, h.right k e he hk hjoined⟩
    obtain ⟨hj, hjoined'⟩ := h.found j d hd hdefines
    exact hne (hj.eq hjoined' hk hjoined)
  · rintro ⟨hother, hdef⟩
    refine ⟨hfits, fun j d hd hdefines => ?_, fun j d hd hj hjoined' => ?_⟩
    · obtain rfl : j = k := by
        by_contra hne
        exact hother j d hne hd hdefines
      exact ⟨hk, hjoined⟩
    · obtain rfl := hj.eq hjoined' hk hjoined
      obtain rfl : e = d := Option.some.inj (he.symm.trans hd)
      exact hdef

/-- **When `my_unsetenv` removes its name** and nothing else. -/
theorem my_unsetenv_removes_iff (name : CString) (es : List CString) :
    (∃ r es', my_unsetenv name (some es) = some (r, some es') ∧ Removes name es es') ↔
      RemovesWhen name es := by
  have hstr : cstr (List.replicate MAXLINE 0) = [] := SetEnv.cstr_zero
  have hcases := search_cases (List.replicate MAXLINE 0) name es
    (hstr ▸ List.not_mem_nil)
  simp only [hstr, List.nil_append, List.length_replicate] at hcases
  obtain ⟨k, e, he, hk, hle, hnone⟩ | ⟨hfits, ⟨hend, hrun⟩ | ⟨k, hlt, hk, hjoined, hrun⟩⟩ := hcases
  · -- the buffer is too small
    constructor
    · rintro ⟨r, es', hr, -⟩
      rw [my_unsetenv, hnone] at hr
      cases hr
    · intro h
      exact absurd (h.fits k e he hk) (not_lt.2 hle)
  · -- the names make up the name nowhere
    rw [removesWhen_iff_of_unmatched hfits hend, ← removes_self_iff, my_unsetenv, hrun]
    simp
  · obtain ⟨e, he⟩ : ∃ e, es[k]? = some e := ⟨es[k], List.getElem?_eq_getElem hlt⟩
    rw [removesWhen_iff_of_matched hfits he hk hjoined, ← removes_set_iff he, my_unsetenv, hrun]
    simp

/-- A definition behind another entry stays: `a=1`, `b=1` without `b`. -/
theorem not_removes_second :
    ¬ ∃ r es', my_unsetenv ⟨[98], by decide⟩
        (some [⟨[97, 61, 49], by decide⟩, ⟨[98, 61, 49], by decide⟩]) = some (r, some es') ∧
      Removes ⟨[98], by decide⟩ [⟨[97, 61, 49], by decide⟩, ⟨[98, 61, 49], by decide⟩] es' := by
  rintro ⟨r, es', hr, hremoves⟩
  have hstr : cstr (List.replicate MAXLINE 0) = [] := SetEnv.cstr_zero
  have hcases := search_cases (List.replicate MAXLINE 0) ⟨[98], by decide⟩
    [⟨[97, 61, 49], by decide⟩, ⟨[98, 61, 49], by decide⟩] (hstr ▸ List.not_mem_nil)
  simp only [hstr, List.nil_append] at hcases
  obtain ⟨-, -, -, -, -, hnone⟩ | ⟨-, ⟨-, hrun⟩ | ⟨k, hlt, -, hjoined, -⟩⟩ := hcases
  · rw [my_unsetenv, hnone] at hr
    cases hr
  · rw [my_unsetenv, hrun] at hr
    cases hr
    exact absurd (removes_self_iff.1 hremoves) (by decide)
  · obtain rfl | rfl : k = 0 ∨ k = 1 := by
      change k < 2 at hlt
      omega
    · exact absurd hjoined (by decide)
    · exact absurd hjoined (by decide)

end TlpiLearn.UnsetEnv
