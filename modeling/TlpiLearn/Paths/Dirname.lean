import TlpiLearn.Foundations.Pathname
import Mathlib.Tactic

/-!
# `dirname` in a buffer of the thread

`ts_dirname` and `tls_dirname` of `31_2/ts_dirname.c`. Both copy the pathname and cut the copy at
its last slash, with one slash at the end left out; they differ in where the buffer comes from.
`dirname_iff` says for which pathnames that is `dirname`.
-/

namespace TlpiLearn.Dirname

/-- `MAXLINE`. -/
def MAXLINE : ℕ := 1024

/-- `strcpy(buf, ".")`. -/
def copyDot (buf : List UInt8) : List UInt8 := dot :: 0 :: buf.drop 2

/-- The loop, from the byte in front of `i` down. -/
def scan (buf : List UInt8) : ℕ → List UInt8
  | 0 => copyDot buf
  | i + 1 =>
    if buf[i]? = some slash then
      let buf := buf.set i 0
      if i = 0 then copyDot buf else buf
    else scan buf i

/-- The two functions on their buffer. The call faults (`none`) if the copy is not terminated. -/
def cutName (buf : List UInt8) (pathname : CString) : Option (List UInt8) :=
  let buf := strncpy MAXLINE pathname ++ buf.drop MAXLINE
  if 0 ∉ buf then none
  else if (cstr buf).length ≠ 0 then
    let i := (cstr buf).length - 1
    let buf := if buf[i]? = some slash then buf.set i 0 else buf
    some (scan buf (i + 1))
  else some (copyDot buf)

/-- `ts_dirname`: the buffer is the thread's, or new from `malloc`. The result is a null pointer or
the buffer. -/
def ts_dirname (specific malloc : Option (List UInt8)) (pathname : CString) :
    Option (Option (List UInt8)) :=
  match specific.or malloc with
  | none => some none
  | some buf => (cutName buf pathname).map some

/-- `tls_dirname`. -/
def tls_dirname (buf : List UInt8) (pathname : CString) : Option (Option (List UInt8)) :=
  (cutName buf pathname).map some

/-- The call returns the string `s`. -/
def Returns (r : Option (Option (List UInt8))) (s : List UInt8) : Prop :=
  r.map (Option.map cstr) = some (some s)

/-- The string in front of its last slash, as the loop cuts it. -/
def cutAt (s : List UInt8) : List UInt8 :=
  if (stripName s).length ≤ 1 then [dot] else (stripName s).dropLast

/-- The string without one slash at its end. -/
def stripSlash (s : List UInt8) : List UInt8 :=
  if s.getLast? = some slash then s.dropLast else s

/-- The pathnames for which the cut is the right one: without a slash, or with a directory in front
of the last slash that does not end in one, or one of two more. -/
def Right (two : Bool) (s : List UInt8) : Prop :=
  slash ∉ stripSlash s ∧ s ≠ [slash] ∨
    (∃ d f, stripSlash s = d ++ slash :: f ∧ slash ∉ f ∧ f ≠ [] ∧ d ≠ [] ∧
      (d.getLast? ≠ some slash ∨ d = [slash] ∧ two = false)) ∨
    s = [dot, slash, slash] ∨ s = [slash, slash, slash]

variable {buf s d f : List UInt8}

/-! ## The loop -/

/-- A string with a slash is cut in front of the last one, unless that is the first byte. -/
theorem cutAt_append (hf : slash ∉ f) (d : List UInt8) :
    cutAt (d ++ slash :: f) = if d = [] then [dot] else d := by
  rw [cutAt, stripName_append hf, List.dropLast_concat, List.length_append]
  refine if_congr ?_ rfl rfl
  simp

theorem cutAt_of_notMem (h : slash ∉ s) : cutAt s = [dot] := by
  rw [cutAt, stripName_eq_nil h]
  rfl

theorem cutAt_concat_of_ne {b : UInt8} (h : b ≠ slash) (s : List UInt8) :
    cutAt (s ++ [b]) = cutAt s := by
  have hstrip : stripName (s ++ [b]) = stripName s :=
    List.rdropWhile_concat_pos _ _ _ (by simpa using h)
  rw [cutAt, hstrip, cutAt]

theorem cstr_copyDot (buf : List UInt8) : cstr (copyDot buf) = [dot] :=
  cstr_append_cons_zero (s := [dot]) (by decide) _

theorem getElem?_cstr {i : ℕ} (hi : i < (cstr buf).length) :
    buf[i]? = some (cstr buf)[i] := by
  obtain ⟨t, ht⟩ := cstr_prefix_mem buf
  calc buf[i]? = (cstr buf ++ t)[i]? := by rw [ht]
    _ = (cstr buf)[i]? := List.getElem?_append_left hi
    _ = some (cstr buf)[i] := List.getElem?_eq_getElem hi

/-- **The loop** cuts the string at the last slash in front of `n`. -/
theorem cstr_scan {n : ℕ} (hn : n ≤ (cstr buf).length) :
    cstr (scan buf n) = cutAt ((cstr buf).take n) := by
  induction n with
  | zero => exact cstr_copyDot buf
  | succ n ih =>
    have hlast : (cstr buf).take (n + 1) = (cstr buf).take n ++ [(cstr buf)[n]] :=
      (List.take_append_getElem hn).symm
    have hget := getElem?_cstr hn
    rw [scan, hlast]
    by_cases hslash : (cstr buf)[n] = slash
    · rw [if_pos (hget.trans (congrArg some hslash)), hslash, cutAt_append List.not_mem_nil]
      by_cases hzero : n = 0
      · rw [if_pos hzero, cstr_copyDot, hzero, List.take_zero, if_pos rfl]
      · have hne : (cstr buf).take n ≠ [] := by
          rw [ne_eq, ← List.length_eq_zero_iff, List.length_take]
          omega
        rw [if_neg hzero, cstr_set, if_neg hne]
    · have hslash' : ¬ buf[n]? = some slash := by
        rw [hget, Option.some.injEq]
        exact hslash
      rw [if_neg hslash', ih (by omega), cutAt_concat_of_ne hslash]

/-- The loop behind the test of the last byte. -/
theorem cstr_scan_last (h : cstr buf ≠ []) :
    cstr (scan (if buf[(cstr buf).length - 1]? = some slash then
      buf.set ((cstr buf).length - 1) 0 else buf) ((cstr buf).length - 1 + 1)) =
      cutAt (stripSlash (cstr buf)) := by
  have hpos : 0 < (cstr buf).length := List.length_pos_iff.2 h
  have hlt : (cstr buf).length - 1 < (cstr buf).length := by omega
  have hlast : buf[(cstr buf).length - 1]? = (cstr buf).getLast? := by
    rw [getElem?_cstr hlt, List.getLast?_eq_getElem?, List.getElem?_eq_getElem hlt]
  rw [stripSlash, hlast]
  by_cases hslash : (cstr buf).getLast? = some slash
  · -- the first turn of the loop meets the new end of the string
    have hlen : (cstr buf).length ≤ buf.length := (cstr_prefix_mem buf).length_le
    have hend : (buf.set ((cstr buf).length - 1) 0)[(cstr buf).length - 1]? = some 0 :=
      List.getElem?_set_self (by omega)
    have hcut : cstr (buf.set ((cstr buf).length - 1) 0) = (cstr buf).dropLast := cstr_set_pred buf
    rw [if_pos hslash, if_pos hslash, scan, if_neg (by rw [hend]; decide),
      cstr_scan (by rw [hcut, List.length_dropLast]), hcut,
      List.take_of_length_le (by rw [List.length_dropLast])]
  · rw [if_neg hslash, if_neg hslash, Nat.sub_add_cancel hpos, cstr_scan le_rfl, List.take_length]

/-- **The whole call** on a pathname that fits: one slash at the end is left out. -/
theorem cutName_of_lt (buf : List UInt8) (pathname : CString)
    (h : pathname.val.length < MAXLINE) :
    ∃ buf', cutName buf pathname = some buf' ∧ cstr buf' = cutAt (stripSlash pathname) := by
  have hcopy : cstr (strncpy MAXLINE pathname) = pathname :=
    cstr_strncpy (fun b hb hb0 => pathname.property (hb0 ▸ hb)) h
  have hzero : 0 ∈ strncpy MAXLINE pathname :=
    zero_mem_of_length_lt (by rw [hcopy, length_strncpy]; exact h)
  have hstr : cstr (strncpy MAXLINE pathname ++ buf.drop MAXLINE) = pathname := by
    rw [cstr_append hzero, hcopy]
  have hzero' : 0 ∈ strncpy MAXLINE pathname ++ buf.drop MAXLINE := List.mem_append_left _ hzero
  rw [cutName, if_neg (not_not.2 hzero')]
  by_cases hnil : pathname.val = []
  · rw [if_neg (not_not.2 (by rw [hstr, hnil]; rfl)), hnil]
    exact ⟨_, rfl, cstr_copyDot _⟩
  · have hne : cstr (strncpy MAXLINE pathname ++ buf.drop MAXLINE) ≠ [] := by rwa [hstr]
    rw [if_pos (List.length_pos_iff.2 hne).ne']
    exact ⟨_, rfl, (cstr_scan_last hne).trans (by rw [hstr])⟩

/-! ## Against `dirname` -/

theorem stripSlash_cases (s : List UInt8) :
    s = stripSlash s ∧ (stripSlash s).getLast? ≠ some slash ∨ s = stripSlash s ++ [slash] := by
  rw [stripSlash]
  split_ifs with h
  · obtain ⟨t, rfl⟩ := List.getLast?_eq_some_iff.1 h
    exact .inr (by rw [List.dropLast_concat])
  · exact .inl ⟨rfl, h⟩

theorem stripSlashes_stripSlash (s : List UInt8) :
    stripSlashes (stripSlash s) = stripSlashes s := by
  obtain ⟨h, -⟩ | h := stripSlash_cases s
  · rw [← h]
  · nth_rewrite 2 [h]
    exact (stripSlashes_append_slash _).symm

/-- A pathname without another slash than one at its end. -/
theorem cut_iff_of_notMem (two : Bool) (h : slash ∉ stripSlash s) :
    cutAt (stripSlash s) = dirname two s ↔ s ≠ [slash] := by
  rw [cutAt_of_notMem h]
  constructor
  · rintro hdot rfl
    revert hdot
    cases two <;> decide
  · intro hne
    have hsub : ∀ b ∈ stripSlashes s, b ∈ stripSlash s := by
      rw [← stripSlashes_stripSlash]
      exact fun b hb => (isPrefix_stripSlashes _).subset hb
    refine (dirname_of_notMem two (fun hmem => h (hsub _ hmem)) fun hs hnil => ?_).symm
    have hempty : stripSlash s = [] := by
      rw [← stripSlashes_stripSlash, stripSlashes_eq_nil_iff] at hnil
      refine List.eq_nil_iff_forall_not_mem.2 fun b hb => h ?_
      rwa [← hnil b hb]
    obtain ⟨heq, -⟩ | heq := stripSlash_cases s
    · exact hs (heq.trans hempty)
    · exact hne (by rw [heq, hempty, List.nil_append])

/-- A pathname with a name behind its last slash. -/
theorem cut_iff_of_name (two : Bool) (h : stripSlash s = d ++ slash :: f) (hf : slash ∉ f)
    (hne : f ≠ []) :
    cutAt (stripSlash s) = dirname two s ↔
      d ≠ [] ∧ (d.getLast? ≠ some slash ∨ d = [slash] ∧ two = false) := by
  have hstrip : stripSlashes s = d ++ slash :: f := by
    rw [← stripSlashes_stripSlash, h]
    exact stripSlashes_eq_self (getLast?_append_name hf hne d)
  rw [h, cutAt_append hf, dirname_of_name two hf hstrip, dirnameEnd_concat]
  by_cases hnil : d = []
  · subst hnil
    cases two <;> decide
  rw [if_neg hnil, and_iff_right hnil]
  by_cases hlast : d.getLast? = some slash
  · have hshorter : d ≠ stripSlashes d := by
      intro heq
      exact getLast?_stripSlashes d (by rwa [← heq])
    rw [or_iff_right (not_not.2 hlast)]
    by_cases hone : d = [slash]
    · subst hone
      cases two <;> decide
    · rw [if_neg fun htwo => hone htwo.2]
      split_ifs
      · simp [hone]
      · simp [hone, hshorter]
  · have hone : d ≠ [slash] := by
      rintro rfl
      exact hlast rfl
    rw [if_neg fun htwo => hone htwo.2, stripSlashes_eq_self hlast, if_neg hnil]
    exact iff_of_true rfl (.inl hlast)

/-- A pathname with two slashes at its end. -/
theorem cut_iff_of_slash (two : Bool) (h : stripSlash s = d ++ [slash]) :
    cutAt (stripSlash s) = dirname two s ↔ s = [dot, slash, slash] ∨ s = [slash, slash, slash] := by
  have hs : s = d ++ [slash] ++ [slash] := by
    obtain ⟨-, hlast⟩ | heq := stripSlash_cases s
    · exact absurd (by rw [h, List.getLast?_concat]) hlast
    · rw [heq, h]
  have hstrip : stripSlashes s = stripSlashes d := by
    rw [hs, stripSlashes_append_slash, stripSlashes_append_slash]
  rw [h, cutAt_append List.not_mem_nil]
  have hdot : s = [dot, slash, slash] ↔ d = [dot] := by
    rw [hs, show [dot, slash, slash] = [dot] ++ [slash] ++ [slash] from rfl,
      List.append_cancel_right_eq, List.append_cancel_right_eq]
  have hslash : s = [slash, slash, slash] ↔ d = [slash] := by
    rw [hs, show [slash, slash, slash] = [slash] ++ [slash] ++ [slash] from rfl,
      List.append_cancel_right_eq, List.append_cancel_right_eq]
  rw [hdot, hslash]
  by_cases hnil : d = []
  · subst hnil
    rw [hs]
    cases two <;> decide
  rw [if_neg hnil]
  by_cases hall : stripSlashes d = []
  · -- slashes only
    have hdot' : d ≠ [dot] := by
      rintro rfl
      exact absurd hall (by decide)
    have htwo : s ≠ [slash, slash] := by
      rw [hs, show [slash, slash] = [] ++ [slash] ++ [slash] from rfl, ne_eq,
        List.append_cancel_right_eq, List.append_cancel_right_eq]
      exact hnil
    have hne : s ≠ [] := by simp [hs]
    rw [dirname, if_neg htwo, if_pos ⟨hne, hstrip.trans hall⟩]
    exact (or_iff_right hdot').symm
  · by_cases hmem : slash ∈ stripSlashes d
    · -- the directory is shorter than what is in front of the two slashes
      obtain ⟨e, g, heq, hg⟩ := exists_last_slash hmem
      have hlen := length_dirnameEnd_le two (show e ++ [slash] ≠ [] by simp)
      have hle : (stripSlashes d).length ≤ d.length := (isPrefix_stripSlashes d).length_le
      have hgne : g ≠ [] := by
        rintro rfl
        exact getLast?_stripSlashes d (by rw [heq, List.getLast?_concat])
      have hpos : 0 < g.length := List.length_pos_iff.2 hgne
      rw [dirname_of_name two hg (hstrip.trans heq)]
      refine iff_of_false (fun hd => ?_) ?_
      · rw [heq, hd, List.length_append, List.length_cons] at hle
        rw [List.length_append, List.length_singleton] at hlen
        omega
      · rintro (rfl | rfl)
        · exact absurd hmem (by decide)
        · exact absurd hmem (by decide)
    · rw [dirname_of_notMem two (hstrip ▸ hmem) fun _ => hstrip ▸ hall]
      refine (or_iff_left ?_).symm
      rintro rfl
      exact hall (by decide)

/-- **The cut is the directory** for these pathnames and no others. -/
theorem cut_iff (two : Bool) (s : List UInt8) :
    cutAt (stripSlash s) = dirname two s ↔ Right two s := by
  have hthree (h : s = [dot, slash, slash] ∨ s = [slash, slash, slash]) :
      (stripSlash s).getLast? = some slash := by
    obtain rfl | rfl := h <;> decide
  by_cases hmem : slash ∈ stripSlash s
  · obtain ⟨d, f, h, hf⟩ := exists_last_slash hmem
    rw [Right, or_iff_right fun hnot => hnot.1 hmem]
    by_cases hne : f = []
    · subst hne
      rw [cut_iff_of_slash two h]
      refine (or_iff_right ?_).symm
      rintro ⟨d', f', h', hf', hne', -⟩
      refine getLast?_append_name hf' hne' d' ?_
      rw [← h', h, List.getLast?_concat]
    · have hlast := getLast?_append_name hf hne d
      rw [← h] at hlast
      rw [cut_iff_of_name two h hf hne, or_iff_left fun hs => hlast (hthree hs)]
      constructor
      · rintro ⟨hd, hright⟩
        exact ⟨d, f, h, hf, hne, hd, hright⟩
      · rintro ⟨d', f', h', hf', -, hd, hright⟩
        have heq : d' ++ [slash] = d ++ [slash] := by
          rw [← stripName_append hf', ← h', h, stripName_append hf]
        obtain rfl : d' = d := List.append_cancel_right heq
        exact ⟨hd, hright⟩
  · rw [cut_iff_of_notMem two hmem, Right]
    constructor
    · exact fun hs => .inl ⟨hmem, hs⟩
    · rintro (⟨-, hs⟩ | ⟨d, f, h, -⟩ | hs)
      · exact hs
      · exact absurd (by simp [h]) hmem
      · exact absurd (List.mem_of_getLast? (hthree hs)) hmem

/-- **When both functions return what `dirname` does**: the pathname is one of `Right`, and
`ts_dirname` has a buffer. -/
theorem dirname_iff (two : Bool) (specific malloc : Option (List UInt8)) (buf : List UInt8)
    (pathname : CString) (h : pathname.val.length < MAXLINE) :
    Returns (ts_dirname specific malloc pathname) (dirname two pathname) ∧
        Returns (tls_dirname buf pathname) (dirname two pathname) ↔
      specific.or malloc ≠ none ∧ Right two pathname := by
  have htls : Returns (tls_dirname buf pathname) (dirname two pathname) ↔ Right two pathname := by
    obtain ⟨buf', hbuf', hstr⟩ := cutName_of_lt buf pathname h
    rw [← cut_iff, ← hstr, Returns, tls_dirname, hbuf']
    simp
  have hts : Returns (ts_dirname specific malloc pathname) (dirname two pathname) ↔
      specific.or malloc ≠ none ∧ Right two pathname := by
    rw [ts_dirname]
    cases specific.or malloc with
    | none => simp [Returns]
    | some buf =>
      obtain ⟨buf', hbuf', hstr⟩ := cutName_of_lt buf pathname h
      rw [← cut_iff, ← hstr, Returns]
      simp [hbuf']
  rw [hts, htls, and_iff_left_of_imp And.right]

/-- `a/b` in a new buffer. -/
theorem dirname_slash_name :
    Returns (ts_dirname none (some (List.replicate MAXLINE 0)) ⟨[97, 47, 98], by decide⟩)
        (dirname true [97, 47, 98]) ∧
      Returns (tls_dirname (List.replicate MAXLINE 0) ⟨[97, 47, 98], by decide⟩)
        (dirname true [97, 47, 98]) :=
  (dirname_iff true none (some (List.replicate MAXLINE 0)) (List.replicate MAXLINE 0)
    ⟨[97, 47, 98], by decide⟩ (by decide)).2
    ⟨by simp, .inr (.inl ⟨[97], [98], rfl, by decide, by decide, by decide, .inl (by decide)⟩)⟩

/-- The directory of `/a` is the root. -/
theorem not_dirname_root :
    ¬ ∃ two,
      Returns (ts_dirname none (some (List.replicate MAXLINE 0)) ⟨[47, 97], by decide⟩)
          (dirname two [47, 97]) ∧
        Returns (tls_dirname (List.replicate MAXLINE 0) ⟨[47, 97], by decide⟩)
          (dirname two [47, 97]) := by
  rintro ⟨two, -, h⟩
  obtain ⟨buf', hbuf', hstr⟩ :=
    cutName_of_lt (List.replicate MAXLINE 0) ⟨[47, 97], by decide⟩ (by decide)
  rw [Returns, tls_dirname, hbuf'] at h
  have hroot : cutAt (stripSlash [47, 97]) = dirname two [47, 97] := by
    rw [← hstr]
    simpa using h
  revert hroot
  cases two <;> decide

end TlpiLearn.Dirname
