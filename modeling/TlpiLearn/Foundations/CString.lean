import Mathlib.Data.List.TakeWhile
import Mathlib.Tactic

/-!
# Null-terminated strings

`cstr mem` is the string at the start of a block of memory. `strncpy`, `strcat` and `strcmp` follow
the C standard; `strcmp` runs off the block (`none`) when neither a null byte nor a difference comes
in time. `cstr_strncpy` reads a copied string back, `strcat_eq_some` a longer one, and `strcmp_eq`
says what the comparison decides.
-/

namespace TlpiLearn

/-- The bytes of a string, without the null byte at its end. -/
abbrev CString := {s : List UInt8 // 0 ∉ s}

/-- The bytes of an ASCII text. -/
def ascii (s : String) : List UInt8 := s.toList.map fun c => UInt8.ofNat c.toNat

/-- The bytes in front of the first null byte. -/
def cstr (mem : List UInt8) : List UInt8 := mem.takeWhile (· ≠ 0)

/-- The `n` bytes that `strncpy(dst, src, n)` writes. -/
def strncpy (n : ℕ) (src : List UInt8) : List UInt8 :=
  src.take n ++ List.replicate (n - src.length) 0

/-- `strcat`: the bytes `s` and a null byte go behind the string at the start of `mem`. It runs off
the block (`none`) when they do not fit. -/
def strcat (mem s : List UInt8) : Option (List UInt8) :=
  if (cstr mem).length + s.length < mem.length then
    some (cstr mem ++ s ++ 0 :: mem.drop ((cstr mem).length + s.length + 1))
  else none

/-- `strcmp` of the string at the start of `mem` with the string of the bytes `s`. -/
def strcmp : List UInt8 → List UInt8 → Option ℤ
  | [], _ => none
  | a :: _, [] => some a.toNat
  | a :: mem, b :: s =>
    if a ≠ b then some (a.toNat - b.toNat) else if a = 0 then some 0 else strcmp mem s

@[simp] theorem length_strncpy (n : ℕ) (src : List UInt8) : (strncpy n src).length = n := by
  rw [strncpy, List.length_append, List.length_take, List.length_replicate]
  omega

/-- A string ends inside its own block. -/
theorem cstr_append {mem : List UInt8} (h : 0 ∈ mem) (rest : List UInt8) :
    cstr (mem ++ rest) = cstr mem := by
  induction mem with
  | nil => cases h
  | cons a mem ih =>
    by_cases ha : a = 0
    · simp [cstr, ha]
    · have hmem : 0 ∈ mem := (List.mem_cons.1 h).resolve_left (Ne.symm ha)
      have ih' := ih hmem
      simp only [cstr] at ih' ⊢
      rw [List.cons_append, List.takeWhile_cons_of_pos (by simpa using ha),
        List.takeWhile_cons_of_pos (by simpa using ha), ih']

/-- The terminator behind a string changes nothing. -/
@[simp] theorem cstr_append_zero (s : List UInt8) : cstr (s ++ [0]) = cstr s := by
  induction s with
  | nil => rfl
  | cons a s ih =>
    by_cases ha : a = 0
    · simp [cstr, ha]
    · simp only [cstr] at ih ⊢
      rw [List.cons_append, List.takeWhile_cons_of_pos (by simpa using ha),
        List.takeWhile_cons_of_pos (by simpa using ha), ih]

/-- Bytes without a null byte are one string. -/
theorem cstr_eq_self {s : List UInt8} (hs : 0 ∉ s) : cstr s = s := by
  refine List.takeWhile_eq_self_iff.2 fun b hb => ?_
  have hne : b ≠ 0 := fun hb0 => hs (hb0 ▸ hb)
  simpa using hne

theorem cstr_prefix_mem (mem : List UInt8) : cstr mem <+: mem := List.takeWhile_prefix _

theorem zero_notMem_cstr (mem : List UInt8) : 0 ∉ cstr mem := by
  intro h
  simpa using List.mem_takeWhile_imp h

/-- The string is empty if the block begins with a null byte. -/
theorem cstr_eq_nil_iff {mem : List UInt8} (h : mem ≠ []) :
    cstr mem = [] ↔ mem.head? = some 0 := by
  obtain ⟨a, mem, rfl⟩ := List.exists_cons_of_ne_nil h
  rw [List.head?_cons, Option.some.injEq, cstr, List.takeWhile_cons]
  by_cases ha : a = 0
  · simp [ha]
  · simp [ha]

/-- A null byte that is written into a block cuts its string. -/
theorem cstr_set (mem : List UInt8) (i : ℕ) : cstr (mem.set i 0) = (cstr mem).take i := by
  induction mem generalizing i with
  | nil => simp [cstr]
  | cons a mem ih =>
    by_cases ha : a = 0
    · cases i <;> simp [cstr, ha]
    · have hcons (mem : List UInt8) : cstr (a :: mem) = a :: cstr mem :=
        List.takeWhile_cons_of_pos (by simpa using ha)
      cases i with
      | zero => simp [cstr]
      | succ i => rw [List.set_cons_succ, hcons, hcons, ih, List.take_succ_cons]

/-- A null byte behind the string changes nothing. -/
theorem cstr_set_zero {mem : List UInt8} {i : ℕ} (hi : (cstr mem).length ≤ i) :
    cstr (mem.set i 0) = cstr mem := by
  rw [cstr_set, List.take_of_length_le hi]

/-- A null byte in the place of the last byte of the string. -/
theorem cstr_set_pred (mem : List UInt8) :
    cstr (mem.set ((cstr mem).length - 1) 0) = (cstr mem).dropLast := by
  rw [cstr_set, List.dropLast_eq_take]

/-- A string that is shorter than its block ends in it. -/
theorem zero_mem_of_length_lt {mem : List UInt8} (h : (cstr mem).length < mem.length) :
    0 ∈ mem := by
  by_contra hzero
  rw [cstr_eq_self hzero] at h
  exact lt_irrefl _ h

theorem length_cstr_lt {mem : List UInt8} (h : 0 ∈ mem) : (cstr mem).length < mem.length := by
  refine lt_of_le_of_ne (cstr_prefix_mem mem).length_le fun heq => zero_notMem_cstr mem ?_
  rwa [(cstr_prefix_mem mem).eq_of_length heq]

/-- A string reaches up to the first null byte. -/
theorem cstr_append_cons_zero {s : List UInt8} (hs : 0 ∉ s) (rest : List UInt8) :
    cstr (s ++ 0 :: rest) = s := by
  have hsplit : s ++ 0 :: rest = s ++ [0] ++ rest := by simp
  rw [hsplit, cstr_append (by simp), cstr_append_zero, cstr_eq_self hs]

/-- **A longer string** ends in the same block. -/
theorem strcat_eq_some {mem s mem' : List UInt8} (hs : 0 ∉ s) (h : strcat mem s = some mem') :
    0 ∈ mem' ∧ mem'.length = mem.length ∧ cstr mem' = cstr mem ++ s := by
  rw [strcat] at h
  split_ifs at h with hfits
  cases h
  refine ⟨by simp, ?_, cstr_append_cons_zero (by simp [zero_notMem_cstr, hs]) _⟩
  simp only [List.length_append, List.length_cons, List.length_drop]
  omega

theorem strcat_eq_none_iff {mem s : List UInt8} :
    strcat mem s = none ↔ mem.length ≤ (cstr mem).length + s.length := by
  rw [strcat]
  split_ifs with hfits
  · exact iff_of_false (by simp) (not_le.2 hfits)
  · exact iff_of_true rfl (not_lt.1 hfits)

theorem exists_strcat {mem s : List UInt8} (hs : 0 ∉ s)
    (h : (cstr mem).length + s.length < mem.length) :
    ∃ mem', strcat mem s = some mem' ∧ 0 ∈ mem' ∧ mem'.length = mem.length ∧
      cstr mem' = cstr mem ++ s := by
  obtain ⟨mem', hmem'⟩ := Option.ne_none_iff_exists'.1 (mt strcat_eq_none_iff.1 (not_le.2 h))
  exact ⟨mem', hmem', strcat_eq_some hs hmem'⟩

/-- **A copied string** with room for the terminator is read back. -/
theorem cstr_strncpy {n : ℕ} {src : List UInt8} (hsrc : ∀ b ∈ src, b ≠ 0) (h : src.length < n) :
    cstr (strncpy n src) = src := by
  obtain ⟨m, hm⟩ : ∃ m, n - src.length = m + 1 := ⟨n - src.length - 1, by omega⟩
  rw [cstr, strncpy, List.take_of_length_le h.le, hm, List.replicate_succ,
    List.takeWhile_append_of_pos (by simpa using hsrc), List.takeWhile_cons_of_neg (by simp),
    List.append_nil]

/-- A block starts with a text and a terminator when the text is the string at its start. -/
theorem cstr_eq_iff {mem s : List UInt8} (hs : 0 ∉ s) :
    0 ∈ mem ∧ cstr mem = s ↔ s ++ [0] <+: mem := by
  constructor
  · rintro ⟨hmem, rfl⟩
    clear hs
    induction mem with
    | nil => cases hmem
    | cons a mem ih =>
      by_cases ha : a = 0
      · exact ⟨mem, by simp [cstr, ha]⟩
      · have hcons : cstr (a :: mem) = a :: cstr mem :=
          List.takeWhile_cons_of_pos (by simpa using ha)
        have hmem' : 0 ∈ mem := (List.mem_cons.1 hmem).resolve_left (Ne.symm ha)
        rw [hcons, List.cons_append]
        exact (List.prefix_cons_inj a).2 (ih hmem')
  · rintro ⟨rest, rfl⟩
    constructor
    · simp
    · rw [cstr_append (by simp), cstr_append_zero, cstr_eq_self hs]

/-- `strncpy` of the string in a block copies a short string with its terminator. -/
theorem prefix_strncpy_iff {n : ℕ} {mem s : List UInt8} (hs : 0 ∉ s)
    (hmem : mem.length = n) : s ++ [0] <+: strncpy n (cstr mem) ↔ s ++ [0] <+: mem := by
  rw [← cstr_eq_iff hs, ← cstr_eq_iff hs]
  have hnonzero : ∀ b ∈ cstr mem, b ≠ 0 := fun b hb hb0 => zero_notMem_cstr mem (hb0 ▸ hb)
  by_cases hzero : 0 ∈ mem
  · have hlt : (cstr mem).length < n := hmem ▸ length_cstr_lt hzero
    have hcopy : cstr (strncpy n (cstr mem)) = cstr mem := cstr_strncpy hnonzero hlt
    have hend : 0 ∈ strncpy n (cstr mem) :=
      zero_mem_of_length_lt (by rw [hcopy, length_strncpy]; exact hlt)
    rw [hcopy]
    exact and_congr_left fun _ => iff_of_true hend hzero
  · -- an unterminated block is copied as it is
    have hcopy : strncpy n (cstr mem) = mem := by
      rw [cstr_eq_self hzero, strncpy, List.take_of_length_le hmem.le, hmem, Nat.sub_self,
        List.replicate_zero, List.append_nil]
    rw [hcopy]

/-- **A comparison** with a terminated block tells whether the strings are equal. -/
theorem strcmp_eq {mem s : List UInt8} (hmem : 0 ∈ mem) (hs : ∀ b ∈ s, b ≠ 0) :
    ∃ z, strcmp mem s = some z ∧ (z = 0 ↔ cstr mem = s) := by
  induction mem generalizing s with
  | nil => cases hmem
  | cons a mem ih =>
    have hzero : (a.toNat : ℤ) = 0 ↔ a = 0 := by
      rw [← UInt8.toNat_inj]
      simp
    cases s with
    | nil =>
      refine ⟨a.toNat, rfl, ?_⟩
      rw [hzero]
      by_cases ha : a = 0
      · simp [cstr, ha]
      · simp [cstr, ha]
    | cons b s =>
      have hb : b ≠ 0 := hs b List.mem_cons_self
      by_cases hab : a = b
      · have ha : a ≠ 0 := hab ▸ hb
        have hmem' : 0 ∈ mem := (List.mem_cons.1 hmem).resolve_left (Ne.symm ha)
        obtain ⟨z, hz, hiff⟩ := ih hmem' fun c hc => hs c (List.mem_cons_of_mem _ hc)
        refine ⟨z, ?_, ?_⟩
        · rw [strcmp, if_neg (not_not.2 hab), if_neg ha, hz]
        · rw [hiff, cstr, cstr, List.takeWhile_cons_of_pos (by simpa using ha), hab]
          simp
      · refine ⟨a.toNat - b.toNat, ?_, ?_⟩
        · rw [strcmp, if_pos hab]
        · have hne : (a.toNat : ℤ) ≠ b.toNat := by
            intro h
            exact hab (UInt8.toNat_inj.1 (Int.ofNat_inj.1 h))
          have hstr : cstr (a :: mem) ≠ b :: s := by
            intro h
            by_cases ha : a = 0
            · simp [cstr, ha] at h
            · rw [cstr, List.takeWhile_cons_of_pos (by simpa using ha), List.cons.injEq] at h
              exact hab h.1
          exact iff_of_false (by omega) hstr

/-- **A comparison with any block** gives zero if the string and its terminator stand at the start
of the block. -/
theorem strcmp_eq_zero_iff {mem s : List UInt8} (hs : 0 ∉ s) :
    strcmp mem s = some 0 ↔ s ++ [0] <+: mem := by
  induction mem generalizing s with
  | nil => simp [strcmp]
  | cons a mem ih =>
    cases s with
    | nil =>
      rw [strcmp, Option.some.injEq, List.nil_append, List.cons_prefix_cons]
      simp [← UInt8.toNat_inj, eq_comm]
    | cons b s =>
      have hb : b ≠ 0 := fun h => hs (h ▸ List.mem_cons_self)
      rw [strcmp, List.cons_append, List.cons_prefix_cons]
      by_cases hab : a = b
      · subst hab
        rw [if_neg (not_not.2 rfl), if_neg hb, ih fun h => hs (List.mem_cons_of_mem _ h)]
        exact (and_iff_right rfl).symm
      · rw [if_pos hab, Option.some.injEq]
        refine iff_of_false (fun h => hab ?_) fun h => hab h.1.symm
        exact UInt8.toNat_inj.1 (by omega)

/-- **The sign of a comparison** of two strings tells which one comes first in the order of their
bytes. -/
theorem strcmp_compare {s s' : List UInt8} (hs : 0 ∉ s) (hs' : 0 ∉ s') :
    ∃ z, strcmp (s ++ [0]) s' = some z ∧ compare z 0 = compare s s' := by
  induction s generalizing s' with
  | nil =>
    cases s' with
    | nil => exact ⟨0, rfl, rfl⟩
    | cons b s' =>
      have hb : (0 : UInt8) ≠ b := fun h => hs' (h ▸ List.mem_cons_self)
      have hpos : b.toNat ≠ 0 := fun h => hb (UInt8.toNat_inj.1 h.symm)
      refine ⟨(0 : UInt8).toNat - b.toNat, if_pos hb, ?_⟩
      rw [List.compare_nil_cons, compare_lt_iff_lt, UInt8.toNat_zero]
      omega
  | cons a s ih =>
    have ha : a ≠ 0 := fun h => hs (h ▸ List.mem_cons_self)
    have hpos : a.toNat ≠ 0 := fun h => ha (UInt8.toNat_inj.1 h)
    cases s' with
    | nil =>
      refine ⟨a.toNat, rfl, ?_⟩
      rw [List.compare_cons_nil, compare_gt_iff_gt]
      omega
    | cons b s' =>
      rw [List.compare_cons_cons]
      by_cases hab : a = b
      · subst hab
        obtain ⟨z, hz, hcmp⟩ := ih (fun h => hs (List.mem_cons_of_mem _ h))
          fun h => hs' (List.mem_cons_of_mem _ h)
        refine ⟨z, ?_, ?_⟩
        · rw [List.cons_append, strcmp, if_neg (not_not.2 rfl), if_neg ha, hz]
        · have hself : compare a a = .eq := Std.ReflCmp.compare_self
          rw [hcmp, hself]
          rfl
      · have hne : a.toNat ≠ b.toNat := fun h => hab (UInt8.toNat_inj.1 h)
        refine ⟨a.toNat - b.toNat, if_pos hab, ?_⟩
        obtain hlt | hgt := Nat.lt_or_gt_of_ne hne
        · have hcmp : compare a b = .lt := compareOfLessAndEq_eq_lt.2 (UInt8.lt_iff_toNat_lt.2 hlt)
          rw [hcmp, compare_lt_iff_lt.2 (by omega)]
          rfl
        · have hcmp : compare b a = .lt := compareOfLessAndEq_eq_lt.2 (UInt8.lt_iff_toNat_lt.2 hgt)
          rw [Std.OrientedCmp.gt_of_lt hcmp, compare_gt_iff_gt.2 (by omega)]
          rfl

end TlpiLearn
