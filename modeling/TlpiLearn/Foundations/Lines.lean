import Mathlib.Tactic

/-!
# Lines of a stream

A stream over any alphabet is cut into lines after each occurrence of a separator `nl`; the last
line may lack it. `firstLine` takes one line off a stream, `lines` cuts the whole stream, and
`nextLines k` is what `k` successive readers of one line each get, the empty list once the stream
is used up (`nextLines_eq`). `completeLines` is the stream up to its last separator.
-/

namespace TlpiLearn

variable {α : Type*} [DecidableEq α] (nl : α)

/-- The first line, separator included, and the rest of the stream. -/
def firstLine : List α → List α × List α
  | [] => ([], [])
  | b :: s => if b = nl then ([b], s) else (b :: (firstLine s).1, (firstLine s).2)

/-- The lines of a stream, separators included. -/
def lines : List α → List (List α)
  | [] => []
  | b :: s =>
    if b = nl then [b] :: lines s
    else
      match lines s with
      | [] => [[b]]
      | l :: ls => (b :: l) :: ls

/-- The results of taking a line `k` times. -/
def nextLines : ℕ → List α → List (List α)
  | 0, _ => []
  | k + 1, s => (firstLine nl s).1 :: nextLines k (firstLine nl s).2

/-- The stream up to its last separator. -/
def completeLines : List α → List α
  | [] => []
  | b :: s => if nl ∈ b :: s then b :: completeLines s else []

variable {nl}

@[simp] theorem firstLine_nil : firstLine nl [] = ([], []) := rfl

@[simp] theorem lines_nil : lines nl [] = [] := rfl

/-- The separator is only at the end of a line. -/
theorem notMem_dropLast_firstLine (nl : α) (s : List α) : nl ∉ (firstLine nl s).1.dropLast := by
  induction s with
  | nil => exact List.not_mem_nil
  | cons b s ih =>
    unfold firstLine
    split_ifs with hb
    · exact List.not_mem_nil
    · cases hfl : (firstLine nl s).1 with
      | nil => exact List.not_mem_nil
      | cons c l =>
        rw [hfl] at ih
        simp only [List.dropLast_cons_cons, List.mem_cons, not_or]
        exact ⟨Ne.symm hb, ih⟩

/-- The lines are the first line and the lines of the rest. -/
theorem lines_eq_cons {s : List α} (h : s ≠ []) :
    lines nl s = (firstLine nl s).1 :: lines nl (firstLine nl s).2 := by
  induction s with
  | nil => exact absurd rfl h
  | cons b s ih =>
    by_cases hb : b = nl
    · simp [firstLine, lines, hb]
    · cases s with
      | nil => simp [firstLine, lines, hb]
      | cons c s =>
        have hfl : firstLine nl (b :: c :: s)
            = (b :: (firstLine nl (c :: s)).1, (firstLine nl (c :: s)).2) := by
          rw [firstLine, if_neg hb]
        rw [hfl, lines, if_neg hb, ih (List.cons_ne_nil c s)]

theorem nextLines_nil (k : ℕ) : nextLines nl k ([] : List α) = List.replicate k [] := by
  induction k with
  | zero => rfl
  | succ k ih => rw [nextLines, firstLine_nil, ih, List.replicate_succ]

/-- **Taking lines** one after the other gives the lines of the stream and then nothing for
ever. -/
theorem nextLines_eq (k : ℕ) (s : List α) :
    nextLines nl k s = (lines nl s ++ List.replicate k []).take k := by
  induction k generalizing s with
  | zero => rfl
  | succ k ih =>
    by_cases hs : s = []
    · rw [hs, nextLines_nil, lines_nil, List.nil_append, List.take_of_length_le (by simp)]
    · rw [nextLines, ih, lines_eq_cons hs, List.cons_append, List.take_succ_cons,
        List.replicate_succ', ← List.append_assoc]
      congr 1
      refine (List.take_append_of_le_length ?_).symm
      rw [List.length_append, List.length_replicate]
      omega

/-! ## The number of lines -/

/-- A line more, if there is no separator yet in the line at its front. -/
theorem lines_cons_of_ne {b : α} (hb : b ≠ nl) {s l : List α} {ls : List (List α)}
    (hs : lines nl s = l :: ls) : lines nl (b :: s) = (b :: l) :: ls := by
  rw [lines, if_neg hb, hs]

theorem lines_ne_nil (nl : α) {s : List α} (hs : s ≠ []) : lines nl s ≠ [] := by
  rw [lines_eq_cons hs]
  exact List.cons_ne_nil _ _

/-- The lines make up the stream. -/
theorem flatten_lines (nl : α) (s : List α) : (lines nl s).flatten = s := by
  induction s with
  | nil => rfl
  | cons b s ih =>
    by_cases hb : b = nl
    · rw [lines, if_pos hb, List.flatten_cons, ih, hb, List.singleton_append]
    · cases hs : lines nl s with
      | nil =>
        rw [hs] at ih
        rw [lines, if_neg hb, hs, ← ih]
        rfl
      | cons l ls =>
        rw [hs, List.flatten_cons] at ih
        rw [lines_cons_of_ne hb hs, List.flatten_cons, List.cons_append, ih]

theorem ne_nil_of_mem_lines {s l : List α} (hl : l ∈ lines nl s) : l ≠ [] := by
  induction s generalizing l with
  | nil => cases hl
  | cons b s ih =>
    by_cases hb : b = nl
    · rw [lines, if_pos hb, List.mem_cons] at hl
      obtain rfl | hl := hl
      · exact List.cons_ne_nil _ _
      · exact ih hl
    · cases hs : lines nl s with
      | nil =>
        rw [lines, if_neg hb, hs, List.mem_singleton] at hl
        exact hl ▸ List.cons_ne_nil _ _
      | cons m ls =>
        rw [lines_cons_of_ne hb hs, List.mem_cons] at hl
        obtain rfl | hl := hl
        · exact List.cons_ne_nil _ _
        · exact ih (hs ▸ List.mem_cons_of_mem m hl)

/-- The separator ends a line, whatever comes behind it. -/
theorem lines_append_cons (w v : List α) :
    lines nl (w ++ nl :: v) = lines nl (w ++ [nl]) ++ lines nl v := by
  induction w with
  | nil => simp [lines]
  | cons b w ih =>
    by_cases hb : b = nl
    · rw [List.cons_append, List.cons_append, lines, lines, if_pos hb, if_pos hb, ih,
        List.cons_append]
    · obtain ⟨l, ls, hl⟩ := List.exists_cons_of_ne_nil (lines_ne_nil nl
        (List.append_ne_nil_of_right_ne_nil w (List.cons_ne_nil nl [])))
      rw [hl, List.cons_append] at ih
      rw [List.cons_append, List.cons_append, lines_cons_of_ne hb ih, lines_cons_of_ne hb hl,
        List.cons_append]

/-- **The number of lines** is the number of separators, with one more for what is behind the last
separator. -/
theorem length_lines (nl : α) (s : List α) :
    (lines nl s).length = s.count nl + if s.getLast? = some nl ∨ s = [] then 0 else 1 := by
  induction s with
  | nil => simp
  | cons b s ih =>
    cases s with
    | nil =>
      by_cases hb : b = nl
      · simp [lines, hb]
      · simp [lines, hb]
    | cons c' s =>
      rw [List.getLast?_cons_cons]
      simp only [List.cons_ne_nil, or_false] at ih ⊢
      by_cases hb : b = nl
      · rw [lines, if_pos hb, List.length_cons, ih, hb, List.count_cons_self]
        omega
      · obtain ⟨l, ls, hl⟩ := List.exists_cons_of_ne_nil
          (lines_ne_nil nl (List.cons_ne_nil c' s))
        rw [lines_cons_of_ne hb hl, List.length_cons, ← List.length_cons (a := l), ← hl, ih,
          List.count_cons_of_ne hb]

/-! ## A stream in parts -/

theorem firstLine_append_cons {w : List α} (hw : nl ∉ w) (v : List α) :
    firstLine nl (w ++ nl :: v) = (w ++ [nl], v) := by
  induction w with
  | nil => rw [List.nil_append, firstLine, if_pos rfl, List.nil_append]
  | cons b w ih =>
    rw [List.mem_cons, not_or] at hw
    rw [List.cons_append, firstLine, if_neg (Ne.symm hw.1), ih hw.2, List.cons_append]

/-- A stream without a separator is one line. -/
theorem firstLine_of_notMem {s : List α} (h : nl ∉ s) : firstLine nl s = (s, []) := by
  induction s with
  | nil => rfl
  | cons b s ih =>
    rw [List.mem_cons, not_or] at h
    rw [firstLine, if_neg (Ne.symm h.1), ih h.2]

/-- What has no separator is part of the first line. -/
theorem length_le_firstLine {w : List α} (hw : nl ∉ w) (v : List α) :
    w.length ≤ (firstLine nl (w ++ v)).1.length := by
  induction w with
  | nil => exact Nat.zero_le _
  | cons b w ih =>
    rw [List.mem_cons, not_or] at hw
    rw [List.cons_append, firstLine, if_neg (Ne.symm hw.1), List.length_cons, List.length_cons]
    exact Nat.succ_le_succ (ih hw.2)

/-- The rest of a stream has no longer lines. -/
theorem length_lines_of_append {m : ℕ} {w v : List α} (h : ∀ l ∈ lines nl (w ++ v), l.length ≤ m) :
    ∀ l ∈ lines nl v, l.length ≤ m := by
  induction w with
  | nil => exact h
  | cons b w ih =>
    refine ih fun l hl => ?_
    rw [List.cons_append] at h
    unfold lines at h
    split_ifs at h
    · exact h l (List.mem_cons_of_mem _ hl)
    · split at h
      · rename_i hnil
        rw [hnil] at hl
        cases hl
      · rename_i l₀ ls hcons
        rw [hcons] at hl
        rcases List.mem_cons.1 hl with rfl | hl
        · have hlen := h (b :: l) List.mem_cons_self
          rw [List.length_cons] at hlen
          omega
        · exact h l (List.mem_cons_of_mem _ hl)

theorem completeLines_of_notMem {s : List α} (hs : nl ∉ s) : completeLines nl s = [] := by
  cases s with
  | nil => rfl
  | cons b s => rw [completeLines, if_neg hs]

theorem completeLines_append_cons (w v : List α) :
    completeLines nl (w ++ nl :: v) = w ++ nl :: completeLines nl v := by
  induction w with
  | nil => rw [List.nil_append, completeLines, if_pos List.mem_cons_self, List.nil_append]
  | cons b w ih =>
    have hmem : nl ∈ b :: (w ++ nl :: v) := by simp
    rw [List.cons_append, completeLines, if_pos hmem, ih, List.cons_append]

/-- A line that ends with its separator. -/
def IsLine (nl : α) (l : List α) : Prop := ∃ w, l = w ++ [nl] ∧ nl ∉ w

theorem lines_append_of_isLine {l : List α} (hl : IsLine nl l) (v : List α) :
    lines nl (l ++ v) = l :: lines nl v := by
  obtain ⟨w, rfl, hw⟩ := hl
  rw [List.append_assoc, List.singleton_append, lines_eq_cons (by simp), firstLine_append_cons hw]

/-- **Terminated lines** are cut off one by one. -/
theorem lines_flatten_append {ls : List (List α)} (hls : ∀ l ∈ ls, IsLine nl l) (v : List α) :
    lines nl (ls.flatten ++ v) = ls ++ lines nl v := by
  induction ls with
  | nil => rfl
  | cons l ls ih =>
    rw [List.flatten_cons, List.append_assoc, lines_append_of_isLine (hls l List.mem_cons_self),
      ih fun l hl => hls l (List.mem_cons_of_mem _ hl), List.cons_append]

theorem completeLines_flatten_append {ls : List (List α)} (hls : ∀ l ∈ ls, IsLine nl l)
    (v : List α) : completeLines nl (ls.flatten ++ v) = ls.flatten ++ completeLines nl v := by
  induction ls with
  | nil => rfl
  | cons l ls ih =>
    obtain ⟨w, rfl, -⟩ := hls l List.mem_cons_self
    rw [List.flatten_cons, List.append_assoc, List.append_assoc, List.singleton_append,
      completeLines_append_cons, ih fun l hl => hls l (List.mem_cons_of_mem _ hl),
      List.append_assoc, List.append_assoc, List.singleton_append]

theorem completeLines_isPrefix (nl : α) (s : List α) : completeLines nl s <+: s := by
  induction s with
  | nil => exact List.prefix_rfl
  | cons b s ih =>
    unfold completeLines
    split_ifs
    · exact (List.prefix_cons_inj b).2 ih
    · exact List.nil_prefix

/-- Complete lines end with a separator. -/
theorem eq_of_mem_getLast?_completeLines {s : List α} {b : α}
    (hb : b ∈ (completeLines nl s).getLast?) : b = nl := by
  induction s with
  | nil => cases hb
  | cons c s ih =>
    unfold completeLines at hb
    split_ifs at hb with hmem
    · by_cases hs : nl ∈ s
      · obtain ⟨w, v, hwv, -⟩ := List.eq_append_cons_of_mem hs
        have hne : completeLines nl s ≠ [] := by
          rw [hwv, completeLines_append_cons]
          simp
        rw [List.getLast?_cons_of_ne_nil hne] at hb
        exact ih hb
      · rw [completeLines_of_notMem hs, List.getLast?_singleton, Option.mem_some_iff] at hb
        exact hb ▸ ((List.mem_cons.1 hmem).resolve_right hs).symm
    · cases hb

/-- A stream is made of complete lines if it ends with a separator. -/
theorem completeLines_eq_self_iff {s : List α} :
    completeLines nl s = s ↔ ∀ b ∈ s.getLast?, b = nl := by
  constructor
  · intro h b hb
    rw [← h] at hb
    exact eq_of_mem_getLast?_completeLines hb
  · intro h
    rcases s.eq_nil_or_concat' with rfl | ⟨s, b, rfl⟩
    · rfl
    · rw [h b (by simp), completeLines_append_cons]
      rfl

end TlpiLearn
