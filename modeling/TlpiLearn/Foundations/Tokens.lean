import TlpiLearn.Foundations.Lines
import Mathlib.Data.List.TakeWhile
import Mathlib.Tactic

/-!
# Pieces, tokens and occurrences

A stream is read with a buffer of limited size: `pieces` cuts it at each separator `nl` and wherever
the buffer is full. `strtok` takes the next token off a text, the delimiters in front of it and the
one behind it being dropped. `strstr` looks for a text within another one; where a byte does not
occur in what it looks for, it looks on either side of that byte (`isInfix_append_cons_iff`).
-/

namespace TlpiLearn

variable {α : Type*}

section Pieces

variable [DecidableEq α]

/-- What `fgets` reads into a buffer with room for `max` bytes, call after call; `cur` is what the
call under way has read. -/
def fgetsPieces (nl : α) (max : ℕ) : List α → List α → List (List α)
  | cur, [] => if cur = [] then [] else [cur]
  | cur, b :: s =>
    if b = nl ∨ cur.length + 1 = max then (cur ++ [b]) :: fgetsPieces nl max [] s
    else fgetsPieces nl max (cur ++ [b]) s

variable {nl : α} {max : ℕ}

theorem flatten_fgetsPieces (nl : α) (max : ℕ) (cur s : List α) :
    (fgetsPieces nl max cur s).flatten = cur ++ s := by
  induction s generalizing cur with
  | nil =>
    rw [fgetsPieces]
    split_ifs with hcur
    · rw [hcur]
      rfl
    · rw [List.flatten_singleton, List.append_nil]
  | cons b s ih =>
    rw [fgetsPieces]
    split_ifs
    · rw [List.flatten_cons, ih, List.nil_append, List.append_assoc, List.singleton_append]
    · rw [ih, List.append_assoc, List.singleton_append]

/-- A text without a separator that leaves room is part of the piece. -/
theorem fgetsPieces_append {w cur : List α} (hw : nl ∉ w) (h : cur.length + w.length < max)
    (s : List α) : fgetsPieces nl max cur (w ++ s) = fgetsPieces nl max (cur ++ w) s := by
  induction w generalizing cur with
  | nil => rw [List.nil_append, List.append_nil]
  | cons b w ih =>
    rw [List.mem_cons, not_or] at hw
    rw [List.length_cons] at h
    have hgo : ¬ (b = nl ∨ cur.length + 1 = max) := by
      rintro (rfl | hmax)
      · exact hw.1 rfl
      · omega
    rw [List.cons_append, fgetsPieces, if_neg hgo, ih hw.2 (by simp; omega), List.append_assoc,
      List.singleton_append]

/-- A line that fits is a piece. -/
theorem fgetsPieces_line {l : List α} (hl : IsLine nl l) (h : l.length ≤ max) (s : List α) :
    fgetsPieces nl max [] (l ++ s) = l :: fgetsPieces nl max [] s := by
  obtain ⟨w, rfl, hw⟩ := hl
  rw [List.length_append, List.length_singleton] at h
  rw [List.append_assoc, fgetsPieces_append hw (by simpa using h), List.nil_append,
    List.singleton_append, fgetsPieces, if_pos (Or.inl rfl)]

/-- **Lines that fit** are read one by one. -/
theorem fgetsPieces_flatten {ls : List (List α)} (hls : ∀ l ∈ ls, IsLine nl l ∧ l.length ≤ max) :
    fgetsPieces nl max [] ls.flatten = ls := by
  induction ls with
  | nil => rfl
  | cons l ls ih =>
    obtain ⟨hl, hlen⟩ := hls l List.mem_cons_self
    rw [List.flatten_cons, fgetsPieces_line hl hlen,
      ih fun l hl => hls l (List.mem_cons_of_mem _ hl)]

/-- The pieces of any line: the first one goes on with what has been read. -/
theorem fgetsPieces_isLine {l : List α} (hl : IsLine nl l) (max : ℕ) (cur : List α) :
    ∃ a ps, a ++ List.flatten ps = l ∧
      ∀ s, fgetsPieces nl max cur (l ++ s) = (cur ++ a) :: (ps ++ fgetsPieces nl max [] s) := by
  obtain ⟨w, rfl, hw⟩ := hl
  induction w generalizing cur with
  | nil =>
    refine ⟨[nl], [], rfl, fun s => ?_⟩
    rw [List.nil_append, List.singleton_append, fgetsPieces, if_pos (Or.inl rfl), List.nil_append]
  | cons b w ih =>
    rw [List.mem_cons, not_or] at hw
    by_cases hmax : cur.length + 1 = max
    · obtain ⟨a, ps, hps, h⟩ := ih [] hw.2
      refine ⟨[b], a :: ps, by rw [List.flatten_cons, hps]; rfl, fun s => ?_⟩
      rw [List.cons_append, List.cons_append, fgetsPieces, if_pos (Or.inr hmax), h,
        List.nil_append, List.cons_append]
    · obtain ⟨a, ps, hps, h⟩ := ih (cur ++ [b]) hw.2
      refine ⟨b :: a, ps, by rw [List.cons_append, hps]; rfl, fun s => ?_⟩
      have hgo : ¬ (b = nl ∨ cur.length + 1 = max) := by
        rintro (rfl | h)
        · exact hw.1 rfl
        · exact hmax h
      rw [List.cons_append, List.cons_append, fgetsPieces, if_neg hgo, h, List.append_assoc,
        List.singleton_append]

end Pieces

/-! ## Tokens -/

/-- `strtok`: the next token, or `none` for a null pointer, and what the next call goes on with. -/
def strtok (isDelim : α → Bool) (s : List α) : Option (List α) × List α :=
  match s.dropWhile isDelim with
  | [] => (none, [])
  | b :: t =>
    (some ((b :: t).takeWhile fun b => !isDelim b), ((b :: t).dropWhile fun b => !isDelim b).tail)

variable {isDelim : α → Bool} {w s : List α} {d : α}

theorem strtok_cons {b : α} (hb : isDelim b = false) (t : List α) :
    strtok isDelim (b :: t) = (some ((b :: t).takeWhile fun b => !isDelim b),
      ((b :: t).dropWhile fun b => !isDelim b).tail) := by
  rw [strtok, List.dropWhile_cons_of_neg (by rw [hb]; exact Bool.false_ne_true)]

/-- A token with a delimiter behind it. -/
theorem strtok_append_cons (hne : w ≠ []) (hw : ∀ b ∈ w, isDelim b = false) (hd : isDelim d = true)
    (s : List α) : strtok isDelim (w ++ d :: s) = (some w, s) := by
  have hall : ∀ b ∈ w, (!isDelim b) = true := fun b hb => by rw [hw b hb]; rfl
  have hstop : ¬ (!isDelim d) = true := by rw [hd]; exact Bool.false_ne_true
  obtain ⟨b, t, rfl⟩ := List.exists_cons_of_ne_nil hne
  rw [List.cons_append, strtok_cons (hw b List.mem_cons_self), ← List.cons_append,
    List.takeWhile_append_of_pos hall, List.dropWhile_append_of_pos hall,
    List.takeWhile_cons_of_neg (p := fun b => !isDelim b) hstop,
    List.dropWhile_cons_of_neg (p := fun b => !isDelim b) hstop, List.append_nil, List.tail_cons]

/-- A token at the end. -/
theorem strtok_plain (hne : w ≠ []) (hw : ∀ b ∈ w, isDelim b = false) :
    strtok isDelim w = (some w, []) := by
  have hall : ∀ b ∈ w, (!isDelim b) = true := fun b hb => by rw [hw b hb]; rfl
  obtain ⟨b, t, rfl⟩ := List.exists_cons_of_ne_nil hne
  rw [strtok_cons (hw b List.mem_cons_self), List.takeWhile_eq_self_iff.2 hall,
    List.dropWhile_eq_nil_iff.2 hall]
  rfl

/-- There is no second token without a delimiter. -/
theorem strtok_strtok_plain (hw : ∀ b ∈ w, isDelim b = false) :
    (strtok isDelim (strtok isDelim w).2).1 = none := by
  cases w with
  | nil => rfl
  | cons b w =>
    rw [strtok_plain (List.cons_ne_nil b w) hw]
    rfl

/-! ## Occurrences -/

section Occurrences

variable [DecidableEq α] {needle : List α}

/-- `strstr(s, needle)`: from the first occurrence on, or `none` for a null pointer. -/
def strstr (needle : List α) : List α → Option (List α)
  | [] => if needle = [] then some [] else none
  | b :: s => if needle <+: b :: s then some (b :: s) else strstr needle s

theorem strstr_isSome_iff : (strstr needle s).isSome ↔ needle <:+: s := by
  induction s with
  | nil => by_cases h : needle = [] <;> simp [strstr, h]
  | cons b s ih =>
    rw [strstr, List.infix_cons_iff, ← ih]
    by_cases h : needle <+: b :: s
    · simp [h]
    · simp [h]

end Occurrences

theorem isPrefix_append_cons_iff (hd : d ∉ w) {a b : List α} :
    w <+: a ++ d :: b ↔ w <+: a := by
  refine ⟨fun h => ?_, fun h => h.trans (List.prefix_append _ _)⟩
  obtain h' | ⟨t, rfl⟩ := List.prefix_or_prefix_of_prefix h (List.prefix_append a (d :: b))
  · exact h'
  · rw [List.prefix_append_right_inj, List.prefix_cons_iff] at h
    obtain rfl | ⟨t, rfl, -⟩ := h
    · rw [List.append_nil]
    · simp at hd

/-- A text without the byte `d` occurs in front of it or behind it. -/
theorem isInfix_append_cons_iff (hd : d ∉ w) {a b : List α} :
    w <:+: a ++ d :: b ↔ w <:+: a ∨ w <:+: b := by
  induction a with
  | nil =>
    have := isPrefix_append_cons_iff hd (a := []) (b := b)
    rw [List.nil_append] at this ⊢
    rw [List.infix_cons_iff, this, List.prefix_nil, List.infix_nil]
  | cons x a ih =>
    have := isPrefix_append_cons_iff hd (a := x :: a) (b := b)
    rw [List.cons_append] at this ⊢
    rw [List.infix_cons_iff, this, ih, List.infix_cons_iff, or_assoc]

end TlpiLearn
