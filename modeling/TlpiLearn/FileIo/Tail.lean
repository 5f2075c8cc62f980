import TlpiLearn.Foundations.Constants
import TlpiLearn.Foundations.File
import TlpiLearn.Foundations.Lines
import Mathlib.Tactic

/-!
# `tail`

The main function of `13_5.c` behind the check of its arguments: from the end of the file on it
reads block after block backwards and counts the newlines in each, and from behind the newline
with the number `num`, or from the start of the file, it copies the rest to the standard output.
The size of the blocks is a parameter.

`tail_isTail` says that the blocks make no difference to a plain scan of the bytes. The scan counts
newlines and not lines, so that the newline at the end of a file counts as a line
(`tail_lastLines_iff`).
-/

namespace TlpiLearn.Tail

/-- `BUFSIZE`. -/
def BUFSIZE : ℕ := 1024

/-- The ends of the process other than its return. -/
inductive Failure
  /-- In `errExit(msg)`. -/
  | errExit (msg : String)
  | diverges
  deriving DecidableEq, Repr

/-- The loop over the bytes in front of the index `i` of `buf`, from the last one on: the file and
`ret_num` behind it. -/
def scanLoop (num : ℕ) (buf : List UInt8) : ℕ → OpenFile → ℕ → OpenFile × ℕ
  | 0, fd, ret_num => (fd, ret_num)
  | i + 1, fd, ret_num =>
    if buf[i]? = some newline then
      if ret_num + 1 = num then ((fd.lseekCur (i + 1)).getD fd, ret_num + 1)
      else scanLoop num buf i fd (ret_num + 1)
    else scanLoop num buf i fd ret_num

/-- The loop over the blocks. -/
def blockLoop (bufsize num : ℕ) : ℕ → OpenFile → ℕ → Except Failure OpenFile
  | 0, _, _ => .error .diverges
  | fuel + 1, fd, ret_num =>
    let cur := fd.offset
    if bufsize ≤ cur then
      match fd.lseekCur (-bufsize) with
      | none => .error (.errExit "lseek")
      | some fd =>
        if (fd.read bufsize).1.length ≠ bufsize then .error (.errExit "read")
        else
          match (fd.read bufsize).2.lseekCur (-bufsize) with
          | none => .error (.errExit "lseek")
          | some back =>
            let scanned := scanLoop num (fd.read bufsize).1 bufsize back ret_num
            if scanned.2 = num then .ok scanned.1
            else blockLoop bufsize num fuel scanned.1 scanned.2
    else
      let fd := fd.lseekSet 0
      if (fd.read cur).1.length ≠ cur then .error (.errExit "read")
      else .ok (scanLoop num (fd.read cur).1 cur ((fd.read cur).2.lseekSet 0) ret_num).1

/-- The loop that copies the rest of the file to `out`. -/
def copyLoop (bufsize : ℕ) : ℕ → OpenFile → List UInt8 → Except Failure (List UInt8)
  | 0, _, _ => .error .diverges
  | fuel + 1, fd, out =>
    if (fd.read bufsize).1 = [] then .ok out
    else copyLoop bufsize fuel (fd.read bufsize).2 (out ++ (fd.read bufsize).1)

/-- `tail` of a file: what it prints. -/
def tail (bufsize num : ℕ) (contents : List UInt8) : Except Failure (List UInt8) :=
  match blockLoop bufsize num (contents.length + 1) { contents, offset := contents.length } 0 with
  | .error failure => .error failure
  | .ok fd => copyLoop bufsize (contents.length + 1) fd []

/-- The suffix behind the newline with the number `num` from the end, or everything. -/
def IsTail (num : ℕ) (contents s : List UInt8) : Prop :=
  (contents.count newline < num ∧ s = contents) ∨
    ∃ pre, contents = pre ++ newline :: s ∧ s.count newline + 1 = num

/-- The plain scan of the bytes in front of a position, where `ret_num` newlines are behind it: the
position from which on the file is printed. -/
def scanBack (num : ℕ) (contents : List UInt8) : ℕ → ℕ → ℕ
  | 0, _ => 0
  | pos + 1, ret_num =>
    if contents[pos]? = some newline then
      if ret_num + 1 = num then pos + 1 else scanBack num contents pos (ret_num + 1)
    else scanBack num contents pos ret_num

variable {bufsize num ret_num : ℕ} {contents : List UInt8} {fd : OpenFile}

/-! ## The plain scan -/

/-- **The plain scan** finds the newline with the number `num`. -/
theorem isTail_scanBack {pos : ℕ} (hpos : pos ≤ contents.length)
    (hret : (contents.drop pos).count newline < num) :
    IsTail num contents
      (contents.drop (scanBack num contents pos ((contents.drop pos).count newline))) := by
  induction pos with
  | zero =>
    rw [List.drop_zero] at hret
    exact Or.inl ⟨hret, rfl⟩
  | succ pos ih =>
    have hdrop : contents.drop pos = contents[pos] :: contents.drop (pos + 1) :=
      List.drop_eq_getElem_cons hpos
    have hih := ih (Nat.le_of_succ_le hpos)
    have hget : contents[pos]? = some newline ↔ contents[pos] = newline := by
      rw [List.getElem?_eq_getElem hpos, Option.some.injEq]
    rw [hdrop, List.count_cons] at hih
    rw [scanBack]
    simp only [hget]
    split_ifs with hnl hnum
    · refine Or.inr ⟨contents.take pos, ?_, hnum⟩
      rw [← hnl, ← hdrop, List.take_append_drop]
    · have hbeq : (contents[pos] == newline) = true := beq_iff_eq.2 hnl
      rw [if_pos hbeq] at hih
      exact hih (by omega)
    · have hbeq : ¬ (contents[pos] == newline) = true := fun h => hnl (beq_iff_eq.1 h)
      rw [if_neg hbeq] at hih
      exact hih (by omega)

/-! ## One block -/

/-- **The scan of a block** is a part of the plain scan. -/
theorem scanLoop_eq (contents : List UInt8) (base : ℕ) {n i : ℕ} (hi : i ≤ n)
    (hret : ret_num < num) :
    scanLoop num ((contents.drop base).take n) i { contents, offset := base } ret_num =
        ({ contents, offset := scanBack num contents (base + i) ret_num }, num) ∨
      ∃ ret_num' < num,
        scanLoop num ((contents.drop base).take n) i { contents, offset := base } ret_num =
          ({ contents, offset := base }, ret_num') ∧
        scanBack num contents (base + i) ret_num = scanBack num contents base ret_num' := by
  induction i generalizing ret_num with
  | zero => exact Or.inr ⟨ret_num, hret, rfl, rfl⟩
  | succ i ih =>
    have hget : ((contents.drop base).take n)[i]? = contents[base + i]? := by
      rw [List.getElem?_take_of_lt hi, List.getElem?_drop]
    rw [scanLoop, hget, ← Nat.add_assoc, scanBack]
    split_ifs with hnl hnum
    · refine Or.inl ?_
      have hseek := OpenFile.lseekCur_natCast { contents, offset := base } (i + 1)
      rw [Nat.cast_add, Nat.cast_one] at hseek
      rw [hseek, hnum]
      rfl
    · exact ih (Nat.le_of_succ_le hi) (by omega)
    · exact ih (Nat.le_of_succ_le hi) hret

/-! ## All blocks -/

/-- A pass over a whole block: the offset goes back, forward and back again. -/
theorem blockLoop_of_le (fuel : ℕ) {pos : ℕ} (hle : bufsize ≤ pos) (hpos : pos ≤ contents.length) :
    blockLoop bufsize num (fuel + 1) { contents, offset := pos } ret_num =
      let scanned := scanLoop num ((contents.drop (pos - bufsize)).take bufsize) bufsize
        { contents, offset := pos - bufsize } ret_num
      if scanned.2 = num then .ok scanned.1
      else blockLoop bufsize num fuel scanned.1 scanned.2 := by
  have hback : OpenFile.lseekCur { contents, offset := pos } (-bufsize) =
      some { contents, offset := pos - bufsize } := OpenFile.lseekCur_neg _ hle
  have hread : OpenFile.read { contents, offset := pos - bufsize } bufsize =
      ((contents.drop (pos - bufsize)).take bufsize,
        { contents, offset := pos - bufsize + bufsize }) :=
    OpenFile.read_of_le _ (by rwa [Nat.sub_add_cancel hle])
  have hlen : ((contents.drop (pos - bufsize)).take bufsize).length = bufsize := by
    rw [List.length_take, List.length_drop]
    omega
  have hagain : OpenFile.lseekCur { contents, offset := pos - bufsize + bufsize } (-bufsize) =
      some { contents, offset := pos - bufsize + bufsize - bufsize } :=
    OpenFile.lseekCur_neg _ (Nat.le_add_left _ _)
  rw [Nat.add_sub_cancel] at hagain
  rw [blockLoop, if_pos hle, hback]
  simp only [hread, hlen, ne_eq, not_true_eq_false, if_false, hagain]

/-- The pass over what is in front of the first whole block. -/
theorem blockLoop_of_lt (fuel : ℕ) {pos : ℕ} (hlt : pos < bufsize) (hpos : pos ≤ contents.length) :
    blockLoop bufsize num (fuel + 1) { contents, offset := pos } ret_num =
      .ok (scanLoop num ((contents.drop 0).take pos) pos { contents, offset := 0 } ret_num).1 := by
  have hread : OpenFile.read { contents, offset := 0 } pos =
      ((contents.drop 0).take pos, { contents, offset := 0 + pos }) :=
    OpenFile.read_of_le _ (by rwa [Nat.zero_add])
  have hlen : ((contents.drop 0).take pos).length = pos := List.length_take_of_le hpos
  rw [blockLoop, if_neg hlt.not_ge]
  simp only [OpenFile.lseekSet, hread, hlen, ne_eq, not_true_eq_false, if_false]

/-- **The loop over the blocks** ends where the plain scan ends. -/
theorem blockLoop_eq (hbufsize : 0 < bufsize) {fuel pos : ℕ} (hfuel : pos < fuel)
    (hpos : pos ≤ contents.length) (hret : ret_num < num) :
    blockLoop bufsize num fuel { contents, offset := pos } ret_num =
      .ok { contents, offset := scanBack num contents pos ret_num } := by
  induction fuel generalizing pos ret_num with
  | zero => exact absurd hfuel (Nat.not_lt_zero _)
  | succ fuel ih =>
    by_cases hle : bufsize ≤ pos
    · rw [blockLoop_of_le fuel hle hpos]
      obtain hfound | ⟨ret_num', hret', hscan, heq⟩ :=
        scanLoop_eq contents (pos - bufsize) (le_refl bufsize) hret
      · rw [hfound, Nat.sub_add_cancel hle]
        exact if_pos rfl
      · rw [Nat.sub_add_cancel hle] at heq
        rw [hscan, heq, ← ih (by omega) (by omega) hret']
        exact if_neg hret'.ne
    · rw [blockLoop_of_lt fuel (not_le.1 hle) hpos]
      obtain hfound | ⟨ret_num', -, hscan, heq⟩ := scanLoop_eq contents 0 (le_refl pos) hret
      · rw [hfound, Nat.zero_add]
      · rw [Nat.zero_add] at heq
        rw [hscan, heq]
        rfl

/-- **The copy** prints the rest of the file. -/
theorem copyLoop_eq (hbufsize : 0 < bufsize) {fuel : ℕ}
    (hfuel : (fd.contents.drop fd.offset).length < fuel) (out : List UInt8) :
    copyLoop bufsize fuel fd out = .ok (out ++ fd.contents.drop fd.offset) := by
  induction fuel generalizing fd out with
  | zero => exact absurd hfuel (Nat.not_lt_zero _)
  | succ fuel ih =>
    have hread : (fd.read bufsize).1 = (fd.contents.drop fd.offset).take bufsize := rfl
    have hrest : (fd.read bufsize).2.contents.drop (fd.read bufsize).2.offset =
        (fd.contents.drop fd.offset).drop (fd.read bufsize).1.length := List.drop_drop.symm
    obtain ⟨t, ht⟩ := List.take_prefix bufsize (fd.contents.drop fd.offset)
    rw [← hread] at ht
    rw [copyLoop]
    split_ifs with hnil
    · rw [hread, List.take_eq_nil_iff] at hnil
      rw [hnil.resolve_left hbufsize.ne', List.append_nil]
    · have hpos : 0 < (fd.read bufsize).1.length := List.length_pos_of_ne_nil hnil
      have hlen := congrArg List.length ht
      rw [List.length_append] at hlen
      have hdrop : (fd.contents.drop fd.offset).drop (fd.read bufsize).1.length = t := by
        rw [← ht, List.drop_left]
      rw [ih (by rw [hrest, hdrop]; omega), hrest, hdrop, List.append_assoc, ht]

/-- `tail` prints the file from where the plain scan of all of it ends. -/
theorem tail_eq_drop (hbufsize : 0 < bufsize) (hnum : 0 < num) (contents : List UInt8) :
    tail bufsize num contents =
      .ok (contents.drop (scanBack num contents contents.length 0)) := by
  rw [tail, blockLoop_eq hbufsize (Nat.lt_succ_self _) le_rfl hnum]
  refine copyLoop_eq hbufsize ?_ []
  change (contents.drop _).length < contents.length + 1
  rw [List.length_drop]
  omega

theorem isTail_drop (hnum : 0 < num) (contents : List UInt8) :
    IsTail num contents (contents.drop (scanBack num contents contents.length 0)) := by
  have hcount : (contents.drop contents.length).count newline = 0 := by
    rw [List.drop_length, List.count_nil]
  have htail := isTail_scanBack le_rfl (hcount.trans_lt hnum)
  rwa [hcount] at htail

/-- **`tail` prints what the plain scan finds**, whatever the size of the blocks. -/
theorem tail_isTail (hnum : 0 < num) (contents : List UInt8) :
    ∃ s, IsTail num contents s ∧ ∀ bufsize, 0 < bufsize → tail bufsize num contents = .ok s :=
  ⟨_, isTail_drop hnum contents, fun _ hbufsize => tail_eq_drop hbufsize hnum contents⟩

/-- The last two newlines of five bytes, in blocks of two bytes and of one. -/
theorem tail_isTail_two :
    ∃ s, IsTail 2 [97, 10, 98, 10, 99] s ∧ tail 2 2 [97, 10, 98, 10, 99] = .ok s ∧
      tail 1 2 [97, 10, 98, 10, 99] = .ok s := by
  obtain ⟨s, hs, htail⟩ := tail_isTail (by decide : 0 < 2) [97, 10, 98, 10, 99]
  exact ⟨s, hs, htail 2 (by decide), htail 1 (by decide)⟩

/-! ## Lines -/

/-- **The last lines** of a file, at most `num`. -/
def lastLines (num : ℕ) (contents : List UInt8) : List UInt8 :=
  ((lines newline contents).drop ((lines newline contents).length - num)).flatten

/-- A suffix with `num` lines is the last lines. -/
theorem lastLines_of_length_eq {s : List UInt8} (h : (lines newline s).length = num)
    (pre : List UInt8) : lastLines num (pre ++ newline :: s) = s := by
  rw [lastLines, lines_append_cons, List.length_append, h, Nat.add_sub_cancel, List.drop_left,
    flatten_lines]

/-- A suffix with fewer lines lacks a line. -/
theorem lastLines_ne_of_length_lt {s : List UInt8} (h : (lines newline s).length < num)
    (pre : List UInt8) : lastLines num (pre ++ newline :: s) ≠ s := by
  have hne : lines newline (pre ++ [newline]) ≠ [] := lines_ne_nil _ (by simp)
  obtain ⟨ls, l, hl⟩ := (lines newline (pre ++ [newline])).eq_nil_or_concat'.resolve_left hne
  have hmem : l ∈ lines newline (pre ++ [newline]) := by
    rw [hl]
    exact List.mem_append_right _ List.mem_cons_self
  have hpos := List.length_pos_of_ne_nil (ne_nil_of_mem_lines hmem)
  have hdrop : (ls ++ [l] ++ lines newline s).length - num ≤ ls.length := by
    rw [List.length_append, List.length_append, List.length_singleton]
    omega
  intro heq
  have hlen := congrArg List.length heq
  rw [lastLines, lines_append_cons, hl, List.append_assoc, List.drop_append_of_le_length (by
    rwa [← List.append_assoc]), List.flatten_append, List.flatten_append, List.flatten_singleton,
    flatten_lines] at hlen
  simp only [List.length_append] at hlen
  omega

/-- **`tail` prints the last lines exactly if** the file does not end with a newline, or has fewer
newlines than lines were asked for. -/
theorem tail_lastLines_iff (hnum : 0 < num) (contents : List UInt8) :
    tail BUFSIZE num contents = .ok (lastLines num contents) ↔
      contents.getLast? ≠ some newline ∨ contents.count newline < num := by
  obtain ⟨s, hs, hrun⟩ : ∃ s, IsTail num contents s ∧ tail BUFSIZE num contents = .ok s :=
    ⟨_, isTail_drop hnum contents, tail_eq_drop (by decide) hnum contents⟩
  rw [hrun, Except.ok.injEq]
  obtain ⟨hlt, rfl⟩ | ⟨pre, rfl, hcount⟩ := hs
  · -- the whole file
    have hle : (lines newline s).length ≤ num := by
      rw [length_lines]
      split_ifs <;> omega
    refine iff_of_true ?_ (Or.inr hlt)
    rw [lastLines, Nat.sub_eq_zero_of_le hle, List.drop_zero, flatten_lines]
  · have hlast : (pre ++ newline :: s).getLast? = some newline ↔
        s.getLast? = some newline ∨ s = [] := by
      cases s with
      | nil => simp
      | cons b s => simp
    have hnot : ¬ (pre ++ newline :: s).count newline < num := by
      rw [List.count_append, List.count_cons_self]
      omega
    have hlines := length_lines newline s
    rw [or_iff_left hnot, ne_eq, hlast]
    split_ifs at hlines with hend
    · refine iff_of_false (fun heq => ?_) (not_not.2 hend)
      exact lastLines_ne_of_length_lt (by omega) pre heq.symm
    · exact iff_of_true (lastLines_of_length_eq (by omega) pre).symm hend

/-- The last line of two that both end with a newline is not printed, and that of two of which
only the first one does is. -/
theorem tail_lastLines_iff_two :
    tail BUFSIZE 1 [97, 10, 98, 10] ≠ .ok (lastLines 1 [97, 10, 98, 10]) ∧
      tail BUFSIZE 1 [97, 10, 98] = .ok (lastLines 1 [97, 10, 98]) := by
  have hcond : ¬ ([97, 10, 98, 10].getLast? ≠ some newline ∨ [97, 10, 98, 10].count newline < 1) :=
    by decide
  refine ⟨fun h => hcond ((tail_lastLines_iff Nat.one_pos _).1 h), ?_⟩
  exact (tail_lastLines_iff Nat.one_pos _).2 (Or.inl (by decide))

/-- The last line of a file that ends with a newline is not printed. -/
theorem tail_ne_lastLines :
    tail BUFSIZE 1 [97, 10, 98, 10] = .ok [] ∧ lastLines 1 [97, 10, 98, 10] = [98, 10] ∧
      tail BUFSIZE 1 [97, 10, 98, 10] ≠ .ok (lastLines 1 [97, 10, 98, 10]) := by
  have hrun : tail BUFSIZE 1 [97, 10, 98, 10] = .ok [] := by
    rw [tail_eq_drop (by decide) Nat.one_pos]
    rfl
  have hlast : lastLines 1 [97, 10, 98, 10] = [98, 10] := by decide
  refine ⟨hrun, hlast, fun h => ?_⟩
  rw [hrun, hlast] at h
  cases h

end TlpiLearn.Tail
