import TlpiLearn.Processes.StatusFile
import Mathlib.Tactic

/-!
# The processes of a user

`Exercise/12_1.c` prints the processes of a user. For each process `print_proc` reads the status
file, looks for the numeral of the user id with `strstr` in the line of the user ids, and cuts the
last byte off the name and the number that it found, which is the newline.

`printProc_right_iff` says when it prints what is due. The numeral of another user id can have that
of the wanted one within it, and a name can have a colon, at which `strtok` stops, or begin with
blanks, which the loop skips.
-/

namespace TlpiLearn.PrintProc

open StatusFile

/-- The variables of the loop; a buffer that has not been written has no text. -/
structure Vars where
  proc_name : Option (List UInt8)
  pid : Option (List UInt8)
  is_my_proc : Bool

/-- The body of the loop, for a key and a value. -/
def printField (uid_str : List UInt8) (v : Vars) (key value : List UInt8) : Vars :=
  let v := if key = ascii "Uid" ∧ (strstr uid_str value).isSome then
    { v with is_my_proc := true } else v
  let v := if key = ascii "Name" then { v with proc_name := some value } else v
  if key = ascii "Pid" then { v with pid := some value } else v

/-- `print_proc`, with what `fopen` finds: the text that is printed. -/
def printProc (status : Option (List UInt8)) (uid : UInt32) : Except Fault (List UInt8) :=
  match status with
  | none => .ok []
  | some text =>
    let v := readStatus (printField (decimal uid.toNat)) ⟨none, none, false⟩ text
    if v.is_my_proc then do
      let pid ← cutLast v.pid
      let proc_name ← cutLast v.proc_name
      .ok (pid ++ ascii ": " ++ proc_name ++ [newline])
    else .ok []

/-- What is due: the number and the name of a process of the user. -/
def due (s : Status) (uid : UInt32) : List UInt8 :=
  if uid ∈ s.uids.all then decimalInt s.pid.toInt ++ ascii ": " ++ s.name ++ [newline] else []

/-! ## What is printed -/

variable {s : Status} {uid : UInt32}

/-- The numeral of the user id is found in one of the four. -/
theorem strstr_uidText : (strstr (decimal uid.toNat) (s.uidText ++ [newline])).isSome ↔
    ∃ u ∈ s.uids.all, decimal uid.toNat <:+: decimal u.toNat := by
  have htab : tab ∉ decimal uid.toNat := notMem_decimal (by decide) _
  have hnewline : newline ∉ decimal uid.toNat := notMem_decimal (by decide) _
  rw [strstr_isSome_iff, isInfix_append_cons_iff hnewline, List.infix_nil,
    or_iff_left (decimal_ne_nil _), Status.uidText, isInfix_append_cons_iff htab,
    isInfix_append_cons_iff htab, isInfix_append_cons_iff htab]
  simp only [Uids.all, List.mem_cons, List.not_mem_nil, or_false, exists_eq_or_imp,
    exists_eq_left]

theorem printField_other (uid_str : List UInt8) (o : Other) (v : Vars) (value : List UInt8) :
    printField uid_str v o.key value = v := by
  obtain ⟨hname, hpid, -, huid⟩ := o.key_ne
  simp only [printField, hname, hpid, huid, false_and, if_false]

theorem printField_name (uid_str : List UInt8) (v : Vars) (value : List UInt8) :
    printField uid_str v (ascii "Name") value = { v with proc_name := some value } := by
  have huid : ascii "Name" ≠ ascii "Uid" := by decide
  have hpid : ascii "Name" ≠ ascii "Pid" := by decide
  simp only [printField, huid, hpid, false_and, if_false, if_true]

theorem printField_pid (uid_str : List UInt8) (v : Vars) (value : List UInt8) :
    printField uid_str v (ascii "Pid") value = { v with pid := some value } := by
  have huid : ascii "Pid" ≠ ascii "Uid" := by decide
  have hname : ascii "Pid" ≠ ascii "Name" := by decide
  simp only [printField, huid, hname, false_and, if_false, if_true]

theorem printField_ppid (uid_str : List UInt8) (v : Vars) (value : List UInt8) :
    printField uid_str v (ascii "PPid") value = v := by
  have huid : ascii "PPid" ≠ ascii "Uid" := by decide
  have hname : ascii "PPid" ≠ ascii "Name" := by decide
  have hpid : ascii "PPid" ≠ ascii "Pid" := by decide
  simp only [printField, huid, hname, hpid, false_and, if_false]

theorem printField_uid (uid_str : List UInt8) (v : Vars) (value : List UInt8) :
    printField uid_str v (ascii "Uid") value =
      { v with is_my_proc := v.is_my_proc || (strstr uid_str value).isSome } := by
  rw [printField, if_neg (by decide), if_neg (by decide)]
  cases (strstr uid_str value).isSome <;> simp

/-- What is printed for a well-formed file. -/
theorem printProc_text (s : Status) (uid : UInt32) :
    printProc (some s.text) uid =
      if ∃ u ∈ s.uids.all, decimal uid.toNat <:+: decimal u.toNat then
        (cutLast (some s.taken)).map fun n =>
          decimalInt s.pid.toInt ++ ascii ": " ++ n ++ [newline]
      else .ok [] := by
  have hvars : readStatus (printField (decimal uid.toNat)) ⟨none, none, false⟩ s.text =
      ⟨some s.taken, some (decimalInt s.pid.toInt ++ [newline]),
        decide (∃ u ∈ s.uids.all, decimal uid.toNat <:+: decimal u.toNat)⟩ := by
    rw [readStatus_text (printField_other _), printField_name, printField_pid, printField_ppid,
      printField_uid, Bool.false_or, ← Bool.decide_coe (strstr _ _).isSome]
    simp only [strstr_uidText]
  rw [printProc, hvars]
  by_cases h : ∃ u ∈ s.uids.all, decimal uid.toNat <:+: decimal u.toNat
  · simp only [h, decide_true, if_true, cutLast_append]
    cases cutLast (some s.taken) <;> rfl
  · simp only [h, decide_false, if_false, Bool.false_eq_true]

/-- **What is due is printed** exactly in two cases. The process is one of the user, and its name
has no colon and no blank in front; or it is not one, and the numeral of the user id is not within
that of another. -/
theorem printProc_right_iff (s : Status) (uid : UInt32) :
    printProc (some s.text) uid = .ok (due s uid) ↔
      if uid ∈ s.uids.all then colon ∉ s.name ∧ ∀ b ∈ s.name.head?, isBlank b = false
      else ∀ u ∈ s.uids.all, ¬ decimal uid.toNat <:+: decimal u.toNat := by
  rw [printProc_text, due]
  by_cases hmine : uid ∈ s.uids.all
  · have hfound : ∃ u ∈ s.uids.all, decimal uid.toNat <:+: decimal u.toNat := by
      exact ⟨uid, hmine, List.infix_rfl⟩
    rw [if_pos hmine, if_pos hmine, if_pos hfound, ← taken_eq_iff, ← cutLast_taken_iff]
    constructor
    · intro h
      cases hcut : cutLast (some s.taken) with
      | error e => rw [hcut] at h; cases h
      | ok n =>
        rw [hcut] at h
        have heq := Except.ok.inj h
        rw [List.append_left_inj, List.append_right_inj] at heq
        rw [heq]
    · intro h
      rw [h]
      rfl
  · have hnone : (∀ u ∈ s.uids.all, ¬ decimal uid.toNat <:+: decimal u.toNat) ↔
        ¬ ∃ u ∈ s.uids.all, decimal uid.toNat <:+: decimal u.toNat := by
      simp only [not_exists, not_and]
    rw [if_neg hmine, if_neg hmine, hnone]
    constructor
    · rintro h hfound
      rw [if_pos hfound] at h
      cases hcut : cutLast (some s.taken) with
      | error e => rw [hcut] at h; cases h
      | ok n =>
        rw [hcut] at h
        have heq := Except.ok.inj h
        simp at heq
    · intro hnot
      rw [if_neg hnot]

/-- A process of the user 1000. -/
def editor : Status where
  name := ascii "vim"
  name_plain := by decide +kernel
  name_fits := by decide +kernel
  afterName := [⟨ascii "State", ascii "\tS (sleeping)", by decide +kernel, by decide +kernel,
    by decide +kernel, by decide +kernel, by decide +kernel⟩]
  pid := 42
  afterPid := []
  ppid := 7
  afterPPid := [⟨ascii "TracerPid", ascii "\t0", by decide +kernel, by decide +kernel,
    by decide +kernel, by decide +kernel, by decide +kernel⟩]
  uids := ⟨1000, 1000, 1000, 1000⟩
  afterUid := [⟨ascii "Gid", ascii "\t1000\t1000\t1000\t1000", by decide +kernel,
    by decide +kernel, by decide +kernel, by decide +kernel, by decide +kernel⟩]

/-- The process is printed for the user 100. -/
theorem printProc_user100 :
    printProc (some editor.text) 100 = .ok (ascii "42: vim\n") ∧ due editor 100 = [] := by
  refine ⟨?_, by decide +kernel⟩
  have hfound : ∃ u ∈ editor.uids.all, decimal (100 : UInt32).toNat <:+: decimal u.toNat :=
    ⟨1000, List.mem_cons_self, [], ascii "0", by decide +kernel⟩
  rw [printProc_text, if_pos hfound]
  decide +kernel

end TlpiLearn.PrintProc
