import TlpiLearn.Foundations.Constants
import TlpiLearn.Foundations.Machine
import TlpiLearn.KeyValue.Kv
import Mathlib.Tactic

/-!
# The command lines of the key-value server

`handle_command` of `59/4/sv.c`: it copies a command, puts a space in the place of its last
character, cuts up to three words off, and calls the functions on the list. `show` prints each node
into `t` and joins the texts in `result`, a buffer of `MAXLINE` bytes. Where the code reads past a
field or writes past a buffer it ends in a `Crash`.
-/

namespace TlpiLearn.KeyValue

/-- `MAXLINE`. -/
def MAXLINE : ℕ := 1024

/-- What `handle_command` can run into besides returning. -/
inductive Crash
  /-- In one of the functions on the list. -/
  | kv (fault : Fault)
  /-- A string without an end in its buffer or field. -/
  | overread
  /-- A write in front of `temp`. -/
  | underrun
  /-- A write past the end of `result`. -/
  | overrun
  deriving DecidableEq, Repr

/-- Up to `n` words, each behind `ptemp` up to the next space. -/
def words : ℕ → List UInt8 → List (List UInt8)
  | 0, _ => []
  | n + 1, ptemp =>
    if space ∈ ptemp then
      ptemp.takeWhile (· ≠ space) :: words n (ptemp.dropWhile (· ≠ space)).tail
    else []

/-- `temp` and the loop that cuts it; `command` is the memory that the pointer points to. -/
def splitCommand (command : List UInt8) : Except Crash (List (List UInt8)) :=
  let temp := cstr command
  if MAXLINE ≤ temp.length then .error .overread
  else if temp = [] then .error .underrun
  else .ok (words 3 (temp.dropLast ++ [space]))

/-- `sprintf(t, "(%s : %s); ", p->key, p->value)`. The bytes behind `p->key` are those of
`p->value`. -/
def KvDsa.text (p : KvDsa) : Except Crash (List UInt8) :=
  if 0 ∈ p.key ++ p.value ∧ 0 ∈ p.value then
    .ok (ascii "(" ++ cstr (p.key ++ p.value) ++ ascii " : " ++ cstr p.value ++ ascii "); ")
  else .error .overread

/-- The loop of `show` with the pointer `p`, and `strcat(result, "\n")` behind it. -/
def showLoop : ℕ → Heap KvDsa → Ptr → List UInt8 → Except Crash (ℤ × List UInt8)
  | 0, _, _, _ => .error (.kv .diverges)
  | _ + 1, _, none, result =>
    if MAXLINE < result.length + 2 then .error .overrun else .ok (0, result ++ [newline])
  | fuel + 1, h, some a, result => do
    let p ← (load h (some a)).mapError .kv
    let t ← p.text
    if MAXLINE < t.length + result.length + 1 then return (-1, ascii "too long\n")
    else showLoop fuel h p.next (result ++ t)

/-- The return value, `result` and the list, when a function on the list has returned. -/
def reply (r : Except Fault (ℤ × Heap KvDsa)) (failed sussessed : String) :
    Except Crash (ℤ × List UInt8 × Heap KvDsa) :=
  match r with
  | .error fault => .error (.kv fault)
  | .ok (r, h) => .ok (if r = -1 then (-1, ascii failed, h) else (0, ascii sussessed, h))

/-- `sprintf(result, "invalid command\n")`. -/
def invalidCommand (h : Heap KvDsa) : Except Crash (ℤ × List UInt8 × Heap KvDsa) :=
  .ok (-1, ascii "invalid command\n", h)

/-- `handle_command` behind the loop that cuts the words: its return value, `result` and the list.
The branches are tried in the order of the number of words; each needs another number or another
first word. -/
def dispatch (malloc : Malloc) (h : Heap KvDsa) (kv : Ptr) :
    List (List UInt8) → Except Crash (ℤ × List UInt8 × Heap KvDsa)
  | [word, key, value] =>
    if word = ascii "add" then
      reply (addKv malloc h kv key value) "add failed\n" "add sussessed\n"
    else if word = ascii "change" then
      reply (changeKv h kv key value) "change failed\n" "change sussessed\n"
    else invalidCommand h
  | [word, key] =>
    if word = ascii "delete" then
      reply (deleteKv h kv key) "delete failed\n" "delete sussessed\n"
    else invalidCommand h
  | [word] =>
    if word = ascii "show" then do
      let p ← (load h kv).mapError .kv
      let (r, result) ← showLoop (fuelOf h) h p.next []
      return (r, result, h)
    else invalidCommand h
  | _ => invalidCommand h

/-- `handle_command`. -/
def handle_command (malloc : Malloc) (h : Heap KvDsa) (kv : Ptr) (command : List UInt8) :
    Except Crash (ℤ × List UInt8 × Heap KvDsa) := do
  dispatch malloc h kv (← splitCommand command)

theorem handle_command_of_split {malloc : Malloc} {h : Heap KvDsa} {kv : Ptr}
    {command : List UInt8} {ws : List (List UInt8)} (hws : splitCommand command = .ok ws) :
    handle_command malloc h kv command = dispatch malloc h kv ws := by
  unfold handle_command
  rw [hws]
  rfl

/-- A line of a client, without its newline. -/
structure Line where
  text : List UInt8
  nonzero : 0 ∉ text
  notMem : newline ∉ text
  fits : text.length + 1 < MAXLINE
  deriving DecidableEq

/-- What `readLine` has put into `command`. -/
def Line.command (line : Line) : List UInt8 := line.text ++ [newline, 0]

/-- The words of the line. -/
def Line.words (line : Line) : List (List UInt8) := KeyValue.words 3 (line.text ++ [space])

/-- A line and its answer. -/
structure Exchange where
  line : Line
  result : List UInt8
  deriving DecidableEq

/-- The list, and the lines handled so far with their answers. -/
structure Server where
  kv : Ptr
  heap : Heap KvDsa
  log : List Exchange
  crash : Option Crash

/-- The next line, and the block that `malloc` gives out if it is called. -/
structure Request where
  line : Line
  block : Option (ℕ × KvDsa)

/-- Blocks in use are not given out. -/
def Request.Fresh (h : Heap KvDsa) (r : Request) : Prop :=
  match r.block with
  | some (a, _) => a ∉ h
  | none => True

instance (h : Heap KvDsa) (r : Request) : Decidable (r.Fresh h) := by
  unfold Request.Fresh
  split <;> infer_instance

/-- The step function: `handle_command` on the next line. -/
def Server.step (s : Server) (r : Request) : Option Server :=
  if s.crash = none ∧ r.Fresh s.heap then
    match handle_command (fun _ => r.block) s.heap s.kv r.line.command with
    | .ok (_, result, h) => some { s with heap := h, log := s.log ++ [⟨r.line, result⟩] }
    | .error crash => some { s with crash := some crash }
  else none

/-- The server behind `init_kv`. -/
def Server.init (malloc : Malloc) (h : Heap KvDsa) : Server where
  kv := (initKv malloc h).1
  heap := (initKv malloc h).2
  log := []
  crash := none

/-- The server on a heap on which `malloc` gives out the head node. -/
def server (malloc : Malloc) (h : Heap KvDsa) : Machine Server Request :=
  ⟨.init malloc h, Server.step⟩

/-! ## The words of a line -/

theorem words_subset {n : ℕ} {s w : List UInt8} (hw : w ∈ words n s) : ∀ b ∈ w, b ∈ s := by
  induction n generalizing s with
  | zero => cases hw
  | succ n ih =>
    unfold words at hw
    split_ifs at hw
    · obtain rfl | hw := List.mem_cons.1 hw
      · exact fun b hb => List.takeWhile_subset _ hb
      · exact fun b hb => List.dropWhile_subset _ (List.mem_of_mem_tail (ih hw b hb))
    · cases hw

theorem space_notMem_words {n : ℕ} {s w : List UInt8} (hw : w ∈ words n s) : space ∉ w := by
  induction n generalizing s with
  | zero => cases hw
  | succ n ih =>
    unfold words at hw
    split_ifs at hw
    · obtain rfl | hw := List.mem_cons.1 hw
      · intro hmem
        simpa using List.mem_takeWhile_imp hmem
      · exact ih hw
    · cases hw

theorem Line.nonzero_of_mem {line : Line} {w : List UInt8} (hw : w ∈ line.words) :
    ∀ b ∈ w, b ≠ 0 := by
  rintro b hb rfl
  obtain hmem | hmem := List.mem_append.1 (words_subset hw _ hb)
  · exact line.nonzero hmem
  · exact absurd hmem (by decide)

theorem splitCommand_eq (line : Line) : splitCommand line.command = .ok line.words := by
  have hcstr : cstr line.command = line.text ++ [newline] := by
    have hzero : 0 ∉ line.text ++ [newline] := by
      rw [List.mem_append, not_or]
      exact ⟨line.nonzero, by decide⟩
    have hcommand : line.command = line.text ++ [newline] ++ [0] := by
      rw [Line.command, List.append_assoc]
      rfl
    rw [hcommand, cstr_append_zero, cstr_eq_self hzero]
  have hlen : (line.text ++ [newline]).length = line.text.length + 1 := by simp
  have hfits := line.fits
  unfold splitCommand
  simp only [hcstr, hlen]
  rw [if_neg (by omega), if_neg (by simp), List.dropLast_concat]
  rfl

theorem reply_failed (h : Heap KvDsa) (failed sussessed : String) :
    reply (.ok (-1, h)) failed sussessed = .ok (-1, ascii failed, h) := rfl

theorem reply_sussessed (h : Heap KvDsa) (failed sussessed : String) :
    reply (.ok (0, h)) failed sussessed = .ok (0, ascii sussessed, h) := rfl

end TlpiLearn.KeyValue
