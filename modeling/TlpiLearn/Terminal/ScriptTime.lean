import TlpiLearn.Foundations.CString
import TlpiLearn.Foundations.Constants
import TlpiLearn.Foundations.Decimal
import Mathlib.Tactic

/-!
# The recorder of typed commands

`64/4/script_time.c` passes what is typed on to a shell. Aside it edits the typed bytes into
commands and writes each finished command, behind the microseconds since the start, to the file
`replay`. Indices past a buffer are the outcome `overrun`.

`typedCommands` is the purpose of the recorder: the command lines that a typed text amounts to,
whatever their length and wherever the reads cut it. `scriptTime_cases` says that the recorder
stops with its own overflow error or writes exactly their records.
-/

namespace TlpiLearn.Script

/-- `BUF_SIZE`, the same in both programs. -/
def BUF_SIZE : ℕ := 256

/-- `'\r'`. -/
def carriageReturn : UInt8 := 13

/-- The delete key. -/
def delete : UInt8 := 127

/-- `^D`. -/
def endOfInput : UInt8 := 4

/-- What a `read` into a buffer of `BUF_SIZE` bytes delivers before the end of the input. -/
abbrev Chunk := {bs : List UInt8 // bs ≠ [] ∧ bs.length ≤ BUF_SIZE}

/-- `struct timeval`. -/
structure Timeval where
  sec : ℤ
  usec : ℤ

/-- The microseconds from `start` to `tv`. -/
def microseconds (start tv : Timeval) : ℤ :=
  (tv.sec - start.sec) * 1000000 + (tv.usec - start.usec)

/-- `passtime(start)` at the time `tv`: the result is an `int`. -/
def passtime (start tv : Timeval) : ℤ := (microseconds start tv).bmod (2 ^ 32)

/-- The time at the start and at each finished command, less than `2 ^ 31` microseconds later. -/
structure Clock where
  start : Timeval
  now : ℕ → Timeval
  nonneg : ∀ k, 0 ≤ microseconds start (now k)
  lt : ∀ k, microseconds start (now k) < 2 ^ 31

/-- The elapsed time at the `k`-th finished command. -/
def Clock.elapsed (clock : Clock) (k : ℕ) : ℤ := microseconds clock.start (clock.now k)

/-- The errors that end the recorder. -/
inductive Abort
  /-- `errExit("overflow")`. -/
  | overflow
  /-- `errExit("passtime")`. -/
  | passtime
  /-- An index past one of the buffers. -/
  | overrun
  deriving DecidableEq, Repr

/-- The variables of the recorder: `command` up to `index`, what is in the file, and how many times
were taken. -/
structure Recorder where
  command : List UInt8
  replay : List UInt8
  count : ℕ

/-- An elapsed time and a command. -/
structure Record where
  elapsed : ℤ
  command : List UInt8
  deriving DecidableEq, Repr

/-- `sprintf(buf2, "%d %s", pass_time, command)`. -/
def formatRecord (passTime : ℤ) (command : List UInt8) : List UInt8 :=
  decimalInt passTime ++ space :: cstr command

/-- The text of a record in the file. -/
def Record.text (r : Record) : List UInt8 := formatRecord r.elapsed r.command

/-- A finished `command` is terminated, formatted into `buf2` and written to the file. -/
def writeCommand (clock : Clock) (s : Recorder) (command : List UInt8) : Except Abort Recorder :=
  let passTime := passtime clock.start (clock.now s.count)
  let buf2 := formatRecord passTime (command ++ [0])
  if command.length = BUF_SIZE then .error .overflow
  else if passTime = -1 then .error .passtime
  else if BUF_SIZE + 20 < buf2.length + 1 then .error .overrun
  else .ok ⟨[], s.replay ++ buf2, s.count + 1⟩

/-- The body of the loop over the bytes of a read. -/
def recordByte (clock : Clock) (s : Recorder) (b : UInt8) : Except Abort Recorder :=
  if s.command.length = BUF_SIZE then .error .overflow
  else if b = delete then .ok { s with command := s.command.dropLast }
  else
    let command := s.command ++ [b]
    if BUF_SIZE < command.length then .error .overrun
    else if b = carriageReturn then writeCommand clock s (command.set (command.length - 1) newline)
    else .ok { s with command := command }

/-- The loop over the bytes of a read. -/
def recordChunk (clock : Clock) : Recorder → List UInt8 → Except Abort Recorder
  | s, [] => .ok s
  | s, b :: bs =>
    if b = endOfInput then .ok s
    else do recordChunk clock (← recordByte clock s b) bs

/-- The file that `script_time` writes when the terminal delivers the reads `typed`. -/
def scriptTime (clock : Clock) (typed : List Chunk) : Except Abort (List UInt8) := do
  let s ← typed.foldlM (fun s c => recordChunk clock s c.1) ⟨[], [], 0⟩
  return s.replay

/-! ## The typed commands -/

/-- The typed bytes, without what follows `^D` in its read. -/
def typedBytes (typed : List Chunk) : List UInt8 :=
  typed.flatMap fun c => c.1.takeWhile (· ≠ endOfInput)

/-- The commands of a text behind an unfinished one. -/
def commandsFrom : List UInt8 → List UInt8 → List (List UInt8)
  | _, [] => []
  | command, b :: bs =>
    if b = delete then commandsFrom command.dropLast bs
    else if b = carriageReturn then command :: commandsFrom [] bs
    else commandsFrom (command ++ [b]) bs

/-- The commands that are typed. -/
def typedCommands (typed : List Chunk) : List (List UInt8) := commandsFrom [] (typedBytes typed)

/-- The records of commands, the first of which is the `k`-th of the session. -/
def recordsFrom (clock : Clock) : ℕ → List (List UInt8) → List Record
  | _, [] => []
  | k, command :: commands =>
    ⟨clock.elapsed k, command ++ [newline]⟩ :: recordsFrom clock (k + 1) commands

/-- The records of a session. -/
def typedRecords (clock : Clock) (typed : List Chunk) : List Record :=
  recordsFrom clock 0 (typedCommands typed)

/-- A record of a session: a time of the clock, and a command that ends with a newline. -/
def Record.Typed (r : Record) : Prop :=
  0 ≤ r.elapsed ∧ r.elapsed < 2 ^ 31 ∧ ∃ command, r.command = command ++ [newline]

theorem typed_of_mem_recordsFrom {clock : Clock} {k : ℕ} {commands : List (List UInt8)}
    {r : Record} (hr : r ∈ recordsFrom clock k commands) : r.Typed := by
  induction commands generalizing k with
  | nil => cases hr
  | cons command commands ih =>
    cases hr with
    | head => exact ⟨clock.nonneg k, clock.lt k, command, rfl⟩
    | tail _ hr => exact ih hr

/-! ## The recorder writes them -/

variable (clock : Clock)

/-- The conversion to `int` keeps the times of the clock. -/
theorem passtime_now (k : ℕ) : passtime clock.start (clock.now k) = clock.elapsed k := by
  have hnonneg := clock.nonneg k
  have hlt := clock.lt k
  rw [passtime, Clock.elapsed]
  exact Int.bmod_eq_of_le (by omega) (by omega)

/-- What a byte does apart from the bounds of the buffers. -/
def Recorder.key (clock : Clock) (s : Recorder) (b : UInt8) : Recorder :=
  if b = delete then { s with command := s.command.dropLast }
  else if b = carriageReturn then
    ⟨[], s.replay ++ Record.text ⟨clock.elapsed s.count, s.command ++ [newline]⟩, s.count + 1⟩
  else { s with command := s.command ++ [b] }

/-- `buf2` is large enough for every record. -/
theorem length_formatRecord_le {passTime : ℤ} (hge : -2 ^ 31 ≤ passTime) (hlt : passTime < 2 ^ 31)
    {command : List UInt8} (hlen : command.length < BUF_SIZE) :
    (formatRecord passTime command).length + 1 ≤ BUF_SIZE + 20 := by
  have hnum : (decimalInt passTime).length ≤ 10 + 1 :=
    length_decimalInt_le (by omega) (by omega)
  have hstr : (cstr command).length ≤ command.length := (cstr_prefix_mem command).length_le
  rw [formatRecord, List.length_append, List.length_cons]
  simp only [BUF_SIZE] at hlen ⊢
  omega

/-- A finished command overflows or is written. -/
theorem writeCommand_cases (s : Recorder) {command : List UInt8}
    (hlen : command.length ≤ BUF_SIZE) :
    writeCommand clock s command = .error .overflow ∨
      writeCommand clock s command
        = .ok ⟨[], s.replay ++ Record.text ⟨clock.elapsed s.count, command⟩, s.count + 1⟩ := by
  have hpos : 0 ≤ clock.elapsed s.count := clock.nonneg s.count
  have hlt : clock.elapsed s.count < 2 ^ 31 := clock.lt s.count
  have hterm : formatRecord (clock.elapsed s.count) (command ++ [0])
      = formatRecord (clock.elapsed s.count) command := by
    rw [formatRecord, formatRecord, cstr_append_zero]
  simp only [writeCommand, passtime_now, hterm]
  by_cases hfull : command.length = BUF_SIZE
  · exact .inl (if_pos hfull)
  · have hbuf2 := length_formatRecord_le (by omega) hlt (lt_of_le_of_ne hlen hfull)
    right
    rw [if_neg hfull, if_neg (by omega), if_neg (by omega)]
    rfl

/-- **What a byte does**: the recorder overflows, or nothing goes past a buffer. -/
theorem recordByte_cases {s : Recorder} (hs : s.command.length ≤ BUF_SIZE) (b : UInt8) :
    recordByte clock s b = .error .overflow ∨
      recordByte clock s b = .ok (s.key clock b) ∧
        (s.key clock b).command.length ≤ BUF_SIZE := by
  by_cases hfull : s.command.length = BUF_SIZE
  · exact .inl (if_pos hfull)
  have hstored : (s.command ++ [b]).length ≤ BUF_SIZE := by
    rw [List.length_append, List.length_singleton]
    omega
  rw [recordByte, Recorder.key, if_neg hfull]
  by_cases hdel : b = delete
  · rw [if_pos hdel, if_pos hdel]
    refine .inr ⟨rfl, ?_⟩
    rw [List.length_dropLast]
    omega
  rw [if_neg hdel, if_neg hdel]
  simp only [if_neg hstored.not_gt]
  by_cases hcr : b = carriageReturn
  · have hset : (s.command ++ [b]).set ((s.command ++ [b]).length - 1) newline
        = s.command ++ [newline] := by
      simp
    have hlen : (s.command ++ [newline]).length ≤ BUF_SIZE := by
      rw [List.length_append, List.length_singleton] at hstored ⊢
      exact hstored
    rw [if_pos hcr, if_pos hcr, hset]
    exact (writeCommand_cases clock s hlen).imp_right fun h => ⟨h, Nat.zero_le _⟩
  · rw [if_neg hcr, if_neg hcr]
    exact .inr ⟨rfl, hstored⟩

theorem recordChunk_cases {s : Recorder} (hs : s.command.length ≤ BUF_SIZE) (bs : List UInt8) :
    recordChunk clock s bs = .error .overflow ∨
      ∃ s', recordChunk clock s bs = .ok s' ∧ s'.command.length ≤ BUF_SIZE ∧
        s' = (bs.takeWhile (· ≠ endOfInput)).foldl (Recorder.key clock) s := by
  induction bs generalizing s with
  | nil => exact .inr ⟨s, rfl, hs, rfl⟩
  | cons b bs ih =>
    unfold recordChunk
    by_cases hend : b = endOfInput
    · rw [if_pos hend, List.takeWhile_cons_of_neg (by simpa using hend)]
      exact .inr ⟨s, rfl, hs, rfl⟩
    · rw [if_neg hend, List.takeWhile_cons_of_pos (by simpa using hend), List.foldl_cons]
      obtain hover | ⟨hok, hlen⟩ := recordByte_cases clock hs b
      · exact .inl (by rw [hover]; rfl)
      · rw [hok]
        exact ih hlen

/-- The loop over the reads. -/
theorem foldlM_recordChunk_cases {s : Recorder} (hs : s.command.length ≤ BUF_SIZE)
    (typed : List Chunk) :
    typed.foldlM (fun s c => recordChunk clock s c.1) s = .error .overflow ∨
      typed.foldlM (fun s c => recordChunk clock s c.1) s
        = .ok ((typedBytes typed).foldl (Recorder.key clock) s) := by
  induction typed generalizing s with
  | nil => exact .inr rfl
  | cons c typed ih =>
    have hbytes : typedBytes (c :: typed)
        = c.1.takeWhile (· ≠ endOfInput) ++ typedBytes typed := rfl
    rw [List.foldlM_cons, hbytes, List.foldl_append]
    obtain hover | ⟨s', hok, hlen, rfl⟩ := recordChunk_cases clock hs c.1
    · exact .inl (by rw [hover]; rfl)
    · rw [hok]
      exact ih hlen

/-- The bytes of a text write the records of its commands. -/
theorem replay_foldl_key (s : Recorder) (bs : List UInt8) :
    (bs.foldl (Recorder.key clock) s).replay =
      s.replay ++ (recordsFrom clock s.count (commandsFrom s.command bs)).flatMap Record.text := by
  induction bs generalizing s with
  | nil => exact (List.append_nil _).symm
  | cons b bs ih =>
    rw [List.foldl_cons, ih, Recorder.key, commandsFrom]
    by_cases hdel : b = delete
    · rw [if_pos hdel, if_pos hdel]
    · rw [if_neg hdel, if_neg hdel]
      by_cases hcr : b = carriageReturn
      · rw [if_pos hcr, if_pos hcr, recordsFrom, List.flatMap_cons, List.append_assoc]
      · rw [if_neg hcr, if_neg hcr]

/-- **The recorder** stops with its own overflow error or writes the records of the session. -/
theorem scriptTime_cases (typed : List Chunk) :
    scriptTime clock typed = .error .overflow ∨
      scriptTime clock typed = .ok ((typedRecords clock typed).flatMap Record.text) := by
  have hempty : (⟨[], [], 0⟩ : Recorder).command.length ≤ BUF_SIZE := Nat.zero_le _
  unfold scriptTime
  obtain hover | hok := foldlM_recordChunk_cases clock hempty typed
  · exact .inl (by rw [hover]; rfl)
  · right
    have hreplay := replay_foldl_key clock ⟨[], [], 0⟩ (typedBytes typed)
    rw [List.nil_append] at hreplay
    rw [hok]
    exact congrArg Except.ok hreplay

end TlpiLearn.Script
