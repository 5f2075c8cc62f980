import TlpiLearn.Foundations.Outcome
import TlpiLearn.Terminal.ScriptTime
import Mathlib.Tactic

/-!
# How the typed bytes arrive

The recorder of `64/4/script_time.c` keeps an unfinished command from read to read, and leaves the
loop over the bytes of a read at `^D` and the program when the command is too long. Here it is
followed up to that point, with any results of `passtime`.

`commands_session` says which commands are written for any reads, and `commands_of_reads` that it
does not depend on the reads, as long as `^D` comes last in its read. With a clock it is the
recorder of `ScriptTime` (`scriptTime_eq`).
-/

namespace TlpiLearn.Script

/-- The variables of the recorder, the records that it wrote, and the error that ended it. -/
structure Typist where
  command : List UInt8
  written : List Record
  stopped : Option Abort
  deriving DecidableEq

/-- The results of `passtime`, each an `int` and none the error value. -/
structure PassTimes where
  result : ℕ → ℤ
  ne : ∀ k, result k ≠ -1
  ge : ∀ k, -2 ^ 31 ≤ result k
  lt : ∀ k, result k < 2 ^ 31

/-- A finished `command` is stamped, formatted into `buf2` and written. -/
def Typist.finish (passTime : ℤ) (s : Typist) (command : List UInt8) : Typist :=
  if command.length = BUF_SIZE then { s with command := command, stopped := some .overflow }
  else if passTime = -1 then { s with command := command, stopped := some .passtime }
  else if BUF_SIZE + 20 < (formatRecord passTime (command ++ [0])).length + 1 then
    { s with command := command, stopped := some .overrun }
  else { s with command := [], written := s.written ++ [⟨passTime, command⟩] }

/-- The body of the loop over the bytes of a read, behind the test for `^D`. -/
def typeByte (passTimes : ℕ → ℤ) (s : Typist) (b : UInt8) : Typist :=
  if s.stopped.isSome then s
  else if s.command.length = BUF_SIZE then { s with stopped := some .overflow }
  else if b = delete then { s with command := s.command.dropLast }
  else
    let command := s.command ++ [b]
    if b = carriageReturn then
      s.finish (passTimes s.written.length) (command.set (command.length - 1) newline)
    else { s with command := command }

/-- The loop over the bytes of a read. -/
def typeChunk (passTimes : ℕ → ℤ) : Typist → List UInt8 → Typist
  | s, [] => s
  | s, b :: bs => if b = endOfInput then s else typeChunk passTimes (typeByte passTimes s b) bs

/-- What the recorder has done when the terminal has delivered the reads `typed`. -/
def session (passTimes : ℕ → ℤ) (typed : List Chunk) : Typist :=
  typed.foldl (fun s c => typeChunk passTimes s c.1) ⟨[], [], none⟩

/-- The commands that stand in the file, behind the times. -/
def Typist.commands (s : Typist) : List (List UInt8) := s.written.map fun r => cstr r.command

/-! ## What is due -/

/-- The typed bytes. -/
def bytesOf (typed : List Chunk) : List UInt8 := typed.flatMap Subtype.val

/-- The bytes up to the one at which a command with `n` unfinished bytes in front of them gets too
long. -/
def beforeOverflow : ℕ → List UInt8 → List UInt8
  | _, [] => []
  | n, b :: bs =>
    if n = BUF_SIZE then []
    else if b = delete then b :: beforeOverflow (n - 1) bs
    else if b = carriageReturn then
      if n + 1 = BUF_SIZE then [] else b :: beforeOverflow 0 bs
    else b :: beforeOverflow (n + 1) bs

/-- The commands of a text as they are printed: with a newline, up to a null byte. -/
def printed (text : List UInt8) : List (List UInt8) :=
  (commandsFrom [] text).map fun command => cstr (command ++ [newline])

/-! ## The recorder writes it -/

variable {passTimes : ℕ → ℤ} {s : Typist} {b : UInt8}

theorem typeByte_of_stopped (h : s.stopped.isSome) (b : UInt8) : typeByte passTimes s b = s :=
  if_pos h

theorem typeChunk_eq (s : Typist) (bs : List UInt8) :
    typeChunk passTimes s bs
      = (bs.takeWhile (· ≠ endOfInput)).foldl (typeByte passTimes) s := by
  induction bs generalizing s with
  | nil => rfl
  | cons b bs ih =>
    rw [typeChunk]
    split_ifs with hb
    · rw [List.takeWhile_cons_of_neg (by simpa using hb)]
      rfl
    · rw [List.takeWhile_cons_of_pos (by simpa using hb), List.foldl_cons, ih]

theorem session_eq (typed : List Chunk) :
    session passTimes typed
      = (typedBytes typed).foldl (typeByte passTimes) ⟨[], [], none⟩ := by
  rw [session, typedBytes, List.foldl_flatMap]
  simp only [typeChunk_eq]

/-- A command that leaves room for its terminator is written. -/
theorem finish_of_lt {passTime : ℤ} (hne : passTime ≠ -1) (hge : -2 ^ 31 ≤ passTime)
    (hlt : passTime < 2 ^ 31) {command : List UInt8} (hlen : command.length < BUF_SIZE) :
    s.finish passTime command
      = { s with command := [], written := s.written ++ [⟨passTime, command⟩] } := by
  have hbuf2 := length_formatRecord_le hge hlt hlen
  have hterm : formatRecord passTime (command ++ [0]) = formatRecord passTime command := by
    rw [formatRecord, formatRecord, cstr_append_zero]
  rw [Typist.finish, if_neg hlen.ne, if_neg hne, hterm, if_neg (by omega)]

/-- A recorder that has stopped writes nothing more. -/
theorem foldl_typeByte_of_stopped (h : s.stopped.isSome) (bs : List UInt8) :
    bs.foldl (typeByte passTimes) s = s := by
  induction bs with
  | nil => rfl
  | cons b bs ih => rw [List.foldl_cons, typeByte_of_stopped h, ih]

/-- **The bytes of a text** write its commands up to the first one that is too long. -/
theorem commands_foldl (passTimes : PassTimes) (hs : s.stopped = none)
    (hlen : s.command.length ≤ BUF_SIZE) (bs : List UInt8) :
    (bs.foldl (typeByte passTimes.result) s).commands =
      s.commands ++ (commandsFrom s.command (beforeOverflow s.command.length bs)).map
        fun command => cstr (command ++ [newline]) := by
  induction bs generalizing s with
  | nil => exact (List.append_nil _).symm
  | cons b bs ih =>
    rw [List.foldl_cons, beforeOverflow, typeByte, if_neg (by rw [hs]; simp)]
    by_cases hfull : s.command.length = BUF_SIZE
    · rw [if_pos hfull, if_pos hfull, foldl_typeByte_of_stopped rfl]
      exact (List.append_nil _).symm
    rw [if_neg hfull, if_neg hfull]
    by_cases hdel : b = delete
    · have hdrop : s.command.dropLast.length ≤ BUF_SIZE := by
        rw [List.length_dropLast]
        omega
      have hrest := ih (s := { s with command := s.command.dropLast }) hs hdrop
      rw [if_pos hdel, if_pos hdel, hrest, commandsFrom, if_pos hdel, List.length_dropLast]
      rfl
    rw [if_neg hdel, if_neg hdel]
    have hset : (s.command ++ [b]).set ((s.command ++ [b]).length - 1) newline
        = s.command ++ [newline] := by
      simp
    have hlen' : (s.command ++ [newline]).length = s.command.length + 1 := by simp
    by_cases hcr : b = carriageReturn
    · simp only [if_pos hcr, hset]
      by_cases hlast : s.command.length + 1 = BUF_SIZE
      · rw [if_pos hlast, Typist.finish, if_pos (hlen'.trans hlast), foldl_typeByte_of_stopped rfl]
        exact (List.append_nil _).symm
      · have hrest := ih (s := { s with
          command := []
          written := s.written ++
            [⟨passTimes.result s.written.length, s.command ++ [newline]⟩] }) hs (Nat.zero_le _)
        rw [if_neg hlast, finish_of_lt (passTimes.ne _) (passTimes.ge _) (passTimes.lt _)
          (by omega), hrest, commandsFrom, if_neg hdel, if_pos hcr]
        simp [Typist.commands]
    · have hcommand : (s.command ++ [b]).length = s.command.length + 1 := by simp
      have hroom : (s.command ++ [b]).length ≤ BUF_SIZE := by omega
      have hrest := ih (s := { s with command := s.command ++ [b] }) hs hroom
      simp only [if_neg hcr]
      rw [hrest, commandsFrom, if_neg hdel, if_neg hcr, hcommand]
      rfl

/-- **The recorder** writes the commands of the bytes in front of the `^D` of each read, up to the
first command that is too long. -/
theorem commands_session (passTimes : PassTimes) (typed : List Chunk) :
    (session passTimes.result typed).commands = printed (beforeOverflow 0 (typedBytes typed)) := by
  rw [session_eq, commands_foldl passTimes rfl (Nat.zero_le _)]
  rfl

/-! ## The recorder with a clock -/

/-- The results of `passtime` with a clock. -/
def Clock.stamps (clock : Clock) : ℕ → ℤ := fun k => passtime clock.start (clock.now k)

/-- What the recorder with a clock has got to. -/
def Typist.outcome (s : Typist) : Except Abort Recorder :=
  match s.stopped with
  | some e => .error e
  | none => .ok ⟨s.command, s.written.flatMap Record.text, s.written.length⟩

theorem outcome_of_stopped {e : Abort} (h : s.stopped = some e) : s.outcome = .error e := by
  rw [Typist.outcome, h]

theorem outcome_of_running (h : s.stopped = none) :
    s.outcome = .ok ⟨s.command, s.written.flatMap Record.text, s.written.length⟩ := by
  rw [Typist.outcome, h]

theorem writeCommand_eq (clock : Clock) (hs : s.stopped = none) (command : List UInt8) :
    writeCommand clock ⟨s.command, s.written.flatMap Record.text, s.written.length⟩ command
      = (s.finish (clock.stamps s.written.length) command).outcome := by
  have hterm : Record.text ⟨clock.stamps s.written.length, command⟩
      = formatRecord (clock.stamps s.written.length) (command ++ [0]) := by
    rw [Record.text, formatRecord, formatRecord, cstr_append_zero]
  have hstamp : passtime clock.start (clock.now s.written.length)
      = clock.stamps s.written.length := rfl
  unfold writeCommand Typist.finish
  simp only [hstamp]
  by_cases hfull : command.length = BUF_SIZE
  · rw [if_pos hfull, if_pos hfull]
    rfl
  by_cases hpass : clock.stamps s.written.length = -1
  · rw [if_neg hfull, if_neg hfull, if_pos hpass, if_pos hpass]
    rfl
  rw [if_neg hfull, if_neg hfull, if_neg hpass, if_neg hpass]
  split_ifs with hbuf2
  · rfl
  · have hwritten :
        (s.written ++ [Record.mk (clock.stamps s.written.length) command]).flatMap Record.text
          = s.written.flatMap Record.text
            ++ formatRecord (clock.stamps s.written.length) (command ++ [0]) := by
      rw [List.flatMap_append, List.flatMap_singleton, hterm]
    rw [← hwritten, ← List.length_concat (a := Record.mk (clock.stamps s.written.length) command),
      List.concat_eq_append]
    refine Eq.symm (outcome_of_running ?_)
    exact hs

/-- `recordByte` and `typeByte` do the same. -/
theorem recordByte_eq (clock : Clock) (hs : s.stopped = none) (hlen : s.command.length ≤ BUF_SIZE)
    (b : UInt8) :
    recordByte clock ⟨s.command, s.written.flatMap Record.text, s.written.length⟩ b
      = (typeByte clock.stamps s b).outcome := by
  rw [typeByte, if_neg (by rw [hs]; simp), recordByte]
  dsimp only
  by_cases hfull : s.command.length = BUF_SIZE
  · rw [if_pos hfull, if_pos hfull]
    rfl
  have hroom : ¬ BUF_SIZE < (s.command ++ [b]).length := by
    rw [List.length_append, List.length_singleton]
    omega
  rw [if_neg hfull, if_neg hfull]
  by_cases hdel : b = delete
  · rw [if_pos hdel, if_pos hdel]
    refine Eq.symm (outcome_of_running ?_)
    exact hs
  rw [if_neg hdel, if_neg hdel, if_neg hroom]
  by_cases hcr : b = carriageReturn
  · rw [if_pos hcr, if_pos hcr]
    exact writeCommand_eq clock hs _
  · rw [if_neg hcr, if_neg hcr]
    refine Eq.symm (outcome_of_running ?_)
    exact hs

theorem length_command_typeByte {stamps : ℕ → ℤ} (hs : (typeByte stamps s b).stopped = none)
    (hlen : s.command.length ≤ BUF_SIZE) : (typeByte stamps s b).command.length ≤ BUF_SIZE := by
  unfold typeByte at hs ⊢
  split_ifs at hs ⊢ with hstopped hfull hdel hcr
  · exact hlen
  · rw [List.length_dropLast]
    omega
  · rw [Typist.finish] at hs ⊢
    split_ifs at hs ⊢
    exact Nat.zero_le _
  · rw [List.length_append, List.length_singleton]
    omega

theorem foldlM_recordByte_eq (clock : Clock) (hs : s.stopped = none)
    (hlen : s.command.length ≤ BUF_SIZE) (bs : List UInt8) :
    bs.foldlM (recordByte clock) ⟨s.command, s.written.flatMap Record.text, s.written.length⟩
      = (bs.foldl (typeByte clock.stamps) s).outcome := by
  induction bs generalizing s with
  | nil => exact (outcome_of_running hs).symm
  | cons b bs ih =>
    rw [List.foldlM_cons, recordByte_eq clock hs hlen, List.foldl_cons]
    cases hnext : (typeByte clock.stamps s b).stopped with
    | some e =>
      rw [outcome_of_stopped hnext, foldl_typeByte_of_stopped (by rw [hnext]; rfl),
        outcome_of_stopped hnext]
      rfl
    | none =>
      rw [outcome_of_running hnext]
      exact ih hnext (length_command_typeByte hnext hlen)

theorem recordChunk_eq_foldlM (clock : Clock) (r : Recorder) (bs : List UInt8) :
    recordChunk clock r bs = (bs.takeWhile (· ≠ endOfInput)).foldlM (recordByte clock) r := by
  induction bs generalizing r with
  | nil => rfl
  | cons b bs ih =>
    rw [recordChunk]
    split_ifs with hb
    · rw [List.takeWhile_cons_of_neg (by simpa using hb)]
      rfl
    · rw [List.takeWhile_cons_of_pos (by simpa using hb), List.foldlM_cons]
      exact bind_congr ih

/-- **The recorder with a clock** stops as this one does, and otherwise the file holds the texts of
its records. -/
theorem scriptTime_eq (clock : Clock) (typed : List Chunk) :
    scriptTime clock typed = (session clock.stamps typed).outcome.map Recorder.replay := by
  have hloop : typed.foldlM (fun s c => recordChunk clock s c.1) ⟨[], [], 0⟩
      = (session clock.stamps typed).outcome := by
    simp only [recordChunk_eq_foldlM]
    rw [foldlM_flatMap (fun c : Chunk => c.1.takeWhile (· ≠ endOfInput)), session_eq]
    exact foldlM_recordByte_eq (s := ⟨[], [], none⟩) clock rfl (Nat.zero_le _) (typedBytes typed)
  rw [scriptTime, hloop]
  cases (session clock.stamps typed).outcome <;> rfl

/-! ## The reads -/

/-- `^D` comes last in its read. -/
def EndsLast (typed : List Chunk) : Prop := ∀ c ∈ typed, endOfInput ∉ c.1.dropLast

instance : DecidablePred EndsLast := fun _ => inferInstanceAs (Decidable (∀ c ∈ _, _))

/-- Then nothing but `^D` is left out. -/
theorem typedBytes_eq_filter {typed : List Chunk} (h : EndsLast typed) :
    typedBytes typed = (bytesOf typed).filter (· ≠ endOfInput) := by
  have hread : ∀ {bs : List UInt8}, endOfInput ∉ bs.dropLast →
      bs.takeWhile (· ≠ endOfInput) = bs.filter (· ≠ endOfInput) := by
    intro bs hbs
    obtain rfl | ⟨front, last, rfl⟩ := bs.eq_nil_or_concat'
    · rfl
    · rw [List.dropLast_concat] at hbs
      have hfront : ∀ b ∈ front, decide (b ≠ endOfInput) = true := by
        intro b hb
        exact decide_eq_true fun h => hbs (h ▸ hb)
      rw [List.takeWhile_append_of_pos hfront, List.filter_append, List.filter_eq_self.2 hfront]
      by_cases hlast : last = endOfInput
      · rw [List.takeWhile_cons_of_neg (by simpa using hlast),
          List.filter_cons_of_neg (by simpa using hlast), List.filter_nil]
      · rw [List.takeWhile_cons_of_pos (by simpa using hlast),
          List.filter_cons_of_pos (by simpa using hlast), List.filter_nil, List.takeWhile_nil]
  rw [typedBytes, bytesOf, List.filter_flatMap]
  exact List.flatMap_congr fun c hc => hread (h c hc)

/-- **How the bytes arrive makes no difference** as long as `^D` comes last in its read: the
commands written are those of the typed bytes but for `^D`, up to the first one that is too long. -/
theorem commands_of_reads (passTimes passTimes' : PassTimes) {typed typed' : List Chunk}
    (hbytes : bytesOf typed = bytesOf typed') (h : EndsLast typed) (h' : EndsLast typed') :
    (session passTimes.result typed).commands = (session passTimes'.result typed').commands ∧
      (session passTimes.result typed).commands
        = printed (beforeOverflow 0 ((bytesOf typed).filter (· ≠ endOfInput))) := by
  rw [commands_session, commands_session, typedBytes_eq_filter h, typedBytes_eq_filter h', hbytes]
  exact ⟨rfl, rfl⟩

/-- Every command is finished after 5 microseconds. -/
def passFive : PassTimes where
  result _ := 5
  ne _ := by decide
  ge _ := by decide
  lt _ := by decide

/-- `^D`, `l`, `s` and return in one read. -/
def oneRead : List Chunk := [⟨[4, 108, 115, 13], by decide⟩]

/-- `^D`, and then `l`, `s` and return. -/
def twoReads : List Chunk := [⟨[4], by decide⟩, ⟨[108, 115, 13], by decide⟩]

/-- 256 bytes, and then return. -/
def overlongReads : List Chunk :=
  [⟨List.replicate 256 97, by decide +kernel⟩, ⟨[carriageReturn], by decide⟩]

/-- The command `ls` in three reads and in one. -/
theorem commands_of_reads_ls :
    (session passFive.result [⟨[108], by decide⟩, ⟨[115, 120], by decide⟩,
        ⟨[127, 13], by decide⟩]).commands
      = (session passFive.result [⟨[108, 115, 120, 127, 13], by decide⟩]).commands :=
  (commands_of_reads passFive passFive (by decide) (by decide) (by decide)).1

/-- What is typed behind `^D` in its read is not recorded; a command that is too long ends the
recorder; and a null byte ends the text of its command. -/
theorem commands_depend_on_reads :
    bytesOf oneRead = bytesOf twoReads ∧
      (session passFive.result oneRead).commands = [] ∧
      (session passFive.result twoReads).commands = [[108, 115, 10]] ∧
      commandsFrom [] (bytesOf overlongReads) = [List.replicate 256 97] ∧
      (session passFive.result overlongReads).commands = [] ∧
      commandsFrom [] [0, 13] = [[0]] ∧
      (session passFive.result [⟨[0, 13], by decide⟩]).commands = [[]] := by
  decide +kernel

end TlpiLearn.Script
