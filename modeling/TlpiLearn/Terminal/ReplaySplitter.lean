import TlpiLearn.Foundations.Lines
import TlpiLearn.Foundations.Machine
import TlpiLearn.Terminal.ScriptReplay
import Mathlib.Tactic

/-!
# The select loop of the replayer

The parent of `64/4/script_replay.c` waits in `select` for the replay file, the pseudoterminal and
the keyboard. It carries what it has of a line in `buf2`, writes each line to the pipe of the child
at its newline, and at the end of the file closes the pipe and leaves the file out of its sets.

`replay_pipe` says what reaches the pipe in every run, however the reads cut the file and whatever
else the loop serves in between. `split_eq_completeLines` says the same of `split`, the loop over
the bytes of the file alone.
-/

namespace TlpiLearn.Script

/-- What the parent does with the write end of the pipe. -/
inductive PipeOp
  | write (buf2 : List UInt8)
  | close
  deriving DecidableEq, Repr

/-- The parent runs, has ended with `exit` or `errExit`, or has left `buf2`. -/
inductive Status
  | running
  | exited
  | overrun
  deriving DecidableEq, Repr

/-- The variables of the loop: what is left of the file, `buf2` up to `index`, what was done with
the pipe, and what was copied from the pseudoterminal. -/
structure Parent where
  file : List UInt8
  buf2 : List UInt8
  closed_replay_select : Bool
  ops : List PipeOp
  relayed : List UInt8
  status : Status

/-- What `read(replayFd, buf, BUF_SIZE)` returns. -/
inductive ReplayRead
  | chunk (c : Chunk)
  | endOfFile
  | error

/-- What becomes of the pseudoterminal when it is ready: its bytes are copied to the terminal and to
the transcript, or one of these calls fails. -/
inductive MasterRead
  | relayed (c : Chunk)
  | error

/-- What becomes of the keyboard when it is ready: `ch` behind the `read`, or the `read` fails. -/
inductive KeyRead
  | ch (b : UInt8)
  | error

/-- A turn of the loop: `select` fails, or finds some of the descriptors ready. -/
inductive Turn
  | selectFails
  | ready (replay : Option ReplayRead) (master : Option MasterRead) (stdin : Option KeyRead)

/-- `'q'`. -/
def quitKey : UInt8 := 113

/-- The body of the loop over the bytes of a read. The `n`-th write to the pipe is complete if
`written n`. -/
def storeByte (written : ℕ → Bool) (s : Parent) (b : UInt8) : Parent :=
  if s.status ≠ .running then s
  else
    match store s.buf2 b with
    | .error _ => { s with status := .overrun }
    | .ok buf2 =>
      if b = newline then
        match store buf2 0 with
        | .error _ => { s with status := .overrun }
        | .ok line =>
          { s with
            buf2 := []
            ops := s.ops ++ [.write (cstr line)]
            status := if written s.ops.length then .running else .exited }
      else { s with buf2 := buf2 }

/-- The replay file is ready. -/
def replayReady (written : ℕ → Bool) (s : Parent) : ReplayRead → Option Parent
  | .chunk c =>
    if c.1 <+: s.file then
      some (c.1.foldl (storeByte written) { s with file := s.file.drop c.1.length })
    else none
  | .endOfFile =>
    if s.file = [] then
      some { s with closed_replay_select := true, ops := s.ops ++ [.close] }
    else none
  | .error => some { s with status := .exited }

/-- The pseudoterminal is ready. -/
def masterReady (s : Parent) : MasterRead → Parent
  | .relayed c => { s with relayed := s.relayed ++ c.1 }
  | .error => { s with status := .exited }

/-- The keyboard is ready. -/
def stdinReady (s : Parent) : KeyRead → Parent
  | .ch b => if b = quitKey then { s with status := .exited } else s
  | .error => { s with status := .exited }

/-- A branch of the loop, if its descriptor is ready and the program has not ended. -/
def branch {ρ : Type} (f : Parent → ρ → Parent) (r : Option ρ) (s : Parent) : Parent :=
  match r with
  | some r => if s.status = .running then f s r else s
  | none => s

/-- A turn of the loop. The file is among the descriptors unless `closed_replay_select`. -/
def turn (written : ℕ → Bool) (s : Parent) : Turn → Option Parent
  | .selectFails => if s.status = .running then some s else none
  | .ready replay master stdin =>
    if s.status = .running ∧ (s.closed_replay_select → replay.isNone) then
      let s' := match replay with
        | some r => replayReady written s r
        | none => some s
      s'.map fun s => branch stdinReady stdin (branch masterReady master s)
    else none

/-- The parent in front of the loop. -/
def Parent.init (file : List UInt8) : Parent := ⟨file, [], false, [], [], .running⟩

/-- The select loop. -/
def selectLoop (written : ℕ → Bool) (file : List UInt8) : Machine Parent Turn :=
  ⟨Parent.init file, turn written⟩

/-! ## What is due on the pipe -/

/-- The lines of a file that end with a newline. -/
def terminatedLines (file : List UInt8) : List (List UInt8) :=
  lines newline (completeLines newline file)

/-- One write for each terminated line, and then the end. -/
def expected (file : List UInt8) : List PipeOp :=
  (terminatedLines file).map .write ++ [.close]

/-- No line of the file, terminated or not, fills the buffer, and there are no null bytes. -/
structure FitsBuffer (file : List UInt8) : Prop where
  lines : ∀ l ∈ lines newline file, l.length ≤ BUF_SIZE - 1
  zero : 0 ∉ file

theorem terminatedLines_append {ls : List (List UInt8)} (hls : ∀ l ∈ ls, IsLine newline l)
    (rest : List UInt8) :
    terminatedLines (ls.flatten ++ rest) = ls ++ terminatedLines rest := by
  rw [terminatedLines, completeLines_flatten_append hls, lines_flatten_append hls, terminatedLines]

theorem terminatedLines_of_notMem {rest : List UInt8} (h : newline ∉ rest) :
    terminatedLines rest = [] := by
  rw [terminatedLines, completeLines_of_notMem h, lines_nil]

/-- Lines that a file begins with are due. -/
theorem map_write_prefix {file rest : List UInt8} {ls : List (List UInt8)}
    (hls : ∀ l ∈ ls, IsLine newline l) (hcut : file = ls.flatten ++ rest) :
    ls.map .write <+: expected file := by
  rw [expected, hcut, terminatedLines_append hls, List.map_append, List.append_assoc]
  exact List.prefix_append _ _

/-! ## Each byte and each turn -/

/-- The program has not left `buf2`, what it did with the pipe is part of what is due, and all of it
once the file is closed. While the program runs, the bytes in front of `rest` have been cut into
lines and the contents of `buf2`. -/
structure Along (file rest : List UInt8) (s : Parent) : Prop where
  fits : s.status ≠ .overrun
  due : s.ops <+: expected file
  closed : s.closed_replay_select = true → s.ops = expected file ∧ rest = []
  cut : s.status = .running → s.closed_replay_select = false →
    ∃ ls : List (List UInt8), s.ops = ls.map .write ∧ (∀ l ∈ ls, IsLine newline l) ∧
      newline ∉ s.buf2 ∧ file = ls.flatten ++ (s.buf2 ++ rest)

variable {written : ℕ → Bool} {file rest : List UInt8} {s : Parent} {b : UInt8}

theorem along_init (file : List UInt8) : Along file file (Parent.init file) where
  fits := nofun
  due := List.nil_prefix
  closed := nofun
  cut _ _ := ⟨[], rfl, nofun, List.not_mem_nil, rfl⟩

/-- The program ends. -/
theorem Along.exit (h : Along file rest s) : Along file rest { s with status := .exited } :=
  ⟨nofun, h.due, h.closed, nofun⟩

theorem storeByte_newline (hrun : s.status = .running) (hlen : s.buf2.length + 1 < BUF_SIZE) :
    storeByte written s newline = { s with
      buf2 := []
      ops := s.ops ++ [.write (cstr (s.buf2 ++ [newline]))]
      status := if written s.ops.length then .running else .exited } := by
  have hfull := length_append_newline_lt hlen
  rw [storeByte, if_neg (not_not.2 hrun), store_of_lt (by omega)]
  simp only [if_true, store_of_lt hfull, cstr_append_zero]

theorem storeByte_of_ne (hrun : s.status = .running) (hlen : s.buf2.length < BUF_SIZE)
    (hb : b ≠ newline) : storeByte written s b = { s with buf2 := s.buf2 ++ [b] } := by
  rw [storeByte, if_neg (not_not.2 hrun), store_of_lt hlen]
  exact if_neg hb

theorem Along.storeNewline (hfile : FitsBuffer file) (h : Along file (newline :: rest) s)
    (hrun : s.status = .running) (hopen : s.closed_replay_select = false) :
    Along file rest (storeByte written s newline) := by
  obtain ⟨ls, hops, hls, hbuf, hcut⟩ := h.cut hrun hopen
  have hline : IsLine newline (s.buf2 ++ [newline]) := ⟨s.buf2, rfl, hbuf⟩
  have hls' : ∀ l ∈ ls ++ [s.buf2 ++ [newline]], IsLine newline l := by
    intro l hl
    obtain hl | hl := List.mem_append.1 hl
    · exact hls l hl
    · rw [List.mem_singleton.1 hl]
      exact hline
  have hcut' : file = (ls ++ [s.buf2 ++ [newline]]).flatten ++ rest := by
    rw [hcut, List.flatten_append, List.flatten_singleton]
    simp only [List.append_assoc, List.singleton_append]
  have hlen : (s.buf2 ++ [newline]).length ≤ BUF_SIZE - 1 := by
    refine hfile.lines _ ?_
    rw [hcut', lines_flatten_append hls']
    simp
  have hzero : 0 ∉ s.buf2 ++ [newline] := by
    intro hzero
    refine hfile.zero ?_
    rw [hcut', List.flatten_append, List.flatten_singleton]
    exact List.mem_append_left _ (List.mem_append_right _ hzero)
  rw [List.length_append, List.length_singleton] at hlen
  rw [storeByte_newline hrun (by simp only [BUF_SIZE] at hlen ⊢; omega), cstr_eq_self hzero]
  have hops' : s.ops ++ [.write (s.buf2 ++ [newline])]
      = (ls ++ [s.buf2 ++ [newline]]).map PipeOp.write := by
    rw [hops, List.map_append, List.map_singleton]
  refine ⟨?_, ?_, fun hclosed => ?_, fun _ _ => ⟨_, hops', hls', List.not_mem_nil, hcut'⟩⟩
  · dsimp only
    split_ifs <;> exact fun h => Status.noConfusion h
  · rw [hops']
    exact map_write_prefix hls' hcut'
  · rw [hopen] at hclosed
    cases hclosed

theorem Along.storeOther (hfile : FitsBuffer file) (h : Along file (b :: rest) s)
    (hrun : s.status = .running) (hopen : s.closed_replay_select = false) (hb : b ≠ newline) :
    Along file rest (storeByte written s b) := by
  obtain ⟨ls, hops, hls, hbuf, hcut⟩ := h.cut hrun hopen
  have hbuf' : newline ∉ s.buf2 ++ [b] := by
    rw [List.mem_append, List.mem_singleton, not_or]
    exact ⟨hbuf, Ne.symm hb⟩
  have hcut' : file = ls.flatten ++ (s.buf2 ++ [b] ++ rest) := by
    rw [hcut, List.append_assoc, List.singleton_append]
  -- what is in the buffer is part of a line
  have hlen : (s.buf2 ++ [b]).length ≤ BUF_SIZE - 1 := by
    refine (length_le_firstLine hbuf' rest).trans (hfile.lines _ ?_)
    rw [hcut', lines_flatten_append hls, lines_eq_cons (by simp)]
    exact List.mem_append_right _ List.mem_cons_self
  rw [List.length_append, List.length_singleton] at hlen
  rw [storeByte_of_ne hrun (by simp only [BUF_SIZE] at hlen ⊢; omega) hb]
  refine ⟨h.fits, h.due, fun hclosed => ?_, fun _ _ => ⟨ls, hops, hls, hbuf', hcut'⟩⟩
  rw [hopen] at hclosed
  cases hclosed

/-- A byte of the file is stored. -/
theorem Along.storeByte (hfile : FitsBuffer file) (h : Along file (b :: rest) s) :
    Along file rest (storeByte written s b) := by
  have hopen : s.closed_replay_select = false := by
    by_contra hclosed
    exact absurd (h.closed (Bool.eq_true_of_not_eq_false hclosed)).2 (List.cons_ne_nil _ _)
  by_cases hrun : s.status = .running
  · by_cases hb : b = newline
    · subst hb
      exact h.storeNewline hfile hrun hopen
    · exact h.storeOther hfile hrun hopen hb
  · rw [Script.storeByte, if_pos hrun]
    exact ⟨h.fits, h.due, fun hclosed => absurd hclosed (by rw [hopen]; nofun),
      fun h => absurd h hrun⟩

/-- The bytes of a read are stored. -/
theorem Along.foldl (hfile : FitsBuffer file) {bs : List UInt8} (h : Along file (bs ++ rest) s) :
    Along file rest (bs.foldl (Script.storeByte written) s) := by
  induction bs generalizing s with
  | nil => exact h
  | cons b bs ih => exact ih (h.storeByte hfile)

/-- The bytes of a read are in the buffer and no more in the file. -/
theorem file_foldl_storeByte (bs : List UInt8) (s : Parent) :
    (bs.foldl (storeByte written) s).file = s.file := by
  have hbyte : ∀ (s : Parent) (b : UInt8), (storeByte written s b).file = s.file := by
    intro s b
    unfold storeByte
    by_cases hrun : s.status ≠ .running
    · rw [if_pos hrun]
    · rw [if_neg hrun]
      cases store s.buf2 b with
      | error => rfl
      | ok buf2 =>
        by_cases hb : b = newline
        · simp only [if_pos hb]
          cases store buf2 0 <;> rfl
        · simp only [if_neg hb]
  induction bs generalizing s with
  | nil => rfl
  | cons b bs ih => rw [List.foldl_cons, ih, hbyte]

theorem Along.replayReady (hfile : FitsBuffer file) (h : Along file s.file s)
    (hrun : s.status = .running) (hopen : s.closed_replay_select = false) {r : ReplayRead}
    {s' : Parent} (hstep : replayReady written s r = some s') : Along file s'.file s' := by
  cases r with
  | chunk c =>
    simp only [Script.replayReady, Option.ite_none_right_eq_some, Option.some.injEq] at hstep
    obtain ⟨⟨rest, hrest⟩, rfl⟩ := hstep
    rw [file_foldl_storeByte]
    dsimp only
    refine Along.foldl hfile ?_
    have hdrop : s.file.drop c.1.length = rest := by
      rw [← hrest, List.drop_left]
    rw [hdrop, hrest]
    exact ⟨h.fits, h.due, h.closed, h.cut⟩
  | endOfFile =>
    simp only [Script.replayReady, Option.ite_none_right_eq_some, Option.some.injEq] at hstep
    obtain ⟨hnil, rfl⟩ := hstep
    obtain ⟨ls, hops, hls, hbuf, hcut⟩ := h.cut hrun hopen
    have hdue : s.ops ++ [.close] = expected file := by
      rw [hcut, hnil, List.append_nil, expected, terminatedLines_append hls,
        terminatedLines_of_notMem hbuf, List.append_nil, hops]
    exact ⟨h.fits, by rw [hdue], fun _ => ⟨hdue, hnil⟩, fun _ => nofun⟩
  | error =>
    obtain rfl := Option.some.inj hstep
    exact h.exit

/-- The branches for the pseudoterminal and the keyboard do nothing with the file or the pipe. -/
theorem Along.branch (h : Along file s.file s) {ρ : Type} {f : Parent → ρ → Parent}
    (hf : ∀ s r, Along file s.file s → Along file (f s r).file (f s r)) (r : Option ρ) :
    Along file (branch f r s).file (branch f r s) := by
  cases r with
  | none => exact h
  | some r =>
    rw [Script.branch]
    split_ifs
    · exact hf s r h
    · exact h

theorem along_masterReady (s : Parent) (r : MasterRead) (h : Along file s.file s) :
    Along file (masterReady s r).file (masterReady s r) := by
  cases r with
  | relayed c => exact ⟨h.fits, h.due, h.closed, h.cut⟩
  | error => exact h.exit

theorem along_stdinReady (s : Parent) (r : KeyRead) (h : Along file s.file s) :
    Along file (stdinReady s r).file (stdinReady s r) := by
  cases r with
  | ch b =>
    rw [stdinReady]
    split_ifs
    · exact h.exit
    · exact h
  | error => exact h.exit

/-- A turn of the loop. -/
theorem Along.turn (hfile : FitsBuffer file) (h : Along file s.file s) {t : Turn} {s' : Parent}
    (hstep : turn written s t = some s') : Along file s'.file s' := by
  cases t with
  | selectFails =>
    simp only [Script.turn, Option.ite_none_right_eq_some, Option.some.injEq] at hstep
    exact hstep.2 ▸ h
  | ready replay master stdin =>
    simp only [Script.turn, Option.ite_none_right_eq_some, Option.map_eq_some_iff] at hstep
    obtain ⟨⟨hrun, hset⟩, s₁, hreplay, rfl⟩ := hstep
    have h₁ : Along file s₁.file s₁ := by
      cases replay with
      | none => exact Option.some.inj hreplay ▸ h
      | some r =>
        refine h.replayReady hfile hrun ?_ hreplay
        exact Bool.eq_false_of_not_eq_true fun hclosed => by simpa using hset hclosed
    exact (h₁.branch along_masterReady master).branch along_stdinReady stdin

/-! ## Every run -/

/-- **What reaches the pipe**: in every run the parent stays in its buffer, and while it runs it has
written the terminated lines of the bytes read so far, one write each. At the end of the file it has
written all terminated lines and nothing else, and then closed the pipe, once. -/
theorem replay_pipe (hfile : FitsBuffer file) (written : ℕ → Bool) {turns : List Turn}
    (h : (selectLoop written file).run (Parent.init file) turns = some s) :
    s.status ≠ .overrun ∧ s.ops <+: expected file ∧
      (s.status = .running → s.closed_replay_select = false →
        ∃ bytes, file = bytes ++ s.file ∧ s.ops = (terminatedLines bytes).map .write) ∧
      (s.closed_replay_select = true → s.ops = expected file) := by
  have hreach : (selectLoop written file).Reachable s := Machine.Reachable.run .init turns h
  have halong : Along file s.file s :=
    Machine.ReachableBy.invariant (I := fun s => Along file s.file s) hreach (along_init file)
      fun _ _ _ hs _ hstep => hs.turn hfile hstep
  refine ⟨halong.fits, halong.due, fun hrun hopen => ?_, fun hclosed => (halong.closed hclosed).1⟩
  obtain ⟨ls, hops, hls, hbuf, hcut⟩ := halong.cut hrun hopen
  refine ⟨ls.flatten ++ s.buf2, by rw [List.append_assoc]; exact hcut, ?_⟩
  rw [hops, terminatedLines_append hls, terminatedLines_of_notMem hbuf, List.append_nil]

/-- A file with a line `a` and an unfinished line `b`. -/
def twoLines : List UInt8 := [97, 10, 98]

theorem fitsBuffer_twoLines : FitsBuffer twoLines := ⟨by decide, by decide⟩

/-- The file is read in two parts, with the keyboard served in between. -/
def twoLinesTurns : List Turn :=
  [.ready (some (.chunk ⟨[97], by decide⟩)) none (some (.ch 120)), .selectFails,
    .ready (some (.chunk ⟨[10, 98], by decide⟩)) none none, .ready (some .endOfFile) none none]

/-- Only the line `a` is written. -/
theorem replay_pipe_twoLines :
    ∃ s, (selectLoop (fun _ => true) twoLines).run (Parent.init twoLines) twoLinesTurns = some s ∧
      s.ops = [.write [97, 10], .close] := by
  have hrun : (selectLoop (fun _ => true) twoLines).run (Parent.init twoLines) twoLinesTurns
      = some ⟨[], [98], true, [.write [97, 10], .close], [], .running⟩ := rfl
  exact ⟨_, hrun, (replay_pipe fitsBuffer_twoLines _ hrun).2.2.2 rfl⟩

/-! ## The loop over the bytes alone -/

/-- The bytes in the pipe. -/
def pipeBytes (ops : List PipeOp) : List UInt8 :=
  ops.flatMap fun
    | .write buf2 => buf2
    | .close => []

/-- What `storeByte` does within the buffer. -/
theorem storeByte_cases (hrun : s.status = .running)
    (hfits : (storeByte written s b).status ≠ .overrun) :
    (∃ buf2 line, b = newline ∧ store s.buf2 b = .ok buf2 ∧ store buf2 0 = .ok line ∧
        storeByte written s b = { s with
          buf2 := []
          ops := s.ops ++ [.write (cstr line)]
          status := if written s.ops.length then .running else .exited }) ∨
      ∃ buf2, b ≠ newline ∧ store s.buf2 b = .ok buf2 ∧
        storeByte written s b = { s with buf2 := buf2 } := by
  rw [storeByte, if_neg (not_not.2 hrun)] at hfits ⊢
  cases hstore : store s.buf2 b with
  | error =>
    rw [hstore] at hfits
    exact absurd rfl hfits
  | ok buf2 =>
    rw [hstore] at hfits
    by_cases hb : b = newline
    · simp only [if_pos hb] at hfits ⊢
      cases hline : store buf2 0 with
      | error =>
        rw [hline] at hfits
        exact absurd rfl hfits
      | ok line => exact .inl ⟨buf2, line, hb, rfl, hline, rfl⟩
    · simp only [if_neg hb]
      exact .inr ⟨buf2, hb, rfl, rfl⟩

/-- `splitByte` and `storeByte` do the same within the buffer. -/
theorem splitByte_of_storeByte (hrun : s.status = .running)
    (hfits : (storeByte written s b).status ≠ .overrun) :
    splitByte ⟨s.buf2, pipeBytes s.ops⟩ b
      = .ok ⟨(storeByte written s b).buf2, pipeBytes (storeByte written s b).ops⟩ := by
  obtain ⟨buf2, line, hb, hstore, hline, heq⟩ | ⟨buf2, hb, hstore, heq⟩ :=
    storeByte_cases hrun hfits
  · rw [splitByte, hstore, ok_bind, if_pos hb, hline, heq]
    simp [pipeBytes]
  · rw [splitByte, hstore, ok_bind, if_neg hb, heq]
    rfl

theorem pipeBytes_map_write (ls : List (List UInt8)) (ops : List PipeOp) :
    pipeBytes (ls.map .write ++ ops) = ls.flatten ++ pipeBytes ops := by
  induction ls with
  | nil => rfl
  | cons l ls ih =>
    rw [List.map_cons, List.cons_append, List.flatten_cons, List.append_assoc, ← ih]
    rfl

/-- Where every write is complete, the program goes on or leaves the buffer. -/
theorem status_storeByte (hrun : s.status = .running)
    (hfits : (storeByte (fun _ => true) s b).status ≠ .overrun) :
    (storeByte (fun _ => true) s b).status = .running := by
  obtain ⟨buf2, line, -, -, -, heq⟩ | ⟨buf2, -, -, heq⟩ := storeByte_cases hrun hfits
  · rw [heq]
    rfl
  · rw [heq]
    exact hrun

theorem foldlM_splitByte_eq (hfile : FitsBuffer file) {bs : List UInt8}
    (h : Along file (bs ++ rest) s) (hrun : s.status = .running) :
    ∃ s', bs.foldlM splitByte ⟨s.buf2, pipeBytes s.ops⟩ = .ok ⟨s'.buf2, pipeBytes s'.ops⟩ ∧
      s'.status = .running ∧ Along file rest s' := by
  induction bs generalizing s with
  | nil => exact ⟨s, rfl, hrun, h⟩
  | cons b bs ih =>
    have hnext : Along file (bs ++ rest) (storeByte (fun _ => true) s b) := h.storeByte hfile
    rw [List.foldlM_cons, splitByte_of_storeByte hrun hnext.fits, ok_bind]
    exact ih hnext (status_storeByte hrun hnext.fits)

/-- **The two models of the splitter agree**: the loop over the bytes of the file alone passes its
terminated lines to the child. -/
theorem split_eq_completeLines (hfile : FitsBuffer file) {reads : List Chunk}
    (hreads : reads.flatMap Subtype.val = file) :
    split reads = .ok (completeLines newline file) := by
  have hinit : Along file (file ++ []) (Parent.init file) := by
    rw [List.append_nil]
    exact along_init file
  obtain ⟨s, hsplit, hrun, hs⟩ := foldlM_splitByte_eq hfile hinit rfl
  have hbytes : pipeBytes s.ops = completeLines newline file := by
    cases hclosed : s.closed_replay_select with
    | true =>
      rw [(hs.closed hclosed).1, expected, pipeBytes_map_write, terminatedLines, flatten_lines]
      exact List.append_nil _
    | false =>
      obtain ⟨ls, hops, hls, hbuf, hcut⟩ := hs.cut hrun hclosed
      have hmap := pipeBytes_map_write ls []
      rw [List.append_nil] at hmap hcut
      rw [hops, hmap, hcut, completeLines_flatten_append hls, completeLines_of_notMem hbuf]
      rfl
  rw [split, foldlM_flatMap Subtype.val splitByte, hreads]
  change (file.foldlM splitByte ⟨[], []⟩ >>= fun s => Except.ok s.pipe) = _
  have hstart : file.foldlM splitByte ⟨[], []⟩ = .ok ⟨s.buf2, pipeBytes s.ops⟩ := hsplit
  rw [hstart, ok_bind, hbytes]

end TlpiLearn.Script
