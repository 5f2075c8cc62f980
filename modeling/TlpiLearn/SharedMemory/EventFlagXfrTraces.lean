import TlpiLearn.Foundations.Traces
import TlpiLearn.SharedMemory.EventFlagXfrSafety
import Mathlib.Tactic

/-!
# What is seen of the event-flag transfer

The events of a transfer are the reads of the standard input, the writes to the standard output and
the removals of the two IPC objects. What has been seen when a state is reached can be told from the
state (`history`, `Inv.history_step`), and it is an initial segment of one alternating sequence
(`script`). Every initial segment is seen of some run (`traces_eq`), and a run that ends with a
reader that found the objects has shown all of it (`completeTraces_eq`).
-/

namespace TlpiLearn.EventFlagXfr

open EventFlag Machine

/-- An event of a transfer; a `read` of no bytes is the end of the standard input. -/
inductive Event
  | read (bytes : List UInt8)
  | write (bytes : List UInt8)
  | removeSem
  | removeShm
  deriving DecidableEq, Repr

/-- A read and a write for each block. -/
def rounds (blocks : List (List UInt8)) : List Event :=
  blocks.flatMap fun b => [.read b, .write b]

variable {BUF_SIZE : ℕ}

/-- The alternating sequence for an input. -/
def script (input : List (Chunk BUF_SIZE)) : List Event :=
  rounds (input.map Chunk.bytes) ++ [.read [], .removeSem, .removeShm]

/-- What is seen of the next step of a process. -/
def observe (s : State BUF_SIZE) : Label → Option Event
  | .writer =>
    match s.writer with
    | .read => s.shm.map fun _ => .read (match s.stdin with | [] => [] | c :: _ => c.bytes)
    | .removeSem => s.sem.map fun _ => .removeSem
    | .removeShm => s.shm.map fun _ => .removeShm
    | _ => none
  | .reader =>
    match s.reader with
    | .write => s.shm.map fun g => .write (g.buf.take g.cnt)
    | _ => none

/-! ## The history of a state -/

/-- The reads and writes when the blocks `read` have been read and `written` has been written. -/
def transcript (written read : List (List UInt8)) : List Event :=
  rounds written ++ (read.drop written.length).map .read

/-- The blocks that have been read. -/
def State.readBlocks (input : List (Chunk BUF_SIZE)) (s : State BUF_SIZE) : List (List UInt8) :=
  (input.map Chunk.bytes).take (input.length - s.stdin.length)

/-- The end of the standard input has been read. -/
def State.lastRead (s : State BUF_SIZE) : Bool :=
  match s.writer with
  | .storeCnt n => n = 0
  | .setRead | .testCnt => s.shm.elim 0 Shmseg.cnt = 0
  | .waitLast | .clearLast | .removeSem | .shmdt | .removeShm | .finished => true
  | _ => false

/-- The removals that the writer has made. -/
def WriterPc.removals : WriterPc → List Event
  | .shmdt | .removeShm => [.removeSem]
  | .finished => [.removeSem, .removeShm]
  | _ => []

/-- What was seen before the state. -/
def history (input : List (Chunk BUF_SIZE)) (s : State BUF_SIZE) : List Event :=
  transcript s.stdout (s.readBlocks input) ++ (if s.lastRead then [.read []] else []) ++
    s.writer.removals

variable {input : List (Chunk BUF_SIZE)} {fresh : SemSet 2} {s s' : State BUF_SIZE} {t : Turn}
  {eof : Bool} {g : Shmseg} {read : List (List UInt8)}

theorem transcript_append (bs cs : List (List UInt8)) :
    transcript bs (bs ++ cs) = rounds bs ++ cs.map .read := by
  rw [transcript, List.drop_left]

theorem rounds_append (bs cs : List (List UInt8)) : rounds (bs ++ cs) = rounds bs ++ rounds cs :=
  List.flatMap_append

/-- A step that moves neither the files nor the end of the input shows nothing. -/
theorem history_congr (hstdout : s'.stdout = s.stdout) (hstdin : s'.stdin = s.stdin)
    (hlast : s'.lastRead = s.lastRead) (hremovals : s'.writer.removals = s.writer.removals) :
    history input s' = history input s := by
  rw [history, history, State.readBlocks, State.readBlocks, hstdout, hstdin, hlast, hremovals]

theorem Running.readBlocks_eq (hr : Running input s t eof g read) : s.readBlocks input = read := by
  have hlen := congrArg List.length hr.input
  rw [List.length_map, List.length_append, List.length_map] at hlen
  rw [State.readBlocks, hr.input, hlen, Nat.add_sub_cancel, List.take_left]

/-- The history while both objects exist. -/
theorem Running.history_eq (hr : Running input s t eof g read) :
    history input s = rounds s.stdout ++ (t.pending g s.writer s.reader).map .read ++
      (if s.lastRead then [.read []] else []) := by
  have hremovals : s.writer.removals = [] := by
    have hw := hr.writer
    cases hpc : s.writer <;> rw [hpc] at hw <;> first | rfl | exact hw.elim
  rw [history, hr.readBlocks_eq, hr.stdout, transcript_append, hremovals, List.append_nil]

/-! ## Steps and their events -/

/-- The writer reads a block, or the end of its input. -/
theorem Running.history_read (hr : Running input s .writer false g read) (hpc : s.writer = .read)
    (h : EventFlagXfr.writerStep fresh s = some s') :
    history input s' = history input s ++ (observe s .writer).toList := by
  have hbefore := hr.history_eq
  rw [pending_writer hr.reader, hpc] at hbefore
  have hnone : s.lastRead = false := by
    rw [State.lastRead, hpc]
  have hheld : held g .read = [] := rfl
  rw [hnone, hheld, List.map_nil] at hbefore
  simp only [EventFlagXfr.writerStep, hpc, hr.writerShm] at h
  rw [hbefore]
  split at h <;> obtain rfl := Option.some.inj h <;> clear h
  · rename_i hin
    have hr' := hr.readEof hpc hin
    have hobs : observe s .writer = some (.read []) := by
      simp only [observe, hpc, hr.shm, hin, Option.map_some]
    rw [hr'.history_eq, pending_writer hr'.reader, hobs]
    simp [held, blockOf, State.lastRead]
  · rename_i c stdin hin
    have hr' := hr.readChunk hpc hin
    have hobs : observe s .writer = some (.read c.bytes) := by
      simp only [observe, hpc, hr.shm, hin, Option.map_some]
    have hblock : blockOf c.bytes.length (g.fill c.bytes).buf = [c.bytes] := by
      rw [blockOf, if_neg c.pos.ne', Shmseg.fill, List.take_left]
    have hne : c.bytes ≠ [] := List.ne_nil_of_length_pos c.pos
    rw [hr'.history_eq, pending_writer hr'.reader, held, hblock, hobs]
    simp [State.lastRead, hne]

/-- **A step of the writer** adds its event to the history. -/
theorem Running.history_writer (hr : Running input s t eof g read)
    (h : EventFlagXfr.writerStep fresh s = some s') :
    history input s' = history input s ++ (observe s .writer).toList := by
  have hw := hr.writer
  cases hpc : s.writer <;> rw [hpc] at hw <;> simp only [Turn.WriterAt] at hw
  case read =>
    obtain ⟨rfl, rfl⟩ := hw
    exact hr.history_read hpc h
  all_goals
    simp only [EventFlagXfr.writerStep, hpc, hr.writerSem, hr.writerShm] at h
    simp only [observe, hpc, Option.toList_none, List.append_nil]
  case shmat | clearWrite | setRead | advance | clearLast =>
    obtain rfl := Option.some.inj h
    refine history_congr rfl rfl ?_ ?_ <;> simp [State.lastRead, WriterPc.removals, hpc]
  case waitWrite | waitLast =>
    obtain ⟨-, rfl⟩ := hr.writerWait h
    refine history_congr rfl rfl ?_ ?_ <;> simp [State.lastRead, WriterPc.removals, hpc]
  case storeCnt n =>
    obtain rfl := Option.some.inj h
    refine history_congr rfl rfl ?_ ?_
    · rw [State.lastRead, State.lastRead, hpc]
      rfl
    · rw [hpc]
      rfl
  case testCnt =>
    obtain rfl := Option.some.inj h
    refine history_congr rfl rfl ?_ ?_
    · by_cases hcnt : g.cnt = 0 <;> simp [State.lastRead, hpc, hr.shm, hcnt]
    · by_cases hcnt : g.cnt = 0 <;> simp [WriterPc.removals, hpc, hcnt]
  case removeSem =>
    rw [hr.sem] at h
    obtain rfl := Option.some.inj h
    simp [history, State.lastRead, WriterPc.removals, hpc, hr.sem, State.readBlocks]

/-- **A step of the reader** adds its event to the history. -/
theorem Running.history_reader (hr : Running input s t eof g read)
    (h : EventFlagXfr.readerStep s = some s') :
    history input s' = history input s ++ (observe s .reader).toList := by
  have hreader := hr.reader
  cases hpc : s.reader <;> rw [hpc] at hreader <;> simp only [Turn.ReaderAt] at hreader
  all_goals
    simp only [EventFlagXfr.readerStep, hpc, hr.readerSem, hr.readerShm, Option.map_some] at h
    simp only [observe, hpc, Option.toList_none, List.append_nil]
  case write =>
    have hcnt : g.cnt ≠ 0 := by
      obtain ⟨rfl, rfl⟩ := hreader
      simpa using hr.cnt (.inr rfl)
    have hbefore := hr.history_eq
    have hr' := hr.write hpc
    obtain ⟨rfl, rfl⟩ := hreader
    obtain rfl := Option.some.inj h
    have hpending : Turn.reader.pending g s.writer s.reader = [g.buf.take g.cnt] := by
      rw [hpc]
      exact block_of_ne hcnt
    have hnone : s.lastRead = false := by
      have hw := hr.writer
      cases hwpc : s.writer <;> rw [hwpc] at hw <;>
        simp_all [State.lastRead, Turn.WriterAt, hr.shm]
    have hpending' : Turn.reader.pending g s.writer .setWrite = [] := rfl
    rw [hr'.history_eq, hbefore, hpending, hpending', hnone]
    change rounds (s.stdout ++ _) ++ [] ++ (if s.lastRead then _ else _) = _
    rw [hnone, rounds_append, hr.shm]
    simp [rounds]
  case waitRead =>
    obtain ⟨-, rfl⟩ := hr.readerWait h
    exact history_congr rfl rfl rfl rfl
  case finished | notFound => cases h
  all_goals
    obtain rfl := Option.some.inj h
    exact history_congr rfl rfl rfl rfl

/-- **Every step** adds its event to the history. -/
theorem Inv.history_step (hs : Inv input s) {l : Label}
    (h : (machine input fresh).step s l = some s') :
    history input s' = history input s ++ (observe s l).toList := by
  obtain hs | ⟨t, eof, g, read, hr⟩ | hs := hs
  · have hquiet : observe s l = none := by
      cases l with
      | writer =>
        obtain ⟨hw, -⟩ | ⟨hw, -⟩ | ⟨f, hw, -⟩ | ⟨hw, -⟩ := hs.writer <;> simp [observe, hw]
      | reader => obtain hr | hr | hr := hs.reader <;> simp [observe, hr]
    rw [hquiet, Option.toList_none, List.append_nil]
    cases l with
    | writer =>
      simp only [machine, EventFlagXfr.writerStep] at h
      obtain ⟨hw, -⟩ | ⟨hw, -⟩ | ⟨f, hw, -⟩ | ⟨hw, -⟩ := hs.writer <;> rw [hw] at h
      · obtain rfl := Option.some.inj h
        refine history_congr rfl rfl ?_ ?_ <;> simp [State.lastRead, WriterPc.removals, hw]
      · obtain rfl | ⟨f, rfl⟩ := writerSem_cases h <;> refine history_congr rfl rfl ?_ ?_ <;>
          simp [State.lastRead, WriterPc.removals, hw]
      · obtain rfl | ⟨f, rfl⟩ := writerSem_cases h <;> refine history_congr rfl rfl ?_ ?_ <;>
          simp [State.lastRead, WriterPc.removals, hw]
      · obtain rfl := Option.some.inj h
        refine history_congr rfl rfl ?_ ?_ <;> simp [State.lastRead, WriterPc.removals, hw]
    | reader =>
      simp only [machine, EventFlagXfr.readerStep] at h
      obtain hr | hr | hr := hs.reader <;> rw [hr] at h
      · obtain rfl := Option.some.inj h
        exact history_congr rfl rfl rfl rfl
      · obtain rfl := Option.some.inj h
        exact history_congr rfl rfl rfl rfl
      · cases h
  · cases l with
    | writer => exact hr.history_writer h
    | reader => exact hr.history_reader h
  · cases l with
    | reader =>
      simp only [machine, EventFlagXfr.readerStep, hs.reader] at h
      cases h
    | writer =>
      simp only [machine, EventFlagXfr.writerStep] at h
      obtain ⟨hw, hshm⟩ | ⟨hw, hshm⟩ | hw := hs.writer <;> rw [hw] at h
      · obtain rfl := Option.some.inj h
        simp [history, State.lastRead, WriterPc.removals, hw, State.readBlocks, observe]
      · obtain ⟨g, hg⟩ := Option.isSome_iff_exists.1 hshm
        simp only [if_pos hshm] at h
        obtain rfl := Option.some.inj h
        simp [history, State.lastRead, WriterPc.removals, hw, State.readBlocks, observe, hg]
      · cases h

theorem history_start : history input (start input) = [] := by
  simp [history, start, transcript, rounds, State.readBlocks, State.lastRead, WriterPc.removals]

/-- What was seen of a run is the history of its last state. -/
theorem traced_eq_history {tr : List Event}
    (h : (machine input fresh).Traced observe (start input) tr s) : tr = history input s := by
  have hinv : Inv input (start input) := inv_start input
  induction h with
  | refl => exact history_start.symm
  | step h hst ih =>
    have hs := inv_reachable (h.reachable .init)
    rw [hs.history_step hst, ih]

/-! ## The history and the alternating sequence -/

/-- At most one block is pending. -/
theorem pending_cases (t : Turn) (g : Shmseg) (w : WriterPc) (r : ReaderPc) :
    t.pending g w r = [] ∨ ∃ b, t.pending g w r = [b] := by
  have hblock : ∀ n buf, blockOf n buf = [] ∨ ∃ b, blockOf n buf = [b] := by
    intro n buf
    unfold blockOf
    split_ifs
    · exact .inl rfl
    · exact .inr ⟨_, rfl⟩
  unfold Turn.pending
  split
  · exact hblock _ _
  · exact hblock _ _
  · exact hblock _ _
  · split
    · exact hblock _ _
    · unfold held
      split
      · exact hblock _ _
      · exact hblock _ _
      · exact .inl rfl
    · exact .inl rfl

/-- Where the writer has read the end of its input. -/
theorem Running.last_cases (hr : Running input s t eof g read) (hlast : s.lastRead = true) :
    eof = true ∨ s.writer = .storeCnt 0 ∨ s.writer = .setRead ∧ g.cnt = 0 := by
  have hw := hr.writer
  cases hpc : s.writer <;> rw [hpc] at hw <;>
    simp_all [State.lastRead, Turn.WriterAt, hr.shm]

/-- Once the end of the input has been read, all that was read has been written. -/
theorem Running.last_pending (hr : Running input s t eof g read) (hlast : s.lastRead = true) :
    s.stdin = [] ∧ t.pending g s.writer s.reader = [] := by
  have hcases := hr.last_cases hlast
  refine ⟨hr.eof hcases, ?_⟩
  have hw := hr.writer
  by_cases ht : t = .writeFlag ∨ t = .writer
  · refine pending_eq_nil hr.reader ht ?_
    obtain rfl | hpc | ⟨hpc, hcnt⟩ := hcases
    · cases hpc : s.writer <;> rw [hpc] at hw <;> simp_all [held, Turn.WriterAt]
    · rw [hpc]
      rfl
    · rw [hpc]
      exact block_of_eq hcnt
  · have ht : t = .readFlag ∨ t = .reader := by cases t <;> simp_all
    have heof : eof = true := by
      obtain h | hpc | ⟨hpc, -⟩ := hcases
      · exact h
      · rw [hpc] at hw
        obtain rfl | rfl := ht <;> cases hw.1
      · rw [hpc] at hw
        obtain rfl | rfl := ht <;> cases hw.1
    have hblock : g.block = [] := block_of_eq ((hr.cnt ht).2 heof)
    unfold Turn.pending
    obtain rfl | rfl := ht <;> split <;> first | exact hblock | rfl

theorem Running.history_initial (hr : Running input s t eof g read) :
    history input s <+: script input := by
  have hinput := hr.input
  rw [hr.stdout] at hinput
  rw [hr.history_eq, script, hinput]
  by_cases hlast : s.lastRead = true
  · obtain ⟨hin, hpending⟩ := hr.last_pending hlast
    rw [if_pos hlast, hin, hpending]
    simp
  · rw [if_neg hlast, List.append_nil, rounds_append, rounds_append]
    obtain hpending | ⟨b, hpending⟩ := pending_cases t g s.writer s.reader
    · rw [hpending]
      simp [rounds]
    · rw [hpending]
      simp [rounds]

/-- The history after the removal of the set. -/
theorem Closed.history_eq (hs : Closed input s) :
    history input s = rounds (input.map Chunk.bytes) ++ [.read []] ++ s.writer.removals := by
  have hdrop : (s.readBlocks input).drop (input.map Chunk.bytes).length = [] := by
    rw [State.readBlocks, List.drop_eq_nil_iff]
    exact List.length_take_le' _ _
  have hlast : s.lastRead = true := by
    obtain ⟨hw, -⟩ | ⟨hw, -⟩ | hw := hs.writer <;> rw [State.lastRead, hw]
  rw [history, transcript, hs.stdout, hdrop, List.map_nil, List.append_nil, if_pos hlast]

/-- What was seen is an initial segment of the alternating sequence. -/
theorem Inv.history_initial (hs : Inv input s) : history input s <+: script input := by
  obtain hs | ⟨t, eof, g, read, hr⟩ | hs := hs
  · have hnil : history input s = [] := by
      obtain ⟨hw, -⟩ | ⟨hw, -⟩ | ⟨f, hw, -⟩ | ⟨hw, -⟩ := hs.writer <;>
        simp [history, hs.stdout, hs.stdin, transcript, rounds, State.readBlocks, State.lastRead,
          WriterPc.removals, hw]
    rw [hnil]
    exact List.nil_prefix
  · exact hr.history_initial
  · rw [hs.history_eq, script]
    obtain ⟨hw, -⟩ | ⟨hw, -⟩ | hw := hs.writer <;> simp [WriterPc.removals, hw]

/-- When both processes have finished, the whole sequence was seen. -/
theorem Inv.history_finished (hs : Inv input s) (hfin : s.Finished) :
    history input s = script input := by
  have hclosed := hs.removed (by rw [hfin.1]; trivial)
  rw [hclosed.history_eq, hfin.1, script, List.append_assoc]
  rfl

/-! ## The traces -/

/-- The reader has found the objects. -/
def ReaderPc.Found : ReaderPc → Prop
  | .semget | .shmget | .shmat | .notFound => False
  | _ => True

/-- A reader that has found the objects does not look for them again. -/
theorem found_step (hfound : s.reader.Found) {l : Label}
    (h : (machine input fresh).step s l = some s') : s'.reader.Found := by
  cases l with
  | writer =>
    obtain ⟨-, hreader, -⟩ := writerStep_left h
    rw [hreader]
    exact hfound
  | reader =>
    simp only [machine, EventFlagXfr.readerStep] at h
    cases hpc : s.reader <;> rw [hpc] at h hfound
    case semget | shmget | shmat | notFound => exact hfound.elim
    case waitRead | clearRead | setLast => obtain rfl | ⟨f, rfl⟩ := readerSem_cases h <;> trivial
    case setWrite =>
      obtain ⟨u, hu, rfl⟩ := Option.map_eq_some_iff.1 h
      obtain rfl | ⟨f, rfl⟩ := readerSem_cases hu <;> trivial
    case finished | failed => cases h
    case shmdt =>
      obtain rfl := Option.some.inj h
      trivial
    case testCnt | addBytes | write =>
      obtain rfl := Option.some.inj h
      unfold State.readerShm
      split
      · trivial
      · dsimp only
        try split
        all_goals trivial

/-- A reader that is started after the writer has created the objects finds them. -/
theorem exists_found (input : List (Chunk BUF_SIZE)) (fresh : SemSet 2) :
    ∃ s, (machine input fresh).run (start input)
      (List.replicate 5 .writer ++ List.replicate 3 .reader) = some s ∧ s.reader.Found :=
  ⟨_, rfl, trivial⟩

/-- A run that ends with a reader that found the objects has shown the whole sequence. -/
theorem script_of_stuck {tr : List Event}
    (h : (machine input fresh).Traced observe (start input) tr s)
    (hstuck : (machine input fresh).Stuck s) (hfound : s.reader ≠ .notFound) :
    tr = script input := by
  have hs : Inv input s := inv_reachable (h.reachable .init)
  have hfin : s.Finished := by
    by_contra hfin
    exact hs.not_stuck hfound hfin hstuck
  rw [traced_eq_history h, hs.history_finished hfin]

/-- Some run shows the whole sequence. -/
theorem exists_script (input : List (Chunk BUF_SIZE)) (fresh : SemSet 2) :
    ∃ s, (machine input fresh).Traced observe (start input) (script input) s ∧
      (machine input fresh).Stuck s ∧ s.reader ≠ .notFound := by
  obtain ⟨s, hrun, hfound⟩ := exists_found input fresh
  obtain ⟨tr, htr⟩ := Traced.of_run observe _ hrun
  have hreach : (machine input fresh).Reachable s := htr.reachable .init
  obtain ⟨tr', t, htr', hstuck, -, hfound'⟩ := exists_stuck (M := machine input fresh) observe
    (I := fun s => (machine input fresh).Reachable s ∧ s.reader.Found) (μ := State.left input)
    (by
      rintro s l s' ⟨hs, hfound⟩ hst
      exact ⟨⟨hs.step trivial hst, found_step hfound hst⟩, step_left (inv_reachable hs) hst⟩)
    ⟨hreach, hfound⟩
  have hne : t.reader ≠ .notFound := by
    intro h
    rw [h] at hfound'
    exact hfound'
  have hall := htr.trans htr'
  rw [script_of_stuck hall hstuck hne] at hall
  exact ⟨t, hall, hstuck, hne⟩

/-- **The traces of the event-flag transfer** are the initial segments of the alternating
sequence. -/
theorem traces_eq (input : List (Chunk BUF_SIZE)) (fresh : SemSet 2) :
    (machine input fresh).traces observe (start input) = {tr | tr <+: script input} := by
  ext tr
  constructor
  · rintro ⟨s, h⟩
    change tr <+: script input
    rw [traced_eq_history h]
    exact (inv_reachable (h.reachable .init)).history_initial
  · intro h
    obtain ⟨s, hs, -⟩ := exists_script input fresh
    exact hs.initial h

/-- **The complete traces** of the runs in which the reader finds the objects. -/
theorem completeTraces_eq (input : List (Chunk BUF_SIZE)) (fresh : SemSet 2) :
    (machine input fresh).completeTraces observe (start input) (fun s => s.reader ≠ .notFound) =
      {script input} := by
  ext tr
  constructor
  · rintro ⟨s, h, hstuck, hfound⟩
    exact script_of_stuck h hstuck hfound
  · rintro rfl
    exact exists_script input fresh

end TlpiLearn.EventFlagXfr
