import TlpiLearn.SharedMemory.BinarySemXfr
import Mathlib.Tactic

/-!
# The two shared-memory transfers are interchangeable

A state of the transfer with binary semaphores stands for a state of the transfer with event flags
(`State.toFlags`): a semaphore that is available is a flag that is set. A step is answered by the
same step, except that `reserveSem` is answered by a wait and a clear (`toFlags_step`). Between the
two the flag stays set, because nobody else can clear it. So every trace of the one transfer is a
trace of the other; since the other can only get stuck where this one does, both have the same
traces and the same complete traces (`transfers_interchangeable`).
-/

namespace TlpiLearn.BinarySemXfr

open EventFlag (SemSet setEventFlag clearEventFlag waitForEventFlag)
open EventFlagXfr (Chunk Shmseg Label Turn WRITE_SEM READ_SEM script)
open Machine

/-- The flags that semaphores stand for. -/
def flags (v : SemSet 2) : SemSet 2 := fun i => 1 - v i

/-- The statement of the event-flag writer; it waits where this one reserves. -/
def WriterPc.toFlags : WriterPc → EventFlagXfr.WriterPc
  | .semget => .semget
  | .initWrite => .initWrite
  | .initRead => .initRead
  | .shmget => .shmget
  | .shmat => .shmat
  | .reserveWrite => .waitWrite
  | .read => .read
  | .storeCnt n => .storeCnt n
  | .releaseRead => .setRead
  | .testCnt => .testCnt
  | .advance => .advance
  | .reserveLast => .waitLast
  | .removeSem => .removeSem
  | .shmdt => .shmdt
  | .removeShm => .removeShm
  | .finished => .finished
  | .failed => .failed

/-- The statement of the event-flag reader. -/
def ReaderPc.toFlags : ReaderPc → EventFlagXfr.ReaderPc
  | .semget => .semget
  | .shmget => .shmget
  | .shmat => .shmat
  | .reserveRead => .waitRead
  | .testCnt => .testCnt
  | .addBytes => .addBytes
  | .write => .write
  | .releaseWrite => .setWrite
  | .shmdt => .shmdt
  | .releaseLast => .setLast
  | .finished => .finished
  | .notFound => .notFound
  | .failed => .failed

variable {BUF_SIZE : ℕ}

/-- The state of the event-flag transfer. -/
def State.toFlags (s : State BUF_SIZE) : EventFlagXfr.State BUF_SIZE where
  writer := s.writer.toFlags
  reader := s.reader.toFlags
  sem := s.sem.map flags
  shm := s.shm
  stdin := s.stdin
  stdout := s.stdout
  writerXfrs := s.writerXfrs
  writerBytes := s.writerBytes
  readerXfrs := s.readerXfrs
  readerBytes := s.readerBytes

variable {input : List (Chunk BUF_SIZE)} {fresh v v' : SemSet 2} {s s' : State BUF_SIZE}
  {i : Fin 2} {l : Label}

/-! ## The operations on the set -/

theorem flags_update (v : SemSet 2) (i : Fin 2) (x : ℕ) :
    flags (Function.update v i x) = Function.update (flags v) i (1 - x) := by
  funext j
  by_cases hj : j = i
  · subst hj
    simp [flags]
  · simp [flags, hj]

theorem flags_initSemAvailable (v : SemSet 2) (i : Fin 2) :
    flags (initSemAvailable v i) = setEventFlag (flags v) i :=
  flags_update v i 1

theorem flags_initSemInUse (v : SemSet 2) (i : Fin 2) :
    flags (initSemInUse v i) = clearEventFlag (flags v) i :=
  flags_update v i 0

theorem flags_releaseSem (v : SemSet 2) (i : Fin 2) :
    flags (releaseSem v i) = setEventFlag (flags v) i := by
  rw [releaseSem, flags_update, Nat.sub_eq_zero_of_le (Nat.le_add_left 1 _)]
  rfl

/-- A reservation is a wait and a clear, when the semaphore is binary. -/
theorem flags_reserveSem (hv : v i ≤ 1) (h : reserveSem v i = some v') :
    waitForEventFlag (flags v) i = some (flags v) ∧ flags v' = clearEventFlag (flags v) i := by
  unfold reserveSem at h
  split_ifs at h with hpos
  have hone : v i = 1 := by omega
  obtain rfl := Option.some.inj h
  constructor
  · refine if_pos ?_
    simp [flags, hone]
  · rw [flags_update, hone]
    rfl

/-- Where a reservation blocks, the wait blocks. -/
theorem flags_reserveSem_none (h : reserveSem v i = none) :
    waitForEventFlag (flags v) i = none := by
  unfold reserveSem at h
  split_ifs at h with hpos
  refine if_neg ?_
  have hzero : v i = 0 := by omega
  simp [flags, hzero]

/-! ## A step that is answered by one step -/

theorem writerSem_toFlags {op op' : SemSet 2 → SemSet 2} (hop : ∀ v, flags (op v) = op' (flags v))
    (pc : WriterPc) :
    s.toFlags.writerSem (fun f => some (op' f)) pc.toFlags =
      (s.writerSem (fun v => some (op v)) pc).map State.toFlags := by
  cases hsem : s.sem <;>
    simp [EventFlagXfr.State.writerSem, State.writerSem, State.toFlags, hsem, hop,
      WriterPc.toFlags]

theorem readerSem_toFlags {op op' : SemSet 2 → SemSet 2} (hop : ∀ v, flags (op v) = op' (flags v))
    (pc : ReaderPc) :
    s.toFlags.readerSem (fun f => some (op' f)) pc.toFlags =
      (s.readerSem (fun v => some (op v)) pc).map State.toFlags := by
  cases hsem : s.sem <;>
    simp [EventFlagXfr.State.readerSem, State.readerSem, State.toFlags, hsem, hop,
      ReaderPc.toFlags]

theorem writerShm_toFlags (act : Shmseg → State BUF_SIZE) :
    s.toFlags.writerShm (fun g => (act g).toFlags) = (s.writerShm act).toFlags := by
  cases hshm : s.shm <;>
    simp [EventFlagXfr.State.writerShm, State.writerShm, State.toFlags, hshm, WriterPc.toFlags]

theorem readerShm_toFlags (act : Shmseg → State BUF_SIZE) :
    s.toFlags.readerShm (fun g => (act g).toFlags) = (s.readerShm act).toFlags := by
  cases hshm : s.shm <;>
    simp [EventFlagXfr.State.readerShm, State.readerShm, State.toFlags, hshm, ReaderPc.toFlags]

/-- The writer takes its turn next. -/
def WriterPc.Reserves : WriterPc → Prop
  | .reserveWrite | .reserveLast => True
  | _ => False

/-- The reader takes its turn next. -/
def ReaderPc.Reserves : ReaderPc → Prop
  | .reserveRead => True
  | _ => False

/-- Every other step of the writer is one step of the event-flag writer. -/
theorem writerStep_toFlags (hpc : ¬ s.writer.Reserves) :
    EventFlagXfr.writerStep (flags fresh) s.toFlags = (writerStep fresh s).map State.toFlags := by
  have hwriter : s.toFlags.writer = s.writer.toFlags := rfl
  unfold EventFlagXfr.writerStep writerStep
  rw [hwriter]
  cases h : s.writer <;> rw [h] at hpc
  case reserveWrite | reserveLast => exact absurd trivial hpc
  case semget => cases hsem : s.sem <;> simp [State.toFlags, WriterPc.toFlags, hsem]
  case initWrite => exact writerSem_toFlags (fun v => flags_initSemAvailable v _) .initRead
  case initRead => exact writerSem_toFlags (fun v => flags_initSemInUse v _) .shmget
  case releaseRead => exact writerSem_toFlags (fun v => flags_releaseSem v _) .testCnt
  case shmget | shmdt | finished | failed => rfl
  case shmat => exact congrArg some (writerShm_toFlags fun _ => { s with writer := .reserveWrite })
  case storeCnt n =>
    exact congrArg some (writerShm_toFlags fun g =>
      { s with writer := .releaseRead, shm := some { g with cnt := n } })
  case advance =>
    exact congrArg some (writerShm_toFlags fun g =>
      { s with
        writer := .reserveWrite
        writerXfrs := s.writerXfrs + 1
        writerBytes := s.writerBytes + g.cnt })
  case read =>
    refine congrArg some (Eq.trans ?_ (writerShm_toFlags _))
    congr 1
    funext g
    cases hin : s.stdin <;> simp [State.toFlags, WriterPc.toFlags, hin]
  case testCnt =>
    refine congrArg some (Eq.trans ?_ (writerShm_toFlags _))
    congr 1
    funext g
    by_cases hcnt : g.cnt = 0 <;> simp [State.toFlags, WriterPc.toFlags, hcnt]
  case removeSem => cases hsem : s.sem <;> simp [State.toFlags, WriterPc.toFlags, hsem]
  case removeShm => cases hshm : s.shm <;> simp [State.toFlags, WriterPc.toFlags, hshm]

/-- Every other step of the reader is one step of the event-flag reader. -/
theorem readerStep_toFlags (hpc : ¬ s.reader.Reserves) :
    EventFlagXfr.readerStep s.toFlags = (readerStep s).map State.toFlags := by
  have hreader : s.toFlags.reader = s.reader.toFlags := rfl
  unfold EventFlagXfr.readerStep readerStep
  rw [hreader]
  cases h : s.reader <;> rw [h] at hpc
  case reserveRead => exact absurd trivial hpc
  case semget => cases hsem : s.sem <;> simp [State.toFlags, ReaderPc.toFlags, hsem]
  case shmget | shmat => cases hshm : s.shm <;> simp [State.toFlags, ReaderPc.toFlags, hshm]
  case testCnt =>
    refine congrArg some (Eq.trans ?_ (readerShm_toFlags _))
    congr 1
    funext g
    by_cases hcnt : g.cnt = 0 <;> simp [State.toFlags, ReaderPc.toFlags, hcnt]
  case addBytes =>
    exact congrArg some (readerShm_toFlags fun g =>
      { s with reader := .write, readerBytes := s.readerBytes + g.cnt })
  case write =>
    exact congrArg some (readerShm_toFlags fun g =>
      { s with reader := .releaseWrite, stdout := s.stdout ++ [g.buf.take g.cnt] })
  case releaseWrite =>
    cases hsem : s.sem <;>
      simp [EventFlagXfr.State.readerSem, State.readerSem, State.toFlags, ReaderPc.toFlags, hsem,
        flags_releaseSem]
  case releaseLast => exact readerSem_toFlags (fun v => flags_releaseSem v _) .finished
  case shmdt | finished | notFound | failed => rfl

/-- What is seen is the same. -/
theorem observe_toFlags (s : State BUF_SIZE) (l : Label) :
    EventFlagXfr.observe s.toFlags l = observe s l := by
  cases l with
  | writer =>
    have hwriter : s.toFlags.writer = s.writer.toFlags := rfl
    unfold EventFlagXfr.observe observe
    rw [hwriter]
    cases s.writer
    case removeSem => cases hsem : s.sem <;> simp [State.toFlags, WriterPc.toFlags, hsem]
    all_goals rfl
  | reader =>
    have hreader : s.toFlags.reader = s.reader.toFlags := rfl
    unfold EventFlagXfr.observe observe
    rw [hreader]
    cases s.reader <;> rfl

/-! ## A step that is answered by two steps -/

/-- The semaphores are 0 or 1 once they have been initialised. -/
structure Binary (s : State BUF_SIZE) : Prop where
  write : s.writer ≠ .initWrite → ∀ v, s.sem = some v → v WRITE_SEM ≤ 1
  read : s.writer ≠ .initWrite → s.writer ≠ .initRead → ∀ v, s.sem = some v → v READ_SEM ≤ 1

/-- A reservation of the writer is a wait and a clear of the event-flag writer. -/
theorem reserve_writer (hv : ∀ v, s.sem = some v → v WRITE_SEM ≤ 1)
    (hpc : s.writer.Reserves) (h : writerStep fresh s = some s') :
    EventFlagXfr.writerStep (flags fresh) s.toFlags = some s'.toFlags ∨
      ∃ u, EventFlagXfr.writerStep (flags fresh) s.toFlags = some u ∧
        EventFlagXfr.observe u .writer = none ∧
        EventFlagXfr.writerStep (flags fresh) u = some s'.toFlags := by
  have hwriter : s.toFlags.writer = s.writer.toFlags := rfl
  cases hsem : s.sem with
  | none =>
    refine .inl ?_
    unfold EventFlagXfr.writerStep
    unfold writerStep at h
    rw [hwriter]
    cases hw : s.writer <;> rw [hw] at h hpc
    case reserveWrite | reserveLast =>
      simp only [State.writerSem, hsem] at h
      obtain rfl := Option.some.inj h
      simp [EventFlagXfr.State.writerSem, State.toFlags, WriterPc.toFlags, hsem]
    all_goals exact hpc.elim
  | some v =>
    refine .inr ?_
    unfold writerStep at h
    cases hw : s.writer <;> rw [hw] at h hpc
    case reserveWrite =>
      simp only [State.writerSem, hsem, Option.map_eq_some_iff] at h
      obtain ⟨v', hres, rfl⟩ := h
      obtain ⟨hwait, hclear⟩ := flags_reserveSem (hv v hsem) hres
      refine ⟨{ s.toFlags with writer := .clearWrite }, ?_, rfl, ?_⟩
      · simp [EventFlagXfr.writerStep, EventFlagXfr.State.writerSem, State.toFlags,
          WriterPc.toFlags, hw, hsem, hwait]
      · simp [EventFlagXfr.writerStep, EventFlagXfr.State.writerSem, State.toFlags,
          WriterPc.toFlags, hsem, hclear]
    case reserveLast =>
      simp only [State.writerSem, hsem, Option.map_eq_some_iff] at h
      obtain ⟨v', hres, rfl⟩ := h
      obtain ⟨hwait, hclear⟩ := flags_reserveSem (hv v hsem) hres
      refine ⟨{ s.toFlags with writer := .clearLast }, ?_, rfl, ?_⟩
      · simp [EventFlagXfr.writerStep, EventFlagXfr.State.writerSem, State.toFlags,
          WriterPc.toFlags, hw, hsem, hwait]
      · simp [EventFlagXfr.writerStep, EventFlagXfr.State.writerSem, State.toFlags,
          WriterPc.toFlags, hsem, hclear]
    all_goals exact hpc.elim

/-- A reservation of the reader is a wait and a clear of the event-flag reader. -/
theorem reserve_reader (hv : ∀ v, s.sem = some v → v READ_SEM ≤ 1)
    (hpc : s.reader.Reserves) (h : readerStep s = some s') :
    EventFlagXfr.readerStep s.toFlags = some s'.toFlags ∨
      ∃ u, EventFlagXfr.readerStep s.toFlags = some u ∧
        EventFlagXfr.observe u .reader = none ∧
        EventFlagXfr.readerStep u = some s'.toFlags := by
  unfold readerStep at h
  cases hr : s.reader <;> rw [hr] at h hpc
  case reserveRead =>
    cases hsem : s.sem with
    | none =>
      simp only [State.readerSem, hsem] at h
      obtain rfl := Option.some.inj h
      refine .inl ?_
      simp [EventFlagXfr.readerStep, EventFlagXfr.State.readerSem, State.toFlags,
        ReaderPc.toFlags, hr, hsem]
    | some v =>
      simp only [State.readerSem, hsem, Option.map_eq_some_iff] at h
      obtain ⟨v', hres, rfl⟩ := h
      obtain ⟨hwait, hclear⟩ := flags_reserveSem (hv v hsem) hres
      refine .inr ⟨{ s.toFlags with reader := .clearRead }, ?_, rfl, ?_⟩
      · simp [EventFlagXfr.readerStep, EventFlagXfr.State.readerSem, State.toFlags,
          ReaderPc.toFlags, hr, hsem, hwait]
      · simp [EventFlagXfr.readerStep, EventFlagXfr.State.readerSem, State.toFlags,
          ReaderPc.toFlags, hsem, hclear]
  all_goals exact hpc.elim

/-! ## The semaphores stay binary -/

theorem Binary.keep (hs : Binary s) (hw : s.writer ≠ .initWrite) (hr : s.writer ≠ .initRead)
    (hsem : s'.sem = s.sem) : Binary s' where
  write _ v hv := hs.write hw v (hsem ▸ hv)
  read _ _ v hv := hs.read hw hr v (hsem ▸ hv)

theorem Binary.none (hsem : s.sem = none) : Binary s where
  write _ _ hv := absurd (hsem ▸ hv) nofun
  read _ _ _ hv := absurd (hsem ▸ hv) nofun

/-- A new value that is at most 1 at one semaphore, and the old value at the other. -/
theorem Binary.update (hs : Binary s) (hw : s.writer ≠ .initWrite) (hr : s.writer ≠ .initRead)
    (hv : s.sem = some v) {x : ℕ} (hx : x ≤ 1) (hsem : s'.sem = some (Function.update v i x)) :
    Binary s' := by
  have hle : ∀ j, v j ≤ 1 := by
    intro j
    fin_cases j
    · exact hs.write hw v hv
    · exact hs.read hw hr v hv
  have hle' : ∀ j, Function.update v i x j ≤ 1 := by
    intro j
    by_cases hj : j = i
    · rw [hj, Function.update_self]
      exact hx
    · rw [Function.update_of_ne hj]
      exact hle j
  constructor
  · intro _ u hu
    obtain rfl := Option.some.inj (hsem.symm.trans hu)
    exact hle' _
  · intro _ _ u hu
    obtain rfl := Option.some.inj (hsem.symm.trans hu)
    exact hle' _

/-- Where a process gives its turn, it has it. -/
theorem turn_of_setRead {u : EventFlagXfr.State BUF_SIZE} (hu : EventFlagXfr.Inv input u)
    (hpc : u.writer = .setRead) : u.sem = some Turn.writer.flags := by
  obtain hu | ⟨t, eof, g, read, hr⟩ | hu := hu
  · obtain ⟨hw, -⟩ | ⟨hw, -⟩ | ⟨f, hw, -⟩ | ⟨hw, -⟩ := hu.writer <;> rw [hw] at hpc <;> cases hpc
  · obtain ⟨rfl, -⟩ := hr.writer_at hpc
    exact hr.sem
  · obtain ⟨hw, -⟩ | ⟨hw, -⟩ | hw := hu.writer <;> rw [hw] at hpc <;> cases hpc

theorem turn_of_setWrite {u : EventFlagXfr.State BUF_SIZE} (hu : EventFlagXfr.Inv input u)
    (hpc : u.reader = .setWrite ∨ u.reader = .setLast) : u.sem = some Turn.reader.flags := by
  obtain hu | ⟨t, eof, g, read, hr⟩ | hu := hu
  · obtain h | h | h := hu.reader <;> rw [h] at hpc <;> simp at hpc
  · obtain hpc | hpc := hpc <;> obtain ⟨rfl, -⟩ := hr.reader_at hpc <;> exact hr.sem
  · rw [hu.reader] at hpc
    simp at hpc

/-- A reader past its look-ups finds an initialised set. -/
theorem initialised_of_reader {u : EventFlagXfr.State BUF_SIZE} (hu : EventFlagXfr.Inv input u)
    (hpc : u.reader = .waitRead ∨ u.reader = .setWrite ∨ u.reader = .setLast) :
    u.writer ≠ .initWrite ∧ u.writer ≠ .initRead := by
  obtain hu | ⟨t, eof, g, read, hr⟩ | hu := hu
  · obtain h | h | h := hu.reader <;> rw [h] at hpc <;> simp at hpc
  · constructor
    · intro h
      exact hr.writer_at h
    · intro h
      exact hr.writer_at h
  · rw [hu.reader] at hpc
    simp at hpc

theorem writer_ne_init (hinv : EventFlagXfr.Inv input s.toFlags)
    (hpc : s.reader = .reserveRead ∨ s.reader = .releaseWrite ∨ s.reader = .releaseLast) :
    s.writer ≠ .initWrite ∧ s.writer ≠ .initRead := by
  have hreader : s.toFlags.reader = s.reader.toFlags := rfl
  have hwriter : s.toFlags.writer = s.writer.toFlags := rfl
  have hinit := initialised_of_reader hinv (by
    rw [hreader]
    obtain h | h | h := hpc
    · exact .inl (by rw [h]; rfl)
    · exact .inr (.inl (by rw [h]; rfl))
    · exact .inr (.inr (by rw [h]; rfl)))
  rw [hwriter] at hinit
  constructor
  · intro h
    exact hinit.1 (by rw [h]; rfl)
  · intro h
    exact hinit.2 (by rw [h]; rfl)

/-- A flag that is clear stands for a semaphore that is in use. -/
theorem eq_zero_of_flags (hsem : s.sem = some v) {t : Turn} (ht : s.toFlags.sem = some t.flags)
    (hi : t.flags i = 1) : v i = 0 := by
  have hflags : s.toFlags.sem = some (flags v) := congrArg (Option.map flags) hsem
  have heq := congrFun (Option.some.inj (ht.symm.trans hflags)) i
  rw [hi, flags] at heq
  omega

/-- What an operation of the writer on the set does. -/
theorem writerSem_eq_some {op : SemSet 2 → Option (SemSet 2)} {pc : WriterPc}
    (h : s.writerSem op pc = some s') :
    (s.sem = none ∧ s' = { s with writer := .failed }) ∨
      ∃ v v', s.sem = some v ∧ op v = some v' ∧ s' = { s with sem := some v', writer := pc } := by
  unfold State.writerSem at h
  split at h
  · rename_i hsem
    exact .inl ⟨hsem, (Option.some.inj h).symm⟩
  · rename_i v hsem
    obtain ⟨v', hop, rfl⟩ := Option.map_eq_some_iff.1 h
    exact .inr ⟨v, v', hsem, hop, rfl⟩

/-- What an operation of the reader on the set does. -/
theorem readerSem_eq_some {op : SemSet 2 → Option (SemSet 2)} {pc : ReaderPc}
    (h : s.readerSem op pc = some s') :
    (s.sem = none ∧ s' = { s with reader := .failed }) ∨
      ∃ v v', s.sem = some v ∧ op v = some v' ∧ s' = { s with sem := some v', reader := pc } := by
  unfold State.readerSem at h
  split at h
  · rename_i hsem
    exact .inl ⟨hsem, (Option.some.inj h).symm⟩
  · rename_i v hsem
    obtain ⟨v', hop, rfl⟩ := Option.map_eq_some_iff.1 h
    exact .inr ⟨v, v', hsem, hop, rfl⟩

theorem reserveSem_eq_some (h : reserveSem v i = some v') :
    v' = Function.update v i (v i - 1) := by
  unfold reserveSem at h
  split_ifs at h
  exact (Option.some.inj h).symm

/-- **Every step of the writer** keeps the semaphores binary. -/
theorem Binary.writerStep (hs : Binary s) (hinv : EventFlagXfr.Inv input s.toFlags)
    (h : writerStep fresh s = some s') : Binary s' := by
  unfold BinarySemXfr.writerStep at h
  cases hpc : s.writer <;> rw [hpc] at h
  case semget =>
    obtain rfl := Option.some.inj h
    exact ⟨fun h => absurd rfl h, fun h => absurd rfl h⟩
  case initWrite =>
    obtain ⟨hsem, rfl⟩ | ⟨v, v', hsem, hop, rfl⟩ := writerSem_eq_some h
    · exact .none hsem
    · obtain rfl := Option.some.inj hop
      refine ⟨?_, fun _ h => absurd rfl h⟩
      intro _ u hu
      obtain rfl := Option.some.inj hu
      exact (Function.update_self ..).le
  case initRead =>
    obtain ⟨hsem, rfl⟩ | ⟨v, v', hsem, hop, rfl⟩ := writerSem_eq_some h
    · exact .none hsem
    · obtain rfl := Option.some.inj hop
      constructor
      · intro _ u hu
        obtain rfl := Option.some.inj hu
        exact hs.write (by rw [hpc]; nofun) v hsem
      · intro _ _ u hu
        obtain rfl := Option.some.inj hu
        exact Nat.zero_le 1
  case finished | failed => cases h
  all_goals
    have hw : s.writer ≠ .initWrite := by rw [hpc]; nofun
    have hr : s.writer ≠ .initRead := by rw [hpc]; nofun
  case reserveWrite | reserveLast =>
    obtain ⟨hsem, rfl⟩ | ⟨v, v', hsem, hop, rfl⟩ := writerSem_eq_some h
    · exact .none hsem
    · obtain rfl := reserveSem_eq_some hop
      have hone := hs.write hw v hsem
      exact hs.update hw hr hsem ((Nat.sub_le ..).trans hone) rfl
  case releaseRead =>
    obtain ⟨hsem, rfl⟩ | ⟨v, v', hsem, hop, rfl⟩ := writerSem_eq_some h
    · exact .none hsem
    · obtain rfl := Option.some.inj hop
      have hturn := turn_of_setRead hinv (congrArg WriterPc.toFlags hpc)
      have hzero : v READ_SEM = 0 := eq_zero_of_flags hsem hturn rfl
      exact hs.update hw hr hsem (by rw [hzero]) rfl
  case shmget | shmdt =>
    obtain rfl := Option.some.inj h
    exact hs.keep hw hr rfl
  case shmat | read | storeCnt | testCnt | advance =>
    obtain rfl := Option.some.inj h
    refine hs.keep hw hr ?_
    unfold State.writerShm
    split
    · rfl
    · first | rfl | (split <;> rfl)
  case removeSem =>
    obtain rfl := Option.some.inj h
    split
    · exact .none rfl
    · exact hs.keep hw hr rfl
  case removeShm =>
    obtain rfl := Option.some.inj h
    split <;> exact hs.keep hw hr rfl

/-- **Every step of the reader** keeps the semaphores binary. -/
theorem Binary.readerStep (hs : Binary s) (hinv : EventFlagXfr.Inv input s.toFlags)
    (h : readerStep s = some s') : Binary s' := by
  have hkeep : s'.sem = s.sem → s'.writer = s.writer → Binary s' := by
    intro hsem hwriter
    constructor
    · intro hw v hv
      exact hs.write (hwriter ▸ hw) v (hsem ▸ hv)
    · intro hw hr v hv
      exact hs.read (hwriter ▸ hw) (hwriter ▸ hr) v (hsem ▸ hv)
  have hrelease : ∀ pc u, (s.reader = .releaseWrite ∨ s.reader = .releaseLast) →
      s.readerSem (fun v => some (releaseSem v WRITE_SEM)) pc = some u → Binary u := by
    intro pc u hpc hu
    obtain ⟨hw, hr⟩ := writer_ne_init hinv (.inr hpc)
    obtain ⟨hsem, rfl⟩ | ⟨v, v', hsem, hop, rfl⟩ := readerSem_eq_some hu
    · exact .none hsem
    · obtain rfl := Option.some.inj hop
      have hturn := turn_of_setWrite hinv
        (hpc.imp (congrArg ReaderPc.toFlags) (congrArg ReaderPc.toFlags))
      have hzero : v WRITE_SEM = 0 := eq_zero_of_flags hsem hturn rfl
      exact hs.update hw hr hsem (by rw [hzero]) rfl
  unfold BinarySemXfr.readerStep at h
  cases hpc : s.reader <;> rw [hpc] at h
  case reserveRead =>
    obtain ⟨hw, hr⟩ := writer_ne_init hinv (.inl hpc)
    obtain ⟨hsem, rfl⟩ | ⟨v, v', hsem, hop, rfl⟩ := readerSem_eq_some h
    · exact .none hsem
    · obtain rfl := reserveSem_eq_some hop
      have hone := hs.read hw hr v hsem
      exact hs.update hw hr hsem ((Nat.sub_le ..).trans hone) rfl
  case releaseWrite =>
    obtain ⟨u, hu, rfl⟩ := Option.map_eq_some_iff.1 h
    have hbinary := hrelease _ _ (.inl hpc) hu
    exact ⟨hbinary.write, hbinary.read⟩
  case releaseLast => exact hrelease _ _ (.inr hpc) h
  case semget | shmget | shmat | shmdt =>
    obtain rfl := Option.some.inj h
    exact hkeep rfl rfl
  case testCnt | addBytes | write =>
    obtain rfl := Option.some.inj h
    unfold State.readerShm at hkeep ⊢
    cases hshm : s.shm <;> rw [hshm] at hkeep <;> exact hkeep rfl rfl
  case finished | notFound | failed => cases h

/-! ## The simulation -/

/-- The state is one of a run that the event-flag transfer has followed. -/
structure Followed (input : List (Chunk BUF_SIZE)) (fresh : SemSet 2) (s : State BUF_SIZE) :
    Prop where
  reachable : (EventFlagXfr.machine input (flags fresh)).Reachable s.toFlags
  binary : Binary s

theorem Followed.inv (hs : Followed input fresh s) : EventFlagXfr.Inv input s.toFlags :=
  EventFlagXfr.inv_reachable hs.reachable

theorem followed_start : Followed input fresh (start input) :=
  ⟨.init, .none rfl⟩

/-- **A step** is answered by one step, or by two of which the second shows nothing. -/
theorem Followed.toFlags_step (hs : Followed input fresh s)
    (h : (machine input fresh).step s l = some s') :
    ∃ u, (EventFlagXfr.machine input (flags fresh)).step s.toFlags l = some u ∧
      (u = s'.toFlags ∨ EventFlagXfr.observe u l = none ∧
        (EventFlagXfr.machine input (flags fresh)).step u l = some s'.toFlags) := by
  cases l with
  | writer =>
    by_cases hpc : s.writer.Reserves
    · have hw : s.writer ≠ .initWrite := by
        intro hw
        rw [hw] at hpc
        exact hpc
      obtain hone | ⟨u, hu, hobs, htwo⟩ := reserve_writer (hs.binary.write hw) hpc h
      · exact ⟨_, hone, .inl rfl⟩
      · exact ⟨u, hu, .inr ⟨hobs, htwo⟩⟩
    · refine ⟨_, ?_, .inl rfl⟩
      have hstep : writerStep fresh s = some s' := h
      change EventFlagXfr.writerStep (flags fresh) s.toFlags = _
      rw [writerStep_toFlags hpc, hstep, Option.map_some]
  | reader =>
    by_cases hpc : s.reader.Reserves
    · have hreserve : s.reader = .reserveRead := by
        cases hr : s.reader <;> rw [hr] at hpc <;> first | rfl | exact hpc.elim
      obtain ⟨hw, hr⟩ := writer_ne_init hs.inv (.inl hreserve)
      obtain hone | ⟨u, hu, hobs, htwo⟩ := reserve_reader (hs.binary.read hw hr) hpc h
      · exact ⟨_, hone, .inl rfl⟩
      · exact ⟨u, hu, .inr ⟨hobs, htwo⟩⟩
    · refine ⟨_, ?_, .inl rfl⟩
      have hstep : readerStep s = some s' := h
      change EventFlagXfr.readerStep s.toFlags = _
      rw [readerStep_toFlags hpc, hstep, Option.map_some]

/-- The answer shows what the step shows. -/
theorem Followed.traced (hs : Followed input fresh s)
    (h : (machine input fresh).step s l = some s') :
    (EventFlagXfr.machine input (flags fresh)).Traced EventFlagXfr.observe s.toFlags
      (observe s l).toList s'.toFlags := by
  obtain ⟨u, hu, rfl | ⟨hobs, htwo⟩⟩ := hs.toFlags_step h
  · rw [← observe_toFlags]
    exact .single hu
  · have hrun : (EventFlagXfr.machine input (flags fresh)).Traced EventFlagXfr.observe s.toFlags
        ((EventFlagXfr.observe s.toFlags l).toList ++ (EventFlagXfr.observe u l).toList)
        s'.toFlags :=
      (Traced.single hu).step htwo
    rw [hobs, observe_toFlags, Option.toList_none, List.append_nil] at hrun
    exact hrun

theorem Followed.step (hs : Followed input fresh s)
    (h : (machine input fresh).step s l = some s') : Followed input fresh s' := by
  refine ⟨(hs.traced h).reachable hs.reachable, ?_⟩
  cases l with
  | writer => exact hs.binary.writerStep hs.inv h
  | reader => exact hs.binary.readerStep hs.inv h

/-- The answer lowers the measure of the event-flag transfer. -/
theorem Followed.left (hs : Followed input fresh s)
    (h : (machine input fresh).step s l = some s') :
    s'.toFlags.left input < s.toFlags.left input := by
  obtain ⟨u, hu, rfl | ⟨-, htwo⟩⟩ := hs.toFlags_step h
  · exact EventFlagXfr.step_left hs.inv hu
  · have hfirst := EventFlagXfr.step_left hs.inv hu
    have hreach := hs.reachable.step trivial hu
    exact (EventFlagXfr.step_left (EventFlagXfr.inv_reachable hreach) htwo).trans hfirst

theorem Followed.found (hs : Followed input fresh s) (hfound : s.toFlags.reader.Found)
    (h : (machine input fresh).step s l = some s') : s'.toFlags.reader.Found := by
  obtain ⟨u, hu, rfl | ⟨-, htwo⟩⟩ := hs.toFlags_step h
  · exact EventFlagXfr.found_step hfound hu
  · exact EventFlagXfr.found_step (EventFlagXfr.found_step hfound hu) htwo

/-- Where this transfer is stuck, the event-flag transfer is stuck. -/
theorem stuck_toFlags (h : (machine input fresh).Stuck s) :
    (EventFlagXfr.machine input (flags fresh)).Stuck s.toFlags := by
  have hwriter : writerStep fresh s = none := h .writer
  have hreader : readerStep s = none := h .reader
  intro l
  cases l with
  | writer =>
    by_cases hpc : s.writer.Reserves
    · have hw : s.toFlags.writer = s.writer.toFlags := rfl
      change EventFlagXfr.writerStep (flags fresh) s.toFlags = none
      unfold writerStep at hwriter
      unfold EventFlagXfr.writerStep
      rw [hw]
      cases hw : s.writer <;> rw [hw] at hpc hwriter
      case reserveWrite | reserveLast =>
        cases hsem : s.sem with
        | none => simp [State.writerSem, hsem] at hwriter
        | some v =>
          simp only [State.writerSem, hsem, Option.map_eq_none_iff] at hwriter
          simp [EventFlagXfr.State.writerSem, State.toFlags, WriterPc.toFlags, hsem,
            flags_reserveSem_none hwriter]
      all_goals exact hpc.elim
    · change EventFlagXfr.writerStep (flags fresh) s.toFlags = none
      rw [writerStep_toFlags hpc, hwriter, Option.map_none]
  | reader =>
    by_cases hpc : s.reader.Reserves
    · have hr : s.toFlags.reader = s.reader.toFlags := rfl
      change EventFlagXfr.readerStep s.toFlags = none
      unfold readerStep at hreader
      unfold EventFlagXfr.readerStep
      rw [hr]
      cases hr : s.reader <;> rw [hr] at hpc hreader
      case reserveRead =>
        cases hsem : s.sem with
        | none => simp [State.readerSem, hsem] at hreader
        | some v =>
          simp only [State.readerSem, hsem, Option.map_eq_none_iff] at hreader
          simp [EventFlagXfr.State.readerSem, State.toFlags, ReaderPc.toFlags, hsem,
            flags_reserveSem_none hreader]
      all_goals exact hpc.elim
    · change EventFlagXfr.readerStep s.toFlags = none
      rw [readerStep_toFlags hpc, hreader, Option.map_none]

/-! ## The traces -/

/-- **Every trace** of this transfer is one of the event-flag transfer. -/
theorem Traced.toFlags {tr : List EventFlagXfr.Event}
    (h : (machine input fresh).Traced observe (start input) tr s) :
    Followed input fresh s ∧
      (EventFlagXfr.machine input (flags fresh)).Traced EventFlagXfr.observe
        (EventFlagXfr.start input) tr s.toFlags :=
  h.simulate (f := State.toFlags) (I := Followed input fresh)
    (fun _ _ _ hs hst => ⟨hs.step hst, hs.traced hst⟩) followed_start

/-- A run that ends with a reader that found the objects has shown the whole sequence. -/
theorem script_of_stuck {tr : List EventFlagXfr.Event}
    (h : (machine input fresh).Traced observe (start input) tr s)
    (hstuck : (machine input fresh).Stuck s) (hfound : s.reader ≠ .notFound) :
    tr = script input := by
  obtain ⟨-, htr⟩ := Traced.toFlags h
  refine EventFlagXfr.script_of_stuck htr (stuck_toFlags hstuck) ?_
  intro hne
  change s.reader.toFlags = _ at hne
  cases hr : s.reader <;> rw [hr] at hne hfound <;> first | exact hfound rfl | cases hne

/-- A reader that is started after the writer has created the objects finds them. -/
theorem exists_found (input : List (Chunk BUF_SIZE)) (fresh : SemSet 2) :
    ∃ s, (machine input fresh).run (start input)
      (List.replicate 5 .writer ++ List.replicate 3 .reader) = some s ∧
        s.toFlags.reader.Found := by
  refine ⟨_, rfl, ?_⟩
  trivial

/-- Some run shows the whole sequence. -/
theorem exists_script (input : List (Chunk BUF_SIZE)) (fresh : SemSet 2) :
    ∃ s, (machine input fresh).Traced observe (start input) (script input) s ∧
      (machine input fresh).Stuck s ∧ s.reader ≠ .notFound := by
  obtain ⟨s, hrun, hfound⟩ := exists_found input fresh
  obtain ⟨tr, htr⟩ := Machine.Traced.of_run observe _ hrun
  obtain ⟨tr', t, htr', hstuck, -, hfound'⟩ := exists_stuck (M := machine input fresh) observe
    (I := fun s => Followed input fresh s ∧ s.toFlags.reader.Found)
    (μ := fun s => s.toFlags.left input)
    (by
      rintro s l s' ⟨hs, hfound⟩ hst
      exact ⟨⟨hs.step hst, hs.found hfound hst⟩, hs.left hst⟩)
    ⟨(Traced.toFlags htr).1, hfound⟩
  have hne : t.reader ≠ .notFound := by
    intro h
    change t.reader.toFlags.Found at hfound'
    rw [h] at hfound'
    exact hfound'
  have hall := htr.trans htr'
  rw [script_of_stuck hall hstuck hne] at hall
  exact ⟨t, hall, hstuck, hne⟩

/-- A run has at most `24 + 13 n` steps on an input of `n` chunks. -/
theorem run_length_le (ls : List Label) (h : (machine input fresh).run (start input) ls = some s) :
    ls.length ≤ 24 + 13 * input.length := by
  have hfollowed : ∀ s, (machine input fresh).Reachable s → Followed input fresh s :=
    fun s hs => hs.invariant followed_start fun _ _ _ hs _ hst => hs.step hst
  have hle := Machine.Reachable.length_le (M := machine input fresh)
    (μ := fun s => s.toFlags.left input) (fun s l s' hs hst => (hfollowed s hs).left hst) .init ls h
  have hstart : ((machine input fresh).init).toFlags.left input = 24 + 13 * input.length :=
    EventFlagXfr.left_start input
  omega

/-- **The two transfers are interchangeable**, whatever the semaphores of new sets hold: from the
start of the four programs, both pairs have the same traces, the initial segments of the alternating
sequence; the runs that cannot go on, with a reader that found the objects, have shown the whole
sequence; and no run goes on for ever. -/
theorem transfers_interchangeable (input : List (Chunk BUF_SIZE)) (fresh fresh' : SemSet 2) :
    (machine input fresh).traces observe (start input) =
        (EventFlagXfr.machine input fresh').traces EventFlagXfr.observe
          (EventFlagXfr.start input) ∧
      (machine input fresh).traces observe (start input) = {tr | tr <+: script input} ∧
      (machine input fresh).completeTraces observe (start input)
          (fun s => s.reader ≠ .notFound) = {script input} ∧
      (EventFlagXfr.machine input fresh').completeTraces EventFlagXfr.observe
          (EventFlagXfr.start input) (fun s => s.reader ≠ .notFound) = {script input} ∧
      (∀ ls s, (machine input fresh).run (start input) ls = some s →
        ls.length ≤ 24 + 13 * input.length) ∧
      ∀ ls s, (EventFlagXfr.machine input fresh').run (EventFlagXfr.start input) ls = some s →
        ls.length ≤ 24 + 13 * input.length := by
  have htraces : (machine input fresh).traces observe (start input) =
      {tr | tr <+: script input} := by
    ext tr
    constructor
    · rintro ⟨s, h⟩
      have hflags : tr ∈ (EventFlagXfr.machine input (flags fresh)).traces EventFlagXfr.observe
          (EventFlagXfr.start input) := ⟨_, (Traced.toFlags h).2⟩
      rw [EventFlagXfr.traces_eq] at hflags
      exact hflags
    · intro h
      obtain ⟨s, hs, -⟩ := exists_script input fresh
      exact hs.initial h
  refine ⟨?_, htraces, ?_, EventFlagXfr.completeTraces_eq input fresh',
    fun ls s h => run_length_le ls h, fun ls s h => EventFlagXfr.run_length_le ls h⟩
  · rw [htraces, EventFlagXfr.traces_eq]
  · ext tr
    constructor
    · rintro ⟨s, h, hstuck, hfound⟩
      exact script_of_stuck h hstuck hfound
    · rintro rfl
      exact exists_script input fresh

end TlpiLearn.BinarySemXfr
