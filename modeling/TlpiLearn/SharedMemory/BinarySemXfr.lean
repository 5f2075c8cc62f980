import TlpiLearn.SharedMemory.EventFlagXfrTraces
import Mathlib.Tactic

/-!
# Shared-memory transfer with binary semaphores

`48/48_3/svshm_xfr_writer.c` and `svshm_xfr_reader.c`: the same transfer as with event flags, but a
process takes its turn by `reserveSem`, one atomic decrement that blocks at 0, and gives it by
`releaseSem`, an increment. The functions are those of `svsem/binary_sems.c`; a signal does not end
`reserveSem`, which tries again.
-/

namespace TlpiLearn.BinarySemXfr

open EventFlag (SemSet)
open EventFlagXfr (Chunk Shmseg WRITE_SEM READ_SEM)

/-- `initSemAvailable`: `semctl(semId, semNum, SETVAL, 1)`. -/
def initSemAvailable (semId : SemSet 2) (semNum : Fin 2) : SemSet 2 :=
  Function.update semId semNum 1

/-- `initSemInUse`: `semctl(semId, semNum, SETVAL, 0)`. -/
def initSemInUse (semId : SemSet 2) (semNum : Fin 2) : SemSet 2 := Function.update semId semNum 0

/-- `reserveSem`: a `semop` with `sem_op = -1`, or `none` while it blocks. -/
def reserveSem (semId : SemSet 2) (semNum : Fin 2) : Option (SemSet 2) :=
  if 0 < semId semNum then some (Function.update semId semNum (semId semNum - 1)) else none

/-- `releaseSem`: a `semop` with `sem_op = 1`. -/
def releaseSem (semId : SemSet 2) (semNum : Fin 2) : SemSet 2 :=
  Function.update semId semNum (semId semNum + 1)

/-- The statement of the writer that comes next. -/
inductive WriterPc
  | semget
  /-- `initSemAvailable(semid, WRITE_SEM)`. -/
  | initWrite
  /-- `initSemInUse(semid, READ_SEM)`. -/
  | initRead
  | shmget
  | shmat
  /-- `reserveSem(semid, WRITE_SEM)`. -/
  | reserveWrite
  /-- `read` into `shmp->buf`. -/
  | read
  /-- The assignment of its result `n` to `shmp->cnt`. -/
  | storeCnt (n : ℕ)
  /-- `releaseSem(semid, READ_SEM)`. -/
  | releaseRead
  /-- `if (shmp->cnt == 0) break;` -/
  | testCnt
  /-- `xfrs++, bytes += shmp->cnt` -/
  | advance
  /-- The `reserveSem` behind the loop. -/
  | reserveLast
  /-- `semctl(semid, 0, IPC_RMID, dummy)`. -/
  | removeSem
  | shmdt
  /-- `shmctl(shmid, IPC_RMID, 0)`. -/
  | removeShm
  | finished
  /-- `errExit` of a call on an object that is gone. -/
  | failed
  deriving DecidableEq, Repr

/-- The statement of the reader that comes next. -/
inductive ReaderPc
  | semget
  | shmget
  | shmat
  /-- `reserveSem(semid, READ_SEM)`. -/
  | reserveRead
  /-- `if (shmp->cnt == 0) break;` -/
  | testCnt
  /-- `bytes += shmp->cnt` -/
  | addBytes
  /-- `write(STDOUT_FILENO, shmp->buf, shmp->cnt)`. -/
  | write
  /-- `releaseSem(semid, WRITE_SEM)`. -/
  | releaseWrite
  | shmdt
  /-- The `releaseSem` behind the loop. -/
  | releaseLast
  | finished
  /-- `errExit` because the objects do not exist yet. -/
  | notFound
  /-- `errExit` of a call on an object that is gone. -/
  | failed
  deriving DecidableEq, Repr

/-- Both processes, the IPC objects that exist, and the two files. -/
structure State (BUF_SIZE : ℕ) where
  writer : WriterPc
  reader : ReaderPc
  sem : Option (SemSet 2)
  shm : Option Shmseg
  /-- What the writer has not read yet. -/
  stdin : List (Chunk BUF_SIZE)
  /-- The blocks that the reader has written. -/
  stdout : List (List UInt8)
  writerXfrs : ℕ
  writerBytes : ℕ
  readerXfrs : ℕ
  readerBytes : ℕ
  deriving DecidableEq

variable {BUF_SIZE : ℕ}

/-- Nothing exists and nobody has moved. -/
def start (input : List (Chunk BUF_SIZE)) : State BUF_SIZE where
  writer := .semget
  reader := .semget
  sem := none
  shm := none
  stdin := input
  stdout := []
  writerXfrs := 0
  writerBytes := 0
  readerXfrs := 0
  readerBytes := 0

/-- A `semctl` or `semop` of the writer, which goes on at `pc`. -/
def State.writerSem (s : State BUF_SIZE) (op : SemSet 2 → Option (SemSet 2)) (pc : WriterPc) :
    Option (State BUF_SIZE) :=
  match s.sem with
  | none => some { s with writer := .failed }
  | some v => (op v).map fun v' => { s with sem := some v', writer := pc }

/-- An access of the writer to the segment. -/
def State.writerShm (s : State BUF_SIZE) (act : Shmseg → State BUF_SIZE) : State BUF_SIZE :=
  match s.shm with
  | none => { s with writer := .failed }
  | some g => act g

/-- The writer's next step. `fresh` is what the semaphores of a new set hold. -/
def writerStep (fresh : SemSet 2) (s : State BUF_SIZE) : Option (State BUF_SIZE) :=
  match s.writer with
  | .semget => some { s with writer := .initWrite, sem := some (s.sem.getD fresh) }
  | .initWrite => s.writerSem (fun v => some (initSemAvailable v WRITE_SEM)) .initRead
  | .initRead => s.writerSem (fun v => some (initSemInUse v READ_SEM)) .shmget
  | .shmget =>
    some { s with
      writer := .shmat
      shm := some (s.shm.getD ⟨0, List.replicate BUF_SIZE 0⟩) }
  | .shmat => some (s.writerShm fun _ => { s with writer := .reserveWrite })
  | .reserveWrite => s.writerSem (reserveSem · WRITE_SEM) .read
  | .read =>
    some (s.writerShm fun g =>
      match s.stdin with
      | [] => { s with writer := .storeCnt 0 }
      | c :: stdin =>
        { s with writer := .storeCnt c.bytes.length, shm := some (g.fill c.bytes), stdin })
  | .storeCnt n =>
    some (s.writerShm fun g => { s with writer := .releaseRead, shm := some { g with cnt := n } })
  | .releaseRead => s.writerSem (fun v => some (releaseSem v READ_SEM)) .testCnt
  | .testCnt =>
    some (s.writerShm fun g =>
      { s with writer := if g.cnt = 0 then .reserveLast else .advance })
  | .advance =>
    some (s.writerShm fun g =>
      { s with
        writer := .reserveWrite
        writerXfrs := s.writerXfrs + 1
        writerBytes := s.writerBytes + g.cnt })
  | .reserveLast => s.writerSem (reserveSem · WRITE_SEM) .removeSem
  | .removeSem =>
    some (if s.sem.isSome then { s with writer := .shmdt, sem := none }
      else { s with writer := .failed })
  | .shmdt => some { s with writer := .removeShm }
  | .removeShm =>
    some (if s.shm.isSome then { s with writer := .finished, shm := none }
      else { s with writer := .failed })
  | .finished => none
  | .failed => none

/-- A `semctl` or `semop` of the reader, which goes on at `pc`. -/
def State.readerSem (s : State BUF_SIZE) (op : SemSet 2 → Option (SemSet 2)) (pc : ReaderPc) :
    Option (State BUF_SIZE) :=
  match s.sem with
  | none => some { s with reader := .failed }
  | some v => (op v).map fun v' => { s with sem := some v', reader := pc }

/-- An access of the reader to the segment. -/
def State.readerShm (s : State BUF_SIZE) (act : Shmseg → State BUF_SIZE) : State BUF_SIZE :=
  match s.shm with
  | none => { s with reader := .failed }
  | some g => act g

/-- The reader's next step. -/
def readerStep (s : State BUF_SIZE) : Option (State BUF_SIZE) :=
  match s.reader with
  | .semget => some { s with reader := if s.sem.isSome then .shmget else .notFound }
  | .shmget => some { s with reader := if s.shm.isSome then .shmat else .notFound }
  | .shmat => some { s with reader := if s.shm.isSome then .reserveRead else .notFound }
  | .reserveRead => s.readerSem (reserveSem · READ_SEM) .testCnt
  | .testCnt =>
    some (s.readerShm fun g => { s with reader := if g.cnt = 0 then .shmdt else .addBytes })
  | .addBytes =>
    some (s.readerShm fun g =>
      { s with reader := .write, readerBytes := s.readerBytes + g.cnt })
  | .write =>
    some (s.readerShm fun g =>
      { s with reader := .releaseWrite, stdout := s.stdout ++ [g.buf.take g.cnt] })
  | .releaseWrite =>
    (s.readerSem (fun v => some (releaseSem v WRITE_SEM)) .reserveRead).map fun s =>
      { s with readerXfrs := s.readerXfrs + 1 }
  | .shmdt => some { s with reader := .releaseLast }
  | .releaseLast => s.readerSem (fun v => some (releaseSem v WRITE_SEM)) .finished
  | .finished => none
  | .notFound => none
  | .failed => none

/-- The two processes on an input. -/
def machine (input : List (Chunk BUF_SIZE)) (fresh : SemSet 2) :
    Machine (State BUF_SIZE) EventFlagXfr.Label where
  init := start input
  step s
    | .writer => writerStep fresh s
    | .reader => readerStep s

/-- What is seen of the next step of a process. -/
def observe (s : State BUF_SIZE) : EventFlagXfr.Label → Option EventFlagXfr.Event
  | .writer =>
    match s.writer with
    | .read => s.shm.map fun _ => .read (match s.stdin with | [] => [] | c :: _ => c.bytes)
    | .removeSem => s.sem.map fun _ => .removeSem
    | .removeShm => s.shm.map fun _ => .removeShm
    | _ => none
  | .reader =>
    match s.reader with
    | .write => s.shm.map fun g => .write (g.buf.take g.cnt)
    | _ => none

end TlpiLearn.BinarySemXfr
