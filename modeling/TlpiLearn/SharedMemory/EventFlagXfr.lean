import TlpiLearn.Foundations.Machine
import TlpiLearn.SharedMemory.EventFlag
import Mathlib.Tactic

/-!
# Shared-memory transfer with event flags

`48/48_1/svshm_xfr_writer.c` and `svshm_xfr_reader.c`: the writer fills a shared segment with
blocks of its standard input, the reader writes them to its standard output, and two event flags
hand the segment back and forth. A label lets one of the two processes make its next step: one
`semctl`, one `semop`, one access to the segment or one call on the IPC objects. Nothing exists at
the start; the reader ends with an error when `semget`, `shmget` or `shmat` does not find what the
writer creates (`ReaderPc.notFound`).
-/

namespace TlpiLearn.EventFlagXfr

open EventFlag

/-- A flag of the set that gives the writer the segment. -/
def WRITE_SEM : Fin 2 := 0

/-- A flag of the set that gives the reader the segment. -/
def READ_SEM : Fin 2 := 1

/-- What a `read` of `BUF_SIZE` bytes delivers before the end of the file. -/
structure Chunk (BUF_SIZE : ℕ) where
  bytes : List UInt8
  pos : 0 < bytes.length
  le : bytes.length ≤ BUF_SIZE

instance {BUF_SIZE : ℕ} : DecidableEq (Chunk BUF_SIZE) := fun c d =>
  decidable_of_iff (c.bytes = d.bytes)
    ⟨fun h => by cases c; cases d; congr, fun h => congrArg Chunk.bytes h⟩

/-- `struct shmseg`. -/
structure Shmseg where
  cnt : ℕ
  buf : List UInt8
  deriving DecidableEq, Repr

/-- The statement of the writer that comes next. -/
inductive WriterPc
  | semget
  /-- `setEventFlag(semid, WRITE_SEM)`, before the loop. -/
  | initWrite
  /-- `clearEventFlag(semid, READ_SEM)`, before the loop. -/
  | initRead
  | shmget
  | shmat
  | waitWrite
  | clearWrite
  /-- `read` into `shmp->buf`. -/
  | read
  /-- The assignment of its result `n` to `shmp->cnt`. -/
  | storeCnt (n : ℕ)
  | setRead
  /-- `if (shmp->cnt == 0) break;` -/
  | testCnt
  /-- `xfrs++, bytes += shmp->cnt` -/
  | advance
  /-- The wait behind the loop. -/
  | waitLast
  | clearLast
  /-- `semctl(semid, 0, IPC_RMID, dummy)`. -/
  | removeSem
  | shmdt
  /-- `shmctl(shmid, IPC_RMID, 0)`. -/
  | removeShm
  | finished
  /-- `errExit` of a call on an object that is gone. -/
  | failed
  deriving DecidableEq, Repr

/-- The statement of the reader that comes next. -/
inductive ReaderPc
  | semget
  | shmget
  | shmat
  | waitRead
  | clearRead
  /-- `if (shmp->cnt == 0) break;` -/
  | testCnt
  /-- `bytes += shmp->cnt` -/
  | addBytes
  /-- `write(STDOUT_FILENO, shmp->buf, shmp->cnt)`. -/
  | write
  | setWrite
  | shmdt
  /-- `setEventFlag(semid, WRITE_SEM)` behind the loop. -/
  | setLast
  | finished
  /-- `errExit` because the objects do not exist yet. -/
  | notFound
  /-- `errExit` of a call on an object that is gone. -/
  | failed
  deriving DecidableEq, Repr

/-- Both processes, the IPC objects that exist, and the two files. -/
structure State (BUF_SIZE : ℕ) where
  writer : WriterPc
  reader : ReaderPc
  sem : Option (SemSet 2)
  shm : Option Shmseg
  /-- What the writer has not read yet. -/
  stdin : List (Chunk BUF_SIZE)
  /-- The blocks that the reader has written. -/
  stdout : List (List UInt8)
  writerXfrs : ℕ
  writerBytes : ℕ
  readerXfrs : ℕ
  readerBytes : ℕ
  deriving DecidableEq

variable {BUF_SIZE : ℕ}

/-- Nothing exists and nobody has moved. -/
def start (input : List (Chunk BUF_SIZE)) : State BUF_SIZE where
  writer := .semget
  reader := .semget
  sem := none
  shm := none
  stdin := input
  stdout := []
  writerXfrs := 0
  writerBytes := 0
  readerXfrs := 0
  readerBytes := 0

/-- `shmp->buf` after a `read`. -/
def Shmseg.fill (g : Shmseg) (bs : List UInt8) : Shmseg :=
  { g with buf := bs ++ g.buf.drop bs.length }

/-- A `semctl` or `semop` of the writer, which goes on at `pc`. -/
def State.writerSem (s : State BUF_SIZE) (op : SemSet 2 → Option (SemSet 2)) (pc : WriterPc) :
    Option (State BUF_SIZE) :=
  match s.sem with
  | none => some { s with writer := .failed }
  | some f => (op f).map fun f' => { s with sem := some f', writer := pc }

/-- An access of the writer to the segment. -/
def State.writerShm (s : State BUF_SIZE) (act : Shmseg → State BUF_SIZE) : State BUF_SIZE :=
  match s.shm with
  | none => { s with writer := .failed }
  | some g => act g

/-- The writer's next step. `fresh` is what the semaphores of a new set hold. -/
def writerStep (fresh : SemSet 2) (s : State BUF_SIZE) : Option (State BUF_SIZE) :=
  match s.writer with
  | .semget => some { s with writer := .initWrite, sem := some (s.sem.getD fresh) }
  | .initWrite => s.writerSem (fun f => some (setEventFlag f WRITE_SEM)) .initRead
  | .initRead => s.writerSem (fun f => some (clearEventFlag f READ_SEM)) .shmget
  | .shmget =>
    some { s with
      writer := .shmat
      shm := some (s.shm.getD ⟨0, List.replicate BUF_SIZE 0⟩) }
  | .shmat => some (s.writerShm fun _ => { s with writer := .waitWrite })
  | .waitWrite => s.writerSem (waitForEventFlag · WRITE_SEM) .clearWrite
  | .clearWrite => s.writerSem (fun f => some (clearEventFlag f WRITE_SEM)) .read
  | .read =>
    some (s.writerShm fun g =>
      match s.stdin with
      | [] => { s with writer := .storeCnt 0 }
      | c :: stdin =>
        { s with writer := .storeCnt c.bytes.length, shm := some (g.fill c.bytes), stdin })
  | .storeCnt n =>
    some (s.writerShm fun g => { s with writer := .setRead, shm := some { g with cnt := n } })
  | .setRead => s.writerSem (fun f => some (setEventFlag f READ_SEM)) .testCnt
  | .testCnt =>
    some (s.writerShm fun g =>
      { s with writer := if g.cnt = 0 then .waitLast else .advance })
  | .advance =>
    some (s.writerShm fun g =>
      { s with
        writer := .waitWrite
        writerXfrs := s.writerXfrs + 1
        writerBytes := s.writerBytes + g.cnt })
  | .waitLast => s.writerSem (waitForEventFlag · WRITE_SEM) .clearLast
  | .clearLast => s.writerSem (fun f => some (clearEventFlag f WRITE_SEM)) .removeSem
  | .removeSem =>
    some (if s.sem.isSome then { s with writer := .shmdt, sem := none }
      else { s with writer := .failed })
  | .shmdt => some { s with writer := .removeShm }
  | .removeShm =>
    some (if s.shm.isSome then { s with writer := .finished, shm := none }
      else { s with writer := .failed })
  | .finished => none
  | .failed => none

/-- A `semctl` or `semop` of the reader, which goes on at `pc`. -/
def State.readerSem (s : State BUF_SIZE) (op : SemSet 2 → Option (SemSet 2)) (pc : ReaderPc) :
    Option (State BUF_SIZE) :=
  match s.sem with
  | none => some { s with reader := .failed }
  | some f => (op f).map fun f' => { s with sem := some f', reader := pc }

/-- An access of the reader to the segment. -/
def State.readerShm (s : State BUF_SIZE) (act : Shmseg → State BUF_SIZE) : State BUF_SIZE :=
  match s.shm with
  | none => { s with reader := .failed }
  | some g => act g

/-- The reader's next step. -/
def readerStep (s : State BUF_SIZE) : Option (State BUF_SIZE) :=
  match s.reader with
  | .semget => some { s with reader := if s.sem.isSome then .shmget else .notFound }
  | .shmget => some { s with reader := if s.shm.isSome then .shmat else .notFound }
  | .shmat => some { s with reader := if s.shm.isSome then .waitRead else .notFound }
  | .waitRead => s.readerSem (waitForEventFlag · READ_SEM) .clearRead
  | .clearRead => s.readerSem (fun f => some (clearEventFlag f READ_SEM)) .testCnt
  | .testCnt =>
    some (s.readerShm fun g => { s with reader := if g.cnt = 0 then .shmdt else .addBytes })
  | .addBytes =>
    some (s.readerShm fun g =>
      { s with reader := .write, readerBytes := s.readerBytes + g.cnt })
  | .write =>
    some (s.readerShm fun g =>
      { s with reader := .setWrite, stdout := s.stdout ++ [g.buf.take g.cnt] })
  | .setWrite =>
    (s.readerSem (fun f => some (setEventFlag f WRITE_SEM)) .waitRead).map fun s =>
      { s with readerXfrs := s.readerXfrs + 1 }
  | .shmdt => some { s with reader := .setLast }
  | .setLast => s.readerSem (fun f => some (setEventFlag f WRITE_SEM)) .finished
  | .finished => none
  | .notFound => none
  | .failed => none

/-- The process that makes a step. -/
inductive Label
  | writer
  | reader
  deriving DecidableEq, Repr

/-- The two processes on an input. -/
def machine (input : List (Chunk BUF_SIZE)) (fresh : SemSet 2) :
    Machine (State BUF_SIZE) Label where
  init := start input
  step s
    | .writer => writerStep fresh s
    | .reader => readerStep s

end TlpiLearn.EventFlagXfr
