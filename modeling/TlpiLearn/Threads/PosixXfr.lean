import TlpiLearn.SharedMemory.EventFlagXfr
import Mathlib.Tactic

/-!
# A transfer between two threads with POSIX semaphores

`53/53_1/posix_thread_xfr.c`: `write_func` fills a global buffer with blocks of the standard input,
`read_func` writes them to the standard output. `write_sem` starts at 1 and `read_sem` at 0. At the
end of the input the reader does not post `write_sem`; it waits for `read_sem` once more, until the
writer posts it a second time. A label lets one of the two threads make its next step: a `sem_wait`
or `sem_post`, one access to the buffer or to `num`, or the report.
-/

namespace TlpiLearn.PosixXfr

open EventFlagXfr (Chunk)

/-- The statement of `write_func` that comes next. -/
inductive WriterPc
  | wait
  /-- `read` into `buffer`. -/
  | read
  /-- The assignment of its result `n` to `num`. -/
  | storeNum (n : ℕ)
  | post
  /-- `if (num == 0) break;` -/
  | testNum
  /-- `xfrs++, bytes += num` -/
  | advance
  /-- `printf("write %d bytes(%d)", bytes, xfrs)`. -/
  | report
  /-- `sem_post(read_sem)` behind the loop. -/
  | postLast
  | finished
  deriving DecidableEq, Repr

/-- The statement of `read_func` that comes next. -/
inductive ReaderPc
  | wait
  /-- `if (num == 0) break;` -/
  | testNum
  /-- `bytes += num` -/
  | addBytes
  /-- `write(STDOUT_FILENO, buffer, num)`. -/
  | write
  /-- The comparison of its result `n` with `num`. -/
  | checkNum (n : ℕ)
  | post
  /-- `sem_wait(read_sem)` behind the loop. -/
  | waitLast
  /-- `printf("read %d bytes(%d)", bytes, xfrs)`. -/
  | report
  | finished
  /-- `errExit("write")`. -/
  | failed
  deriving DecidableEq, Repr

/-- The locals `xfrs` and `bytes` of a thread. -/
structure Counts where
  xfrs : ℕ
  bytes : ℕ
  deriving DecidableEq, Repr

/-- Both threads, the globals, the two files, and what the threads have reported. -/
structure State (BUFFER_SIZE : ℕ) where
  writer : WriterPc
  reader : ReaderPc
  buffer : List UInt8
  num : ℕ
  write_sem : ℕ
  read_sem : ℕ
  /-- What the writer has not read yet. -/
  stdin : List (Chunk BUFFER_SIZE)
  /-- The bytes that the reader has written. -/
  stdout : List UInt8
  writerCounts : Counts
  readerCounts : Counts
  writerReport : Option Counts
  readerReport : Option Counts
  deriving DecidableEq

variable {BUFFER_SIZE : ℕ}

/-- `main` has opened the semaphores and created the threads. -/
def start (input : List (Chunk BUFFER_SIZE)) : State BUFFER_SIZE where
  writer := .wait
  reader := .wait
  buffer := List.replicate BUFFER_SIZE 0
  num := 0
  write_sem := 1
  read_sem := 0
  stdin := input
  stdout := []
  writerCounts := ⟨0, 0⟩
  readerCounts := ⟨0, 0⟩
  writerReport := none
  readerReport := none

/-- `sem_wait`, or `none` while it blocks. -/
def sem_wait (sem : ℕ) : Option ℕ := if 0 < sem then some (sem - 1) else none

/-- `sem_post`. -/
def sem_post (sem : ℕ) : ℕ := sem + 1

/-- The next step of `write_func`. -/
def writerStep (s : State BUFFER_SIZE) : Option (State BUFFER_SIZE) :=
  match s.writer with
  | .wait => (sem_wait s.write_sem).map fun sem => { s with writer := .read, write_sem := sem }
  | .read =>
    some (match s.stdin with
      | [] => { s with writer := .storeNum 0 }
      | c :: stdin =>
        { s with
          writer := .storeNum c.bytes.length
          buffer := c.bytes ++ s.buffer.drop c.bytes.length
          stdin })
  | .storeNum n => some { s with writer := .post, num := n }
  | .post => some { s with writer := .testNum, read_sem := sem_post s.read_sem }
  | .testNum => some { s with writer := if s.num = 0 then .report else .advance }
  | .advance =>
    some { s with
      writer := .wait
      writerCounts := ⟨s.writerCounts.xfrs + 1, s.writerCounts.bytes + s.num⟩ }
  | .report => some { s with writer := .postLast, writerReport := some s.writerCounts }
  | .postLast => some { s with writer := .finished, read_sem := sem_post s.read_sem }
  | .finished => none

/-- The next step of `read_func`. -/
def readerStep (s : State BUFFER_SIZE) : Option (State BUFFER_SIZE) :=
  match s.reader with
  | .wait => (sem_wait s.read_sem).map fun sem => { s with reader := .testNum, read_sem := sem }
  | .testNum => some { s with reader := if s.num = 0 then .waitLast else .addBytes }
  | .addBytes =>
    some { s with
      reader := .write
      readerCounts := { s.readerCounts with bytes := s.readerCounts.bytes + s.num } }
  | .write =>
    some { s with reader := .checkNum s.num, stdout := s.stdout ++ s.buffer.take s.num }
  | .checkNum n => some { s with reader := if n = s.num then .post else .failed }
  | .post =>
    some { s with
      reader := .wait
      write_sem := sem_post s.write_sem
      readerCounts := { s.readerCounts with xfrs := s.readerCounts.xfrs + 1 } }
  | .waitLast => (sem_wait s.read_sem).map fun sem => { s with reader := .report, read_sem := sem }
  | .report => some { s with reader := .finished, readerReport := some s.readerCounts }
  | .finished => none
  | .failed => none

/-- The thread that makes a step. -/
inductive Label
  | writer
  | reader
  deriving DecidableEq, Repr

/-- The two threads on an input. -/
def machine (input : List (Chunk BUFFER_SIZE)) : Machine (State BUFFER_SIZE) Label where
  init := start input
  step s
    | .writer => writerStep s
    | .reader => readerStep s

end TlpiLearn.PosixXfr
