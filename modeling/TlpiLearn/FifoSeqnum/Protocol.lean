import TlpiLearn.Foundations.Machine
import Mathlib.Logic.Function.Basic
import Mathlib.Algebra.BigOperators.Group.Finset.Basic
import Mathlib.Data.Fintype.BigOperators

/-!
# The sequence-number service over FIFOs

The servers of `44_3456` read requests from `SERVER_FIFO` and answer each on the FIFO of the process
that sent it. A client (`fifo_seqnum_client.c`) opens its FIFO only after it has sent its request,
and a bad client (`fifo_seqnum_bad_client.c`) never opens it. The servers differ in how they open the
FIFO of a client: `44_3.c` and `44_4.c` block until the client opens it too, `44_6.c` and
`fifo_seqnum_server.c` poll, up to 20000 times, and then give up.

The step function interleaves the calls of a server and of every client. Requests are no longer than
`PIPE_BUF`, so that they go into `SERVER_FIFO` in one piece.
-/

namespace TlpiLearn.FifoSeqnum.Protocol

variable {π : Type*}

/-- The requests that fit a FIFO of 65536 bytes. -/
def fifoRoom : ℕ := 8192

/-- `struct request`. -/
structure Request (π : Type*) where
  pid : π
  seqLen : Int32
  deriving DecidableEq, Repr

/-- What a process runs, with the number that `getInt` returns. -/
inductive Program
  /-- `fifo_seqnum_client.c`. -/
  | client (seqLen : Int32)
  /-- `fifo_seqnum_bad_client.c`. -/
  | badClient (seqLen : Int32)
  deriving DecidableEq, Repr

/-- How many numbers a process is to get. -/
def Program.asked : Program → ℤ
  | client n => n.toInt
  | badClient _ => 0

def Program.seqLen : Program → Int32
  | client n => n
  | badClient n => n

/-- How a server opens the FIFO of a client. -/
inductive Opening
  /-- `open(clientFifo, O_WRONLY | O_NONBLOCK)`, up to so many times. -/
  | polling (attempts : ℕ)
  /-- `open(clientFifo, O_WRONLY)`. -/
  | blocking
  deriving DecidableEq, Repr

/-- `44_6.c` and `fifo_seqnum_server.c`. -/
def pollingServer : Opening := .polling 20000

/-- `44_3.c` and `44_4.c`. -/
def blockingServer : Opening := .blocking

/-- Where the server is in its loop. -/
inductive ServerPc (π : Type*)
  /-- Before `read(serverFd, ..)`. -/
  | reading
  /-- Before the `i`-th attempt to open the client's FIFO. -/
  | opening (req : Request π) (i : ℕ)
  /-- In the `open` that blocks. -/
  | blocked (req : Request π)
  /-- Before `write(clientFd, ..)`. -/
  | writing (req : Request π)
  /-- Before `close(clientFd)` and `seqNum += req.seqLen`. -/
  | advancing (req : Request π)
  deriving DecidableEq, Repr

/-- Where a client is. -/
inductive ClientPc
  /-- Before `mkfifo(clientFifo, ..)`. -/
  | creating
  /-- Before `write(serverFd, ..)`. -/
  | sending
  /-- Before `open(clientFifo, O_RDONLY)`. -/
  | sent
  /-- In that `open`: the FIFO has a reader, but no writer yet. -/
  | opening
  /-- Before `read(clientFd, ..)`. -/
  | reading
  /-- In `sleep(100)`. -/
  | sleeping
  /-- After `printf("%d\n", resp.seqNum)`. -/
  | exiting (seqNum : Int32)
  /-- After `removeFifo`, also behind a `fatal` or an `errExit`. -/
  | exited (seqNum : Option Int32)
  deriving DecidableEq, Repr

/-- The FIFOs, the server's variables and the clients. -/
structure State (π : Type*) where
  /-- What is in `SERVER_FIFO`. -/
  requests : List (Request π)
  /-- The FIFO of a process exists under its name. -/
  named : π → Bool
  /-- What is in the FIFO of a process. -/
  responses : π → List Int32
  server : ServerPc π
  seqNum : Int32
  client : π → ClientPc

inductive Label (π : Type*)
  | create (p : π)
  | send (p : π)
  | openFifo (p : π)
  | receive (p : π)
  | exit (p : π)
  | serverRead
  | serverOpen
  | serverWrite
  | serverAdvance
  deriving DecidableEq, Repr

/-- Where a process is after it has sent its request. -/
def Program.sent : Program → ClientPc
  | client _ => .sent
  | badClient _ => .sleeping

/-- Where a process is after `exit(EXIT_SUCCESS)`. -/
def ClientPc.exit : ClientPc → Option ClientPc
  | exiting v => some (exited (some v))
  | sleeping => some (exited none)
  | _ => none

/-- The server has the FIFO of `p` open. -/
def ServerPc.Holds (p : π) : ServerPc π → Prop
  | writing req => req.pid = p
  | advancing req => req.pid = p
  | _ => False

instance [DecidableEq π] (p : π) (pc : ServerPc π) : Decidable (pc.Holds p) := by
  cases pc <;> unfold ServerPc.Holds <;> infer_instance

/-- The server with the counter of its save file, before any client has started. A FIFO may be left
over from a process with the same id. -/
def start (seqNum : Int32) (leftOver : π → Bool) : State π :=
  { requests := [], named := leftOver, responses := fun _ => [], server := .reading
    seqNum := seqNum, client := fun _ => .creating }

variable [DecidableEq π]

/-- The two opens of a client's FIFO have met: both return. -/
def State.meet (s : State π) (req : Request π) : State π :=
  { s with server := .writing req, client := Function.update s.client req.pid .reading }

/-- The `i`-th attempt to open the FIFO of a client. -/
def State.openClient (s : State π) (opening : Opening) (req : Request π) (i : ℕ) : State π :=
  -- the name is gone: "Open failed, give up on client"
  if s.named req.pid = false then { s with server := .reading }
  else
    match opening with
    | .blocking => { s with server := .blocked req }
    | .polling attempts =>
      if s.client req.pid = .opening then s.meet req
      -- `ENXIO`
      else if i + 1 < attempts then { s with server := .opening req (i + 1) }
      else { s with server := .reading }

/-- The steps of a server and of the clients. -/
def step (opening : Opening) (program : π → Program) (s : State π) : Label π → Option (State π)
  | .create p =>
    if s.client p = .creating then
      some { s with named := Function.update s.named p true
                    client := Function.update s.client p .sending }
    else none
  | .send p =>
    if s.client p = .sending ∧ s.requests.length < fifoRoom then
      some { s with requests := s.requests ++ [⟨p, (program p).seqLen⟩]
                    client := Function.update s.client p (program p).sent }
    else none
  | .openFifo p =>
    if s.client p = .sent then
      some { s with
        client := Function.update s.client p (if s.named p then .opening else .exited none) }
    else none
  | .receive p =>
    if s.client p = .reading then
      match s.responses p with
      | v :: l =>
        some { s with responses := Function.update s.responses p l
                      client := Function.update s.client p (.exiting v) }
      | [] =>
        -- end of file, unless the server has the FIFO open
        if s.server.Holds p then none
        else some { s with named := Function.update s.named p false
                           client := Function.update s.client p (.exited none) }
    else none
  | .exit p =>
    (s.client p).exit.map fun pc =>
      { s with named := Function.update s.named p false
               client := Function.update s.client p pc }
  | .serverRead =>
    match s.server, s.requests with
    | .reading, req :: l => some { s with requests := l, server := .opening req 0 }
    | _, _ => none
  | .serverOpen =>
    match s.server with
    | .opening req i => some (s.openClient opening req i)
    | .blocked req => if s.client req.pid = .opening then some (s.meet req) else none
    | _ => none
  | .serverWrite =>
    match s.server with
    | .writing req =>
      some { s with
        responses := Function.update s.responses req.pid (s.responses req.pid ++ [s.seqNum])
        server := .advancing req }
    | _ => none
  | .serverAdvance =>
    match s.server with
    | .advancing req => some { s with server := .reading, seqNum := s.seqNum + req.seqLen }
    | _ => none

/-- A server with its clients. -/
def service (opening : Opening) (program : π → Program) (seqNum : Int32) (leftOver : π → Bool) :
    Machine (State π) (Label π) :=
  ⟨start seqNum leftOver, step opening program⟩

/-! ## What a step does -/

variable {opening : Opening} {program : π → Program} {s s' : State π} {p : π}

theorem step_create :
    step opening program s (.create p) = some s' ↔ s.client p = .creating ∧
      s' = { s with named := Function.update s.named p true
                    client := Function.update s.client p .sending } := by
  rw [step, Option.ite_none_right_eq_some, Option.some.injEq, eq_comm (b := s')]

theorem step_send :
    step opening program s (.send p) = some s' ↔
      (s.client p = .sending ∧ s.requests.length < fifoRoom) ∧
      s' = { s with requests := s.requests ++ [⟨p, (program p).seqLen⟩]
                    client := Function.update s.client p (program p).sent } := by
  rw [step, Option.ite_none_right_eq_some, Option.some.injEq, eq_comm (b := s')]

theorem step_openFifo :
    step opening program s (.openFifo p) = some s' ↔ s.client p = .sent ∧
      s' = { s with
        client := Function.update s.client p (if s.named p then .opening else .exited none) } := by
  rw [step, Option.ite_none_right_eq_some, Option.some.injEq, eq_comm (b := s')]

/-- A client that reads a response. -/
theorem step_receive {v : Int32} {l : List Int32} (hl : s.responses p = v :: l) :
    step opening program s (.receive p) = some s' ↔ s.client p = .reading ∧
      s' = { s with responses := Function.update s.responses p l
                    client := Function.update s.client p (.exiting v) } := by
  simp only [step, hl]
  rw [Option.ite_none_right_eq_some, Option.some.injEq, eq_comm (b := s')]

/-- A client that reads nothing, since the server has closed its FIFO. -/
theorem step_receive_nil (hl : s.responses p = []) :
    step opening program s (.receive p) = some s' ↔ (s.client p = .reading ∧ ¬ s.server.Holds p) ∧
      s' = { s with named := Function.update s.named p false
                    client := Function.update s.client p (.exited none) } := by
  simp only [step, hl]
  rw [Option.ite_none_right_eq_some, Option.ite_none_left_eq_some, Option.some.injEq,
    eq_comm (b := s'), and_assoc]

theorem step_exit :
    step opening program s (.exit p) = some s' ↔ ∃ pc, (s.client p).exit = some pc ∧
      s' = { s with named := Function.update s.named p false
                    client := Function.update s.client p pc } := by
  rw [step, Option.map_eq_some_iff]
  exact exists_congr fun pc => and_congr_right fun _ => eq_comm

theorem step_serverRead :
    step opening program s .serverRead = some s' ↔ s.server = .reading ∧ ∃ req l,
      s.requests = req :: l ∧ s' = { s with requests := l, server := .opening req 0 } := by
  simp only [step]
  split
  · rename_i req l hs hl
    simp [hs, hl, eq_comm]
  · rename_i h
    simp only [reduceCtorEq, false_iff]
    rintro ⟨hs, req, l, hl, -⟩
    exact h req l hs hl

theorem step_serverOpen :
    step opening program s .serverOpen = some s' ↔
      (∃ req i, s.server = .opening req i ∧ s' = s.openClient opening req i) ∨
      ∃ req, s.server = .blocked req ∧ s.client req.pid = .opening ∧ s' = s.meet req := by
  simp only [step]
  split
  · rename_i req i hs
    simp [hs, eq_comm]
  · rename_i req hs
    simp [hs, eq_comm]
  · rename_i hopening hblocked
    simp only [reduceCtorEq, false_iff]
    rintro (⟨req, i, hs, -⟩ | ⟨req, hs, -⟩)
    · exact hopening req i hs
    · exact hblocked req hs

theorem step_serverWrite :
    step opening program s .serverWrite = some s' ↔ ∃ req, s.server = .writing req ∧
      s' = { s with
        responses := Function.update s.responses req.pid (s.responses req.pid ++ [s.seqNum])
        server := .advancing req } := by
  simp only [step]
  split
  · rename_i req hs
    simp [hs, eq_comm]
  · rename_i h
    simp only [reduceCtorEq, false_iff]
    rintro ⟨req, hs, -⟩
    exact h req hs

theorem step_serverAdvance :
    step opening program s .serverAdvance = some s' ↔ ∃ req, s.server = .advancing req ∧
      s' = { s with server := .reading, seqNum := s.seqNum + req.seqLen } := by
  simp only [step]
  split
  · rename_i req hs
    simp [hs, eq_comm]
  · rename_i h
    simp only [reduceCtorEq, false_iff]
    rintro ⟨req, hs, -⟩
    exact h req hs

/-- What becomes of an attempt to open the FIFO of a client: the server gives up, or it goes on
trying, or the two opens meet. -/
theorem openClient_cases (s : State π) (opening : Opening) (req : Request π) (i : ℕ) :
    (s.openClient opening req i = { s with server := .reading } ∧
      (s.named req.pid = false ∨
        ∃ attempts, opening = .polling attempts ∧ s.client req.pid ≠ .opening ∧
          attempts ≤ i + 1)) ∨
    (s.openClient opening req i = { s with server := .blocked req } ∧ opening = .blocking ∧
      s.named req.pid = true) ∨
    (∃ attempts, s.openClient opening req i = { s with server := .opening req (i + 1) } ∧
      opening = .polling attempts ∧ i + 1 < attempts) ∨
    (s.openClient opening req i = s.meet req ∧ s.client req.pid = .opening) := by
  unfold State.openClient
  by_cases hname : s.named req.pid = false
  · exact .inl ⟨if_pos hname, .inl hname⟩
  · rw [if_neg hname]
    cases opening with
    | blocking => exact .inr (.inl ⟨rfl, rfl, Bool.eq_true_of_not_eq_false hname⟩)
    | polling attempts =>
      by_cases hc : s.client req.pid = .opening
      · exact .inr (.inr (.inr ⟨if_pos hc, hc⟩))
      · by_cases hi : i + 1 < attempts
        · exact .inr (.inr (.inl ⟨attempts, (if_neg hc).trans (if_pos hi), rfl, hi⟩))
        · exact .inl ⟨(if_neg hc).trans (if_neg hi), .inr ⟨attempts, rfl, hc, not_lt.1 hi⟩⟩

end TlpiLearn.FifoSeqnum.Protocol
