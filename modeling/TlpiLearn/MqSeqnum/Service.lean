import TlpiLearn.Foundations.Machine
import Mathlib.Logic.Function.Basic
import Mathlib.Algebra.BigOperators.Group.Finset.Basic
import Mathlib.Data.Fintype.BigOperators

/-!
# The sequence-number service over POSIX message queues

`52_2/mq_seqnum_server.c` reads requests from its own queue and answers each on the queue of the
process that sent it; `52_2/mq_seqnum_client.c` makes its queue before it sends, and removes it when
it exits. The step function interleaves the calls of the server and of every client. Other programs
may write to the server's queue too: a message of another size, or a request whose sender has no
queue.

The server's queue exists before the first client starts; a client that comes earlier ends with
`errExit("mq_open")`.
-/

namespace TlpiLearn.MqSeqnum

variable {π : Type*}

/-- `attr.mq_maxmsg`, of the server's queue and of the clients'. -/
def maxmsg : ℕ := 10

/-- `struct request`. -/
structure Request (π : Type*) where
  pid : π
  seqLen : Int32
  deriving DecidableEq, Repr

/-- What a process does with the service. -/
inductive Program
  /-- `mq_seqnum_client.c`, with the number that `getInt` returns. -/
  | client (seqLen : Int32)
  /-- Another program, without a queue of its own: it sends a request, or a message of another
  size (`none`). -/
  | stranger (seqLen : Option Int32)
  deriving DecidableEq, Repr

/-- How many numbers a process is to get. -/
def Program.asked : Program → ℤ
  | client n => n.toInt
  | stranger _ => 0

/-- Where the server is in its loop. -/
inductive ServerPc (π : Type*)
  /-- Before `mq_receive(serverFd, ..)`. -/
  | receiving
  /-- Before `mq_open(clientMQ, O_WRONLY, ..)`. -/
  | opening (req : Request π)
  /-- Before `mq_send(clientFd, ..)`. -/
  | sending (req : Request π)
  /-- Before `seqNum += req.seqLen`. -/
  | advancing (req : Request π)
  deriving DecidableEq, Repr

/-- Where a client is. -/
inductive ClientPc
  /-- Before `mq_open(clientMQ, O_CREAT | O_EXCL | O_RDONLY, ..)`. -/
  | creating
  /-- Before `mq_send(serverFd, ..)`. -/
  | sending
  /-- Before `mq_receive(clientFd, ..)`. -/
  | receiving
  /-- After `printf("%d\n", resp.seqNum)`. -/
  | exiting (seqNum : Int32)
  /-- After `removeFifo`. -/
  | exited (seqNum : Option Int32)
  deriving DecidableEq, Repr

/-- The queues, the server's variables and the clients. -/
structure State (π : Type*) where
  /-- The server's queue; `none` is a message that has not the size of a request. -/
  requests : List (Option (Request π))
  /-- The queue of each process, if it exists. -/
  clientMQ : π → Option (List Int32)
  server : ServerPc π
  seqNum : Int32
  client : π → ClientPc

inductive Label (π : Type*)
  | create (p : π)
  | send (p : π)
  | receive (p : π)
  | exit (p : π)
  | serverReceive
  | serverOpen
  | serverSend
  | serverAdvance
  deriving DecidableEq, Repr

/-- Where a process starts. -/
def Program.start : Program → ClientPc
  | client _ => .creating
  | stranger _ => .sending

/-- Where a process is after it has sent its message. -/
def Program.sent : Program → ClientPc
  | client _ => .receiving
  | stranger _ => .exited none

/-- The message of a process. -/
def Program.message (p : π) : Program → Option (Request π)
  | client n => some ⟨p, n⟩
  | stranger n => n.map (Request.mk p)

/-- A process sends its own process id. -/
theorem Program.pid_of_message {prog : Program} {p : π} {req : Request π}
    (h : prog.message p = some req) : req.pid = p := by
  cases prog with
  | client n => exact Option.some.inj h ▸ rfl
  | stranger m =>
    obtain ⟨n, -, rfl⟩ := Option.map_eq_some_iff.1 h
    rfl

/-- The server at the top of its loop, before any client has started. -/
def start (program : π → Program) : State π :=
  { requests := [], clientMQ := fun _ => none, server := .receiving, seqNum := 0
    client := fun p => (program p).start }

variable [DecidableEq π]

/-- The steps of the server and of the clients. -/
def step (program : π → Program) (s : State π) : Label π → Option (State π)
  | .create p =>
    if s.client p = .creating ∧ s.clientMQ p = none then
      some { s with
        clientMQ := Function.update s.clientMQ p (some [])
        client := Function.update s.client p .sending }
    else none
  | .send p =>
    if s.client p = .sending ∧ s.requests.length < maxmsg then
      some { s with
        requests := s.requests ++ [(program p).message p]
        client := Function.update s.client p (program p).sent }
    else none
  | .receive p =>
    match s.client p, s.clientMQ p with
    | .receiving, some (v :: q) =>
      some { s with
        clientMQ := Function.update s.clientMQ p (some q)
        client := Function.update s.client p (.exiting v) }
    | _, _ => none
  | .exit p =>
    match s.client p with
    | .exiting v =>
      some { s with
        clientMQ := Function.update s.clientMQ p none
        client := Function.update s.client p (.exited (some v)) }
    | _ => none
  | .serverReceive =>
    match s.server, s.requests with
    | .receiving, some req :: q => some { s with requests := q, server := .opening req }
    -- "Error reading request; discarding"
    | .receiving, none :: q => some { s with requests := q }
    | _, _ => none
  | .serverOpen =>
    match s.server with
    | .opening req =>
      some { s with server := if s.clientMQ req.pid = none then .receiving else .sending req }
    | _ => none
  | .serverSend =>
    match s.server with
    | .sending req =>
      match s.clientMQ req.pid with
      -- the queue was removed behind the `mq_open`: the message goes with it
      | none => some { s with server := .advancing req }
      | some q =>
        if q.length < maxmsg then
          some { s with
            clientMQ := Function.update s.clientMQ req.pid (some (q ++ [s.seqNum]))
            server := .advancing req }
        else none
    | _ => none
  | .serverAdvance =>
    match s.server with
    | .advancing req => some { s with server := .receiving, seqNum := s.seqNum + req.seqLen }
    | _ => none

/-- The service with its clients. -/
def service (program : π → Program) : Machine (State π) (Label π) :=
  ⟨start program, step program⟩

/-! ## What a step does -/

variable {program : π → Program} {s s' : State π} {p : π}

theorem step_create :
    step program s (.create p) = some s' ↔ (s.client p = .creating ∧ s.clientMQ p = none) ∧
      s' = { s with clientMQ := Function.update s.clientMQ p (some [])
                    client := Function.update s.client p .sending } := by
  rw [step, Option.ite_none_right_eq_some, Option.some.injEq, eq_comm (b := s')]

theorem step_send :
    step program s (.send p) = some s' ↔
      (s.client p = .sending ∧ s.requests.length < maxmsg) ∧
      s' = { s with requests := s.requests ++ [(program p).message p]
                    client := Function.update s.client p (program p).sent } := by
  rw [step, Option.ite_none_right_eq_some, Option.some.injEq, eq_comm (b := s')]

theorem step_receive :
    step program s (.receive p) = some s' ↔ ∃ v q, s.client p = .receiving ∧
      s.clientMQ p = some (v :: q) ∧
      s' = { s with clientMQ := Function.update s.clientMQ p (some q)
                    client := Function.update s.client p (.exiting v) } := by
  simp only [step]
  split
  · rename_i v q hc hq
    simp [hc, hq, eq_comm]
  · rename_i h
    simp only [reduceCtorEq, false_iff]
    rintro ⟨v, q, hc, hq, -⟩
    exact h v q hc hq

theorem step_exit :
    step program s (.exit p) = some s' ↔ ∃ v, s.client p = .exiting v ∧
      s' = { s with clientMQ := Function.update s.clientMQ p none
                    client := Function.update s.client p (.exited (some v)) } := by
  simp only [step]
  split
  · rename_i v hc
    simp [hc, eq_comm]
  · rename_i h
    simp only [reduceCtorEq, false_iff]
    rintro ⟨v, hc, -⟩
    exact h v hc

theorem step_serverReceive :
    step program s .serverReceive = some s' ↔ s.server = .receiving ∧ ∃ m q,
      s.requests = m :: q ∧
      s' = { s with requests := q, server := m.elim .receiving .opening } := by
  simp only [step]
  split
  · rename_i req q hs hq
    simp [hs, hq, eq_comm]
  · rename_i q hs hq
    simp [hs, hq, eq_comm]
  · rename_i hsome hnone
    simp only [reduceCtorEq, false_iff]
    rintro ⟨hs, m, q, hq, -⟩
    cases m with
    | none => exact hnone q hs hq
    | some req => exact hsome req q hs hq

theorem step_serverOpen :
    step program s .serverOpen = some s' ↔ ∃ req, s.server = .opening req ∧
      s' = { s with
        server := if s.clientMQ req.pid = none then .receiving else .sending req } := by
  simp only [step]
  split
  · rename_i req hs
    simp [hs, eq_comm]
  · rename_i h
    simp only [reduceCtorEq, false_iff]
    rintro ⟨req, hs, -⟩
    exact h req hs

theorem step_serverSend {req : Request π} {q : List Int32} (hq : s.clientMQ req.pid = some q)
    (hs : s.server = .sending req) :
    step program s .serverSend = some s' ↔ q.length < maxmsg ∧
      s' = { s with clientMQ := Function.update s.clientMQ req.pid (some (q ++ [s.seqNum]))
                    server := .advancing req } := by
  simp only [step, hs, hq]
  rw [Option.ite_none_right_eq_some, Option.some.injEq, eq_comm (b := s')]

theorem exists_sending_of_step (h : step program s .serverSend = some s') :
    ∃ req, s.server = .sending req := by
  simp only [step] at h
  split at h
  · exact ⟨_, ‹_›⟩
  · cases h

theorem step_serverAdvance :
    step program s .serverAdvance = some s' ↔ ∃ req, s.server = .advancing req ∧
      s' = { s with server := .receiving, seqNum := s.seqNum + req.seqLen } := by
  simp only [step]
  split
  · rename_i req hs
    simp [hs, eq_comm]
  · rename_i h
    simp only [reduceCtorEq, false_iff]
    rintro ⟨req, hs, -⟩
    exact h req hs

end TlpiLearn.MqSeqnum
