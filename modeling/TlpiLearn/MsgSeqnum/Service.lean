import TlpiLearn.Foundations.Machine
import TlpiLearn.Foundations.MsgQueue
import TlpiLearn.Foundations.Intervals
import Mathlib.Logic.Function.Basic

/-!
# The sequence-number service over one message queue

`46_2/msg_seqnum_server.c` and `46_2/msg_seqnum_client.c` talk over a single System V queue: a
request has type 1, a response has the client's process id as its type. The step function
interleaves the calls of the server and of every client; `cap` bounds the number of queued
messages (`none` for a queue without a limit), and a label whose call would block is not enabled.

The state records besides the program variables the responses sent so far (`granted`), which no
step reads.
-/

namespace TlpiLearn.MsgSeqnum

/-- The clients: their process ids and the lengths they ask for. -/
structure Clients (ι : Type*) where
  pid : ι → ℤ
  seqlen : ι → ℤ
  one_lt_pid : ∀ i, 1 < pid i
  pid_injective : Function.Injective pid
  one_le_seqlen : ∀ i, 1 ≤ seqlen i

/-- What follows `mtype` in `struct RequestMsg` and in `struct ResponseMsg`. -/
inductive Body
  | request (pid seqlen : ℤ)
  | response (seqnum : ℤ)
  deriving DecidableEq, Repr

/-- Where the server is in its loop. -/
inductive ServerPc
  /-- Before `msgrcv(server_msqid, &request_msg, REQUSET_SIZE, 1, 0)`. -/
  | receiving
  /-- Before `msgsnd` of the response. -/
  | sending
  /-- Before `seq_num += request_msg.seqlen`. -/
  | advancing
  deriving DecidableEq, Repr

/-- Where a client is. -/
inductive ClientPc
  /-- Before `msgsnd` of the request. -/
  | sending
  /-- Before `msgrcv(client_msqid, &response_msg, RESPONSE_SIZE, getpid(), 0)`. -/
  | receiving
  /-- After `printf("%d\n", response_msg.seqnum)`. -/
  | finished (seqnum : ℤ)
  /-- After `errExit("msgrcv")`. -/
  | failed
  deriving DecidableEq, Repr

/-- A response that the server has sent: to whom and for which interval. -/
structure Grant where
  pid : ℤ
  span : Span ℤ
  deriving DecidableEq, Repr

/-- The queue, the server's variables, the clients, and the responses sent so far. -/
structure State (ι : Type*) where
  queue : List (Msg Body)
  server : ServerPc
  /-- `request_msg.pid`. -/
  reqPid : ℤ
  /-- `request_msg.seqlen`. -/
  reqSeqlen : ℤ
  seqNum : ℤ
  client : ι → ClientPc
  granted : List Grant

inductive Label (ι : Type*)
  | clientSend (i : ι)
  | serverRecv
  | serverSend
  | serverAdvance
  | clientRecv (i : ι)
  deriving DecidableEq, Repr

variable {ι : Type*}

/-- The request of a client. -/
def Clients.request (C : Clients ι) (i : ι) : Msg Body := ⟨1, .request (C.pid i) (C.seqlen i)⟩

/-- The server's response to the request it holds. -/
def State.response (s : State ι) : Msg Body := ⟨s.reqPid, .response s.seqNum⟩

/-- The server at the top of its loop, before any client has started. -/
def start : State ι :=
  { queue := [], server := .receiving, reqPid := 0, reqSeqlen := 0, seqNum := 0,
    client := fun _ => .sending, granted := [] }

/-- `msgrcv` copies the body over the fields of `request_msg` that it covers. -/
def State.recvRequest (s : State ι) : Body → State ι
  | .request p n => { s with reqPid := p, reqSeqlen := n }
  | .response n => { s with reqPid := n }

/-- What a client does with the message it received: a request is longer than `RESPONSE_SIZE`. -/
def ClientPc.recvResponse : Body → ClientPc
  | .response n => .finished n
  | .request _ _ => .failed

variable [DecidableEq ι]

/-- The steps of the server and of the clients. -/
def step (C : Clients ι) (cap : Option ℕ) (s : State ι) : Label ι → Option (State ι)
  | .clientSend i =>
    if s.client i = .sending then
      (msgsnd cap (C.request i) s.queue).map fun q =>
        { s with queue := q, client := Function.update s.client i .receiving }
    else none
  | .serverRecv =>
    if s.server = .receiving then
      (msgrcv 1 s.queue).map fun r =>
        { s.recvRequest r.1.body with queue := r.2, server := .sending }
    else none
  | .serverSend =>
    if s.server = .sending then
      (msgsnd cap s.response s.queue).map fun q =>
        { s with
          queue := q, server := .advancing
          granted := s.granted ++ [⟨s.reqPid, ⟨s.seqNum, s.reqSeqlen⟩⟩] }
    else none
  | .serverAdvance =>
    if s.server = .advancing then
      some { s with server := .receiving, seqNum := s.seqNum + s.reqSeqlen }
    else none
  | .clientRecv i =>
    if s.client i = .receiving then
      (msgrcv (C.pid i) s.queue).map fun r =>
        { s with queue := r.2, client := Function.update s.client i (.recvResponse r.1.body) }
    else none

/-- The service with its clients. -/
def service (C : Clients ι) (cap : Option ℕ) : Machine (State ι) (Label ι) := ⟨start, step C cap⟩

/-! ## What a step does -/

variable {C : Clients ι} {cap : Option ℕ} {s s' : State ι}

theorem step_clientSend {i : ι} :
    step C cap s (.clientSend i) = some s' ↔ s.client i = .sending ∧
      ¬ QueueFull cap s.queue.length ∧
      s' = { s with queue := s.queue ++ [C.request i]
                    client := Function.update s.client i .receiving } := by
  rw [step, Option.ite_none_right_eq_some, map_msgsnd_eq_some]

theorem step_serverRecv :
    step C cap s .serverRecv = some s' ↔ s.server = .receiving ∧ ∃ m q,
      msgrcv 1 s.queue = some (m, q) ∧
      s' = { s.recvRequest m.body with queue := q, server := .sending } := by
  simp only [step, Option.ite_none_right_eq_some, Option.map_eq_some_iff, Prod.exists]
  constructor <;> rintro ⟨hs, m, q, hr, rfl⟩ <;> exact ⟨hs, m, q, hr, rfl⟩

theorem step_serverSend :
    step C cap s .serverSend = some s' ↔ s.server = .sending ∧
      ¬ QueueFull cap s.queue.length ∧
      s' = { s with queue := s.queue ++ [s.response], server := .advancing
                    granted := s.granted ++ [⟨s.reqPid, ⟨s.seqNum, s.reqSeqlen⟩⟩] } := by
  rw [step, Option.ite_none_right_eq_some, map_msgsnd_eq_some]

theorem step_serverAdvance :
    step C cap s .serverAdvance = some s' ↔ s.server = .advancing ∧
      s' = { s with server := .receiving, seqNum := s.seqNum + s.reqSeqlen } := by
  simp only [step, Option.ite_none_right_eq_some, Option.some.injEq]
  constructor <;> rintro ⟨hs, rfl⟩ <;> exact ⟨hs, rfl⟩

theorem step_clientRecv {i : ι} :
    step C cap s (.clientRecv i) = some s' ↔ s.client i = .receiving ∧ ∃ m q,
      msgrcv (C.pid i) s.queue = some (m, q) ∧
      s' = { s with queue := q, client := Function.update s.client i (.recvResponse m.body) } := by
  simp only [step, Option.ite_none_right_eq_some, Option.map_eq_some_iff, Prod.exists]
  constructor
  · rintro ⟨hs, m, q, hr, rfl⟩
    exact ⟨hs, m, q, hr, rfl⟩
  · rintro ⟨hs, m, q, hr, rfl⟩
    exact ⟨hs, m, q, hr, rfl⟩

end TlpiLearn.MsgSeqnum
