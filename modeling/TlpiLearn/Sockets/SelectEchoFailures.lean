import TlpiLearn.Sockets.SelectEcho
import Mathlib.Tactic

/-!
# The echo server with `select`, when calls fail

`SelectEcho` has the passes of `63/2/echo_sv.c` in which every call succeeds. Here a client may do
what it likes: reset its connection, so that `accept`, `read` or `write` fails, or never read what
is sent to it, so that `write` does not return. The answers of the calls are part of the round, and
the loop stops where the code calls `errExit` or waits (`Stop`).

`Available` is what is wanted of a pass: the server goes on, every connection that `select` reported
is read and echoed, and a connection whose `read` fails is closed and nothing else.
-/

namespace TlpiLearn.SelectEchoFailures

open SelectEcho (Server Data Fault MAX_CONN_FD FD_SETSIZE fdIsSet fdClr firstFree start)

/-- The calls on the sockets. -/
inductive Call
  | accept
  | recvfrom
  | sendto
  | read
  | write
  deriving DecidableEq, Repr

/-- Why the loop does not go on. -/
inductive Stop
  | fault (f : Fault)
  | errExit (call : Call)
  | blocked (call : Call)
  deriving DecidableEq, Repr

/-- What comes of a call that may wait. -/
inductive Answer (α : Type)
  | returns (a : α)
  | fails
  | blocks

/-- The value that is returned, if there is one. -/
def Answer.value {α : Type} : Answer α → Option α
  | .returns a => some a
  | .fails => none
  | .blocks => none

/-- `if ((… = call(…)) == -1) errExit(call)`. -/
def Answer.orExit {α : Type} (call : Call) : Answer α → Except Stop α
  | .returns a => .ok a
  | .fails => .error (.errExit call)
  | .blocks => .error (.blocked call)

/-- What has defined behaviour goes on. -/
def orFault {α : Type} : Except Fault α → Except Stop α
  | .ok a => .ok a
  | .error f => .error (.fault f)

/-- What the kernel answers in one pass of the loop. The datagram socket is used with
`MSG_DONTWAIT`, so that its calls return or fail; what the calls that write return is how many bytes
they have taken. -/
structure Round where
  ready : Finset ℕ
  accept : Answer ℕ
  recvfrom : Answer Data
  sendto : Answer ℕ
  read : ℕ → Answer Data
  write : ℕ → Answer ℕ

/-- `if (call(…, readn) != readn) errExit(call)`. -/
def whole (call : Call) (written : Answer ℕ) (readn : ℕ) : Except Stop Unit := do
  let n ← written.orExit call
  if n ≠ readn then .error (.errExit call) else .ok ()

/-- The body of the loop over the connections. -/
def serve (r : Round) (s : Server) (i : Fin MAX_CONN_FD) : Except Stop Server :=
  match s.connFds i with
  | none => .ok s
  | some fd => do
    if ← orFault (fdIsSet fd s.rfdset) then
      let data ← (r.read fd).orExit .read
      let buf := data.bytes
      let s ← orFault (s.read fd buf)
      if buf.length = 0 then
        let rfdset ← orFault (fdClr fd s.rfdset)
        return { s with
          rfdset
          conn := Function.update s.conn fd none
          connFds := Function.update s.connFds i none }
      else
        whole .write (r.write fd) buf.length
        orFault (s.write fd buf)
    else return s

/-- The loop over the connections. -/
def serveConns (r : Round) (s : Server) : Except Stop Server :=
  (List.finRange MAX_CONN_FD).foldlM (serve r) s

variable (lfd dfd : ℕ)

/-- The pass behind the accept branch. -/
def afterAccept (r : Round) (s : Server) (nready : ℤ) : Except Stop Server := do
  if ← orFault (fdIsSet dfd s.rfdset) then
    let data ← r.recvfrom.orExit .recvfrom
    whole .sendto r.sendto data.bytes.length
    let s := s.echoDatagram dfd data
    if nready - 1 = 0 then return s else serveConns r s
  else serveConns r s

/-- The pass behind `select`. -/
def afterSelect (r : Round) (s : Server) (nready : ℤ) : Except Stop Server := do
  if ← orFault (fdIsSet lfd s.rfdset) then
    match firstFree s.connFds with
    | none => return s
    | some j =>
      let connfd ← r.accept.orExit .accept
      let s := s.accept lfd j connfd
      if nready - 1 = 0 then return s else afterAccept dfd r s (nready - 1)
  else afterAccept dfd r s nready

/-- One pass of the loop. -/
def pass (s : Server) (r : Round) : Except Stop Server := do
  let (s, nready) ← orFault (s.wait lfd dfd r.ready)
  afterSelect lfd dfd r s nready

/-- `accept` returns a descriptor that is not open. -/
def Admits (s : Server) (r : Round) : Prop := ∀ connfd ∈ r.accept.value, ¬ s.IsOpen lfd dfd connfd

instance admitsDecidable (s : Server) (r : Round) : Decidable (Admits lfd dfd s r) :=
  inferInstanceAs (Decidable (∀ connfd ∈ r.accept.value, ¬ s.IsOpen lfd dfd connfd))

/-- The server, one pass of its loop after the other, until it stops. -/
def machine : Machine (Except Stop Server) Round where
  init := .ok (start lfd dfd)
  step s r :=
    match s with
    | .error _ => none
    | .ok s => if Admits lfd dfd s r then some (pass lfd dfd s r) else none

/-! ## What is wanted -/

/-- What a pass from `s` to `s'` does for its clients. -/
structure Serves (r : Round) (s s' : Server) : Prop where
  /-- What the next pass puts into `rfdset` fits. -/
  fits : ∀ i fd, s'.connFds i = some fd → fd < FD_SETSIZE
  /-- Every connection that is reported is read. -/
  read : ∀ i fd, s.connFds i = some fd → fd ∈ r.ready → fd ∈ s'.handled
  /-- What is read is echoed, if the client takes it. -/
  echoed : ∀ i fd c data, s.connFds i = some fd → s.conn fd = some c → fd ∈ r.ready →
    r.read fd = .returns data → data.bytes ≠ [] → r.write fd = .returns data.bytes.length →
    s'.connFds i = some fd ∧ s'.conn fd = some c ∧ s'.written c = s.written c ++ data.bytes
  /-- A connection whose `read` fails is closed. -/
  closed : ∀ i fd, s.connFds i = some fd → fd ∈ r.ready → r.read fd = .fails →
    s'.connFds i = none ∧ s'.conn fd = none
  /-- Nothing happens to a connection that is not reported. -/
  quiet : ∀ i fd c, s.connFds i = some fd → s.conn fd = some c → fd ∉ r.ready →
    s'.connFds i = some fd ∧ s'.conn fd = some c ∧ s'.written c = s.written c

/-- The server goes on and has served its clients. -/
def Available (r : Round) (s : Server) (o : Except Stop Server) : Prop :=
  ∃ s', o = .ok s' ∧ Serves r s s'

/-- The descriptor is read, and what is read is written back whole. -/
def Answered (r : Round) (fd : ℕ) : Prop :=
  ∃ data, r.read fd = .returns data ∧
    (data.bytes ≠ [] → r.write fd = .returns data.bytes.length)

/-- No call of the pass fails or waits, and the descriptors fit an `fd_set`. -/
structure Undisturbed (s : Server) (r : Round) : Prop where
  sockets : lfd < FD_SETSIZE ∧ dfd < FD_SETSIZE
  accept : lfd ∈ r.ready → ∃ connfd, connfd < FD_SETSIZE ∧ r.accept = .returns connfd
  datagram : dfd ∈ r.ready →
    ∃ data, r.recvfrom = .returns data ∧ r.sendto = .returns data.bytes.length
  connections : ∀ i fd, s.connFds i = some fd → fd ∈ r.ready → Answered r fd

end TlpiLearn.SelectEchoFailures
