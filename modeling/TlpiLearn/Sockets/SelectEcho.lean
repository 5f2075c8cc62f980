import TlpiLearn.Foundations.Machine
import Mathlib.Data.Finset.Card
import Mathlib.Tactic

/-!
# The echo server with `select`

`63/2/echo_sv.c`: one process serves a listening socket, a datagram socket and a table of
connections. A round of the machine is one pass of its loop, with what the kernel answers in it:
which descriptors are ready, which descriptor `accept` returns, and what each `read` gives. The
kernel's side of the state is the connection that each open descriptor refers to, since numbers are
used again after `close`.

A macro on a descriptor that does not fit an `fd_set` has no defined behaviour (`Fault.fdRange`),
and a call on a closed descriptor ends the server (`Fault.badFd`).
-/

namespace TlpiLearn.SelectEcho

/-- `BUF_SIZE`. -/
def BUF_SIZE : ℕ := 1024

/-- `MAX_CONN_FD`. -/
def MAX_CONN_FD : ℕ := 1024

/-- `FD_SETSIZE`. -/
def FD_SETSIZE : ℕ := 1024

/-- What goes wrong in a pass of the loop. -/
inductive Fault
  | fdRange
  | badFd
  deriving DecidableEq, Repr

/-- What one `read` or `recvfrom` delivers. -/
structure Data where
  bytes : List UInt8
  le : bytes.length ≤ BUF_SIZE

/-- `FD_SET`. -/
def fdSet (fd : ℕ) (set : Finset ℕ) : Except Fault (Finset ℕ) :=
  if fd < FD_SETSIZE then .ok (insert fd set) else .error .fdRange

/-- `FD_CLR`. -/
def fdClr (fd : ℕ) (set : Finset ℕ) : Except Fault (Finset ℕ) :=
  if fd < FD_SETSIZE then .ok (set.erase fd) else .error .fdRange

/-- `FD_ISSET`. -/
def fdIsSet (fd : ℕ) (set : Finset ℕ) : Except Fault Bool :=
  if fd < FD_SETSIZE then .ok (decide (fd ∈ set)) else .error .fdRange

/-- The variables of `main`, and the kernel's side of the connections. -/
structure Server where
  /-- `conn_fds`; `none` is the entry `-1`. -/
  connFds : Fin MAX_CONN_FD → Option ℕ
  nfds : ℕ
  rfdset : Finset ℕ
  /-- The connection that an open descriptor refers to. -/
  conn : ℕ → Option ℕ
  /-- How many connections were accepted; they are numbered in this order. -/
  accepted : ℕ
  /-- What was read from each connection. -/
  received : ℕ → List UInt8
  /-- What was written to each connection. -/
  written : ℕ → List UInt8
  /-- The datagrams received and those sent. -/
  datagramsIn : List (List UInt8)
  datagramsOut : List (List UInt8)
  /-- What the last `select` reported. -/
  reported : Finset ℕ
  /-- The descriptors that were accepted on, received from or read in the last pass. -/
  handled : Finset ℕ

/-- What the kernel answers in one pass of the loop. -/
structure Round where
  ready : Finset ℕ
  /-- The descriptor that `accept` returns. -/
  accepted : ℕ
  datagram : Data
  /-- What a `read` of a descriptor delivers; nothing is the end of the file. -/
  reads : ℕ → Data

variable (lfd dfd : ℕ)

/-- The state before the loop. -/
def start : Server where
  connFds _ := none
  nfds := max lfd dfd + 1
  rfdset := ∅
  conn _ := none
  accepted := 0
  received _ := []
  written _ := []
  datagramsIn := []
  datagramsOut := []
  reported := ∅
  handled := ∅

/-- The descriptor is open. -/
def Server.IsOpen (s : Server) (fd : ℕ) : Prop := fd = lfd ∨ fd = dfd ∨ (s.conn fd).isSome

instance (s : Server) (fd : ℕ) : Decidable (s.IsOpen lfd dfd fd) :=
  inferInstanceAs (Decidable (fd = lfd ∨ fd = dfd ∨ (s.conn fd).isSome))

/-- The body of the loop that puts the connections into the set. -/
def setConn (connFds : Fin MAX_CONN_FD → Option ℕ) (set : Finset ℕ) (i : Fin MAX_CONN_FD) :
    Except Fault (Finset ℕ) :=
  match connFds i with
  | none => .ok set
  | some fd => fdSet fd set

/-- The loop that puts the connections into the set. -/
def setConns (connFds : Fin MAX_CONN_FD → Option ℕ) (set : Finset ℕ) :
    Except Fault (Finset ℕ) :=
  (List.finRange MAX_CONN_FD).foldlM (setConn connFds) set

/-- `select(nfds, &rfdset, NULL, NULL, NULL)`: the server afterwards and the number of ready
descriptors. -/
def Server.select (s : Server) (ready : Finset ℕ) : Except Fault (Server × ℤ) :=
  if ∀ fd ∈ s.rfdset, s.IsOpen lfd dfd fd then
    let reported := s.rfdset.filter fun fd => fd < s.nfds ∧ fd ∈ ready
    .ok ({ s with rfdset := reported, reported, handled := ∅ }, reported.card)
  else .error .badFd

/-- The descriptors that are put into the set, and `select` on it. -/
def Server.wait (s : Server) (ready : Finset ℕ) : Except Fault (Server × ℤ) := do
  let rfdset ← fdSet lfd s.rfdset
  let rfdset ← fdSet dfd rfdset
  let rfdset ← setConns s.connFds rfdset
  { s with rfdset : Server }.select lfd dfd ready

/-- The search for an empty entry; `none` when `j` comes to `MAX_CONN_FD`. -/
def firstFree (connFds : Fin MAX_CONN_FD → Option ℕ) : Option (Fin MAX_CONN_FD) :=
  (List.finRange MAX_CONN_FD).find? fun j => (connFds j).isNone

/-- `accept` returns `connfd`, which goes into the entry `j`. -/
def Server.accept (s : Server) (j : Fin MAX_CONN_FD) (connfd : ℕ) : Server :=
  { s with
    nfds := if connfd + 1 > s.nfds then connfd + 1 else s.nfds
    connFds := Function.update s.connFds j (some connfd)
    conn := Function.update s.conn connfd (some s.accepted)
    accepted := s.accepted + 1
    handled := insert lfd s.handled }

/-- `recvfrom` and `sendto` of one datagram. -/
def Server.echoDatagram (s : Server) (d : Data) : Server :=
  { s with
    datagramsIn := s.datagramsIn ++ [d.bytes]
    datagramsOut := s.datagramsOut ++ [d.bytes]
    handled := insert dfd s.handled }

/-- A `read` of the descriptor. -/
def Server.read (s : Server) (fd : ℕ) (bs : List UInt8) : Except Fault Server :=
  match s.conn fd with
  | none => .error .badFd
  | some c =>
    .ok { s with
      received := Function.update s.received c (s.received c ++ bs)
      handled := insert fd s.handled }

/-- A complete `write` to the descriptor. -/
def Server.write (s : Server) (fd : ℕ) (bs : List UInt8) : Except Fault Server :=
  match s.conn fd with
  | none => .error .badFd
  | some c => .ok { s with written := Function.update s.written c (s.written c ++ bs) }

/-- The body of the loop over the connections. -/
def serve (reads : ℕ → Data) (s : Server) (i : Fin MAX_CONN_FD) : Except Fault Server :=
  match s.connFds i with
  | none => .ok s
  | some fd => do
    if ← fdIsSet fd s.rfdset then
      let buf := (reads fd).bytes
      let s ← s.read fd buf
      if buf.length = 0 then
        let rfdset ← fdClr fd s.rfdset
        return { s with
          rfdset
          conn := Function.update s.conn fd none
          connFds := Function.update s.connFds i none }
      else s.write fd buf
    else return s

/-- The loop over the connections. -/
def serveConns (reads : ℕ → Data) (s : Server) : Except Fault Server :=
  (List.finRange MAX_CONN_FD).foldlM (serve reads) s

/-- The pass behind the accept branch. -/
def afterAccept (r : Round) (s : Server) (nready : ℤ) : Except Fault Server := do
  if ← fdIsSet dfd s.rfdset then
    let s := s.echoDatagram dfd r.datagram
    if nready - 1 = 0 then return s else serveConns r.reads s
  else serveConns r.reads s

/-- The pass behind `select`. -/
def afterSelect (r : Round) (s : Server) (nready : ℤ) : Except Fault Server := do
  if ← fdIsSet lfd s.rfdset then
    match firstFree s.connFds with
    | none => return s
    | some j =>
      let s := s.accept lfd j r.accepted
      if nready - 1 = 0 then return s else afterAccept dfd r s (nready - 1)
  else afterAccept dfd r s nready

/-- One pass of the loop. -/
def pass (s : Server) (r : Round) : Except Fault Server := do
  let rfdset ← fdSet lfd s.rfdset
  let rfdset ← fdSet dfd rfdset
  let rfdset ← setConns s.connFds rfdset
  let (s, nready) ← { s with rfdset : Server }.select lfd dfd r.ready
  afterSelect lfd dfd r s nready

/-- The number of connections in the table. -/
def Server.connections (s : Server) : ℕ :=
  (Finset.univ.filter fun i => s.connFds i ≠ none).card

/-- `accept` returns a descriptor that is not open, and it is only called while there are fewer
than `MAX_CONN_FD` connections. -/
def Server.Admits (s : Server) (r : Round) : Prop :=
  ¬ s.IsOpen lfd dfd r.accepted ∧ (lfd ∈ r.ready → s.connections < MAX_CONN_FD)

instance (s : Server) (r : Round) : Decidable (s.Admits lfd dfd r) :=
  inferInstanceAs (Decidable (_ ∧ _))

/-- The server, one pass of its loop after the other, until a fault ends it. -/
def machine : Machine (Except Fault Server) Round where
  init := .ok (start lfd dfd)
  step s r :=
    match s with
    | .error _ => none
    | .ok s => if s.Admits lfd dfd r then some (pass lfd dfd s r) else none

end TlpiLearn.SelectEcho
