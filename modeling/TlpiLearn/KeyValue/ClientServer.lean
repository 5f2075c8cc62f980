import TlpiLearn.KeyValue.HandleCommand
import Mathlib.Tactic

/-!
# A client and the key-value server

The loop of `59/4/cl.c` and the loop over one connection of `59/4/sv.c`, with a stream of bytes in
each direction. `readLine` reads through a newline, byte by byte on the sockets, and stores the
first `MAXLINE - 1` bytes. A label is a line that is typed at the client (its next one, or the one
that the `getchar` loop behind a reply drops), some bytes of a stream arriving, or the next step of
a party that is in `readLine` or in `handle_command`. All reads but those at the end of a stream
deliver one byte, and writes are complete.
-/

namespace TlpiLearn.KeyValue

/-- The bytes that are on the way in one direction, and those that can be read. -/
structure Channel where
  arrived : List UInt8
  inFlight : List UInt8
  deriving DecidableEq, Repr

/-- `write`. -/
def Channel.write (c : Channel) (bs : List UInt8) : Channel :=
  { c with inFlight := c.inFlight ++ bs }

/-- The next `k` bytes arrive. -/
def Channel.deliver (c : Channel) (k : ℕ) : Channel :=
  ⟨c.arrived ++ c.inFlight.take k, c.inFlight.drop k⟩

/-- Nothing can be read, now or later. -/
def Channel.Empty (c : Channel) : Prop := c.arrived = [] ∧ c.inFlight = []

instance (c : Channel) : Decidable c.Empty := inferInstanceAs (Decidable (_ ∧ _))

/-- `readLine` has read another byte of a line into a buffer of `MAXLINE` bytes. -/
def store (buf : List UInt8) (ch : UInt8) : List UInt8 :=
  if buf.length < MAXLINE - 1 then buf ++ [ch] else buf

/-- A line that is typed, without its newline. -/
structure Typed where
  text : List UInt8
  notMem : newline ∉ text

/-- `readLine(STDIN_FILENO, command, MAXLINE)` on a line. -/
def Typed.command (line : Typed) : List UInt8 := (line.text ++ [newline]).foldl store []

/-- The tests of the client with `strncmp`; `command` is a string. -/
def Accepts (command : List UInt8) : Bool :=
  (ascii "add").isPrefixOf command || (ascii "delete").isPrefixOf command ||
    (ascii "change").isPrefixOf command || (ascii "show").isPrefixOf command

/-- Where the client is. -/
inductive ClientPc
  /-- Before the `readLine` on its standard input. -/
  | idle
  /-- In the `readLine` on the socket. -/
  | awaiting (bufline : List UInt8)
  /-- In the `getchar` loop. -/
  | enter
  | exited
  deriving DecidableEq, Repr

/-- Where the server is. -/
inductive ServerPc
  /-- In the `readLine` on the socket. -/
  | reading (command : List UInt8)
  /-- Before the call of `handle_command`. -/
  | handling (command : List UInt8)
  /-- Behind the loop over the connection. -/
  | closed
  | crashed (crash : Crash)
  deriving DecidableEq, Repr

/-- Both parties, the streams between them, the list of the server, and what happened: the lines
that the client accepted, the requests that it sent, the requests that the server handled with
their results, and the replies that the client printed. -/
structure Session where
  client : ClientPc
  server : ServerPc
  requests : Channel
  replies : Channel
  kv : Ptr
  heap : Heap KvDsa
  accepted : List (List UInt8)
  sent : List (List UInt8)
  handled : List (List UInt8 × List UInt8)
  printed : List (List UInt8)

/-- The steps. -/
inductive Event
  | typed (line : Typed)
  | toServer (k : ℕ)
  | toClient (k : ℕ)
  | serverReads
  /-- `handle_command`, with the block that `malloc` gives out if it is called. -/
  | handles (block : Option (ℕ × KvDsa))
  | clientReads

/-- The client takes a line that is typed. -/
def Session.typed (s : Session) (line : Typed) : Option Session :=
  match s.client with
  | .idle =>
    let command := cstr line.command
    if Accepts command then
      some { s with
        client := .awaiting []
        requests := s.requests.write command
        accepted := s.accepted ++ [line.text ++ [newline]]
        sent := s.sent ++ [command] }
    else if (ascii "quit").isPrefixOf command then some { s with client := .exited }
    else some s
  | .enter => some { s with client := .idle }
  | .awaiting _ | .exited => none

/-- The next `read` in the `readLine` of the server. -/
def Session.serverReads (s : Session) : Option Session :=
  match s.server, s.requests.arrived with
  | .reading command, ch :: arrived =>
    let command := store command ch
    some { s with
      server := if ch = newline then .handling command else .reading command
      requests := { s.requests with arrived } }
  | .reading command, [] =>
    if s.requests.inFlight = [] ∧ s.client = .exited then
      some { s with server := if command = [] then .closed else .handling command }
    else none
  | _, _ => none

/-- `handle_command` and the `write` of its result. -/
def Session.handles (s : Session) (block : Option (ℕ × KvDsa)) : Option Session :=
  match s.server with
  | .handling command =>
    if ∀ x ∈ block, x.1 ∉ s.heap then
      match handle_command (fun _ => block) s.heap s.kv (command ++ [0]) with
      | .ok (_, result, heap) =>
        some { s with
          server := .reading []
          replies := s.replies.write result
          heap
          handled := s.handled ++ [(cstr command, result)] }
      | .error crash => some { s with server := .crashed crash }
    else none
  | _ => none

/-- The server has closed its end of the connection. -/
def ServerPc.Closed : ServerPc → Prop
  | .closed | .crashed _ => True
  | _ => False

instance : (pc : ServerPc) → Decidable pc.Closed
  | .closed | .crashed _ => isTrue trivial
  | .reading _ | .handling _ => isFalse id

/-- The next `read` in the `readLine` of the client. -/
def Session.clientReads (s : Session) : Option Session :=
  match s.client, s.replies.arrived with
  | .awaiting bufline, ch :: arrived =>
    let bufline := store bufline ch
    some { s with
      client := if ch = newline then .enter else .awaiting bufline
      replies := { s.replies with arrived }
      printed := if ch = newline then s.printed ++ [cstr bufline] else s.printed }
  | .awaiting bufline, [] =>
    if s.replies.inFlight = [] ∧ s.server.Closed then
      if bufline = [] then some { s with client := .exited }
      else some { s with client := .enter, printed := s.printed ++ [cstr bufline] }
    else none
  | _, _ => none

/-- The step function. -/
def Session.step (s : Session) : Event → Option Session
  | .typed line => s.typed line
  | .toServer k => some { s with requests := s.requests.deliver k }
  | .toClient k => some { s with replies := s.replies.deliver k }
  | .serverReads => s.serverReads
  | .handles block => s.handles block
  | .clientReads => s.clientReads

/-- A client has connected to a server with the list at `kv`. -/
def Session.init (heap : Heap KvDsa) (kv : ℕ) : Session where
  client := .idle
  server := .reading []
  requests := ⟨[], []⟩
  replies := ⟨[], []⟩
  kv := some kv
  heap
  accepted := []
  sent := []
  handled := []
  printed := []

/-- The client and the server. -/
def session (heap : Heap KvDsa) (kv : ℕ) : Machine Session Event := ⟨.init heap kv, Session.step⟩

end TlpiLearn.KeyValue
