import TlpiLearn.Foundations.Constants
import TlpiLearn.Foundations.Machine
import Mathlib.Tactic

/-!
# From a message queue to the terminal

`63/3/sv.c`: a child copies the bodies of the messages of a queue into a pipe, and the parent copies
what it reads from the pipe, and a newline behind each piece, to its standard output; it does the
same, without the newline, for its standard input. A label is one call of either process, and the
timer of the child does not go off.

The pipe does not keep the boundaries of the bodies. The parent writes one line for each message as
long as each `read` of the pipe finds exactly one body, and one that is shorter than the buffer
(`OneAtATime`); a `read` that finds anything else goes wrong at once.
-/

namespace TlpiLearn.QueueBridge

/-- `MAXLINE`. -/
def MAXLINE : ℕ := 1024

/-- `MAX_MTEXT`. -/
def MAX_MTEXT : ℕ := 1024

/-- The body of a message. -/
structure Mtext where
  bytes : List UInt8
  pos : 0 < bytes.length
  le : bytes.length ≤ MAX_MTEXT

/-- The call of the child that comes next. -/
inductive ChildPc
  | msgrcv
  /-- `is_pipe_closed(pfd[1])` -/
  | isPipeClosed (msg : Mtext)
  | write (msg : Mtext)
  | exited

/-- The call of the parent that comes next. -/
inductive ParentPc
  | select
  /-- The branch of the terminal; `pipe` is whether the pipe is in the set as well. -/
  | readStdin (pipe : Bool)
  | readPipe
  /-- `exit(EXIT_SUCCESS)` behind the end of the terminal input. -/
  | exited
  /-- `exit(EXIT_SUCCESS)` behind the end of the pipe. -/
  | childGone
  /-- `errExit("overflow")`. -/
  | overflow
  deriving DecidableEq, Repr

/-- The parent runs. -/
def ParentPc.Alive : ParentPc → Prop
  | .select | .readStdin _ | .readPipe => True
  | .exited | .childGone | .overflow => False

instance : ∀ pc : ParentPc, Decidable pc.Alive
  | .select | .readStdin _ | .readPipe => isTrue trivial
  | .exited | .childGone | .overflow => isFalse id

/-- A `write` of the parent. -/
inductive Output
  | terminal (bytes : List UInt8)
  | queue (bytes : List UInt8)
  deriving DecidableEq, Repr

structure State where
  /-- The messages that the child has not received yet. -/
  queue : List Mtext
  child : ChildPc
  pipe : List UInt8
  parent : ParentPc
  stdout : List Output
  /-- The bodies that were written into the pipe. -/
  written : List Mtext
  /-- Those of them that were written since the parent last read the pipe. -/
  sinceRead : List Mtext

/-- A call of either process. -/
inductive Label
  | child
  /-- `select` returns; `stdin` is whether the terminal is ready. -/
  | select (stdin : Bool)
  /-- `read` of the terminal; nothing is the end of the input. -/
  | readStdin (bytes : List UInt8)
  | readPipe

/-- The loops begin. -/
def start (messages : List Mtext) : State where
  queue := messages
  child := .msgrcv
  pipe := []
  parent := .select
  stdout := []
  written := []
  sinceRead := []

/-- The child. A body fits into the atomic size of the pipe, so it is written whole; `capacity` is
that of the pipe. -/
def childStep (capacity : ℕ) (s : State) : Option State :=
  match s.child with
  | .msgrcv =>
    match s.queue with
    | [] => none
    | msg :: queue => some { s with child := .isPipeClosed msg, queue }
  | .isPipeClosed msg =>
    some { s with child := if s.parent.Alive then .write msg else .exited }
  | .write msg =>
    if ¬ s.parent.Alive then some { s with child := .exited }
    else if s.pipe.length + msg.bytes.length ≤ capacity then
      some { s with
        child := .msgrcv
        pipe := s.pipe ++ msg.bytes
        written := s.written ++ [msg]
        sinceRead := s.sinceRead ++ [msg] }
    else none
  | .exited => none

/-- The pipe can be read: it holds something, or nobody can write to it any more. -/
def State.pipeReady (s : State) : Bool :=
  !s.pipe.isEmpty || match s.child with
    | .exited => true
    | .msgrcv | .isPipeClosed _ | .write _ => false

/-- `select`, whose set is filled again before each call. -/
def selectStep (s : State) (stdin : Bool) : Option State :=
  if s.parent = .select then
    if stdin then some { s with parent := .readStdin s.pipeReady }
    else if s.pipeReady then some { s with parent := .readPipe }
    else none
  else none

/-- The branch of the terminal. -/
def readStdinStep (s : State) (bytes : List UInt8) : Option State :=
  match s.parent with
  | .readStdin pipe =>
    if bytes.length ≤ MAXLINE then
      if bytes.length = 0 then some { s with parent := .exited }
      else some { s with
        parent := if pipe then .readPipe else .select
        stdout := s.stdout ++ [.terminal bytes] }
    else none
  | _ => none

/-- The branch of the pipe. -/
def readPipeStep (s : State) : Option State :=
  if s.parent = .readPipe then
    let buf := s.pipe.take MAXLINE
    let s := { s with pipe := s.pipe.drop MAXLINE, sinceRead := [] }
    if buf.length = 0 then some { s with parent := .childGone }
    else if buf.length ≥ MAX_MTEXT then some { s with parent := .overflow }
    else some { s with parent := .select, stdout := s.stdout ++ [.queue (buf ++ [newline])] }
  else none

/-- The child and the parent in any order, with the messages that arrive and a pipe. -/
def machine (capacity : ℕ) (messages : List Mtext) : Machine State Label where
  init := start messages
  step s
    | .child => childStep capacity s
    | .select stdin => selectStep s stdin
    | .readStdin bytes => readStdinStep s bytes
    | .readPipe => readPipeStep s

/-! ## What is promised -/

/-- The bodies one after the other. -/
def bodies (l : List Mtext) : List UInt8 := l.flatMap Mtext.bytes

/-- The bodies, each with a newline. -/
def printed (l : List Mtext) : List UInt8 := l.flatMap fun m => m.bytes ++ [newline]

/-- What a `write` of the parent carries of the queue. -/
def Output.queueBytes : Output → List UInt8
  | .terminal _ => []
  | .queue bytes => bytes

/-- The output of the parent, restricted to the queue. -/
def State.queueData (s : State) : List UInt8 := s.stdout.flatMap Output.queueBytes

/-- The output is that of a first part of the messages, the rest of what was written is in the
pipe, and no message has stopped the parent. -/
structure Correct (messages : List Mtext) (s : State) : Prop where
  not_overflow : s.parent ≠ .overflow
  written_prefix : s.written <+: messages
  output : ∃ done rest, s.written = done ++ rest ∧ s.queueData = printed done ∧ s.pipe = bodies rest

/-- Each `read` of the pipe finds exactly one body, which is shorter than the buffer. -/
def OneAtATime (s : State) : Label → Prop
  | .readPipe => ∃ m, s.sinceRead = [m] ∧ m.bytes.length < MAX_MTEXT
  | _ => True

variable {messages : List Mtext} {capacity : ℕ} {s s' : State}

theorem bodies_append (l l' : List Mtext) : bodies (l ++ l') = bodies l ++ bodies l' :=
  List.flatMap_append

theorem printed_append (l l' : List Mtext) : printed (l ++ l') = printed l ++ printed l' :=
  List.flatMap_append

/-- Each body takes a newline more when it is printed. -/
theorem length_printed (l : List Mtext) : (printed l).length = (bodies l).length + l.length := by
  induction l with
  | nil => rfl
  | cons m l ih =>
    rw [printed, List.flatMap_cons, List.length_append, List.length_append, bodies,
      List.flatMap_cons, List.length_append, List.length_cons]
    rw [printed, bodies] at ih
    rw [ih, List.length_cons, List.length_nil]
    omega

theorem bodies_eq_nil {l : List Mtext} (h : bodies l = []) : l = [] := by
  cases l with
  | nil => rfl
  | cons m l =>
    rw [bodies, List.flatMap_cons, List.append_eq_nil_iff] at h
    have hpos := m.pos
    rw [h.1] at hpos
    exact absurd hpos (Nat.lt_irrefl 0)

/-! ## The invariant -/

/-- The message that the child has received and not written yet. -/
def ChildPc.inHand : ChildPc → List Mtext
  | .isPipeClosed msg | .write msg => [msg]
  | .msgrcv | .exited => []

/-- The parent goes to the pipe next. -/
def ParentPc.ToPipe : ParentPc → Prop
  | .readStdin pipe => pipe = true
  | .readPipe => True
  | .select | .exited | .childGone | .overflow => False

/-- What holds as long as the parent finds one body at a time. -/
structure Inv (messages : List Mtext) (s : State) : Prop where
  child : s.child = .exited ∧ s.written <+: messages ∨
    s.written ++ s.child.inHand ++ s.queue = messages
  exited : s.parent.Alive → s.child ≠ .exited
  not_overflow : s.parent ≠ .overflow
  toPipe : s.parent.ToPipe → s.sinceRead ≠ []
  output : ∃ done, s.written = done ++ s.sinceRead ∧ s.queueData = printed done
  pipe : s.pipe = bodies s.sinceRead

theorem Inv.written_prefix (h : Inv messages s) : s.written <+: messages := by
  rcases h.child with ⟨-, h⟩ | h
  · exact h
  · rw [← h, List.append_assoc]
    exact List.prefix_append _ _

theorem Inv.correct (h : Inv messages s) : Correct messages s := by
  rcases h.output with ⟨done, hwritten, hdata⟩
  exact ⟨h.not_overflow, h.written_prefix, done, s.sinceRead, hwritten, hdata, h.pipe⟩

theorem inv_start : Inv messages (start messages) where
  child := .inr rfl
  exited _ h := by cases h
  not_overflow h := by cases h
  toPipe h := h.elim
  output := ⟨[], rfl, rfl⟩
  pipe := rfl

theorem Inv.child_step (h : Inv messages s) (hs : childStep capacity s = some s') :
    Inv messages s' := by
  have hchild := h.child
  unfold childStep at hs
  split at hs
  case h_1 hpc =>
    rw [hpc] at hchild
    split at hs
    case h_1 => cases hs
    case h_2 msg queue hqueue =>
      obtain rfl := Option.some.inj hs
      rcases hchild with ⟨hfalse, -⟩ | hchild
      · cases hfalse
      · rw [hqueue] at hchild
        refine { h with child := .inr ?_, exited := fun _ hfalse => by cases hfalse }
        rw [← hchild]
        simp only [ChildPc.inHand, List.append_nil, List.append_assoc, List.singleton_append]
  case h_2 msg hpc =>
    rw [hpc] at hchild
    obtain rfl := Option.some.inj hs
    by_cases halive : s.parent.Alive
    · rw [if_pos halive]
      refine { h with child := .inr ?_, exited := fun _ hfalse => by cases hfalse }
      exact hchild.resolve_left fun hfalse => by cases hfalse.1
    · rw [if_neg halive]
      exact { h with
        child := .inl ⟨rfl, h.written_prefix⟩
        exited := fun hpos => absurd hpos halive }
  case h_3 msg hpc =>
    rw [hpc] at hchild
    split at hs
    case isTrue halive =>
      obtain rfl := Option.some.inj hs
      exact { h with
        child := .inl ⟨rfl, h.written_prefix⟩
        exited := fun hpos => absurd hpos halive }
    case isFalse =>
      rw [Option.ite_none_right_eq_some] at hs
      obtain rfl := Option.some.inj hs.2
      rcases h.output with ⟨done, hwritten, hdata⟩
      constructor
      · refine .inr ?_
        have heq := hchild.resolve_left fun hfalse => by cases hfalse.1
        rw [← heq]
        exact congrArg (· ++ s.queue) (List.append_nil _)
      · exact fun _ hfalse => by cases hfalse
      · exact h.not_overflow
      · exact fun _ => List.append_ne_nil_of_right_ne_nil _ (List.cons_ne_nil _ _)
      · exact ⟨done, by rw [hwritten, List.append_assoc], hdata⟩
      · rw [bodies_append, ← h.pipe]
        exact congrArg _ (List.append_nil _).symm
  case h_4 => cases hs

/-- The pipe is ready only when something was written into it. -/
theorem Inv.sinceRead_of_ready (h : Inv messages s) (halive : s.parent.Alive)
    (hready : s.pipeReady = true) : s.sinceRead ≠ [] := by
  intro hnil
  have hpipe : s.pipe = [] := by
    rw [h.pipe, hnil]
    rfl
  rw [State.pipeReady, hpipe] at hready
  have hexited := h.exited halive
  cases hpc : s.child with
  | msgrcv | isPipeClosed | write =>
    rw [hpc] at hready
    cases hready
  | exited => exact hexited hpc

theorem Inv.select_step (h : Inv messages s) {stdin : Bool} (hs : selectStep s stdin = some s') :
    Inv messages s' := by
  rw [selectStep, Option.ite_none_right_eq_some] at hs
  rcases hs with ⟨hpc, hs⟩
  have halive : s.parent.Alive := by
    rw [hpc]
    trivial
  split at hs
  case isTrue =>
    obtain rfl := Option.some.inj hs
    exact { h with
      exited := fun _ => h.exited halive
      not_overflow := fun hfalse => by cases hfalse
      toPipe := h.sinceRead_of_ready halive }
  case isFalse =>
    rw [Option.ite_none_right_eq_some] at hs
    obtain rfl := Option.some.inj hs.2
    exact { h with
      exited := fun _ => h.exited halive
      not_overflow := fun hfalse => by cases hfalse
      toPipe := fun _ => h.sinceRead_of_ready halive hs.1 }

theorem Inv.readStdin_step (h : Inv messages s) {bytes : List UInt8}
    (hs : readStdinStep s bytes = some s') : Inv messages s' := by
  unfold readStdinStep at hs
  split at hs
  case h_1 pipe hpc =>
    have halive : s.parent.Alive := by
      rw [hpc]
      trivial
    have htoPipe := h.toPipe
    rw [hpc] at htoPipe
    rw [Option.ite_none_right_eq_some] at hs
    rcases hs with ⟨-, hs⟩
    split at hs
    case isTrue =>
      obtain rfl := Option.some.inj hs
      exact { h with
        exited := fun hfalse => hfalse.elim
        not_overflow := fun hfalse => by cases hfalse
        toPipe := fun hfalse => hfalse.elim }
    case isFalse =>
      obtain rfl := Option.some.inj hs
      have hdata : ∀ done, s.queueData = printed done →
          (s.stdout ++ [Output.terminal bytes]).flatMap Output.queueBytes = printed done := by
        intro done hdone
        rw [List.flatMap_append, ← hdone]
        exact List.append_nil _
      rcases h.output with ⟨done, hwritten, hdone⟩
      refine
        { h with
          exited := fun _ => h.exited halive
          not_overflow := ?_
          toPipe := ?_
          output := ?_ }
      · cases pipe <;> exact fun hfalse => by cases hfalse
      · cases pipe with
        | true => exact fun _ => htoPipe rfl
        | false => exact fun hfalse => hfalse.elim
      · exact ⟨done, hwritten, hdata done hdone⟩
  case h_2 => cases hs

/-- What a `read` of the pipe does when it does not fill the buffer. -/
theorem readPipe_of_lt (hpc : s.parent = .readPipe) (hpos : s.pipe ≠ [])
    (hlt : s.pipe.length < MAX_MTEXT) :
    readPipeStep s = some { s with
      pipe := [], sinceRead := [], parent := .select
      stdout := s.stdout ++ [.queue (s.pipe ++ [newline])] } := by
  have htake : s.pipe.take MAXLINE = s.pipe := List.take_of_length_le hlt.le
  have hdrop : s.pipe.drop MAXLINE = [] := List.drop_of_length_le hlt.le
  rw [readPipeStep, if_pos hpc]
  simp only [htake, hdrop, List.length_eq_zero_iff, if_neg hpos, ge_iff_le, if_neg hlt.not_ge]

/-- A full buffer stops the parent. -/
theorem readPipe_of_ge (hge : MAX_MTEXT ≤ s.pipe.length) (hs : readPipeStep s = some s') :
    s'.parent = .overflow := by
  have hlen : (s.pipe.take MAXLINE).length = MAX_MTEXT := by
    rw [List.length_take]
    exact min_eq_left hge
  rw [readPipeStep, Option.ite_none_right_eq_some] at hs
  rcases hs with ⟨-, hs⟩
  simp only [hlen] at hs
  rw [if_neg (by decide), if_pos (by decide)] at hs
  obtain rfl := Option.some.inj hs
  rfl

theorem readPipe_pc (hs : readPipeStep s = some s') : s.parent = .readPipe := by
  rw [readPipeStep, Option.ite_none_right_eq_some] at hs
  exact hs.1

/-- What was written into the pipe is there. -/
theorem Inv.pipe_ne_nil (h : Inv messages s) (hpc : s.parent = .readPipe) : s.pipe ≠ [] := by
  have htoPipe := h.toPipe
  rw [hpc] at htoPipe
  rw [h.pipe]
  exact fun hnil => htoPipe trivial (bodies_eq_nil hnil)

theorem Inv.readPipe_step (h : Inv messages s) (hone : OneAtATime s .readPipe)
    (hs : readPipeStep s = some s') : Inv messages s' := by
  have hpc := readPipe_pc hs
  rcases hone with ⟨m, hsince, hlt⟩
  have hpipe : s.pipe = m.bytes := by
    rw [h.pipe, hsince]
    exact List.append_nil _
  rw [readPipe_of_lt hpc (h.pipe_ne_nil hpc) (hpipe ▸ hlt)] at hs
  obtain rfl := Option.some.inj hs
  rcases h.output with ⟨done, hwritten, hdata⟩
  constructor
  · exact h.child
  · exact fun _ => h.exited (by rw [hpc]; trivial)
  · exact fun hfalse => by cases hfalse
  · exact fun hfalse => hfalse.elim
  · refine ⟨done ++ [m], by rw [hwritten, hsince, List.append_nil], ?_⟩
    rw [printed_append, ← hdata, State.queueData, List.flatMap_append, hpipe]
    rfl
  · rfl

theorem Inv.step (h : Inv messages s) {l : Label} (hone : OneAtATime s l)
    (hs : (machine capacity messages).step s l = some s') : Inv messages s' := by
  cases l with
  | child => exact h.child_step hs
  | select stdin => exact h.select_step hs
  | readStdin bytes => exact h.readStdin_step hs
  | readPipe => exact h.readPipe_step hone hs

theorem inv_of_run (hs : (machine capacity messages).ReachableBy OneAtATime s) : Inv messages s :=
  hs.invariant inv_start fun _ _ _ h hone hstep => h.step hone hstep

/-! ## The condition is needed -/

/-- A `read` of the pipe that does not find one short body goes wrong. -/
theorem Inv.not_correct (h : Inv messages s) (hbad : ¬ OneAtATime s .readPipe)
    (hs : readPipeStep s = some s') : ¬ Correct messages s' := by
  intro hgood
  have hpc := readPipe_pc hs
  rcases lt_or_ge s.pipe.length MAX_MTEXT with hlt | hge
  · rw [readPipe_of_lt hpc (h.pipe_ne_nil hpc) hlt] at hs
    obtain rfl := Option.some.inj hs
    rcases hgood.output with ⟨done', rest, hwritten', hdata', hpipe'⟩
    rcases h.output with ⟨done, hwritten, hdata⟩
    obtain rfl : rest = [] := bodies_eq_nil hpipe'.symm
    -- one newline was printed for all the bodies that were in the pipe
    have hall :
        printed (done ++ s.sinceRead) = printed done ++ (bodies s.sinceRead ++ [newline]) := by
      have hdone : done' = done ++ s.sinceRead := by
        rw [← hwritten, ← List.append_nil done', ← hwritten']
      rw [← hdone, ← hdata', ← hdata, ← h.pipe, State.queueData, State.queueData,
        List.flatMap_append, List.flatMap_singleton]
      rfl
    rw [printed_append] at hall
    have hlen := congrArg List.length (List.append_cancel_left hall)
    rw [length_printed, List.length_append, List.length_singleton] at hlen
    rcases List.length_eq_one_iff.1 (Nat.add_left_cancel hlen) with ⟨m, hm⟩
    apply hbad
    refine ⟨m, hm, ?_⟩
    rw [h.pipe, hm] at hlt
    rwa [bodies, List.flatMap_singleton] at hlt
  · exact hgood.not_overflow (readPipe_of_ge hge hs)

/-- **The bridge** prints one line for each message, in order, and is stopped by none, in every run
in which each `read` of the pipe finds exactly one body, shorter than the buffer; when the queue,
the child and the pipe are empty, all messages are printed. A `read` that finds anything else goes
wrong at once. -/
theorem bridge (capacity : ℕ) (messages : List Mtext) :
    (∀ s, (machine capacity messages).ReachableBy OneAtATime s → Correct messages s ∧
      (s.queue = [] → s.child = .msgrcv → s.pipe = [] → s.queueData = printed messages)) ∧
      ∀ s l s', (machine capacity messages).ReachableBy OneAtATime s → ¬ OneAtATime s l →
        (machine capacity messages).step s l = some s' → ¬ Correct messages s' := by
  refine ⟨fun s hs => ⟨(inv_of_run hs).correct, ?_⟩, fun s l s' hs hbad hstep => ?_⟩
  · intro hqueue hchild hpipe
    have h := inv_of_run hs
    rcases h.output with ⟨done, hwritten, hdata⟩
    rw [bodies_eq_nil (h.pipe.symm.trans hpipe), List.append_nil] at hwritten
    have hall := h.child
    rw [hchild, hqueue, List.append_nil, hwritten] at hall
    rcases hall with ⟨hfalse, -⟩ | hall
    · cases hfalse
    · rw [hdata, ← hall]
      exact congrArg printed (List.append_nil done).symm
  · cases l with
    | readPipe => exact (inv_of_run hs).not_correct hbad hstep
    | child | select | readStdin => exact absurd trivial hbad

/-- The message of one byte. -/
def byteMsg (b : UInt8) : Mtext := ⟨[b], Nat.zero_lt_one, Nat.le_of_ble_eq_true rfl⟩

/-- Two messages are in the pipe when the parent reads it: they come out on one line. -/
theorem two_messages_one_line :
    ¬ ∀ messages s, (machine 65536 messages).Reachable s → Correct messages s := by
  intro h
  have hrun : ∃ s, (machine 65536 [byteMsg 97, byteMsg 98]).run (start [byteMsg 97, byteMsg 98])
      [.child, .child, .child, .child, .child, .child, .select false, .readPipe] = some s ∧
      s.written = [byteMsg 97, byteMsg 98] ∧ s.queueData = [97, 98, 10] ∧ s.pipe = [] :=
    ⟨_, rfl, rfl, rfl, rfl⟩
  rcases hrun with ⟨s, hrun, hwritten, hdata, hpipe⟩
  rcases (h _ s (.run .init _ hrun)).output with ⟨done, rest, hsplit, hprinted, hrest⟩
  obtain rfl : rest = [] := bodies_eq_nil (hrest.symm.trans hpipe)
  rw [hwritten, List.append_nil] at hsplit
  rw [hdata, ← hsplit] at hprinted
  exact absurd hprinted (by decide)

end TlpiLearn.QueueBridge
