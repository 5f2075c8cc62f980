import TlpiLearn.Foundations.Machine
import TlpiLearn.Foundations.Intervals
import Mathlib.Tactic

/-!
# Terminating the sequence-number server between two statements

The handler of `SIGINT` and `SIGTERM` can run between any two statements of the request loop of
`44_3456/fifo_seqnum_server.c` and `44_4.c` and exits the process; the server may then be started
again. Here a save is an atomic overwrite of the stored number, and the steps are the statements.

The loop writes the response before it advances and saves the counter. A termination that does not
fall between a delivered response and its save keeps all intervals that were ever sent disjoint
(`sent_disjoint`); one that does makes the next server send the same numbers again
(`terminate_unsaved_overlaps`).
-/

namespace TlpiLearn.FifoSeqnum.Termination

/-- The save file, seen as a number. -/
inductive Stored
  | absent
  /-- Created by `open(..., O_CREAT | O_RDWR | O_SYNC, 0666)` and not yet written. -/
  | empty
  | saved (n : ℤ)
  deriving DecidableEq, Repr

/-- The number that the next server to start will use. -/
def Stored.value : Stored → ℤ
  | .saved n => n
  | _ => 0

/-- Where the server is. The handler is installed from `starting` on. -/
inductive Pc
  /-- No server is running. -/
  | down
  /-- Before `open(SAVE_FILE_PATH, O_RDWR | O_SYNC)`. -/
  | starting
  /-- After the `open` that creates the file, before the first `write`. -/
  | creating
  /-- Top of the request loop. -/
  | top
  /-- A request for `n` numbers was read; before `open` of the client FIFO. -/
  | opening (n : ℤ)
  /-- Before `write(clientFd, &resp, sizeof(struct response))`. -/
  | responding (n : ℤ)
  /-- Before `close(clientFd)`; `delivered` tells whether the `write` succeeded. -/
  | closing (n : ℤ) (delivered : Bool)
  /-- Before `seqNum += req.seqLen`. -/
  | advancing (n : ℤ) (delivered : Bool)
  /-- Before `write(save_fd, &seqNum, sizeof(seqNum))`. -/
  | saving (delivered : Bool)
  deriving DecidableEq, Repr

/-- The server, its save file and the intervals that its clients were sent. -/
structure State where
  pc : Pc
  stored : Stored
  seqNum : ℤ
  sent : List (Span ℤ)
  deriving DecidableEq, Repr

/-- A statement of the server with the outcome of its call, or what happens to the process. -/
inductive Label
  | start
  | load
  | create
  /-- `read` of a request; `none` when it is not a whole request and is discarded. -/
  | readRequest (seqLen : Option ℤ)
  | openClient (ok : Bool)
  | respond (delivered : Bool)
  | close
  | advance
  | save
  /-- The handler runs: `unlink(SERVER_FIFO); exit(EXIT_SUCCESS)`. -/
  | terminate
  deriving DecidableEq, Repr

/-- The steps. Requests are for a positive number of numbers, and the counter does not overflow. -/
def step (s : State) : Label → Option State
  | .start => if s.pc = .down then some { s with pc := .starting } else none
  | .load =>
    if s.pc = .starting then
      match s.stored with
      | .absent => some { s with pc := .creating, stored := .empty }
      | .empty => some { s with pc := .down }
      | .saved n => some { s with pc := .top, seqNum := n }
    else none
  | .create =>
    if s.pc = .creating then some { s with pc := .top, stored := .saved 0, seqNum := 0 } else none
  | .readRequest none => if s.pc = .top then some s else none
  | .readRequest (some n) => if s.pc = .top ∧ 0 < n then some { s with pc := .opening n } else none
  | .openClient ok =>
    match s.pc with
    | .opening n => some { s with pc := if ok then .responding n else .top }
    | _ => none
  | .respond delivered =>
    match s.pc with
    | .responding n =>
      some { s with
        pc := .closing n delivered
        sent := if delivered then s.sent ++ [⟨s.seqNum, n⟩] else s.sent }
    | _ => none
  | .close =>
    match s.pc with
    | .closing n delivered => some { s with pc := .advancing n delivered }
    | _ => none
  | .advance =>
    match s.pc with
    | .advancing n delivered => some { s with pc := .saving delivered, seqNum := s.seqNum + n }
    | _ => none
  | .save =>
    match s.pc with
    | .saving _ => some { s with pc := .top, stored := .saved s.seqNum }
    | _ => none
  | .terminate => if s.pc ≠ .down then some { s with pc := .down } else none

/-- The server, started with a given save file. -/
def server (stored : Stored) : Machine State Label := ⟨⟨.down, stored, 0, []⟩, step⟩

/-- A response was delivered whose numbers are not yet saved. -/
def Pc.unsaved : Pc → Bool
  | .closing _ delivered | .advancing _ delivered | .saving delivered => delivered
  | _ => false

/-- The condition on a step: the handler does not run between a delivered response and its
save. -/
def TerminatesSaved (s : State) (l : Label) : Prop := l = .terminate → s.pc.unsaved = false

variable {base : ℤ} {s s' : State} {l : Label}

/-! ## The statements between a request and its save -/

theorem step_openClient {ok : Bool} (h : step s (.openClient ok) = some s') :
    ∃ n, s.pc = .opening n ∧ s' = { s with pc := if ok then .responding n else .top } := by
  simp only [step] at h
  split at h
  next n hpc => exact ⟨n, hpc, (Option.some.inj h).symm⟩
  next => cases h

theorem step_respond {delivered : Bool} (h : step s (.respond delivered) = some s') :
    ∃ n, s.pc = .responding n ∧ s' = { s with
      pc := .closing n delivered
      sent := if delivered then s.sent ++ [⟨s.seqNum, n⟩] else s.sent } := by
  simp only [step] at h
  split at h
  next n hpc => exact ⟨n, hpc, (Option.some.inj h).symm⟩
  next => cases h

theorem step_close (h : step s .close = some s') :
    ∃ n delivered, s.pc = .closing n delivered ∧ s' = { s with pc := .advancing n delivered } := by
  simp only [step] at h
  split at h
  next n delivered hpc => exact ⟨n, delivered, hpc, (Option.some.inj h).symm⟩
  next => cases h

theorem step_advance (h : step s .advance = some s') :
    ∃ n delivered, s.pc = .advancing n delivered ∧
      s' = { s with pc := .saving delivered, seqNum := s.seqNum + n } := by
  simp only [step] at h
  split at h
  next n delivered hpc => exact ⟨n, delivered, hpc, (Option.some.inj h).symm⟩
  next => cases h

theorem step_save (h : step s .save = some s') :
    ∃ delivered, s.pc = .saving delivered ∧
      s' = { s with pc := .top, stored := .saved s.seqNum } := by
  simp only [step] at h
  split at h
  next delivered hpc => exact ⟨delivered, hpc, (Option.some.inj h).symm⟩
  next => cases h

/-! ## The invariant -/

/-- The first number that no interval sent so far contains: the stored one, or the counter after
the request whose numbers are not yet saved. -/
def State.bound (s : State) : ℤ :=
  match s.pc with
  | .closing n true | .advancing n true => s.seqNum + n
  | .saving true => s.seqNum
  | _ => s.stored.value

/-- What is known of the counter at each statement. -/
def State.CounterOk (s : State) : Prop :=
  match s.pc with
  | .down | .starting => True
  | .creating => s.stored = .empty
  | .top => s.stored = .saved s.seqNum
  | .opening n | .responding n | .closing n _ | .advancing n _ =>
    s.stored = .saved s.seqNum ∧ 0 < n
  | .saving _ => s.stored.value ≤ s.seqNum

/-- The invariant of the server: the intervals sent are stacked below the bound. -/
structure Inv (base : ℤ) (s : State) : Prop where
  stacked : Stacked base s.sent s.bound
  counter : s.CounterOk

theorem Inv.respond (h : Inv base s) {n : ℤ} (hpc : s.pc = .responding n) (delivered : Bool) :
    Inv base { s with
      pc := .closing n delivered
      sent := if delivered then s.sent ++ [⟨s.seqNum, n⟩] else s.sent } := by
  obtain ⟨hst, hc⟩ := h
  simp only [State.CounterOk, State.bound, hpc] at hst hc
  obtain ⟨hsaved, hn⟩ := hc
  cases delivered with
  | false => exact ⟨hst, hsaved, hn⟩
  | true =>
    rw [hsaved] at hst
    have hnew : Stacked base (s.sent ++ [⟨s.seqNum, n⟩]) (s.seqNum + n) := hst.snoc le_rfl hn
    exact ⟨hnew, hsaved, hn⟩

theorem Inv.advance (h : Inv base s) {n : ℤ} {delivered : Bool}
    (hpc : s.pc = .advancing n delivered) :
    Inv base { s with pc := .saving delivered, seqNum := s.seqNum + n } := by
  obtain ⟨hst, hc⟩ := h
  simp only [State.CounterOk, State.bound, hpc] at hst hc
  obtain ⟨hsaved, hn⟩ := hc
  have hle : s.stored.value ≤ s.seqNum + n := by
    rw [hsaved]
    show s.seqNum ≤ s.seqNum + n
    omega
  cases delivered with
  | false => exact ⟨hst, hle⟩
  | true => exact ⟨hst, hle⟩

theorem Inv.save (h : Inv base s) {delivered : Bool} (hpc : s.pc = .saving delivered) :
    Inv base { s with pc := .top, stored := .saved s.seqNum } := by
  obtain ⟨hst, hc⟩ := h
  simp only [State.CounterOk, State.bound, hpc] at hst hc
  cases delivered with
  | false =>
    have hraise : Stacked base s.sent s.seqNum := hst.mono hc
    exact ⟨hraise, rfl⟩
  | true => exact ⟨hst, rfl⟩

theorem Inv.terminate (h : Inv base s) (hsaved : s.pc.unsaved = false) :
    Inv base { s with pc := .down } := by
  refine ⟨?_, trivial⟩
  have hst := h.stacked
  show Stacked base s.sent s.stored.value
  cases hpc : s.pc with
  | down | starting | creating | top | opening | responding =>
    simpa only [State.bound, hpc] using hst
  | closing n delivered | advancing n delivered | saving delivered =>
    rw [hpc] at hsaved
    obtain rfl : delivered = false := hsaved
    simpa only [State.bound, hpc] using hst

/-- **Every step keeps the invariant**, unless the handler runs between a delivered response and
its save. -/
theorem Inv.step (h : Inv base s) (hok : TerminatesSaved s l) (hs : step s l = some s') :
    Inv base s' := by
  cases l with
  | start =>
    simp only [Termination.step, Option.ite_none_right_eq_some, Option.some.injEq] at hs
    obtain ⟨hpc, rfl⟩ := hs
    exact ⟨by simpa only [State.bound, hpc] using h.stacked, trivial⟩
  | load =>
    simp only [Termination.step, Option.ite_none_right_eq_some] at hs
    obtain ⟨hpc, hs⟩ := hs
    have hst := h.stacked
    simp only [State.bound, hpc] at hst
    cases hstored : s.stored with
    | absent =>
      simp only [hstored, Option.some.injEq] at hs hst
      exact hs ▸ ⟨hst, rfl⟩
    | empty =>
      simp only [hstored, Option.some.injEq] at hs hst
      exact hs ▸ ⟨by simpa only [State.bound, hstored] using hst, trivial⟩
    | saved n =>
      simp only [hstored, Option.some.injEq] at hs hst
      exact hs ▸ ⟨by simpa only [State.bound, hstored] using hst, rfl⟩
  | create =>
    simp only [Termination.step, Option.ite_none_right_eq_some, Option.some.injEq] at hs
    obtain ⟨hpc, rfl⟩ := hs
    obtain ⟨hst, hc⟩ := h
    simp only [State.CounterOk, State.bound, hpc] at hst hc
    rw [hc] at hst
    exact ⟨hst, rfl⟩
  | readRequest seqLen =>
    cases seqLen with
    | none =>
      simp only [Termination.step, Option.ite_none_right_eq_some, Option.some.injEq] at hs
      obtain ⟨-, rfl⟩ := hs
      exact h
    | some n =>
      simp only [Termination.step, Option.ite_none_right_eq_some, Option.some.injEq] at hs
      obtain ⟨⟨hpc, hn⟩, rfl⟩ := hs
      obtain ⟨hst, hc⟩ := h
      simp only [State.CounterOk, State.bound, hpc] at hst hc
      exact ⟨hst, hc, hn⟩
  | openClient ok =>
    obtain ⟨n, hpc, rfl⟩ := step_openClient hs
    obtain ⟨hst, hc⟩ := h
    simp only [State.CounterOk, State.bound, hpc] at hst hc
    cases ok with
    | false => exact ⟨hst, hc.1⟩
    | true => exact ⟨hst, hc⟩
  | respond delivered =>
    obtain ⟨n, hpc, rfl⟩ := step_respond hs
    exact h.respond hpc delivered
  | close =>
    obtain ⟨n, delivered, hpc, rfl⟩ := step_close hs
    obtain ⟨hst, hc⟩ := h
    simp only [State.CounterOk, State.bound, hpc] at hst hc
    cases delivered <;> exact ⟨hst, hc⟩
  | advance =>
    obtain ⟨n, delivered, hpc, rfl⟩ := step_advance hs
    exact h.advance hpc
  | save =>
    obtain ⟨delivered, hpc, rfl⟩ := step_save hs
    exact h.save hpc
  | terminate =>
    simp only [Termination.step, Option.ite_none_right_eq_some, Option.some.injEq] at hs
    obtain ⟨-, rfl⟩ := hs
    exact h.terminate (hok rfl)

theorem inv_reachable {stored : Stored} (h : (server stored).ReachableBy TerminatesSaved s) :
    Inv stored.value s :=
  h.invariant ⟨le_rfl, trivial⟩ fun _ _ _ hs hok hst => hs.step hok hst

/-- **No number is sent twice** in any run, over any number of restarts, in which the handler never
runs between a delivered response and its save. -/
theorem sent_disjoint (stored : Stored) (s : State)
    (h : (server stored).ReachableBy TerminatesSaved s) :
    s.sent.Pairwise fun g g' => Disjoint g.toSet g'.toSet :=
  (inv_reachable h).stacked.pairwise_disjoint

theorem terminatesSaved_of_notMem {ls : List Label} (h : .terminate ∉ ls) (s : State) :
    ∀ l ∈ ls, TerminatesSaved s l := fun _ hl e => absurd (e ▸ hl) h

/-- A request is answered and saved, the server is terminated and restarted, and answers again. -/
theorem sent_disjoint_restarted :
    ∃ s, (server .absent).ReachableBy TerminatesSaved s ∧ s.sent = [⟨0, 5⟩, ⟨5, 2⟩] ∧
      s.sent.Pairwise fun g g' => Disjoint g.toSet g'.toSet := by
  have hreach : (server .absent).ReachableBy TerminatesSaved
      ⟨.closing 2 true, .saved 5, 5, [⟨0, 5⟩, ⟨5, 2⟩]⟩ := by
    have h : (server .absent).ReachableBy TerminatesSaved ⟨.top, .saved 5, 5, [⟨0, 5⟩]⟩ :=
      Machine.ReachableBy.run .init [.start, .load, .create, .readRequest (some 5),
        .openClient true, .respond true, .close, .advance, .save]
        (terminatesSaved_of_notMem (by decide)) rfl
    have h' : (server .absent).ReachableBy TerminatesSaved ⟨.down, .saved 5, 5, [⟨0, 5⟩]⟩ :=
      h.step (l := .terminate) (fun _ => rfl) rfl
    exact Machine.ReachableBy.run h' [.start, .load, .readRequest (some 2), .openClient true,
      .respond true] (terminatesSaved_of_notMem (by decide)) rfl
  exact ⟨_, hreach, rfl, sent_disjoint .absent _ hreach⟩

/-! ## What a termination in between does -/

/-- While a delivered response is not saved, the file holds its first number. -/
def State.Exposed (s : State) : Prop :=
  s.pc.unsaved = true → ∃ v n, s.stored = .saved v ∧ 0 < n ∧ ⟨v, n⟩ ∈ s.sent

theorem Exposed.step (h : s.Exposed) (hc : s.CounterOk) (hs : step s l = some s') :
    s'.Exposed := by
  intro hu
  cases l with
  | start | create | terminate =>
    simp only [Termination.step, Option.ite_none_right_eq_some, Option.some.injEq] at hs
    obtain ⟨-, rfl⟩ := hs
    cases hu
  | load =>
    simp only [Termination.step, Option.ite_none_right_eq_some] at hs
    obtain ⟨-, hs⟩ := hs
    cases hstored : s.stored <;> simp only [hstored, Option.some.injEq] at hs <;>
      exact absurd hu (hs ▸ Bool.false_ne_true)
  | readRequest seqLen =>
    cases seqLen with
    | none =>
      simp only [Termination.step, Option.ite_none_right_eq_some, Option.some.injEq] at hs
      obtain ⟨-, rfl⟩ := hs
      exact h hu
    | some n =>
      simp only [Termination.step, Option.ite_none_right_eq_some, Option.some.injEq] at hs
      obtain ⟨-, rfl⟩ := hs
      cases hu
  | openClient ok =>
    obtain ⟨n, hpc, rfl⟩ := step_openClient hs
    cases ok <;> cases hu
  | respond delivered =>
    obtain ⟨n, hpc, rfl⟩ := step_respond hs
    obtain rfl : delivered = true := hu
    simp only [State.CounterOk, hpc] at hc
    exact ⟨s.seqNum, n, hc.1, hc.2, List.mem_append_right _ (List.mem_singleton.mpr rfl)⟩
  | close =>
    obtain ⟨n, delivered, hpc, rfl⟩ := step_close hs
    exact h (by rw [hpc]; exact hu)
  | advance =>
    obtain ⟨n, delivered, hpc, rfl⟩ := step_advance hs
    exact h (by rw [hpc]; exact hu)
  | save =>
    obtain ⟨delivered, hpc, rfl⟩ := step_save hs
    cases hu

/-- **The condition is needed**: terminated between a delivered response and its save, the server
can be restarted and send the same number to the next client. -/
theorem terminate_unsaved_overlaps {stored : Stored}
    (h : (server stored).ReachableBy TerminatesSaved s) (hu : s.pc.unsaved = true) :
    ∃ ls s', (server stored).run s (.terminate :: ls) = some s' ∧
      ¬ s'.sent.Pairwise fun g g' => Disjoint g.toSet g'.toSet := by
  have hexp : s.Exposed := Machine.ReachableBy.invariant_of
    (fun _ hs => (inv_reachable hs).counter) h (by intro hu; cases hu)
    fun _ _ _ hs hc _ hst => Exposed.step hs hc hst
  obtain ⟨v, n, hstored, hn, hmem⟩ := hexp hu
  have hup : s.pc ≠ .down := by
    intro hpc
    rw [hpc] at hu
    cases hu
  refine ⟨[.start, .load, .readRequest (some 1), .openClient true, .respond true],
    ⟨.closing 1 true, s.stored, v, s.sent ++ [⟨v, 1⟩]⟩, ?_, fun hpw => ?_⟩
  · simp [Machine.run, server, Termination.step, hup, hstored]
  · have hdisj := (List.pairwise_append.mp hpw).2.2 _ hmem _ (List.mem_singleton.mpr rfl)
    exact Set.disjoint_left.mp hdisj ⟨le_rfl, show v < v + n by omega⟩
      ⟨le_rfl, show v < v + 1 by omega⟩

/-- Terminated right after its first response, the server sends the same numbers again. -/
theorem terminated_server_repeats :
    ∃ s, (server .absent).Reachable s ∧
      ¬ s.sent.Pairwise fun g g' => Disjoint g.toSet g'.toSet := by
  refine ⟨⟨.closing 5 true, .saved 0, 0, [⟨0, 5⟩, ⟨0, 5⟩]⟩, ?_, ?_⟩
  · exact Machine.Reachable.run .init [.start, .load, .create, .readRequest (some 5),
      .openClient true, .respond true, .terminate, .start, .load, .readRequest (some 5),
      .openClient true, .respond true] rfl
  · rw [List.pairwise_pair]
    intro hdisj
    have h0 : (0 : ℤ) ∈ Span.toSet ⟨0, 5⟩ := ⟨le_rfl, by decide⟩
    exact Set.disjoint_left.mp hdisj h0 h0

end TlpiLearn.FifoSeqnum.Termination
