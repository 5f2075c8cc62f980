import TlpiLearn.Foundations.Machine
import Mathlib.Data.List.Perm.Basic
import Mathlib.Tactic

/-!
# Queues that notify once

A queue of messages for which a process may register: the next message that finds the queue empty
takes the registration away and is notified (`NotifyQueue.send`). The messages stand in the order of
their priority.

A reader that is notified has to register again, and then to receive until the queue is empty. The
machine `Drain` does so with any number of rounds at the same time; while a registration stands and
no round is under way, the queue is empty (`Drain.Inv.read_perm`).
-/

namespace TlpiLearn

/-- The messages, and whether a process has registered for a notification. -/
structure NotifyQueue (α : Type*) where
  msgs : List α
  registered : Bool
  deriving DecidableEq, Repr

namespace NotifyQueue

variable {α : Type*} {maxmsg : ℕ} {priority : α → ℕ} {q q' : NotifyQueue α} {a : α} {notifies : Bool}

/-- Behind the messages that do not have a lower priority. -/
def insert (priority : α → ℕ) (a : α) (l : List α) : List α :=
  l.takeWhile (priority a ≤ priority ·) ++ a :: l.dropWhile (priority a ≤ priority ·)

theorem insert_perm (l : List α) : (insert priority a l).Perm (a :: l) := by
  refine List.perm_middle.trans (List.Perm.cons a ?_)
  rw [List.takeWhile_append_dropWhile]

/-- The queue after a message, and whether the registered process is notified; `none` while the
queue is full. -/
def send (maxmsg : ℕ) (priority : α → ℕ) (q : NotifyQueue α) (a : α) :
    Option (NotifyQueue α × Bool) :=
  if q.msgs.length < maxmsg then
    some ({ msgs := insert priority a q.msgs, registered := q.registered && !q.msgs.isEmpty },
      q.registered && q.msgs.isEmpty)
  else none

/-- The registration; `none` is `EBUSY`. -/
def register (q : NotifyQueue α) : Option (NotifyQueue α) :=
  if q.registered then none else some { q with registered := true }

/-- The first message and the queue without it; `none` is `EAGAIN`. -/
def receive (q : NotifyQueue α) : Option (α × NotifyQueue α) :=
  match q.msgs with
  | [] => none
  | a :: l => some (a, { q with msgs := l })

/-- **What a send does**: the message is added, and the registration stands, or it has turned into
a notification. -/
theorem send_eq_some (h : q.send maxmsg priority a = some (q', notifies)) :
    q.msgs.length < maxmsg ∧ q'.msgs.Perm (a :: q.msgs) ∧
      q'.registered.toNat + notifies.toNat = q.registered.toNat ∧
      (q'.registered = true → q.msgs ≠ []) ∧
      (notifies = true → q.registered = true ∧ q.msgs = []) := by
  rw [send, Option.ite_none_right_eq_some] at h
  obtain ⟨hlt, h⟩ := h
  obtain ⟨rfl, rfl⟩ := Prod.mk.inj (Option.some.inj h)
  refine ⟨hlt, insert_perm _, ?_, ?_, ?_⟩
  · cases q.registered <;> cases q.msgs.isEmpty <;> rfl
  · intro hreg hnil
    simp [hnil] at hreg
  · simp

theorem register_eq_some :
    q.register = some q' ↔ q.registered = false ∧ q' = { q with registered := true } := by
  rw [register]
  cases q.registered <;> simp [eq_comm]

theorem receive_eq_some : q.receive = some (a, q') ↔
    q.msgs = a :: q'.msgs ∧ q'.registered = q.registered := by
  obtain ⟨l, r⟩ := q
  obtain ⟨l', r'⟩ := q'
  rw [receive]
  cases l with
  | nil => simp
  | cons b l => simp [and_assoc, eq_comm]

theorem receive_eq_none : q.receive = none ↔ q.msgs = [] := by
  rw [receive]
  cases q.msgs <;> simp

end NotifyQueue

/-! ## Rounds of receiving -/

/-- The queue, and the rounds of receiving that are under way. -/
structure Drain (α : Type*) where
  queue : NotifyQueue α
  rounds : ℕ
  /-- What was sent. -/
  sent : List α
  /-- What was received. -/
  read : List α

namespace Drain

variable {α : Type*} (maxmsg : ℕ) (priority : α → ℕ)

inductive Label (α : Type*)
  | send (a : α)
  /-- A registration, with which a round begins. -/
  | register
  | receive
  /-- The queue is empty, and a round ends. -/
  | finish

def step (d : Drain α) : Label α → Option (Drain α)
  | .send a =>
    (d.queue.send maxmsg priority a).map fun r => { d with queue := r.1, sent := d.sent ++ [a] }
  | .register => d.queue.register.map fun q => { d with queue := q, rounds := d.rounds + 1 }
  | .receive =>
    if 0 < d.rounds then
      d.queue.receive.map fun r => { d with queue := r.2, read := d.read ++ [r.1] }
    else none
  | .finish =>
    if 0 < d.rounds ∧ d.queue.msgs = [] then some { d with rounds := d.rounds - 1 } else none

def machine (d : Drain α) : Machine (Drain α) (Label α) := ⟨d, step maxmsg priority⟩

/-- Nothing is lost, and nobody waits in vain. -/
structure Inv (d : Drain α) : Prop where
  perm : (d.read ++ d.queue.msgs).Perm d.sent
  watched : d.queue.registered = true → d.rounds = 0 → d.queue.msgs = []

variable {maxmsg priority} {d d' : Drain α}

theorem Inv.step (h : Inv d) {l : Label α} (hst : d.step maxmsg priority l = some d') :
    Inv d' := by
  cases l with
  | send a =>
    obtain ⟨⟨q, notifies⟩, hsend, rfl⟩ := Option.map_eq_some_iff.1 hst
    obtain ⟨-, hperm, htoken, hne, -⟩ := NotifyQueue.send_eq_some hsend
    constructor
    · calc
        (d.read ++ q.msgs).Perm (d.read ++ a :: d.queue.msgs) := hperm.append_left _
        _ |>.Perm (a :: (d.read ++ d.queue.msgs)) := List.perm_middle
        _ |>.Perm (a :: d.sent) := h.perm.cons a
        _ |>.Perm (d.sent ++ [a]) := (List.perm_append_singleton a d.sent).symm
    · intro hreg hrounds
      have hreg' : d.queue.registered = true := by
        by_contra hreg'
        rw [Bool.not_eq_true] at hreg'
        have hq : q.registered = true := hreg
        rw [hq, hreg'] at htoken
        simp at htoken
      exact absurd (h.watched hreg' hrounds) (hne hreg)
  | register =>
    obtain ⟨q, hq, rfl⟩ := Option.map_eq_some_iff.1 hst
    obtain ⟨-, rfl⟩ := NotifyQueue.register_eq_some.1 hq
    exact ⟨h.perm, fun _ hrounds => absurd hrounds (Nat.succ_ne_zero _)⟩
  | receive =>
    obtain ⟨hpos, hst⟩ := Option.ite_none_right_eq_some.1 hst
    obtain ⟨⟨a, q⟩, hq, rfl⟩ := Option.map_eq_some_iff.1 hst
    obtain ⟨hmsgs, -⟩ := NotifyQueue.receive_eq_some.1 hq
    constructor
    · have hperm := h.perm
      rwa [hmsgs, List.append_cons] at hperm
    · exact fun _ hrounds => absurd hrounds hpos.ne'
  | finish =>
    obtain ⟨⟨-, hnil⟩, hst⟩ := Option.ite_none_right_eq_some.1 hst
    obtain rfl := Option.some.inj hst
    exact ⟨h.perm, fun _ _ => hnil⟩

theorem inv_of_reachable {d₀ : Drain α} (h₀ : Inv d₀)
    (hd : (machine maxmsg priority d₀).Reachable d) : Inv d :=
  hd.invariant h₀ fun _ _ _ h _ hst => h.step hst

/-- **What was sent has been received** while a registration stands and no round is under way. -/
theorem Inv.read_perm (h : Inv d) (hreg : d.queue.registered = true) (hrounds : d.rounds = 0) :
    d.read.Perm d.sent := by
  have hperm := h.perm
  rwa [h.watched hreg hrounds, List.append_nil] at hperm

end Drain

end TlpiLearn
