import TlpiLearn.Foundations.Notification
import TlpiLearn.Foundations.Refinement

/-!
# Message notification by a signal

`pmsg/mq_notify_sig.c`, `pmsg/mq_notify_sigwaitinfo.c` and `52_6/mq_notify_sig_once.c` wait for
`NOTIFY_SIG`, register again and receive until the queue is empty; `52_5/mq_notify_sig_once.c` does
not register again. The signal is blocked outside of the wait, so that it stays pending until then.
Other processes send messages, which block while the queue is full, and may send the signal itself.

The first `mq_notify` is made before the run. A program that does not handle the messages that are
on the queue by then never receives a notification, and one that does not register again receives
no second one (`Deaf`).
-/

namespace TlpiLearn.MqNotify

variable {α : Type*}

/-- The statement of the loop that comes next. -/
inductive Pc
  /-- `sigsuspend(&emptyMask)`, or `sigwaitinfo(&blockMask, &info)`. -/
  | wait
  | notify
  | receive
  /-- `errExit("mq_notify")`. -/
  | failed
  deriving DecidableEq, Repr

structure State (α : Type*) where
  mq : NotifyQueue α
  pc : Pc
  /-- `NOTIFY_SIG` is pending. -/
  pending : Bool
  /-- What was sent, and what was on the queue before. -/
  sent : List α
  /-- What `mq_receive` has returned. -/
  read : List α

inductive Label (α : Type*)
  /-- `mq_send` of another process. -/
  | send (a : α)
  /-- `kill` of another process. -/
  | kill
  /-- A step of the program. -/
  | main
  deriving DecidableEq, Repr

/-- The program is registered and waits; `q` is on the queue. -/
def start (q : List α) : State α :=
  { mq := ⟨q, true⟩, pc := .wait, pending := false, sent := q, read := [] }

/-- The loop, with a second `mq_notify` (`reregisters`) or without. -/
def main (reregisters : Bool) (s : State α) : Option (State α) :=
  match s.pc with
  | .wait =>
    if s.pending then
      some { s with pending := false, pc := if reregisters then .notify else .receive }
    else none
  | .notify =>
    match s.mq.register with
    | some q => some { s with mq := q, pc := .receive }
    -- with the process its registration goes
    | none => some { s with mq := { s.mq with registered := false }, pc := .failed }
  | .receive =>
    match s.mq.receive with
    | some (a, q) => some { s with mq := q, read := s.read ++ [a] }
    | none => some { s with pc := .wait }
  | .failed => none

variable (maxmsg : ℕ) (priority : α → ℕ) (reregisters : Bool)

def step (s : State α) : Label α → Option (State α)
  | .send a =>
    (s.mq.send maxmsg priority a).map fun r =>
      { s with mq := r.1, pending := s.pending || r.2, sent := s.sent ++ [a] }
  | .kill => some { s with pending := true }
  | .main => main reregisters s

/-- The program and the other processes, from the wait on. -/
def program (q : List α) : Machine (State α) (Label α) :=
  ⟨start q, step maxmsg priority reregisters⟩

variable {maxmsg priority reregisters} {s s' : State α}

/-! ## What a step does -/

theorem step_send {a : α} (hst : step maxmsg priority reregisters s (.send a) = some s') :
    ∃ q notifies, s.mq.send maxmsg priority a = some (q, notifies) ∧
      s' = { s with mq := q, pending := s.pending || notifies, sent := s.sent ++ [a] } := by
  obtain ⟨⟨q, notifies⟩, hq, rfl⟩ := Option.map_eq_some_iff.1 hst
  exact ⟨q, notifies, hq, rfl⟩

/-- The steps of the program. -/
theorem main_cases (hst : main reregisters s = some s') :
    (s.pc = .wait ∧ s.pending = true ∧
      s' = { s with pending := false, pc := if reregisters then .notify else .receive }) ∨
    (s.pc = .notify ∧ s.mq.registered = false ∧
      s' = { s with mq := { s.mq with registered := true }, pc := .receive }) ∨
    (s.pc = .notify ∧ s.mq.registered = true ∧
      s' = { s with mq := { s.mq with registered := false }, pc := .failed }) ∨
    (s.pc = .receive ∧ ∃ a q, s.mq.receive = some (a, q) ∧
      s' = { s with mq := q, read := s.read ++ [a] }) ∨
    (s.pc = .receive ∧ s.mq.msgs = [] ∧ s' = { s with pc := .wait }) := by
  unfold main at hst
  cases hpc : s.pc with
  | wait =>
    simp only [hpc, Option.ite_none_right_eq_some, Option.some.injEq] at hst
    exact .inl ⟨rfl, hst.1, hst.2.symm⟩
  | notify =>
    simp only [hpc] at hst
    cases hreg : s.mq.registered with
    | false =>
      have hq := NotifyQueue.register_eq_some.2 ⟨hreg, rfl⟩
      simp only [hq, Option.some.injEq] at hst
      exact .inr (.inl ⟨rfl, rfl, hst.symm⟩)
    | true =>
      have hq : s.mq.register = none := by rw [NotifyQueue.register, hreg]; rfl
      simp only [hq, Option.some.injEq] at hst
      exact .inr (.inr (.inl ⟨rfl, rfl, hst.symm⟩))
  | receive =>
    simp only [hpc] at hst
    cases hq : s.mq.receive with
    | some r =>
      simp only [hq, Option.some.injEq] at hst
      exact .inr (.inr (.inr (.inl ⟨rfl, r.1, r.2, rfl, hst.symm⟩)))
    | none =>
      simp only [hq, Option.some.injEq] at hst
      exact .inr (.inr (.inr (.inr ⟨rfl, NotifyQueue.receive_eq_none.1 hq, hst.symm⟩)))
  | failed => simp [hpc] at hst

/-! ## A program that registers again -/

/-- The round of receiving that is under way, if there is one. -/
def State.drain (s : State α) : Drain α :=
  ⟨s.mq, if s.pc = .receive then 1 else 0, s.sent, s.read⟩

/-- Where the notification is: in the registration, in the signal, or at the next `mq_notify`. -/
structure Token (s : State α) : Prop where
  one : s.mq.registered.toNat + s.pending.toNat + (if s.pc = .notify then 1 else 0) = 1
  pc : s.pc ≠ .failed

theorem token_start (q : List α) : Token (start q) := ⟨rfl, by simp [start]⟩

/-- Without a `kill` the notification is at one place, and each step is one of a round. -/
theorem refines_step (h : Token s) {l : Label α} (hl : l ≠ .kill)
    (hst : step maxmsg priority true s l = some s') :
    Token s' ∧ (Drain.machine maxmsg priority (start []).drain).Answers (s'.drain = ·) s.drain := by
  obtain ⟨hone, hpc⟩ := h
  cases l with
  | kill => exact absurd rfl hl
  | send a =>
    obtain ⟨q, notifies, hq, rfl⟩ := step_send hst
    obtain ⟨-, -, htoken, -⟩ := NotifyQueue.send_eq_some hq
    refine ⟨⟨?_, hpc⟩, .inr ⟨.send a, _, Option.map_eq_some_iff.2 ⟨_, hq, rfl⟩, rfl⟩⟩
    have hor : (s.pending || notifies).toNat = s.pending.toNat + notifies.toNat := by
      cases hp : s.pending <;> cases hn : notifies <;> simp [hp, hn] at hone htoken ⊢
      omega
    simp only [hor]
    omega
  | main =>
    obtain ⟨hp, hpend, rfl⟩ | ⟨hp, hreg, rfl⟩ | ⟨hp, hreg, -⟩ | ⟨hp, a, q, hq, rfl⟩ |
      ⟨hp, hnil, rfl⟩ := main_cases hst
    · refine ⟨⟨?_, by simp⟩, .inl ?_⟩
      · simpa [hp, hpend] using hone
      · simp [State.drain, hp]
    · refine ⟨⟨?_, by simp⟩, .inr ⟨.register, _, ?_, rfl⟩⟩
      · simpa [hp, hreg] using hone
      · simp [Drain.machine, Drain.step, State.drain, NotifyQueue.register, hp, hreg]
    · simp [hp, hreg] at hone
    · obtain ⟨-, hreg⟩ := NotifyQueue.receive_eq_some.1 hq
      refine ⟨⟨by simpa [hreg] using hone, hpc⟩, .inr ⟨.receive, _, ?_, rfl⟩⟩
      simp [Drain.machine, Drain.step, State.drain, hp, hq]
    · refine ⟨⟨by simpa [hp] using hone, by simp⟩, .inr ⟨.finish, _, ?_, rfl⟩⟩
      simp [Drain.machine, Drain.step, State.drain, hp, hnil]

/-- **The program refines the rounds** while nobody sends it the signal. -/
theorem inv_drain (hs : (program maxmsg priority true []).ReachableBy (fun _ l => l ≠ .kill) s) :
    Token s ∧ s.drain.Inv := by
  have hrefines := hs.refines (N := Drain.machine maxmsg priority (start ([] : List α)).drain)
    (R := fun s d => Token s ∧ s.drain = d) ⟨token_start [], rfl⟩
    (by
      rintro s l s' _ ⟨h, rfl⟩ - hl hst
      obtain ⟨h', hanswer⟩ := refines_step h hl hst
      exact hanswer.imp (fun he => ⟨h', he⟩) fun ⟨k, d, hk, he⟩ => ⟨k, d, hk, h', he⟩)
  obtain ⟨d, hd, htoken, rfl⟩ := hrefines
  have hstart : (start ([] : List α)).drain.Inv := ⟨.refl [], fun _ _ => rfl⟩
  exact ⟨htoken, Drain.inv_of_reachable hstart hd⟩

/-- The steps that are left for the program when nothing else is sent. -/
def State.left (s : State α) : ℕ :=
  s.mq.msgs.length + 3 * s.pending.toNat +
    match s.pc with
    | .notify => 2
    | .receive => 1
    | _ => 0

theorem left_step {l : Label α} (hl : l ≠ .kill)
    (hst : step maxmsg priority true s l = some s') :
    s'.left + 5 * s.sent.length < s.left + 5 * s'.sent.length := by
  cases l with
  | kill => exact absurd rfl hl
  | send a =>
    obtain ⟨q, notifies, hq, rfl⟩ := step_send hst
    obtain ⟨-, hperm, -, -⟩ := NotifyQueue.send_eq_some hq
    have hlen := hperm.length_eq
    have hpend : (s.pending || notifies).toNat ≤ s.pending.toNat + 1 := by
      cases s.pending <;> cases notifies <;> simp
    simp only [State.left, List.length_append, List.length_singleton]
    rw [List.length_cons] at hlen
    omega
  | main =>
    obtain ⟨hp, hpend, rfl⟩ | ⟨hp, hreg, rfl⟩ | ⟨hp, hreg, rfl⟩ | ⟨hp, a, q, hq, rfl⟩ |
      ⟨hp, hnil, rfl⟩ := main_cases hst
    · simp [State.left, hp, hpend]
    · simp [State.left, hp]
    · simp [State.left, hp]
    · obtain ⟨hmsgs, -⟩ := NotifyQueue.receive_eq_some.1 hq
      simp [State.left, hp, hmsgs]
    · simp [State.left, hp]

/-! ## A program that is not notified any more -/

/-- The program waits, and no notification can come: a message is on the queue, or there is no
registration. -/
structure Deaf (s : State α) : Prop where
  pc : s.pc = .wait
  pending : s.pending = false
  registered : s.mq.registered = true → s.mq.msgs ≠ []

/-- A program that has not handled what was on the queue before is deaf. -/
theorem deaf_start {q : List α} (hq : q ≠ []) : Deaf (start q) := ⟨rfl, rfl, fun _ => hq⟩

/-- Only messages come, until the queue is full. -/
theorem Deaf.step (h : Deaf s) {l : Label α} (hl : l ≠ .kill)
    (hst : step maxmsg priority reregisters s l = some s') :
    Deaf s' ∧ s'.read = s.read ∧ s.mq.msgs.length < maxmsg ∧
      s'.mq.msgs.length = s.mq.msgs.length + 1 := by
  cases l with
  | kill => exact absurd rfl hl
  | send a =>
    obtain ⟨q, notifies, hq, rfl⟩ := step_send hst
    obtain ⟨hlt, hperm, -, -, hnotifies⟩ := NotifyQueue.send_eq_some hq
    have hlen := hperm.length_eq
    refine ⟨⟨h.pc, ?_, fun _ hnil => ?_⟩, rfl, hlt, hlen⟩
    · cases notifies with
      | false => simp [h.pending]
      | true =>
        obtain ⟨hreg, hnil⟩ := hnotifies rfl
        exact absurd hnil (h.registered hreg)
    · rw [hnil] at hlen
      cases hlen
  | main =>
    unfold MqNotify.step main at hst
    simp [h.pc, h.pending] at hst

theorem Deaf.run (h : Deaf s) {q : List α} {ls : List (Label α)} (hls : .kill ∉ ls)
    (hrun : (program maxmsg priority reregisters q).run s ls = some s') :
    Deaf s' ∧ s'.read = s.read ∧ ls.length ≤ maxmsg - s.mq.msgs.length := by
  induction ls generalizing s with
  | nil =>
    obtain rfl := Option.some.inj hrun
    exact ⟨h, rfl, Nat.zero_le _⟩
  | cons l ls ih =>
    rw [Machine.run_cons, Option.bind_eq_some_iff] at hrun
    obtain ⟨t, ht, hrun⟩ := hrun
    have hl : l ≠ .kill := fun he => hls (he ▸ List.mem_cons_self)
    obtain ⟨ht', hread, hlt, hlen⟩ := h.step hl ht
    obtain ⟨hs', hread', hls'⟩ := ih ht' (fun hm => hls (List.mem_cons_of_mem _ hm)) hrun
    refine ⟨hs', hread'.trans hread, ?_⟩
    rw [List.length_cons]
    omega

/-- A program that does not register again has received nothing before its only notification. -/
structure Once (s : State α) : Prop where
  pc : s.pc = .wait ∨ s.pc = .receive
  pending : s.pending = true → s.mq.registered = false
  notified : s.read ≠ [] ∨ s.pc = .receive → s.mq.registered = false ∧ s.pending = false

theorem once_start (q : List α) : Once (start q) where
  pc := .inl rfl
  pending := by simp [start]
  notified h := by simp [start] at h

theorem Once.step (h : Once s) {l : Label α} (hl : l ≠ .kill)
    (hst : MqNotify.step maxmsg priority false s l = some s') : Once s' := by
  cases l with
  | kill => exact absurd rfl hl
  | send a =>
    obtain ⟨q, notifies, hq, rfl⟩ := step_send hst
    obtain ⟨-, -, htoken, -, hnotifies⟩ := NotifyQueue.send_eq_some hq
    have hunregistered : s.mq.registered = false → q.registered = false ∧ notifies = false := by
      intro hreg
      rw [hreg] at htoken
      cases hq' : q.registered <;> cases hn : notifies <;> simp [hq', hn] at htoken ⊢
    refine ⟨h.pc, fun hpend => ?_, fun hn => ?_⟩
    · cases hn : notifies with
      | false => exact (hunregistered (h.pending (by simpa [hn] using hpend))).1
      | true =>
        rw [(hnotifies hn).1, hn] at htoken
        simpa using htoken
    · obtain ⟨hreg, hpend⟩ := h.notified hn
      obtain ⟨hreg', hn'⟩ := hunregistered hreg
      exact ⟨hreg', by simp [hpend, hn']⟩
  | main =>
    obtain ⟨hp, hpend, rfl⟩ | ⟨hp, -⟩ | ⟨hp, -⟩ | ⟨hp, a, q, hq, rfl⟩ | ⟨hp, hnil, rfl⟩ :=
      main_cases hst
    · exact ⟨.inr rfl, by simp, fun _ => ⟨h.pending hpend, rfl⟩⟩
    · rcases h.pc with hpc | hpc <;> rw [hpc] at hp <;> cases hp
    · rcases h.pc with hpc | hpc <;> rw [hpc] at hp <;> cases hp
    · obtain ⟨-, hreg⟩ := NotifyQueue.receive_eq_some.1 hq
      obtain ⟨hreg', hpend⟩ := h.notified (.inr hp)
      exact ⟨h.pc, fun _ => hreg.trans hreg', fun _ => ⟨hreg.trans hreg', hpend⟩⟩
    · exact ⟨.inl rfl, h.pending, fun _ => h.notified (.inr hp)⟩

theorem once_of_reachable {q : List α}
    (hs : (program maxmsg priority false q).ReachableBy (fun _ l => l ≠ .kill) s) : Once s :=
  hs.invariant (once_start q) fun _ _ _ h hl hst => h.step hl hst

/-! ## The programs -/

/-- The runs in which nobody sends the signal. -/
theorem reachableBy_of_run {q : List α} {ls : List (Label α)} (hls : .kill ∉ ls)
    (hrun : (program maxmsg priority reregisters q).run (start q) ls = some s) :
    (program maxmsg priority reregisters q).ReachableBy (fun _ l => l ≠ .kill) s :=
  Machine.ReachableBy.run .init ls (fun _ _ hl hk => hls (hk ▸ hl)) hrun

/-- **A program that registers again**, on a queue that was empty, does not fail while nobody sends
it the signal. Whenever it waits and no signal is pending it has received all that was sent, and it
makes at most four steps for each message. -/
theorem sig_receives {ls : List (Label α)} (hls : .kill ∉ ls)
    (hrun : (program maxmsg priority true []).run (start []) ls = some s) :
    s.pc ≠ .failed ∧ (s.read ++ s.mq.msgs).Perm s.sent ∧
      (s.pc = .wait → s.pending = false → s.read.Perm s.sent) ∧
      ls.length ≤ 5 * s.sent.length := by
  obtain ⟨htoken, hinv⟩ := inv_drain (reachableBy_of_run hls hrun)
  refine ⟨htoken.pc, hinv.perm, fun hpc hpend => ?_, ?_⟩
  · have hreg : s.mq.registered = true := by simpa [hpc, hpend] using htoken.one
    exact hinv.read_perm hreg (by simp [State.drain, hpc])
  · have hs₀ : (program maxmsg priority true []).ReachableBy (fun _ l => l ≠ .kill) (start []) :=
      .init
    have hlen := hs₀.length_le_of_credit (μ := State.left) (ν := fun s => 5 * s.sent.length)
      (fun _ _ _ _ hl hst => left_step hl hst) ls (fun _ _ hl hk => hls (hk ▸ hl)) hrun
    have hleft : (start ([] : List α)).left = 0 := rfl
    have hsent : (start ([] : List α)).sent.length = 0 := rfl
    simp only [hleft, hsent] at hlen
    omega

/-- Three messages with their numbers for priorities; the last one comes during the round. -/
theorem sig_receives_three :
    ∃ s, (program 10 id true []).run (start [])
        [.send 1, .send 2, .main, .main, .main, .send 3, .main, .main, .main] = some s ∧
      s.read = [2, 3, 1] ∧ s.read.Perm s.sent := by
  have hrun : (program 10 id true []).run (start [])
      [.send 1, .send 2, .main, .main, .main, .send 3, .main, .main, .main] = some _ := rfl
  exact ⟨_, hrun, rfl, (sig_receives (by decide) hrun).2.2.1 rfl rfl⟩

/-- **When the notifications end**: a program that started on a queue with messages, or that does
not register again and is back at its wait, receives nothing more while nobody sends it the signal;
the others come to a stop at the full queue. -/
theorem sig_receives_no_more {q : List α} {ls : List (Label α)} (hls : .kill ∉ ls)
    (hrun : (program maxmsg priority reregisters q).run (start q) ls = some s)
    (hend : q ≠ [] ∨ reregisters = false ∧ s.pc = .wait ∧ s.read ≠ []) {ms : List (Label α)}
    (hms : .kill ∉ ms) (hrun' : (program maxmsg priority reregisters q).run s ms = some s') :
    s'.pc = .wait ∧ s'.read = s.read ∧ ms.length ≤ maxmsg - s.mq.msgs.length ∧
      (q ≠ [] → s.read = []) := by
  have hread : q ≠ [] → Deaf s ∧ s.read = [] := fun hq =>
    have hdeaf := (deaf_start hq).run hls hrun
    ⟨hdeaf.1, hdeaf.2.1⟩
  have hdeaf : Deaf s := by
    obtain hq | ⟨rfl, hpc, hne⟩ := hend
    · exact (hread hq).1
    · obtain ⟨hreg, hpend⟩ := (once_of_reachable (reachableBy_of_run hls hrun)).notified (.inl hne)
      exact ⟨hpc, hpend, fun hreg' => by rw [hreg] at hreg'; cases hreg'⟩
  obtain ⟨hdeaf', hread', hlen⟩ := hdeaf.run hms hrun'
  exact ⟨hdeaf'.pc, hread', hlen, fun hq => (hread hq).2⟩

/-- After one round without a second registration. -/
def afterOne : State ℕ := ⟨⟨[], false⟩, .wait, false, [1], [1]⟩

/-- The program of `52_5` receives the first message; the second one stays on the queue. -/
theorem sig_receives_no_more_second :
    (program 10 id false []).run (start []) [.send 1, .main, .main, .main] = some afterOne ∧
      ∃ s', (program 10 id false []).run afterOne [.send 2] = some s' ∧ s'.mq.msgs = [2] ∧
        s'.pc = .wait ∧ s'.read = [1] := by
  have hrun : (program 10 id false []).run (start []) [.send 1, .main, .main, .main] =
      some afterOne := rfl
  have hrun' : (program 10 id false []).run afterOne [.send 2] = some _ := rfl
  have hmore := sig_receives_no_more (by decide) hrun (.inr ⟨rfl, rfl, by decide⟩) (by decide) hrun'
  exact ⟨hrun, _, hrun', rfl, hmore.1, hmore.2.1⟩

end TlpiLearn.MqNotify
