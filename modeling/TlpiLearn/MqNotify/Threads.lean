import TlpiLearn.Foundations.Notification
import TlpiLearn.Foundations.Refinement

/-!
# Message notification by a thread

`pmsg/mq_notify_thread.c` and `pmsg/mq_notify_via_thread.c`: each notification starts a thread, which
registers again and receives until the queue is empty. A message that comes while a thread finds the
queue empty starts another one, so that several threads may receive at the same time. In
`mq_notify_via_thread.c` the main thread, too, receives after the first registration.
-/

namespace TlpiLearn.MqNotify.Threads

variable {α : Type*}

/-- The statement of a thread that comes next. -/
inductive Pc
  /-- `notifySetup(mqdp)`. -/
  | notifySetup
  /-- `mq_receive`. -/
  | receive
  /-- At the end of `threadFunc`, or in the `pause` of `main`. -/
  | ended
  deriving DecidableEq, Repr

structure State (α : Type*) where
  mq : NotifyQueue α
  /-- The threads in the order in which they were started. -/
  threads : List Pc
  /-- The process has ended with `errExit("mq_notify")`. -/
  exited : Bool
  /-- What was sent, and what was on the queue before. -/
  sent : List α
  /-- What `mq_receive` has returned to any of the threads. -/
  read : List α

inductive Label (α : Type*)
  /-- `mq_send` of another process. -/
  | send (a : α)
  /-- A step of the thread with this number. -/
  | thread (i : ℕ)
  deriving DecidableEq, Repr

/-- `mq_notify_thread.c`: the main thread has registered and sits in `pause`. -/
def startThread (q : List α) : State α :=
  { mq := ⟨q, true⟩, threads := [.ended], exited := false, sent := q, read := [] }

/-- `mq_notify_via_thread.c`: the main thread comes to `notifySetup`. -/
def startViaThread (q : List α) : State α :=
  { mq := ⟨q, false⟩, threads := [.notifySetup], exited := false, sent := q, read := [] }

/-- A step of the thread with the number `i`, whose next statement is `pc`. -/
def threadStep (s : State α) (i : ℕ) (pc : Pc) : Option (State α) :=
  match pc with
  | .notifySetup =>
    match s.mq.register with
    | some q => some { s with mq := q, threads := s.threads.set i .receive }
    -- with the process its registration goes
    | none => some { s with mq := { s.mq with registered := false }, exited := true }
  | .receive =>
    match s.mq.receive with
    | some (a, q) => some { s with mq := q, read := s.read ++ [a] }
    | none => some { s with threads := s.threads.set i .ended }
  | .ended => none

variable (maxmsg : ℕ) (priority : α → ℕ)

def step (s : State α) : Label α → Option (State α)
  | .send a =>
    (s.mq.send maxmsg priority a).map fun r =>
      { s with mq := r.1, sent := s.sent ++ [a]
               threads := s.threads ++ if r.2 then [.notifySetup] else [] }
  | .thread i => if s.exited then none else s.threads[i]?.bind (threadStep s i)

/-- The threads and the other processes. -/
def program (s : State α) : Machine (State α) (Label α) := ⟨s, step maxmsg priority⟩

variable {maxmsg priority} {s s' : State α}

/-! ## What a step does -/

theorem step_send {a : α} (hst : step maxmsg priority s (.send a) = some s') :
    ∃ q notifies, s.mq.send maxmsg priority a = some (q, notifies) ∧
      s' = { s with mq := q, sent := s.sent ++ [a]
                    threads := s.threads ++ if notifies then [.notifySetup] else [] } := by
  obtain ⟨⟨q, notifies⟩, hq, rfl⟩ := Option.map_eq_some_iff.1 hst
  exact ⟨q, notifies, hq, rfl⟩

/-- The steps of the threads. -/
theorem thread_cases {i : ℕ} (hst : step maxmsg priority s (.thread i) = some s') :
    s.exited = false ∧ ∃ l l', i = l.length ∧
      ((s.threads = l ++ .notifySetup :: l' ∧ s.mq.registered = false ∧
          s' = { s with mq := { s.mq with registered := true }, threads := l ++ .receive :: l' }) ∨
        (s.threads = l ++ .notifySetup :: l' ∧ s.mq.registered = true ∧
          s' = { s with mq := { s.mq with registered := false }, exited := true }) ∨
        (s.threads = l ++ .receive :: l' ∧ ∃ a q, s.mq.receive = some (a, q) ∧
          s' = { s with mq := q, read := s.read ++ [a] }) ∨
        (s.threads = l ++ .receive :: l' ∧ s.mq.msgs = [] ∧
          s' = { s with threads := l ++ .ended :: l' })) := by
  obtain ⟨hexited, hst⟩ := Option.ite_none_left_eq_some.1 hst
  obtain ⟨pc, hpc, hst⟩ := Option.bind_eq_some_iff.1 hst
  obtain ⟨l, l', hl, rfl⟩ : ∃ l l', s.threads = l ++ pc :: l' ∧ i = l.length := by
    obtain ⟨hi, hpc⟩ := List.getElem?_eq_some_iff.1 hpc
    refine ⟨s.threads.take i, s.threads.drop (i + 1), ?_, (List.length_take_of_le hi.le).symm⟩
    rw [← hpc, List.getElem_cons_drop, List.take_append_drop]
  refine ⟨by simpa using hexited, l, l', rfl, ?_⟩
  have hset : ∀ pc', s.threads.set l.length pc' = l ++ pc' :: l' := by
    intro pc'
    simp [hl]
  unfold threadStep at hst
  cases pc with
  | notifySetup =>
    simp only [hset] at hst
    cases hreg : s.mq.registered with
    | false =>
      simp only [NotifyQueue.register_eq_some.2 ⟨hreg, rfl⟩, Option.some.injEq] at hst
      exact .inl ⟨hl, rfl, hst.symm⟩
    | true =>
      have hq : s.mq.register = none := by rw [NotifyQueue.register, hreg]; rfl
      simp only [hq, Option.some.injEq] at hst
      exact .inr (.inl ⟨hl, rfl, hst.symm⟩)
  | receive =>
    simp only [hset] at hst
    cases hq : s.mq.receive with
    | some r =>
      simp only [hq, Option.some.injEq] at hst
      exact .inr (.inr (.inl ⟨hl, r.1, r.2, rfl, hst.symm⟩))
    | none =>
      simp only [hq, Option.some.injEq] at hst
      exact .inr (.inr (.inr ⟨hl, NotifyQueue.receive_eq_none.1 hq, hst.symm⟩))
  | ended => cases hst

/-! ## The rounds of the threads -/

/-- The rounds of receiving that are under way. -/
def State.drain (s : State α) : Drain α := ⟨s.mq, s.threads.count .receive, s.sent, s.read⟩

/-- Where the notification is: in the registration, or with a thread before its `notifySetup`. -/
structure Token (s : State α) : Prop where
  one : s.mq.registered.toNat + s.threads.count .notifySetup = 1
  exited : s.exited = false

/-- The notification is at one place, and each step is one of a round. -/
theorem refines_step {s₀ : State α} (h : Token s) {l : Label α}
    (hst : step maxmsg priority s l = some s') :
    Token s' ∧ (Drain.machine maxmsg priority s₀.drain).Answers (s'.drain = ·) s.drain := by
  obtain ⟨hone, hexited⟩ := h
  cases l with
  | send a =>
    obtain ⟨q, notifies, hq, rfl⟩ := step_send hst
    obtain ⟨-, -, htoken, -⟩ := NotifyQueue.send_eq_some hq
    refine ⟨⟨?_, hexited⟩, .inr ⟨.send a, _, Option.map_eq_some_iff.2 ⟨_, hq, rfl⟩, ?_⟩⟩
    · cases notifies <;> simp at htoken ⊢ <;> omega
    · cases notifies <;> simp [State.drain]
  | thread i =>
    obtain ⟨-, l, l', -, ⟨hl, hreg, rfl⟩ | ⟨hl, hreg, -⟩ | ⟨hl, a, q, hq, rfl⟩ |
      ⟨hl, hnil, rfl⟩⟩ := thread_cases hst
    · refine ⟨⟨?_, hexited⟩, .inr ⟨.register, _, ?_, rfl⟩⟩
      · simp [hl, hreg] at hone ⊢
        omega
      · simp [Drain.machine, Drain.step, State.drain, NotifyQueue.register, hl, hreg]
        omega
    · simp [hl, hreg] at hone
    · obtain ⟨-, hreg⟩ := NotifyQueue.receive_eq_some.1 hq
      refine ⟨⟨by simpa [hreg] using hone, hexited⟩, .inr ⟨.receive, _, ?_, rfl⟩⟩
      simp [Drain.machine, Drain.step, State.drain, hl, hq]
    · refine ⟨⟨by simpa [hl] using hone, hexited⟩, .inr ⟨.finish, _, ?_, rfl⟩⟩
      simp [Drain.machine, Drain.step, State.drain, hl, hnil]

/-- **The threads refine the rounds.** -/
theorem inv_drain {s₀ : State α} (h₀ : Token s₀) (hd₀ : s₀.drain.Inv)
    (hs : (program maxmsg priority s₀).Reachable s) : Token s ∧ s.drain.Inv := by
  have hrefines := hs.refines (N := Drain.machine maxmsg priority s₀.drain)
    (R := fun s d => Token s ∧ s.drain = d) ⟨h₀, rfl⟩
    (by
      rintro s l s' _ ⟨h, rfl⟩ - - hst
      obtain ⟨h', hanswer⟩ := refines_step h hst
      exact hanswer.imp (fun he => ⟨h', he⟩) fun ⟨k, d, hk, he⟩ => ⟨k, d, hk, h', he⟩)
  obtain ⟨d, hd, htoken, rfl⟩ := hrefines
  exact ⟨htoken, Drain.inv_of_reachable hd₀ hd⟩

/-- The steps that are left for the threads when nothing else is sent. -/
def State.left (s : State α) : ℕ :=
  s.mq.msgs.length + 2 * s.threads.count .notifySetup + s.threads.count .receive +
    (!s.exited).toNat

theorem left_step {l : Label α} (hst : step maxmsg priority s l = some s') :
    s'.left + 4 * s.sent.length < s.left + 4 * s'.sent.length := by
  cases l with
  | send a =>
    obtain ⟨q, notifies, hq, rfl⟩ := step_send hst
    obtain ⟨-, hperm, -, -⟩ := NotifyQueue.send_eq_some hq
    have hlen := hperm.length_eq
    rw [List.length_cons] at hlen
    cases notifies <;> simp [State.left] <;> omega
  | thread i =>
    obtain ⟨hexited, l, l', -, ⟨hl, hreg, rfl⟩ | ⟨hl, hreg, rfl⟩ | ⟨hl, a, q, hq, rfl⟩ |
      ⟨hl, hnil, rfl⟩⟩ := thread_cases hst
    · simp [State.left, hl]
      omega
    · simp [State.left, hl, hexited]
    · obtain ⟨hmsgs, -⟩ := NotifyQueue.receive_eq_some.1 hq
      simp [State.left, hl, hmsgs]
    · simp [State.left, hl]

/-! ## A queue with messages before the registration -/

/-- No thread is left, and there is a message that will not be notified. -/
structure Deaf (s : State α) : Prop where
  threads : s.threads = [.ended]
  msgs : s.mq.msgs ≠ []
  read : s.read = []

/-- Only messages come, until the queue is full. -/
theorem Deaf.step (h : Deaf s) {l : Label α}
    (hst : Threads.step maxmsg priority s l = some s') :
    Deaf s' ∧ s.mq.msgs.length < maxmsg ∧ s'.mq.msgs.length = s.mq.msgs.length + 1 := by
  cases l with
  | send a =>
    obtain ⟨q, notifies, hq, rfl⟩ := step_send hst
    obtain ⟨hlt, hperm, -, -, hnotifies⟩ := NotifyQueue.send_eq_some hq
    have hlen := hperm.length_eq
    refine ⟨⟨?_, fun hnil => ?_, h.read⟩, hlt, hlen⟩
    · cases notifies with
      | false => simpa using h.threads
      | true => exact absurd (hnotifies rfl).2 h.msgs
    · rw [hnil] at hlen
      cases hlen
  | thread i =>
    -- the only thread has ended
    obtain ⟨-, l, l', -, ⟨hl, -⟩ | ⟨hl, -⟩ | ⟨hl, -⟩ | ⟨hl, -⟩⟩ := thread_cases hst
    all_goals
      rw [h.threads] at hl
      cases l <;> simp at hl

theorem Deaf.run (h : Deaf s) {s₀ : State α} {ls : List (Label α)}
    (hrun : (program maxmsg priority s₀).run s ls = some s') :
    Deaf s' ∧ ls.length ≤ maxmsg - s.mq.msgs.length := by
  induction ls generalizing s with
  | nil =>
    obtain rfl := Option.some.inj hrun
    exact ⟨h, Nat.zero_le _⟩
  | cons l ls ih =>
    rw [Machine.run_cons, Option.bind_eq_some_iff] at hrun
    obtain ⟨t, ht, hrun⟩ := hrun
    obtain ⟨ht', hlt, hlen⟩ := h.step ht
    obtain ⟨hs', hls'⟩ := ih ht' hrun
    refine ⟨hs', ?_⟩
    rw [List.length_cons]
    omega

/-! ## The programs -/

/-- **The threads** of `mq_notify_via_thread.c`, and those of `mq_notify_thread.c` on a queue that
was empty, in any order: no registration fails, nothing is lost or received twice, and when all
threads have ended they have received what was sent. They make at most three steps for each message,
and two more. -/
theorem threads_receive {s₀ : State α} {q : List α}
    (hstart : s₀ = startViaThread q ∨ s₀ = startThread q ∧ q = []) {ls : List (Label α)}
    (hrun : (program maxmsg priority s₀).run s₀ ls = some s) :
    s.exited = false ∧ (s.read ++ s.mq.msgs).Perm s.sent ∧
      ((∀ pc ∈ s.threads, pc = .ended) → s.read.Perm s.sent) ∧
      ls.length ≤ 4 * s.sent.length + 2 := by
  have hleft : s₀.left ≤ 4 * s₀.sent.length + 3 := by
    obtain rfl | ⟨rfl, rfl⟩ := hstart
    · simp [State.left, startViaThread]
      omega
    · simp [State.left, startThread]
  obtain ⟨htoken, hinv⟩ : Token s ∧ s.drain.Inv := by
    have hs : (program maxmsg priority s₀).Reachable s := Machine.Reachable.run .init ls hrun
    obtain rfl | ⟨rfl, rfl⟩ := hstart
    · have hinv : (startViaThread q).drain.Inv :=
        ⟨.refl q, by simp [State.drain, startViaThread]⟩
      exact inv_drain ⟨rfl, rfl⟩ hinv hs
    · have hinv : (startThread ([] : List α)).drain.Inv := ⟨.refl [], fun _ _ => rfl⟩
      exact inv_drain ⟨rfl, rfl⟩ hinv hs
  refine ⟨htoken.exited, hinv.perm, fun hended => ?_, ?_⟩
  · have hcount : ∀ pc, pc ≠ .ended → s.threads.count pc = 0 := fun pc hne =>
      List.count_eq_zero.2 fun hmem => hne (hended pc hmem)
    have hreg : s.mq.registered = true := by
      simpa [hcount .notifySetup (by decide)] using htoken.one
    exact hinv.read_perm hreg (hcount .receive (by decide))
  · have hs₀ : (program maxmsg priority s₀).Reachable s₀ := .init
    have hlen := hs₀.length_le_of_credit (μ := State.left) (ν := fun s => 4 * s.sent.length)
      (fun _ _ _ _ _ hst => left_step hst) ls (fun _ _ _ => trivial) hrun
    have hone : 1 ≤ s.left := by simp [State.left, htoken.exited]
    omega

/-- A queue with one message before `mq_notify_via_thread.c` starts. Two threads receive at the same
time: the main thread has not yet seen the empty queue when the next message comes. -/
theorem threads_receive_two :
    ∃ s, (program 10 id (startViaThread [1])).run (startViaThread [1])
        [.thread 0, .thread 0, .send 2, .thread 1, .thread 0, .thread 1, .thread 0] = some s ∧
      s.threads = [.ended, .ended] ∧ s.read.Perm s.sent := by
  have hrun : (program 10 id (startViaThread [1])).run (startViaThread [1])
      [.thread 0, .thread 0, .send 2, .thread 1, .thread 0, .thread 1, .thread 0] = some _ := rfl
  exact ⟨_, hrun, rfl, (threads_receive (.inl rfl) hrun).2.2.1 (by decide)⟩

/-- **The comment in the source**: `mq_notify_thread.c` never receives a notification when a message
is on the queue by the time of the registration. -/
theorem threads_receive_nothing {q : List α} (hq : q ≠ []) {ls : List (Label α)}
    (hrun : (program maxmsg priority (startThread q)).run (startThread q) ls = some s) :
    s.threads = [.ended] ∧ s.read = [] ∧ ls.length ≤ maxmsg - q.length := by
  have hdeaf : Deaf (startThread q) := ⟨rfl, hq, rfl⟩
  obtain ⟨hs, hlen⟩ := hdeaf.run hrun
  exact ⟨hs.threads, hs.read, hlen⟩

end TlpiLearn.MqNotify.Threads
