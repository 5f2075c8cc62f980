import TlpiLearn.Foundations.Notification
import TlpiLearn.Foundations.Refinement

/-!
# Message notification by a flag

`pmsg/mq_notify_via_signal.c` does other work than to wait: the handler of `NOTIFY_SIG` sets
`gotSig`, and each pass of the loop that finds it set registers again and receives until the queue is
empty. The flag is set at the start, so that the first pass handles what is on the queue.
-/

namespace TlpiLearn.MqNotify.Polling

variable {α : Type*}

/-- The statement of the loop that comes next. -/
inductive Pc
  /-- `if (gotSig)`. -/
  | test
  /-- `gotSig = 0`. -/
  | clear
  | notify
  | receive
  /-- `sleep(5)`. -/
  | sleep
  /-- `errExit("mq_notify")`. -/
  | failed
  deriving DecidableEq, Repr

structure State (α : Type*) where
  mq : NotifyQueue α
  pc : Pc
  gotSig : Bool
  /-- `NOTIFY_SIG` is pending. -/
  pending : Bool
  /-- What was sent, and what was on the queue before. -/
  sent : List α
  /-- What `mq_receive` has returned. -/
  read : List α

inductive Label (α : Type*)
  /-- `mq_send` of another process. -/
  | send (a : α)
  /-- `kill` of another process. -/
  | kill
  /-- The handler of `NOTIFY_SIG`. -/
  | handler
  /-- A step of the loop. -/
  | main
  deriving DecidableEq, Repr

/-- Before the loop; `q` is on the queue. -/
def start (q : List α) : State α :=
  { mq := ⟨q, false⟩, pc := .test, gotSig := true, pending := false, sent := q, read := [] }

def handler (s : State α) : Option (State α) :=
  if s.pending ∧ s.pc ≠ .failed then some { s with pending := false, gotSig := true } else none

/-- The loop. -/
def main (s : State α) : Option (State α) :=
  match s.pc with
  | .test => some { s with pc := if s.gotSig then .clear else .sleep }
  | .clear => some { s with gotSig := false, pc := .notify }
  | .notify =>
    match s.mq.register with
    | some q => some { s with mq := q, pc := .receive }
    -- with the process its registration goes
    | none => some { s with mq := { s.mq with registered := false }, pc := .failed }
  | .receive =>
    match s.mq.receive with
    | some (a, q) => some { s with mq := q, read := s.read ++ [a] }
    | none => some { s with pc := .sleep }
  | .sleep => some { s with pc := .test }
  | .failed => none

variable (maxmsg : ℕ) (priority : α → ℕ)

def step (s : State α) : Label α → Option (State α)
  | .send a =>
    (s.mq.send maxmsg priority a).map fun r =>
      { s with mq := r.1, pending := s.pending || r.2, sent := s.sent ++ [a] }
  | .kill => some { s with pending := true }
  | .handler => handler s
  | .main => main s

/-- The program and the other processes. -/
def program (q : List α) : Machine (State α) (Label α) := ⟨start q, step maxmsg priority⟩

variable {maxmsg priority} {s s' : State α}

/-! ## What a step does -/

theorem step_send {a : α} (hst : step maxmsg priority s (.send a) = some s') :
    ∃ q notifies, s.mq.send maxmsg priority a = some (q, notifies) ∧
      s' = { s with mq := q, pending := s.pending || notifies, sent := s.sent ++ [a] } := by
  obtain ⟨⟨q, notifies⟩, hq, rfl⟩ := Option.map_eq_some_iff.1 hst
  exact ⟨q, notifies, hq, rfl⟩

theorem step_handler (hst : step maxmsg priority s .handler = some s') :
    s.pending = true ∧ s' = { s with pending := false, gotSig := true } := by
  obtain ⟨⟨hpend, -⟩, hst⟩ := Option.ite_none_right_eq_some.1 hst
  exact ⟨hpend, (Option.some.inj hst).symm⟩

theorem main_test (hpc : s.pc = .test) :
    main s = some { s with pc := if s.gotSig then .clear else .sleep } := by
  simp [main, hpc]

theorem main_clear (hpc : s.pc = .clear) :
    main s = some { s with gotSig := false, pc := .notify } := by
  simp [main, hpc]

theorem main_notify (hpc : s.pc = .notify) (hreg : s.mq.registered = false) :
    main s = some { s with mq := { s.mq with registered := true }, pc := .receive } := by
  simp [main, hpc, NotifyQueue.register, hreg]

theorem main_receive_nil (hpc : s.pc = .receive) (hnil : s.mq.msgs = []) :
    main s = some { s with pc := .sleep } := by
  simp [main, hpc, NotifyQueue.receive, hnil]

theorem main_receive_cons (hpc : s.pc = .receive) {a : α} {l : List α}
    (hcons : s.mq.msgs = a :: l) :
    main s = some { s with mq := { s.mq with msgs := l }, read := s.read ++ [a] } := by
  simp [main, hpc, NotifyQueue.receive, hcons]

theorem main_sleep (hpc : s.pc = .sleep) : main s = some { s with pc := .test } := by
  simp [main, hpc]

/-! ## The rounds of the loop -/

/-- The round of receiving that is under way, if there is one. -/
def State.drain (s : State α) : Drain α :=
  ⟨s.mq, if s.pc = .receive then 1 else 0, s.sent, s.read⟩

/-- Where the notification is: in the registration, in the signal, in the flag, or at the next
`mq_notify`. -/
structure Token (s : State α) : Prop where
  one : s.mq.registered.toNat + s.pending.toNat + s.gotSig.toNat +
    (if s.pc = .notify then 1 else 0) = 1
  pc : s.pc ≠ .failed
  clear : s.pc = .clear → s.gotSig = true

theorem token_start (q : List α) : Token (start q) := ⟨rfl, by simp [start], fun _ => rfl⟩

/-- A step of the loop keeps the notification, and is one of a round or none. -/
theorem refines_main {s₀ : State α} (h : Token s) (hst : main s = some s') :
    Token s' ∧ (Drain.machine maxmsg priority s₀.drain).Answers (s'.drain = ·) s.drain := by
  obtain ⟨hone, hpc, hclear⟩ := h
  cases hp : s.pc with
  | test =>
    rw [main_test hp] at hst
    obtain rfl := Option.some.inj hst
    cases hg : s.gotSig with
    | true =>
      exact ⟨⟨by simpa [hp, hg] using hone, by simp, fun _ => rfl⟩, .inl (by simp [State.drain, hp])⟩
    | false =>
      exact ⟨⟨by simpa [hp, hg] using hone, by simp, by simp⟩, .inl (by simp [State.drain, hp])⟩
  | clear =>
    rw [main_clear hp] at hst
    obtain rfl := Option.some.inj hst
    refine ⟨⟨?_, by simp, by simp⟩, .inl (by simp [State.drain, hp])⟩
    simpa [hp, hclear hp] using hone
  | notify =>
    have hreg : s.mq.registered = false := by
      by_contra hreg
      rw [Bool.not_eq_false] at hreg
      simp [hp, hreg] at hone
    rw [main_notify hp hreg] at hst
    obtain rfl := Option.some.inj hst
    refine ⟨⟨?_, by simp, by simp⟩, .inr ⟨.register, _, ?_, rfl⟩⟩
    · simp only [hp, hreg, Bool.toNat_false, if_true] at hone
      simp only [Bool.toNat_true, reduceCtorEq, if_false]
      omega
    simp [Drain.machine, Drain.step, State.drain, NotifyQueue.register, hp, hreg]
  | receive =>
    cases hmsgs : s.mq.msgs with
    | nil =>
      rw [main_receive_nil hp hmsgs] at hst
      obtain rfl := Option.some.inj hst
      refine ⟨⟨by simpa [hp] using hone, by simp, by simp⟩, .inr ⟨.finish, _, ?_, rfl⟩⟩
      simp [Drain.machine, Drain.step, State.drain, hp, hmsgs]
    | cons a l =>
      rw [main_receive_cons hp hmsgs] at hst
      obtain rfl := Option.some.inj hst
      refine ⟨⟨hone, hpc, hclear⟩, .inr ⟨.receive, _, ?_, rfl⟩⟩
      simp [Drain.machine, Drain.step, State.drain, NotifyQueue.receive, hp, hmsgs]
  | sleep =>
    rw [main_sleep hp] at hst
    obtain rfl := Option.some.inj hst
    exact ⟨⟨by simpa [hp] using hone, by simp, by simp⟩, .inl (by simp [State.drain, hp])⟩
  | failed => exact absurd hp hpc

/-- Without a `kill` the notification is at one place, and each step is one of a round, or none. -/
theorem refines_step {s₀ : State α} (h : Token s) {l : Label α} (hl : l ≠ .kill)
    (hst : step maxmsg priority s l = some s') :
    Token s' ∧ (Drain.machine maxmsg priority s₀.drain).Answers (s'.drain = ·) s.drain := by
  cases l with
  | kill => exact absurd rfl hl
  | send a =>
    obtain ⟨q, notifies, hq, rfl⟩ := step_send hst
    obtain ⟨-, -, htoken, -⟩ := NotifyQueue.send_eq_some hq
    refine ⟨⟨?_, h.pc, h.clear⟩, .inr ⟨.send a, _, Option.map_eq_some_iff.2 ⟨_, hq, rfl⟩, rfl⟩⟩
    have hone := h.one
    have hor : (s.pending || notifies).toNat = s.pending.toNat + notifies.toNat := by
      cases hp : s.pending <;> cases hn : notifies <;> simp [hp, hn] at hone htoken ⊢
      omega
    simp only [hor]
    omega
  | handler =>
    obtain ⟨hpend, rfl⟩ := step_handler hst
    refine ⟨⟨?_, h.pc, fun _ => rfl⟩, .inl rfl⟩
    have hone := h.one
    cases hg : s.gotSig <;> simp [hpend, hg] at hone ⊢ <;> omega
  | main => exact refines_main h hst

/-- **The program refines the rounds** while nobody sends it the signal. -/
theorem inv_drain {q : List α}
    (hs : (program maxmsg priority q).ReachableBy (fun _ l => l ≠ .kill) s) :
    Token s ∧ s.drain.Inv := by
  have hrefines := hs.refines (N := Drain.machine maxmsg priority (start q).drain)
    (R := fun s d => Token s ∧ s.drain = d) ⟨token_start q, rfl⟩
    (by
      rintro s l s' _ ⟨h, rfl⟩ - hl hst
      obtain ⟨h', hanswer⟩ := refines_step h hl hst
      exact hanswer.imp (fun he => ⟨h', he⟩) fun ⟨k, d, hk, he⟩ => ⟨k, d, hk, h', he⟩)
  obtain ⟨d, hd, htoken, rfl⟩ := hrefines
  have hstart : (start q).drain.Inv := ⟨.refl q, by simp [State.drain, start]⟩
  exact ⟨htoken, Drain.inv_of_reachable hstart hd⟩

/-! ## The next pass -/

/-- Without another process, the loop comes to `sleep` with everything received in at most `n`
steps. -/
def Receives (maxmsg : ℕ) (priority : α → ℕ) (s : State α) (n : ℕ) : Prop :=
  ∃ k ≤ n, ∃ s', (program maxmsg priority []).run s (List.replicate k .main) = some s' ∧
    s'.pc = .sleep ∧ s'.mq.msgs = [] ∧ s'.read = s.read ++ s.mq.msgs

theorem Receives.of_main {t : State α} {n : ℕ} (h : Receives maxmsg priority t n)
    (hst : main s = some t) (hread : t.read ++ t.mq.msgs = s.read ++ s.mq.msgs) :
    Receives maxmsg priority s (n + 1) := by
  obtain ⟨k, hk, s', hrun, hpc, hnil, hread'⟩ := h
  refine ⟨k + 1, Nat.succ_le_succ hk, s', ?_, hpc, hnil, hread'.trans hread⟩
  have hst' : (program maxmsg priority []).step s .main = some t := hst
  rw [List.replicate_succ, Machine.run_cons, hst', Option.bind_some, hrun]

/-- A round receives the messages one by one. -/
theorem receives_of_receive {l : List α} (hpc : s.pc = .receive) (hmsgs : s.mq.msgs = l) :
    Receives maxmsg priority s (l.length + 1) := by
  induction l generalizing s with
  | nil =>
    have hend : Receives maxmsg priority { s with pc := .sleep } 0 :=
      ⟨0, le_rfl, _, rfl, rfl, hmsgs, by simp [hmsgs]⟩
    exact hend.of_main (main_receive_nil hpc hmsgs) rfl
  | cons a l ih =>
    have hrest : Receives maxmsg priority
        { s with mq := { s.mq with msgs := l }, read := s.read ++ [a] } (l.length + 1) := ih hpc rfl
    exact hrest.of_main (main_receive_cons hpc hmsgs) (by simp [hmsgs])

/-- The registration, and then the round. -/
theorem receives_of_notify (hpc : s.pc = .notify) (hreg : s.mq.registered = false) :
    Receives maxmsg priority s (s.mq.msgs.length + 2) :=
  have hround : Receives maxmsg priority
      { s with mq := { s.mq with registered := true }, pc := .receive } (s.mq.msgs.length + 1) :=
    receives_of_receive rfl rfl
  hround.of_main (main_notify hpc hreg) rfl

theorem receives_of_clear (hpc : s.pc = .clear) (hreg : s.mq.registered = false) :
    Receives maxmsg priority s (s.mq.msgs.length + 3) :=
  have hnotify : Receives maxmsg priority { s with gotSig := false, pc := .notify }
      (s.mq.msgs.length + 2) := receives_of_notify rfl hreg
  hnotify.of_main (main_clear hpc) rfl

theorem receives_of_test (hpc : s.pc = .test) (hg : s.gotSig = true)
    (hreg : s.mq.registered = false) : Receives maxmsg priority s (s.mq.msgs.length + 4) := by
  have hst : main s = some { s with pc := .clear } := by rw [main_test hpc, hg]; rfl
  have hclear : Receives maxmsg priority { s with pc := .clear } (s.mq.msgs.length + 3) :=
    receives_of_clear rfl hreg
  exact hclear.of_main hst rfl

theorem Receives.mono {n m : ℕ} (h : Receives maxmsg priority s n) (hnm : n ≤ m) :
    Receives maxmsg priority s m := by
  obtain ⟨k, hk, hrest⟩ := h
  exact ⟨k, hk.trans hnm, hrest⟩

/-- **The next pass** receives what is on the queue, when no signal is pending. -/
theorem receives_of_token (h : Token s) (hinv : s.drain.Inv) (hpend : s.pending = false) :
    Receives maxmsg priority s (s.mq.msgs.length + 5) := by
  have hone := h.one
  cases hpc : s.pc with
  | test =>
    cases hg : s.gotSig with
    | true =>
      have hreg : s.mq.registered = false := by simpa [hpc, hpend, hg] using hone
      exact (receives_of_test hpc hg hreg).mono (by omega)
    | false =>
      have hreg : s.mq.registered = true := by simpa [hpc, hpend, hg] using hone
      have hnil : s.mq.msgs = [] := hinv.watched hreg (by simp [State.drain, hpc])
      have hst : main s = some { s with pc := .sleep } := by rw [main_test hpc, hg]; rfl
      have hend : Receives maxmsg priority { s with pc := .sleep } 0 :=
        ⟨0, le_rfl, _, rfl, rfl, hnil, by simp [hnil]⟩
      exact (hend.of_main hst rfl).mono (by omega)
  | clear =>
    have hreg : s.mq.registered = false := by simpa [hpc, hpend, h.clear hpc] using hone
    exact (receives_of_clear hpc hreg).mono (by omega)
  | notify =>
    have hreg : s.mq.registered = false := by
      by_contra hreg
      rw [Bool.not_eq_false] at hreg
      simp [hpc, hreg] at hone
    exact (receives_of_notify hpc hreg).mono (by omega)
  | receive => exact (receives_of_receive hpc rfl).mono (by omega)
  | sleep =>
    cases hg : s.gotSig with
    | true =>
      have hreg : s.mq.registered = false := by simpa [hpc, hpend, hg] using hone
      have htest : Receives maxmsg priority { s with pc := .test } (s.mq.msgs.length + 4) :=
        receives_of_test rfl hg hreg
      exact htest.of_main (main_sleep hpc) rfl
    | false =>
      have hreg : s.mq.registered = true := by simpa [hpc, hpend, hg] using hone
      have hnil : s.mq.msgs = [] := hinv.watched hreg (by simp [State.drain, hpc])
      exact ⟨0, Nat.zero_le _, s, rfl, hpc, hnil, by simp [hnil]⟩
  | failed => exact absurd hpc h.pc

/-! ## The program -/

/-- The handler, if the signal is pending, and the next pass. -/
theorem receives_of_reachable {q : List α}
    (hs : (program maxmsg priority q).ReachableBy (fun _ l => l ≠ .kill) s) :
    ∃ ms s', (∀ l ∈ ms, l = .handler ∨ l = .main) ∧ ms.length ≤ s.mq.msgs.length + 6 ∧
      (program maxmsg priority q).run s ms = some s' ∧ s'.pc = .sleep ∧
      s'.read = s.read ++ s.mq.msgs := by
  obtain ⟨htoken, hinv⟩ := inv_drain hs
  have hmain : ∀ (k : ℕ), ∀ l ∈ List.replicate k (.main : Label α), l = .handler ∨ l = .main :=
    fun k l hl => .inr (List.eq_of_mem_replicate hl)
  cases hpend : s.pending with
  | false =>
    obtain ⟨k, hk, s', hrun, hpc, -, hread⟩ :=
      receives_of_token htoken hinv hpend
    refine ⟨List.replicate k .main, s', hmain k, ?_, hrun, hpc, hread⟩
    rw [List.length_replicate]
    omega
  | true =>
    have hst : (program maxmsg priority q).step s .handler =
        some { s with pending := false, gotSig := true } := if_pos ⟨hpend, htoken.pc⟩
    have ht := hs.step (l := .handler) (by simp) hst
    obtain ⟨htoken', hinv'⟩ := inv_drain ht
    obtain ⟨k, hk, s', hrun, hpc, -, hread⟩ :=
      receives_of_token htoken' hinv' rfl
    refine ⟨.handler :: List.replicate k .main, s', ?_, ?_, ?_, hpc, hread⟩
    · exact List.forall_mem_cons.2 ⟨.inl rfl, hmain k⟩
    · rw [List.length_cons, List.length_replicate]
      exact Nat.succ_le_succ hk
    · rw [Machine.run_cons, hst]
      exact hrun

/-- **The program that polls** `gotSig` does not fail while nobody sends it the signal, whatever is
on the queue before. Nothing is lost or received twice; and when nobody sends anything more, the
handler and the next pass of the loop receive what is left. -/
theorem poll_receives {q : List α} {ls : List (Label α)} (hls : .kill ∉ ls)
    (hrun : (program maxmsg priority q).run (start q) ls = some s) :
    s.pc ≠ .failed ∧ (s.read ++ s.mq.msgs).Perm s.sent ∧
      ∃ ms s', (∀ l ∈ ms, l = .handler ∨ l = .main) ∧ ms.length ≤ s.mq.msgs.length + 6 ∧
        (program maxmsg priority q).run s ms = some s' ∧ s'.pc = .sleep ∧
        s'.read.Perm s.sent := by
  have hs : (program maxmsg priority q).ReachableBy (fun _ l => l ≠ .kill) s :=
    Machine.ReachableBy.run .init ls (fun _ _ hl hk => hls (hk ▸ hl)) hrun
  obtain ⟨htoken, hinv⟩ := inv_drain hs
  obtain ⟨ms, s', hms, hlen, hrun', hpc, hread⟩ := receives_of_reachable hs
  exact ⟨htoken.pc, hinv.perm, ms, s', hms, hlen, hrun', hpc, hread ▸ hinv.perm⟩

/-- A message before the loop, and one that comes during the first round. -/
theorem poll_receives_two :
    ∃ s, (program 10 id [1]).run (start [1]) [.main, .main, .main, .main, .send 2] = some s ∧
      s.pending = true ∧ s.pc ≠ .failed ∧ (s.read ++ s.mq.msgs).Perm s.sent := by
  have hrun : (program 10 id [1]).run (start [1]) [.main, .main, .main, .main, .send 2] =
      some _ := rfl
  obtain ⟨hpc, hperm, -⟩ := poll_receives (by decide) hrun
  exact ⟨_, hrun, rfl, hpc, hperm⟩

end TlpiLearn.MqNotify.Polling
