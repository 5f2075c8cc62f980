import TlpiLearn.Foundations.Parties
import TlpiLearn.FifoSeqnum.Tickets

/-!
# What a bad client does to the servers

Every run of a server with its clients ends (`cost_lt`), and two processes never take a number for
their own. The servers differ in where a run ends. A server that polls always comes to the end of
its requests, whatever bad clients do, but it may abandon a client that is slow to open its FIFO;
if it never gives up on one, all clients are served (`polling_serves`). A server that blocks
abandons nobody, and serves all clients when none is bad; a bad client whose FIFO it opens blocks it
for good (`blocking_serves`).
-/

namespace TlpiLearn.FifoSeqnum.Protocol

variable {π : Type*}

/-! ## The work that is left -/

/-- How often the server tries to open a FIFO. -/
def Opening.tries : Opening → ℕ
  | polling attempts => attempts
  | blocking => 0

/-- The calls that a process and its request still take. -/
def ClientPc.cost (tries : ℕ) : ClientPc → ℕ
  | creating => tries + 11
  | sending => tries + 10
  | sent => 4
  | opening => 3
  | reading => 2
  | sleeping => 1
  | exiting _ => 1
  | exited _ => 0

/-- The calls that the request of the server still takes. -/
def ServerPc.cost (tries : ℕ) : ServerPc π → ℕ
  | reading => 0
  | opening _ i => tries - i + 4
  | blocked _ => 3
  | writing _ => 2
  | advancing _ => 1

/-- The calls that are left. -/
def State.cost [Fintype π] (tries : ℕ) (s : State π) : ℕ :=
  ∑ p, (s.client p).cost tries + (tries + 5) * s.requests.length + s.server.cost tries

variable [DecidableEq π] [Fintype π] {opening : Opening} {program : π → Program} {s s' : State π}

/-- The two opens meet. -/
theorem cost_meet_lt {tries : ℕ} {req : Request π} (hc : s.client req.pid = .opening)
    (hs : 3 ≤ s.server.cost tries) : (s.meet req).cost tries < s.cost tries := by
  have hsum := sum_update_add (fun _ => ClientPc.cost tries) s.client req.pid .reading
  have hopening : ClientPc.opening.cost tries = 3 := rfl
  have hreading : ClientPc.reading.cost tries = 2 := rfl
  have hwriting : (ServerPc.writing req).cost tries = 2 := rfl
  simp only [State.cost, State.meet, hc] at hsum ⊢
  omega

/-- **Every call lowers the work that is left.** -/
theorem cost_lt {l : Label π} (hst : step opening program s l = some s') :
    s'.cost opening.tries < s.cost opening.tries := by
  generalize htries : opening.tries = tries
  cases l with
  | create p =>
    obtain ⟨hc, rfl⟩ := step_create.1 hst
    have hsum := sum_update_add (fun _ => ClientPc.cost tries) s.client p .sending
    simp only [State.cost, hc, ClientPc.cost] at hsum ⊢
    omega
  | send p =>
    obtain ⟨⟨hc, -⟩, rfl⟩ := step_send.1 hst
    have hsum := sum_update_add (fun _ => ClientPc.cost tries) s.client p (program p).sent
    have hsent : (program p).sent.cost tries ≤ 4 := by
      cases program p <;> simp [Program.sent, ClientPc.cost]
    simp only [State.cost, hc, List.length_append, List.length_singleton, mul_add] at hsum ⊢
    rw [ClientPc.cost] at hsum
    omega
  | openFifo p =>
    obtain ⟨hc, rfl⟩ := step_openFifo.1 hst
    have hsum := sum_update_add (fun _ => ClientPc.cost tries) s.client p
      (if s.named p then .opening else .exited none)
    have hopen : (if s.named p then ClientPc.opening else .exited none).cost tries ≤ 3 := by
      split_ifs <;> simp [ClientPc.cost]
    simp only [State.cost, hc] at hsum ⊢
    rw [ClientPc.cost] at hsum
    omega
  | receive p =>
    cases hl : s.responses p with
    | nil =>
      obtain ⟨⟨hc, -⟩, rfl⟩ := (step_receive_nil hl).1 hst
      have hsum := sum_update_add (fun _ => ClientPc.cost tries) s.client p (.exited none)
      simp only [State.cost, hc, ClientPc.cost] at hsum ⊢
      omega
    | cons v l =>
      obtain ⟨hc, rfl⟩ := (step_receive hl).1 hst
      have hsum := sum_update_add (fun _ => ClientPc.cost tries) s.client p (.exiting v)
      simp only [State.cost, hc, ClientPc.cost] at hsum ⊢
      omega
  | exit p =>
    obtain ⟨pc, hpc, rfl⟩ := step_exit.1 hst
    have hsum := sum_update_add (fun _ => ClientPc.cost tries) s.client p pc
    have hlt : pc.cost tries < (s.client p).cost tries := by
      generalize s.client p = c at hpc
      cases c <;> cases hpc <;> exact Nat.zero_lt_one
    simp only [State.cost] at hsum ⊢
    omega
  | serverRead =>
    obtain ⟨hs, req, l, hl, rfl⟩ := step_serverRead.1 hst
    simp only [State.cost, hs, hl, ServerPc.cost, List.length_cons, mul_add]
    omega
  | serverOpen =>
    obtain ⟨req, i, hs, rfl⟩ | ⟨req, hs, hc, rfl⟩ := step_serverOpen.1 hst
    · obtain ⟨heq, -⟩ | ⟨heq, -⟩ | ⟨attempts, heq, hpoll, hi⟩ | ⟨heq, hc⟩ :=
        openClient_cases s opening req i
      · rw [heq]
        simp only [State.cost, hs, ServerPc.cost]
        omega
      · rw [heq]
        simp only [State.cost, hs, ServerPc.cost]
        omega
      · have hlt : i + 1 < tries := by rwa [← htries, hpoll]
        rw [heq]
        simp only [State.cost, hs, ServerPc.cost]
        omega
      · rw [heq]
        exact cost_meet_lt hc (by rw [hs, ServerPc.cost]; omega)
    · exact cost_meet_lt hc (by rw [hs, ServerPc.cost])
  | serverWrite =>
    obtain ⟨req, hs, rfl⟩ := step_serverWrite.1 hst
    simp only [State.cost, hs, ServerPc.cost]
    omega
  | serverAdvance =>
    obtain ⟨req, hs, rfl⟩ := step_serverAdvance.1 hst
    simp only [State.cost, hs, ServerPc.cost]
    omega

omit [DecidableEq π] in
theorem cost_start (tries : ℕ) (saved : Int32) (leftOver : π → Bool) :
    (start saved leftOver).cost tries = (tries + 11) * Fintype.card π := by
  simp [State.cost, start, ClientPc.cost, ServerPc.cost, mul_comm]

/-! ## Where a run ends -/

omit [Fintype π] in
theorem not_step {saved : Int32} {leftOver : π → Bool}
    (hstuck : (service opening program saved leftOver).Stuck s) {l : Label π} :
    step opening program s l ≠ some s' := hstuck.false

variable {C : Participants π} {A : Prop} {d : Dispenser π C.saved.toInt}

/-- Where a run ends, the server has read all requests, or a bad client blocks it. -/
theorem Inv.server_of_stuck (h : Inv C A s d)
    (hstuck : (service opening C.program C.saved C.leftOver).Stuck s) :
    s.server = .reading ∧ s.requests = [] ∨
      ∃ req n, s.server = .blocked req ∧ C.program req.pid = .badClient n := by
  cases hs : s.server with
  | reading =>
    cases hl : s.requests with
    | nil => exact .inl ⟨rfl, rfl⟩
    | cons req l => exact (not_step hstuck (step_serverRead.2 ⟨hs, req, l, hl, rfl⟩)).elim
  | opening req i => exact (not_step hstuck (step_serverOpen.2 (.inl ⟨req, i, hs, rfl⟩))).elim
  | blocked req =>
    obtain ⟨k, hk⟩ := exists_count_senders (mem_pending (congrArg ServerPc.held hs))
    obtain ⟨-, hl, ⟨-, -, -, hc | hc | hc⟩ | ⟨⟨n, hn⟩, -⟩⟩ := (hk ▸ h.stage req.pid).of_pending
    · exact (not_step hstuck (step_openFifo.2 ⟨hc, rfl⟩)).elim
    · exact (not_step hstuck (step_serverOpen.2 (.inr ⟨req, hs, hc, rfl⟩))).elim
    · obtain ⟨req', hs', -⟩ := h.connected req.pid hc hl
      rw [hs] at hs'
      cases hs'
    · exact .inr ⟨req, n, rfl, hn⟩
  | writing req => exact (not_step hstuck (step_serverWrite.2 ⟨req, hs, rfl⟩)).elim
  | advancing req => exact (not_step hstuck (step_serverAdvance.2 ⟨req, hs, rfl⟩)).elim

omit [DecidableEq π] in
/-- A process whose request is not under way has its ticket, is bad, or was abandoned in its
`open`. -/
theorem Stage.of_stuck {p : π} {prog : Program} {pc : ClientPc} {e : Bool} {l : List Int32}
    (h : Stage d A p prog pc e l 0) (hcreating : pc ≠ .creating) (hsending : pc ≠ .sending)
    (hsent : pc ≠ .sent) (hreading : pc ≠ .reading) (hexiting : ∀ v, pc ≠ .exiting v) :
    (∃ n v, prog = .client n ∧ pc = .exited (some v) ∧ ⟨p, ⟨v.toInt, n.toInt⟩⟩ ∈ d.tickets) ∨
      (∃ n, prog = .badClient n) ∧ p ∉ d.holders ∨
      (∃ n, prog = .client n) ∧ pc = .opening ∧ A ∧ p ∉ d.holders := by
  cases h with
  | creating => exact absurd rfl hcreating
  | sending => exact absurd rfl hsending
  | sent => exact absurd rfl hsent
  | opening hp hk =>
    obtain hk | ⟨-, hA⟩ := hk
    · cases hk
    · exact .inr (.inr ⟨⟨_, rfl⟩, rfl, hA, hp⟩)
  | answered => exact absurd rfl hreading
  | exiting => exact absurd rfl (hexiting _)
  | exited ht => exact .inl ⟨_, _, rfl, rfl, ht⟩
  | sleeping hp => exact .inr (.inl ⟨⟨_, rfl⟩, hp⟩)
  | badExited hp => exact .inr (.inl ⟨⟨_, rfl⟩, hp⟩)

/-- Where a run ends behind the last request, every client has its ticket and has printed it, or
was abandoned. -/
theorem Inv.of_stuck (h : Inv C A s d)
    (hstuck : (service opening C.program C.saved C.leftOver).Stuck s) (hs : s.server = .reading)
    (hl : s.requests = []) (p : π) :
    (∃ n v, C.program p = .client n ∧ s.client p = .exited (some v) ∧
      ⟨p, ⟨v.toInt, n.toInt⟩⟩ ∈ d.tickets) ∨
      (∃ n, C.program p = .badClient n) ∧ p ∉ d.holders ∨
      (∃ n, C.program p = .client n) ∧ s.client p = .opening ∧ A ∧ p ∉ d.holders := by
  have hsenders : s.senders = [] := by
    rw [State.senders, State.pending, hs, hl]
    rfl
  have hroom : s.requests.length < fifoRoom := hl ▸ Nat.succ_pos 8191
  have hstage := h.stage p
  rw [hsenders, List.count_nil] at hstage
  refine hstage.of_stuck (fun hc => ?_) (fun hc => ?_) (fun hc => ?_) (fun hc => ?_) fun v hc => ?_
  · exact not_step hstuck (step_create.2 ⟨hc, rfl⟩)
  · exact not_step hstuck (step_send.2 ⟨⟨hc, hroom⟩, rfl⟩)
  · exact not_step hstuck (step_openFifo.2 ⟨hc, rfl⟩)
  · cases hl' : s.responses p with
    | nil =>
      obtain ⟨req, hs', -⟩ := h.connected p hc hl'
      rw [hs] at hs'
      cases hs'
    | cons v l => exact not_step hstuck ((step_receive hl').2 ⟨hc, rfl⟩)
  · exact not_step hstuck (step_exit.2 ⟨_, congrArg ClientPc.exit hc, rfl⟩)

/-! ## What the clients print -/

/-- The number that a process has printed. -/
def ClientPc.printed : ClientPc → Option Int32
  | exiting v => some v
  | exited v => v
  | _ => none

/-- The interval that a process takes for its own. -/
def State.interval (C : Participants π) (s : State π) (p : π) : Option (Span ℤ) :=
  (s.client p).printed.map fun v => ⟨v.toInt, C.asked p⟩

/-- All clients have printed a number, and the intervals cover what was asked for. -/
structure Served (C : Participants π) (s : State π) : Prop where
  printed : ∀ p n, C.program p = .client n → ∃ v, s.client p = .exited (some v)
  cover : ⋃ p, ⋃ g ∈ s.interval C p, g.toSet =
    Set.Ico C.saved.toInt (C.saved.toInt + ∑ p, C.asked p)

omit [DecidableEq π] [Fintype π] in
/-- What is printed is the start of a ticket. -/
theorem Stage.mem_tickets {base : ℤ} {d : Dispenser π base} {p : π} {prog : Program}
    {pc : ClientPc} {e : Bool} {l : List Int32} {k : ℕ} {v : Int32}
    (h : Stage d A p prog pc e l k) (hv : pc.printed = some v) :
    ⟨p, ⟨v.toInt, prog.asked⟩⟩ ∈ d.tickets := by
  cases h with
  | exiting ht => exact Option.some.inj hv ▸ ht
  | exited ht => exact Option.some.inj hv ▸ ht
  | _ => cases hv

/-- What a process takes for its own is its ticket. -/
theorem Inv.mem_tickets (h : Inv C A s d) {p : π} {g : Span ℤ} (hg : s.interval C p = some g) :
    ⟨p, g⟩ ∈ d.tickets := by
  obtain ⟨v, hv, rfl⟩ := Option.map_eq_some_iff.1 hg
  exact (h.stage p).mem_tickets hv

/-- When nobody was abandoned, all clients are served. -/
theorem Inv.served (h : Inv C False s d) (hd : (dispenser C.saved.toInt C.asked).Reachable d)
    (hstuck : (service opening C.program C.saved C.leftOver).Stuck s) (hs : s.server = .reading)
    (hl : s.requests = []) : Served C s := by
  have hends : ∀ p, (∃ n v, C.program p = .client n ∧ s.client p = .exited (some v) ∧
      ⟨p, ⟨v.toInt, n.toInt⟩⟩ ∈ d.tickets) ∨
      (∃ n, C.program p = .badClient n) ∧ p ∉ d.holders := fun p => by
    obtain hserved | hbad | ⟨-, -, hA, -⟩ := h.of_stuck hstuck hs hl p
    · exact .inl hserved
    · exact .inr hbad
    · exact hA.elim
  have hnext : d.next = C.saved.toInt + ∑ p, C.asked p := by
    refine Dispenser.next_eq_sum_of_served hd fun p hp => ?_
    obtain ⟨n, v, -, -, ht⟩ | ⟨⟨n, hn⟩, -⟩ := hends p
    · exact absurd (Dispenser.mem_holders_of_mem ht) hp
    · rw [Participants.asked, hn, Program.asked]
  refine ⟨fun p n hp => ?_, ?_⟩
  · obtain ⟨-, v, -, hc, -⟩ | ⟨⟨m, hm⟩, -⟩ := hends p
    · exact ⟨v, hc⟩
    · rw [hp] at hm
      cases hm
  · rw [← hnext]
    refine d.iUnion_known (fun p g hg => h.mem_tickets hg) fun p hp => ?_
    obtain ⟨n, v, -, hc, -⟩ | ⟨-, hp'⟩ := hends p
    · simp [State.interval, hc, ClientPc.printed]
    · exact absurd hp hp'

/-! ## The two servers -/

omit [Fintype π] in
/-- A step is one of the server's calls, or the server does not see it but for a new request. -/
theorem step_server_or_client {l : Label π} (hst : step opening program s l = some s') :
    (l = .serverRead ∨ l = .serverOpen ∨ l = .serverWrite ∨ l = .serverAdvance) ∨
      s'.server = s.server ∧ s'.seqNum = s.seqNum ∧ s.requests <+: s'.requests := by
  cases l with
  | create p =>
    obtain ⟨-, rfl⟩ := step_create.1 hst
    exact .inr ⟨rfl, rfl, List.prefix_rfl⟩
  | send p =>
    obtain ⟨-, rfl⟩ := step_send.1 hst
    exact .inr ⟨rfl, rfl, List.prefix_append _ _⟩
  | openFifo p =>
    obtain ⟨-, rfl⟩ := step_openFifo.1 hst
    exact .inr ⟨rfl, rfl, List.prefix_rfl⟩
  | receive p =>
    cases hl : s.responses p with
    | nil =>
      obtain ⟨-, rfl⟩ := (step_receive_nil hl).1 hst
      exact .inr ⟨rfl, rfl, List.prefix_rfl⟩
    | cons v l =>
      obtain ⟨-, rfl⟩ := (step_receive hl).1 hst
      exact .inr ⟨rfl, rfl, List.prefix_rfl⟩
  | exit p =>
    obtain ⟨v, -, rfl⟩ := step_exit.1 hst
    exact .inr ⟨rfl, rfl, List.prefix_rfl⟩
  | _ => simp

omit [Fintype π] in
/-- A server that polls is not blocked in `open`. -/
theorem not_blocked_of_polling {attempts : ℕ} {saved : Int32} {leftOver : π → Bool}
    (hs : (service (.polling attempts) program saved leftOver).Reachable s) (req : Request π) :
    s.server ≠ .blocked req := by
  refine hs.invariant (I := fun s => ∀ req, s.server ≠ .blocked req) (by simp [service, start]) ?_
    req
  intro s l s' hs _ (hst : step (.polling attempts) program s l = some s') req
  obtain (rfl | rfl | rfl | rfl) | ⟨hserver, -⟩ := step_server_or_client hst
  · obtain ⟨-, req', l, -, rfl⟩ := step_serverRead.1 hst
    simp
  · obtain ⟨req', i, -, rfl⟩ | ⟨req', hs', -⟩ := step_serverOpen.1 hst
    · obtain ⟨heq, -⟩ | ⟨-, hpoll, -⟩ | ⟨n, heq, -⟩ | ⟨heq, -⟩ :=
        openClient_cases s (.polling attempts) req' i
      · simp [heq]
      · cases hpoll
      · simp [heq]
      · simp [heq, State.meet]
    · exact absurd hs' (hs req')
  · obtain ⟨req', -, rfl⟩ := step_serverWrite.1 hst
    simp
  · obtain ⟨req', -, rfl⟩ := step_serverAdvance.1 hst
    simp
  · exact hserver ▸ hs req

/-- A server that a bad client blocks stays so: it reads no other request. -/
theorem Inv.blocked_step (h : Inv C A s d) {req : Request π} {n : Int32}
    (hs : s.server = .blocked req) (hbad : C.program req.pid = .badClient n) {l : Label π}
    (hst : Protocol.step opening C.program s l = some s') :
    s'.server = .blocked req ∧ s'.seqNum = s.seqNum ∧ s.requests <+: s'.requests := by
  obtain (rfl | rfl | rfl | rfl) | ⟨hserver, hclient⟩ := step_server_or_client hst
  · obtain ⟨hs', -⟩ := step_serverRead.1 hst
    exact absurd (hs.symm.trans hs') (by simp)
  · obtain ⟨req', i, hs', -⟩ | ⟨req', hs', hc, -⟩ := step_serverOpen.1 hst
    · exact absurd (hs.symm.trans hs') (by simp)
    · -- the bad client sleeps, or it is gone
      obtain rfl := ServerPc.blocked.inj (hs.symm.trans hs')
      obtain ⟨k, hk⟩ := exists_count_senders (mem_pending (congrArg ServerPc.held hs))
      obtain ⟨-, -, ⟨⟨m, hm⟩, -⟩ | ⟨-, hc' | ⟨hc', -⟩⟩⟩ := (hk ▸ h.stage req.pid).of_pending
      · exact absurd (hbad.symm.trans hm) (by simp)
      · exact absurd (hc.symm.trans hc') (by simp)
      · exact absurd (hc.symm.trans hc') (by simp)
  · obtain ⟨req', hs', -⟩ := step_serverWrite.1 hst
    exact absurd (hs.symm.trans hs') (by simp)
  · obtain ⟨req', hs', -⟩ := step_serverAdvance.1 hst
    exact absurd (hs.symm.trans hs') (by simp)
  · exact ⟨hserver.trans hs, hclient⟩

omit [DecidableEq π] [Fintype π] in
/-- A server that blocks gives up on nobody. -/
theorem not_givesUp_blocking {l : Label π} : ¬ GivesUp .blocking s l := by
  rintro ⟨-, req, i, attempts, -, hpoll, -⟩
  cases hpoll

/-- A run is no longer than the work at its start. -/
theorem length_le {ls : List (Label π)}
    (h : (service opening C.program C.saved C.leftOver).run (start C.saved C.leftOver) ls = some s) :
    ls.length ≤ (opening.tries + 11) * Fintype.card π := by
  have hstart : (service opening C.program C.saved C.leftOver).Reachable
    (start C.saved C.leftOver) := .init
  have hlen := hstart.length_le (fun _ _ _ _ hst => cost_lt hst) ls h
  rw [cost_start] at hlen
  omega

/-- **The servers that poll** (`44_6.c` and `fifo_seqnum_server.c`), whatever the order of the calls
and whatever bad clients there are: no two processes take a number for their own; each run ends,
and where it ends the server has read all requests, and each client has printed a number or was
abandoned in its `open`; when the server has never given up on a client that had not come to its
`open`, all clients are served. -/
theorem polling_serves (C : Participants π) {ls : List (Label π)}
    (h : (service pollingServer C.program C.saved C.leftOver).run (start C.saved C.leftOver) ls =
      some s) :
    (∀ p q g g', p ≠ q → s.interval C p = some g → s.interval C q = some g' →
      Disjoint g.toSet g'.toSet) ∧
    ls.length ≤ 20011 * Fintype.card π ∧
    ((service pollingServer C.program C.saved C.leftOver).Stuck s →
      (s.server = .reading ∧ s.requests = [] ∧ ∀ p n, C.program p = .client n →
        (∃ v, s.client p = .exited (some v)) ∨ s.client p = .opening) ∧
      ((service pollingServer C.program C.saved C.leftOver).Meets
        (fun s l => ¬ GivesUp pollingServer s l) (start C.saved C.leftOver) ls → Served C s)) := by
  have hreach := Machine.Reachable.run .init ls h
  obtain ⟨d, hd, hinv⟩ := exists_inv (C := C) (A := True) (fun _ _ _ _ => trivial) hreach
  have hends : (service pollingServer C.program C.saved C.leftOver).Stuck s →
      s.server = .reading ∧ s.requests = [] := fun hstuck => by
    obtain hread | ⟨req, -, hs, -⟩ := hinv.server_of_stuck hstuck
    · exact hread
    · exact absurd hs (not_blocked_of_polling hreach req)
  refine ⟨fun p q g g' hpq hg hg' => ?_, length_le h, fun hstuck => ⟨⟨(hends hstuck).1,
    (hends hstuck).2, fun p n hp => ?_⟩, fun hok => ?_⟩⟩
  · exact Dispenser.disjoint (hinv.mem_tickets hg) (hinv.mem_tickets hg') hpq
  · obtain ⟨-, v, -, hc, -⟩ | ⟨⟨m, hm⟩, -⟩ | ⟨-, hc, -⟩ :=
      hinv.of_stuck hstuck (hends hstuck).1 (hends hstuck).2 p
    · exact .inl ⟨v, hc⟩
    · rw [hp] at hm
      cases hm
    · exact .inr hc
  · obtain ⟨d', hd', hinv'⟩ := exists_inv (C := C) (A := False) (fun _ _ hno => hno)
      (Machine.ReachableBy.of_meets .init hok h)
    exact hinv'.served hd' hstuck (hends hstuck).1 (hends hstuck).2

/-- Two clients that ask for 5 and 7 numbers behind a saved 100, and a bad client. -/
def twoClients : Participants (Fin 3) where
  program := ![.client 5, .client 7, .badClient 1]
  saved := 100
  leftOver := fun _ => false
  saved_nonneg := by decide
  one_le_seqLen p n h := by fin_cases p <;> cases h <;> decide
  sum_asked_lt := by decide

/-- The server gives up on the bad client, which is gone, answers the first client, and opens the
FIFO of the second at its second attempt. -/
theorem polling_serves_twoClients :
    ∃ s, (service pollingServer twoClients.program 100 fun _ => false).run
        (start 100 fun _ => false)
      [.create 2, .send 2, .create 0, .send 0, .exit 2, .serverRead, .serverOpen, .create 1,
        .send 1, .openFifo 0, .serverRead, .serverOpen, .serverWrite, .serverAdvance, .serverRead,
        .serverOpen, .openFifo 1, .serverOpen, .serverWrite, .receive 1, .receive 0] = some s ∧
      s.client 1 = .exiting 105 ∧
      Disjoint (Span.toSet ⟨100, 5⟩) (Span.toSet (⟨105, 7⟩ : Span ℤ)) := by
  have hrun : (service pollingServer twoClients.program 100 fun _ => false).run
        (start 100 fun _ => false)
      [.create 2, .send 2, .create 0, .send 0, .exit 2, .serverRead, .serverOpen, .create 1,
        .send 1, .openFifo 0, .serverRead, .serverOpen, .serverWrite, .serverAdvance, .serverRead,
        .serverOpen, .openFifo 1, .serverOpen, .serverWrite, .receive 1, .receive 0] = some _ := rfl
  exact ⟨_, hrun, rfl, (polling_serves twoClients hrun).1 0 1 _ _ (by decide) rfl rfl⟩

/-- **The servers that block** (`44_3.c` and `44_4.c`): no two processes take a number for their
own; each run ends, and where it ends all clients are served or a bad client blocks the server; in
that case it reads no other request, whatever the processes do. -/
theorem blocking_serves (C : Participants π) {ls : List (Label π)}
    (h : (service blockingServer C.program C.saved C.leftOver).run (start C.saved C.leftOver) ls =
      some s) :
    (∀ p q g g', p ≠ q → s.interval C p = some g → s.interval C q = some g' →
      Disjoint g.toSet g'.toSet) ∧
    ls.length ≤ 11 * Fintype.card π ∧
    ((service blockingServer C.program C.saved C.leftOver).Stuck s →
      Served C s ∨ ∃ req n, s.server = .blocked req ∧ C.program req.pid = .badClient n) ∧
    (∀ req n, s.server = .blocked req → C.program req.pid = .badClient n → ∀ ms t,
      (service blockingServer C.program C.saved C.leftOver).run s ms = some t →
      t.server = .blocked req ∧ t.seqNum = s.seqNum ∧ s.requests <+: t.requests) := by
  have hreach := Machine.Reachable.run .init ls h
  obtain ⟨d, hd, hinv⟩ := exists_inv (C := C) (A := False)
    (fun _ _ _ => not_givesUp_blocking) hreach
  refine ⟨fun p q g g' hpq hg hg' => ?_, ?_, fun hstuck => ?_, fun req n hs hbad ms t hms => ?_⟩
  · exact Dispenser.disjoint (hinv.mem_tickets hg) (hinv.mem_tickets hg') hpq
  · have hlen := length_le h
    rwa [blockingServer, Opening.tries, zero_add] at hlen
  · obtain ⟨hs, hl⟩ | hblocked := hinv.server_of_stuck hstuck
    · exact .inl (hinv.served hd hstuck hs hl)
    · exact .inr hblocked
  · clear hinv hd h
    induction ms generalizing s with
    | nil =>
      obtain rfl := Option.some.inj hms
      exact ⟨hs, rfl, List.prefix_rfl⟩
    | cons l ms ih =>
      rw [Machine.run_cons, Option.bind_eq_some_iff] at hms
      obtain ⟨u, hu, hms⟩ := hms
      obtain ⟨d, -, hinv⟩ := exists_inv (C := C) (A := False)
        (fun _ _ _ => not_givesUp_blocking) hreach
      obtain ⟨hu', hseq, hpre⟩ := hinv.blocked_step hs hbad hu
      obtain ⟨ht, hseq', hpre'⟩ := ih (hreach.step trivial hu) hu' hms
      exact ⟨ht, hseq'.trans hseq, hpre.trans hpre'⟩

/-- The server opens the FIFO of the bad client and never reads the request of the first. -/
theorem blocking_serves_twoClients :
    ∃ s, (service blockingServer twoClients.program 100 fun _ => false).run
        (start 100 fun _ => false)
      [.create 2, .send 2, .create 0, .send 0, .serverRead, .serverOpen] = some s ∧
      ∀ ms t, (service blockingServer twoClients.program 100 fun _ => false).run s ms = some t →
        t.server = .blocked ⟨2, 1⟩ := by
  have hrun : (service blockingServer twoClients.program 100 fun _ => false).run
        (start 100 fun _ => false)
      [.create 2, .send 2, .create 0, .send 0, .serverRead, .serverOpen] = some _ := rfl
  exact ⟨_, hrun, fun ms t hms =>
    ((blocking_serves twoClients hrun).2.2.2 ⟨2, 1⟩ 1 rfl rfl ms t hms).1⟩

end TlpiLearn.FifoSeqnum.Protocol
