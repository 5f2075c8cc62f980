import TlpiLearn.Foundations.Parties
import TlpiLearn.MqSeqnum.Correct

/-!
# Every client of the service is served

Each call of the service lowers a bounded amount of work (`cost_lt`), so that every run ends, and
where it ends every client has printed a number (`Inv.served`): the server never blocks in
`mq_send`, since the queue of a client that waits is empty. `service_serves` puts this together
with the refinement of the dispenser.
-/

namespace TlpiLearn.MqSeqnum

variable {π : Type*}

/-! ## The work that is left -/

/-- The calls that a process and its message still take. -/
def ClientPc.cost : ClientPc → ℕ
  | creating => 8
  | sending => 7
  | receiving => 2
  | exiting _ => 1
  | exited _ => 0

/-- The calls that the request of the server still takes. -/
def ServerPc.cost : ServerPc π → ℕ
  | receiving => 0
  | opening _ => 3
  | sending _ => 2
  | advancing _ => 1

/-- The calls that are left. A message takes four of the server. -/
def State.cost [Fintype π] (s : State π) : ℕ :=
  ∑ p, (s.client p).cost + 4 * s.requests.length + s.server.cost

variable [DecidableEq π] [Fintype π] {C : Participants π} {program : π → Program}
  {s s' : State π} {d : Dispenser π 0}

/-- **Every call lowers the work that is left.** -/
theorem cost_lt {l : Label π} (hst : step program s l = some s') : s'.cost < s.cost := by
  cases l with
  | create p =>
    obtain ⟨⟨hc, -⟩, rfl⟩ := step_create.1 hst
    have hsum := sum_update_add (fun _ => ClientPc.cost) s.client p .sending
    simp only [State.cost, hc, ClientPc.cost] at hsum ⊢
    omega
  | send p =>
    obtain ⟨⟨hc, -⟩, rfl⟩ := step_send.1 hst
    have hsum := sum_update_add (fun _ => ClientPc.cost) s.client p (program p).sent
    have hsent : (program p).sent.cost ≤ 2 := by
      cases program p <;> simp [Program.sent, ClientPc.cost]
    simp only [State.cost, hc, List.length_append, List.length_singleton] at hsum ⊢
    rw [ClientPc.cost] at hsum
    omega
  | receive p =>
    obtain ⟨v, l, hc, -, rfl⟩ := step_receive.1 hst
    have hsum := sum_update_add (fun _ => ClientPc.cost) s.client p (.exiting v)
    simp only [State.cost, hc, ClientPc.cost] at hsum ⊢
    omega
  | exit p =>
    obtain ⟨v, hc, rfl⟩ := step_exit.1 hst
    have hsum := sum_update_add (fun _ => ClientPc.cost) s.client p (.exited (some v))
    simp only [State.cost, hc, ClientPc.cost] at hsum ⊢
    omega
  | serverReceive =>
    obtain ⟨hs, m, l, hl, rfl⟩ := step_serverReceive.1 hst
    cases m <;> simp only [State.cost, hs, hl, ServerPc.cost, Option.elim, List.length_cons] <;>
      omega
  | serverOpen =>
    obtain ⟨req, hs, rfl⟩ := step_serverOpen.1 hst
    split_ifs <;> simp only [State.cost, hs, ServerPc.cost] <;> omega
  | serverSend =>
    obtain ⟨req, hs⟩ := exists_sending_of_step hst
    have hcost : s'.client = s.client ∧ s'.requests = s.requests ∧
        s'.server = .advancing req := by
      cases hmq : s.clientMQ req.pid with
      | none =>
        simp only [step, hs, hmq, Option.some.injEq] at hst
        exact hst ▸ ⟨rfl, rfl, rfl⟩
      | some q =>
        obtain ⟨-, rfl⟩ := (step_serverSend hmq hs).1 hst
        exact ⟨rfl, rfl, rfl⟩
    obtain ⟨hclient, hrequests, hserver⟩ := hcost
    simp only [State.cost, hclient, hrequests, hserver, hs, ServerPc.cost]
    omega
  | serverAdvance =>
    obtain ⟨req, hs, rfl⟩ := step_serverAdvance.1 hst
    simp only [State.cost, hs, ServerPc.cost]
    omega

omit [DecidableEq π] in
theorem cost_start_le : (start program).cost ≤ 8 * Fintype.card π := by
  have hle : ∀ p ∈ Finset.univ, ((start program).client p).cost ≤ 8 := fun p _ => by
    simp only [start]
    cases program p <;> simp [Program.start, ClientPc.cost]
  have hsum := Finset.sum_le_card_nsmul _ _ _ hle
  simp only [State.cost, start, List.length_nil, ServerPc.cost, Finset.card_univ,
    smul_eq_mul] at hsum ⊢
  omega

/-! ## Where the service stops -/

/-- The server does not block in `mq_send`. -/
theorem Inv.not_blocked (h : Inv C s d) {req : Request π} (hs : s.server = .sending req) :
    ∃ q, s.clientMQ req.pid = some q ∧ q.length < maxmsg :=
  ⟨[], (h.of_sending hs).2.2.1, by decide⟩

omit [Fintype π] in
theorem not_step (hstuck : (service program).Stuck s) {l : Label π} :
    step program s l ≠ some s' := hstuck.false

/-- The server only waits for messages. -/
theorem Inv.server_of_stuck (h : Inv C s d) (hstuck : (service C.program).Stuck s) :
    s.server = .receiving ∧ s.requests = [] := by
  cases hs : s.server with
  | receiving =>
    refine ⟨rfl, ?_⟩
    cases hl : s.requests with
    | nil => rfl
    | cons m l => exact (not_step hstuck (step_serverReceive.2 ⟨hs, m, l, hl, rfl⟩)).elim
  | opening req => exact (not_step hstuck (step_serverOpen.2 ⟨req, hs, rfl⟩)).elim
  | sending req =>
    obtain ⟨q, hq, hlt⟩ := h.not_blocked hs
    exact (not_step hstuck ((step_serverSend hq hs).2 ⟨hlt, rfl⟩)).elim
  | advancing req => exact (not_step hstuck (step_serverAdvance.2 ⟨req, hs, rfl⟩)).elim

/-- **Where the service stops, every client has its ticket and has printed it.** -/
theorem Inv.served (h : Inv C s d) (hstuck : (service C.program).Stuck s) (p : π) :
    (∃ n v, C.program p = .client n ∧ s.client p = .exited (some v) ∧
      ⟨p, ⟨v.toInt, n.toInt⟩⟩ ∈ d.tickets) ∨
    (∃ m, C.program p = .stranger m) ∧ s.client p = .exited none ∧ p ∉ d.holders := by
  obtain ⟨hserver, hrequests⟩ := h.server_of_stuck hstuck
  have hsenders : s.senders = [] := by
    rw [State.senders, State.pending, hserver, hrequests]
    rfl
  have hroom : s.requests.length < maxmsg := hrequests ▸ Nat.succ_pos 9
  have hstage := h.stage p
  rw [hsenders, List.count_nil] at hstage
  generalize hprog : C.program p = prog at hstage
  generalize hc : s.client p = pc at hstage
  generalize hmq : s.clientMQ p = mq at hstage
  cases hstage with
  | creating => exact (not_step hstuck (step_create.2 ⟨⟨hc, hmq⟩, rfl⟩)).elim
  | sending => exact (not_step hstuck (step_send.2 ⟨⟨hc, hroom⟩, rfl⟩)).elim
  | answered ht => exact (not_step hstuck (step_receive.2 ⟨_, _, hc, hmq, rfl⟩)).elim
  | exiting ht => exact (not_step hstuck (step_exit.2 ⟨_, hc, rfl⟩)).elim
  | exited ht => exact .inl ⟨_, _, rfl, rfl, ht⟩
  | strangerSending hp => exact (not_step hstuck (step_send.2 ⟨⟨hc, hroom⟩, rfl⟩)).elim
  | strangerExited hp => exact .inr ⟨⟨_, rfl⟩, rfl, hp⟩

/-! ## What the clients print -/

/-- The number that a process has printed. -/
def ClientPc.printed : ClientPc → Option Int32
  | exiting v => some v
  | exited v => v
  | _ => none

/-- The interval that a process takes for its own. -/
def State.interval (C : Participants π) (s : State π) (p : π) : Option (Span ℤ) :=
  (s.client p).printed.map fun v => ⟨v.toInt, C.asked p⟩

omit [DecidableEq π] [Fintype π] in
/-- What is printed is the start of a ticket. -/
theorem Stage.mem_tickets {p : π} {prog : Program} {pc : ClientPc} {mq : Option (List Int32)}
    {k : ℕ} {v : Int32} (h : Stage d p prog pc mq k) (hv : pc.printed = some v) :
    ⟨p, ⟨v.toInt, prog.asked⟩⟩ ∈ d.tickets := by
  cases h with
  | exiting ht => exact Option.some.inj hv ▸ ht
  | exited ht => exact Option.some.inj hv ▸ ht
  | _ => cases hv

/-- What a process takes for its own is its ticket. -/
theorem Inv.mem_tickets (h : Inv C s d) {p : π} {g : Span ℤ} (hg : s.interval C p = some g) :
    ⟨p, g⟩ ∈ d.tickets := by
  obtain ⟨v, hv, rfl⟩ := Option.map_eq_some_iff.1 hg
  exact (h.stage p).mem_tickets hv

/-- Where the service stops, the intervals cover what was asked for. -/
theorem Inv.iUnion_interval (h : Inv C s d) (hd : (dispenser 0 C.asked).Reachable d)
    (hstuck : (service C.program).Stuck s) :
    ⋃ p, ⋃ g ∈ s.interval C p, g.toSet = Set.Ico 0 (∑ p, C.asked p) := by
  have hserved := h.served hstuck
  have hnext : d.next = ∑ p, C.asked p := by
    rw [← zero_add (∑ p, C.asked p)]
    refine Dispenser.next_eq_sum_of_served hd fun p hp => ?_
    obtain ⟨n, v, -, -, ht⟩ | ⟨⟨m, hm⟩, -⟩ := hserved p
    · exact absurd (Dispenser.mem_holders_of_mem ht) hp
    · rw [Participants.asked, hm, Program.asked]
  rw [← hnext]
  refine d.iUnion_known (fun p g hg => h.mem_tickets hg) fun p hp => ?_
  obtain ⟨n, v, -, hc, -⟩ | ⟨-, -, hp'⟩ := hserved p
  · simp [State.interval, hc, ClientPc.printed]
  · exact absurd hp hp'

/-- **The service over message queues**, whatever the order of the calls, and whatever strangers
write to the server's queue: no two processes take a number for their own, the server never blocks
in `mq_send`, each run ends, and where it ends every client has printed the start of its interval
and the intervals cover what was asked for. -/
theorem service_serves (C : Participants π) {ls : List (Label π)}
    (h : (service C.program).run (start C.program) ls = some s) :
    (∀ p q g g', p ≠ q → s.interval C p = some g → s.interval C q = some g' →
      Disjoint g.toSet g'.toSet) ∧
    (∀ req, s.server = .sending req → ∃ q, s.clientMQ req.pid = some q ∧ q.length < maxmsg) ∧
    ls.length ≤ 8 * Fintype.card π ∧
    ((service C.program).Stuck s →
      (∀ p n, C.program p = .client n → ∃ v, s.client p = .exited (some v)) ∧
      ⋃ p, ⋃ g ∈ s.interval C p, g.toSet = Set.Ico 0 (∑ p, C.asked p)) := by
  have hstart : (service C.program).Reachable (start C.program) := .init
  obtain ⟨d, hd, hinv⟩ := exists_inv (hstart.run ls h)
  refine ⟨fun p q g g' hpq hg hg' => ?_, fun req hs => hinv.not_blocked hs, ?_, fun hstuck =>
    ⟨fun p n hp => ?_, hinv.iUnion_interval hd hstuck⟩⟩
  · exact Dispenser.disjoint (hinv.mem_tickets hg) (hinv.mem_tickets hg') hpq
  · have hlen := hstart.length_le (fun _ _ _ _ hst => cost_lt hst) ls h
    have hcost : (start C.program).cost ≤ 8 * Fintype.card π := cost_start_le
    omega
  · obtain ⟨n', v, -, hc, -⟩ | ⟨⟨m, hm⟩, -⟩ := hinv.served hstuck p
    · exact ⟨v, hc⟩
    · rw [hp] at hm
      cases hm

/-- Two clients that ask for 5 and 7 numbers, and a stranger whose request is for 3. -/
def twoClients : Participants (Fin 3) where
  program := ![.client 5, .client 7, .stranger (some 3)]
  one_le_seqLen p n h := by fin_cases p <;> cases h <;> decide
  sum_asked_lt := by decide

/-- The stranger's request comes between those of the clients and uses up no number. -/
theorem service_serves_twoClients :
    ∃ s, (service twoClients.program).run (start twoClients.program)
      [.create 0, .create 1, .send 1, .send 2, .send 0, .serverReceive, .serverOpen, .serverSend,
        .serverAdvance, .serverReceive, .serverOpen, .serverReceive, .serverOpen, .serverSend,
        .receive 0, .receive 1] = some s ∧
      s.client 0 = .exiting 7 ∧ Disjoint (Span.toSet ⟨7, 5⟩) (Span.toSet (⟨0, 7⟩ : Span ℤ)) := by
  have hrun : (service twoClients.program).run (start twoClients.program)
      [.create 0, .create 1, .send 1, .send 2, .send 0, .serverReceive, .serverOpen, .serverSend,
        .serverAdvance, .serverReceive, .serverOpen, .serverReceive, .serverOpen, .serverSend,
        .receive 0, .receive 1] = some _ := rfl
  exact ⟨_, hrun, rfl, (service_serves twoClients hrun).1 0 1 _ _ (by decide) rfl rfl⟩

end TlpiLearn.MqSeqnum
