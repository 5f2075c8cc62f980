import TlpiLearn.Foundations.Dispenser
import TlpiLearn.Foundations.Refinement
import TlpiLearn.FifoSeqnum.Protocol

/-!
# The servers refine the dispenser

As with message queues, the invariant `Inv` relates a server to the dispenser of intervals, and
`Stage` follows each process with its FIFO and with the number of its requests under way. Here a
server may give up on a client that has sent its request (`GivesUp`): the client is then abandoned,
without a ticket and without a request under way. `Stage` and `Inv` have a proposition `A` as a
parameter, which holds when somebody may be abandoned.
-/

namespace TlpiLearn.FifoSeqnum.Protocol

variable {π : Type*}

/-- Clients that ask for at least one number each, and together for no more than an `int` counts
behind the saved number. -/
structure Participants (π : Type*) [Fintype π] where
  program : π → Program
  /-- The number in the save file. -/
  saved : Int32
  /-- The FIFOs that are left over. -/
  leftOver : π → Bool
  saved_nonneg : 0 ≤ saved.toInt
  one_le_seqLen : ∀ p n, program p = .client n → 1 ≤ n.toInt
  sum_asked_lt : saved.toInt + ∑ p, (program p).asked < 2 ^ 31

/-- How many numbers each process is to get. -/
def Participants.asked [Fintype π] (C : Participants π) (p : π) : ℤ := (C.program p).asked

theorem Participants.asked_nonneg [Fintype π] (C : Participants π) (p : π) : 0 ≤ C.asked p := by
  cases hp : C.program p with
  | client n =>
    have := C.one_le_seqLen p n hp
    simp only [asked, hp, Program.asked]
    omega
  | badClient n => simp [asked, hp, Program.asked]

/-- The request that the server has read and not yet answered. -/
def ServerPc.held : ServerPc π → List (Request π)
  | .opening req _ => [req]
  | .blocked req => [req]
  | .writing req => [req]
  | _ => []

/-- How far the numbers sent are ahead of `seqNum`. -/
def ServerPc.ahead : ServerPc π → ℤ
  | .advancing req => req.seqLen.toInt
  | _ => 0

/-- The requests under way. -/
def State.pending (s : State π) : List (Request π) := s.server.held ++ s.requests

/-- Their senders. -/
def State.senders (s : State π) : List π := s.pending.map Request.pid

/-- What a process has done and got: its program, where it is, whether its FIFO has a name, what is
in it, and how many of its requests are under way. -/
inductive Stage {base : ℤ} (d : Dispenser π base) (A : Prop) (p : π) :
    Program → ClientPc → Bool → List Int32 → ℕ → Prop
  | creating {prog e} (hp : p ∉ d.holders) : Stage d A p prog .creating e [] 0
  | sending {prog} (hp : p ∉ d.holders) : Stage d A p prog .sending true [] 0
  | sent {n k} (hp : p ∉ d.holders) (hk : k = 1 ∨ k = 0 ∧ A) :
      Stage d A p (.client n) .sent true [] k
  | opening {n k} (hp : p ∉ d.holders) (hk : k = 1 ∨ k = 0 ∧ A) :
      Stage d A p (.client n) .opening true [] k
  | connected {n} (hp : p ∉ d.holders) : Stage d A p (.client n) .reading true [] 1
  | answered {n v} (ht : ⟨p, ⟨v.toInt, n.toInt⟩⟩ ∈ d.tickets) :
      Stage d A p (.client n) .reading true [v] 0
  | exiting {n v} (ht : ⟨p, ⟨v.toInt, n.toInt⟩⟩ ∈ d.tickets) :
      Stage d A p (.client n) (.exiting v) true [] 0
  | exited {n v} (ht : ⟨p, ⟨v.toInt, n.toInt⟩⟩ ∈ d.tickets) :
      Stage d A p (.client n) (.exited (some v)) false [] 0
  | sleeping {n k} (hp : p ∉ d.holders) : Stage d A p (.badClient n) .sleeping true [] k
  | badExited {n k} (hp : p ∉ d.holders) : Stage d A p (.badClient n) (.exited none) false [] k

/-- What relates a server to the dispenser. -/
structure Inv [DecidableEq π] [Fintype π] (C : Participants π) (A : Prop) (s : State π)
    (d : Dispenser π C.saved.toInt) : Prop where
  next : s.seqNum.toInt + s.server.ahead = d.next
  stage : ∀ p, Stage d A p (C.program p) (s.client p) (s.named p) (s.responses p)
    (s.senders.count p)
  seqLen : ∀ req ∈ s.pending, (C.program req.pid).seqLen = req.seqLen
  connected : ∀ p, s.client p = .reading → s.responses p = [] →
    ∃ req, s.server = .writing req ∧ req.pid = p
  writing : ∀ req, s.server = .writing req → s.client req.pid = .reading

/-- The server makes its last attempt to open the FIFO of a client that has not come to its own
`open`. -/
def GivesUp (opening : Opening) (s : State π) (l : Label π) : Prop :=
  l = .serverOpen ∧ ∃ req i attempts, s.server = .opening req i ∧ opening = .polling attempts ∧
    attempts ≤ i + 1 ∧ s.client req.pid = .sent

/-! ## The stages of a process -/

namespace Stage

variable {base : ℤ} {d : Dispenser π base} {A : Prop} {p q : π} {prog : Program} {pc : ClientPc}
  {e : Bool} {l : List Int32} {k : ℕ}

theorem create (h : Stage d A p prog .creating e l k) : Stage d A p prog .sending true l k := by
  cases h with
  | creating hp => exact .sending hp

theorem send (h : Stage d A p prog .sending e l k) : Stage d A p prog prog.sent e l (k + 1) := by
  cases h with
  | sending hp =>
    cases prog with
    | client n => exact .sent hp (.inl rfl)
    | badClient n => exact .sleeping hp

theorem openFifo (h : Stage d A p prog .sent e l k) : e = true ∧ Stage d A p prog .opening e l k := by
  cases h with
  | sent hp hk => exact ⟨rfl, .opening hp hk⟩

theorem receive {v : Int32} (h : Stage d A p prog .reading e (v :: l) k) :
    k = 0 ∧ Stage d A p prog (.exiting v) e l k := by
  cases h with
  | answered ht => exact ⟨rfl, .exiting ht⟩

theorem exit {pc' : ClientPc} (h : Stage d A p prog pc e l k) (hpc : pc.exit = some pc') :
    Stage d A p prog pc' false l k := by
  cases h with
  | exiting ht => exact Option.some.inj hpc ▸ .exited ht
  | sleeping hp => exact Option.some.inj hpc ▸ .badExited hp
  | _ => cases hpc

/-- A client in its `open` meets the server that holds its request. -/
theorem meet (h : Stage d A p prog .opening e l k) (hk : k ≠ 0) :
    Stage d A p prog .reading e l k := by
  cases h with
  | opening hp hk' =>
    obtain rfl | ⟨hzero, -⟩ := hk'
    · exact .connected hp
    · exact absurd hzero hk

/-- The server drops a request. -/
theorem drop (h : Stage d A p prog pc e l (k + 1)) (hreading : pc ≠ .reading)
    (hopening : pc ≠ .opening) (hA : pc = .sent → A) : Stage d A p prog pc e l k := by
  cases h with
  | sent hp hk => exact .sent hp (.inr ⟨by omega, hA rfl⟩)
  | opening => exact absurd rfl hopening
  | connected => exact absurd rfl hreading
  | sleeping hp => exact .sleeping hp
  | badExited hp => exact .badExited hp

/-- A request under way is that of a client that waits, or of a bad client. -/
theorem of_pending (h : Stage d A p prog pc e l (k + 1)) :
    p ∉ d.holders ∧ l = [] ∧ ((∃ n, prog = .client n) ∧ k = 0 ∧ e = true ∧
      (pc = .sent ∨ pc = .opening ∨ pc = .reading) ∨
      (∃ n, prog = .badClient n) ∧ (pc = .sleeping ∨ pc = .exited none ∧ e = false)) := by
  cases h with
  | sent hp hk => exact ⟨hp, rfl, .inl ⟨⟨_, rfl⟩, by omega, rfl, .inl rfl⟩⟩
  | opening hp hk => exact ⟨hp, rfl, .inl ⟨⟨_, rfl⟩, by omega, rfl, .inr (.inl rfl)⟩⟩
  | connected hp => exact ⟨hp, rfl, .inl ⟨⟨_, rfl⟩, rfl, rfl, .inr (.inr rfl)⟩⟩
  | sleeping hp => exact ⟨hp, rfl, .inr ⟨⟨_, rfl⟩, .inl rfl⟩⟩
  | badExited hp => exact ⟨hp, rfl, .inr ⟨⟨_, rfl⟩, .inr ⟨rfl, rfl⟩⟩⟩

/-- A ticket for another process changes nothing for a process. -/
theorem grant (h : Stage d A q prog pc e l k) {n : ℤ} (hp : p ∉ d.holders) (hn : 0 < n)
    (hpq : q ≠ p) : Stage (d.grant p n hp hn) A q prog pc e l k := by
  have hnew := Dispenser.not_mem_holders_grant hp hn hpq
  have hold : ∀ {t}, t ∈ d.tickets → t ∈ (d.grant p n hp hn).tickets := fun ht =>
    (Dispenser.mem_tickets_grant hp hn).2 (.inl ht)
  cases h with
  | creating hp => exact .creating (hnew hp)
  | sending hp => exact .sending (hnew hp)
  | sent hp hk => exact .sent (hnew hp) hk
  | opening hp hk => exact .opening (hnew hp) hk
  | connected hp => exact .connected (hnew hp)
  | answered ht => exact .answered (hold ht)
  | exiting ht => exact .exiting (hold ht)
  | exited ht => exact .exited (hold ht)
  | sleeping hp => exact .sleeping (hnew hp)
  | badExited hp => exact .badExited (hnew hp)

end Stage

variable [DecidableEq π]

/-- What a step of `p` may change: its name, its FIFO and where it is. -/
def State.setParty (s : State π) (p : π) (e : Bool) (l : List Int32) (pc : ClientPc) : State π :=
  { s with
    named := Function.update s.named p e
    responses := Function.update s.responses p l
    client := Function.update s.client p pc }

variable {p : π} {s s' : State π} {A : Prop}

theorem setParty_responses (s : State π) (p : π) (e : Bool) (pc : ClientPc) :
    s.setParty p e (s.responses p) pc =
      { s with named := Function.update s.named p e, client := Function.update s.client p pc } := by
  rw [State.setParty, Function.update_eq_self]

theorem setParty_named_responses (s : State π) (p : π) (pc : ClientPc) :
    s.setParty p (s.named p) (s.responses p) pc =
      { s with client := Function.update s.client p pc } := by
  rw [setParty_responses, Function.update_eq_self]

omit [DecidableEq π] in
theorem mem_pending {req : Request π} (hheld : s.server.held = [req]) : req ∈ s.pending := by
  rw [State.pending, hheld]
  exact List.mem_cons_self

/-- The sender of a request under way is counted. -/
theorem exists_count_senders {req : Request π} (hreq : req ∈ s.pending) :
    ∃ k, s.senders.count req.pid = k + 1 :=
  Nat.exists_eq_add_one.2 (List.count_pos_iff.2 (List.mem_map_of_mem hreq))

variable [Fintype π] {C : Participants π} {d : Dispenser π C.saved.toInt}

theorem inv_start : Inv C A (start C.saved C.leftOver) Dispenser.empty where
  next := add_zero _
  stage _ := .creating List.not_mem_nil
  seqLen _ h := absurd h List.not_mem_nil
  connected _ h := by simp [start] at h
  writing _ h := by simp [start] at h

namespace Inv

/-! ## The steps of a client -/

/-- The other processes do not see the step of a process that the server is not writing to. -/
theorem setParty (h : Inv C A s d) {e : Bool} {l : List Int32} {pc : ClientPc}
    (hstage : Stage d A p (C.program p) pc e l (s.senders.count p)) (hpc : pc ≠ .reading)
    (hp : ∀ req, s.server = .writing req → req.pid ≠ p) : Inv C A (s.setParty p e l pc) d where
  next := h.next
  stage q := by
    change Stage d A q _ (Function.update s.client p pc q) (Function.update s.named p e q)
      (Function.update s.responses p l q) (s.senders.count q)
    obtain rfl | hq := eq_or_ne q p
    · simpa only [Function.update_self] using hstage
    · simpa only [Function.update_of_ne hq] using h.stage q
  seqLen := h.seqLen
  connected q hq hl := by
    simp only [State.setParty] at hq hl
    obtain rfl | hqp := eq_or_ne q p
    · rw [Function.update_self] at hq
      exact absurd hq hpc
    · rw [Function.update_of_ne hqp] at hq hl
      exact h.connected q hq hl
  writing req hreq := by
    have hne := hp req hreq
    simpa only [State.setParty, Function.update_of_ne hne] using h.writing req hreq

/-- The server writes only to a client that reads. -/
theorem ne_of_writing (h : Inv C A s d) (hc : s.client p ≠ .reading) {req : Request π}
    (hs : s.server = .writing req) : req.pid ≠ p :=
  fun e => hc (e ▸ h.writing req hs)

theorem create (h : Inv C A s d) (hc : s.client p = .creating) :
    Inv C A { s with named := Function.update s.named p true
                     client := Function.update s.client p .sending } d := by
  rw [← setParty_responses]
  exact h.setParty (Stage.create (hc ▸ h.stage p)) (by simp)
    fun _ => h.ne_of_writing (by simp [hc])

theorem openFifo (h : Inv C A s d) (hc : s.client p = .sent) :
    Inv C A { s with
      client := Function.update s.client p (if s.named p then .opening else .exited none) } d := by
  obtain ⟨hnamed, hstage⟩ := Stage.openFifo (hc ▸ h.stage p)
  rw [if_pos hnamed, ← setParty_named_responses]
  exact h.setParty hstage (by simp) fun _ => h.ne_of_writing (by simp [hc])

theorem receive (h : Inv C A s d) (hc : s.client p = .reading) {v : Int32} {l : List Int32}
    (hl : s.responses p = v :: l) :
    Inv C A { s with responses := Function.update s.responses p l
                     client := Function.update s.client p (.exiting v) } d := by
  obtain ⟨hzero, hstage⟩ := Stage.receive (hl ▸ hc ▸ h.stage p)
  have hset : { s with
      responses := Function.update s.responses p l
      client := Function.update s.client p (.exiting v) } =
      s.setParty p (s.named p) l (.exiting v) := by
    rw [State.setParty, Function.update_eq_self]
  rw [hset]
  refine h.setParty hstage (by simp) fun req hs => ?_
  rintro rfl
  obtain ⟨k, hk⟩ := exists_count_senders (mem_pending (congrArg ServerPc.held hs))
  omega

/-- A client is not left without a response. -/
theorem receive_nil (h : Inv C A s d) (hc : s.client p = .reading) (hl : s.responses p = []) :
    s.server.Holds p := by
  obtain ⟨req, hs, rfl⟩ := h.connected p hc hl
  rw [hs]
  rfl

theorem exit (h : Inv C A s d) {pc : ClientPc} (hpc : (s.client p).exit = some pc) :
    Inv C A { s with named := Function.update s.named p false
                     client := Function.update s.client p pc } d := by
  have hreading : s.client p ≠ .reading := fun hc => by
    rw [hc] at hpc
    cases hpc
  have hnew : pc ≠ .reading := by
    rintro rfl
    generalize s.client p = c at hpc
    cases c <;> cases hpc
  rw [← setParty_responses]
  exact h.setParty ((h.stage p).exit hpc) hnew fun _ => h.ne_of_writing hreading

theorem send (h : Inv C A s d) (hc : s.client p = .sending) :
    Inv C A { s with requests := s.requests ++ [⟨p, (C.program p).seqLen⟩]
                     client := Function.update s.client p (C.program p).sent } d := by
  have hsent : (C.program p).sent ≠ .reading := by cases C.program p <;> simp [Program.sent]
  have hsenders : State.senders { s with
      requests := s.requests ++ [⟨p, (C.program p).seqLen⟩]
      client := Function.update s.client p (C.program p).sent } = s.senders ++ [p] := by
    simp only [State.senders, State.pending, List.map_append, List.append_assoc]
    rfl
  have hstage := Stage.send (hc ▸ h.stage p)
  exact {
    next := h.next
    stage := fun q => by
      rw [hsenders, List.count_append]
      change Stage d A q _ (Function.update s.client p _ q) (s.named q) (s.responses q) _
      obtain rfl | hq := eq_or_ne q p
      · rw [Function.update_self, List.count_singleton_self]
        exact hstage
      · rw [Function.update_of_ne hq, List.count_singleton, if_neg (by simpa using hq.symm)]
        exact h.stage q
    seqLen := fun req hreq => by
      simp only [State.pending, ← List.append_assoc] at hreq
      obtain hreq | hreq := List.mem_append.1 hreq
      · exact h.seqLen req hreq
      · obtain rfl := List.mem_singleton.1 hreq
        rfl
    connected := fun q hq hl => by
      obtain rfl | hqp := eq_or_ne q p
      · simp only [Function.update_self] at hq
        exact absurd hq hsent
      · simp only [Function.update_of_ne hqp] at hq
        exact h.connected q hq hl
    writing := fun req hreq => by
      have hne := h.ne_of_writing (p := p) (by simp [hc]) hreq
      simpa only [Function.update_of_ne hne] using h.writing req hreq }

/-! ## The steps of the server -/

theorem serverRead (h : Inv C A s d) (hs : s.server = .reading) {req : Request π}
    {l : List (Request π)} (hl : s.requests = req :: l) :
    Inv C A { s with requests := l, server := .opening req 0 } d := by
  have hnext := h.next
  rw [hs] at hnext
  have hpending : State.pending { s with requests := l, server := .opening req 0 } =
      s.pending := by
    simp [State.pending, hs, hl, ServerPc.held]
  exact {
    next := hnext
    stage := fun q => by
      rw [State.senders, hpending]
      exact h.stage q
    seqLen := hpending ▸ h.seqLen
    connected := fun q hq hq' => by
      obtain ⟨req', hs', -⟩ := h.connected q hq hq'
      rw [hs] at hs'
      cases hs'
    writing := fun _ hr => by cases hr }

/-- The server goes on to another place with the request that it holds. -/
theorem setServer (h : Inv C A s d) {pc : ServerPc π} (hheld : pc.held = s.server.held)
    (hahead : pc.ahead = s.server.ahead) (hs : ∀ req, s.server ≠ .writing req)
    (hpc : ∀ req, pc ≠ .writing req) : Inv C A { s with server := pc } d where
  next := by
    change s.seqNum.toInt + pc.ahead = d.next
    rw [hahead, h.next]
  stage q := by
    have hstage := h.stage q
    rwa [State.senders, State.pending, ← hheld] at hstage
  seqLen req hreq := h.seqLen req (by rwa [State.pending, ← hheld])
  connected q hq hl := by
    obtain ⟨req, hs', -⟩ := h.connected q hq hl
    exact absurd hs' (hs req)
  writing req hreq := absurd hreq (hpc req)

/-- The server gives up on the process whose request it holds. -/
theorem giveUp (h : Inv C A s d) {req : Request π} (hheld : s.server.held = [req])
    (hahead : s.server.ahead = 0) (hs : ∀ req, s.server ≠ .writing req)
    (hopening : s.client req.pid ≠ .opening) (hA : s.client req.pid = .sent → A) :
    Inv C A { s with server := .reading } d := by
  have hpending : s.pending = req :: s.requests := by
    rw [State.pending, hheld]
    rfl
  have hreading : ∀ q, s.client q = .reading → s.responses q ≠ [] := fun q hq hl => by
    obtain ⟨req', hs', -⟩ := h.connected q hq hl
    exact hs req' hs'
  have hnext := h.next
  rw [hahead] at hnext
  exact {
    next := hnext
    stage := fun q => by
      change Stage d A q _ (s.client q) (s.named q) (s.responses q) ((s.requests.map _).count q)
      have hstage := h.stage q
      rw [State.senders, hpending, List.map_cons] at hstage
      obtain rfl | hq := eq_or_ne req.pid q
      · rw [List.count_cons_self] at hstage
        refine hstage.drop (fun hc => hreading _ hc ?_) hopening hA
        exact hstage.of_pending.2.1
      · rwa [List.count_cons_of_ne hq] at hstage
    seqLen := fun r hr => h.seqLen r (hpending ▸ List.mem_cons_of_mem _ hr)
    connected := fun q hq hl => absurd hl (hreading q hq)
    writing := fun _ hr => by cases hr }

/-- The opens of the server and of the client meet. -/
theorem meet (h : Inv C A s d) {req : Request π} (hheld : s.server.held = [req])
    (hahead : s.server.ahead = 0) (hs : ∀ req, s.server ≠ .writing req)
    (hc : s.client req.pid = .opening) : Inv C A (s.meet req) d := by
  have hpending : s.pending = req :: s.requests := by
    rw [State.pending, hheld]
    rfl
  have hnext := h.next
  rw [hahead] at hnext
  obtain ⟨k, hk⟩ := exists_count_senders (mem_pending hheld)
  exact {
    next := hnext
    stage := fun q => by
      have hsenders : (s.meet req).senders = s.senders := by
        rw [State.senders, State.senders, hpending]
        rfl
      rw [hsenders]
      change Stage d A q _ (Function.update s.client req.pid .reading q) (s.named q)
        (s.responses q) _
      obtain rfl | hq := eq_or_ne q req.pid
      · rw [Function.update_self]
        exact Stage.meet (hc ▸ h.stage req.pid) (by omega)
      · rw [Function.update_of_ne hq]
        exact h.stage q
    seqLen := fun r hr => h.seqLen r (hpending ▸ hr)
    connected := fun q hq hl => by
      obtain rfl | hqp := eq_or_ne q req.pid
      · exact ⟨req, rfl, rfl⟩
      · simp only [State.meet, Function.update_of_ne hqp] at hq
        obtain ⟨req', hs', -⟩ := h.connected q hq hl
        exact absurd hs' (hs req')
    writing := fun r hr => by
      obtain rfl := ServerPc.writing.inj hr
      exact Function.update_self .. }

/-- An attempt to open the FIFO of a client. -/
theorem openClient (h : Inv C A s d) {opening : Opening} {req : Request π} {i : ℕ}
    (hs : s.server = .opening req i) (hA : GivesUp opening s .serverOpen → A) :
    Inv C A (s.openClient opening req i) d := by
  have hheld : s.server.held = [req] := by rw [hs]; rfl
  have hahead : s.server.ahead = 0 := by rw [hs]; rfl
  have hwriting : ∀ r, s.server ≠ .writing r := by simp [hs]
  obtain ⟨heq, hname | ⟨attempts, hpoll, hc, hi⟩⟩ | ⟨heq, -, -⟩ | ⟨attempts, heq, -, -⟩ |
    ⟨heq, hc⟩ := openClient_cases s opening req i
  · -- only a bad client removes its FIFO before it is answered
    obtain ⟨k, hk⟩ := exists_count_senders (mem_pending hheld)
    have hpc := (hk ▸ h.stage req.pid).of_pending.2.2
    rw [hname] at hpc
    have hbad : s.client req.pid ≠ .opening ∧ s.client req.pid ≠ .sent := by
      obtain ⟨-, -, he, -⟩ | ⟨-, hc | ⟨hc, -⟩⟩ := hpc
      · cases he
      · simp [hc]
      · simp [hc]
    rw [heq]
    exact h.giveUp hheld hahead hwriting hbad.1 fun hc => absurd hc hbad.2
  · rw [heq]
    exact h.giveUp hheld hahead hwriting hc fun hsent =>
      hA ⟨rfl, req, i, attempts, hs, hpoll, hi, hsent⟩
  · rw [heq]
    exact h.setServer hheld.symm hahead.symm hwriting (by simp)
  · rw [heq]
    exact h.setServer hheld.symm hahead.symm hwriting (by simp)
  · rw [heq]
    exact h.meet hheld hahead hwriting hc

/-- The client that the server writes to waits for its response. -/
theorem of_writing (h : Inv C A s d) {req : Request π} (hs : s.server = .writing req) :
    C.program req.pid = .client req.seqLen ∧ s.named req.pid = true ∧ s.responses req.pid = [] ∧
      s.senders.count req.pid = 1 ∧ req.pid ∉ d.holders := by
  have hreq : req ∈ s.pending := mem_pending (congrArg ServerPc.held hs)
  have hc := h.writing req hs
  obtain ⟨k, hk⟩ := exists_count_senders hreq
  obtain ⟨hp, hl, ⟨⟨n, hn⟩, rfl, he, -⟩ | ⟨-, hc' | ⟨hc', -⟩⟩⟩ :=
    (hk ▸ h.stage req.pid).of_pending
  · have hseq := h.seqLen req hreq
    rw [hn, Program.seqLen] at hseq
    exact ⟨hseq ▸ hn, he, hl, hk, hp⟩
  · rw [hc] at hc'
    cases hc'
  · rw [hc] at hc'
    cases hc'

/-- The response is a ticket. -/
theorem serverWrite (h : Inv C A s d) {req : Request π} (hs : s.server = .writing req)
    (hn : 0 < req.seqLen.toInt) (hp : req.pid ∉ d.holders) :
    Inv C A { s with
      responses := Function.update s.responses req.pid (s.responses req.pid ++ [s.seqNum])
      server := .advancing req } (d.grant req.pid req.seqLen.toInt hp hn) := by
  obtain ⟨hprog, hname, hl, hcount, -⟩ := h.of_writing hs
  have hc := h.writing req hs
  have hnext := h.next
  rw [hs] at hnext
  change s.seqNum.toInt + 0 = d.next at hnext
  rw [add_zero] at hnext
  have hpending : s.pending = req :: s.requests := by
    rw [State.pending, hs]
    rfl
  have hsenders : s.senders = req.pid :: s.requests.map Request.pid := by
    rw [State.senders, hpending, List.map_cons]
  exact {
    next := by rw [Dispenser.next_grant, ← hnext, ServerPc.ahead]
    stage := fun q => by
      change Stage _ A q _ (s.client q) (s.named q)
        (Function.update s.responses req.pid (s.responses req.pid ++ [s.seqNum]) q)
        (List.count q (s.requests.map Request.pid))
      obtain rfl | hq := eq_or_ne req.pid q
      · rw [hsenders, List.count_cons_self] at hcount
        rw [hprog, hc, hname, hl, Function.update_self, Nat.succ.inj hcount]
        refine .answered ((Dispenser.mem_tickets_grant hp hn).2 (.inr ?_))
        rw [hnext]
      · have hstage := h.stage q
        rw [hsenders, List.count_cons_of_ne hq] at hstage
        rw [Function.update_of_ne hq.symm]
        exact hstage.grant hp hn hq.symm
    seqLen := fun r hr => h.seqLen r (hpending ▸ List.mem_cons_of_mem _ hr)
    connected := fun q hq hl' => by
      obtain rfl | hqp := eq_or_ne q req.pid
      · simp [hl] at hl'
      · simp only [Function.update_of_ne hqp] at hl'
        obtain ⟨req', hs', rfl⟩ := h.connected q hq hl'
        exact absurd (congrArg Request.pid (ServerPc.writing.inj (hs'.symm.trans hs))) hqp
    writing := fun _ hr => by cases hr }

theorem serverAdvance (h : Inv C A s d) {req : Request π} (hs : s.server = .advancing req)
    (hlt : d.next < 2 ^ 31) :
    Inv C A { s with server := .reading, seqNum := s.seqNum + req.seqLen } d := by
  have hnext := h.next
  rw [hs, ServerPc.ahead] at hnext
  have hnonneg := C.saved_nonneg.trans d.base_le_next
  have hpending : s.pending = s.requests := by
    rw [State.pending, hs]
    rfl
  exact {
    next := by
      -- the counter is at most the sum of all lengths, so the addition does not overflow
      change (s.seqNum + req.seqLen).toInt + 0 = d.next
      rw [add_zero, Int32.toInt_add, hnext, Int.bmod_eq_of_le (by omega) (by omega)]
    stage := fun q => by
      have hstage := h.stage q
      rwa [State.senders, hpending] at hstage
    seqLen := fun r hr => h.seqLen r (hpending ▸ hr)
    connected := fun q hq hl => by
      obtain ⟨req', hs', -⟩ := h.connected q hq hl
      rw [hs] at hs'
      cases hs'
    writing := fun _ hr => by cases hr }

/-- **A step of a server or of a client** grants a ticket, or the dispenser does not see it. -/
theorem step (h : Inv C A s d) (hd : (dispenser C.saved.toInt C.asked).Reachable d)
    {opening : Opening} {l : Label π} (hA : GivesUp opening s l → A)
    (hst : Protocol.step opening C.program s l = some s') :
    (dispenser C.saved.toInt C.asked).Answers (Inv C A s') d := by
  cases l with
  | create p =>
    obtain ⟨hc, rfl⟩ := step_create.1 hst
    exact .inl (h.create hc)
  | send p =>
    obtain ⟨⟨hc, -⟩, rfl⟩ := step_send.1 hst
    exact .inl (h.send hc)
  | openFifo p =>
    obtain ⟨hc, rfl⟩ := step_openFifo.1 hst
    exact .inl (h.openFifo hc)
  | receive p =>
    cases hl : s.responses p with
    | nil =>
      obtain ⟨⟨hc, hheld⟩, -⟩ := (step_receive_nil hl).1 hst
      exact absurd (h.receive_nil hc hl) hheld
    | cons v l =>
      obtain ⟨hc, rfl⟩ := (step_receive hl).1 hst
      exact .inl (h.receive hc hl)
  | exit p =>
    obtain ⟨pc, hpc, rfl⟩ := step_exit.1 hst
    exact .inl (h.exit hpc)
  | serverRead =>
    obtain ⟨hs, req, l, hl, rfl⟩ := step_serverRead.1 hst
    exact .inl (h.serverRead hs hl)
  | serverOpen =>
    obtain ⟨req, i, hs, rfl⟩ | ⟨req, hs, hc, rfl⟩ := step_serverOpen.1 hst
    · exact .inl (h.openClient hs hA)
    · exact .inl (h.meet (by rw [hs]; rfl) (by rw [hs]; rfl) (by simp [hs]) hc)
  | serverWrite =>
    obtain ⟨req, hs, rfl⟩ := step_serverWrite.1 hst
    obtain ⟨hprog, -, -, -, hp⟩ := h.of_writing hs
    have hasked : C.asked req.pid = req.seqLen.toInt := by
      rw [Participants.asked, hprog, Program.asked]
    have hn : 0 < req.seqLen.toInt := C.one_le_seqLen _ _ hprog
    refine .inr ⟨req.pid, _, Dispenser.step_dispenser hp (hasked.symm ▸ hn), ?_⟩
    simp only [hasked]
    exact h.serverWrite hs hn hp
  | serverAdvance =>
    obtain ⟨req, hs, rfl⟩ := step_serverAdvance.1 hst
    have hle := Dispenser.next_le_sum C.asked_nonneg hd
    exact .inl (h.serverAdvance hs (hle.trans_lt C.sum_asked_lt))

end Inv

/-- **Each server refines the dispenser.** Where no step gives up on a client, none is abandoned. -/
theorem exists_inv {opening : Opening} {ok : State π → Label π → Prop}
    (hA : ∀ s l, ok s l → GivesUp opening s l → A)
    (hs : (service opening C.program C.saved C.leftOver).ReachableBy ok s) :
    ∃ d, (dispenser C.saved.toInt C.asked).Reachable d ∧ Inv C A s d :=
  hs.refines inv_start fun s l _ _ h hd hok hst => h.step hd (hA s l hok) hst

end TlpiLearn.FifoSeqnum.Protocol
