import TlpiLearn.MsgSeqnum.Safety
import Mathlib.Data.Fintype.Card

/-!
# When the service wedges

The clients' requests compete with the server's responses for the space of the one queue. Each
client has at most one message under way, and the client whose request the server holds has none
in the queue, so with no more clients than the queue has room for the server never blocks in
`msgsnd` (`server_not_blocked`). With one client more the others can fill the queue while the
server holds the first request, and nobody moves again (`exists_wedged`).
-/

namespace TlpiLearn.MsgSeqnum

variable {ι : Type*} {C : Clients ι} {s : State ι} {cap : ℕ}

/-- The server is blocked in `msgsnd`. -/
def ServerBlocked (cap : Option ℕ) (s : State ι) : Prop :=
  s.server = .sending ∧ QueueFull cap s.queue.length

/-- A client is blocked in `msgsnd` or in `msgrcv`. -/
def ClientBlocked (C : Clients ι) (cap : Option ℕ) (s : State ι) (i : ι) : Prop :=
  (s.client i = .sending ∧ QueueFull cap s.queue.length) ∨
    (s.client i = .receiving ∧ msgrcv (C.pid i) s.queue = none)

/-- Only the process ids of clients are in flight. -/
theorem Inv.exists_of_mem_inFlight (h : Inv C s) {p : ℤ} (hp : p ∈ s.inFlight) :
    ∃ i, C.pid i = p := by
  rcases List.mem_append.mp hp with hp | hp
  · by_cases hs : s.server = .sending
    · obtain ⟨i, hi, -⟩ := h.held (by simp [hs])
      rw [State.held, if_pos hs, List.mem_singleton] at hp
      exact ⟨i, hp ▸ hi.symm⟩
    · simp [State.held, hs] at hp
  · obtain ⟨m, hm, rfl⟩ := List.mem_map.mp hp
    rcases h.genuine m hm with ⟨i, rfl, -⟩ | ⟨i, v, rfl, -⟩ <;> exact ⟨i, rfl⟩

/-- At most one message is under way for each client. -/
theorem Inv.length_inFlight_le [Fintype ι] (h : Inv C s) : s.inFlight.length ≤ Fintype.card ι := by
  classical
  have hsub : s.inFlight.toFinset ⊆ Finset.univ.image C.pid := fun p hp => by
    obtain ⟨i, rfl⟩ := h.exists_of_mem_inFlight (List.mem_toFinset.mp hp)
    exact Finset.mem_image_of_mem _ (Finset.mem_univ i)
  calc s.inFlight.length = s.inFlight.toFinset.card := (List.toFinset_card_of_nodup h.nodup).symm
    _ ≤ (Finset.univ.image C.pid).card := Finset.card_le_card hsub
    _ ≤ Fintype.card ι := Finset.card_image_le

variable [DecidableEq ι] [Fintype ι]

/-- With no more clients than the queue has room for, the server never blocks in `msgsnd`. -/
theorem server_not_blocked (hcap : Fintype.card ι ≤ cap)
    (h : (service C (some cap)).Reachable s) : ¬ ServerBlocked (some cap) s := by
  rintro ⟨hs, hfull⟩
  have hlen := (inv_reachable h).length_inFlight_le
  simp only [State.inFlight, State.held, hs, ↓reduceIte, List.length_append, List.length_cons,
    List.length_nil, List.length_map] at hlen
  rw [queueFull_some] at hfull
  omega

omit [Fintype ι] in
/-- Clients that have not started can send one after the other as long as there is room. -/
theorem run_clientSend {B : List ι} (hnd : B.Nodup) (hB : ∀ b ∈ B, s.client b = .sending)
    (hroom : s.queue.length + B.length ≤ cap) :
    (service C (some cap)).run s (B.map .clientSend) = some { s with
      queue := s.queue ++ B.map C.request
      client := fun i => if i ∈ B then .receiving else s.client i } := by
  induction B generalizing s with
  | nil => simp
  | cons b B ih =>
    obtain ⟨hb, hnd⟩ := List.nodup_cons.mp hnd
    simp only [List.length_cons] at hroom
    have hstep : (service C (some cap)).step s (.clientSend b) = _ :=
      step_clientSend.mpr ⟨hB b List.mem_cons_self, by rw [queueFull_some]; omega, rfl⟩
    rw [List.map_cons, Machine.run_cons, hstep, Option.bind_some, ih hnd]
    · simp only [List.append_assoc, List.singleton_append, List.map_cons, List.mem_cons]
      congr 2
      funext i
      by_cases hi : i = b
      · simp [hi, hb]
      · simp [hi]
    · intro c hc
      have hne : c ≠ b := fun e => hb (e ▸ hc)
      simpa [hne] using hB c (List.mem_cons_of_mem _ hc)
    · simp only [List.length_append, List.length_singleton]
      omega

/-- The state after `a` has sent, the server has taken the request, and then `B` have sent. -/
def overtaken (C : Clients ι) (a : ι) (B : List ι) : State ι :=
  { (start : State ι) with
    queue := B.map C.request
    server := .sending
    reqPid := C.pid a
    reqSeqlen := C.seqlen a
    client := fun i => if i ∈ a :: B then .receiving else .sending }

omit [Fintype ι] in
theorem reachable_overtaken {a : ι} {B : List ι} (haB : (a :: B).Nodup) (hcap : 1 ≤ cap)
    (hB : B.length ≤ cap) : (service C (some cap)).Reachable (overtaken C a B) := by
  obtain ⟨ha, hnd⟩ := List.nodup_cons.mp haB
  set t : State ι := { start with
    queue := [C.request a], client := Function.update start.client a .receiving } with ht
  set u : State ι := { t.recvRequest (C.request a).body with
    queue := [], server := .sending } with hu
  have h1 : step C (some cap) start (.clientSend a) = some t :=
    step_clientSend.mpr ⟨rfl, by simp [start]; omega, rfl⟩
  have h2 : step C (some cap) t .serverRecv = some u :=
    step_serverRecv.mpr ⟨rfl, C.request a, [], rfl, rfl⟩
  have hreach : (service C (some cap)).Reachable u :=
    .step (.step .init trivial (show (service C _).step _ (.clientSend a) = _ from h1)) trivial
      (show (service C _).step _ .serverRecv = _ from h2)
  have h3 : (service C (some cap)).run u (B.map .clientSend) = _ :=
    run_clientSend hnd (fun b hb => by
      have hne : b ≠ a := fun e => ha (e ▸ hb)
      simp [hu, ht, start, State.recvRequest, Clients.request, hne]) (by simpa [hu] using hB)
  have heq : overtaken C a B = { u with
      queue := u.queue ++ B.map C.request
      client := fun i => if i ∈ B then .receiving else u.client i } := by
    simp only [overtaken, hu, ht, State.recvRequest, Clients.request, start, List.nil_append,
      List.mem_cons]
    congr 1
    funext i
    by_cases hi : i = a <;> simp [hi]
  exact heq ▸ hreach.run _ h3

/-- With more clients than that, the server and every client can all be blocked. -/
theorem exists_wedged (hcap : 1 ≤ cap) (hcard : cap < Fintype.card ι) :
    ∃ s, (service C (some cap)).Reachable s ∧ ServerBlocked (some cap) s ∧
      ∀ i, ClientBlocked C (some cap) s i := by
  obtain ⟨a, L, hL⟩ : ∃ a L, (Finset.univ : Finset ι).toList = a :: L := by
    refine List.exists_cons_of_length_pos ?_
    rw [Finset.length_toList, Finset.card_univ]
    omega
  have hlen : L.length + 1 = Fintype.card ι := by
    rw [← Finset.card_univ, ← Finset.length_toList, hL, List.length_cons]
  have hnd : (a :: L).Nodup := hL ▸ Finset.nodup_toList _
  -- the clients that fill the queue while the server holds the request of `a`
  have hB : (L.take cap).length = cap := by rw [List.length_take]; omega
  refine ⟨overtaken C a (L.take cap),
    reachable_overtaken (hnd.sublist (List.cons_sublist_cons.mpr (List.take_sublist _ _))) hcap
      hB.le, ⟨rfl, ?_⟩, fun i => ?_⟩
  · simp only [overtaken, List.length_map, hB, queueFull_some, le_refl]
  · by_cases hi : i ∈ a :: L.take cap
    · refine .inr ⟨if_pos hi, ?_⟩
      -- only requests are queued, and their type is the process id of no client
      rw [msgrcv_eq_none]
      intro m hm
      obtain ⟨b, -, rfl⟩ := List.mem_map.mp hm
      have := C.one_lt_pid i
      simp only [Msg.Wanted, Clients.request]
      omega
    · refine .inl ⟨if_neg hi, ?_⟩
      simp only [overtaken, List.length_map, hB, queueFull_some, le_refl]

/-- **When the service wedges**: with no more clients than the queue has room for, the server is
never blocked in `msgsnd`; with more, a state is reachable in which it is, and every client is
blocked too. -/
theorem wedge_bound (C : Clients ι) (cap : ℕ) (hcap : 1 ≤ cap) :
    (Fintype.card ι ≤ cap → ∀ s, (service C (some cap)).Reachable s →
      ¬ ServerBlocked (some cap) s) ∧
    (cap < Fintype.card ι → ∃ s, (service C (some cap)).Reachable s ∧
      ServerBlocked (some cap) s ∧ ∀ i, ClientBlocked C (some cap) s i) :=
  ⟨fun h _ hs => server_not_blocked h hs, fun h => exists_wedged hcap h⟩

/-- A queue with room for two messages serves the two clients, one with room for one message does
not. -/
theorem wedge_bound_twoClients :
    (¬ ∃ s, (service twoClients (some 2)).Reachable s ∧ ServerBlocked (some 2) s) ∧
      ∃ s, (service twoClients (some 1)).Reachable s ∧
        ServerBlocked (some 1) s ∧ ∀ i, ClientBlocked twoClients (some 1) s i := by
  constructor
  · rintro ⟨s, hs, hblocked⟩
    exact (wedge_bound twoClients 2 (by decide)).1 (by decide) s hs hblocked
  · exact (wedge_bound twoClients 1 (by decide)).2 (by decide)

/-- A queue with room for one message: the second client sends between the server's `msgrcv` and
its `msgsnd`, and then nobody can move. -/
theorem twoClients_wedge : ∃ s, (service twoClients (some 1)).Reachable s ∧
    (∃ i, ∀ v, s.client i ≠ .finished v) ∧ ServerBlocked (some 1) s ∧
    ∀ i, ClientBlocked twoClients (some 1) s i := by
  refine ⟨_, Machine.Reachable.run .init [.clientSend 0, .serverRecv, .clientSend 1] rfl,
    ⟨0, fun v => ClientPc.noConfusion⟩, ⟨rfl, by decide⟩, fun i => .inr ?_⟩
  fin_cases i <;> exact ⟨rfl, rfl⟩

end TlpiLearn.MsgSeqnum
