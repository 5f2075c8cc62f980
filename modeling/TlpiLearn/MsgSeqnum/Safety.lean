import TlpiLearn.MsgSeqnum.Service
import Mathlib.Tactic

/-!
# Every client gets its own response

Requests and responses of all clients share the queue, so the invariant follows each client's
token: the process id of a client is in flight (`State.inFlight`) exactly while the client waits,
and at most once. In flight it is either in a request that is queued, or in the request that the
server holds, or in a response that is queued. `Inv.step` keeps the invariant over every step of
the server and of the clients, whatever the capacity of the queue.
-/

namespace TlpiLearn.MsgSeqnum

variable {ι : Type*} {C : Clients ι}

/-- The client that a message is from or for. -/
def owner : Msg Body → ℤ
  | ⟨_, .request p _⟩ => p
  | ⟨t, .response _⟩ => t

@[simp] theorem owner_request (i : ι) : owner (C.request i) = C.pid i := rfl

@[simp] theorem owner_response (t n : ℤ) : owner ⟨t, .response n⟩ = t := rfl

/-- The request that the server has taken and not yet answered. -/
def State.held (s : State ι) : List ℤ := if s.server = .sending then [s.reqPid] else []

/-- The process ids of the requests and responses under way. -/
def State.inFlight (s : State ι) : List ℤ := s.held ++ s.queue.map owner

/-- The clients that have been sent a response. -/
def State.answered (s : State ι) : List ℤ := s.granted.map Grant.pid

/-- A response to `i` with the number `v` was sent. -/
def State.Granted (C : Clients ι) (s : State ι) (i : ι) (v : ℤ) : Prop :=
  ⟨C.pid i, ⟨v, C.seqlen i⟩⟩ ∈ s.granted

/-- A message is a request that was not answered, or a response that was sent. -/
def State.Genuine (C : Clients ι) (s : State ι) (m : Msg Body) : Prop :=
  (∃ i, m = C.request i ∧ C.pid i ∉ s.answered) ∨
    ∃ i v, m = ⟨C.pid i, .response v⟩ ∧ s.Granted C i v

/-- The invariant of the service. -/
structure Inv (C : Clients ι) (s : State ι) : Prop where
  genuine : ∀ m ∈ s.queue, s.Genuine C m
  held : s.server ≠ .receiving → ∃ i, s.reqPid = C.pid i ∧ s.reqSeqlen = C.seqlen i
  held_new : s.server = .sending → s.reqPid ∉ s.answered
  nodup : s.inFlight.Nodup
  waiting : ∀ i, C.pid i ∈ s.inFlight ↔ s.client i = .receiving
  answered_nodup : s.answered.Nodup
  answered_started : ∀ g ∈ s.granted, ∃ i, g.pid = C.pid i ∧ g.span.len = C.seqlen i ∧
    s.client i ≠ .sending
  finished : ∀ i v, s.client i = .finished v → s.Granted C i v
  not_failed : ∀ i, s.client i ≠ .failed
  tiles : Tiles 0 (s.granted.map Grant.span)
    (s.seqNum + if s.server = .advancing then s.reqSeqlen else 0)

theorem inv_start : Inv C (start : State ι) where
  genuine := by simp [start]
  held := by simp [start]
  held_new := by simp [start]
  nodup := by simp [start, State.inFlight, State.held]
  waiting := by simp [start, State.inFlight, State.held]
  answered_nodup := by simp [start, State.answered]
  answered_started := by simp [start]
  finished := by simp [start]
  not_failed := by simp [start]
  tiles := rfl

variable {s s' : State ι}

/-- A message of type 1 is a request. -/
theorem Inv.wanted_one (h : Inv C s) {m : Msg Body} (hm : m ∈ s.queue) (hw : m.Wanted 1) :
    ∃ i, m = C.request i ∧ C.pid i ∉ s.answered := by
  rcases h.genuine m hm with hreq | ⟨i, v, rfl, -⟩
  · exact hreq
  · have hpid : (1 : ℤ) = 0 ∨ C.pid i = 1 := hw
    have := C.one_lt_pid i
    omega

/-- A message of a client's type is the response to that client. -/
theorem Inv.wanted_pid (h : Inv C s) {m : Msg Body} {i : ι} (hm : m ∈ s.queue)
    (hw : m.Wanted (C.pid i)) : ∃ v, m = ⟨C.pid i, .response v⟩ ∧ s.Granted C i v := by
  have hpid := C.one_lt_pid i
  rcases h.genuine m hm with ⟨j, rfl, -⟩ | ⟨j, v, rfl, hv⟩
  · have htype : C.pid i = 0 ∨ 1 = C.pid i := hw
    omega
  · have htype : C.pid i = 0 ∨ C.pid j = C.pid i := hw
    obtain rfl := C.pid_injective (htype.resolve_left (by omega))
    exact ⟨v, rfl, hv⟩

theorem Inv.serverRecv (h : Inv C s) (hs : s.server = .receiving) {m : Msg Body}
    {q : List (Msg Body)} (hr : msgrcv 1 s.queue = some (m, q)) :
    Inv C { s.recvRequest m.body with queue := q, server := .sending } := by
  obtain ⟨hw, l, r, hq, rfl, -⟩ := msgrcv_eq_some hr
  obtain ⟨i, rfl, hnew⟩ := h.wanted_one (by simp [hq]) hw
  have hperm : s.inFlight.Perm (C.pid i :: (l ++ r).map owner) := by
    simp only [State.inFlight, State.held, hs, hq, List.map_append, List.map_cons, owner_request,
      reduceCtorEq, ↓reduceIte, List.nil_append]
    exact List.perm_middle
  have hkeep : State.inFlight { s.recvRequest (C.request i).body with
      queue := l ++ r, server := ServerPc.sending } = C.pid i :: (l ++ r).map owner := rfl
  exact {
    genuine := fun m hm => h.genuine m (by
      rw [hq]
      rcases List.mem_append.mp hm with hm | hm <;> simp [hm])
    held := fun _ => ⟨i, rfl, rfl⟩
    held_new := fun _ => hnew
    nodup := by rw [hkeep]; exact hperm.nodup_iff.mp h.nodup
    waiting := fun j => by rw [hkeep, ← hperm.mem_iff]; exact h.waiting j
    answered_nodup := h.answered_nodup
    answered_started := h.answered_started
    finished := h.finished
    not_failed := h.not_failed
    tiles := by simpa [hs, State.recvRequest, Clients.request] using h.tiles }

theorem Inv.serverSend (h : Inv C s) (hs : s.server = .sending) :
    Inv C { s with queue := s.queue ++ [s.response], server := .advancing
                   granted := s.granted ++ [⟨s.reqPid, ⟨s.seqNum, s.reqSeqlen⟩⟩] } := by
  obtain ⟨i, hpid, hlen⟩ := h.held (by simp [hs])
  have hnew := h.held_new hs
  have hperm : s.inFlight.Perm ((s.queue ++ [s.response]).map owner) := by
    simp only [State.inFlight, State.held, hs, ↓reduceIte, State.response, List.map_append,
      List.map_cons, List.map_nil, owner_response]
    exact List.perm_append_comm
  have hmem : C.pid i ∈ s.inFlight := by
    simp [State.inFlight, State.held, hs, hpid]
  have hgrants : ∀ j v, s.Granted C j v → State.Granted C { s with
      queue := s.queue ++ [s.response], server := ServerPc.advancing
      granted := s.granted ++ [⟨s.reqPid, ⟨s.seqNum, s.reqSeqlen⟩⟩] } j v := fun j v hg =>
    List.mem_append_left _ hg
  exact {
    genuine := fun m hm => by
      rcases List.mem_append.mp hm with hm | hm
      · rcases h.genuine m hm with ⟨j, rfl, hj⟩ | ⟨j, v, rfl, hv⟩
        · refine .inl ⟨j, rfl, ?_⟩
          -- the request of `j` is still queued, so it is not the one just answered
          have hne : C.pid j ≠ s.reqPid := by
            have hnd := h.nodup
            simp only [State.inFlight, State.held, hs, ↓reduceIte, List.singleton_append,
              List.nodup_cons] at hnd
            intro e
            exact hnd.1 (e ▸ List.mem_map.mpr ⟨_, hm, rfl⟩)
          simpa [State.answered, hne] using hj
        · exact .inr ⟨j, v, rfl, hgrants j v hv⟩
      · obtain rfl := List.mem_singleton.mp hm
        refine .inr ⟨i, s.seqNum, by rw [State.response, hpid], ?_⟩
        simp [State.Granted, hpid, hlen]
    held := fun _ => ⟨i, hpid, hlen⟩
    held_new := by simp
    nodup := by
      simp only [State.inFlight, State.held, reduceCtorEq, ↓reduceIte, List.nil_append]
      exact hperm.nodup_iff.mp h.nodup
    waiting := fun j => by
      simp only [State.inFlight, State.held, reduceCtorEq, ↓reduceIte, List.nil_append]
      rw [← hperm.mem_iff]
      exact h.waiting j
    answered_nodup := by
      simp only [State.answered, List.map_append, List.map_cons, List.map_nil]
      exact List.nodup_append.mpr ⟨h.answered_nodup, List.nodup_singleton _, by
        rintro p hp q hq rfl
        exact hnew (List.mem_singleton.mp hq ▸ hp)⟩
    answered_started := fun g hg => by
      rcases List.mem_append.mp hg with hg | hg
      · exact h.answered_started g hg
      · obtain rfl := List.mem_singleton.mp hg
        exact ⟨i, hpid, hlen, by simp [(h.waiting i).mp hmem]⟩
    finished := fun j v hj => hgrants j v (h.finished j v hj)
    not_failed := h.not_failed
    tiles := by
      have htiles := h.tiles
      simp only [hs, reduceCtorEq, ↓reduceIte, add_zero] at htiles
      have hpos : 0 < s.reqSeqlen := by have := C.one_le_seqlen i; omega
      simpa using htiles.snoc hpos }

theorem Inv.serverAdvance (h : Inv C s) (hs : s.server = .advancing) :
    Inv C { s with server := .receiving, seqNum := s.seqNum + s.reqSeqlen } :=
  { genuine := h.genuine
    held := by simp
    held_new := by simp
    nodup := by simpa [State.inFlight, State.held, hs] using h.nodup
    waiting := fun j => by simpa [State.inFlight, State.held, hs] using h.waiting j
    answered_nodup := h.answered_nodup
    answered_started := h.answered_started
    finished := h.finished
    not_failed := h.not_failed
    tiles := by simpa [hs] using h.tiles }

section Steps

variable [DecidableEq ι] {cap : Option ℕ}

theorem Inv.clientSend (h : Inv C s) {i : ι} (hi : s.client i = .sending) :
    Inv C { s with queue := s.queue ++ [C.request i]
                   client := Function.update s.client i .receiving } := by
  have hflight : C.pid i ∉ s.inFlight := by simp [h.waiting, hi]
  have hnew : C.pid i ∉ s.answered := by
    intro hmem
    obtain ⟨g, hg, hgi⟩ := List.mem_map.mp hmem
    obtain ⟨j, hj, -, hjs⟩ := h.answered_started g hg
    obtain rfl := C.pid_injective (hj.symm.trans hgi)
    exact hjs hi
  have heq : State.inFlight { s with queue := s.queue ++ [C.request i]
                                     client := Function.update s.client i .receiving } =
      s.inFlight ++ [C.pid i] := by
    simp [State.inFlight, State.held]
  exact {
    genuine := fun m hm => by
      rcases List.mem_append.mp hm with hm | hm
      · exact h.genuine m hm
      · exact .inl ⟨i, List.mem_singleton.mp hm, hnew⟩
    held := h.held
    held_new := h.held_new
    nodup := by
      rw [heq]
      exact List.nodup_append.mpr ⟨h.nodup, List.nodup_singleton _, by
        rintro p hp q hq rfl
        exact hflight (List.mem_singleton.mp hq ▸ hp)⟩
    waiting := fun j => by
      rw [heq]
      by_cases hj : j = i
      · subst hj
        simp
      · have hne : C.pid j ≠ C.pid i := fun e => hj (C.pid_injective e)
        simp [hj, hne, h.waiting]
    answered_nodup := h.answered_nodup
    answered_started := fun g hg => by
      obtain ⟨j, hj, hlen, hjs⟩ := h.answered_started g hg
      refine ⟨j, hj, hlen, ?_⟩
      by_cases hji : j = i
      · exact absurd hi (hji ▸ hjs)
      · simpa [hji] using hjs
    finished := fun j v hj => by
      by_cases hji : j = i
      · simp [hji] at hj
      · exact h.finished j v (by simpa [hji] using hj)
    not_failed := fun j => by
      by_cases hji : j = i
      · simp [hji]
      · simpa [hji] using h.not_failed j
    tiles := h.tiles }

theorem Inv.clientRecv (h : Inv C s) {i : ι} (hi : s.client i = .receiving) {m : Msg Body}
    {q : List (Msg Body)} (hr : msgrcv (C.pid i) s.queue = some (m, q)) :
    Inv C { s with queue := q, client := Function.update s.client i (.recvResponse m.body) } := by
  obtain ⟨hw, l, r, hq, rfl, -⟩ := msgrcv_eq_some hr
  obtain ⟨v, rfl, hv⟩ := h.wanted_pid (by simp [hq]) hw
  have hperm : s.inFlight.Perm (C.pid i :: (s.held ++ (l ++ r).map owner)) := by
    simp only [State.inFlight, hq, List.map_append, List.map_cons, owner_response]
    rw [← List.append_assoc, ← List.append_assoc]
    exact List.perm_middle
  have hnd := hperm.nodup_iff.mp h.nodup
  have hkeep : State.inFlight { s with
      queue := l ++ r
      client := Function.update s.client i (.recvResponse (Body.response v)) } =
      s.held ++ (l ++ r).map owner := rfl
  exact {
    genuine := fun m hm => h.genuine m (by
      rw [hq]
      rcases List.mem_append.mp hm with hm | hm <;> simp [hm])
    held := h.held
    held_new := h.held_new
    nodup := by rw [hkeep]; exact hnd.of_cons
    waiting := fun j => by
      rw [hkeep]
      by_cases hj : j = i
      · subst hj
        simpa [ClientPc.recvResponse] using (List.nodup_cons.mp hnd).1
      · have hne : C.pid j ≠ C.pid i := fun e => hj (C.pid_injective e)
        have := h.waiting j
        rw [hperm.mem_iff, List.mem_cons, or_iff_right hne] at this
        simpa [hj] using this
    answered_nodup := h.answered_nodup
    answered_started := fun g hg => by
      obtain ⟨j, hj, hlen, hjs⟩ := h.answered_started g hg
      refine ⟨j, hj, hlen, ?_⟩
      by_cases hji : j = i
      · simp [hji, ClientPc.recvResponse]
      · simpa [hji] using hjs
    finished := fun j w hj => by
      by_cases hji : j = i
      · subst hji
        simp only [Function.update_self, ClientPc.recvResponse, ClientPc.finished.injEq] at hj
        exact hj ▸ hv
      · exact h.finished j w (by simpa [hji] using hj)
    not_failed := fun j => by
      by_cases hji : j = i
      · simp [hji, ClientPc.recvResponse]
      · simpa [hji] using h.not_failed j
    tiles := h.tiles }

/-- **Every step keeps the invariant**, whatever the capacity of the queue. -/
theorem Inv.step (h : Inv C s) {l : Label ι} (hst : step C cap s l = some s') : Inv C s' := by
  cases l with
  | clientSend i =>
    obtain ⟨hi, -, rfl⟩ := step_clientSend.mp hst
    exact h.clientSend hi
  | serverRecv =>
    obtain ⟨hs, m, q, hr, rfl⟩ := step_serverRecv.mp hst
    exact h.serverRecv hs hr
  | serverSend =>
    obtain ⟨hs, -, rfl⟩ := step_serverSend.mp hst
    exact h.serverSend hs
  | serverAdvance =>
    obtain ⟨hs, rfl⟩ := step_serverAdvance.mp hst
    exact h.serverAdvance hs
  | clientRecv i =>
    obtain ⟨hi, m, q, hr, rfl⟩ := step_clientRecv.mp hst
    exact h.clientRecv hi hr

theorem inv_reachable (h : (service C cap).Reachable s) : Inv C s :=
  h.invariant inv_start fun _ _ _ hs _ hst => hs.step hst

end Steps

/-! ## What the clients get -/

/-- In a list without repeated keys an element is the only one with its key. -/
theorem filter_key_eq_singleton {β κ : Type*} [DecidableEq κ] (f : β → κ) {l : List β}
    (h : (l.map f).Nodup) {x : β} (hx : x ∈ l) : l.filter (fun y => f y = f x) = [x] := by
  induction l with
  | nil => cases hx
  | cons y l ih =>
    rw [List.map_cons, List.nodup_cons] at h
    obtain ⟨hy, h⟩ := h
    rcases List.mem_cons.mp hx with rfl | hx
    · have hl : l.filter (fun y => f y = f x) = [] := by
        rw [List.filter_eq_nil_iff]
        intro z hz hzx
        exact hy (of_decide_eq_true hzx ▸ List.mem_map_of_mem hz)
      simp [hl]
    · have hne : f y ≠ f x := fun e => hy (e ▸ List.mem_map_of_mem hx)
      rw [List.filter_cons_of_neg (by simpa using hne), ih h hx]

variable [DecidableEq ι]

/-- **The service over a queue without a limit**, in every reachable state: the responses produced
for a client that has finished are exactly the one it received, for the length it asked for; what
the server takes for a request is the request of a client; the responses are for lengths asked for
by clients; their intervals are pairwise disjoint and cover everything below the sum of the
lengths served. -/
theorem service_correct (h : (service C none).Reachable s) :
    (∀ i v, s.client i = .finished v →
      s.granted.filter (fun g => g.pid = C.pid i) = [⟨C.pid i, ⟨v, C.seqlen i⟩⟩]) ∧
    (∀ m q, msgrcv 1 s.queue = some (m, q) → ∃ i, m = C.request i) ∧
    (∀ g ∈ s.granted, ∃ i, g.pid = C.pid i ∧ g.span.len = C.seqlen i) ∧
    (s.granted.map Grant.span).Pairwise (fun g g' => Disjoint g.toSet g'.toSet) ∧
    ⋃ g ∈ s.granted.map Grant.span, g.toSet =
      Set.Ico 0 ((s.granted.map Grant.span).map Span.len).sum := by
  have hinv := inv_reachable h
  refine ⟨fun i v hi => ?_, fun m q hr => ?_, fun g hg => ?_, hinv.tiles.stacked.pairwise_disjoint,
    ?_⟩
  · exact filter_key_eq_singleton Grant.pid hinv.answered_nodup (hinv.finished i v hi)
  · obtain ⟨hw, l, r, hq, -⟩ := msgrcv_eq_some hr
    obtain ⟨i, hi, -⟩ := hinv.wanted_one (by simp [hq]) hw
    exact ⟨i, hi⟩
  · obtain ⟨i, hi, hlen, -⟩ := hinv.answered_started g hg
    exact ⟨i, hi, hlen⟩
  · rw [hinv.tiles.iUnion_eq, hinv.tiles.end_eq, zero_add]

/-- Two clients, with process ids 2 and 3, that ask for 5 and 7 numbers. -/
def twoClients : Clients (Fin 2) where
  pid i := i + 2
  seqlen i := 2 * i + 5
  one_lt_pid i := by omega
  pid_injective i j h := by simpa [Fin.ext_iff] using h
  one_le_seqlen i := by omega

/-- Both send before the server answers the first; the second gets the number 5. -/
theorem service_correct_twoClients :
    ∃ s, (service twoClients none).Reachable s ∧ s.client 1 = .finished 5 ∧
      s.granted.filter (fun g => g.pid = twoClients.pid 1) = [⟨3, ⟨5, 7⟩⟩] := by
  have hreach := Machine.Reachable.run (.init : (service twoClients none).Reachable _)
    [.clientSend 0, .clientSend 1, .serverRecv, .serverSend, .serverAdvance, .serverRecv,
      .serverSend, .clientRecv 1] rfl
  exact ⟨_, hreach, rfl, (service_correct hreach).1 1 5 rfl⟩

end TlpiLearn.MsgSeqnum
