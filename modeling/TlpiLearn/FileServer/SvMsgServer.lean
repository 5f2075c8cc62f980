import TlpiLearn.FileServer.SvMsgFile
import TlpiLearn.Foundations.Parties
import TlpiLearn.Foundations.Refinement

/-!
# The file server with many clients

`main` of `46_45/svmsg_file_server.c` takes the requests of all clients from one queue and forks a
child for each; the children serve their clients at the same time, and the handler of `SIGCHLD`
reaps them. The machine runs the parent, its children and the clients in any order. A child and its
client make the steps of the machine of `SvMsgFile`, so that what holds of one transfer holds of each
(`reachable_transfer`).

When a `fork` fails, the parent removes its queue, with the requests in it, and exits. As in
`SvMsgFile`, a file that can be opened can be read.
-/

namespace TlpiLearn

/-! ## One transfer -/

namespace SvMsgFile

open FileServer

variable {limit : QueueLimit} {file : Option (List UInt8)} {s s' : State}

/-- A child that has sent everything does not go on. -/
theorem server_of_serveRequest {l : Label} (hst : serveRequest limit file s l = some s') :
    s.server ≠ .finished := by
  intro hfin
  unfold serveRequest at hst
  cases l <;> simp [hfin] at hst

theorem server_of_client (hst : client s = some s') : s'.server = s.server := by
  unfold client at hst
  split at hst
  · obtain ⟨r, -, rfl⟩ := Option.map_eq_some_iff.1 hst
    rfl
  · rw [Option.ite_none_right_eq_some] at hst
    obtain rfl := Option.some.inj hst.2
    rfl

/-- A client that has reported has left nothing in its queue. -/
theorem Inv.queue_of_exited (h : Inv file s) (hpc : s.client.pc = .exited) : s.queue = [] := by
  have hclient := h.client
  rw [Client.At, hpc] at hclient
  obtain ⟨m, htaken, hm, -⟩ | ⟨m, hupto, hm, -⟩ := hclient
  · obtain ⟨ds, tail, hsent, htail⟩ := h.server.sent_eq
    have heq : m :: s.queue = ds.map dataMsg ++ tail := by
      rw [← hsent, ← h.taken_queue, htaken]
      rfl
    cases ds with
    | cons d ds =>
      rw [(List.cons.inj heq).1] at hm
      cases hm
    | nil =>
      obtain rfl | ⟨rfl, -⟩ | ⟨rfl, -⟩ := htail
      · cases heq
      · exact (List.cons.inj heq).2
      · exact (List.cons.inj heq).2
  · obtain ⟨ds, -, hqueue, -⟩ := h.taken_all hupto hm
    exact hqueue

/-- Where a child and its client cannot go on, the child is done. -/
theorem Inv.finished_of_stuck (h : Inv file s) (hstuck : (machine limit file).Stuck s) :
    s.server = .finished := by
  obtain hpc | ⟨hqueue, -⟩ := client_of_stuck hstuck
  · exact h.server_finished (h.queue_of_exited hpc) hstuck
  · exact h.server_finished hqueue hstuck

/-- What a client reports is what is so. -/
structure Truthful (file : Option (List UInt8)) (c : Client ResponseMsg) : Prop where
  /-- A total is the length of the file, and the messages were those of the file. -/
  received : ∀ totBytes numMsgs, c.report = some (.received totBytes numMsgs) →
    ∃ ds : List (List UInt8), c.taken = ds.map dataMsg ++ [endMsg] ∧ file = some ds.flatten ∧
      totBytes = ds.flatten.length ∧ numMsgs = ds.length + 1
  /-- A failure is reported when there is no file. -/
  failure : ∀ text, c.report = some (.failure text) → file = none ∧ text = couldntOpen

theorem Inv.truthful (h : Inv file s) : Truthful file s.client where
  received totBytes numMsgs hreport := by
    obtain ⟨ds, htaken, -, hfile⟩ := h.received totBytes numMsgs hreport
    exact ⟨ds, htaken, hfile⟩
  failure := h.failure

end SvMsgFile

namespace SvMsgServer

variable {π : Type*}

/-- Where the parent is in `main`. -/
inductive ServerPc (π : Type*)
  /-- In `msgrcv`. -/
  | receiving
  /-- Before `fork`, with the request of a client. -/
  | forking (p : π)
  /-- Before `msgctl(serverId, IPC_RMID, NULL)`. -/
  | removing
  | exited
  deriving DecidableEq, Repr

/-- Where a client is. -/
inductive ClientPc
  /-- Before `msgsnd(serverId, ..)`. -/
  | starting
  /-- The request is sent. -/
  | waiting
  /-- After `errExit("msgsnd")`. -/
  | failed
  deriving DecidableEq, Repr

/-- The child for a client. -/
inductive ChildPc
  | none
  | running
  /-- After `_exit`, not yet waited for. -/
  | zombie
  | reaped
  deriving DecidableEq, Repr

structure State (π : Type*) where
  /-- The server's queue; `none` once it is removed. -/
  requests : Option (List π)
  server : ServerPc π
  client : π → ClientPc
  child : π → ChildPc
  /-- The queue of each client, and what it and its child have done. -/
  transfer : π → SvMsgFile.State
  /-- `SIGCHLD` is pending for the parent. -/
  sigchld : Bool

inductive Label (π : Type*)
  /-- `msgsnd` of the request. -/
  | request (p : π)
  /-- `msgrcv` of the parent. -/
  | receive
  /-- `fork`, and whether it succeeds. -/
  | fork (ok : Bool)
  /-- The end of `main`. -/
  | remove
  /-- A step of `serveRequest` in the child. -/
  | child (p : π) (l : SvMsgFile.Label)
  /-- A step of the client after its request. -/
  | client (p : π)
  /-- `_exit` of the child. -/
  | exitChild (p : π)
  /-- The handler of `SIGCHLD`. -/
  | grimReaper
  deriving DecidableEq, Repr

/-- The clients: the limits of their queues, and the files that they ask for. -/
structure Clients (π : Type*) where
  limit : π → SvMsgFile.QueueLimit
  file : π → Option (List UInt8)
  /-- The requests that fit the server's queue. -/
  room : ℕ
  room_pos : 0 < room

def start : State π :=
  { requests := some [], server := .receiving, client := fun _ => .starting
    child := fun _ => .none, transfer := fun _ => SvMsgFile.start, sigchld := false }

/-- `waitpid(-1, NULL, WNOHANG)` until no zombie is left. -/
def ChildPc.reap : ChildPc → ChildPc
  | zombie => reaped
  | pc => pc

variable [DecidableEq π]

/-- The steps of the parent, of its children and of the clients. -/
def step (C : Clients π) (s : State π) : Label π → Option (State π)
  | .request p =>
    if s.client p = .starting then
      match s.requests with
      | none => some { s with client := Function.update s.client p .failed }
      | some q =>
        if q.length < C.room then
          some { s with requests := some (q ++ [p])
                        client := Function.update s.client p .waiting }
        else none
    else none
  | .receive =>
    match s.server, s.requests with
    | .receiving, some (p :: q) => some { s with requests := some q, server := .forking p }
    | _, _ => none
  | .fork ok =>
    match s.server with
    | .forking p =>
      if ok then
        some { s with server := .receiving, child := Function.update s.child p .running }
      else some { s with server := .removing }
    | _ => none
  | .remove =>
    if s.server = .removing then some { s with server := .exited, requests := none } else none
  | .child p l =>
    if s.child p = .running then
      (SvMsgFile.serveRequest (C.limit p) (C.file p) (s.transfer p) l).map fun t =>
        { s with transfer := Function.update s.transfer p t }
    else none
  | .client p =>
    if s.client p = .waiting then
      (SvMsgFile.client (s.transfer p)).map fun t =>
        { s with transfer := Function.update s.transfer p t }
    else none
  | .exitChild p =>
    if s.child p = .running ∧ (s.transfer p).server = .finished then
      some { s with child := Function.update s.child p .zombie
                    sigchld := decide (s.server ≠ .exited) }
    else none
  | .grimReaper =>
    -- `msgrcv` fails with `EINTR` and is made again
    if s.sigchld ∧ s.server ≠ .exited then
      some { s with child := fun p => (s.child p).reap, sigchld := false }
    else none

/-- The parent, its children and the clients. -/
def service (C : Clients π) : Machine (State π) (Label π) := ⟨start, step C⟩

/-! ## What a step does -/

variable {C : Clients π} {s s' : State π} {p : π}

theorem step_request :
    step C s (.request p) = some s' ↔ s.client p = .starting ∧
      (s.requests = none ∧ s' = { s with client := Function.update s.client p .failed } ∨
        ∃ q, s.requests = some q ∧ q.length < C.room ∧
          s' = { s with requests := some (q ++ [p])
                        client := Function.update s.client p .waiting }) := by
  rw [step, Option.ite_none_right_eq_some]
  refine and_congr_right fun _ => ?_
  cases hq : s.requests with
  | none => simp [eq_comm]
  | some q =>
    simp only [Option.ite_none_right_eq_some, Option.some.injEq, reduceCtorEq, false_and,
      false_or, exists_eq_left', eq_comm (b := s')]

theorem step_receive :
    step C s .receive = some s' ↔ s.server = .receiving ∧ ∃ p q, s.requests = some (p :: q) ∧
      s' = { s with requests := some q, server := .forking p } := by
  rw [step]
  split
  · rename_i p q hs hq
    simp [hs, hq, eq_comm]
  · rename_i h
    simp only [reduceCtorEq, false_iff]
    rintro ⟨hs, p, q, hq, -⟩
    exact h p q hs hq

theorem step_fork {ok : Bool} :
    step C s (.fork ok) = some s' ↔ ∃ p, s.server = .forking p ∧
      s' = if ok then
          { s with server := .receiving, child := Function.update s.child p .running }
        else { s with server := .removing } := by
  rw [step]
  split
  · rename_i p hs
    cases ok <;> simp [hs, eq_comm]
  · rename_i h
    simp only [reduceCtorEq, false_iff]
    rintro ⟨p, hs, -⟩
    exact h p hs

theorem step_remove :
    step C s .remove = some s' ↔ s.server = .removing ∧
      s' = { s with server := .exited, requests := none } := by
  rw [step, Option.ite_none_right_eq_some, Option.some.injEq, eq_comm (b := s')]

theorem step_child {l : SvMsgFile.Label} :
    step C s (.child p l) = some s' ↔ s.child p = .running ∧ ∃ t,
      SvMsgFile.serveRequest (C.limit p) (C.file p) (s.transfer p) l = some t ∧
      s' = { s with transfer := Function.update s.transfer p t } := by
  rw [step, Option.ite_none_right_eq_some, Option.map_eq_some_iff]
  simp only [eq_comm (b := s')]

theorem step_client :
    step C s (.client p) = some s' ↔ s.client p = .waiting ∧ ∃ t,
      SvMsgFile.client (s.transfer p) = some t ∧
      s' = { s with transfer := Function.update s.transfer p t } := by
  rw [step, Option.ite_none_right_eq_some, Option.map_eq_some_iff]
  simp only [eq_comm (b := s')]

theorem step_exitChild :
    step C s (.exitChild p) = some s' ↔
      (s.child p = .running ∧ (s.transfer p).server = .finished) ∧
      s' = { s with child := Function.update s.child p .zombie
                    sigchld := decide (s.server ≠ .exited) } := by
  rw [step, Option.ite_none_right_eq_some, Option.some.injEq, eq_comm (b := s')]

theorem step_grimReaper :
    step C s .grimReaper = some s' ↔ (s.sigchld = true ∧ s.server ≠ .exited) ∧
      s' = { s with child := fun p => (s.child p).reap, sigchld := false } := by
  rw [step, Option.ite_none_right_eq_some, Option.some.injEq, eq_comm (b := s')]

/-! ## Each transfer on its own -/

/-- A step of the service is a step of one transfer, or of none. -/
theorem partyStep (l : Label π) (hst : step C s l = some s') :
    Machine.PartyStep (fun p => SvMsgFile.machine (C.limit p) (C.file p)) s.transfer
      s'.transfer := by
  cases l with
  | request p =>
    obtain ⟨-, ⟨-, rfl⟩ | ⟨q, -, -, rfl⟩⟩ := step_request.1 hst <;> exact .inl rfl
  | receive =>
    obtain ⟨-, p, q, -, rfl⟩ := step_receive.1 hst
    exact .inl rfl
  | fork ok =>
    obtain ⟨p, -, rfl⟩ := step_fork.1 hst
    cases ok <;> exact .inl rfl
  | remove =>
    obtain ⟨-, rfl⟩ := step_remove.1 hst
    exact .inl rfl
  | child p l =>
    obtain ⟨-, t, ht, rfl⟩ := step_child.1 hst
    have ht' : (SvMsgFile.machine (C.limit p) (C.file p)).step (s.transfer p) l = some t := by
      cases l with
      | client => cases ht
      | _ => exact ht
    exact Machine.partyStep_update ht'
  | client p =>
    obtain ⟨-, t, ht, rfl⟩ := step_client.1 hst
    have ht' : (SvMsgFile.machine (C.limit p) (C.file p)).step (s.transfer p) .client = some t :=
      ht
    exact Machine.partyStep_update ht'
  | exitChild p =>
    obtain ⟨-, rfl⟩ := step_exitChild.1 hst
    exact .inl rfl
  | grimReaper =>
    obtain ⟨-, rfl⟩ := step_grimReaper.1 hst
    exact .inl rfl

/-- **Each transfer** is in a state that it can reach without the others. -/
theorem reachable_transfer (hs : (service C).Reachable s) (p : π) :
    (SvMsgFile.machine (C.limit p) (C.file p)).Reachable (s.transfer p) :=
  hs.party (fun _ => rfl) (fun t l _ hst => partyStep l (show step C t l = some _ from hst)) p

/-! ## The parent and its children -/

/-- What the parent knows of the clients. -/
structure Inv (s : State π) : Prop where
  queued : ∀ q, s.requests = some q → q.Nodup ∧ ∀ p ∈ q, s.client p = .waiting ∧
    s.child p = .none ∧ s.server ≠ .forking p
  forking : ∀ p, s.server = .forking p → s.client p = .waiting ∧ s.child p = .none
  waiting : ∀ p, s.client p = .waiting → s.child p ≠ .none ∨ s.server = .forking p ∨
    (∃ q, s.requests = some q ∧ p ∈ q) ∨ s.server = .removing ∨ s.server = .exited
  child : ∀ p, s.child p ≠ .none → s.client p = .waiting
  ended : ∀ p, s.child p = .zombie ∨ s.child p = .reaped → (s.transfer p).server = .finished
  reaped : s.sigchld = false → s.server ≠ .exited → ∀ p, s.child p ≠ .zombie
  removed : s.requests = none ↔ s.server = .exited
  failed : ∀ p, s.client p = .failed → s.server = .exited
  idle : ∀ p, s.child p = .none → s.transfer p = SvMsgFile.start

omit [DecidableEq π] in
theorem inv_start : Inv (start : State π) where
  queued q hq := by
    obtain rfl := Option.some.inj hq
    exact ⟨.nil, fun p hp => absurd hp List.not_mem_nil⟩
  forking p hp := by cases hp
  waiting p hp := by cases hp
  child p hp := absurd rfl hp
  ended p hp := by rcases hp with hp | hp <;> cases hp
  reaped _ _ p := by simp [start]
  removed := by simp [start]
  failed p hp := by cases hp
  idle _ _ := rfl

namespace Inv

theorem request (h : Inv s) (hst : SvMsgServer.step C s (.request p) = some s') : Inv s' := by
  obtain ⟨hc, hreq⟩ := step_request.1 hst
  have hchild : s.child p = .none := by
    by_contra hne
    rw [h.child p hne] at hc
    cases hc
  have hne : ∀ q, s.client q = .waiting → q ≠ p := by
    rintro q hq rfl
    rw [hq] at hc
    cases hc
  have hold : ∀ r, r ≠ p → ∀ pc, Function.update s.client p pc r = s.client r := fun r hr pc =>
    Function.update_of_ne hr ..
  obtain ⟨hnone, rfl⟩ | ⟨q, hq, -, rfl⟩ := hreq
  · exact {
      queued := fun q hq => by rw [hnone] at hq; cases hq
      forking := fun r hr => by
        have hr' := h.forking r hr
        exact ⟨(hold r (hne r hr'.1) _).trans hr'.1, hr'.2⟩
      waiting := fun r hr => by
        obtain rfl | hrp := eq_or_ne r p
        · simp at hr
        · exact h.waiting r ((hold r hrp _).symm.trans hr)
      child := fun r hr => by
        have hr' := h.child r hr
        exact (hold r (hne r hr') _).trans hr'
      ended := h.ended
      reaped := h.reaped
      removed := h.removed
      failed := fun _ _ => h.removed.1 hnone
      idle := h.idle }
  · obtain ⟨hnodup, hmem⟩ := h.queued q hq
    have hp : p ∉ q := fun hp => hne p (hmem p hp).1 rfl
    exact {
      queued := fun q' hq' => by
        obtain rfl := Option.some.inj hq'
        refine ⟨hnodup.append (List.nodup_singleton p) (List.disjoint_singleton.2 hp), ?_⟩
        intro r hr
        obtain hr | hr := List.mem_append.1 hr
        · obtain ⟨h1, h2, h3⟩ := hmem r hr
          exact ⟨(hold r (hne r h1) _).trans h1, h2, h3⟩
        · obtain rfl := List.mem_singleton.1 hr
          refine ⟨Function.update_self .., hchild, fun hf => ?_⟩
          exact hne r (h.forking r hf).1 rfl
      forking := fun r hr => by
        have hr' := h.forking r hr
        exact ⟨(hold r (hne r hr'.1) _).trans hr'.1, hr'.2⟩
      waiting := fun r hr => by
        obtain rfl | hrp := eq_or_ne r p
        · exact .inr (.inr (.inl ⟨_, rfl, by simp⟩))
        · obtain hr | hr | ⟨q', hq', hq''⟩ | hr := h.waiting r ((hold r hrp _).symm.trans hr)
          · exact .inl hr
          · exact .inr (.inl hr)
          · obtain rfl := Option.some.inj (hq'.symm.trans hq)
            exact .inr (.inr (.inl ⟨_, rfl, List.mem_append_left _ hq''⟩))
          · exact .inr (.inr (.inr hr))
      child := fun r hr => by
        have hr' := h.child r hr
        exact (hold r (hne r hr') _).trans hr'
      ended := h.ended
      reaped := h.reaped
      removed := by
        refine ⟨fun hnone => (by cases hnone), fun hexit => ?_⟩
        rw [h.removed.2 hexit] at hq
        cases hq
      failed := fun r hr => by
        obtain rfl | hrp := eq_or_ne r p
        · simp at hr
        · exact h.failed r ((hold r hrp _).symm.trans hr)
      idle := h.idle }

theorem receive (h : Inv s) (hst : SvMsgServer.step C s .receive = some s') : Inv s' := by
  obtain ⟨hs, p, q, hq, rfl⟩ := step_receive.1 hst
  obtain ⟨hnodup, hmem⟩ := h.queued _ hq
  obtain ⟨hp, hnodup⟩ := List.nodup_cons.1 hnodup
  exact {
    queued := fun q' hq' => by
      obtain rfl := Option.some.inj hq'
      refine ⟨hnodup, fun r hr => ?_⟩
      obtain ⟨h1, h2, -⟩ := hmem r (List.mem_cons_of_mem _ hr)
      refine ⟨h1, h2, fun hf => ?_⟩
      obtain rfl := ServerPc.forking.inj hf
      exact hp hr
    forking := fun r hr => by
      obtain rfl := ServerPc.forking.inj hr
      obtain ⟨h1, h2, -⟩ := hmem p List.mem_cons_self
      exact ⟨h1, h2⟩
    waiting := fun r hr => by
      obtain hr | hr | ⟨q', hq', hr⟩ | hr | hr := h.waiting r hr
      · exact .inl hr
      · rw [hs] at hr
        cases hr
      · obtain rfl := Option.some.inj (hq'.symm.trans hq)
        obtain rfl | hr := List.mem_cons.1 hr
        · exact .inr (.inl rfl)
        · exact .inr (.inr (.inl ⟨q, rfl, hr⟩))
      · rw [hs] at hr
        cases hr
      · rw [hs] at hr
        cases hr
    child := h.child
    ended := h.ended
    reaped := fun hsig _ => h.reaped hsig (by simp [hs])
    removed := by simp
    failed := fun r hr => by
      have hexit := h.failed r hr
      rw [hs] at hexit
      cases hexit
    idle := h.idle }

theorem fork (h : Inv s) {ok : Bool} (hst : SvMsgServer.step C s (.fork ok) = some s') :
    Inv s' := by
  obtain ⟨p, hs, rfl⟩ := step_fork.1 hst
  obtain ⟨hc, hchild⟩ := h.forking p hs
  have hexited : s.server ≠ .exited := by
    rw [hs]
    intro hexit
    cases hexit
  have hrequests : s.requests ≠ none := fun hnone => hexited (h.removed.1 hnone)
  cases ok with
  | false =>
    exact {
      queued := fun q hq => by
        obtain ⟨hnodup, hmem⟩ := h.queued q hq
        exact ⟨hnodup, fun r hr => ⟨(hmem r hr).1, (hmem r hr).2.1, by simp⟩⟩
      forking := fun r hr => by cases hr
      waiting := fun r _ => .inr (.inr (.inr (.inl rfl)))
      child := h.child
      ended := h.ended
      reaped := fun hsig _ => h.reaped hsig (by simp [hs])
      removed := by simpa using hrequests
      failed := fun r hr => absurd (h.failed r hr) hexited
      idle := h.idle }
  | true =>
    have hold : ∀ r, r ≠ p → Function.update s.child p .running r = s.child r := fun r hr =>
      Function.update_of_ne hr ..
    exact {
      queued := fun q hq => by
        obtain ⟨hnodup, hmem⟩ := h.queued q hq
        refine ⟨hnodup, fun r hr => ?_⟩
        obtain ⟨h1, h2, h3⟩ := hmem r hr
        have hrp : r ≠ p := fun e => h3 (e ▸ hs)
        exact ⟨h1, (hold r hrp).trans h2, by simp⟩
      forking := fun r hr => by cases hr
      waiting := fun r hr => by
        obtain rfl | hrp := eq_or_ne r p
        · exact .inl (by simp)
        · obtain hr | hr | hr | hr | hr := h.waiting r hr
          · exact .inl (by simpa [hold r hrp] using hr)
          · exact absurd (ServerPc.forking.inj (hr.symm.trans hs)) hrp
          · exact .inr (.inr (.inl hr))
          · rw [hs] at hr
            cases hr
          · rw [hs] at hr
            cases hr
      child := fun r hr => by
        obtain rfl | hrp := eq_or_ne r p
        · exact hc
        · exact h.child r (by simpa [hold r hrp] using hr)
      ended := fun r hr => by
        obtain rfl | hrp := eq_or_ne r p
        · simp at hr
        · exact h.ended r (by simpa [hold r hrp] using hr)
      reaped := fun hsig _ r => by
        obtain rfl | hrp := eq_or_ne r p
        · simp
        · simpa [hold r hrp] using h.reaped hsig (by simp [hs]) r
      removed := by simpa using hrequests
      failed := fun r hr => absurd (h.failed r hr) hexited
      idle := fun r hr => by
        obtain rfl | hrp := eq_or_ne r p
        · simp at hr
        · exact h.idle r ((hold r hrp).symm.trans hr) }

theorem remove (h : Inv s) (hst : SvMsgServer.step C s .remove = some s') : Inv s' := by
  obtain ⟨-, rfl⟩ := step_remove.1 hst
  exact {
    queued := fun q hq => by cases hq
    forking := fun r hr => by cases hr
    waiting := fun r _ => .inr (.inr (.inr (.inr rfl)))
    child := h.child
    ended := h.ended
    reaped := fun _ hne => absurd rfl hne
    removed := by simp
    failed := fun _ _ => rfl
    idle := h.idle }

/-- A step of a transfer whose child exists, and that does not take the child back from its end. -/
theorem setTransfer (h : Inv s) {t : SvMsgFile.State} (hchild : s.child p ≠ .none)
    (ht : (s.transfer p).server = .finished → t.server = .finished) :
    Inv { s with transfer := Function.update s.transfer p t } where
  queued := h.queued
  forking := h.forking
  waiting := h.waiting
  child := h.child
  ended r hr := by
    obtain rfl | hrp := eq_or_ne r p
    · exact (congrArg _ (Function.update_self ..)).trans (ht (h.ended r hr))
    · exact (congrArg _ (Function.update_of_ne hrp ..)).trans (h.ended r hr)
  reaped := h.reaped
  removed := h.removed
  failed := h.failed
  idle r hr := by
    obtain rfl | hrp := eq_or_ne r p
    · exact absurd hr hchild
    · exact (Function.update_of_ne hrp ..).trans (h.idle r hr)

theorem exitChild (h : Inv s) (hst : SvMsgServer.step C s (.exitChild p) = some s') : Inv s' := by
  obtain ⟨⟨hrun, hfin⟩, rfl⟩ := step_exitChild.1 hst
  have hold : ∀ r, r ≠ p → Function.update s.child p .zombie r = s.child r := fun r hr =>
    Function.update_of_ne hr ..
  exact {
    queued := fun q hq => by
      obtain ⟨hnodup, hmem⟩ := h.queued q hq
      refine ⟨hnodup, fun r hr => ?_⟩
      obtain ⟨h1, h2, h3⟩ := hmem r hr
      have hrp : r ≠ p := fun e => by
        rw [e, hrun] at h2
        cases h2
      exact ⟨h1, (hold r hrp).trans h2, h3⟩
    forking := fun r hr => by
      obtain ⟨h1, h2⟩ := h.forking r hr
      have hrp : r ≠ p := fun e => by
        rw [e, hrun] at h2
        cases h2
      exact ⟨h1, (hold r hrp).trans h2⟩
    waiting := fun r hr => by
      obtain rfl | hrp := eq_or_ne r p
      · exact .inl (by simp)
      · exact (h.waiting r hr).imp_left fun hne => by simpa [hold r hrp] using hne
    child := fun r hr => by
      obtain rfl | hrp := eq_or_ne r p
      · exact h.child r (by simp [hrun])
      · exact h.child r (by simpa [hold r hrp] using hr)
    ended := fun r hr => by
      obtain rfl | hrp := eq_or_ne r p
      · exact hfin
      · exact h.ended r (by simpa [hold r hrp] using hr)
    reaped := fun hsig hne => by simp [hne] at hsig
    removed := h.removed
    failed := h.failed
    idle := fun r hr => by
      obtain rfl | hrp := eq_or_ne r p
      · simp at hr
      · exact h.idle r ((hold r hrp).symm.trans hr) }

theorem grimReaper (h : Inv s) (hst : SvMsgServer.step C s .grimReaper = some s') : Inv s' := by
  obtain ⟨-, rfl⟩ := step_grimReaper.1 hst
  have hnone : ∀ pc : ChildPc, pc.reap = .none ↔ pc = .none := by
    intro pc
    cases pc <;> simp [ChildPc.reap]
  have hzombie : ∀ pc : ChildPc, pc.reap ≠ .zombie := by
    intro pc
    cases pc <;> simp [ChildPc.reap]
  have hended : ∀ pc : ChildPc, pc.reap = .reaped → pc = .zombie ∨ pc = .reaped := by
    intro pc
    cases pc <;> simp [ChildPc.reap]
  exact {
    queued := fun q hq => by
      obtain ⟨hnodup, hmem⟩ := h.queued q hq
      exact ⟨hnodup, fun r hr => ⟨(hmem r hr).1, (hnone _).2 (hmem r hr).2.1, (hmem r hr).2.2⟩⟩
    forking := fun r hr => ⟨(h.forking r hr).1, (hnone _).2 (h.forking r hr).2⟩
    waiting := fun r hr => (h.waiting r hr).imp_left fun hne hr => hne ((hnone _).1 hr)
    child := fun r hr => h.child r fun he => hr ((hnone _).2 he)
    ended := fun r hr => by
      obtain hr | hr := hr
      · exact absurd hr (hzombie _)
      · exact h.ended r (hended _ hr)
    reaped := fun _ _ r => hzombie _
    removed := h.removed
    failed := h.failed
    idle := fun r hr => h.idle r ((hnone _).1 hr) }

omit [DecidableEq π] in
/-- A client without a child has nothing in its queue. -/
theorem child_of_client (h : Inv s) {t : SvMsgFile.State}
    (ht : SvMsgFile.client (s.transfer p) = some t) : s.child p ≠ .none := by
  intro hnone
  rw [h.idle p hnone] at ht
  cases ht

theorem step (h : Inv s) {l : Label π} (hst : SvMsgServer.step C s l = some s') : Inv s' := by
  cases l with
  | request p => exact h.request hst
  | receive => exact h.receive hst
  | fork ok => exact h.fork hst
  | remove => exact h.remove hst
  | child p l =>
    obtain ⟨hrun, t, ht, rfl⟩ := step_child.1 hst
    refine h.setTransfer (by simp [hrun]) fun hfin => ?_
    exact absurd hfin (SvMsgFile.server_of_serveRequest ht)
  | client p =>
    obtain ⟨-, t, ht, rfl⟩ := step_client.1 hst
    refine h.setTransfer (h.child_of_client ht) fun hfin => ?_
    exact (SvMsgFile.server_of_client ht).trans hfin
  | exitChild p => exact h.exitChild hst
  | grimReaper => exact h.grimReaper hst

end Inv

theorem inv_of_reachable {ok : State π → Label π → Prop} (hs : (service C).ReachableBy ok s) :
    Inv s :=
  hs.invariant inv_start fun s _ s' h _ hst => h.step (show step C s _ = some s' from hst)

/-! ## Runs end -/

/-- The steps of a client's request, and of the parent and the child for it. -/
def ClientPc.left : ClientPc → ℕ
  | starting => 5
  | _ => 0

def ChildPc.left : ChildPc → ℕ
  | running => 2
  | _ => 0

def ServerPc.left : ServerPc π → ℕ
  | forking _ => 3
  | removing => 1
  | _ => 0

theorem ClientPc.left_starting : starting.left = 5 := rfl

theorem ChildPc.left_running : running.left = 2 := rfl

theorem ChildPc.left_reap (pc : ChildPc) : pc.reap.left = pc.left := by
  cases pc <;> rfl

/-- The steps that are left, at most. -/
def cost [Fintype π] (C : Clients π) (s : State π) : ℕ :=
  ∑ p, (s.client p).left + ∑ p, (s.child p).left +
    ∑ p, SvMsgFile.left (C.file p) (s.transfer p) + 4 * (s.requests.getD []).length +
      s.server.left + s.sigchld.toNat

theorem cost_step [Fintype π] {l : Label π} (hst : step C s l = some s') :
    cost C s' < cost C s := by
  have hclient : ∀ p pc, _ := sum_update_add (fun (_ : π) => ClientPc.left) s.client
  have hchild : ∀ p pc, _ := sum_update_add (fun (_ : π) => ChildPc.left) s.child
  have htransfer : ∀ p t, _ := sum_update_add (fun p => SvMsgFile.left (C.file p)) s.transfer
  cases l with
  | request p =>
    obtain ⟨hc, ⟨hq, rfl⟩ | ⟨q, hq, -, rfl⟩⟩ := step_request.1 hst
    · have hsum := hclient p .failed
      have hfailed : ClientPc.failed.left = 0 := rfl
      rw [hc, ClientPc.left_starting] at hsum
      simp only [cost, hq]
      omega
    · have hsum := hclient p .waiting
      have hwaiting : ClientPc.waiting.left = 0 := rfl
      rw [hc, ClientPc.left_starting] at hsum
      simp only [cost, hq, Option.getD_some, List.length_append, List.length_singleton]
      omega
  | receive =>
    obtain ⟨hs, p, q, hq, rfl⟩ := step_receive.1 hst
    simp only [cost, hs, hq, ServerPc.left, Option.getD_some, List.length_cons]
    omega
  | fork ok =>
    obtain ⟨p, hs, rfl⟩ := step_fork.1 hst
    cases ok with
    | true =>
      have hsum := hchild p .running
      rw [ChildPc.left_running] at hsum
      simp only [cost, hs, ServerPc.left, if_true]
      omega
    | false =>
      simp only [cost, hs, ServerPc.left, Bool.false_eq_true, if_false]
      omega
  | remove =>
    obtain ⟨hs, rfl⟩ := step_remove.1 hst
    simp only [cost, hs, ServerPc.left, Option.getD_none, List.length_nil]
    omega
  | child p l =>
    obtain ⟨-, t, ht, rfl⟩ := step_child.1 hst
    have hsum := htransfer p t
    have hlt := SvMsgFile.left_server ht
    simp only [cost]
    omega
  | client p =>
    obtain ⟨-, t, ht, rfl⟩ := step_client.1 hst
    have hsum := htransfer p t
    have hlt : SvMsgFile.left (C.file p) t < SvMsgFile.left (C.file p) (s.transfer p) :=
      SvMsgFile.left_client ht
    simp only [cost]
    omega
  | exitChild p =>
    obtain ⟨⟨hrun, -⟩, rfl⟩ := step_exitChild.1 hst
    have hsum := hchild p .zombie
    have hzombie : ChildPc.zombie.left = 0 := rfl
    have hle := Bool.toNat_le (decide (s.server ≠ .exited))
    rw [hrun, ChildPc.left_running] at hsum
    simp only [cost]
    omega
  | grimReaper =>
    obtain ⟨⟨hsig, -⟩, rfl⟩ := step_grimReaper.1 hst
    simp only [cost, hsig, ChildPc.left_reap, Bool.toNat_true, Bool.toNat_false]
    omega

omit [DecidableEq π] in
theorem cost_start [Fintype π] :
    cost C start = ∑ p, (3 * ((C.file p).getD []).length + 10) := by
  have hleft : ∀ p, 3 * ((C.file p).getD []).length + 10 =
      5 + SvMsgFile.left (C.file p) SvMsgFile.start := by
    intro p
    simp only [SvMsgFile.left, SvMsgFile.serverLeft, SvMsgFile.start, FileServer.Client.start,
      List.length_nil, reduceCtorEq, if_false]
    omega
  simp only [hleft, Finset.sum_add_distrib, cost, start, ClientPc.left, ChildPc.left,
    ServerPc.left, Finset.sum_const_zero, Option.getD_some, List.length_nil, Bool.toNat_false]
  omega

/-! ## Where a run ends -/

/-- A stuck state has no step. -/
theorem not_step (hstuck : (service C).Stuck s) {l : Label π} (hst : step C s l = some s') :
    False :=
  hstuck.false (show (service C).step s l = some s' from hst)

/-- The parent waits for a request, or it has exited. -/
theorem Inv.server_of_stuck (h : Inv s) (hstuck : (service C).Stuck s) :
    s.server = .receiving ∧ s.requests = some [] ∨ s.server = .exited ∧ s.requests = none := by
  have hrequests : s.server ≠ .exited → ∃ q, s.requests = some q := fun hne =>
    Option.ne_none_iff_exists'.1 fun hnone => hne (h.removed.1 hnone)
  cases hs : s.server with
  | receiving =>
    obtain ⟨q, hq⟩ := hrequests (by simp [hs])
    cases q with
    | nil => exact .inl ⟨rfl, hq⟩
    | cons p q => exact (not_step hstuck (step_receive.2 ⟨hs, p, q, hq, rfl⟩)).elim
  | forking p => exact (not_step hstuck (step_fork.2 ⟨p, hs, rfl⟩) (l := .fork true)).elim
  | removing => exact (not_step hstuck (step_remove.2 ⟨hs, rfl⟩)).elim
  | exited => exact .inr ⟨rfl, h.removed.2 hs⟩

/-- No client is left before its request. -/
theorem Inv.client_of_stuck (h : Inv s) (hstuck : (service C).Stuck s) (p : π) :
    s.client p ≠ .starting := by
  intro hc
  obtain ⟨-, hq⟩ | ⟨-, hq⟩ := h.server_of_stuck hstuck
  · exact not_step hstuck (step_request.2 ⟨hc, .inr ⟨[], hq, C.room_pos, rfl⟩⟩)
  · exact not_step hstuck (step_request.2 ⟨hc, .inl ⟨hq, rfl⟩⟩)

/-- The child and its client have come to an end. -/
theorem Inv.transfer_of_stuck (h : Inv s) (hstuck : (service C).Stuck s) (p : π)
    (hchild : s.child p ≠ .none) :
    (SvMsgFile.machine (C.limit p) (C.file p)).Stuck (s.transfer p) := by
  have hclient : SvMsgFile.client (s.transfer p) = none := by
    rw [Option.eq_none_iff_forall_ne_some]
    intro t ht
    exact not_step hstuck (step_client.2 ⟨h.child p hchild, t, ht, rfl⟩)
  have hserver : ∀ l, SvMsgFile.serveRequest (C.limit p) (C.file p) (s.transfer p) l = none := by
    intro l
    rw [Option.eq_none_iff_forall_ne_some]
    intro t ht
    have hrun : s.child p = .running := by
      by_contra hne
      refine SvMsgFile.server_of_serveRequest ht (h.ended p ?_)
      cases hpc : s.child p with
      | none => exact absurd hpc hchild
      | running => exact absurd hpc hne
      | zombie => exact .inl rfl
      | reaped => exact .inr rfl
    exact not_step hstuck (step_child.2 ⟨hrun, t, ht, rfl⟩)
  intro l
  cases l with
  | client => exact hclient
  | openFile => exact hserver .openFile
  | read n => exact hserver (.read n)
  | send => exact hserver .send

/-- A client reports if and only if a child was forked for it. -/
theorem report_of_stuck (hs : (service C).Reachable s) (hstuck : (service C).Stuck s) (p : π) :
    (s.transfer p).client.report.isSome = true ↔ s.child p ≠ .none := by
  have h := inv_of_reachable hs
  constructor
  · intro hreport hnone
    rw [h.idle p hnone] at hreport
    cases hreport
  · intro hchild
    exact (SvMsgFile.inv_of_reachable (reachable_transfer hs p)).reported_of_stuck
      (h.transfer_of_stuck hstuck p hchild)

/-- The parent has waited for all children, unless it has exited. -/
theorem child_of_stuck (hs : (service C).Reachable s) (hstuck : (service C).Stuck s)
    (hserver : s.server ≠ .exited) (p : π) : s.child p = .reaped := by
  have h := inv_of_reachable hs
  have hreceiving : s.server = .receiving ∧ s.requests = some [] := by
    obtain hr | hr := h.server_of_stuck hstuck
    · exact hr
    · exact absurd hr.1 hserver
  have hsig : s.sigchld = false := by
    by_contra hsig
    rw [Bool.not_eq_false] at hsig
    exact not_step hstuck (step_grimReaper.2 ⟨⟨hsig, hserver⟩, rfl⟩)
  have hwaiting : s.client p = .waiting := by
    cases hc : s.client p with
    | starting => exact absurd hc (h.client_of_stuck hstuck p)
    | waiting => rfl
    | failed => exact absurd (h.failed p hc) hserver
  cases hchild : s.child p with
  | none =>
    obtain hr | hr | ⟨q, hq, hr⟩ | hr | hr := h.waiting p hwaiting
    · exact absurd hchild hr
    · rw [hreceiving.1] at hr
      cases hr
    · obtain rfl := Option.some.inj (hreceiving.2.symm.trans hq)
      exact absurd hr List.not_mem_nil
    · rw [hreceiving.1] at hr
      cases hr
    · exact absurd hr hserver
  | running =>
    have hfin := (SvMsgFile.inv_of_reachable (reachable_transfer hs p)).finished_of_stuck
      (h.transfer_of_stuck hstuck p (by simp [hchild]))
    exact (not_step hstuck (step_exitChild.2 ⟨⟨hchild, hfin⟩, rfl⟩)).elim
  | zombie => exact absurd hchild (h.reaped hsig hserver p)
  | reaped => rfl

/-- While no `fork` fails, the parent stays in its loop. -/
theorem server_of_forks (hs : (service C).ReachableBy (fun _ l => l ≠ .fork false) s) :
    s.server ≠ .removing ∧ s.server ≠ .exited := by
  refine hs.invariant (I := fun s => s.server ≠ .removing ∧ s.server ≠ .exited)
    ⟨nofun, nofun⟩ ?_
  intro s l s' h hok hst
  have hst : step C s l = some s' := hst
  cases l with
  | request p => obtain ⟨-, ⟨-, rfl⟩ | ⟨q, -, -, rfl⟩⟩ := step_request.1 hst <;> exact h
  | receive =>
    obtain ⟨-, p, q, -, rfl⟩ := step_receive.1 hst
    exact ⟨nofun, nofun⟩
  | fork ok =>
    obtain ⟨p, -, rfl⟩ := step_fork.1 hst
    cases ok with
    | true => exact ⟨nofun, nofun⟩
    | false => exact absurd rfl hok
  | remove => exact absurd (step_remove.1 hst).1 h.1
  | child p l =>
    obtain ⟨-, t, -, rfl⟩ := step_child.1 hst
    exact h
  | client p =>
    obtain ⟨-, t, -, rfl⟩ := step_client.1 hst
    exact h
  | exitChild p =>
    obtain ⟨-, rfl⟩ := step_exitChild.1 hst
    exact h
  | grimReaper =>
    obtain ⟨-, rfl⟩ := step_grimReaper.1 hst
    exact h

/-! ## The server -/

/-- **The file server with many clients**: whatever the order of the steps, no client reports what
is not so, and every run ends. Where it ends, those clients have reported for which a child was
forked; while no `fork` fails, these are all of them, and the parent has waited for each child.

Between the children's ends and the handler, no zombie is left behind. -/
theorem server_serves [Fintype π] {ls : List (Label π)} (hrun : (service C).run start ls = some s) :
    (∀ p, SvMsgFile.Truthful (C.file p) (s.transfer p).client) ∧
      (s.sigchld = false → s.server ≠ .exited → ∀ p, s.child p ≠ .zombie) ∧
      ls.length ≤ ∑ p, (3 * ((C.file p).getD []).length + 10) ∧
      ((service C).Stuck s →
        (∀ p, (s.transfer p).client.report.isSome = true ↔ s.child p ≠ .none) ∧
        (.fork false ∉ ls → ∀ p, s.child p = .reaped)) := by
  have hs : (service C).Reachable s := Machine.Reachable.run .init ls hrun
  refine ⟨fun p => ?_, (inv_of_reachable hs).reaped, ?_, fun hstuck => ⟨?_, fun hforks p => ?_⟩⟩
  · exact (SvMsgFile.inv_of_reachable (reachable_transfer hs p)).truthful
  · have hlen := Machine.Reachable.length_le (M := service C) (μ := cost C)
      (fun _ _ _ _ hst => cost_step hst) .init ls hrun
    exact (Nat.le_add_right _ _).trans (hlen.trans_eq cost_start)
  · exact report_of_stuck hs hstuck
  · refine child_of_stuck hs hstuck (server_of_forks (C := C) ?_).2 p
    exact Machine.ReachableBy.run .init ls (fun _ l hl hfork => hforks (hfork ▸ hl)) hrun

/-- Two clients: one asks for a file of one byte, the other for a file that does not exist. -/
def twoClients : Clients Bool where
  limit _ := SvMsgFile.defaultLimit
  file p := bif p then some [7] else none
  room := 1
  room_pos := Nat.one_pos

/-- The clients are served at the same time. -/
theorem server_serves_twoClients :
    ∃ s, (service twoClients).run start
      [.request true, .receive, .request false, .fork true, .receive, .child true .openFile,
        .fork true, .child false .openFile, .child true (.read 1), .child false .send,
        .client false, .exitChild false, .child true .send, .child true (.read 0), .grimReaper,
        .child true .send, .exitChild true, .client true, .client true, .client true,
        .grimReaper] = some s ∧
      (s.transfer true).client.report = some (.received 1 2) ∧
      (∀ p, s.child p ≠ .zombie) ∧ SvMsgFile.Truthful none (s.transfer false).client := by
  have hrun : (service twoClients).run start
      [.request true, .receive, .request false, .fork true, .receive, .child true .openFile,
        .fork true, .child false .openFile, .child true (.read 1), .child false .send,
        .client false, .exitChild false, .child true .send, .child true (.read 0), .grimReaper,
        .child true .send, .exitChild true, .client true, .client true, .client true,
        .grimReaper] = some _ := rfl
  have hserves := server_serves hrun
  exact ⟨_, hrun, rfl, hserves.2.1 rfl (by decide), hserves.1 false⟩

end SvMsgServer

end TlpiLearn
