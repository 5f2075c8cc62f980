import TlpiLearn.Foundations.Machine
import TlpiLearn.Foundations.MsgQueue
import TlpiLearn.FileServer.Client
import Mathlib.Tactic

/-!
# The file server on System V message queues

`46_45/svmsg_file_server.c` and `svmsg_file_client.c`: the server's child sends the contents of a
file in messages of type `RESP_MT_DATA` and one of type `RESP_MT_END`, or one of type
`RESP_MT_FAILURE` when it cannot open the file.

The machine runs both, from the request on, in any order and with any sizes that `read` may return.
The client's queue keeps the order and holds `msg_qbytes` bytes; a message that does not fit blocks
`msgsnd`. What the client has taken and what is queued make up what was sent (`Inv.taken_queue`).
-/

namespace TlpiLearn.SvMsgFile

open FileServer

/-- `RESP_MSG_SIZE`. -/
def RESP_MSG_SIZE : ℕ := 8192

/-- `RESP_MT_FAILURE`. -/
def RESP_MT_FAILURE : ℤ := 1

/-- `RESP_MT_DATA`. -/
def RESP_MT_DATA : ℤ := 2

/-- `RESP_MT_END`. -/
def RESP_MT_END : ℤ := 3

/-- `struct responseMsg`, with as much of `data` as is sent. -/
abbrev ResponseMsg := Msg (List UInt8)

/-- `"Couldn't open"`. -/
def couldntOpen : List UInt8 := [67, 111, 117, 108, 100, 110, 39, 116, 32, 111, 112, 101, 110]

/-- The response to a request for a file that cannot be opened: the text and its null byte. -/
def failureMsg : ResponseMsg := ⟨RESP_MT_FAILURE, couldntOpen ++ [0]⟩

def dataMsg (data : List UInt8) : ResponseMsg := ⟨RESP_MT_DATA, data⟩

def endMsg : ResponseMsg := ⟨RESP_MT_END, []⟩

/-- How the client looks at a response. -/
def responses : Responses ResponseMsg where
  isFailure m := m.mtype == RESP_MT_FAILURE
  isData m := m.mtype == RESP_MT_DATA
  data := Msg.body

/-- The limit of the client's queue, which takes any response when it is empty. -/
structure QueueLimit where
  msg_qbytes : ℕ
  le : RESP_MSG_SIZE ≤ msg_qbytes

/-- The message fits into the queue. -/
def QueueLimit.Room (limit : QueueLimit) (q : List ResponseMsg) (m : ResponseMsg) : Prop :=
  (q.map fun m => m.body.length).sum + m.body.length ≤ limit.msg_qbytes ∧
    q.length + 1 ≤ limit.msg_qbytes

instance (limit : QueueLimit) (q : List ResponseMsg) (m : ResponseMsg) :
    Decidable (limit.Room q m) := inferInstanceAs (Decidable (_ ∧ _))

/-- The statement of `serveRequest` that comes next. -/
inductive ServerPc
  | openFile
  | sendFailure
  | read
  | sendData (data : List UInt8)
  | sendEnd
  | finished
  deriving DecidableEq, Repr

structure State where
  server : ServerPc
  /-- What `read` has not returned yet. -/
  rest : List UInt8
  queue : List ResponseMsg
  client : Client ResponseMsg
  /-- What was sent. -/
  sent : List ResponseMsg

/-- The request has arrived, and the child is forked. -/
def start : State where
  server := .openFile
  rest := []
  queue := []
  client := .start
  sent := []

/-- A step of either side. -/
inductive Label
  | openFile
  /-- `read` returns `n`. -/
  | read (n : ℕ)
  | send
  | client
  deriving DecidableEq, Repr

/-- What `read` may return: some bytes of the file, or 0 at its end. -/
def Reads (rest : List UInt8) (n : ℕ) : Prop :=
  n ≤ RESP_MSG_SIZE ∧ n ≤ rest.length ∧ (n = 0 ↔ rest = [])

instance (rest : List UInt8) (n : ℕ) : Decidable (Reads rest n) :=
  inferInstanceAs (Decidable (_ ∧ _ ∧ _))

variable (limit : QueueLimit) (file : Option (List UInt8))

/-- `msgsnd` of the server, which goes on at `pc`; `none` while it blocks. -/
def State.msgsnd (s : State) (m : ResponseMsg) (pc : ServerPc) : Option State :=
  if limit.Room s.queue m then
    some { s with server := pc, queue := s.queue ++ [m], sent := s.sent ++ [m] }
  else none

/-- `serveRequest`. -/
def serveRequest (s : State) : Label → Option State
  | .openFile =>
    match s.server with
    | .openFile =>
      match file with
      | none => some { s with server := .sendFailure }
      | some content => some { s with server := .read, rest := content }
    | _ => none
  | .read n =>
    if s.server = .read ∧ Reads s.rest n then
      if n = 0 then some { s with server := .sendEnd }
      else some { s with server := .sendData (s.rest.take n), rest := s.rest.drop n }
    else none
  | .send =>
    match s.server with
    | .sendFailure => s.msgsnd limit failureMsg .finished
    | .sendData data => s.msgsnd limit (dataMsg data) .read
    | .sendEnd => s.msgsnd limit endMsg .finished
    | _ => none
  | .client => none

/-- `main` of the client from the first `msgrcv` on. -/
def client (s : State) : Option State :=
  if s.client.Receives responses then
    (msgrcv 0 s.queue).map fun r =>
      { s with client := s.client.receive responses r.1, queue := r.2 }
  else if s.client.pc = .loop then some { s with client := s.client.print }
  else none

/-- The server's child and the client, in any order. -/
def machine : Machine State Label where
  init := start
  step s
    | .client => client s
    | l => serveRequest limit file s l

/-! ## The invariant -/

/-- What the server has sent, and what is left of the file. -/
def ServerAt (file : Option (List UInt8)) (s : State) : Prop :=
  match s.server with
  | .openFile => s.sent = []
  | .sendFailure => file = none ∧ s.sent = []
  | .read => ∃ ds : List (List UInt8), s.sent = ds.map dataMsg ∧ file = some (ds.flatten ++ s.rest)
  | .sendData data => data.length ≤ RESP_MSG_SIZE ∧
      ∃ ds : List (List UInt8),
        s.sent = ds.map dataMsg ∧ file = some (ds.flatten ++ (data ++ s.rest))
  | .sendEnd => ∃ ds : List (List UInt8), s.sent = ds.map dataMsg ∧ file = some ds.flatten
  | .finished => file = none ∧ s.sent = [failureMsg] ∨
      ∃ ds : List (List UInt8), s.sent = ds.map dataMsg ++ [endMsg] ∧ file = some ds.flatten

structure Inv (file : Option (List UInt8)) (s : State) : Prop where
  server : ServerAt file s
  client : s.client.At responses
  taken_queue : s.client.taken ++ s.queue = s.sent

variable {limit : QueueLimit} {file : Option (List UInt8)} {s s' : State}

/-- A message that is sent goes to the end of the queue. -/
theorem Inv.msgsnd (h : Inv file s) {m : ResponseMsg} {pc : ServerPc}
    (hs : s.msgsnd limit m pc = some s')
    (hserver : ServerAt file { s with server := pc, sent := s.sent ++ [m] }) : Inv file s' := by
  rw [State.msgsnd, Option.ite_none_right_eq_some] at hs
  rcases hs with ⟨-, hs⟩
  obtain rfl := Option.some.inj hs
  refine ⟨hserver, h.client, ?_⟩
  rw [← List.append_assoc, h.taken_queue]

theorem Inv.server_step (h : Inv file s) {l : Label}
    (hs : serveRequest limit file s l = some s') : Inv file s' := by
  have hserver := h.server
  cases l with
  | openFile =>
    unfold serveRequest at hs
    dsimp only at hs
    split at hs
    case h_1 hpc =>
      rw [ServerAt, hpc] at hserver
      cases file with
      | none =>
        obtain rfl := Option.some.inj hs
        exact { h with server := ⟨rfl, hserver⟩ }
      | some content =>
        obtain rfl := Option.some.inj hs
        exact { h with server := ⟨[], hserver, rfl⟩ }
    case h_2 => cases hs
  | read n =>
    rw [serveRequest, Option.ite_none_right_eq_some] at hs
    rcases hs with ⟨⟨hpc, hn⟩, hs⟩
    rw [ServerAt, hpc] at hserver
    rcases hserver with ⟨ds, hsent, hfile⟩
    split at hs
    case isTrue hzero =>
      obtain rfl := Option.some.inj hs
      rw [hn.2.2.1 hzero, List.append_nil] at hfile
      exact { h with server := ⟨ds, hsent, hfile⟩ }
    case isFalse =>
      obtain rfl := Option.some.inj hs
      refine { h with server := ⟨?_, ds, hsent, ?_⟩ }
      · exact (List.length_take_le _ _).trans hn.1
      · rw [hfile, List.take_append_drop]
  | send =>
    rw [serveRequest] at hs
    split at hs
    case h_1 hpc =>
      rw [ServerAt, hpc] at hserver
      apply h.msgsnd hs
      exact .inl ⟨hserver.1, by rw [hserver.2, List.nil_append]⟩
    case h_2 data hpc =>
      rw [ServerAt, hpc] at hserver
      rcases hserver with ⟨-, ds, hsent, hfile⟩
      apply h.msgsnd hs
      refine ⟨ds ++ [data], ?_, ?_⟩
      · rw [hsent, List.map_append, List.map_singleton]
      · rw [hfile, List.flatten_append, List.flatten_singleton, List.append_assoc]
    case h_3 hpc =>
      rw [ServerAt, hpc] at hserver
      rcases hserver with ⟨ds, hsent, hfile⟩
      apply h.msgsnd hs
      exact .inr ⟨ds, by rw [hsent], hfile⟩
    case h_4 => cases hs
  | client => cases hs

theorem Inv.client_step (h : Inv file s) (hs : SvMsgFile.client s = some s') : Inv file s' := by
  rw [SvMsgFile.client] at hs
  split at hs
  case isTrue hreceives =>
    rcases map_msgrcv_zero_eq_some.1 hs with ⟨m, q, hq, rfl⟩
    refine ⟨h.server, h.client.receive hreceives m, ?_⟩
    have hsent := h.taken_queue
    rwa [Client.taken_receive, List.append_assoc, List.singleton_append, ← hq]
  case isFalse hreceives =>
    rw [Option.ite_none_right_eq_some] at hs
    rcases hs with ⟨hpc, hs⟩
    obtain rfl := Option.some.inj hs
    exact ⟨h.server, h.client.print hreceives hpc, h.taken_queue⟩

theorem inv_of_reachable (hs : (machine limit file).Reachable s) : Inv file s := by
  refine hs.invariant ⟨rfl, Client.at_start, rfl⟩ ?_
  intro s l s' h _ hstep
  cases l with
  | client => exact h.client_step hstep
  | openFile => exact h.server_step (show serveRequest limit file s .openFile = some s' from hstep)
  | read n => exact h.server_step (show serveRequest limit file s (.read n) = some s' from hstep)
  | send => exact h.server_step (show serveRequest limit file s .send = some s' from hstep)

/-! ## The end of the transfer -/

/-- The messages that were sent: data, and at the end one of another kind. -/
theorem ServerAt.sent_eq (h : ServerAt file s) :
    ∃ (ds : List (List UInt8)) (tail : List ResponseMsg), s.sent = ds.map dataMsg ++ tail ∧
      (tail = [] ∨ tail = [failureMsg] ∧ ds = [] ∧ file = none ∨
        tail = [endMsg] ∧ file = some ds.flatten) := by
  unfold ServerAt at h
  split at h
  case h_1 => exact ⟨[], [], h, .inl rfl⟩
  case h_2 => exact ⟨[], [], h.2, .inl rfl⟩
  case h_3 =>
    rcases h with ⟨ds, hsent, -⟩
    exact ⟨ds, [], by rw [hsent, List.append_nil], .inl rfl⟩
  case h_4 =>
    rcases h with ⟨-, ds, hsent, -⟩
    exact ⟨ds, [], by rw [hsent, List.append_nil], .inl rfl⟩
  case h_5 =>
    rcases h with ⟨ds, hsent, -⟩
    exact ⟨ds, [], by rw [hsent, List.append_nil], .inl rfl⟩
  case h_6 =>
    rcases h with ⟨hfile, hsent⟩ | ⟨ds, hsent, hfile⟩
    · exact ⟨[], [failureMsg], hsent, .inr (.inl ⟨rfl, rfl, hfile⟩)⟩
    · exact ⟨ds, [endMsg], hsent, .inr (.inr ⟨rfl, hfile⟩)⟩

/-- A client that has come to a message that is not data has taken everything. -/
theorem Inv.taken_all (h : Inv file s) {m : ResponseMsg}
    (hupto : TakenUpTo responses s.client.taken m) (hm : responses.isData m = false) :
    ∃ ds : List (List UInt8), s.client.taken = ds.map dataMsg ++ [endMsg] ∧ s.queue = [] ∧
      file = some ds.flatten := by
  rcases h.server.sent_eq with ⟨ds, tail, hsent, htail⟩
  have htail' : tail = [] ∨ tail = [failureMsg] ∧ ds = [] ∨
      tail = [endMsg] ∧ file = some ds.flatten :=
    htail.imp_right (Or.imp_left fun h => ⟨h.1, h.2.1⟩)
  rcases hupto.all_of_stream hm (fun _ => rfl) rfl (h.taken_queue.trans hsent) htail' with
    ⟨hqueue, htaken, hfile⟩
  exact ⟨ds, htaken, hqueue, hfile⟩

/-- A client that has taken a failure message first knows that there is no file. -/
theorem Inv.file_of_failure (h : Inv file s) {m : ResponseMsg} (htaken : s.client.taken = [m])
    (hm : responses.isFailure m = true) : file = none ∧ m = failureMsg := by
  rcases h.server.sent_eq with ⟨ds, tail, hsent, htail⟩
  have heq : m :: s.queue = ds.map dataMsg ++ tail := by
    rw [← hsent, ← h.taken_queue, htaken]
    rfl
  cases ds with
  | cons d ds =>
    rw [(List.cons.inj heq).1] at hm
    cases hm
  | nil =>
    rcases htail with rfl | ⟨rfl, -, hfile⟩ | ⟨rfl, -⟩
    · cases heq
    · exact ⟨hfile, (List.cons.inj heq).1⟩
    · rw [(List.cons.inj heq).1] at hm
      cases hm

/-! ## Progress -/

/-- A response that the server sends fits into an empty queue. -/
theorem QueueLimit.room_nil (limit : QueueLimit) {m : ResponseMsg}
    (hm : m.body.length ≤ RESP_MSG_SIZE) : limit.Room [] m := by
  have hle := limit.le
  have hpos : 1 ≤ RESP_MSG_SIZE := by decide
  refine ⟨?_, ?_⟩
  · rw [List.map_nil, List.sum_nil]
    omega
  · rw [List.length_nil]
    omega

/-- The server can go on while it is not done and the queue is empty. -/
theorem Inv.server_finished (h : Inv file s) (hqueue : s.queue = [])
    (hstuck : (machine limit file).Stuck s) : s.server = .finished := by
  have hserver := h.server
  have hsend : ∀ m pc, m.body.length ≤ RESP_MSG_SIZE → s.msgsnd limit m pc ≠ none := by
    intro m pc hm hnone
    rw [State.msgsnd, hqueue, if_pos (limit.room_nil hm)] at hnone
    cases hnone
  have hopen : serveRequest limit file s .openFile = none := hstuck .openFile
  have hread : ∀ n, serveRequest limit file s (.read n) = none := fun n => hstuck (.read n)
  have hsnd : serveRequest limit file s .send = none := hstuck .send
  unfold serveRequest at hopen hsnd
  cases hpc : s.server with
  | openFile =>
    simp only [hpc] at hopen
    cases file <;> cases hopen
  | sendFailure =>
    simp only [hpc] at hsnd
    exact absurd hsnd (hsend _ _ (by decide))
  | read =>
    have hn : Reads s.rest (min 1 s.rest.length) := by
      cases s.rest with
      | nil => exact ⟨by decide, le_rfl, iff_of_true rfl rfl⟩
      | cons b bs => exact ⟨by simp [RESP_MSG_SIZE], by simp, by simp⟩
    have hnone := hread (min 1 s.rest.length)
    unfold serveRequest at hnone
    simp only [hpc, hn, and_self, if_true] at hnone
    split at hnone <;> cases hnone
  | sendData data =>
    rw [ServerAt, hpc] at hserver
    simp only [hpc] at hsnd
    exact absurd hsnd (hsend _ _ hserver.1)
  | sendEnd =>
    simp only [hpc] at hsnd
    exact absurd hsnd (hsend _ _ (by decide))
  | finished => rfl

/-- The client waits only for a message. -/
theorem client_of_stuck (hstuck : (machine limit file).Stuck s) :
    s.client.pc = .exited ∨ s.queue = [] ∧ s.client.Receives responses := by
  have hnone : client s = none := hstuck .client
  unfold client at hnone
  split at hnone
  case isTrue hreceives =>
    rw [Option.map_eq_none_iff, msgrcv_eq_none] at hnone
    exact .inr ⟨List.eq_nil_iff_forall_not_mem.2 fun m hm => hnone m hm (.inl rfl), hreceives⟩
  case isFalse hreceives =>
    rw [ite_eq_right_iff] at hnone
    cases hpc : s.client.pc with
    | first => exact absurd (.inl hpc) hreceives
    | loop => cases hnone hpc
    | exited => exact .inl rfl

/-- A server that is done has sent a last message that is not data. -/
theorem ServerAt.last (h : ServerAt file s) (hpc : s.server = .finished) :
    ∃ l m, s.sent = l ++ [m] ∧ responses.isData m = false := by
  rw [ServerAt, hpc] at h
  rcases h with ⟨-, hsent⟩ | ⟨ds, hsent, -⟩
  · exact ⟨[], failureMsg, hsent, rfl⟩
  · exact ⟨ds.map dataMsg, endMsg, hsent, rfl⟩

/-- Where nobody can go on, the client has reported. -/
theorem Inv.reported_of_stuck (h : Inv file s) (hstuck : (machine limit file).Stuck s) :
    s.client.report.isSome = true := by
  have hclient := h.client
  rcases client_of_stuck hstuck with hpc | ⟨hqueue, hreceives⟩
  · exact hclient.report_isSome hpc
  · rcases h.server.last (h.server_finished hqueue hstuck) with ⟨l, m, hsent, hm⟩
    have htaken : s.client.taken = l ++ [m] := by
      rw [← hsent, ← h.taken_queue, hqueue, List.append_nil]
    rcases hreceives with hpc | ⟨hpc, hany⟩
    · rw [Client.At, hpc] at hclient
      rw [hclient.1] at htaken
      exact absurd htaken.symm (List.append_ne_nil_of_right_ne_nil _ (List.cons_ne_nil _ _))
    · rw [Client.At, hpc] at hclient
      rcases hclient with ⟨⟨m', hupto, hresp⟩, -⟩
      rcases hupto.split with ⟨l', hl', -⟩
      have hlast : [m'] = [m] := List.append_inj_right' (hl'.symm.trans htaken) rfl
      rw [hresp, Option.any_some, List.singleton_injective hlast, hm] at hany
      cases hany

/-- The steps that the server has left, and what the client will have to take of it. -/
def serverLeft (file : Option (List UInt8)) (s : State) : ℕ :=
  match s.server with
  | .openFile => 3 * (file.getD []).length + 4
  | .sendFailure => 2
  | .read => 3 * s.rest.length + 3
  | .sendData _ => 3 * s.rest.length + 5
  | .sendEnd => 2
  | .finished => 0

/-- The steps that are left, at most. -/
def left (file : Option (List UInt8)) (s : State) : ℕ :=
  serverLeft file s + s.queue.length + if s.client.pc = .exited then 0 else 1

theorem left_msgsnd {m : ResponseMsg} {pc : ServerPc} (hs : s.msgsnd limit m pc = some s')
    (hlt : serverLeft file { s with server := pc } + 1 < serverLeft file s) :
    left file s' < left file s := by
  rw [State.msgsnd, Option.ite_none_right_eq_some] at hs
  obtain rfl := Option.some.inj hs.2
  have heq : serverLeft file
      { s with server := pc, queue := s.queue ++ [m], sent := s.sent ++ [m] } =
        serverLeft file { s with server := pc } := rfl
  rw [left, left, heq, List.length_append, List.length_singleton]
  simp only
  omega

theorem left_server {l : Label} (hs : serveRequest limit file s l = some s') :
    left file s' < left file s := by
  unfold serveRequest at hs
  cases l with
  | openFile =>
    dsimp only at hs
    split at hs
    case h_1 hpc =>
      cases file <;> obtain rfl := Option.some.inj hs
      · simp [left, serverLeft, hpc]
      · simp only [left, serverLeft, hpc, Option.getD_some]
        omega
    case h_2 => cases hs
  | read n =>
    dsimp only at hs
    rw [Option.ite_none_right_eq_some] at hs
    rcases hs with ⟨⟨hpc, hn⟩, hs⟩
    have hlen := hn.2.1
    split at hs
    case isTrue =>
      obtain rfl := Option.some.inj hs
      simp only [left, serverLeft, hpc]
      omega
    case isFalse hpos =>
      obtain rfl := Option.some.inj hs
      simp only [left, serverLeft, hpc, List.length_drop]
      omega
  | send =>
    dsimp only at hs
    split at hs
    case h_1 hpc => exact left_msgsnd hs (by simp [serverLeft, hpc])
    case h_2 hpc => exact left_msgsnd hs (by simp [serverLeft, hpc])
    case h_3 hpc => exact left_msgsnd hs (by simp [serverLeft, hpc])
    case h_4 => cases hs
  | client => cases hs

theorem left_client (hs : client s = some s') : left file s' < left file s := by
  have hexited : ∀ c : Client ResponseMsg, (if c.pc = .exited then 0 else 1) ≤ 1 := by
    intro c
    split <;> omega
  unfold client at hs
  split at hs
  case isTrue hreceives =>
    rcases map_msgrcv_zero_eq_some.1 hs with ⟨m, q, hq, rfl⟩
    have hpc : s.client.pc ≠ .exited := by
      rcases hreceives with hpc | ⟨hpc, -⟩ <;> rw [hpc] <;> decide
    have hle := hexited (s.client.receive responses m)
    simp only [left, hq, if_neg hpc, List.length_cons, serverLeft]
    omega
  case isFalse =>
    rw [Option.ite_none_right_eq_some] at hs
    rcases hs with ⟨hpc, hs⟩
    obtain rfl := Option.some.inj hs
    simp only [left, hpc, Client.print, serverLeft, reduceCtorEq, if_true, if_false]
    omega

theorem length_le_of_run (ls : List Label)
    (hrun : (machine limit file).run start ls = some s') :
    ls.length ≤ 3 * (file.getD []).length + 5 := by
  have hlen := Machine.Reachable.length_le (M := machine limit file) (μ := left file)
    (by
      intro s l s' _ hstep
      cases l with
      | client => exact left_client hstep
      | openFile =>
        exact left_server (show serveRequest limit file s .openFile = some s' from hstep)
      | read n => exact left_server (show serveRequest limit file s (.read n) = some s' from hstep)
      | send => exact left_server (show serveRequest limit file s .send = some s' from hstep))
    .init ls hrun
  have hstart : left file start = 3 * (file.getD []).length + 5 := rfl
  exact (Nat.le_add_right _ _).trans (hlen.trans_eq hstart)

/-! ## The protocol -/

/-- A reported total is that of the file. -/
theorem Inv.received (h : Inv file s) (totBytes numMsgs : ℕ)
    (hreport : s.client.report = some (.received totBytes numMsgs)) :
    ∃ ds : List (List UInt8), s.client.taken = ds.map dataMsg ++ [endMsg] ∧ s.queue = [] ∧
      file = some ds.flatten ∧ totBytes = ds.flatten.length ∧ numMsgs = ds.length + 1 := by
  rcases h.client.of_received hreport with ⟨⟨m, hupto, hm⟩, rfl, rfl⟩
  rcases h.taken_all hupto hm with ⟨ds, htaken, hqueue, hfile⟩
  refine ⟨ds, htaken, hqueue, hfile, ?_, ?_⟩
  · rw [htaken, bytes_append, bytes_map (fun _ => rfl)]
    rfl
  · rw [htaken, List.length_append, List.length_map, List.length_singleton]

/-- A reported failure is that of the server's `open`. -/
theorem Inv.failure (h : Inv file s) (text : List UInt8)
    (hreport : s.client.report = some (.failure text)) : file = none ∧ text = couldntOpen := by
  rcases h.client.of_failure hreport with ⟨m, htaken, hm, rfl⟩
  rcases h.file_of_failure htaken hm with ⟨hfile, rfl⟩
  exact ⟨hfile, by decide⟩

/-- **The transfer**: a client that reports a total has taken the data messages and the end
message, and nothing is left in its queue; the total is the length of the file, and the number is
that of the data messages and one more. It reports a failure exactly for a file that the server
cannot open, and every run comes to a report. -/
theorem transfer (hs : (machine limit file).Reachable s) :
    (∀ totBytes numMsgs, s.client.report = some (.received totBytes numMsgs) →
      ∃ ds : List (List UInt8), s.client.taken = ds.map dataMsg ++ [endMsg] ∧ s.queue = [] ∧
        file = some ds.flatten ∧ totBytes = ds.flatten.length ∧ numMsgs = ds.length + 1) ∧
      (∀ text, s.client.report = some (.failure text) → file = none ∧ text = couldntOpen) ∧
      ((machine limit file).Stuck s → s.client.report.isSome = true) ∧
      ∀ ls s', (machine limit file).run start ls = some s' →
        ls.length ≤ 3 * (file.getD []).length + 5 := by
  have h := inv_of_reachable hs
  exact ⟨h.received, h.failure, h.reported_of_stuck, fun ls s' => length_le_of_run ls⟩

/-- The default limit of a queue. -/
def defaultLimit : QueueLimit := ⟨16384, by decide⟩

/-- A file of three bytes goes over in two data messages. -/
theorem transfer_three :
    ∃ s, (machine defaultLimit (some [1, 2, 3])).Reachable s ∧
      s.client.report = some (.received 3 3) ∧
      ∃ ds : List (List UInt8), s.client.taken = ds.map dataMsg ++ [endMsg] ∧ s.queue = [] ∧
        some [1, 2, 3] = some ds.flatten ∧ 3 = ds.flatten.length ∧ 3 = ds.length + 1 := by
  rcases show ∃ s, (machine defaultLimit (some [1, 2, 3])).run start
      [.openFile, .read 2, .send, .client, .read 1, .send, .read 0, .client, .send, .client,
        .client] = some s ∧ s.client.report = some (.received 3 3) from ⟨_, rfl, rfl⟩ with
    ⟨s, hrun, hreport⟩
  have hs := Machine.Reachable.run .init _ hrun
  exact ⟨s, hs, hreport, (transfer hs).1 3 3 hreport⟩

end TlpiLearn.SvMsgFile
