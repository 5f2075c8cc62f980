import TlpiLearn.Foundations.Machine
import TlpiLearn.FileServer.Client
import Mathlib.Tactic

/-!
# The file server on POSIX message queues

`52/52_3/svmsg_file_server.c` and `svmsg_file_client.c`: the same protocol as on System V queues,
but here each call of the server may fail. An `mq_send` that fails ends the server, except in the
loop, where it only ends the loop; and the loop takes an error of `read` for the end of the file.
In both cases `RESP_MT_END` follows, which tells the client that the file is complete.

The client's total is the length of the file as long as no `read` fails in front of the end of the
file and no `mq_send` of data fails (`reportsWhole`): until then the bytes that were sent, those that
were read and not sent, and those that are left make up the file (`Divided`).
-/

namespace TlpiLearn.MqFile

open FileServer

/-- `DATA_MSG_SIZE`. -/
def DATA_MSG_SIZE : ℕ := 4096

/-- `attr.mq_maxmsg`. -/
def mq_maxmsg : ℕ := 10

/-- `enum mtype`. -/
inductive Mtype
  | RESP_MT_END
  | RESP_MT_DATA
  | RESP_MT_FAILURE
  deriving DecidableEq, Repr

/-- `struct responseMsg`, with as much of `data` as is sent. -/
structure ResponseMsg where
  type : Mtype
  data : List UInt8
  deriving DecidableEq, Repr

/-- `"Couldn't open"` and its null byte. -/
def failureMsg : ResponseMsg :=
  ⟨.RESP_MT_FAILURE, [67, 111, 117, 108, 100, 110, 39, 116, 32, 111, 112, 101, 110, 0]⟩

def dataMsg (data : List UInt8) : ResponseMsg := ⟨.RESP_MT_DATA, data⟩

def endMsg : ResponseMsg := ⟨.RESP_MT_END, []⟩

/-- How the client looks at a response. -/
def responses : Responses ResponseMsg where
  isFailure m := m.type == .RESP_MT_FAILURE
  isData m := m.type == .RESP_MT_DATA
  data := ResponseMsg.data

/-- The statement of `serveRequest` that comes next. -/
inductive ServerPc
  | mqOpen
  | openFile
  | sendFailure
  | read
  | sendData (data : List UInt8)
  | sendEnd
  /-- The child has ended, one way or another. -/
  | exited
  deriving DecidableEq, Repr

structure State where
  server : ServerPc
  /-- What `read` has not returned yet. -/
  rest : List UInt8
  queue : List ResponseMsg
  client : Client ResponseMsg
  /-- What was sent. -/
  sent : List ResponseMsg

/-- The request has arrived, and the child is forked. -/
def start : State where
  server := .mqOpen
  rest := []
  queue := []
  client := .start
  sent := []

/-- A step of either side, with the outcome of the server's call. -/
inductive Label
  | mqOpen (ok : Bool)
  | openFile (ok : Bool)
  /-- `read` returns `n`, or -1. -/
  | read (n : Option ℕ)
  | mqSend (ok : Bool)
  | client
  deriving DecidableEq, Repr

/-- What `read` may return: some bytes of the file, or 0 at its end. -/
def Reads (rest : List UInt8) (n : ℕ) : Prop :=
  n ≤ DATA_MSG_SIZE ∧ n ≤ rest.length ∧ (n = 0 ↔ rest = [])

instance (rest : List UInt8) (n : ℕ) : Decidable (Reads rest n) :=
  inferInstanceAs (Decidable (_ ∧ _ ∧ _))

/-- `mq_send`: the server goes on at `next`, or at `err` when the call fails; `none` while it
blocks. -/
def State.mqSend (s : State) (ok : Bool) (m : ResponseMsg) (next err : ServerPc) : Option State :=
  if ok then
    if s.queue.length < mq_maxmsg then
      some { s with server := next, queue := s.queue ++ [m], sent := s.sent ++ [m] }
    else none
  else some { s with server := err }

/-- `serveRequest`. -/
def serveRequest (file : List UInt8) (s : State) : Label → Option State
  | .mqOpen ok =>
    if s.server = .mqOpen then some { s with server := if ok then .openFile else .exited }
    else none
  | .openFile ok =>
    if s.server = .openFile then
      some { s with server := if ok then .read else .sendFailure, rest := file }
    else none
  | .read none => if s.server = .read then some { s with server := .sendEnd } else none
  | .read (some n) =>
    if s.server = .read ∧ Reads s.rest n then
      if n = 0 then some { s with server := .sendEnd }
      else some { s with server := .sendData (s.rest.take n), rest := s.rest.drop n }
    else none
  | .mqSend ok =>
    match s.server with
    | .sendFailure => s.mqSend ok failureMsg .exited .exited
    | .sendData data => s.mqSend ok (dataMsg data) .read .sendEnd
    | .sendEnd => s.mqSend ok endMsg .exited .exited
    | _ => none
  | .client => none

/-- `main` of the client from the first `mq_receive` on. -/
def client (s : State) : Option State :=
  if s.client.Receives responses then
    match s.queue with
    | [] => none
    | m :: queue => some { s with client := s.client.receive responses m, queue }
  else if s.client.pc = .loop then some { s with client := s.client.print }
  else none

/-- The server's child and the client, in any order. -/
def machine (file : List UInt8) : Machine State Label where
  init := start
  step s
    | .client => client s
    | l => serveRequest file s l

/-- A total that the client reports is the length of the file. -/
def ReportsWhole (file : List UInt8) (s : State) : Prop :=
  ∀ totBytes numMsgs, s.client.report = some (.received totBytes numMsgs) → totBytes = file.length

/-- The loop of `serveRequest` is not broken off: no `read` fails in front of the end of the file,
and no `mq_send` of data fails. -/
def LoopCompletes (s : State) : Label → Prop
  | .read none => s.rest = []
  | .mqSend false => ∀ data, s.server ≠ .sendData data
  | _ => True

/-! ## The invariant -/

/-- What the server has sent; `Q` holds of the data when the end message follows them. -/
def ServerAt (Q : List (List UInt8) → Prop) (s : State) : Prop :=
  match s.server with
  | .mqOpen | .openFile | .sendFailure => s.sent = []
  | .read | .sendData _ | .sendEnd => ∃ ds : List (List UInt8), s.sent = ds.map dataMsg
  | .exited => s.sent = [failureMsg] ∨
      ∃ ds : List (List UInt8), s.sent = ds.map dataMsg ∨ s.sent = ds.map dataMsg ++ [endMsg] ∧ Q ds

structure Inv (Q : List (List UInt8) → Prop) (s : State) : Prop where
  server : ServerAt Q s
  client : s.client.At responses
  taken_queue : s.client.taken ++ s.queue = s.sent

variable {file : List UInt8} {Q : List (List UInt8) → Prop} {s s' : State}

/-- An `mq_send` that does not block. -/
theorem mqSend_cases {ok : Bool} {m : ResponseMsg} {next err : ServerPc}
    (hs : s.mqSend ok m next err = some s') :
    ok = true ∧ s' = { s with server := next, queue := s.queue ++ [m], sent := s.sent ++ [m] } ∨
      ok = false ∧ s' = { s with server := err } := by
  rw [State.mqSend] at hs
  split at hs
  case isTrue hok =>
    rw [Option.ite_none_right_eq_some] at hs
    exact .inl ⟨hok, (Option.some.inj hs.2).symm⟩
  case isFalse hok => exact .inr ⟨Bool.eq_false_of_not_eq_true hok, (Option.some.inj hs).symm⟩

/-- An `mq_send`, with what has to hold behind a successful and a failed call. -/
theorem Inv.mqSend (h : Inv Q s) {ok : Bool} {m : ResponseMsg} {next err : ServerPc}
    (hs : s.mqSend ok m next err = some s')
    (hnext : ok = true → ServerAt Q { s with server := next, sent := s.sent ++ [m] })
    (herr : ServerAt Q { s with server := err }) : Inv Q s' := by
  obtain ⟨hok, rfl⟩ | ⟨-, rfl⟩ := mqSend_cases hs
  · refine ⟨hnext hok, h.client, ?_⟩
    rw [← List.append_assoc, h.taken_queue]
  · exact { h with server := herr }

theorem Inv.server_step (h : Inv Q s) {l : Label}
    (hend : ∀ ds : List (List UInt8), l = .mqSend true → s.server = .sendEnd →
      s.sent = ds.map dataMsg → Q ds)
    (hs : serveRequest file s l = some s') : Inv Q s' := by
  have hserver := h.server
  cases l with
  | mqOpen ok =>
    rw [serveRequest, Option.ite_none_right_eq_some] at hs
    rcases hs with ⟨hpc, hs⟩
    rw [ServerAt, hpc] at hserver
    obtain rfl := Option.some.inj hs
    cases ok with
    | true => exact { h with server := hserver }
    | false => exact { h with server := .inr ⟨[], .inl hserver⟩ }
  | openFile ok =>
    rw [serveRequest, Option.ite_none_right_eq_some] at hs
    rcases hs with ⟨hpc, hs⟩
    rw [ServerAt, hpc] at hserver
    obtain rfl := Option.some.inj hs
    cases ok with
    | true => exact { h with server := ⟨[], hserver⟩ }
    | false => exact { h with server := hserver }
  | read n =>
    cases n with
    | none =>
      rw [serveRequest, Option.ite_none_right_eq_some] at hs
      rcases hs with ⟨hpc, hs⟩
      rw [ServerAt, hpc] at hserver
      obtain rfl := Option.some.inj hs
      exact { h with server := hserver }
    | some n =>
      rw [serveRequest, Option.ite_none_right_eq_some] at hs
      rcases hs with ⟨⟨hpc, -⟩, hs⟩
      rw [ServerAt, hpc] at hserver
      split at hs <;> obtain rfl := Option.some.inj hs
      · exact { h with server := hserver }
      · exact { h with server := hserver }
  | mqSend ok =>
    unfold serveRequest at hs
    dsimp only at hs
    split at hs
    case h_1 hpc =>
      rw [ServerAt, hpc] at hserver
      apply h.mqSend hs
      · exact fun _ => .inl (by rw [hserver, List.nil_append])
      · exact .inr ⟨[], .inl hserver⟩
    case h_2 data hpc =>
      rw [ServerAt, hpc] at hserver
      rcases hserver with ⟨ds, hsent⟩
      apply h.mqSend hs
      · exact fun _ => ⟨ds ++ [data], by rw [hsent, List.map_append, List.map_singleton]⟩
      · exact ⟨ds, hsent⟩
    case h_3 hpc =>
      rw [ServerAt, hpc] at hserver
      rcases hserver with ⟨ds, hsent⟩
      apply h.mqSend hs
      · rintro rfl
        exact .inr ⟨ds, .inr ⟨by rw [hsent], hend ds rfl hpc hsent⟩⟩
      · exact .inr ⟨ds, .inl hsent⟩
    case h_4 => cases hs
  | client => cases hs

theorem Inv.client_step (h : Inv Q s) (hs : MqFile.client s = some s') : Inv Q s' := by
  rw [MqFile.client] at hs
  split at hs
  case isTrue hreceives =>
    cases hq : s.queue with
    | nil =>
      rw [hq] at hs
      cases hs
    | cons m q =>
      rw [hq] at hs
      obtain rfl := Option.some.inj hs
      refine ⟨h.server, h.client.receive hreceives m, ?_⟩
      have hsent := h.taken_queue
      rwa [Client.taken_receive, List.append_assoc, List.singleton_append, ← hq]
  case isFalse hreceives =>
    rw [Option.ite_none_right_eq_some] at hs
    rcases hs with ⟨hpc, hs⟩
    obtain rfl := Option.some.inj hs
    exact ⟨h.server, h.client.print hreceives hpc, h.taken_queue⟩

theorem inv_start : Inv Q start := ⟨rfl, Client.at_start, rfl⟩

/-- A step keeps the invariant when the end message follows the right data. -/
theorem Inv.step (h : Inv Q s) {l : Label}
    (hend : ∀ ds : List (List UInt8), l = .mqSend true → s.server = .sendEnd →
      s.sent = ds.map dataMsg → Q ds)
    (hs : (machine file).step s l = some s') : Inv Q s' := by
  cases l with
  | client => exact h.client_step hs
  | mqOpen ok =>
    exact h.server_step hend (show serveRequest file s (.mqOpen ok) = some s' from hs)
  | openFile ok => exact h.server_step hend hs
  | read n => exact h.server_step hend hs
  | mqSend ok =>
    exact h.server_step hend (show serveRequest file s (.mqSend ok) = some s' from hs)

/-! ## The loop -/

/-- What was sent, what was read and not sent, and what is left make up the file. -/
def Divided (file : List UInt8) (s : State) : Prop :=
  match s.server with
  | .mqOpen | .openFile => s.sent = []
  | .read => bytes responses s.sent + s.rest.length = file.length
  | .sendData data => 0 < data.length ∧
      bytes responses s.sent + data.length + s.rest.length = file.length
  | .sendEnd => bytes responses s.sent = file.length
  | .sendFailure | .exited => True

/-- A `read` that takes some bytes, or finds the end of the file. -/
theorem Divided.read_some {n : ℕ} (h : Divided file s) (hpc : s.server = .read)
    (hn : Reads s.rest n) (hs : serveRequest file s (.read (some n)) = some s') :
    Divided file s' := by
  rw [Divided, hpc] at h
  rw [serveRequest, if_pos ⟨hpc, hn⟩] at hs
  obtain ⟨-, hle, hzero⟩ := hn
  split at hs
  case isTrue hn0 =>
    obtain rfl := Option.some.inj hs
    rw [hzero.1 hn0] at h
    exact h
  case isFalse hn0 =>
    obtain rfl := Option.some.inj hs
    have htake : (s.rest.take n).length = n := List.length_take_of_le hle
    refine ⟨by omega, ?_⟩
    rw [htake, List.length_drop]
    dsimp only at h ⊢
    omega

/-- An `mq_send` in the loop or behind it. -/
theorem Divided.mqSend {ok : Bool} (h : Divided file s) (hok : LoopCompletes s (.mqSend ok))
    (hs : serveRequest file s (.mqSend ok) = some s') : Divided file s' := by
  unfold serveRequest at hs
  dsimp only at hs
  split at hs
  case h_1 | h_3 =>
    obtain ⟨-, rfl⟩ | ⟨-, rfl⟩ := mqSend_cases hs <;> exact trivial
  case h_2 data hpc =>
    obtain ⟨-, rfl⟩ | ⟨rfl, -⟩ := mqSend_cases hs
    · rw [Divided, hpc] at h
      obtain ⟨-, hsum⟩ := h
      change bytes responses (s.sent ++ [dataMsg data]) + s.rest.length = file.length
      have hdata : bytes responses [dataMsg data] = data.length := List.sum_singleton
      rw [bytes_append, hdata]
      exact hsum
    · exact absurd hpc (hok data)
  case h_4 => cases hs

/-- **The loop invariant** is kept by every step that does not break the loop off. -/
theorem Divided.step (h : Divided file s) {l : Label} (hok : LoopCompletes s l)
    (hs : (machine file).step s l = some s') : Divided file s' := by
  cases l with
  | client =>
    have hs : MqFile.client s = some s' := hs
    rw [MqFile.client] at hs
    split at hs
    · split at hs
      · cases hs
      · obtain rfl := Option.some.inj hs
        exact h
    · rw [Option.ite_none_right_eq_some] at hs
      obtain rfl := Option.some.inj hs.2
      exact h
  | mqOpen ok =>
    have hs : serveRequest file s (.mqOpen ok) = some s' := hs
    rw [serveRequest, Option.ite_none_right_eq_some] at hs
    obtain ⟨hpc, hs⟩ := hs
    obtain rfl := Option.some.inj hs
    rw [Divided, hpc] at h
    cases ok with
    | true => exact h
    | false => exact trivial
  | openFile ok =>
    have hs : serveRequest file s (.openFile ok) = some s' := hs
    rw [serveRequest, Option.ite_none_right_eq_some] at hs
    obtain ⟨hpc, hs⟩ := hs
    obtain rfl := Option.some.inj hs
    rw [Divided, hpc] at h
    cases ok with
    | true =>
      change bytes responses s.sent + file.length = file.length
      rw [h]
      exact Nat.zero_add _
    | false => exact trivial
  | read n =>
    cases n with
    | none =>
      have hs : serveRequest file s (.read none) = some s' := hs
      rw [serveRequest, Option.ite_none_right_eq_some] at hs
      obtain ⟨hpc, hs⟩ := hs
      obtain rfl := Option.some.inj hs
      rw [Divided, hpc, show s.rest = [] from hok] at h
      exact h
    | some n =>
      have hs : serveRequest file s (.read (some n)) = some s' := hs
      have hguard := hs
      rw [serveRequest, Option.ite_none_right_eq_some] at hguard
      exact h.read_some hguard.1.1 hguard.1.2 hs
  | mqSend ok => exact h.mqSend hok (show serveRequest file s (.mqSend ok) = some s' from hs)

/-- A step that breaks the loop off leaves a part of the file unsent, and the end message comes
next. -/
theorem Divided.lost (h : Divided file s) {l : Label} (hbad : ¬ LoopCompletes s l)
    (hs : (machine file).step s l = some s') :
    s'.server = .sendEnd ∧ bytes responses s'.sent < file.length := by
  cases l with
  | mqOpen | openFile | client => exact absurd trivial hbad
  | read n =>
    cases n with
    | some n => exact absurd trivial hbad
    | none =>
      have hs : serveRequest file s (.read none) = some s' := hs
      rw [serveRequest, Option.ite_none_right_eq_some] at hs
      obtain ⟨hpc, hs⟩ := hs
      obtain rfl := Option.some.inj hs
      rw [Divided, hpc] at h
      have hpos := List.length_pos_iff.2 hbad
      exact ⟨rfl, by dsimp only at h ⊢; omega⟩
  | mqSend ok =>
    cases ok with
    | true => exact absurd trivial hbad
    | false =>
      obtain ⟨data, hpc⟩ : ∃ data, s.server = .sendData data := by
        simpa [LoopCompletes] using hbad
      have hs : serveRequest file s (.mqSend false) = some s' := hs
      rw [serveRequest, hpc] at hs
      obtain rfl := Option.some.inj hs
      rw [Divided, hpc] at h
      exact ⟨rfl, by dsimp only at h ⊢; omega⟩

theorem divided_of_run (hs : (machine file).ReachableBy LoopCompletes s) : Divided file s :=
  hs.invariant rfl fun _ _ _ h hok hstep => h.step hok hstep

/-- In a run in which the loop is not broken off, the end message follows the whole file. -/
theorem inv_of_run (hs : (machine file).ReachableBy LoopCompletes s) :
    Inv (fun ds => ds.flatten.length = file.length) s := by
  refine hs.invariant_of (fun _ => divided_of_run) inv_start ?_
  intro s l s' h hdivided _ hstep
  refine h.step ?_ hstep
  rintro ds rfl hpc hsent
  rw [Divided, hpc, hsent, bytes_map fun _ => rfl] at hdivided
  exact hdivided

/-- The messages that were sent: data, and at the end one of another kind. -/
theorem ServerAt.sent_eq (h : ServerAt Q s) :
    ∃ (ds : List (List UInt8)) (tail : List ResponseMsg), s.sent = ds.map dataMsg ++ tail ∧
      (tail = [] ∨ tail = [failureMsg] ∧ ds = [] ∨ tail = [endMsg] ∧ Q ds) := by
  unfold ServerAt at h
  split at h
  case h_1 | h_2 | h_3 => exact ⟨[], [], h, .inl rfl⟩
  case h_4 | h_5 | h_6 =>
    rcases h with ⟨ds, hsent⟩
    exact ⟨ds, [], by rw [hsent, List.append_nil], .inl rfl⟩
  case h_7 =>
    rcases h with hsent | ⟨ds, hsent | ⟨hsent, hQ⟩⟩
    · exact ⟨[], [failureMsg], hsent, .inr (.inl ⟨rfl, rfl⟩)⟩
    · exact ⟨ds, [], by rw [hsent, List.append_nil], .inl rfl⟩
    · exact ⟨ds, [endMsg], hsent, .inr (.inr ⟨rfl, hQ⟩)⟩

/-- A client that has come to a message that is not data has taken everything. -/
theorem Inv.taken_all (h : Inv Q s) {m : ResponseMsg}
    (hupto : TakenUpTo responses s.client.taken m) (hm : responses.isData m = false) :
    s.queue = [] ∧
      ∃ ds : List (List UInt8), s.client.taken = ds.map dataMsg ++ [endMsg] ∧ Q ds := by
  rcases h.server.sent_eq with ⟨ds, tail, hsent, htail⟩
  rcases hupto.all_of_stream hm (fun _ => rfl) rfl (h.taken_queue.trans hsent) htail with
    ⟨hqueue, htaken, hQ⟩
  exact ⟨hqueue, ds, htaken, hQ⟩

theorem Inv.reportedWhole (h : Inv (fun ds => ds.flatten.length = file.length) s) :
    ReportsWhole file s := by
  intro totBytes numMsgs hreport
  rcases h.client.of_received hreport with ⟨⟨m, hupto, hm⟩, rfl, rfl⟩
  rcases h.taken_all hupto hm with ⟨-, ds, htaken, hlength⟩
  rw [htaken, bytes_append, bytes_map (fun _ => rfl), hlength]
  rfl

/-! ## The condition is needed -/

/-- The end message was sent, so the client is not told of a failure. -/
theorem Inv.not_failure (h : Inv Q s) {ds : List (List UInt8)}
    (hsent : s.sent = ds.map dataMsg ++ [endMsg]) {m : ResponseMsg}
    (htaken : s.client.taken = [m]) : responses.isFailure m = false := by
  have heq : m :: s.queue = ds.map dataMsg ++ [endMsg] := by
    rw [← hsent, ← h.taken_queue, htaken]
    rfl
  cases ds with
  | nil =>
    rw [(List.cons.inj heq).1]
    rfl
  | cons d ds =>
    rw [(List.cons.inj heq).1]
    rfl

/-- Behind the end message the client receives as long as something is queued. -/
theorem Inv.receives (h : Inv Q s) {ds : List (List UInt8)}
    (hsent : s.sent = ds.map dataMsg ++ [endMsg]) (hqueue : s.queue ≠ []) :
    s.client.Receives responses := by
  have hclient := h.client
  unfold Client.At at hclient
  split at hclient
  case h_1 hfirst => exact .inl hfirst
  case h_2 hloop =>
    rcases hclient with ⟨⟨m, hupto, hresp⟩, -⟩
    refine .inr ⟨hloop, ?_⟩
    rw [hresp, Option.any_some, ← Bool.not_eq_false]
    exact fun hdata => hqueue (h.taken_all hupto hdata).1
  case h_3 =>
    rcases hclient with ⟨m, hm, hfailure, -⟩ | ⟨m, hupto, hm, -⟩
    · rw [h.not_failure hsent hm] at hfailure
      cases hfailure
    · exact absurd (h.taken_all hupto hm).1 hqueue

/-- When nothing is queued any more, the client has reported the bytes that were sent, or it does so
next. -/
theorem Inv.reports (h : Inv Q s) {ds : List (List UInt8)}
    (hsent : s.sent = ds.map dataMsg ++ [endMsg]) (hqueue : s.queue = []) :
    (∃ numMsgs, s.client.report = some (.received (bytes responses s.sent) numMsgs)) ∨
      MqFile.client s = some { s with client := s.client.print } ∧
        s.client.totBytes = bytes responses s.sent := by
  have htaken : s.client.taken = s.sent := by rw [← h.taken_queue, hqueue, List.append_nil]
  have hclient := h.client
  unfold Client.At at hclient
  split at hclient
  case h_1 =>
    rw [← htaken, hclient.1] at hsent
    exact absurd hsent.symm (List.append_ne_nil_of_right_ne_nil _ (List.cons_ne_nil _ _))
  case h_2 hloop =>
    rcases hclient with ⟨⟨m, hupto, hresp⟩, hbytes, -, -⟩
    rcases hupto.split with ⟨l, hl, -⟩
    have hm : [m] = [endMsg] :=
      List.append_inj_right' (hl.symm.trans (htaken.trans hsent)) rfl
    have hnot : ¬ s.client.Receives responses := by
      rintro (hfirst | ⟨-, hany⟩)
      · rw [hloop] at hfirst
        cases hfirst
      · rw [hresp, Option.any_some, List.singleton_injective hm] at hany
        cases hany
    refine .inr ⟨?_, by rw [hbytes, htaken]⟩
    rw [MqFile.client, if_neg hnot, if_pos hloop]
  case h_3 =>
    rcases hclient with ⟨m, hm, hfailure, -⟩ | ⟨m, -, -, hreport⟩
    · rw [h.not_failure hsent hm] at hfailure
      cases hfailure
    · exact .inl ⟨_, by rw [hreport, htaken]⟩

/-- Once the end message is sent, the client takes what is queued and reports the bytes that were
sent. -/
theorem Inv.exists_report (file : List UInt8) (h : Inv Q s) {ds : List (List UInt8)}
    (hsent : s.sent = ds.map dataMsg ++ [endMsg]) :
    ∃ ls s' numMsgs, (machine file).run s ls = some s' ∧
      s'.client.report = some (.received (bytes responses s.sent) numMsgs) := by
  generalize hq : s.queue = q
  induction q generalizing s with
  | nil =>
    rcases h.reports hsent hq with ⟨numMsgs, hreport⟩ | ⟨hstep, hbytes⟩
    · exact ⟨[], s, numMsgs, rfl, hreport⟩
    · refine ⟨[.client], { s with client := s.client.print }, s.client.numMsgs, ?_, ?_⟩
      · rw [Machine.run_cons, show (machine file).step s .client = _ from hstep]
        rfl
      · rw [← hbytes]
        rfl
  | cons m q ih =>
    have hreceives := h.receives hsent (by rw [hq]; exact List.cons_ne_nil m q)
    have hstep : MqFile.client s =
        some { s with client := s.client.receive responses m, queue := q } := by
      rw [MqFile.client, if_pos hreceives, hq]
    rcases ih (h.client_step hstep) hsent rfl with ⟨ls, s', numMsgs, hrun, hreport⟩
    refine ⟨.client :: ls, s', numMsgs, ?_, hreport⟩
    rw [Machine.run_cons, show (machine file).step s .client = _ from hstep]
    exact hrun

theorem inv_of_reachable (hs : (machine file).Reachable s) : Inv (fun _ => True) s :=
  hs.invariant inv_start fun _ _ _ h _ hstep => h.step (fun _ _ _ _ => trivial) hstep

/-- While nothing but data was sent, the client receives. -/
theorem Inv.receives_data (h : Inv Q s) {ds : List (List UInt8)} (hsent : s.sent = ds.map dataMsg) :
    s.client.Receives responses := by
  have hdata : ∀ m ∈ s.client.taken, ∃ d, m = dataMsg d := by
    intro m hm
    have hmem : m ∈ ds.map dataMsg := by
      rw [← hsent, ← h.taken_queue]
      exact List.mem_append_left _ hm
    obtain ⟨d, -, rfl⟩ := List.mem_map.1 hmem
    exact ⟨d, rfl⟩
  have hlast : ∀ m, TakenUpTo responses s.client.taken m → responses.isData m = true := by
    intro m hupto
    obtain ⟨l, hl, -⟩ := hupto.split
    obtain ⟨d, rfl⟩ := hdata m (by rw [hl]; simp)
    rfl
  have hclient := h.client
  unfold Client.At at hclient
  split at hclient
  case h_1 hfirst => exact .inl hfirst
  case h_2 hloop =>
    obtain ⟨⟨m, hupto, hresp⟩, -⟩ := hclient
    exact .inr ⟨hloop, by rw [hresp, Option.any_some, hlast m hupto]⟩
  case h_3 =>
    obtain ⟨m, htaken, hfailure, -⟩ | ⟨m, hupto, hm, -⟩ := hclient
    · obtain ⟨d, rfl⟩ := hdata m (by rw [htaken]; exact List.mem_cons_self)
      cases hfailure
    · rw [hlast m hupto] at hm
      cases hm

/-- The client can take all data that are queued. -/
theorem Inv.exists_drained (file : List UInt8) (h : Inv Q s) {ds : List (List UInt8)}
    (hsent : s.sent = ds.map dataMsg) :
    ∃ ls s', (machine file).run s ls = some s' ∧ Inv Q s' ∧ s'.server = s.server ∧
      s'.sent = s.sent ∧ s'.queue = [] := by
  generalize hq : s.queue = q
  induction q generalizing s with
  | nil => exact ⟨[], s, rfl, h, rfl, rfl, hq⟩
  | cons m q ih =>
    have hstep : MqFile.client s =
        some { s with client := s.client.receive responses m, queue := q } := by
      rw [MqFile.client, if_pos (h.receives_data hsent), hq]
    obtain ⟨ls, s', hrun, hs'⟩ := ih (h.client_step hstep) hsent rfl
    refine ⟨.client :: ls, s', ?_, hs'⟩
    rw [Machine.run_cons, show (machine file).step s .client = _ from hstep]
    exact hrun

/-- An end message for a file that was not sent whole lets the client report a wrong total. -/
theorem exists_wrong_report (h : Inv (fun _ => True) s) (hpc : s.server = .sendEnd)
    (hbytes : bytes responses s.sent < file.length) :
    ∃ ls s', (machine file).run s ls = some s' ∧ ¬ ReportsWhole file s' := by
  have hserver := h.server
  rw [ServerAt, hpc] at hserver
  obtain ⟨ds, hsent⟩ := hserver
  obtain ⟨ls, t, hrun, ht, hserver, hsent', hqueue⟩ := h.exists_drained file hsent
  rw [hpc] at hserver
  set u : State := { t with server := .exited, queue := [endMsg], sent := t.sent ++ [endMsg] }
    with hu
  have hstep : (machine file).step t (.mqSend true) = some u := by
    change serveRequest file t (.mqSend true) = some u
    simp [serveRequest, hserver, State.mqSend, hqueue, mq_maxmsg, hu]
  have hnext : Inv (fun _ => True) u := ht.step (fun _ _ _ _ => trivial) hstep
  have hsentu : u.sent = ds.map dataMsg ++ [endMsg] := by rw [hu, hsent', hsent]
  obtain ⟨ls', s', numMsgs, hrun', hreport⟩ := hnext.exists_report file hsentu
  refine ⟨ls ++ .mqSend true :: ls', s', ?_, fun hwhole => hbytes.ne ?_⟩
  · rw [Machine.run_append, hrun, Option.bind_some, Machine.run_cons, hstep, Option.bind_some]
    exact hrun'
  · have htotal := hwhole _ _ hreport
    rw [hsentu, bytes_append, ← hsent] at htotal
    exact htotal

/-- **The client's total** is the length of the file in every run in which no `read` fails in front
of the end of the file and no `mq_send` of data fails; and after a step where one does, the client
can go on to report a wrong total. -/
theorem reportsWhole (file : List UInt8) :
    (∀ s, (machine file).ReachableBy LoopCompletes s → ReportsWhole file s) ∧
      ∀ s l s', (machine file).ReachableBy LoopCompletes s → ¬ LoopCompletes s l →
        (machine file).step s l = some s' →
          ∃ ls s'', (machine file).run s' ls = some s'' ∧ ¬ ReportsWhole file s'' := by
  refine ⟨fun _ hs => (inv_of_run hs).reportedWhole, fun s l s' hs hbad hstep => ?_⟩
  obtain ⟨hpc, hbytes⟩ := (divided_of_run hs).lost hbad hstep
  have hreach : (machine file).Reachable s' := (hs.mono fun _ _ _ => trivial).step trivial hstep
  exact exists_wrong_report (inv_of_reachable hreach) hpc hbytes

/-- The second `read` of a file of two bytes fails: the client reports one byte. -/
theorem partial_file_reported :
    ¬ ∀ file s, (machine file).Reachable s → ReportsWhole file s := by
  intro h
  have hrun : ∃ s, (machine [1, 2]).run start
      [.mqOpen true, .openFile true, .read (some 1), .mqSend true, .read none, .mqSend true,
        .client, .client, .client] = some s ∧ s.client.report = some (.received 1 2) :=
    ⟨_, rfl, rfl⟩
  rcases hrun with ⟨s, hrun, hreport⟩
  have htotal := h [1, 2] s (.run .init _ hrun) 1 2 hreport
  cases htotal

end TlpiLearn.MqFile
