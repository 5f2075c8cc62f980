import TlpiLearn.Foundations.CString
import TlpiLearn.Foundations.MsgQueue
import Mathlib.Tactic

/-!
# The clients of the file servers

`46_45/svmsg_file_client.c` and `52/52_3/svmsg_file_client.c` are the same program on two kinds of
message queues: it receives a first response, which may be a failure, and then more as long as the
last one was data, and it counts the bytes and the messages. The kinds of the responses are a
parameter. What a client has counted is a matter of what it has taken (`Client.At`).
-/

namespace TlpiLearn.FileServer

/-- How a client looks at a response. -/
structure Responses (β : Type*) where
  /-- `resp.type == RESP_MT_FAILURE` -/
  isFailure : β → Bool
  /-- `resp.type == RESP_MT_DATA` -/
  isData : β → Bool
  /-- `resp.data`, as much of it as was sent. -/
  data : β → List UInt8

/-- Where a client is in `main`. -/
inductive ClientPc
  /-- The first receive. -/
  | first
  /-- The test of the loop. -/
  | loop
  | exited
  deriving DecidableEq, Repr

/-- What a client prints. -/
inductive Report
  | failure (text : List UInt8)
  | received (totBytes numMsgs : ℕ)
  deriving DecidableEq, Repr

structure Client (β : Type*) where
  pc : ClientPc
  /-- `resp`, which is not initialised. -/
  resp : Option β
  /-- An `ssize_t`, which holds the length of any file. -/
  totBytes : ℕ
  /-- An `int`: what is printed of it is meant for fewer than `2 ^ 31` messages. -/
  numMsgs : ℕ
  report : Option Report
  /-- The responses that were received. -/
  taken : List β

variable {β : Type*} (R : Responses β)

/-- The request is sent. -/
def Client.start : Client β where
  pc := .first
  resp := none
  totBytes := 0
  numMsgs := 0
  report := none
  taken := []

/-- The client is at a receive: the first one, or the one in the loop. -/
def Client.Receives (c : Client β) : Prop :=
  c.pc = .first ∨ c.pc = .loop ∧ c.resp.any R.isData = true

instance (c : Client β) : Decidable (c.Receives R) := inferInstanceAs (Decidable (_ ∨ _ ∧ _))

/-- What the client does with a response. -/
def Client.receive (c : Client β) (m : β) : Client β :=
  let c := { c with resp := some m, taken := c.taken ++ [m] }
  match c.pc with
  | .first =>
    if R.isFailure m then
      { c with pc := .exited, report := some (.failure (cstr (R.data m))) }
    else { c with pc := .loop, totBytes := (R.data m).length, numMsgs := 1 }
  | .loop =>
    { c with totBytes := c.totBytes + (R.data m).length, numMsgs := c.numMsgs + 1 }
  | .exited => c

/-- The `printf` behind the loop. -/
def Client.print (c : Client β) : Client β :=
  { c with pc := .exited, report := some (.received c.totBytes c.numMsgs) }

/-! ## What a client has counted -/

/-- The bytes of a list of responses. -/
def bytes (l : List β) : ℕ := (l.map fun m => (R.data m).length).sum

theorem bytes_append (l l' : List β) : bytes R (l ++ l') = bytes R l + bytes R l' := by
  rw [bytes, List.map_append, List.sum_append, bytes, bytes]

/-- The client has taken data, and then `m`. -/
structure TakenUpTo (taken : List β) (m : β) : Prop where
  split : ∃ l, taken = l ++ [m] ∧ ∀ x ∈ l, R.isData x = true
  first : ∀ x ∈ taken.head?, R.isFailure x = false

/-- What the client has counted of the responses that it has taken. -/
def Client.At (c : Client β) : Prop :=
  match c.pc with
  | .first => c.taken = [] ∧ c.report = none
  | .loop => (∃ m, TakenUpTo R c.taken m ∧ c.resp = some m) ∧
      c.totBytes = bytes R c.taken ∧ c.numMsgs = c.taken.length ∧ c.report = none
  | .exited =>
    (∃ m, c.taken = [m] ∧ R.isFailure m = true ∧
      c.report = some (.failure (cstr (R.data m)))) ∨
    ∃ m, TakenUpTo R c.taken m ∧ R.isData m = false ∧
      c.report = some (.received (bytes R c.taken) c.taken.length)

variable {R} {c : Client β} {m : β}

/-- After data the client takes one more. -/
theorem TakenUpTo.snoc {taken : List β} (h : TakenUpTo R taken m) (hm : R.isData m = true)
    (m' : β) : TakenUpTo R (taken ++ [m']) m' := by
  rcases h.split with ⟨l, rfl, hl⟩
  constructor
  · refine ⟨l ++ [m], rfl, ?_⟩
    intro x hx
    rcases List.mem_append.1 hx with hx | hx
    · exact hl x hx
    · rwa [List.mem_singleton.1 hx]
  · intro x hx
    apply h.first x
    rwa [List.head?_append_of_ne_nil _ (by simp)] at hx

/-- A client that has come to a response that is not data has taken everything that was sent, when
nothing else follows such a response. -/
theorem TakenUpTo.all {taken queue ds tail : List β} (h : TakenUpTo R taken m)
    (hm : R.isData m = false) (hsent : taken ++ queue = ds ++ tail)
    (hds : ∀ d ∈ ds, R.isData d = true) (htail : tail.length ≤ 1) :
    taken = ds ++ [m] ∧ tail = [m] ∧ queue = [] := by
  rcases h.split with ⟨l, rfl, hl⟩
  have hprefix : l ++ [m] <+: ds ++ tail := hsent ▸ List.prefix_append _ _
  rcases eq_of_prefix_terminated hl (by rw [hm]; exact Bool.false_ne_true) hds htail hprefix with
    ⟨rfl, rfl⟩
  exact ⟨rfl, rfl, List.append_right_eq_self.1 hsent⟩

section Stream

variable {dataMsg : List UInt8 → β} {failureMsg endMsg : β}

theorem bytes_map (hdata : ∀ d, R.data (dataMsg d) = d) (ds : List (List UInt8)) :
    bytes R (ds.map dataMsg) = ds.flatten.length := by
  rw [bytes, List.map_map, List.length_flatten]
  congr 1
  apply List.map_congr_left
  intro d _
  exact congrArg List.length (hdata d)

/-- **The stream of a server** is data and an end message, or a failure message alone. A client that
has come to a message that is not data has taken all of it, up to the end message. -/
theorem TakenUpTo.all_of_stream {taken queue tail : List β} {ds : List (List UInt8)} {Q : Prop}
    (h : TakenUpTo R taken m) (hm : R.isData m = false) (hdata : ∀ d, R.isData (dataMsg d) = true)
    (hfailure : R.isFailure failureMsg = true) (hsent : taken ++ queue = ds.map dataMsg ++ tail)
    (htail : tail = [] ∨ tail = [failureMsg] ∧ ds = [] ∨ tail = [endMsg] ∧ Q) :
    queue = [] ∧ taken = ds.map dataMsg ++ [endMsg] ∧ Q := by
  have hlen : tail.length ≤ 1 := by
    rcases htail with rfl | ⟨rfl, -⟩ | ⟨rfl, -⟩
    · exact Nat.zero_le 1
    · exact le_rfl
    · exact le_rfl
  have hds : ∀ x ∈ ds.map dataMsg, R.isData x = true := by
    intro x hx
    rcases List.mem_map.1 hx with ⟨d, -, rfl⟩
    exact hdata d
  rcases h.all hm hsent hds hlen with ⟨htaken, rfl, hqueue⟩
  rcases htail with hnil | ⟨hm', rfl⟩ | ⟨hm', hQ⟩
  · cases hnil
  · -- the failure message was not the first one
    have hfirst := h.first m (by rw [htaken]; rfl)
    rw [List.singleton_injective hm', hfailure] at hfirst
    cases hfirst
  · exact ⟨hqueue, by rw [htaken, hm'], hQ⟩

end Stream

theorem Client.at_start : (Client.start : Client β).At R := ⟨rfl, rfl⟩

theorem Client.taken_receive (c : Client β) (m : β) : (c.receive R m).taken = c.taken ++ [m] := by
  rw [receive]
  split
  · split <;> rfl
  · rfl
  · rfl

theorem Client.At.receive (h : c.At R) (hc : c.Receives R) (m : β) : (c.receive R m).At R := by
  rcases hc with hpc | ⟨hpc, hany⟩
  · rw [Client.At, hpc] at h
    have htaken : c.taken ++ [m] = [m] := by rw [h.1, List.nil_append]
    rw [Client.receive]
    simp only [hpc]
    split
    case isTrue hfailure => exact .inl ⟨m, htaken, hfailure, rfl⟩
    case isFalse hfailure =>
      refine ⟨⟨m, ⟨⟨[], htaken, ?_⟩, ?_⟩, rfl⟩, ?_, ?_, h.2⟩
      · exact fun x hx => absurd hx List.not_mem_nil
      · intro x hx
        simp only [htaken, List.head?_cons, Option.mem_some_iff] at hx
        exact hx ▸ Bool.eq_false_of_not_eq_true hfailure
      · simp only [htaken, bytes, List.map_singleton, List.sum_singleton]
      · simp only [htaken, List.length_singleton]
  · rw [Client.At, hpc] at h
    rcases h with ⟨⟨m', hupto, hresp⟩, hbytes, hnum, hreport⟩
    have hdata : R.isData m' = true := by rwa [hresp, Option.any_some] at hany
    have hbytes' : c.totBytes + (R.data m).length = bytes R (c.taken ++ [m]) := by
      rw [bytes_append, hbytes]
      exact congrArg _ List.sum_singleton.symm
    have hnum' : c.numMsgs + 1 = (c.taken ++ [m]).length := by
      rw [List.length_append, hnum, List.length_singleton]
    rw [Client.receive]
    simp only [hpc, Client.At]
    exact ⟨⟨m, hupto.snoc hdata m, rfl⟩, hbytes', hnum', hreport⟩

theorem Client.At.print (h : c.At R) (hc : ¬ c.Receives R) (hpc : c.pc = .loop) :
    c.print.At R := by
  rw [Client.At, hpc] at h
  rcases h with ⟨⟨m, hupto, hresp⟩, hbytes, hnum, -⟩
  refine .inr ⟨m, hupto, ?_, ?_⟩
  · rw [← Bool.not_eq_true]
    exact fun hdata => hc (.inr ⟨hpc, by rwa [hresp, Option.any_some]⟩)
  · rw [Client.print, hbytes, hnum]

/-- A client that has left the loop has reported. -/
theorem Client.At.report_isSome (h : c.At R) (hpc : c.pc = .exited) : c.report.isSome = true := by
  rw [Client.At, hpc] at h
  rcases h with ⟨m, -, -, hreport⟩ | ⟨m, -, -, hreport⟩ <;> rw [hreport] <;> rfl

/-- A total is reported behind the first response that is not data. -/
theorem Client.At.of_received (h : c.At R) {totBytes numMsgs : ℕ}
    (hreport : c.report = some (.received totBytes numMsgs)) :
    (∃ m, TakenUpTo R c.taken m ∧ R.isData m = false) ∧ totBytes = bytes R c.taken ∧
      numMsgs = c.taken.length := by
  unfold Client.At at h
  split at h
  case h_1 => cases h.2.symm.trans hreport
  case h_2 => cases h.2.2.2.symm.trans hreport
  case h_3 =>
    rcases h with ⟨m, -, -, hfailure⟩ | ⟨m, hupto, hm, hreceived⟩
    · cases hfailure.symm.trans hreport
    · cases hreceived.symm.trans hreport
      exact ⟨⟨m, hupto, hm⟩, rfl, rfl⟩

/-- A failure is reported for a first response that is one. -/
theorem Client.At.of_failure (h : c.At R) {text : List UInt8}
    (hreport : c.report = some (.failure text)) :
    ∃ m, c.taken = [m] ∧ R.isFailure m = true ∧ text = cstr (R.data m) := by
  unfold Client.At at h
  split at h
  case h_1 => cases h.2.symm.trans hreport
  case h_2 => cases h.2.2.2.symm.trans hreport
  case h_3 =>
    rcases h with ⟨m, htaken, hm, hfailure⟩ | ⟨m, -, -, hreceived⟩
    · cases hfailure.symm.trans hreport
      exact ⟨m, htaken, hm, rfl⟩
    · cases hreceived.symm.trans hreport

end TlpiLearn.FileServer
