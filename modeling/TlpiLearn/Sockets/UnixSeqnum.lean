import TlpiLearn.Foundations.Intervals
import Mathlib.Data.UInt
import Mathlib.Tactic

/-!
# A sequence number server on a UNIX socket

`57/3/sv.c`: the server accepts one connection after the other, receives a request, answers with
`seq` and adds the `seqLen` of the request. What `recv` does not fill in of the request keeps the
bytes of an earlier one, and no connection is ever closed.

`seq` is an `int`: what the model says of it is meant for runs in which it stays one (`Fits`). There
a server that adds a wrong number never goes back once it has served a complete request, so that the
intervals of the complete requests are disjoint all the same (`grants_disjoint`).
-/

namespace TlpiLearn.UnixSeqnum

/-- The bytes of `struct request`. -/
abbrev Request := Fin 4 → UInt8

/-- The `int` that the bytes are. -/
def seqLen (req : Request) : ℤ :=
  (req 0).toNat + 256 * (req 1).toNat + 65536 * (req 2).toNat + 16777216 * (req 3).toNat -
    if 128 ≤ (req 3).toNat then 4294967296 else 0

/-- `recv` writes the bytes that it gets over the front of the buffer. -/
def recv (bytes : List UInt8) (req : Request) : Request := fun i => (bytes[i.val]?).getD (req i)

/-- What `recv` gets of a client: a complete request with a positive length, or less. -/
structure Client where
  bytes : List UInt8
  length_le : bytes.length ≤ 4
  positive : bytes.length = 4 → 0 < seqLen (recv bytes fun _ => 0)

/-- The client has sent a complete request. -/
def Client.Complete (c : Client) : Prop := c.bytes.length = 4

instance (c : Client) : Decidable c.Complete := inferInstanceAs (Decidable (_ = _))

/-- The length that a client has asked for, 0 when it has not sent a complete request. -/
def Client.asked (c : Client) : ℤ := if c.Complete then seqLen (recv c.bytes fun _ => 0) else 0

/-- The variables of the server, and its descriptor table. -/
structure State where
  req : Request
  seq : ℤ
  table : Finset ℕ

/-- The table behind `listen`: the standard streams and `sfd`. -/
def listening : Finset ℕ := {0, 1, 2, 3}

/-- The server behind `listen`. `req` is not initialised. -/
def start (req : Request) : State where
  req := req
  seq := 0
  table := listening

/-- `accept` takes the lowest free descriptor below the limit; `none` is `EMFILE`. -/
def accept (nofile : ℕ) (table : Finset ℕ) : Option ℕ := (List.range nofile).find? (· ∉ table)

/-- One iteration of the loop; `none` is `errExit("accept")`. -/
def iteration (nofile : ℕ) (s : State) (c : Client) : Option State :=
  (accept nofile s.table).map fun cofd =>
    let req := recv c.bytes s.req
    { req := req
      seq := s.seq + seqLen req
      table := insert cofd s.table }

/-- A completed iteration. `res.seqNum` is `before.seq`. -/
structure Iteration where
  client : Client
  before : State
  after : State

/-- The iterations that a sequence of clients leads to. -/
def serve (nofile : ℕ) : State → List Client → List Iteration
  | _, [] => []
  | s, c :: cs =>
    match iteration nofile s c with
    | none => []
    | some s' => ⟨c, s, s'⟩ :: serve nofile s' cs

/-- The interval that a complete request is granted. -/
def Iteration.grant (i : Iteration) : Option (Span ℤ) :=
  if i.client.Complete then some ⟨i.before.seq, i.client.asked⟩ else none

/-- `seq` stays within the range of an `int`. -/
def Fits (its : List Iteration) : Prop :=
  ∀ i ∈ its, -2147483648 ≤ i.after.seq ∧ i.after.seq ≤ 2147483647

/-- `seq` advances by what the client of the iteration has asked for. -/
def Advances (its : List Iteration) : Prop :=
  ∀ i ∈ its, i.after.seq = i.before.seq + i.client.asked

/-- The complete requests are granted disjoint intervals. -/
def DisjointGrants (its : List Iteration) : Prop :=
  (its.filterMap Iteration.grant).Pairwise fun g h => Disjoint g.toSet h.toSet

/-- No connection is open behind an iteration. -/
def NoneOpen (its : List Iteration) : Prop := ∀ i ∈ its, i.after.table = listening

/-- What the server promises. -/
structure Correct (its : List Iteration) : Prop where
  advances : Advances its
  disjoint : DisjointGrants its
  noneOpen : NoneOpen its

variable {nofile : ℕ} {s s' : State} {c : Client}

/-! ## One iteration -/

theorem seqLen_nonneg {req : Request} (h : (req 3).toNat < 128) : 0 ≤ seqLen req := by
  rw [seqLen, if_neg (by omega)]
  omega

theorem top_lt_of_seqLen_pos {req : Request} (h : 0 < seqLen req) : (req 3).toNat < 128 := by
  by_contra hge
  have h0 := (req 0).toNat_lt
  have h1 := (req 1).toNat_lt
  have h2 := (req 2).toNat_lt
  have h3 := (req 3).toNat_lt
  rw [seqLen, if_pos (by omega)] at h
  omega

/-- A complete request overwrites the buffer. -/
theorem recv_of_complete (h : c.Complete) (req : Request) :
    recv c.bytes req = recv c.bytes fun _ => 0 := by
  funext i
  have hi : i.val < c.bytes.length := by
    rw [h]
    exact i.isLt
  rw [recv, recv, List.getElem?_eq_getElem hi]
  rfl

/-- A short request leaves the last byte of the buffer. -/
theorem recv_of_short (h : ¬ c.Complete) (req : Request) : recv c.bytes req 3 = req 3 := by
  have hlen : c.bytes.length ≤ 3 := Nat.lt_succ_iff.1 (lt_of_le_of_ne c.length_le h)
  have hnone : c.bytes[(3 : Fin 4).val]? = none := List.getElem?_eq_none hlen
  rw [recv, hnone, Option.getD_none]

theorem Client.asked_of_complete (h : c.Complete) (req : Request) :
    c.asked = seqLen (recv c.bytes req) := by
  rw [asked, if_pos h, recv_of_complete h req]

theorem Client.asked_pos (h : c.Complete) : 0 < c.asked := by
  rw [asked, if_pos h]
  exact c.positive h

theorem iteration_eq_some (h : iteration nofile s c = some s') :
    s'.req = recv c.bytes s.req ∧ s'.seq = s.seq + seqLen (recv c.bytes s.req) ∧
      ∃ cofd ∉ s.table, s'.table = insert cofd s.table := by
  rw [iteration, Option.map_eq_some_iff] at h
  rcases h with ⟨cofd, hcofd, rfl⟩
  have hfree := List.find?_some hcofd
  exact ⟨rfl, rfl, cofd, of_decide_eq_true hfree, rfl⟩

/-- An iteration advances by the right amount unless it adds up a buffer that the client has not
filled. -/
theorem advance_iff (h : iteration nofile s c = some s') :
    s'.seq = s.seq + c.asked ↔ (¬ c.Complete → seqLen (recv c.bytes s.req) = 0) := by
  rw [(iteration_eq_some h).2.1, add_right_inj]
  by_cases hc : c.Complete
  · exact iff_of_true (c.asked_of_complete hc s.req).symm fun hshort => absurd hc hshort
  · rw [Client.asked, if_neg hc]
    exact ⟨fun h0 _ => h0, fun h0 => h0 hc⟩

/-- Every iteration leaves one more descriptor open. -/
theorem table_ssubset (h : iteration nofile s c = some s') : s.table ⊂ s'.table := by
  rcases (iteration_eq_some h).2.2 with ⟨cofd, hfree, htable⟩
  rw [htable]
  exact Finset.ssubset_insert hfree

theorem iteration_start_eq_none_iff (req : Request) :
    iteration nofile (start req) c = none ↔ nofile ≤ 4 := by
  rw [iteration, Option.map_eq_none_iff, accept, List.find?_eq_none]
  constructor
  · intro h
    by_contra hlt
    have h4 := h 4 (List.mem_range.2 (by omega))
    exact h4 (decide_eq_true (by decide : 4 ∉ listening))
  · intro hle fd hfd
    have hlt : fd < 4 := (List.mem_range.1 hfd).trans_le hle
    have hmem : fd ∈ listening := by interval_cases fd <;> decide
    rw [decide_eq_true_eq, not_not]
    exact hmem

/-! ## All iterations -/

theorem serve_cons_of_none (h : iteration nofile s c = none) (cs : List Client) :
    serve nofile s (c :: cs) = [] := by
  rw [serve, h]

theorem serve_cons_of_some (h : iteration nofile s c = some s') (cs : List Client) :
    serve nofile s (c :: cs) = ⟨c, s, s'⟩ :: serve nofile s' cs := by
  rw [serve, h]

/-- The intervals that are granted in a list of iterations. -/
theorem grants_cons_of_complete (h : c.Complete) (its : List Iteration) :
    (⟨c, s, s'⟩ :: its).filterMap Iteration.grant =
      ⟨s.seq, c.asked⟩ :: its.filterMap Iteration.grant :=
  List.filterMap_cons_some (if_pos h)

theorem grants_cons_of_short (h : ¬ c.Complete) (its : List Iteration) :
    (⟨c, s, s'⟩ :: its).filterMap Iteration.grant = its.filterMap Iteration.grant :=
  List.filterMap_cons_none (if_neg h)

/-- What holds of every iteration, from what holds of one. -/
theorem serve_forall {P : Iteration → Prop}
    (h : ∀ s c s', iteration nofile s c = some s' → P ⟨c, s, s'⟩) (s : State) (cs : List Client) :
    ∀ i ∈ serve nofile s cs, P i := by
  induction cs generalizing s with
  | nil => exact fun _ hi => absurd hi List.not_mem_nil
  | cons c cs ih =>
    cases hit : iteration nofile s c with
    | none =>
      rw [serve_cons_of_none hit]
      exact fun _ hi => absurd hi List.not_mem_nil
    | some s' =>
      rw [serve_cons_of_some hit]
      intro i hi
      rcases List.mem_cons.1 hi with rfl | hi
      · exact h s c s' hit
      · exact ih s' i hi

theorem serve_iteration {i : Iteration} {cs : List Client} (hi : i ∈ serve nofile s cs) :
    iteration nofile i.before i.client = some i.after :=
  serve_forall (P := fun i => iteration nofile i.before i.client = some i.after)
    (fun _ _ _ h => h) s cs i hi

/-- `seq` advances as it should exactly when no short request leaves a number behind. -/
theorem advances_iff (s : State) (cs : List Client) :
    Advances (serve nofile s cs) ↔ ∀ i ∈ serve nofile s cs, ¬ i.client.Complete →
      seqLen (recv i.client.bytes i.before.req) = 0 :=
  forall₂_congr fun _ hi => advance_iff (serve_iteration hi)

theorem noneOpen_iff (req : Request) (cs : List Client) :
    NoneOpen (serve nofile (start req) cs) ↔ cs = [] ∨ nofile ≤ 4 := by
  cases cs with
  | nil => exact iff_of_true (fun _ hi => absurd hi List.not_mem_nil) (.inl rfl)
  | cons c cs =>
    cases hit : iteration nofile (start req) c with
    | none =>
      rw [serve_cons_of_none hit]
      exact iff_of_true (fun _ hi => absurd hi List.not_mem_nil)
        (.inr ((iteration_start_eq_none_iff req).1 hit))
    | some s' =>
      rw [serve_cons_of_some hit]
      refine iff_of_false (fun h => ?_) ?_
      · have hclosed := h _ List.mem_cons_self
        exact (table_ssubset hit).ne hclosed.symm
      · rintro (h | h)
        · cases h
        · rw [← iteration_start_eq_none_iff (c := c) req, hit] at h
          cases h

/-- The lower end of a stack may be lowered. -/
theorem stacked_of_le {l : List (Span ℤ)} {a a' b : ℤ} (h : Stacked a' l b) (hle : a ≤ a') :
    Stacked a l b := by
  cases l with
  | nil => exact le_trans hle h
  | cons g l => exact ⟨hle.trans h.1, h.2⟩

/-- Once the last byte of the buffer is that of a positive number, `seq` does not go back. -/
theorem grants_stacked_of_top (hs : (s.req 3).toNat < 128) (cs : List Client) :
    ∃ b, Stacked s.seq ((serve nofile s cs).filterMap Iteration.grant) b := by
  induction cs generalizing s with
  | nil => exact ⟨s.seq, le_rfl⟩
  | cons c cs ih =>
    cases hit : iteration nofile s c with
    | none =>
      rw [serve_cons_of_none hit]
      exact ⟨s.seq, le_rfl⟩
    | some s' =>
      rw [serve_cons_of_some hit]
      rcases iteration_eq_some hit with ⟨hreq, hseq, -⟩
      by_cases hc : c.Complete
      · have hpos := c.asked_pos hc
        have hlen := c.asked_of_complete hc s.req
        have htop : (s'.req 3).toNat < 128 := by
          rw [hreq]
          exact top_lt_of_seqLen_pos (hlen ▸ hpos)
        rcases ih htop with ⟨b, hb⟩
        refine ⟨b, ?_⟩
        rw [grants_cons_of_complete hc]
        rw [hseq, ← hlen] at hb
        exact ⟨le_rfl, hpos, hb⟩
      · have htop : (s'.req 3).toNat < 128 := by
          rw [hreq, recv_of_short hc]
          exact hs
        rcases ih htop with ⟨b, hb⟩
        refine ⟨b, ?_⟩
        rw [grants_cons_of_short hc]
        apply stacked_of_le hb
        rw [hseq]
        rw [hreq] at htop
        exact le_add_of_nonneg_right (seqLen_nonneg htop)

/-- **The complete requests never share a number**, whatever the others leave in the buffer. -/
theorem grants_disjoint (s : State) (cs : List Client) :
    DisjointGrants (serve nofile s cs) := by
  suffices h : ∃ a b, Stacked a ((serve nofile s cs).filterMap Iteration.grant) b by
    rcases h with ⟨a, b, h⟩
    exact h.pairwise_disjoint
  induction cs generalizing s with
  | nil => exact ⟨0, 0, le_rfl⟩
  | cons c cs ih =>
    cases hit : iteration nofile s c with
    | none =>
      rw [serve_cons_of_none hit]
      exact ⟨0, 0, le_rfl⟩
    | some s' =>
      rw [serve_cons_of_some hit]
      by_cases hc : c.Complete
      · rcases iteration_eq_some hit with ⟨hreq, hseq, -⟩
        have hpos := c.asked_pos hc
        have hlen := c.asked_of_complete hc s.req
        have htop : (s'.req 3).toNat < 128 := by
          rw [hreq]
          exact top_lt_of_seqLen_pos (hlen ▸ hpos)
        rcases grants_stacked_of_top htop cs with ⟨b, hb⟩
        refine ⟨s.seq, b, ?_⟩
        rw [grants_cons_of_complete hc]
        rw [hseq, ← hlen] at hb
        exact ⟨le_rfl, hpos, hb⟩
      · rw [grants_cons_of_short hc]
        exact ih s'

/-- **What the server keeps of its promise**: all of it only when no client comes or none can be
accepted, because no connection is closed. As long as `seq` fits, the sequence number is right
exactly when no short request leaves a number behind in the buffer, and the intervals of the
complete requests are disjoint. -/
theorem serve_correct_iff (nofile : ℕ) (req : Request) (cs : List Client) :
    (Correct (serve nofile (start req) cs) ↔ cs = [] ∨ nofile ≤ 4) ∧
      (Fits (serve nofile (start req) cs) →
        (Advances (serve nofile (start req) cs) ↔
          ∀ i ∈ serve nofile (start req) cs, ¬ i.client.Complete →
            seqLen (recv i.client.bytes i.before.req) = 0) ∧
        DisjointGrants (serve nofile (start req) cs)) := by
  refine ⟨⟨fun h => (noneOpen_iff req cs).1 h.noneOpen, fun h => ?_⟩, fun _ =>
    ⟨advances_iff _ cs, grants_disjoint _ cs⟩⟩
  have hnil : serve nofile (start req) cs = [] := by
    cases cs with
    | nil => rfl
    | cons c cs =>
      rcases h with h | h
      · cases h
      · exact serve_cons_of_none ((iteration_start_eq_none_iff req).2 h) cs
  rw [hnil]
  exact ⟨fun _ hi => absurd hi List.not_mem_nil, .nil, fun _ hi => absurd hi List.not_mem_nil⟩

/-- One client that asks for 5 numbers. -/
def client5 : Client where
  bytes := [5, 0, 0, 0]
  length_le := by decide
  positive := by decide

/-- One client that closes its side at once. -/
def silent : Client where
  bytes := []
  length_le := by decide
  positive := by decide

/-- Two complete requests, with a silent client between them. -/
theorem serve_correct_iff_three :
    DisjointGrants (serve 16 (start fun _ => 0) [client5, silent, client5]) := by
  refine ((serve_correct_iff 16 (fun _ => 0) [client5, silent, client5]).2 ?_).2
  unfold Fits
  decide

/-- The second client has sent nothing, and `seq` advances by the 5 of the first. -/
theorem stale_request_served :
    ¬ ∀ (nofile : ℕ) (req : Request) (cs : List Client),
      Correct (serve nofile (start req) cs) := by
  intro h
  have hadv := (h 16 (fun _ => 0) [client5, silent]).advances
  have hrun : ∃ i ∈ serve 16 (start fun _ => 0) [client5, silent],
      i.before.seq = 5 ∧ i.after.seq = 10 ∧ i.client.asked = 0 := by
    refine ⟨_, List.mem_cons_of_mem _ List.mem_cons_self, ?_⟩
    decide
  rcases hrun with ⟨i, hi, hbefore, hafter, hasked⟩
  have hbad := hadv i hi
  rw [hbefore, hafter, hasked] at hbad
  omega

end TlpiLearn.UnixSeqnum
