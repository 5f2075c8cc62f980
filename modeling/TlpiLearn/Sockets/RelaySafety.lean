import TlpiLearn.Sockets.Relay
import Mathlib.Tactic

/-!
# What the server with a priority connection guarantees

The standard output is a merge of the two streams, a side is not looked at again behind its end, the
priority side goes first, and the loop is left when both sides have come to their end (`relay`).
-/

namespace TlpiLearn.Relay

/-- What is done for a side that is ready. -/
def branchActs (ready : Finset Fd) (chunk : Fd → List UInt8) (fd : Fd) : List Act :=
  if fd ∈ ready then [Act.read fd (chunk fd), Act.write (chunk fd)] else []

/-- A pass serves the sides that are ready, each once, and the priority side first. -/
structure Pass.InOrder (p : Pass) : Prop where
  ready_subset : p.ready ⊆ p.asked
  acts_eq : ∃ chunk, p.acts =
    branchActs p.ready chunk .prior_connfd ++ branchActs p.ready chunk .connfd

/-- A side whose end was read in `p` is neither selected on nor read in `q`. -/
def Pass.EndsBefore (p q : Pass) : Prop :=
  ∀ fd, Act.read fd [] ∈ p.acts → fd ∉ q.asked ∧ ∀ chunk, Act.read fd chunk ∉ q.acts

/-- What holds between the passes. -/
structure Ordered (s : State) : Prop where
  idle : s.acts = []
  inOrder : ∀ p ∈ s.passes, p.InOrder
  endsBefore : s.passes.Pairwise Pass.EndsBefore
  ended : s.ended = true → s.bothClosed = true

variable {streams : Fd → List UInt8} {s s' : State} {fd fd' : Fd} {n : ℕ} {ready : Finset Fd}
  {readn : Fd → ℕ}

/-- A pass of the loop can be made. -/
structure Passes (s : State) (ready : Finset Fd) (readn : Fd → ℕ) : Prop where
  ended : s.ended = false
  bothClosed : s.bothClosed = false
  nonempty : ready.Nonempty
  subset : ready ⊆ s.fdSets
  delivers : ∀ fd ∈ ready, Delivers (s.incoming fd) (readn fd)

theorem step_eq_some {l : Label} (h : step s l = some s') :
    (∃ ready readn, Passes s ready readn ∧ s' = s.pass ready readn) ∨
      s.ended = false ∧ s.bothClosed = true ∧ s' = { s with ended := true } := by
  cases l with
  | pass ready readn =>
    rw [step, Option.ite_none_right_eq_some] at h
    rcases h with ⟨⟨h1, h2, h3, h4, h5⟩, h⟩
    exact .inl ⟨ready, readn, ⟨h1, h2, h3, h4, h5⟩, (Option.some.inj h).symm⟩
  | leave =>
    rw [step, Option.ite_none_right_eq_some] at h
    exact .inr ⟨h.1.1, h.1.2, (Option.some.inj h.2).symm⟩

theorem bothClosed_iff : s.bothClosed = true ↔ ∀ fd, s.close fd = true := by
  rw [State.bothClosed, Bool.and_eq_true]
  constructor
  · rintro ⟨hc, hp⟩ fd
    cases fd with
    | connfd => exact hc
    | prior_connfd => exact hp
  · exact fun h => ⟨h _, h _⟩

/-! ## A pass, branch by branch -/

/-- The state between the two branches. -/
def State.mid (s : State) (ready : Finset Fd) (readn : Fd → ℕ) : State :=
  State.serve { s with rfdset := ready } .prior_connfd (readn .prior_connfd)

theorem pass_eq_mid :
    s.pass ready readn =
      ((s.mid ready readn).serve .connfd (readn .connfd)).endPass s.fdSets ready := rfl

theorem mid_connfd (h : Passes s ready readn) :
    (Fd.connfd ∈ (s.mid ready readn).rfdset ↔ Fd.connfd ∈ ready) ∧
      (s.mid ready readn).incoming .connfd = s.incoming .connfd :=
  serve_other (s := { s with rfdset := ready }) (fun hmem => h.delivers _ hmem) (by decide)

/-- The second branch can be made. -/
theorem mid_delivers (h : Passes s ready readn) (hmem : Fd.connfd ∈ (s.mid ready readn).rfdset) :
    Delivers ((s.mid ready readn).incoming .connfd) (readn .connfd) := by
  rw [(mid_connfd h).2]
  exact h.delivers _ ((mid_connfd h).1.1 hmem)

theorem Inv.pass (hinv : Inv streams s) (h : Passes s ready readn) :
    Inv streams (s.pass ready readn) := by
  have hmid : Inv streams (s.mid ready readn) :=
    (hinv.select h.subset).serve fun hmem => h.delivers _ hmem
  exact (hmid.serve (mid_delivers h)).endPass _

theorem acts_serve (hd : fd ∈ s.rfdset → Delivers (s.incoming fd) n) :
    (s.serve fd n).acts =
      s.acts ++ branchActs s.rfdset (fun fd => (s.incoming fd).take n) fd := by
  rw [State.serve, branchActs]
  split
  case isTrue hmem => rw [branch_eq (hd hmem).2.1]
  case isFalse => exact (List.append_nil _).symm

theorem serve_frame (s : State) (fd : Fd) (n : ℕ) :
    (s.serve fd n).passes = s.passes ∧ (s.serve fd n).ended = s.ended := by
  rw [State.serve, State.branch]
  split_ifs <;> exact ⟨rfl, rfl⟩

/-- What a pass adds to the record. -/
theorem passes_pass (h : Passes s ready readn) (hidle : s.acts = []) :
    (s.pass ready readn).passes = s.passes ++ [⟨s.fdSets, ready,
      branchActs ready (fun fd => (s.incoming fd).take (readn fd)) .prior_connfd ++
        branchActs ready (fun fd => (s.incoming fd).take (readn fd)) .connfd⟩] := by
  have hmid : (s.mid ready readn).acts =
      branchActs ready (fun fd => (s.incoming fd).take (readn fd)) .prior_connfd := by
    rw [State.mid, acts_serve (s := { s with rfdset := ready }) fun hmem => h.delivers _ hmem]
    exact congrArg (· ++ _) hidle
  have hacts : ((s.mid ready readn).serve .connfd (readn .connfd)).acts =
      branchActs ready (fun fd => (s.incoming fd).take (readn fd)) .prior_connfd ++
        branchActs ready (fun fd => (s.incoming fd).take (readn fd)) .connfd := by
    rw [acts_serve (mid_delivers h), hmid, branchActs, branchActs, branchActs, (mid_connfd h).2]
    simp only [(mid_connfd h).1]
  rw [pass_eq_mid, State.endPass, hacts, (serve_frame _ _ _).1, State.mid, (serve_frame _ _ _).1]

theorem ended_pass : (s.pass ready readn).ended = s.ended := by
  rw [pass_eq_mid, State.endPass, (serve_frame _ _ _).2, State.mid, (serve_frame _ _ _).2]

theorem fd_mem_of_read {chunk : Fd → List UInt8} {bs : List UInt8}
    (h : Act.read fd bs ∈ branchActs ready chunk .prior_connfd ++ branchActs ready chunk .connfd) :
    fd ∈ ready := by
  have hside : ∀ fd', Act.read fd bs ∈ branchActs ready chunk fd' → fd ∈ ready := by
    intro fd' hmem
    rw [branchActs] at hmem
    split at hmem
    case isTrue hready =>
      rcases List.mem_cons.1 hmem with heq | hmem
      · rwa [(Act.read.inj heq).1]
      · cases List.mem_singleton.1 hmem
    case isFalse => cases hmem
  rcases List.mem_append.1 h with h | h
  · exact hside _ h
  · exact hside _ h

theorem Ordered.pass (ho : Ordered s) (hinv : Inv streams s) (h : Passes s ready readn) :
    Ordered (s.pass ready readn) := by
  have hpasses := passes_pass h ho.idle
  constructor
  · rfl
  · rw [hpasses]
    intro p hp
    rcases List.mem_append.1 hp with hp | hp
    · exact ho.inOrder p hp
    · rw [List.mem_singleton.1 hp]
      exact ⟨h.subset, _, rfl⟩
  · rw [hpasses, List.pairwise_append]
    refine ⟨ho.endsBefore, List.pairwise_singleton _ _, ?_⟩
    intro p hp q hq fd hread
    rw [List.mem_singleton.1 hq]
    have hclose : s.close fd = true := by
      rw [hinv.closed_iff, State.AtEof, State.log, List.mem_append, List.mem_flatMap]
      exact .inl ⟨p, hp, hread⟩
    have hnot : fd ∉ s.fdSets := by
      intro hmem
      rw [hinv.close_of_mem_fdSets hmem] at hclose
      cases hclose
    exact ⟨hnot, fun chunk hmem => hnot (h.subset (fd_mem_of_read hmem))⟩
  · rw [ended_pass, h.ended]
    intro hfalse
    cases hfalse

/-! ## The loop -/

/-- What holds of every reachable state. -/
theorem invariants_of_reachable (hs : (machine streams).Reachable s) :
    Inv streams s ∧ Ordered s := by
  refine hs.invariant (I := fun s => Inv streams s ∧ Ordered s) ⟨?_, ?_⟩ ?_
  · exact {
      rfdset_open := fun _ hmem => absurd hmem (Finset.notMem_empty _)
      delivered := fun _ => rfl
      merged := .nil
      closed_iff := fun _ => iff_of_false Bool.false_ne_true List.not_mem_nil
      at_end := fun _ hclose => absurd hclose Bool.false_ne_true }
  · exact {
      idle := rfl
      inOrder := fun _ hp => absurd hp List.not_mem_nil
      endsBefore := .nil
      ended := fun hended => absurd hended Bool.false_ne_true }
  · rintro s l s' ⟨hinv, ho⟩ - hstep
    rcases step_eq_some hstep with ⟨ready, readn, h, rfl⟩ | ⟨-, hclosed, rfl⟩
    · exact ⟨hinv.pass h, ho.pass hinv h⟩
    · exact ⟨{ hinv with }, { ho with ended := fun _ => hclosed }⟩

theorem Inv.bothClosed_iff (h : Inv streams s) : s.bothClosed = true ↔ ∀ fd, s.AtEof fd :=
  Relay.bothClosed_iff.trans (forall_congr' h.closed_iff)

/-- A step leaves the loop exactly when both sides have come to their end. -/
theorem ended_iff_of_step (hinv : Inv streams s) {l : Label} (hstep : step s l = some s') :
    s'.ended = true ↔ ∀ fd, s.AtEof fd := by
  rw [← hinv.bothClosed_iff]
  rcases step_eq_some hstep with ⟨ready, readn, h, rfl⟩ | ⟨-, hclosed, rfl⟩
  · rw [ended_pass, h.ended, h.bothClosed]
  · exact iff_of_true rfl hclosed

theorem mem_fdSets_of_open (h : s.close fd = false) : fd ∈ s.fdSets := by
  rw [State.fdSets]
  cases fd with
  | connfd =>
    rw [h, if_neg Bool.false_ne_true]
    split
    · exact Finset.mem_insert_self _ _
    · exact Finset.mem_insert_of_mem (Finset.mem_insert_self _ _)
  | prior_connfd =>
    rw [h, if_neg Bool.false_ne_true]
    exact Finset.mem_insert_self _ _

/-- The server is stuck only behind the loop. -/
theorem ended_of_stuck (hstuck : (machine streams).Stuck s) : s.ended = true := by
  by_contra hended
  rw [Bool.not_eq_true] at hended
  by_cases hclosed : s.bothClosed = true
  · have hleave : step s .leave = some { s with ended := true } := if_pos ⟨hended, hclosed⟩
    rw [show step s .leave = none from hstuck .leave] at hleave
    cases hleave
  · -- a side that is open gets ready at some time
    have hopen : ∃ fd, s.close fd = false := by
      by_contra hall
      exact hclosed (bothClosed_iff.2 fun fd => by
        rw [← Bool.not_eq_false]
        exact fun h => hall ⟨fd, h⟩)
    rcases hopen with ⟨fd, hfd⟩
    have hdelivers : Delivers (s.incoming fd) (min 1 (s.incoming fd).length) := by
      cases s.incoming fd with
      | nil => exact ⟨by decide, le_rfl, iff_of_true rfl rfl⟩
      | cons b bs => exact ⟨by simp [MAXLINE], by simp, by simp⟩
    have hpass : step s (.pass {fd} fun fd => min 1 (s.incoming fd).length) =
        some (s.pass {fd} fun fd => min 1 (s.incoming fd).length) := by
      apply if_pos
      refine ⟨hended, Bool.eq_false_of_not_eq_true hclosed, Finset.singleton_nonempty fd, ?_, ?_⟩
      · exact Finset.singleton_subset_iff.2 (mem_fdSets_of_open hfd)
      · intro fd' hmem
        rw [Finset.mem_singleton.1 hmem]
        exact hdelivers
    rw [show step s _ = none from hstuck _] at hpass
    cases hpass

/-- The reads that a side has left. -/
def State.leftOf (s : State) (fd : Fd) : ℕ :=
  (s.incoming fd).length + if s.close fd then 0 else 1

/-- The steps that are left, at most. -/
def State.left (s : State) : ℕ :=
  s.leftOf .connfd + s.leftOf .prior_connfd + if s.ended then 0 else 1

theorem leftOf_branch_self (hd : Delivers (s.incoming fd) n) (hopen : s.close fd = false) :
    (s.branch fd n).leftOf fd < s.leftOf fd := by
  rw [State.leftOf, State.leftOf, branch_eq hd.2.1, hopen]
  by_cases hn : n = 0
  · simp [hn]
  · have hlen := hd.2.1
    simp only [Function.update_self, List.length_drop, hn, if_false, hopen]
    simp only [Bool.false_eq_true, if_false]
    omega

theorem leftOf_branch_other (hd : Delivers (s.incoming fd) n) (hne : fd' ≠ fd) :
    (s.branch fd n).leftOf fd' = s.leftOf fd' := by
  rw [State.leftOf, State.leftOf, branch_eq hd.2.1]
  by_cases hn : n = 0 <;> simp [hn, hne]

theorem leftOf_serve_self (s : State) (fd : Fd) (hd : fd ∈ s.rfdset → Delivers (s.incoming fd) n)
    (hopen : fd ∈ s.rfdset → s.close fd = false) :
    (s.serve fd n).leftOf fd + (if fd ∈ s.rfdset then 1 else 0) ≤ s.leftOf fd := by
  rw [State.serve]
  split
  case isTrue hmem => exact leftOf_branch_self (hd hmem) (hopen hmem)
  case isFalse => exact le_rfl

theorem leftOf_serve_other (s : State) (fd fd' : Fd)
    (hd : fd ∈ s.rfdset → Delivers (s.incoming fd) n) (hne : fd' ≠ fd) :
    (s.serve fd n).leftOf fd' = s.leftOf fd' := by
  rw [State.serve]
  split
  case isTrue hmem => exact leftOf_branch_other (hd hmem) hne
  case isFalse => rfl

/-- Every pass reads of some side. -/
theorem left_pass (hinv : Inv streams s) (h : Passes s ready readn) :
    (s.pass ready readn).left < s.left := by
  have hmid : Inv streams (s.mid ready readn) :=
    (hinv.select h.subset).serve fun hmem => h.delivers _ hmem
  have hp := leftOf_serve_self { s with rfdset := ready } .prior_connfd
    (fun hmem => h.delivers _ hmem) fun hmem => hinv.close_of_mem_fdSets (h.subset hmem)
  have hp' := leftOf_serve_other { s with rfdset := ready } .prior_connfd .connfd
    (fun hmem => h.delivers _ hmem) (by decide)
  have hc := leftOf_serve_self (s.mid ready readn) .connfd (mid_delivers h)
    fun hmem => hmid.rfdset_open _ hmem
  have hc' := leftOf_serve_other (s.mid ready readn) .connfd .prior_connfd (mid_delivers h)
    (by decide)
  have hended : (s.pass ready readn).ended = s.ended := ended_pass
  have hsome : 1 ≤ (if Fd.prior_connfd ∈ ready then 1 else 0) +
      if Fd.connfd ∈ (s.mid ready readn).rfdset then 1 else 0 := by
    rw [if_congr (mid_connfd h).1 rfl rfl]
    rcases h.nonempty with ⟨fd, hfd⟩
    cases fd with
    | connfd => rw [if_pos hfd]; exact Nat.le_add_left 1 _
    | prior_connfd => rw [if_pos hfd]; exact Nat.le_add_right 1 _
  have hbefore : ∀ fd, State.leftOf { s with rfdset := ready } fd = s.leftOf fd := fun _ => rfl
  have hafter : ∀ fd, (s.pass ready readn).leftOf fd =
      ((s.mid ready readn).serve .connfd (readn .connfd)).leftOf fd := fun _ => rfl
  rw [hbefore] at hp hp'
  simp only [State.mid] at hp hp' hc hc' hsome hafter
  rw [State.left, State.left, hended, hafter, hafter]
  omega

/-- A run makes at most as many steps as there are bytes and ends to read, and one more. -/
theorem length_le_of_run (hs : (machine streams).Reachable s) (ls : List Label)
    (hrun : (machine streams).run s ls = some s') : ls.length ≤ s.left := by
  have hlen := Machine.Reachable.length_le (μ := State.left) (M := machine streams) (by
    intro s l s' hs hstep
    rcases step_eq_some hstep with ⟨ready, readn, h, rfl⟩ | ⟨hended, -, rfl⟩
    · exact left_pass (invariants_of_reachable hs).1 h
    · rw [State.left, State.left, hended]
      exact Nat.lt_succ_self _) hs ls hrun
  omega

theorem Inv.left_le (h : Inv streams s) :
    s.left ≤ (streams .connfd).length + (streams .prior_connfd).length + 3 := by
  have hc := congrArg List.length (h.delivered .connfd)
  have hp := congrArg List.length (h.delivered .prior_connfd)
  rw [List.length_append] at hc hp
  rw [State.left, State.leftOf, State.leftOf]
  split_ifs <;> omega

/-- **The relay**: whatever arrives on either side and in whatever pieces it is read, the standard
output is a merge of what was read, nothing else was read than the peers have sent, a side is not
looked at behind its end, the priority side goes first, and the loop is left in the step behind the
ends of both sides and not before; the standard output is then a merge of the two streams. -/
theorem relay (hs : (machine streams).Reachable s) :
    (∀ fd, s.received fd ++ s.incoming fd = streams fd) ∧
      Merge (s.received .connfd) (s.received .prior_connfd) s.stdout ∧
      s.passes.Pairwise Pass.EndsBefore ∧
      (∀ p ∈ s.passes, p.InOrder) ∧
      (∀ l s', step s l = some s' → (s'.ended = true ↔ ∀ fd, s.AtEof fd)) ∧
      (s.ended = true → (∀ fd, s.AtEof fd) ∧
        Merge (streams .connfd) (streams .prior_connfd) s.stdout) ∧
      ((machine streams).Stuck s → s.ended = true) ∧
      ∀ ls s', (machine streams).run s ls = some s' →
        ls.length ≤ (streams .connfd).length + (streams .prior_connfd).length + 3 := by
  rcases invariants_of_reachable hs with ⟨hinv, ho⟩
  refine ⟨hinv.delivered, hinv.merged, ho.endsBefore, ho.inOrder,
    fun l s' hstep => ended_iff_of_step hinv hstep, ?_, ended_of_stuck, ?_⟩
  · intro hended
    have hclosed := ho.ended hended
    have hall : ∀ fd, s.received fd = streams fd := by
      intro fd
      rw [← hinv.delivered fd, hinv.at_end fd (bothClosed_iff.1 hclosed fd), List.append_nil]
    refine ⟨hinv.bothClosed_iff.1 hclosed, ?_⟩
    rw [← hall, ← hall]
    exact hinv.merged
  · intro ls s' hrun
    exact (length_le_of_run hs ls hrun).trans hinv.left_le

/-- Both sides are ready in the first pass, and the priority side comes to its end in the
second. -/
theorem relay_both_ready :
    ∃ s, (machine fun fd => if fd = .connfd then [1, 2] else [3]).Reachable s ∧
      s.stdout = [3, 1, 2] ∧ s.passes.Pairwise Pass.EndsBefore ∧ ∀ p ∈ s.passes, p.InOrder := by
  rcases show ∃ s, (machine fun fd => if fd = .connfd then [1, 2] else [3]).run
      (start fun fd => if fd = .connfd then [1, 2] else [3])
      [.pass {.connfd, .prior_connfd} fun _ => 1,
        .pass {.connfd, .prior_connfd} fun fd => if fd = .connfd then 1 else 0] = some s ∧
      s.stdout = [3, 1, 2] from ⟨_, rfl, rfl⟩ with ⟨s, hrun, hstdout⟩
  have hs := Machine.Reachable.run .init _ hrun
  exact ⟨s, hs, hstdout, (relay hs).2.2.1, (relay hs).2.2.2.1⟩

end TlpiLearn.Relay
