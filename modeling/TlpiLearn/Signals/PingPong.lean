import TlpiLearn.Foundations.Machine
import Mathlib.Data.Bool.Basic
import Mathlib.Tactic

/-!
# Signals that two processes send each other

`22_3.c`: parent and child send each other `TESTSIG` in turn, `numSigs` times, and take it with
`sigwaitinfo`. The signal does not queue: while it is pending at a process, another one sent to
that process is merged into it. No handler is installed, so `sigwaitinfo` returns only with a
signal.

Each process sends only after it has taken what the other sent before, so that at most one signal
is on its way between the two (`Balanced`): what one has sent the other has received, up to the
signal that is pending there.
-/

namespace TlpiLearn.PingPong

/-- The statement of a process that comes next. -/
inductive Pc
  /-- The loop test `scnt < numSigs`. -/
  | test
  | kill
  | sigwaitinfo
  /-- `exit(EXIT_SUCCESS)`. -/
  | exited
  /-- `errExit("kill")`. -/
  | failed
  /-- Ended by the default action of the signal. -/
  | terminated
  deriving DecidableEq, Repr

/-- One of the two processes. -/
structure Process where
  pc : Pc
  /-- Whether `TESTSIG` is in the signal mask. -/
  blocked : Bool
  /-- Whether `TESTSIG` is pending. -/
  pending : Bool
  scnt : ℕ
  /-- The signals that it has sent. -/
  sent : ℕ
  /-- The signals that `sigwaitinfo` has taken. -/
  received : ℕ
  deriving DecidableEq, Repr

/-- The process exists no more, or only as a zombie. -/
def Process.Ended (p : Process) : Prop := p.pc = .exited ∨ p.pc = .failed ∨ p.pc = .terminated

instance (p : Process) : Decidable p.Ended := inferInstanceAs (Decidable (_ ∨ _ ∨ _))

/-- `TESTSIG` arrives at a process. -/
def Process.deliver (p : Process) : Process :=
  if p.Ended then p
  else if p.blocked then { p with pending := true }
  else { p with pc := .terminated }

structure State where
  parent : Process
  child : Process
  deriving DecidableEq, Repr

/-- `sigprocmask(SIG_SETMASK, &blockedMask, NULL)`. -/
def sigprocmask (p : Process) : Process := { p with blocked := true }

/-- The child starts with the signal mask of its parent and without its pending signals. -/
def fork (p : Process) : State where
  parent := p
  child := { p with pending := false }

/-- `main` up to the loops. -/
def start : State :=
  fork (sigprocmask
    { pc := .test, blocked := false, pending := false, scnt := 0, sent := 0, received := 0 })

/-- Who moves. -/
inductive Party
  | parent | child
  deriving DecidableEq, Repr

/-- The loop of the child, which sends first. -/
def childStep (numSigs : ℕ) (s : State) : Option State :=
  match s.child.pc with
  | .test =>
    some
      { s with child := { s.child with pc := if s.child.scnt < numSigs then .kill else .exited } }
  | .kill =>
    -- `getppid()` does not name the parent once it has ended
    if s.parent.Ended then some { s with child := { s.child with pc := .failed } }
    else some {
      parent := s.parent.deliver
      child := { s.child with pc := .sigwaitinfo, sent := s.child.sent + 1 } }
  | .sigwaitinfo =>
    if s.child.pending then
      some { s with child :=
        { s.child with
          pc := .test
          pending := false
          scnt := s.child.scnt + 1
          received := s.child.received + 1 } }
    else none
  | .exited | .failed | .terminated => none

/-- The loop of the parent, which waits first. -/
def parentStep (numSigs : ℕ) (s : State) : Option State :=
  match s.parent.pc with
  | .test =>
    some { s with parent :=
      { s.parent with pc := if s.parent.scnt < numSigs then .sigwaitinfo else .exited } }
  | .sigwaitinfo =>
    if s.parent.pending then
      some { s with parent :=
        { s.parent with pc := .kill, pending := false, received := s.parent.received + 1 } }
    else none
  | .kill =>
    some {
      parent :=
        { s.parent with pc := .test, scnt := s.parent.scnt + 1, sent := s.parent.sent + 1 }
      child := s.child.deliver }
  | .exited | .failed | .terminated => none

/-- The two processes in any order. -/
def machine (numSigs : ℕ) : Machine State Party where
  init := start
  step s
    | .parent => parentStep numSigs s
    | .child => childStep numSigs s

/-! ## The invariant -/

/-- What the child has sent and received at each statement. -/
def ChildAt (numSigs : ℕ) (p : Process) : Prop :=
  match p.pc with
  | .test => p.scnt ≤ numSigs ∧ p.sent = p.scnt ∧ p.received = p.scnt
  | .kill => p.scnt < numSigs ∧ p.sent = p.scnt ∧ p.received = p.scnt
  | .sigwaitinfo => p.scnt < numSigs ∧ p.sent = p.scnt + 1 ∧ p.received = p.scnt
  | .exited => p.scnt = numSigs ∧ p.sent = numSigs ∧ p.received = numSigs
  | .failed | .terminated => False

/-- What the parent has sent and received at each statement. -/
def ParentAt (numSigs : ℕ) (p : Process) : Prop :=
  match p.pc with
  | .test => p.scnt ≤ numSigs ∧ p.sent = p.scnt ∧ p.received = p.scnt
  | .sigwaitinfo => p.scnt < numSigs ∧ p.sent = p.scnt ∧ p.received = p.scnt
  | .kill => p.scnt < numSigs ∧ p.sent = p.scnt ∧ p.received = p.scnt + 1
  | .exited => p.scnt = numSigs ∧ p.sent = numSigs ∧ p.received = numSigs
  | .failed | .terminated => False

/-- No signal has been merged: what one has sent the other has received, or it is pending. -/
structure Balanced (numSigs : ℕ) (s : State) : Prop where
  child : ChildAt numSigs s.child
  parent : ParentAt numSigs s.parent
  childBlocked : s.child.blocked = true
  parentBlocked : s.parent.blocked = true
  toParent : s.child.sent = s.parent.received + s.parent.pending.toNat
  toChild : s.parent.sent = s.child.received + s.child.pending.toNat

variable {numSigs : ℕ} {s s' : State}

theorem ChildAt.sent_le (h : ChildAt numSigs s.child) :
    s.child.sent ≤ s.child.received + 1 ∧ s.child.received ≤ s.child.sent := by
  unfold ChildAt at h
  split at h <;> first | omega | exact h.elim

theorem ParentAt.received_le (h : ParentAt numSigs s.parent) :
    s.parent.received ≤ s.parent.sent + 1 ∧ s.parent.sent ≤ s.parent.received := by
  unfold ParentAt at h
  split at h <;> first | omega | exact h.elim

/-- The child sends only when the parent has taken everything. -/
theorem Balanced.parent_not_pending (h : Balanced numSigs s) (hpc : s.child.pc = .kill) :
    s.parent.pending = false := by
  have hchild := h.child
  rw [ChildAt, hpc] at hchild
  have hparent := h.parent.received_le
  have hto := h.toParent
  have hfrom := h.toChild
  cases hp : s.parent.pending with
  | false => rfl
  | true =>
    rw [hp, Bool.toNat_true] at hto
    omega

/-- The parent sends only when the child has taken everything. -/
theorem Balanced.child_not_pending (h : Balanced numSigs s) (hpc : s.parent.pc = .kill) :
    s.child.pending = false := by
  have hparent := h.parent
  rw [ParentAt, hpc] at hparent
  have hchild := h.child.sent_le
  have hto := h.toParent
  have hfrom := h.toChild
  cases hp : s.child.pending with
  | false => rfl
  | true =>
    rw [hp, Bool.toNat_true] at hfrom
    omega

/-- An ended process has done all its exchanges. -/
theorem ParentAt.of_ended (h : ParentAt numSigs s.parent) (he : s.parent.Ended) :
    s.parent.pc = .exited ∧ s.parent.sent = numSigs := by
  rcases he with hpc | hpc | hpc <;> rw [ParentAt, hpc] at h
  · exact ⟨hpc, h.2.1⟩
  · exact h.elim
  · exact h.elim

theorem ChildAt.of_ended (h : ChildAt numSigs s.child) (he : s.child.Ended) :
    s.child.pc = .exited ∧ s.child.received = numSigs := by
  rcases he with hpc | hpc | hpc <;> rw [ChildAt, hpc] at h
  · exact ⟨hpc, h.2.2⟩
  · exact h.elim
  · exact h.elim

/-- The child never sends to a parent that has gone. -/
theorem Balanced.parent_not_ended (h : Balanced numSigs s) (hpc : s.child.pc = .kill) :
    ¬ s.parent.Ended := by
  intro he
  have hsent := (h.parent.of_ended he).2
  have hchild := h.child
  rw [ChildAt, hpc] at hchild
  have hfrom := h.toChild
  cases hp : s.child.pending with
  | false => rw [hp, Bool.toNat_false] at hfrom; omega
  | true =>
    have hparent := h.parent.received_le
    have hto := h.toParent
    rw [hp, Bool.toNat_true] at hfrom
    omega

theorem Balanced.child_not_ended (h : Balanced numSigs s) (hpc : s.parent.pc = .kill) :
    ¬ s.child.Ended := by
  intro he
  have hreceived := (h.child.of_ended he).2
  have hparent := h.parent
  rw [ParentAt, hpc] at hparent
  have hfrom := h.toChild
  omega

theorem Process.deliver_of_blocked {p : Process} (hb : p.blocked = true) (he : ¬ p.Ended) :
    p.deliver = { p with pending := true } := by
  rw [deliver, if_neg he, if_pos hb]

/-! ## The steps -/

theorem Balanced.child_step (h : Balanced numSigs s) (hs : childStep numSigs s = some s') :
    Balanced numSigs s' := by
  have hchild := h.child
  unfold childStep at hs
  split at hs
  case h_1 hpc =>
    rw [ChildAt, hpc] at hchild
    obtain rfl := Option.some.inj hs
    refine { h with child := ?_ }
    unfold ChildAt
    split_ifs <;> simp only <;> omega
  case h_2 hpc =>
    rw [ChildAt, hpc] at hchild
    have hpending := h.parent_not_pending hpc
    have hto := h.toParent
    rw [if_neg (h.parent_not_ended hpc),
      Process.deliver_of_blocked h.parentBlocked (h.parent_not_ended hpc)] at hs
    obtain rfl := Option.some.inj hs
    rw [hpending, Bool.toNat_false] at hto
    exact {
      child := ⟨hchild.1, congrArg (· + 1) hchild.2.1, hchild.2.2⟩
      parent := h.parent
      childBlocked := h.childBlocked
      parentBlocked := h.parentBlocked
      toParent := congrArg (· + 1) hto
      toChild := h.toChild }
  case h_3 hpc =>
    rw [ChildAt, hpc] at hchild
    have hfrom := h.toChild
    split at hs
    case isTrue hpending =>
      obtain rfl := Option.some.inj hs
      rw [hpending, Bool.toNat_true] at hfrom
      exact {
        child := ⟨hchild.1, hchild.2.1, congrArg (· + 1) hchild.2.2⟩
        parent := h.parent
        childBlocked := h.childBlocked
        parentBlocked := h.parentBlocked
        toParent := h.toParent
        toChild := hfrom }
    case isFalse => cases hs
  all_goals cases hs

theorem Balanced.parent_step (h : Balanced numSigs s) (hs : parentStep numSigs s = some s') :
    Balanced numSigs s' := by
  have hparent := h.parent
  unfold parentStep at hs
  split at hs
  case h_1 hpc =>
    rw [ParentAt, hpc] at hparent
    obtain rfl := Option.some.inj hs
    refine { h with parent := ?_ }
    unfold ParentAt
    split_ifs <;> simp only <;> omega
  case h_2 hpc =>
    rw [ParentAt, hpc] at hparent
    have hto := h.toParent
    split at hs
    case isTrue hpending =>
      obtain rfl := Option.some.inj hs
      rw [hpending, Bool.toNat_true] at hto
      exact {
        child := h.child
        parent := ⟨hparent.1, hparent.2.1, congrArg (· + 1) hparent.2.2⟩
        childBlocked := h.childBlocked
        parentBlocked := h.parentBlocked
        toParent := hto
        toChild := h.toChild }
    case isFalse => cases hs
  case h_3 hpc =>
    rw [ParentAt, hpc] at hparent
    have hpending := h.child_not_pending hpc
    have hfrom := h.toChild
    rw [Process.deliver_of_blocked h.childBlocked (h.child_not_ended hpc)] at hs
    obtain rfl := Option.some.inj hs
    rw [hpending, Bool.toNat_false] at hfrom
    exact {
      child := h.child
      parent := ⟨hparent.1, congrArg (· + 1) hparent.2.1, hparent.2.2⟩
      childBlocked := h.childBlocked
      parentBlocked := h.parentBlocked
      toParent := h.toParent
      toChild := congrArg (· + 1) hfrom }
  all_goals cases hs

theorem balanced_start : Balanced numSigs start where
  child := ⟨Nat.zero_le _, rfl, rfl⟩
  parent := ⟨Nat.zero_le _, rfl, rfl⟩
  childBlocked := rfl
  parentBlocked := rfl
  toParent := rfl
  toChild := rfl

/-- **No signal is ever merged.** -/
theorem balanced_of_reachable (hs : (machine numSigs).Reachable s) : Balanced numSigs s := by
  apply hs.invariant balanced_start
  intro s p s' h _ hstep
  cases p with
  | parent => exact h.parent_step hstep
  | child => exact h.child_step hstep

/-! ## Progress -/

/-- A process that has done its exchanges. -/
structure Completed (numSigs : ℕ) (p : Process) : Prop where
  pc : p.pc = .exited
  scnt : p.scnt = numSigs
  sent : p.sent = numSigs
  received : p.received = numSigs

/-- Both wait, and there is nothing to take. -/
def Hung (s : State) : Prop :=
  (s.parent.pc = .sigwaitinfo ∧ s.parent.pending = false) ∧
    s.child.pc = .sigwaitinfo ∧ s.child.pending = false

theorem Balanced.not_hung (h : Balanced numSigs s) : ¬ Hung s := by
  rintro ⟨⟨hparent, hpending⟩, hchild, hpending'⟩
  have hp := h.parent
  have hc := h.child
  have hto := h.toParent
  have hfrom := h.toChild
  rw [ParentAt, hparent] at hp
  rw [ChildAt, hchild] at hc
  rw [hpending, Bool.toNat_false] at hto
  rw [hpending', Bool.toNat_false] at hfrom
  omega

/-- The child is done, or it waits for a signal that is not there. -/
theorem Balanced.child_of_stuck (h : Balanced numSigs s) (hs : childStep numSigs s = none) :
    Completed numSigs s.child ∨ (s.child.pc = .sigwaitinfo ∧ s.child.pending = false) := by
  have hchild := h.child
  unfold childStep at hs
  split at hs
  case h_1 => cases hs
  case h_2 => split at hs <;> cases hs
  case h_3 hpc =>
    split at hs
    case isTrue => cases hs
    case isFalse hpending => exact .inr ⟨hpc, Bool.not_eq_true _ ▸ hpending⟩
  case h_4 hpc =>
    rw [ChildAt, hpc] at hchild
    exact .inl ⟨hpc, hchild.1, hchild.2.1, hchild.2.2⟩
  all_goals
    rename_i hpc
    rw [ChildAt, hpc] at hchild
    exact hchild.elim

theorem Balanced.parent_of_stuck (h : Balanced numSigs s) (hs : parentStep numSigs s = none) :
    Completed numSigs s.parent ∨ (s.parent.pc = .sigwaitinfo ∧ s.parent.pending = false) := by
  have hparent := h.parent
  unfold parentStep at hs
  split at hs
  case h_1 => cases hs
  case h_2 hpc =>
    split at hs
    case isTrue => cases hs
    case isFalse hpending => exact .inr ⟨hpc, Bool.not_eq_true _ ▸ hpending⟩
  case h_3 => cases hs
  case h_4 hpc =>
    rw [ParentAt, hpc] at hparent
    exact .inl ⟨hpc, hparent.1, hparent.2.1, hparent.2.2⟩
  all_goals
    rename_i hpc
    rw [ParentAt, hpc] at hparent
    exact hparent.elim

/-- Where nobody can move, both loops have come to their end. -/
theorem Balanced.completed_of_stuck (h : Balanced numSigs s) (hs : (machine numSigs).Stuck s) :
    Completed numSigs s.parent ∧ Completed numSigs s.child := by
  have hto := h.toParent
  have hfrom := h.toChild
  rcases h.parent_of_stuck (hs .parent) with hp | ⟨hp, hpending⟩ <;>
    rcases h.child_of_stuck (hs .child) with hc | ⟨hc, hpending'⟩
  · exact ⟨hp, hc⟩
  · -- the parent has sent everything, so the child has one more to take
    have hchild := h.child
    have hsent := hp.sent
    rw [ChildAt, hc] at hchild
    rw [hpending', Bool.toNat_false] at hfrom
    omega
  · have hparent := h.parent
    have hreceived := hc.received
    rw [ParentAt, hp] at hparent
    omega
  · exact (h.not_hung ⟨⟨hp, hpending⟩, hc, hpending'⟩).elim

/-- The steps that a process has left. -/
def Process.left (numSigs : ℕ) (p : Process) : ℕ :=
  (numSigs - p.sent) + (numSigs - p.received) + (numSigs - p.scnt) +
    if p.pc = .test then 1 else 0

/-- The steps that are left. -/
def State.left (numSigs : ℕ) (s : State) : ℕ := s.parent.left numSigs + s.child.left numSigs

theorem Process.left_le (p : Process) : p.left numSigs ≤ 3 * numSigs + 1 := by
  rw [left]
  split_ifs <;> omega

theorem State.left_le (s : State) : s.left numSigs ≤ 6 * numSigs + 2 := by
  have hparent : s.parent.left numSigs ≤ 3 * numSigs + 1 := s.parent.left_le
  have hchild : s.child.left numSigs ≤ 3 * numSigs + 1 := s.child.left_le
  rw [State.left]
  omega

theorem State.left_mk (p c : Process) :
    State.left numSigs ⟨p, c⟩ = p.left numSigs + c.left numSigs := rfl

theorem Process.left_deliver {p : Process} (hb : p.blocked = true) (he : ¬ p.Ended) :
    p.deliver.left numSigs = p.left numSigs := by
  rw [deliver_of_blocked hb he, left, left]

/-- The loop test is one of the steps. -/
theorem Process.left_test {p : Process} (hpc : p.pc = .test) {pc : Pc} (hne : pc ≠ .test) :
    Process.left numSigs { p with pc := pc } + 1 = p.left numSigs := by
  rw [left, left, hpc, if_neg hne, if_pos rfl]

theorem Balanced.left_child (h : Balanced numSigs s) (hs : childStep numSigs s = some s') :
    s'.left numSigs + 1 = s.left numSigs := by
  have hchild := h.child
  unfold childStep at hs
  split at hs
  case h_1 hpc =>
    obtain rfl := Option.some.inj hs
    have hne : (if s.child.scnt < numSigs then Pc.kill else .exited) ≠ .test := by
      split_ifs <;> exact nofun
    rw [State.left_mk, Nat.add_assoc, Process.left_test hpc hne, State.left]
  case h_2 hpc =>
    rw [ChildAt, hpc] at hchild
    rw [if_neg (h.parent_not_ended hpc)] at hs
    obtain rfl := Option.some.inj hs
    have hleft : Process.left numSigs
        { s.child with pc := .sigwaitinfo, sent := s.child.sent + 1 } + 1 =
          s.child.left numSigs := by
      simp only [Process.left, hpc, reduceCtorEq, if_false]
      omega
    rw [State.left_mk, Process.left_deliver h.parentBlocked (h.parent_not_ended hpc),
      Nat.add_assoc, hleft, State.left]
  case h_3 hpc =>
    rw [ChildAt, hpc] at hchild
    split at hs
    case isTrue hpending =>
      obtain rfl := Option.some.inj hs
      have hleft : Process.left numSigs
          { s.child with
            pc := .test
            pending := false
            scnt := s.child.scnt + 1
            received := s.child.received + 1 } + 1 = s.child.left numSigs := by
        simp only [Process.left, hpc, reduceCtorEq, if_false, if_true]
        omega
      rw [State.left_mk, Nat.add_assoc, hleft, State.left]
    case isFalse => cases hs
  all_goals cases hs

theorem Balanced.left_parent (h : Balanced numSigs s) (hs : parentStep numSigs s = some s') :
    s'.left numSigs + 1 = s.left numSigs := by
  have hparent := h.parent
  unfold parentStep at hs
  split at hs
  case h_1 hpc =>
    obtain rfl := Option.some.inj hs
    have hne : (if s.parent.scnt < numSigs then Pc.sigwaitinfo else .exited) ≠ .test := by
      split_ifs <;> exact nofun
    rw [State.left_mk, Nat.add_right_comm, Process.left_test hpc hne, State.left]
  case h_2 hpc =>
    rw [ParentAt, hpc] at hparent
    split at hs
    case isTrue hpending =>
      obtain rfl := Option.some.inj hs
      have hleft : Process.left numSigs
          { s.parent with pc := .kill, pending := false, received := s.parent.received + 1 } + 1 =
            s.parent.left numSigs := by
        simp only [Process.left, hpc, reduceCtorEq, if_false]
        omega
      rw [State.left_mk, Nat.add_right_comm, hleft, State.left]
    case isFalse => cases hs
  case h_3 hpc =>
    rw [ParentAt, hpc] at hparent
    obtain rfl := Option.some.inj hs
    have hleft : Process.left numSigs
        { s.parent with pc := .test, scnt := s.parent.scnt + 1, sent := s.parent.sent + 1 } + 1 =
          s.parent.left numSigs := by
      simp only [Process.left, hpc, reduceCtorEq, if_false, if_true]
      omega
    rw [State.left_mk, Process.left_deliver h.childBlocked (h.child_not_ended hpc),
      Nat.add_right_comm, hleft, State.left]
  all_goals cases hs

/-- Every run can be continued to `6 * numSigs + 2` steps, and no further. -/
theorem left_of_run (hs : (machine numSigs).Reachable s) (ls : List Party)
    (hrun : (machine numSigs).run s ls = some s') :
    ls.length + s'.left numSigs ≤ s.left numSigs := by
  apply Machine.Reachable.length_le (μ := State.left numSigs) _ hs ls hrun
  intro s p s' hs hstep
  have h := balanced_of_reachable hs
  cases p with
  | parent => have := h.left_parent hstep; omega
  | child => have := h.left_child hstep; omega

/-- **The exchange**: whatever the order of the two processes, a signal is never sent while one is
pending at the receiver, the two never wait for each other, and they come to an end after exactly
`numSigs` exchanges. -/
theorem exchanges (hs : (machine numSigs).Reachable s) :
    (s.child.pc = .kill → s.parent.pending = false) ∧
      (s.parent.pc = .kill → s.child.pending = false) ∧
      (s.child.sent = s.parent.received + s.parent.pending.toNat ∧
        s.parent.sent = s.child.received + s.child.pending.toNat) ∧
      ¬ Hung s ∧
      ((machine numSigs).Stuck s → Completed numSigs s.parent ∧ Completed numSigs s.child) ∧
      ∀ ls s', (machine numSigs).run s ls = some s' → ls.length ≤ 6 * numSigs + 2 := by
  have h := balanced_of_reachable hs
  refine ⟨h.parent_not_pending, h.child_not_pending, ⟨h.toParent, h.toChild⟩, h.not_hung,
    h.completed_of_stuck, ?_⟩
  intro ls s' hrun
  have hlen := left_of_run hs ls hrun
  exact (Nat.le_of_add_right_le hlen).trans s.left_le

/-- With two exchanges, after the first of them: the parent has answered, and the child has not
taken the answer yet. -/
theorem exchanges_two :
    let s : State := {
      parent := ⟨.test, true, false, 1, 1, 1⟩
      child := ⟨.sigwaitinfo, true, true, 0, 1, 0⟩ }
    (machine 2).Reachable s ∧ ¬ Hung s ∧ ¬ (machine 2).Stuck s := by
  have hs : (machine 2).Reachable
      { parent := ⟨.test, true, false, 1, 1, 1⟩, child := ⟨.sigwaitinfo, true, true, 0, 1, 0⟩ } :=
    .run .init [.child, .parent, .child, .parent, .parent] rfl
  refine ⟨hs, (exchanges hs).2.2.2.1, fun hstuck => ?_⟩
  have hpc := ((exchanges hs).2.2.2.2.1 hstuck).1.pc
  cases hpc

end TlpiLearn.PingPong
