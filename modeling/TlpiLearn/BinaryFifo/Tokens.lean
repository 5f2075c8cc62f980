import TlpiLearn.BinaryFifo.Fifo
import Mathlib.Algebra.BigOperators.Group.Finset.Basic
import Mathlib.Tactic

/-!
# The tokens of the FIFO

A token that has been released is in the FIFO, or in the hands of a `reserveNB` that has read it
and not returned yet, or it has been granted. The books balance as long as no `reserveNB` reads the
end of file (`granted_le_released`): `reserve` checks that `read` returned 1, but `reserveNB` only
that it did not return -1, and a FIFO without a writer then grants without end
(`eof_grants_token`).
-/

namespace TlpiLearn.BinaryFifo

variable {ι : Type*}

/-- The calls of `reserve` and `reserveNB` that have returned 0. -/
def State.granted (s : State ι) : ℕ :=
  s.returned.countP fun r => decide (r.1 ≠ .release) && decide (r.2 = .zero)

/-- The calls of `release` that have returned 0. -/
def State.released (s : State ι) : ℕ :=
  s.returned.countP fun r => decide (r.1 = .release) && decide (r.2 = .zero)

/-- The calls of `reserveNB` that will return 0, at a process. -/
def Pc.pending : Pc → ℕ
  | .getBlock n | .setBlock n _ => if reserveNBResult n = .zero then 1 else 0
  | _ => 0

/-- The calls of `reserveNB` that will return 0. -/
def State.pending (s : State ι) : ℕ := ∑ q ∈ s.procs, (s.pc q).pending

/-- No `reserveNB` reads an empty FIFO that nobody can write to. -/
def NoEof (s : State ι) : Label ι → Prop
  | .sysCall p => s.pc p = .readNonblock → p ∈ s.rfd → s.tokens = 0 → s.wfd ≠ ∅
  | _ => True

/-- The books balance. -/
structure Conserved (s : State ι) : Prop where
  outside : ∀ q, q ∉ s.procs → s.pc q = .idle
  balance : s.granted + s.pending + s.tokens = s.released

variable [DecidableEq ι]

instance (s : State ι) : ∀ l, Decidable (NoEof s l)
  | .sysCall p =>
    inferInstanceAs (Decidable (s.pc p = .readNonblock → p ∈ s.rfd → s.tokens = 0 → s.wfd ≠ ∅))
  | .fork _ _ | .closeRead _ | .closeWrite _ | .call _ _ | .interrupt _ => isTrue trivial

variable {s s' : State ι} {p : ι}

/-! ## The counts -/

theorem granted_ret (c : Call) (r : Result) :
    (s.ret p c r).granted = s.granted + if c ≠ .release ∧ r = .zero then 1 else 0 := by
  simp [State.granted, State.ret, List.countP_append, List.countP_singleton]

theorem released_ret (c : Call) (r : Result) :
    (s.ret p c r).released = s.released + if c = .release ∧ r = .zero then 1 else 0 := by
  simp [State.released, State.ret, List.countP_append, List.countP_singleton]

/-- The count of the pending calls when one process goes on. -/
theorem pending_update (hp : p ∈ s.procs) (c : Pc) :
    (∑ q ∈ s.procs, (Function.update s.pc p c q).pending) + (s.pc p).pending =
      s.pending + c.pending := by
  have hrest : ∑ q ∈ s.procs.erase p, (Function.update s.pc p c q).pending =
      ∑ q ∈ s.procs.erase p, (s.pc q).pending := by
    apply Finset.sum_congr rfl
    intro q hq
    rw [Function.update_of_ne (Finset.ne_of_mem_erase hq)]
  have hnew := Finset.add_sum_erase s.procs (fun q => (Function.update s.pc p c q).pending) hp
  have hold := Finset.add_sum_erase s.procs (fun q => (s.pc q).pending) hp
  simp only [Function.update_self] at hnew
  rw [hrest] at hnew
  rw [State.pending, ← hnew, ← hold]
  omega

/-! ## The steps -/

/-- A step of one process that moves a token, or none. -/
theorem Conserved.move (hs : Conserved s) {c : Pc} (hpc : s'.pc = Function.update s.pc p c)
    (hprocs : s'.procs = s.procs) (hp : s.pc p ≠ .idle ∨ p ∈ s.procs)
    (hbalance : s'.granted + c.pending + s'.tokens + s.released =
      s.granted + (s.pc p).pending + s.tokens + s'.released) : Conserved s' := by
  have hp : p ∈ s.procs := by
    rcases hp with hp | hp
    · by_contra hnot
      exact hp (hs.outside p hnot)
    · exact hp
  constructor
  · intro q hq
    rw [hprocs] at hq
    have hqp : q ≠ p := fun h => hq (h ▸ hp)
    rw [hpc, Function.update_of_ne hqp]
    exact hs.outside q hq
  · have hsum := pending_update hp c
    have hold := hs.balance
    rw [State.pending, hprocs, hpc]
    omega

variable {capacity : ℕ}

/-- A new process has no call in progress. -/
theorem Conserved.fork (hs : Conserved s) {q : ι} (hq : q ∉ s.procs) :
    Conserved { s with
      procs := insert q s.procs
      rfd := if p ∈ s.rfd then insert q s.rfd else s.rfd
      wfd := if p ∈ s.wfd then insert q s.wfd else s.wfd } := by
  constructor
  · intro r hr
    exact hs.outside r fun hmem => hr (Finset.mem_insert_of_mem hmem)
  · have hsum : ∑ r ∈ insert q s.procs, (s.pc r).pending = s.pending := by
      rw [Finset.sum_insert hq, hs.outside q hq]
      exact Nat.zero_add _
    have hold := hs.balance
    rw [← hsum] at hold
    exact hold

/-- The `read` of `reserve` grants the token that it takes. -/
theorem Conserved.reserveRead (hs : Conserved s) (hpc : s.pc p = .reserveRead) {r : ReadResult}
    {t : State ι} (h : s.read p = some (r, t)) :
    Conserved (t.ret p .reserve (reserveResult r)) := by
  have hne : s.pc p ≠ .idle := by rw [hpc]; nofun
  obtain ⟨-, rfl, rfl⟩ | ⟨-, htokens, rfl, rfl⟩ | ⟨-, -, -, rfl, rfl⟩ | ⟨-, -, -, -, rfl, rfl⟩ :=
    read_eq_some h
  all_goals
    refine hs.move rfl rfl (.inl hne) ?_
    rw [granted_ret, released_ret, hpc]
  · rfl
  · simp [reserveResult, State.ret, State.granted, State.released, Pc.pending]
    omega
  · rfl
  · rfl

/-- The `read` of `reserveNB` leaves the token that it takes with the call. -/
theorem Conserved.readNonblock (hs : Conserved s) (hpc : s.pc p = .readNonblock)
    (hok : NoEof s (.sysCall p)) {r : ReadResult} {t : State ι} (h : s.read p = some (r, t)) :
    Conserved (t.goto p (.getBlock r)) := by
  have hne : s.pc p ≠ .idle := by rw [hpc]; nofun
  obtain ⟨-, rfl, rfl⟩ | ⟨-, htokens, rfl, rfl⟩ | ⟨hrfd, htokens, hwfd, -, -⟩ |
    ⟨-, -, -, -, rfl, rfl⟩ := read_eq_some h
  · refine hs.move rfl rfl (.inl hne) ?_
    rw [hpc]
    rfl
  · refine hs.move rfl rfl (.inl hne) ?_
    simp [hpc, reserveNBResult, State.goto, State.granted, State.released, Pc.pending]
    omega
  · exact absurd hwfd (hok hpc hrfd htokens)
  · refine hs.move rfl rfl (.inl hne) ?_
    rw [hpc]
    rfl

/-- The `write` of `release`. -/
theorem Conserved.releaseWrite (hs : Conserved s) (hpc : s.pc p = .releaseWrite) {r : Result}
    {t : State ι} (h : s.write capacity p = some (r, t)) : Conserved (t.ret p .release r) := by
  have hne : s.pc p ≠ .idle := by rw [hpc]; nofun
  obtain ⟨hr, rfl⟩ | ⟨rfl, rfl⟩ := write_eq_some h
  · refine hs.move rfl rfl (.inl hne) ?_
    rw [granted_ret, released_ret, hpc]
    simp [hr, State.ret, Pc.pending]
  · refine hs.move rfl rfl (.inl hne) ?_
    rw [granted_ret, released_ret, hpc]
    simp [State.ret, State.granted, State.released, Pc.pending]
    omega

/-- **Every step** keeps the books in balance. -/
theorem Conserved.step (hs : Conserved s) {l : Label ι} (hok : NoEof s l)
    (h : step capacity s l = some s') : Conserved s' := by
  cases happens_of_step h with
  | fork hp hidle hq => exact hs.fork hq
  | closeRead | closeWrite => exact ⟨hs.outside, hs.balance⟩
  | @call p c hp hidle =>
    refine hs.move rfl rfl (.inr hp) ?_
    rw [hidle]
    cases c <;> rfl
  | reserveRead hpc hread => exact hs.reserveRead hpc hread
  | getNonblock hpc | getBlock hpc | reserveNBInterrupted hpc =>
    refine hs.move rfl rfl (.inl (by rw [hpc]; nofun)) ?_
    rw [hpc]
    rfl
  | @setNonblock p flags hpc =>
    obtain ⟨nonblock, heq⟩ := setfl_eq s p (flags || true)
    rw [heq]
    refine hs.move rfl rfl (.inl (by rw [hpc]; nofun)) ?_
    rw [hpc]
    rfl
  | readNonblock hpc hread => exact hs.readNonblock hpc hok hread
  | @setBlock p n flags hpc =>
    obtain ⟨nonblock, heq⟩ := setfl_eq s p (flags && false)
    rw [heq]
    refine hs.move rfl rfl (.inl (by rw [hpc]; nofun)) ?_
    rw [granted_ret, released_ret, hpc]
    simp [State.ret, State.granted, State.released, Pc.pending]
  | releaseWrite hpc hwrite => exact hs.releaseWrite hpc hwrite
  | reserveInterrupted hpc | releaseInterrupted hpc =>
    refine hs.move rfl rfl (.inl (by rw [hpc]; nofun)) ?_
    rw [granted_ret, released_ret, hpc]
    rfl

theorem conserved_reachable {p : ι} (h : (machine capacity p).ReachableBy NoEof s) :
    Conserved s :=
  h.invariant ⟨fun _ _ => rfl, rfl⟩ fun _ _ _ hs hok hst => hs.step hok hst

/-- **No token is granted that was not released**, in every run in which no `reserveNB` reads an
empty FIFO whose descriptors for writing are all closed. -/
theorem granted_le_released {p : ι} (h : (machine capacity p).ReachableBy NoEof s) :
    s.granted ≤ s.released := by
  have hbalance := (conserved_reachable h).balance
  omega

/-- The parent grants the token that its child has released, and the writers close. -/
theorem granted_le_released_closed :
    ∃ s : State (Fin 2),
      (machine 65536 0).run (init 0) [.fork 0 1, .call 1 .release, .sysCall 1, .closeWrite 1,
        .call 0 .reserveNB, .sysCall 0, .sysCall 0, .sysCall 0, .closeWrite 1, .sysCall 0,
        .sysCall 0, .closeWrite 0, .call 1 .reserve, .sysCall 1] = some s ∧
      s.granted ≤ s.released :=
  ⟨_, rfl, granted_le_released (.of_restrict (M := machine 65536 0) (.run .init [.fork 0 1,
    .call 1 .release, .sysCall 1, .closeWrite 1, .call 0 .reserveNB, .sysCall 0, .sysCall 0,
    .sysCall 0, .closeWrite 1, .sysCall 0, .sysCall 0, .closeWrite 0, .call 1 .reserve,
    .sysCall 1] rfl))⟩

/-- **The end of file is taken for a token**: the only process closes its descriptor for writing,
and `reserveNB` returns 0 without any `release`. -/
theorem eof_grants_token :
    ∃ s, (machine 65536 (0 : Fin 1)).Reachable s ∧ s.released < s.granted :=
  ⟨_, .run .init [.closeWrite 0, .call 0 .reserveNB, .sysCall 0, .sysCall 0, .sysCall 0, .sysCall 0,
    .sysCall 0] rfl, by decide⟩

end TlpiLearn.BinaryFifo
