import TlpiLearn.BinaryFifo.Fifo
import Mathlib.Tactic

/-!
# Blocking and not blocking on a shared description

`reserveNB` changes a flag that all processes share, and other calls see it between the two changes.
As long as nobody reads an empty FIFO in `reserve` while another process is between them, and
nobody clears the flag while another process is about to read in `reserveNB`, `reserve` waits for
its token and `reserveNB` does not block (`calls_block_as_named`). The two ways out of this are
shown by `shared_flag_leaks`.
-/

namespace TlpiLearn.BinaryFifo

/-- `reserveNB` has set the flag and not cleared it again. -/
def Pc.inWindow : Pc → Bool
  | .readNonblock | .getBlock _ | .setBlock _ _ => true
  | _ => false

/-- A process is inside `reserveNB`. -/
def Pc.inReserveNB : Pc → Bool
  | .getNonblock | .setNonblock _ | .readNonblock | .getBlock _ | .setBlock _ _ => true
  | _ => false

variable {ι : Type*}

/-- `q` has set the flag of the shared description and not cleared it again. -/
def State.InWindow (s : State ι) (q : ι) : Prop := q ∈ s.rfd ∧ (s.pc q).inWindow = true

/-- No `reserve` reads an empty FIFO in the window of a `reserveNB`, and no `reserveNB` clears the
flag between the setting of the flag and the `read` of another one. -/
def NoOverlap (s : State ι) : Label ι → Prop
  | .sysCall p =>
    match s.pc p with
    | .reserveRead => s.tokens = 0 → ∀ q, ¬ s.InWindow q
    | .setBlock _ _ => p ∈ s.rfd → ∀ q ∈ s.rfd, q ≠ p → s.pc q ≠ .readNonblock
    | _ => True
  | _ => True

instance [DecidableEq ι] (s : State ι) (q : ι) : Decidable (s.InWindow q) :=
  inferInstanceAs (Decidable (_ ∧ _))

instance [DecidableEq ι] [Fintype ι] (s : State ι) : ∀ l, Decidable (NoOverlap s l)
  | .sysCall p =>
    match h : s.pc p with
    | .reserveRead => decidable_of_iff (s.tokens = 0 → ∀ q, ¬ s.InWindow q) (by simp [NoOverlap, h])
    | .setBlock _ _ =>
      decidable_of_iff (p ∈ s.rfd → ∀ q ∈ s.rfd, q ≠ p → s.pc q ≠ .readNonblock)
        (by simp [NoOverlap, h])
    | .idle | .getNonblock | .setNonblock _ | .readNonblock | .getBlock _ | .releaseWrite =>
      isTrue (by simp [NoOverlap, h])
  | .fork _ _ | .closeRead _ | .closeWrite _ | .call _ _ | .interrupt _ => isTrue trivial

/-- A failure for the want of a token. -/
def eagain : Call × Result := (.reserve, .minusOne (some .EAGAIN))

/-- The flag is only set in a window, and it is set at each `read` of `reserveNB`. -/
structure NonblockInv (s : State ι) : Prop where
  window : s.nonblock = true → ∃ q, s.InWindow q
  reading : ∀ q ∈ s.rfd, s.pc q = .readNonblock → s.nonblock = true
  outside : ∀ q, q ∉ s.procs → s.pc q = .idle
  returned : eagain ∉ s.returned

/-- A call returns something else than the failure for the want of a token. -/
theorem notMem_returned {returned : List (Call × Result)}
    (h : eagain ∉ returned) {r : Call × Result} (hr : r ≠ eagain) :
    eagain ∉ returned ++ [r] := by
  rw [List.mem_append, List.mem_singleton]
  rintro (hmem | hmem)
  · exact h hmem
  · exact hr hmem.symm

variable [DecidableEq ι] {s s' : State ι} {p : ι}

/-- A step of one process that neither enters nor leaves the window nor changes the flag. -/
theorem NonblockInv.move (hs : NonblockInv s) {c : Pc} (hpc : s'.pc = Function.update s.pc p c)
    (hprocs : s'.procs = s.procs) (hrfd : s'.rfd = s.rfd) (hnb : s'.nonblock = s.nonblock)
    (hp : p ∈ s.procs) (hwindow : c.inWindow = (s.pc p).inWindow) (hread : c ≠ .readNonblock)
    (hreturned : eagain ∉ s'.returned) : NonblockInv s' where
  window := by
    intro h
    rw [hnb] at h
    obtain ⟨q, hq, hqw⟩ := hs.window h
    refine ⟨q, hrfd ▸ hq, ?_⟩
    rw [hpc]
    by_cases hqp : q = p
    · rw [hqp, Function.update_self, hwindow, ← hqp, hqw]
    · rw [Function.update_of_ne hqp, hqw]
  reading := by
    intro q hq h
    rw [hpc] at h
    by_cases hqp : q = p
    · rw [hqp, Function.update_self] at h
      exact absurd h hread
    · rw [Function.update_of_ne hqp] at h
      rw [hnb]
      exact hs.reading q (hrfd ▸ hq) h
  outside := by
    intro q hq
    rw [hprocs] at hq
    have hqp : q ≠ p := fun h => hq (h ▸ hp)
    rw [hpc, Function.update_of_ne hqp]
    exact hs.outside q hq
  returned := hreturned

/-- A process that is not idle exists. -/
theorem NonblockInv.mem_procs (hs : NonblockInv s) (h : s.pc p ≠ .idle) : p ∈ s.procs := by
  by_contra hp
  exact h (hs.outside p hp)

/-- The flag is set behind the `read` of `reserve` only when the `read` did not fail for the want
of a token. -/
theorem NonblockInv.reserveRead (hs : NonblockInv s) (hpc : s.pc p = .reserveRead)
    (hok : s.tokens = 0 → ∀ q, ¬ s.InWindow q) {r : ReadResult} {t : State ι}
    (h : s.read p = some (r, t)) : NonblockInv (t.ret p .reserve (reserveResult r)) := by
  have hp : p ∈ s.procs := hs.mem_procs (by rw [hpc]; nofun)
  have hwindow : Pc.idle.inWindow = (s.pc p).inWindow := by rw [hpc]; rfl
  have hret : ∀ r, (Call.reserve, reserveResult r) ≠ eagain →
      eagain ∉ s.returned ++ [(.reserve, reserveResult r)] :=
    fun r hr => notMem_returned hs.returned hr
  obtain ⟨-, rfl, rfl⟩ | ⟨-, -, rfl, rfl⟩ | ⟨-, -, -, rfl, rfl⟩ | ⟨-, htokens, -, hnb, -⟩ :=
    read_eq_some h
  · exact hs.move rfl rfl rfl rfl hp hwindow nofun (hret _ nofun)
  · exact hs.move rfl rfl rfl rfl hp hwindow nofun (hret _ nofun)
  · exact hs.move rfl rfl rfl rfl hp hwindow nofun (hret _ nofun)
  · obtain ⟨q, hq⟩ := hs.window hnb
    exact absurd hq (hok htokens q)

/-- The setting of the flag. -/
theorem NonblockInv.setNonblock (hs : NonblockInv s) {flags : Bool}
    (hpc : s.pc p = .setNonblock flags) :
    NonblockInv ((s.setfl p (flags || true)).goto p .readNonblock) := by
  have hp : p ∈ s.procs := hs.mem_procs (by rw [hpc]; nofun)
  have hother : ∀ q, q ∉ s.procs → (s.goto p .readNonblock).pc q = .idle := by
    intro q hq
    have hqp : q ≠ p := fun h => hq (h ▸ hp)
    rw [goto_pc_of_ne hqp]
    exact hs.outside q hq
  rw [Bool.or_true]
  by_cases hrfd : p ∈ s.rfd
  · rw [setfl_of_mem hrfd]
    refine ⟨fun _ => ⟨p, hrfd, ?_⟩, fun q _ _ => rfl, hother, hs.returned⟩
    rw [goto_pc_self]
    rfl
  · have hne : ∀ q ∈ s.rfd, q ≠ p := fun q hq h => hrfd (h ▸ hq)
    rw [setfl_of_notMem hrfd]
    refine ⟨?_, ?_, hother, hs.returned⟩
    · intro h
      obtain ⟨q, hq, hqw⟩ := hs.window h
      exact ⟨q, hq, by rw [goto_pc_of_ne (hne q hq), hqw]⟩
    · intro q hq h
      rw [goto_pc_of_ne (hne q hq)] at h
      exact hs.reading q hq h

/-- The clearing of the flag. -/
theorem NonblockInv.setBlock (hs : NonblockInv s) {n : ReadResult} {flags : Bool}
    (hpc : s.pc p = .setBlock n flags)
    (hok : p ∈ s.rfd → ∀ q ∈ s.rfd, q ≠ p → s.pc q ≠ .readNonblock) :
    NonblockInv ((s.setfl p (flags && false)).ret p .reserveNB (reserveNBResult n)) := by
  have hp : p ∈ s.procs := hs.mem_procs (by rw [hpc]; nofun)
  have hret : eagain ∉ s.returned ++ [(.reserveNB, reserveNBResult n)] :=
    notMem_returned hs.returned nofun
  have hother : ∀ q, q ∉ s.procs → (s.ret p .reserveNB (reserveNBResult n)).pc q = .idle := by
    intro q hq
    have hqp : q ≠ p := fun h => hq (h ▸ hp)
    rw [ret_pc_of_ne hqp]
    exact hs.outside q hq
  rw [Bool.and_false]
  by_cases hrfd : p ∈ s.rfd
  · rw [setfl_of_mem hrfd]
    refine ⟨nofun, ?_, hother, hret⟩
    intro q hq h
    by_cases hqp : q = p
    · rw [hqp, ret_pc_self] at h
      cases h
    · rw [ret_pc_of_ne hqp] at h
      exact absurd h (hok hrfd q hq hqp)
  · have hne : ∀ q ∈ s.rfd, q ≠ p := fun q hq h => hrfd (h ▸ hq)
    rw [setfl_of_notMem hrfd]
    refine ⟨?_, ?_, hother, hret⟩
    · intro h
      obtain ⟨q, hq, hqw⟩ := hs.window h
      exact ⟨q, hq, by rw [ret_pc_of_ne (hne q hq), hqw]⟩
    · intro q hq h
      rw [ret_pc_of_ne (hne q hq)] at h
      exact hs.reading q hq h

variable {capacity : ℕ}

/-- A new process is idle and holds what its parent holds. -/
theorem NonblockInv.fork (hs : NonblockInv s) {q : ι} (hq : q ∉ s.procs) :
    NonblockInv { s with
      procs := insert q s.procs
      rfd := if p ∈ s.rfd then insert q s.rfd else s.rfd
      wfd := if p ∈ s.wfd then insert q s.wfd else s.wfd } := by
  have hidle : s.pc q = .idle := hs.outside q hq
  have hrfd : s.rfd ⊆ if p ∈ s.rfd then insert q s.rfd else s.rfd := by
    split
    · exact Finset.subset_insert q s.rfd
    · exact Finset.Subset.refl _
  refine ⟨?_, ?_, ?_, hs.returned⟩
  · intro hnb
    obtain ⟨r, hr, hrw⟩ := hs.window hnb
    exact ⟨r, hrfd hr, hrw⟩
  · intro r hr hpc
    have hrq : r ≠ q := by
      rintro rfl
      rw [hidle] at hpc
      cases hpc
    refine hs.reading r ?_ hpc
    split at hr
    · exact (Finset.mem_insert.1 hr).resolve_left hrq
    · exact hr
  · intro r hr
    exact hs.outside r fun hmem => hr (Finset.mem_insert_of_mem hmem)

/-- A process that closes its descriptor is not in the window. -/
theorem NonblockInv.closeRead (hs : NonblockInv s) (hidle : s.pc p = .idle) :
    NonblockInv { s with rfd := s.rfd.erase p } := by
  refine ⟨?_, ?_, hs.outside, hs.returned⟩
  · intro hnb
    obtain ⟨r, hr, hrw⟩ := hs.window hnb
    refine ⟨r, Finset.mem_erase.2 ⟨?_, hr⟩, hrw⟩
    rintro rfl
    rw [hidle] at hrw
    cases hrw
  · intro r hr hpc
    exact hs.reading r (Finset.mem_of_mem_erase hr) hpc

/-- **Every step** keeps the invariant. -/
theorem NonblockInv.step (hs : NonblockInv s) {l : Label ι} (hok : NoOverlap s l)
    (h : step capacity s l = some s') : NonblockInv s' := by
  -- A process that moves inside a call exists.
  have hmem : ∀ {q pc}, s.pc q = pc → pc ≠ .idle → q ∈ s.procs :=
    fun hpc hne => hs.mem_procs (hpc ▸ hne)
  cases happens_of_step h with
  | fork hp hidle hq => exact hs.fork hq
  | closeRead hidle => exact hs.closeRead hidle
  | closeWrite => exact ⟨hs.window, hs.reading, hs.outside, hs.returned⟩
  | @call p c hp hidle =>
    refine hs.move rfl rfl rfl rfl hp ?_ ?_ hs.returned
    · rw [hidle]
      cases c <;> rfl
    · cases c <;> nofun
  | reserveRead hpc hread =>
    simp only [NoOverlap, hpc] at hok
    exact hs.reserveRead hpc hok hread
  | getNonblock hpc =>
    exact hs.move rfl rfl rfl rfl (hmem hpc nofun) (by rw [hpc]; rfl) nofun hs.returned
  | setNonblock hpc => exact hs.setNonblock hpc
  | @readNonblock p r t hpc hread =>
    have hwindow : (Pc.getBlock r).inWindow = (s.pc p).inWindow := by rw [hpc]; rfl
    obtain ⟨-, -, rfl⟩ | ⟨-, -, -, rfl⟩ | ⟨-, -, -, -, rfl⟩ | ⟨-, -, -, -, -, rfl⟩ :=
      read_eq_some hread
    all_goals exact hs.move rfl rfl rfl rfl (hmem hpc nofun) hwindow nofun hs.returned
  | getBlock hpc =>
    exact hs.move rfl rfl rfl rfl (hmem hpc nofun) (by rw [hpc]; rfl) nofun hs.returned
  | setBlock hpc =>
    simp only [NoOverlap, hpc] at hok
    exact hs.setBlock hpc hok
  | @releaseWrite p r t hpc hwrite =>
    have hwindow : Pc.idle.inWindow = (s.pc p).inWindow := by rw [hpc]; rfl
    have hret : eagain ∉ s.returned ++ [(.release, r)] := notMem_returned hs.returned nofun
    obtain ⟨-, rfl⟩ | ⟨-, rfl⟩ := write_eq_some hwrite
    all_goals exact hs.move rfl rfl rfl rfl (hmem hpc nofun) hwindow nofun hret
  | reserveInterrupted hpc | releaseInterrupted hpc =>
    exact hs.move rfl rfl rfl rfl (hmem hpc nofun) (by rw [hpc]; rfl) nofun
      (notMem_returned hs.returned nofun)
  | reserveNBInterrupted hpc =>
    exact hs.move rfl rfl rfl rfl (hmem hpc nofun) (by rw [hpc]; rfl) nofun hs.returned

theorem nonblockInv_reachable {p : ι} (h : (machine capacity p).ReachableBy NoOverlap s) :
    NonblockInv s :=
  h.invariant ⟨nofun, nofun, fun _ _ => rfl, List.not_mem_nil⟩
    fun _ _ _ hs hok hst => hs.step hok hst

/-- **The calls block as their names say**, in every run in which no `reserve` reads an empty FIFO
in the window of a `reserveNB` and no `reserveNB` clears the flag between the setting of the flag
and the `read` of another one. -/
theorem calls_block_as_named {p : ι} (h : (machine capacity p).ReachableBy NoOverlap s) :
    (.reserve, .minusOne (some .EAGAIN)) ∉ s.returned ∧
      ∀ q, (s.pc q).inReserveNB = true → sysCall capacity s q ≠ none := by
  have hs := nonblockInv_reachable h
  refine ⟨hs.returned, fun q hq hnone => ?_⟩
  cases hpc : s.pc q with
  | readNonblock =>
    simp only [sysCall, hpc, Option.map_eq_none_iff] at hnone
    obtain ⟨hrfd, -, -, hnb⟩ := read_eq_none hnone
    rw [hs.reading q hrfd hpc] at hnb
    cases hnb
  | idle | reserveRead | releaseWrite => rw [hpc] at hq; cases hq
  | getNonblock | setNonblock flags | getBlock n | setBlock n flags =>
    simp only [sysCall, hpc, reduceCtorEq] at hnone

/-- A `reserve` in the window of the `reserveNB` of another process waits for its token, which has
been released. -/
theorem calls_block_as_named_in_window :
    ∃ s : State (Fin 2),
      (machine 65536 0).run (init 0) [.fork 0 1, .call 0 .reserveNB, .sysCall 0, .sysCall 0,
        .call 1 .release, .sysCall 1, .call 1 .reserve, .sysCall 1] = some s ∧
      ((.reserve, .minusOne (some .EAGAIN)) ∉ s.returned ∧
        ∀ q, (s.pc q).inReserveNB = true → sysCall 65536 s q ≠ none) :=
  ⟨_, rfl, calls_block_as_named (p := 0) (.of_restrict (.run .init [.fork 0 1, .call 0 .reserveNB,
    .sysCall 0, .sysCall 0, .call 1 .release, .sysCall 1, .call 1 .reserve, .sysCall 1] rfl))⟩

/-- **The flag leaks to the other processes**: the parent sets it in `reserveNB`, and the `reserve`
of its child fails for the want of a token; or the parent clears it before the `read` of the
`reserveNB` of its child, which blocks. -/
theorem shared_flag_leaks :
    (∃ s, (machine 65536 (0 : Fin 2)).Reachable s ∧
      (.reserve, .minusOne (some .EAGAIN)) ∈ s.returned) ∧
    ∃ s, (machine 65536 (0 : Fin 2)).Reachable s ∧
      (s.pc 1).inReserveNB = true ∧ sysCall 65536 s 1 = none := by
  constructor
  · refine ⟨_, .run .init [.fork 0 1, .call 0 .reserveNB, .sysCall 0, .sysCall 0,
      .call 1 .reserve, .sysCall 1] rfl, ?_⟩
    decide
  · refine ⟨_, .run .init [.fork 0 1, .call 0 .reserveNB, .call 1 .reserveNB, .sysCall 0,
      .sysCall 0, .sysCall 1, .sysCall 1, .sysCall 0, .sysCall 0, .sysCall 0] rfl, rfl, ?_⟩
    decide

end TlpiLearn.BinaryFifo
