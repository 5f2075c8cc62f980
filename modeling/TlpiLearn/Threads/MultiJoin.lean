import TlpiLearn.Foundations.Machine
import TlpiLearn.Foundations.Monitor
import TlpiLearn.Foundations.Parties

/-!
# Joining threads as they end

`threads/thread_multijoin.c`: each thread marks itself `TS_TERMINATED` under the mutex and signals
after it has released it; the main thread waits while `numUnjoined` is 0, and then joins all threads
that are so marked. It holds the mutex while it joins; a thread that is marked needs the mutex no
more, so that the join comes to its end.
-/

namespace TlpiLearn.MultiJoin

/-- `enum tstate`. -/
inductive TState
  | TS_ALIVE
  | TS_TERMINATED
  | TS_JOINED
  deriving DecidableEq, Repr

/-- The statement of `threadFunc` that comes next. -/
inductive ThreadPc
  /-- The thread is not created yet. -/
  | absent
  /-- `sleep(thread[idx].sleepTime)`. -/
  | sleep
  | lock
  /-- `numUnjoined++; thread[idx].state = TS_TERMINATED;` -/
  | terminate
  | unlock
  /-- `pthread_cond_signal(&threadDied)`. -/
  | signal
  | ended
  deriving DecidableEq, Repr

variable {n : ℕ}

/-- The statement of `main` that comes next. -/
inductive MainPc (n : ℕ)
  /-- The loop that creates the threads. -/
  | create (idx : ℕ)
  /-- `while (numLive > 0)`. -/
  | loop
  | lock
  /-- `while (numUnjoined == 0)`. -/
  | test
  /-- In `pthread_cond_wait(&threadDied, &threadMutex)`. -/
  | wait
  /-- The loop that looks for threads to join. -/
  | scan (idx : ℕ)
  /-- `pthread_join(thread[idx].tid, NULL)`. -/
  | join (idx : Fin n)
  | unlock
  | exited
  deriving DecidableEq, Repr

/-- `totThreads` is `n`. -/
structure State (n : ℕ) where
  thread : Fin n → ThreadPc
  /-- `thread[idx].state`. -/
  state : Fin n → TState
  main : MainPc n
  /-- `threadMutex` and `threadDied`; `none` is the main thread. -/
  monitor : Monitor (Option (Fin n))
  numLive : ℤ
  numUnjoined : ℤ

inductive Label (n : ℕ)
  | thread (p : Fin n)
  | main
  /-- A spurious wake-up. -/
  | spurious
  deriving DecidableEq, Repr

def start : State n :=
  { thread := fun _ => .absent, state := fun _ => .TS_ALIVE, main := .create 0, monitor := .free
    numLive := 0, numUnjoined := 0 }

/-- The thread `p` after a step. -/
def State.setThread (s : State n) (p : Fin n) (pc : ThreadPc) : State n :=
  { s with thread := Function.update s.thread p pc }

/-- `threadFunc`. -/
def threadFunc (s : State n) (p : Fin n) : Option (State n) :=
  match s.thread p with
  | .absent => none
  | .sleep => some (s.setThread p .lock)
  | .lock =>
    (s.monitor.lock (some p)).map fun m => { s.setThread p .terminate with monitor := m }
  | .terminate =>
    some { s.setThread p .unlock with
      numUnjoined := s.numUnjoined + 1, state := Function.update s.state p .TS_TERMINATED }
  | .unlock => some { s.setThread p .signal with monitor := s.monitor.unlock }
  | .signal => some { s.setThread p .ended with monitor := s.monitor.signal }
  | .ended => none

/-- The body of the loop that looks for threads to join. -/
def scan (s : State n) (idx : ℕ) : State n :=
  if h : idx < n then
    { s with main := if s.state ⟨idx, h⟩ = .TS_TERMINATED then .join ⟨idx, h⟩ else .scan (idx + 1) }
  else { s with main := .unlock }

/-- `main`. -/
def main (s : State n) : Option (State n) :=
  match s.main with
  | .create idx =>
    if h : idx < n then some { s.setThread ⟨idx, h⟩ .sleep with main := .create (idx + 1) }
    else some { s with numLive := n, main := .loop }
  | .loop => some { s with main := if 0 < s.numLive then .lock else .exited }
  | .lock => (s.monitor.lock none).map fun m => { s with monitor := m, main := .test }
  | .test =>
    if s.numUnjoined = 0 then some { s with monitor := .wait, main := .wait }
    else some { s with main := .scan 0 }
  | .wait => (s.monitor.wake none).map fun m => { s with monitor := m, main := .test }
  | .scan idx => some (scan s idx)
  | .join idx =>
    if s.thread idx = .ended then
      some { s with
        state := Function.update s.state idx .TS_JOINED
        numLive := s.numLive - 1, numUnjoined := s.numUnjoined - 1, main := .scan (idx + 1) }
    else none
  | .unlock => some { s with monitor := s.monitor.unlock, main := .loop }
  | .exited => none

/-- The threads, until `main` ends the process. -/
def step (s : State n) (l : Label n) : Option (State n) :=
  if s.main = .exited then none
  else match l with
    | .thread p => threadFunc s p
    | .main => main s
    | .spurious =>
      if s.monitor.asleep then some { s with monitor := s.monitor.signal } else none

def program (n : ℕ) : Machine (State n) (Label n) := ⟨start, step⟩

variable {s s' : State n} {p : Fin n}

/-! ## What a step does -/

/-- The steps of a thread. -/
theorem thread_cases (hst : threadFunc s p = some s') :
    (s.thread p = .sleep ∧ s' = s.setThread p .lock) ∨
    (s.thread p = .lock ∧ s.monitor.owner = none ∧
      s' = { s.setThread p .terminate with
        monitor := { s.monitor with owner := some (some p) } }) ∨
    (s.thread p = .terminate ∧
      s' = { s.setThread p .unlock with
        numUnjoined := s.numUnjoined + 1, state := Function.update s.state p .TS_TERMINATED }) ∨
    (s.thread p = .unlock ∧ s' = { s.setThread p .signal with monitor := s.monitor.unlock }) ∨
    (s.thread p = .signal ∧ s' = { s.setThread p .ended with monitor := s.monitor.signal }) := by
  unfold threadFunc at hst
  cases hpc : s.thread p with
  | absent => simp [hpc] at hst
  | sleep =>
    simp only [hpc, Option.some.injEq] at hst
    exact .inl ⟨rfl, hst.symm⟩
  | lock =>
    simp only [hpc] at hst
    obtain ⟨m, hm, rfl⟩ := Option.map_eq_some_iff.1 hst
    obtain ⟨howner, rfl⟩ := Monitor.lock_eq_some.1 hm
    exact .inr (.inl ⟨rfl, howner, rfl⟩)
  | terminate =>
    simp only [hpc, Option.some.injEq] at hst
    exact .inr (.inr (.inl ⟨rfl, hst.symm⟩))
  | unlock =>
    simp only [hpc, Option.some.injEq] at hst
    exact .inr (.inr (.inr (.inl ⟨rfl, hst.symm⟩)))
  | signal =>
    simp only [hpc, Option.some.injEq] at hst
    exact .inr (.inr (.inr (.inr ⟨rfl, hst.symm⟩)))
  | ended => simp [hpc] at hst

/-- The steps of the main thread. -/
inductive MainStep (s : State n) : State n → Prop
  | create (idx : ℕ) (h : idx < n) (hpc : s.main = .create idx) :
    MainStep s { s.setThread ⟨idx, h⟩ .sleep with main := .create (idx + 1) }
  | created (idx : ℕ) (h : n ≤ idx) (hpc : s.main = .create idx) :
    MainStep s { s with numLive := n, main := .loop }
  | again (hpc : s.main = .loop) (h : 0 < s.numLive) : MainStep s { s with main := .lock }
  | exit (hpc : s.main = .loop) (h : s.numLive ≤ 0) : MainStep s { s with main := .exited }
  | lock (hpc : s.main = .lock ∨ s.main = .wait ∧ s.monitor.asleep = false)
      (howner : s.monitor.owner = none) :
    MainStep s { s with monitor := { s.monitor with owner := some none }, main := .test }
  | wait (hpc : s.main = .test) (h : s.numUnjoined = 0) :
    MainStep s { s with monitor := .wait, main := .wait }
  | found (hpc : s.main = .test) (h : s.numUnjoined ≠ 0) : MainStep s { s with main := .scan 0 }
  | terminated (idx : Fin n) (hpc : s.main = .scan idx) (h : s.state idx = .TS_TERMINATED) :
    MainStep s { s with main := .join idx }
  | skip (idx : Fin n) (hpc : s.main = .scan idx) (h : s.state idx ≠ .TS_TERMINATED) :
    MainStep s { s with main := .scan (idx + 1) }
  | scanned (idx : ℕ) (h : n ≤ idx) (hpc : s.main = .scan idx) :
    MainStep s { s with main := .unlock }
  | join (idx : Fin n) (hpc : s.main = .join idx) (h : s.thread idx = .ended) :
    MainStep s { s with
      state := Function.update s.state idx .TS_JOINED
      numLive := s.numLive - 1, numUnjoined := s.numUnjoined - 1, main := .scan (idx + 1) }
  | unlock (hpc : s.main = .unlock) :
    MainStep s { s with monitor := s.monitor.unlock, main := .loop }

theorem mainStep_of_main (hst : main s = some s') : MainStep s s' := by
  unfold main at hst
  cases hpc : s.main with
  | create idx =>
    simp only [hpc] at hst
    split at hst
    · obtain rfl := Option.some.inj hst
      exact .create idx ‹_› hpc
    · obtain rfl := Option.some.inj hst
      exact .created idx (by omega) hpc
  | loop =>
    simp only [hpc, Option.some.injEq] at hst
    subst hst
    split
    · exact .again hpc ‹_›
    · exact .exit hpc (by omega)
  | lock =>
    simp only [hpc] at hst
    obtain ⟨m, hm, rfl⟩ := Option.map_eq_some_iff.1 hst
    obtain ⟨howner, rfl⟩ := Monitor.lock_eq_some.1 hm
    exact .lock (.inl hpc) howner
  | test =>
    simp only [hpc] at hst
    split at hst
    · obtain rfl := Option.some.inj hst
      exact .wait hpc ‹_›
    · obtain rfl := Option.some.inj hst
      exact .found hpc ‹_›
  | wait =>
    simp only [hpc] at hst
    obtain ⟨m, hm, rfl⟩ := Option.map_eq_some_iff.1 hst
    obtain ⟨hasleep, howner, rfl⟩ := Monitor.wake_eq_some.1 hm
    exact .lock (.inr ⟨hpc, hasleep⟩) howner
  | scan idx =>
    simp only [hpc, Option.some.injEq] at hst
    subst hst
    unfold scan
    split
    case isTrue h =>
      split
      · exact .terminated ⟨idx, h⟩ hpc ‹_›
      · exact .skip ⟨idx, h⟩ hpc ‹_›
    case isFalse h => exact .scanned idx (by omega) hpc
  | join idx =>
    simp only [hpc] at hst
    obtain ⟨h, hst⟩ := Option.ite_none_right_eq_some.1 hst
    obtain rfl := Option.some.inj hst
    exact .join idx hpc h
  | unlock =>
    simp only [hpc, Option.some.injEq] at hst
    subst hst
    exact .unlock hpc
  | exited => simp [hpc] at hst

/-! ## The invariant -/

def ThreadPc.Inside (pc : ThreadPc) : Prop := pc = .terminate ∨ pc = .unlock

/-- The statements of `main` between its `lock` and its `unlock`. -/
def MainPc.Inside : MainPc n → Prop
  | .test | .scan _ | .join _ | .unlock => True
  | _ => False

/-- The thread is between its `lock` and its `unlock`. -/
def State.Inside (s : State n) : Option (Fin n) → Prop
  | none => s.main.Inside
  | some p => (s.thread p).Inside

/-- Whether a thread is counted in `numUnjoined`. -/
def TState.unjoined (t : TState) : ℕ := if t = .TS_TERMINATED then 1 else 0

/-- Whether a thread is counted in `numLive`. -/
def TState.live (t : TState) : ℕ := if t = .TS_JOINED then 0 else 1

/-- Where a thread is that is in a state. -/
def TState.At : TState → ThreadPc → Prop
  | .TS_ALIVE, pc => pc = .absent ∨ pc = .sleep ∨ pc = .lock ∨ pc = .terminate
  | .TS_TERMINATED, pc => pc = .unlock ∨ pc = .signal ∨ pc = .ended
  | .TS_JOINED, pc => pc = .ended

/-- What holds where the main thread is. -/
def MainPc.At (s : State n) : MainPc n → Prop
  | .lock | .test | .wait => 0 < s.numLive
  | .join idx => s.state idx = .TS_TERMINATED
  | .exited => s.numLive ≤ 0
  | _ => True

theorem MainPc.At.congr {pc : MainPc n} (h : pc.At s) (hlive : s'.numLive = s.numLive)
    (hstate : ∀ p, s.state p = .TS_TERMINATED → s'.state p = .TS_TERMINATED) : pc.At s' := by
  cases pc with
  | lock | test | wait | exited =>
    simp only [MainPc.At, hlive] at h ⊢
    exact h
  | join idx => exact hstate idx h
  | _ => trivial

/-- The thread is on the way to its signal. -/
def ThreadPc.Notifies (pc : ThreadPc) : Prop := pc = .unlock ∨ pc = .signal

structure Inv (s : State n) : Prop where
  excludes : s.monitor.Excludes s.Inside
  state : ∀ p, (s.state p).At (s.thread p)
  pc : s.main.At s
  creating : ∀ idx, s.main = .create idx →
    (∀ p : Fin n, s.thread p = .absent ↔ idx ≤ p) ∧ ∀ p, s.state p ≠ .TS_JOINED
  created : (∀ idx, s.main ≠ .create idx) →
    (∀ p, s.thread p ≠ .absent) ∧ s.numLive = ((∑ p, (s.state p).live : ℕ) : ℤ)
  unjoined : s.numUnjoined = ((∑ p, (s.state p).unjoined : ℕ) : ℤ)
  wake : s.monitor.asleep = true → s.numUnjoined ≠ 0 → ∃ p, (s.thread p).Notifies
  asleep : s.monitor.asleep = true → s.main = .wait

theorem inv_start : Inv (start : State n) where
  excludes := Monitor.excludes_free fun t => by
    cases t <;> simp [State.Inside, start, MainPc.Inside, ThreadPc.Inside]
  state p := .inl rfl
  pc := trivial
  creating idx h := by
    obtain rfl := MainPc.create.inj h
    exact ⟨fun p => iff_of_true rfl (Nat.zero_le _), fun p => by simp [start]⟩
  created h := absurd rfl (h 0)
  unjoined := by simp [start, TState.unjoined]
  wake h := by simp [start, Monitor.free] at h
  asleep h := by simp [start, Monitor.free] at h

theorem setThread_self (pc : ThreadPc) : (s.setThread p pc).thread p = pc :=
  Function.update_self ..

theorem setThread_of_ne {pc : ThreadPc} {q : Fin n} (h : q ≠ p) :
    (s.setThread p pc).thread q = s.thread q :=
  Function.update_of_ne h ..

/-- The other threads are where they were. -/
theorem inside_of_ne {pc : ThreadPc} {t : Option (Fin n)} (ht : t ≠ some p) :
    (s.setThread p pc).Inside t ↔ s.Inside t := by
  cases t with
  | none => exact Iff.rfl
  | some q =>
    have hq : q ≠ p := fun e => ht (congrArg some e)
    simp only [State.Inside, setThread_of_ne hq]

theorem inside_self {pc : ThreadPc} : (s.setThread p pc).Inside (some p) ↔ pc.Inside := by
  simp only [State.Inside, setThread_self]

namespace Inv

/-- The mutex is not touched by a thread that stays inside or outside. -/
theorem excludes_keep (h : Inv s) {pc : ThreadPc} (hinside : pc.Inside ↔ (s.thread p).Inside) :
    s.monitor.Excludes (s.setThread p pc).Inside := by
  refine h.excludes.congr rfl fun t => ?_
  by_cases ht : t = some p
  · rw [ht, inside_self]
    exact hinside
  · exact inside_of_ne ht

/-- A thread that exists makes a step in its own variables. -/
theorem setThread (h : Inv s) {pc : ThreadPc} {m : Monitor (Option (Fin n))}
    (hexcludes : m.Excludes (s.setThread p pc).Inside) (hstate : (s.state p).At pc)
    (hthread : s.thread p ≠ .absent) (hpc : pc ≠ .absent)
    (hwake : m.asleep = true →
      s.monitor.asleep = true ∧ ((s.thread p).Notifies → pc.Notifies)) :
    Inv { s.setThread p pc with monitor := m } := by
  have habsent : ∀ q, (s.setThread p pc).thread q = .absent ↔ s.thread q = .absent := by
    intro q
    obtain rfl | hq := eq_or_ne q p
    · rw [setThread_self]
      exact iff_of_false hpc hthread
    · rw [setThread_of_ne hq]
  constructor
  case excludes =>
    refine hexcludes.congr rfl fun t => ?_
    cases t <;> rfl
  case state =>
    intro q
    obtain rfl | hq := eq_or_ne q p
    · exact (setThread_self (s := s) pc).symm ▸ hstate
    · exact (setThread_of_ne (s := s) hq).symm ▸ h.state q
  case pc => exact h.pc.congr rfl fun _ hq => hq
  case creating =>
    intro idx hidx
    obtain ⟨hthreads, hjoined⟩ := h.creating idx hidx
    exact ⟨fun q => (habsent q).trans (hthreads q), hjoined⟩
  case created =>
    intro hmain
    obtain ⟨hthreads, hlive⟩ := h.created hmain
    exact ⟨fun q hq => hthreads q ((habsent q).1 hq), hlive⟩
  case unjoined => exact h.unjoined
  case wake =>
    intro ha hne
    obtain ⟨ha', hn⟩ := hwake ha
    obtain ⟨q, hq⟩ := h.wake ha' hne
    obtain rfl | hqp := eq_or_ne q p
    · exact ⟨q, by simpa only [setThread_self] using hn hq⟩
    · exact ⟨q, by simpa only [setThread_of_ne hqp] using hq⟩
  case asleep => exact fun ha => h.asleep (hwake ha).1

/-- A thread that has not terminated is alive. -/
theorem alive_of_terminate (h : Inv s) (hpc : s.thread p = .terminate) :
    s.state p = .TS_ALIVE := by
  have hat := h.state p
  cases hs : s.state p <;> simp [hs, TState.At, hpc] at hat ⊢

/-- `numUnjoined++; thread[idx].state = TS_TERMINATED;` -/
theorem terminate (h : Inv s) (hpc : s.thread p = .terminate) :
    Inv { s.setThread p .unlock with
      numUnjoined := s.numUnjoined + 1, state := Function.update s.state p .TS_TERMINATED } := by
  have halive := h.alive_of_terminate hpc
  have hself := Function.update_self p TState.TS_TERMINATED s.state
  have hold : ∀ q, q ≠ p → Function.update s.state p TState.TS_TERMINATED q = s.state q :=
    fun q hq => Function.update_of_ne hq ..
  have habsent : ∀ q, (s.setThread p .unlock).thread q = .absent ↔ s.thread q = .absent := by
    intro q
    obtain rfl | hq := eq_or_ne q p
    · rw [setThread_self, hpc]
      simp
    · rw [setThread_of_ne hq]
  constructor
  case excludes =>
    have hkeep : s.monitor.Excludes (s.setThread p .unlock).Inside :=
      h.excludes_keep (by simp [ThreadPc.Inside, hpc])
    exact hkeep.congr rfl fun t => by cases t <;> rfl
  case state =>
    intro q
    obtain rfl | hq := eq_or_ne q p
    · simp only [hself, setThread_self]
      exact .inl rfl
    · simp only [hold q hq, setThread_of_ne hq]
      exact h.state q
  case pc =>
    refine h.pc.congr rfl fun q hq => ?_
    obtain rfl | hqp := eq_or_ne q p
    · exact hself
    · exact (hold q hqp).trans hq
  case creating =>
    intro idx hidx
    obtain ⟨hthreads, hjoined⟩ := h.creating idx hidx
    refine ⟨fun q => (habsent q).trans (hthreads q), fun q => ?_⟩
    obtain rfl | hq := eq_or_ne q p
    · simp
    · simpa only [hold q hq] using hjoined q
  case created =>
    intro hmain
    obtain ⟨hthreads, hlive⟩ := h.created hmain
    refine ⟨fun q hq => hthreads q ((habsent q).1 hq), ?_⟩
    have hsum := sum_update_add (fun _ => TState.live) s.state p .TS_TERMINATED
    have heq : TState.TS_TERMINATED.live = (s.state p).live := by rw [halive]; rfl
    simp only [State.setThread]
    omega
  case unjoined =>
    have hu := h.unjoined
    have hsum := sum_update_add (fun _ => TState.unjoined) s.state p .TS_TERMINATED
    have hzero : (s.state p).unjoined = 0 := by rw [halive]; rfl
    have hone : TState.TS_TERMINATED.unjoined = 1 := rfl
    simp only [hu]
    omega
  case wake => exact fun _ _ => ⟨p, by simpa only [setThread_self] using .inl rfl⟩
  case asleep => exact h.asleep

theorem thread (h : Inv s) (hst : threadFunc s p = some s') : Inv s' := by
  have hat := h.state p
  obtain ⟨hpc, rfl⟩ | ⟨hpc, howner, rfl⟩ | ⟨hpc, rfl⟩ | ⟨hpc, rfl⟩ | ⟨hpc, rfl⟩ :=
    thread_cases hst
  · refine h.setThread (h.excludes_keep (by simp [ThreadPc.Inside, hpc])) ?_ (by simp [hpc])
      (by simp) fun ha => ⟨ha, by simp [ThreadPc.Notifies, hpc]⟩
    cases hs : s.state p <;> simp [hs, TState.At, hpc] at hat ⊢
  · refine h.setThread (h.excludes.enter howner ?_ fun t ht => inside_of_ne ht) ?_ (by simp [hpc])
      (by simp) fun ha => ⟨ha, by simp [ThreadPc.Notifies, hpc]⟩
    · exact inside_self.2 (.inl rfl)
    · cases hs : s.state p <;> simp [hs, TState.At, hpc] at hat ⊢
  · exact h.terminate hpc
  · refine h.setThread (h.excludes.leave (t := some p) ?_ ?_ (fun t ht => inside_of_ne ht) rfl) ?_
      (by simp [hpc]) (by simp) fun ha => ⟨ha, by simp [ThreadPc.Notifies]⟩
    · exact .inr hpc
    · rw [inside_self]
      simp [ThreadPc.Inside]
    · cases hs : s.state p <;> simp [hs, TState.At, hpc] at hat ⊢
  · refine h.setThread ((h.excludes_keep (by simp [ThreadPc.Inside, hpc])).congr rfl
      fun _ => Iff.rfl) ?_ (by simp [hpc]) (by simp) (by simp [Monitor.signal])
    cases hs : s.state p <;> simp [hs, TState.At, hpc] at hat ⊢

/-- The threads are where they were when the main thread moves. -/
theorem inside_main {t : Option (Fin n)} (ht : t ≠ none) (hs : s'.thread = s.thread) :
    s'.Inside t ↔ s.Inside t := by
  cases t with
  | none => exact absurd rfl ht
  | some p => simp only [State.Inside, hs]

theorem excludes_main (h : Inv s) (hm : s'.monitor.owner = s.monitor.owner)
    (hs : s'.thread = s.thread) (hinside : s'.main.Inside ↔ s.main.Inside) :
    s'.monitor.Excludes s'.Inside := by
  refine h.excludes.congr hm fun t => ?_
  cases t with
  | none => exact hinside
  | some p => simp only [State.Inside, hs]

/-- A step of the main thread that only moves on. -/
theorem goto (h : Inv s) {pc : MainPc n} (hinside : pc.Inside ↔ s.main.Inside) (hat : pc.At s)
    (hpc : ∀ idx, pc ≠ .create idx) (hmain : ∀ idx, s.main ≠ .create idx)
    (hwait : s.main ≠ .wait) : Inv { s with main := pc } where
  excludes := h.excludes_main rfl rfl hinside
  state := h.state
  pc := hat.congr rfl fun _ hq => hq
  creating idx hidx := absurd hidx (hpc idx)
  created _ := h.created hmain
  unjoined := h.unjoined
  wake := h.wake
  asleep ha := absurd (h.asleep ha) hwait

/-- `pthread_create`. -/
theorem create (h : Inv s) {idx : ℕ} (hidx : idx < n) (hpc : s.main = .create idx) :
    Inv { s.setThread ⟨idx, hidx⟩ .sleep with main := .create (idx + 1) } := by
  obtain ⟨hthreads, hjoined⟩ := h.creating idx hpc
  have habsent : s.thread ⟨idx, hidx⟩ = .absent := (hthreads _).2 le_rfl
  have hawake : s.monitor.asleep ≠ true := fun ha => by rw [h.asleep ha] at hpc; cases hpc
  constructor
  case excludes =>
    have hkeep : s.monitor.Excludes (s.setThread ⟨idx, hidx⟩ .sleep).Inside :=
      h.excludes_keep (by simp [ThreadPc.Inside, habsent])
    refine hkeep.congr rfl fun t => ?_
    cases t with
    | none => simp [State.Inside, MainPc.Inside, State.setThread, hpc]
    | some q => rfl
  case state =>
    intro q
    have hat := h.state q
    obtain rfl | hq := eq_or_ne q ⟨idx, hidx⟩
    · simp only [State.setThread]
      cases hs : s.state ⟨idx, hidx⟩ <;> simp [hs, TState.At, habsent] at hat ⊢
    · simp only [setThread_of_ne hq]
      exact hat
  case pc => trivial
  case creating =>
    intro idx' hidx'
    obtain rfl := MainPc.create.inj hidx'
    refine ⟨fun q => ?_, hjoined⟩
    obtain rfl | hq := eq_or_ne q ⟨idx, hidx⟩
    · simp [setThread_self]
    · have hne : (q : ℕ) ≠ idx := fun e => hq (Fin.ext e)
      simp only [setThread_of_ne hq, hthreads q]
      omega
  case created => exact fun hmain => absurd rfl (hmain _)
  case unjoined => exact h.unjoined
  case wake => exact fun ha => absurd ha hawake
  case asleep => exact fun ha => absurd ha hawake

/-- The end of the loop that creates the threads. -/
theorem allCreated (h : Inv s) {idx : ℕ} (hidx : n ≤ idx) (hpc : s.main = .create idx) :
    Inv { s with numLive := n, main := .loop } := by
  obtain ⟨hthreads, hjoined⟩ := h.creating idx hpc
  have hawake : s.monitor.asleep ≠ true := fun ha => by rw [h.asleep ha] at hpc; cases hpc
  constructor
  case excludes => exact h.excludes_main rfl rfl (by simp [MainPc.Inside, hpc])
  case state => exact h.state
  case pc => trivial
  case creating => exact fun idx' hidx' => by cases hidx'
  case created =>
    refine fun _ => ⟨fun p hp => ?_, ?_⟩
    · have hle := (hthreads p).1 hp
      omega
    · have hlive : ∀ p, (s.state p).live = 1 := fun p => if_neg (hjoined p)
      simp [hlive]
  case unjoined => exact h.unjoined
  case wake => exact fun ha => absurd ha hawake
  case asleep => exact fun ha => absurd ha hawake

/-- `pthread_join`. -/
theorem join (h : Inv s) {idx : Fin n} (hpc : s.main = .join idx) (hthread : s.thread idx = .ended) :
    Inv { s with
      state := Function.update s.state idx .TS_JOINED
      numLive := s.numLive - 1, numUnjoined := s.numUnjoined - 1, main := .scan (idx + 1) } := by
  have hterm : s.state idx = .TS_TERMINATED := by
    have hat := h.pc
    rwa [hpc] at hat
  have hawake : s.monitor.asleep ≠ true := fun ha => by rw [h.asleep ha] at hpc; cases hpc
  constructor
  case excludes => exact h.excludes_main rfl rfl (by simp [MainPc.Inside, hpc])
  case state =>
    intro q
    obtain rfl | hq := eq_or_ne q idx
    · simp only [Function.update_self]
      exact hthread
    · simp only [Function.update_of_ne hq]
      exact h.state q
  case pc => trivial
  case creating => exact fun idx' hidx' => by cases hidx'
  case created =>
    intro _
    obtain ⟨hthreads, hlive⟩ := h.created (by simp [hpc])
    refine ⟨hthreads, ?_⟩
    have hsum := sum_update_add (fun _ => TState.live) s.state idx .TS_JOINED
    have hone : (s.state idx).live = 1 := by rw [hterm]; rfl
    have hzero : TState.TS_JOINED.live = 0 := rfl
    simp only [hlive]
    omega
  case unjoined =>
    have hu := h.unjoined
    have hsum := sum_update_add (fun _ => TState.unjoined) s.state idx .TS_JOINED
    have hone : (s.state idx).unjoined = 1 := by rw [hterm]; rfl
    have hzero : TState.TS_JOINED.unjoined = 0 := rfl
    simp only [hu]
    omega
  case wake => exact fun ha => absurd ha hawake
  case asleep => exact fun ha => absurd ha hawake

theorem main (h : Inv s) (hst : MultiJoin.main s = some s') : Inv s' := by
  cases mainStep_of_main hst with
  | create idx hidx hpc => exact h.create hidx hpc
  | created idx hidx hpc => exact h.allCreated hidx hpc
  | again hpc hlive =>
    exact h.goto (by simp [MainPc.Inside, hpc]) hlive (by simp) (by simp [hpc]) (by simp [hpc])
  | exit hpc hlive =>
    exact h.goto (by simp [MainPc.Inside, hpc]) hlive (by simp) (by simp [hpc]) (by simp [hpc])
  | lock hpc howner =>
    have hlive : 0 < s.numLive := by
      have hat := h.pc
      obtain hpc | ⟨hpc, -⟩ := hpc <;> rwa [hpc] at hat
    have hasleep : s.monitor.asleep = false := by
      obtain hpc | hpc := hpc
      · by_contra ha
        rw [Bool.not_eq_false] at ha
        rw [h.asleep ha] at hpc
        cases hpc
      · exact hpc.2
    exact {
      excludes := h.excludes.enter howner trivial fun t ht => inside_main ht rfl
      state := h.state
      pc := hlive
      creating := fun idx hidx => by cases hidx
      created := fun _ => h.created fun idx hidx => by
        obtain hpc | ⟨hpc, -⟩ := hpc <;> rw [hpc] at hidx <;> cases hidx
      unjoined := h.unjoined
      wake := fun ha => by simp [hasleep] at ha
      asleep := fun ha => by simp [hasleep] at ha }
  | wait hpc hunjoined =>
    have hlive : 0 < s.numLive := by
      have hat := h.pc
      rwa [hpc] at hat
    exact {
      excludes := h.excludes.leave (t := none) (by simp [State.Inside, MainPc.Inside, hpc])
        (by simp [State.Inside, MainPc.Inside]) (fun t ht => inside_main ht rfl) rfl
      state := h.state
      pc := hlive
      creating := fun idx hidx => by cases hidx
      created := fun _ => h.created (by simp [hpc])
      unjoined := h.unjoined
      wake := fun _ hne => absurd hunjoined hne
      asleep := fun _ => rfl }
  | found hpc hunjoined =>
    exact h.goto (by simp [MainPc.Inside, hpc]) trivial (by simp) (by simp [hpc]) (by simp [hpc])
  | terminated idx hpc hterm =>
    exact h.goto (by simp [MainPc.Inside, hpc]) hterm (by simp) (by simp [hpc]) (by simp [hpc])
  | skip idx hpc hterm =>
    exact h.goto (by simp [MainPc.Inside, hpc]) trivial (by simp) (by simp [hpc]) (by simp [hpc])
  | scanned idx hidx hpc =>
    exact h.goto (by simp [MainPc.Inside, hpc]) trivial (by simp) (by simp [hpc]) (by simp [hpc])
  | join idx hpc hthread => exact h.join hpc hthread
  | unlock hpc =>
    have hawake : s.monitor.asleep ≠ true := fun ha => by rw [h.asleep ha] at hpc; cases hpc
    exact {
      excludes := h.excludes.leave (t := none) (by simp [State.Inside, MainPc.Inside, hpc])
        (by simp [State.Inside, MainPc.Inside]) (fun t ht => inside_main ht rfl) rfl
      state := h.state
      pc := trivial
      creating := fun idx hidx => by cases hidx
      created := fun _ => h.created (by simp [hpc])
      unjoined := h.unjoined
      wake := fun ha => absurd ha hawake
      asleep := fun ha => absurd ha hawake }

theorem step (h : Inv s) {l : Label n} (hst : MultiJoin.step s l = some s') : Inv s' := by
  obtain ⟨-, hst⟩ := Option.ite_none_left_eq_some.1 hst
  cases l with
  | thread p => exact h.thread hst
  | main => exact h.main hst
  | spurious =>
    obtain ⟨-, hst⟩ := Option.ite_none_right_eq_some.1 hst
    obtain rfl := Option.some.inj hst
    exact {
      excludes := h.excludes.congr rfl fun t => by cases t <;> rfl
      state := h.state
      pc := h.pc.congr rfl fun _ hq => hq
      creating := h.creating
      created := h.created
      unjoined := h.unjoined
      wake := by simp [Monitor.signal]
      asleep := by simp [Monitor.signal] }

end Inv

theorem inv_of_reachable {ok : State n → Label n → Prop} (hs : (program n).ReachableBy ok s) :
    Inv s :=
  hs.invariant inv_start fun _ _ _ h _ hst => h.step hst

/-! ## Runs end -/

/-- The steps of a thread, and those that its signal makes for the main thread. -/
def ThreadPc.cost (n : ℕ) : ThreadPc → ℕ
  | .absent => 2 * n + 14
  | .sleep => 2 * n + 14
  | .lock => 2 * n + 13
  | .terminate => 2 * n + 12
  | .unlock => 2 * n + 11
  | .signal => 2 * n + 10
  | .ended => 0

/-- A thread is marked that the loop has not come to. -/
def State.Ahead (s : State n) (idx : ℕ) : Prop := ∃ p : Fin n, idx ≤ p ∧ s.state p = .TS_TERMINATED

instance (s : State n) (idx : ℕ) : Decidable (s.Ahead idx) := inferInstanceAs (Decidable (∃ _, _))

/-- The steps of the main thread until it waits or joins. -/
def State.mainCost (s : State n) : ℕ :=
  match s.main with
  | .create idx => (n - idx) + 2 * n + 12
  | .loop => 2 * n + 11
  | .lock => 2 * n + 10
  | .test => 2 * n + 8
  | .wait => if s.monitor.asleep then 0 else 2 * n + 9
  | .scan idx => (if s.Ahead idx then 0 else 2 * n + 13) + 2 * (n - idx) + 1
  | .join idx => 2 * (n - idx)
  | .unlock => 2 * n + 12
  | .exited => 0

/-- The steps that are left, at most. -/
def cost (s : State n) : ℕ :=
  ∑ p, (s.thread p).cost n + (4 * n + 20) * ∑ p, (s.state p).live + s.mainCost

/-- What another thread does costs the main thread at most the return from its wait. -/
theorem mainCost_le (hmain : s'.main = s.main)
    (hscan : ∀ idx, s.main = .scan idx → s'.state = s.state) :
    s'.mainCost ≤
      s.mainCost + if s.monitor.asleep ∧ ¬ s'.monitor.asleep then 2 * n + 9 else 0 := by
  unfold State.mainCost
  rw [hmain]
  cases hs : s.main with
  | wait => cases s.monitor.asleep <;> cases s'.monitor.asleep <;> simp
  | scan idx =>
    have hahead : s'.Ahead idx ↔ s.Ahead idx := by rw [State.Ahead, State.Ahead, hscan idx hs]
    simp only [hahead]
    exact Nat.le_add_right _ _
  | _ => exact Nat.le_add_right _ _

/-- A step of a thread that lowers its own cost by more than what it gives to the main thread. -/
theorem cost_setThread {pc : ThreadPc} {m : Monitor (Option (Fin n))} {state : Fin n → TState}
    {numUnjoined : ℤ} (hlive : ∑ q, (state q).live = ∑ q, (s.state q).live)
    (hscan : ∀ idx, s.main = .scan idx → state = s.state)
    (hlt : pc.cost n + (if s.monitor.asleep ∧ ¬ m.asleep then 2 * n + 9 else 0) <
      (s.thread p).cost n) :
    cost { s.setThread p pc with monitor := m, state := state, numUnjoined := numUnjoined } <
      cost s := by
  have hsum := sum_update_add (fun _ => ThreadPc.cost n) s.thread p pc
  have hmain : State.mainCost { s.setThread p pc with
      monitor := m, state := state, numUnjoined := numUnjoined } ≤
      s.mainCost + if s.monitor.asleep ∧ ¬ m.asleep then 2 * n + 9 else 0 := mainCost_le rfl hscan
  simp only [cost, hlive]
  simp only [State.setThread] at hmain ⊢
  omega

theorem cost_thread (h : Inv s) (hst : threadFunc s p = some s') : cost s' < cost s := by
  obtain ⟨hpc, rfl⟩ | ⟨hpc, howner, rfl⟩ | ⟨hpc, rfl⟩ | ⟨hpc, rfl⟩ | ⟨hpc, rfl⟩ :=
    thread_cases hst
  · exact cost_setThread rfl (fun _ _ => rfl) (by simp [ThreadPc.cost, hpc])
  · exact cost_setThread rfl (fun _ _ => rfl) (by simp [ThreadPc.cost, hpc])
  · refine cost_setThread ?_ (fun idx hidx => ?_) (by simp [ThreadPc.cost, hpc, State.setThread])
    · have hsum := sum_update_add (fun _ => TState.live) s.state p .TS_TERMINATED
      have heq : TState.TS_TERMINATED.live = (s.state p).live := by
        rw [h.alive_of_terminate hpc]
        rfl
      omega
    · -- the main thread does not look for threads while another one is inside
      have hin : s.Inside none := by simp [State.Inside, MainPc.Inside, hidx]
      cases h.excludes.unique hin (show s.Inside (some p) from .inl hpc)
  · exact cost_setThread rfl (fun _ _ => rfl)
      (by simp [ThreadPc.cost, hpc, Monitor.unlock])
  · refine cost_setThread rfl (fun _ _ => rfl) ?_
    simp only [ThreadPc.cost, hpc, Monitor.signal]
    cases s.monitor.asleep <;> simp

/-- While a thread is marked, the loop finds one. -/
theorem Inv.ahead_zero (h : Inv s) (hne : s.numUnjoined ≠ 0) : s.Ahead 0 := by
  have hsum : ∑ p, (s.state p).unjoined ≠ 0 := fun hzero => hne (by rw [h.unjoined, hzero]; rfl)
  obtain ⟨p, -, hp⟩ := Finset.exists_ne_zero_of_sum_ne_zero hsum
  refine ⟨p, Nat.zero_le _, ?_⟩
  by_contra hterm
  exact hp (if_neg hterm)

/-- What the loop has passed over is not ahead. -/
theorem ahead_succ {idx : Fin n} (h : s.state idx ≠ .TS_TERMINATED) :
    s.Ahead (idx + 1) ↔ s.Ahead idx := by
  refine exists_congr fun p => and_congr_left fun hp => ⟨fun hle => by omega, fun hle => ?_⟩
  have hne : (p : ℕ) ≠ idx := fun e => h (Fin.ext e ▸ hp)
  omega

theorem cost_main (h : Inv s) (hst : main s = some s') : cost s' < cost s := by
  cases mainStep_of_main hst with
  | create idx hidx hpc =>
    have habsent : s.thread ⟨idx, hidx⟩ = .absent := ((h.creating idx hpc).1 _).2 le_rfl
    have hsum := sum_update_add (fun _ => ThreadPc.cost n) s.thread ⟨idx, hidx⟩ .sleep
    have heq : ThreadPc.absent.cost n = ThreadPc.sleep.cost n := rfl
    rw [habsent] at hsum
    simp only [cost, State.mainCost, State.setThread, hpc]
    omega
  | created idx hidx hpc => simp [cost, State.mainCost, hpc]
  | again hpc hlive => simp [cost, State.mainCost, hpc]
  | exit hpc hlive => simp [cost, State.mainCost, hpc]
  | lock hpc howner =>
    obtain hpc | ⟨hpc, hasleep⟩ := hpc
    · simp [cost, State.mainCost, hpc]
    · simp [cost, State.mainCost, hpc, hasleep]
  | wait hpc hunjoined => simp [cost, State.mainCost, hpc, Monitor.wait]
  | found hpc hunjoined =>
    have hahead : ({ s with main := .scan 0 } : State n).Ahead 0 := h.ahead_zero hunjoined
    simp only [cost, State.mainCost, hpc, hahead, if_true]
    omega
  | terminated idx hpc hterm =>
    have hahead : s.Ahead idx := ⟨idx, le_rfl, hterm⟩
    simp only [cost, State.mainCost, hpc, hahead, if_true]
    omega
  | skip idx hpc hterm =>
    have hahead : ({ s with main := .scan (idx + 1) } : State n).Ahead (idx + 1) ↔ s.Ahead idx :=
      ahead_succ hterm
    simp only [cost, State.mainCost, hpc, hahead]
    split <;> omega
  | scanned idx hidx hpc =>
    have hahead : ¬ s.Ahead idx := by
      rintro ⟨p, hp, -⟩
      omega
    simp only [cost, State.mainCost, hpc, hahead, if_false]
    omega
  | join idx hpc hthread =>
    have hterm : s.state idx = .TS_TERMINATED := by
      have hat := h.pc
      rwa [hpc] at hat
    have hsum := sum_update_add (fun _ => TState.live) s.state idx .TS_JOINED
    have hlive : ∑ p, (s.state p).live =
        ∑ p, (Function.update s.state idx .TS_JOINED p).live + 1 := by
      have hone : (s.state idx).live = 1 := by rw [hterm]; rfl
      have hzero : TState.TS_JOINED.live = 0 := rfl
      omega
    simp only [cost, State.mainCost, hpc, hlive, Nat.mul_succ]
    split <;> omega
  | unlock hpc => simp [cost, State.mainCost, hpc]

theorem cost_step (h : Inv s) {l : Label n} (hl : l ≠ .spurious) (hst : step s l = some s') :
    cost s' < cost s := by
  obtain ⟨-, hst⟩ := Option.ite_none_left_eq_some.1 hst
  cases l with
  | thread p => exact cost_thread h hst
  | main => exact cost_main h hst
  | spurious => exact absurd rfl hl

/-! ## Where nobody can go on -/

/-- No thread can make a step. -/
def Quiet (s : State n) : Prop := ∀ l, l ≠ .spurious → step s l = none

theorem Quiet.thread (h : Quiet s) (hmain : s.main ≠ .exited) (p : Fin n) :
    threadFunc s p = none := by
  have hnone := h (.thread p) (by simp)
  rwa [step, if_neg hmain] at hnone

theorem Quiet.main (h : Quiet s) (hmain : s.main ≠ .exited) : MultiJoin.main s = none := by
  have hnone := h .main (by simp)
  rwa [step, if_neg hmain] at hnone

/-- A thread that has terminated comes to its end: it needs the mutex no more. -/
theorem Quiet.ended_of_terminated (h : Quiet s) (hinv : Inv s) (hmain : s.main ≠ .exited)
    (hp : s.state p = .TS_TERMINATED) : s.thread p = .ended := by
  have hat := hinv.state p
  have hnone := h.thread hmain p
  rw [hp] at hat
  obtain hpc | hpc | hpc := hat
  · simp [threadFunc, hpc] at hnone
  · simp [threadFunc, hpc] at hnone
  · exact hpc

/-- Nobody is inside the mutex; in particular no join blocks. -/
theorem Quiet.not_inside (h : Quiet s) (hinv : Inv s) (hmain : s.main ≠ .exited)
    (t : Option (Fin n)) : ¬ s.Inside t := by
  cases t with
  | none =>
    have hnone := h.main hmain
    intro hin
    cases hpc : s.main with
    | test =>
      simp only [MultiJoin.main, hpc] at hnone
      split at hnone <;> cases hnone
    | scan idx => simp [MultiJoin.main, hpc] at hnone
    | join idx =>
      have hterm : s.state idx = .TS_TERMINATED := by
        have hat := hinv.pc
        rwa [hpc] at hat
      simp [MultiJoin.main, hpc, h.ended_of_terminated hinv hmain hterm] at hnone
    | unlock => simp [MultiJoin.main, hpc] at hnone
    | _ => simp [State.Inside, MainPc.Inside, hpc] at hin
  | some p =>
    have hnone := h.thread hmain p
    rintro (hpc | hpc) <;> simp [threadFunc, hpc] at hnone

/-- The mutex is free. -/
theorem Quiet.owner (h : Quiet s) (hinv : Inv s) (hmain : s.main ≠ .exited) :
    s.monitor.owner = none := by
  cases howner : s.monitor.owner with
  | none => rfl
  | some t => exact absurd ((hinv.excludes t).2 howner) (h.not_inside hinv hmain t)

/-- **No wake-up is lost and no join blocks for ever**: where nobody can go on, the main thread has
ended the process. -/
theorem Quiet.exited (h : Quiet s) (hinv : Inv s) : s.main = .exited := by
  by_contra hmain
  have hnone := h.main hmain
  have howner := h.owner hinv hmain
  have hwait : s.main = .wait ∧ s.monitor.asleep = true := by
    cases hpc : s.main with
    | create idx =>
      simp only [MultiJoin.main, hpc] at hnone
      split at hnone <;> cases hnone
    | loop => simp [MultiJoin.main, hpc] at hnone
    | lock => simp [MultiJoin.main, hpc, Monitor.lock, howner] at hnone
    | wait =>
      refine ⟨rfl, ?_⟩
      by_contra ha
      simp [MultiJoin.main, hpc, Monitor.wake, Monitor.lock, howner, ha] at hnone
    | exited => exact absurd hpc hmain
    | _ => exact absurd (by simp [State.Inside, MainPc.Inside, hpc]) (h.not_inside hinv hmain none)
  obtain ⟨hpc, hasleep⟩ := hwait
  obtain ⟨hthreads, hlive⟩ := hinv.created (by simp [hpc])
  have hended : ∀ p, s.thread p = .ended := by
    intro p
    have hp := h.thread hmain p
    cases hs : s.thread p with
    | absent => exact absurd hs (hthreads p)
    | lock => simp [threadFunc, hs, Monitor.lock, howner] at hp
    | ended => rfl
    | _ => simp [threadFunc, hs] at hp
  have hunjoined : s.numUnjoined = 0 := by
    by_contra hne
    obtain ⟨p, hp | hp⟩ := hinv.wake hasleep hne <;> rw [hended p] at hp <;> cases hp
  have hjoined : ∀ p, (s.state p).live = 0 := by
    intro p
    have hat := hinv.state p
    rw [hended p] at hat
    cases hs : s.state p with
    | TS_ALIVE => simp [hs, TState.At] at hat
    | TS_TERMINATED =>
      have hzero : ∑ p, (s.state p).unjoined = 0 := by
        have hu := hinv.unjoined
        omega
      have hp := Finset.sum_eq_zero_iff.1 hzero p (Finset.mem_univ p)
      rw [hs] at hp
      cases hp
    | TS_JOINED => rfl
  have hpos : 0 < s.numLive := by
    have hat := hinv.pc
    rwa [hpc] at hat
  simp only [hjoined, Finset.sum_const_zero] at hlive
  omega

/-! ## The program -/

/-- **Joining the threads**, in any order of the steps: one thread at a time is inside the mutex; the
counters count the threads that are to be joined; the process ends only when all threads have ended
and are joined. Without spurious wake-ups every run ends, and it ends with the process: although
the main thread joins with the mutex held, it never waits for a thread that waits for the mutex. -/
theorem multijoin_joins {ls : List (Label n)} (hrun : (program n).run start ls = some s) :
    (∀ t u, s.Inside t → s.Inside u → t = u) ∧
      s.numUnjoined = ((Finset.univ.filter fun p => s.state p = .TS_TERMINATED).card : ℤ) ∧
      (∀ p, s.state p = .TS_JOINED → s.thread p = .ended) ∧
      (s.main = .exited → ∀ p, s.state p = .TS_JOINED) ∧
      (.spurious ∉ ls → ls.length ≤ 6 * n * n + 37 * n + 12) ∧
      (Quiet s → s.main = .exited) := by
  have hs : (program n).Reachable s := Machine.Reachable.run .init ls hrun
  have hinv : Inv s := inv_of_reachable hs
  refine ⟨fun t u => hinv.excludes.unique, ?_, fun p hp => ?_, fun hexited p => ?_, fun hls => ?_,
    fun hquiet => hquiet.exited hinv⟩
  · rw [hinv.unjoined, Finset.card_filter]
    rfl
  · have hat := hinv.state p
    rwa [hp] at hat
  · have hat := hinv.pc
    rw [hexited] at hat
    have hlive : ∑ p, (s.state p).live = 0 := by
      obtain ⟨-, hlive⟩ := hinv.created (by simp [hexited])
      have hle : s.numLive ≤ 0 := hat
      omega
    have hp := Finset.sum_eq_zero_iff.1 hlive p (Finset.mem_univ p)
    by_contra hne
    rw [TState.live, if_neg hne] at hp
    cases hp
  · have hs₀ : (program n).ReachableBy (fun _ l => l ≠ .spurious) start := .init
    have hlen := hs₀.length_le_of_credit (μ := cost) (ν := fun _ => 0)
      (fun _ _ _ hs hl hst => by simpa using cost_step (inv_of_reachable hs) hl hst) ls
      (fun _ _ hl he => hls (he ▸ hl)) hrun
    have hstart : cost (start : State n) = 6 * n * n + 37 * n + 12 := by
      simp [cost, start, ThreadPc.cost, TState.live, State.mainCost]
      ring
    omega

/-- Two threads; the second one terminates while the main thread joins the first. -/
theorem multijoin_joins_two :
    ∃ s, (program 2).run start
        [.main, .main, .main, .main, .thread 0, .thread 0, .thread 0, .thread 0, .main, .main,
          .main, .thread 1, .thread 0, .main, .main, .main, .main, .main, .thread 1, .thread 1,
          .thread 1, .main, .thread 1, .main, .main, .main, .main, .main, .main, .main] = some s ∧
      s.main = .exited ∧ ∀ p, s.state p = .TS_JOINED := by
  have hrun : (program 2).run start
      [.main, .main, .main, .main, .thread 0, .thread 0, .thread 0, .thread 0, .main, .main,
        .main, .thread 1, .thread 0, .main, .main, .main, .main, .main, .thread 1, .thread 1,
        .thread 1, .main, .thread 1, .main, .main, .main, .main, .main, .main, .main] = some _ := rfl
  exact ⟨_, hrun, rfl, (multijoin_joins hrun).2.2.2.1 rfl⟩

end TlpiLearn.MultiJoin
