import TlpiLearn.Foundations.Machine
import TlpiLearn.Foundations.Monitor
import TlpiLearn.Foundations.Parties

/-!
# Producers and a consumer

`threads/prod_condvar.c`: each producer adds its units to `avail` under the mutex and signals after
it has released it; the main thread waits while `avail` is 0, takes all units that there are, and
ends the process once it has taken as many as the arguments sum up to.

An argument may be negative: its producer adds nothing, but the sum is smaller. The sum is an `int`;
`Fits` says that it, `avail` and `numConsumed` do not overflow.
-/

namespace TlpiLearn.ProdCondvar

variable {π : Type*}

/-- The statement of `producer` that comes next. -/
inductive ProducerPc
  /-- `j < cnt`. -/
  | test
  | lock
  /-- `avail++`. -/
  | incr
  | unlock
  /-- `pthread_cond_signal(&cond)`. -/
  | signal
  | ended
  deriving DecidableEq, Repr

structure Producer where
  pc : ProducerPc
  j : ℕ
  deriving DecidableEq, Repr

/-- The statement of `main` that comes next. -/
inductive MainPc
  | lock
  /-- `while (avail == 0)`. -/
  | test
  /-- In `pthread_cond_wait(&cond, &mtx)`. -/
  | wait
  /-- `while (avail > 0)`. -/
  | consume
  | unlock
  /-- `if (done)`. -/
  | checkDone
  | exited
  deriving DecidableEq, Repr

structure State (π : Type*) where
  producer : π → Producer
  main : MainPc
  /-- `mtx` and `cond`; `none` is the main thread. -/
  monitor : Monitor (Option π)
  avail : ℕ
  numConsumed : ℕ
  done : Bool

inductive Label (π : Type*)
  | producer (p : π)
  | main
  /-- A spurious wake-up. -/
  | spurious
  deriving DecidableEq, Repr

/-- All threads are created. -/
def start : State π :=
  { producer := fun _ => ⟨.test, 0⟩, main := .lock, monitor := .free, avail := 0, numConsumed := 0
    done := false }

variable [DecidableEq π]

/-- `producer`. -/
def producer (cnt : π → ℤ) (s : State π) (p : π) : Option (State π) :=
  let j := (s.producer p).j
  match (s.producer p).pc with
  | .test =>
    some { s with
      producer := Function.update s.producer p ⟨if (j : ℤ) < cnt p then .lock else .ended, j⟩ }
  | .lock =>
    (s.monitor.lock (some p)).map fun m =>
      { s with monitor := m, producer := Function.update s.producer p ⟨.incr, j⟩ }
  | .incr =>
    some { s with avail := s.avail + 1, producer := Function.update s.producer p ⟨.unlock, j⟩ }
  | .unlock =>
    some { s with
      monitor := s.monitor.unlock, producer := Function.update s.producer p ⟨.signal, j⟩ }
  | .signal =>
    some { s with
      monitor := s.monitor.signal, producer := Function.update s.producer p ⟨.test, j + 1⟩ }
  | .ended => none

omit [DecidableEq π] in
/-- The loop of `main`. -/
def main (totRequired : ℤ) (s : State π) : Option (State π) :=
  match s.main with
  | .lock => (s.monitor.lock none).map fun m => { s with monitor := m, main := .test }
  | .test =>
    if s.avail = 0 then some { s with monitor := .wait, main := .wait }
    else some { s with main := .consume }
  | .wait => (s.monitor.wake none).map fun m => { s with monitor := m, main := .test }
  | .consume =>
    if 0 < s.avail then
      some { s with
        numConsumed := s.numConsumed + 1, avail := s.avail - 1
        done := decide (totRequired ≤ s.numConsumed + 1) }
    else some { s with main := .unlock }
  | .unlock => some { s with monitor := s.monitor.unlock, main := .checkDone }
  | .checkDone => some { s with main := if s.done then .exited else .lock }
  | .exited => none

variable [Fintype π]

/-- `totRequired`, an `int` to which the arguments are added. -/
def totRequired (cnt : π → ℤ) : ℤ := (∑ p, cnt p).bmod (2 ^ 32)

/-- The threads, until `main` ends the process. -/
def step (cnt : π → ℤ) (s : State π) (l : Label π) : Option (State π) :=
  if s.main = .exited then none
  else match l with
    | .producer p => producer cnt s p
    | .main => main (totRequired cnt) s
    | .spurious =>
      if s.monitor.asleep then some { s with monitor := s.monitor.signal } else none

def program (cnt : π → ℤ) : Machine (State π) (Label π) := ⟨start, step cnt⟩

/-- The positive arguments together, and the negative ones together, fit an `int`. -/
structure Fits (cnt : π → ℤ) : Prop where
  sum_toNat_lt : ∑ p, (cnt p).toNat < 2 ^ 31
  sum_neg_toNat_le : ∑ p, (-cnt p).toNat ≤ 2 ^ 31

variable {cnt : π → ℤ} {s s' : State π} {p : π}

/-! ## What a step does -/

/-- The producer `p` after a step. -/
def State.setProducer (s : State π) (p : π) (pc : ProducerPc) (j : ℕ) : State π :=
  { s with producer := Function.update s.producer p ⟨pc, j⟩ }

omit [Fintype π] in
/-- The steps of a producer. -/
theorem producer_cases (hst : producer cnt s p = some s') :
    let j := (s.producer p).j
    ((s.producer p).pc = .test ∧ (j : ℤ) < cnt p ∧ s' = s.setProducer p .lock j) ∨
    ((s.producer p).pc = .test ∧ cnt p ≤ j ∧ s' = s.setProducer p .ended j) ∨
    ((s.producer p).pc = .lock ∧ s.monitor.owner = none ∧
      s' = { s.setProducer p .incr j with monitor := { s.monitor with owner := some (some p) } }) ∨
    ((s.producer p).pc = .incr ∧ s' = { s.setProducer p .unlock j with avail := s.avail + 1 }) ∨
    ((s.producer p).pc = .unlock ∧
      s' = { s.setProducer p .signal j with monitor := s.monitor.unlock }) ∨
    ((s.producer p).pc = .signal ∧
      s' = { s.setProducer p .test (j + 1) with monitor := s.monitor.signal }) := by
  intro j
  unfold producer at hst
  cases hpc : (s.producer p).pc with
  | test =>
    simp only [hpc, Option.some.injEq] at hst
    obtain hlt | hle := lt_or_ge (j : ℤ) (cnt p)
    · rw [if_pos hlt] at hst
      exact .inl ⟨rfl, hlt, hst.symm⟩
    · rw [if_neg hle.not_gt] at hst
      exact .inr (.inl ⟨rfl, hle, hst.symm⟩)
  | lock =>
    simp only [hpc] at hst
    obtain ⟨m, hm, rfl⟩ := Option.map_eq_some_iff.1 hst
    obtain ⟨howner, rfl⟩ := Monitor.lock_eq_some.1 hm
    exact .inr (.inr (.inl ⟨rfl, howner, rfl⟩))
  | incr =>
    simp only [hpc, Option.some.injEq] at hst
    exact .inr (.inr (.inr (.inl ⟨rfl, hst.symm⟩)))
  | unlock =>
    simp only [hpc, Option.some.injEq] at hst
    exact .inr (.inr (.inr (.inr (.inl ⟨rfl, hst.symm⟩))))
  | signal =>
    simp only [hpc, Option.some.injEq] at hst
    exact .inr (.inr (.inr (.inr (.inr ⟨rfl, hst.symm⟩))))
  | ended => simp [hpc] at hst

omit [DecidableEq π] [Fintype π] in
/-- The steps of the consumer. -/
theorem main_cases {totRequired : ℤ} (hst : main totRequired s = some s') :
    ((s.main = .lock ∨ s.main = .wait ∧ s.monitor.asleep = false) ∧ s.monitor.owner = none ∧
      s' = { s with monitor := { s.monitor with owner := some none }, main := .test }) ∨
    (s.main = .test ∧ s.avail = 0 ∧ s' = { s with monitor := .wait, main := .wait }) ∨
    (s.main = .test ∧ s.avail ≠ 0 ∧ s' = { s with main := .consume }) ∨
    (s.main = .consume ∧ 0 < s.avail ∧
      s' = { s with
        numConsumed := s.numConsumed + 1, avail := s.avail - 1
        done := decide (totRequired ≤ s.numConsumed + 1) }) ∨
    (s.main = .consume ∧ s.avail = 0 ∧ s' = { s with main := .unlock }) ∨
    (s.main = .unlock ∧ s' = { s with monitor := s.monitor.unlock, main := .checkDone }) ∨
    (s.main = .checkDone ∧ s' = { s with main := if s.done then .exited else .lock }) := by
  unfold main at hst
  cases hpc : s.main with
  | lock =>
    simp only [hpc] at hst
    obtain ⟨m, hm, rfl⟩ := Option.map_eq_some_iff.1 hst
    obtain ⟨howner, rfl⟩ := Monitor.lock_eq_some.1 hm
    exact .inl ⟨.inl rfl, howner, rfl⟩
  | test =>
    simp only [hpc] at hst
    split at hst
    · exact .inr (.inl ⟨rfl, ‹_›, (Option.some.inj hst).symm⟩)
    · exact .inr (.inr (.inl ⟨rfl, ‹_›, (Option.some.inj hst).symm⟩))
  | wait =>
    simp only [hpc] at hst
    obtain ⟨m, hm, rfl⟩ := Option.map_eq_some_iff.1 hst
    obtain ⟨hasleep, howner, rfl⟩ := Monitor.wake_eq_some.1 hm
    exact .inl ⟨.inr ⟨rfl, hasleep⟩, howner, rfl⟩
  | consume =>
    simp only [hpc] at hst
    split at hst
    · exact .inr (.inr (.inr (.inl ⟨rfl, ‹_›, (Option.some.inj hst).symm⟩)))
    · exact .inr (.inr (.inr (.inr (.inl ⟨rfl, by omega, (Option.some.inj hst).symm⟩))))
  | unlock =>
    simp only [hpc, Option.some.injEq] at hst
    exact .inr (.inr (.inr (.inr (.inr (.inl ⟨rfl, hst.symm⟩)))))
  | checkDone =>
    simp only [hpc, Option.some.injEq] at hst
    exact .inr (.inr (.inr (.inr (.inr (.inr ⟨rfl, hst.symm⟩)))))
  | exited => simp [hpc] at hst

/-! ## The invariant -/

def Producer.Inside (w : Producer) : Prop := w.pc = .incr ∨ w.pc = .unlock

def MainPc.Inside (pc : MainPc) : Prop := pc = .test ∨ pc = .consume ∨ pc = .unlock

/-- The thread is between its `lock` and its `unlock`. -/
def State.Inside (s : State π) : Option π → Prop
  | none => s.main.Inside
  | some p => (s.producer p).Inside

/-- The producer is on the way to its signal. -/
def Producer.Notifies (w : Producer) : Prop := w.pc = .unlock ∨ w.pc = .signal

instance (w : Producer) : Decidable w.Notifies := inferInstanceAs (Decidable (_ ∨ _))

/-- The units that a producer has not added yet. -/
def Producer.left (cnt : ℤ) (w : Producer) : ℕ :=
  cnt.toNat - (w.j + if w.Notifies then 1 else 0)

structure Inv (cnt : π → ℤ) (s : State π) : Prop where
  excludes : s.monitor.Excludes s.Inside
  running : ∀ p, (s.producer p).pc ≠ .test → (s.producer p).pc ≠ .ended →
    ((s.producer p).j : ℤ) < cnt p
  ended : ∀ p, (s.producer p).pc = .ended → cnt p ≤ (s.producer p).j
  units : s.numConsumed + s.avail + ∑ p, (s.producer p).left (cnt p) = ∑ p, (cnt p).toNat
  wake : s.monitor.asleep = true → s.avail ≠ 0 → ∃ p, (s.producer p).Notifies
  asleep : s.monitor.asleep = true → s.main = .wait
  done : s.done = decide (0 < s.numConsumed ∧ totRequired cnt ≤ s.numConsumed)
  waiting : s.main = .lock ∨ s.main = .test ∨ s.main = .wait → s.done = false
  exited : s.main = .exited → s.done = true

omit [DecidableEq π] in
theorem inv_start : Inv cnt (start : State π) where
  excludes := Monitor.excludes_free fun t => by
    cases t <;> simp [State.Inside, start, MainPc.Inside, Producer.Inside]
  running p hp := absurd rfl hp
  ended p hp := by simp [start] at hp
  units := by simp [start, Producer.left, Producer.Notifies]
  wake h := by simp [start, Monitor.free] at h
  asleep h := by simp [start, Monitor.free] at h
  done := by simp [start]
  waiting _ := rfl
  exited h := by simp [start] at h

namespace Inv

/-- A step of a producer. -/
theorem setProducer (h : Inv cnt s) {pc : ProducerPc} {j : ℕ} {m : Monitor (Option π)} {avail : ℕ}
    (hexcludes : m.Excludes (s.setProducer p pc j).Inside)
    (hrunning : pc ≠ .test → pc ≠ .ended → (j : ℤ) < cnt p) (hended : pc = .ended → cnt p ≤ j)
    (hunits : avail + Producer.left (cnt p) ⟨pc, j⟩ = s.avail + (s.producer p).left (cnt p))
    (hasleep : m.asleep = true → s.monitor.asleep = true)
    (hwake : ¬ Producer.Notifies ⟨pc, j⟩ → m.asleep = true →
      avail = s.avail ∧ ¬ (s.producer p).Notifies) :
    Inv cnt { s.setProducer p pc j with monitor := m, avail := avail } := by
  have hself : (s.setProducer p pc j).producer p = ⟨pc, j⟩ := Function.update_self ..
  have hold : ∀ q, q ≠ p → (s.setProducer p pc j).producer q = s.producer q := fun q hq =>
    Function.update_of_ne hq ..
  constructor
  case excludes =>
    refine hexcludes.congr rfl fun t => ?_
    cases t <;> rfl
  case running =>
    intro q
    obtain rfl | hq := eq_or_ne q p
    · simpa only [hself] using hrunning
    · simpa only [hold q hq] using h.running q
  case ended =>
    intro q
    obtain rfl | hq := eq_or_ne q p
    · simpa only [hself] using hended
    · simpa only [hold q hq] using h.ended q
  case units =>
    have hsum := sum_update_add (fun q => Producer.left (cnt q)) s.producer p ⟨pc, j⟩
    have hu := h.units
    simp only [State.setProducer]
    omega
  case wake =>
    intro ha havail
    by_cases hn : Producer.Notifies ⟨pc, j⟩
    · exact ⟨p, by simpa only [hself] using hn⟩
    · obtain ⟨heq, hnp⟩ := hwake hn ha
      obtain ⟨q, hq⟩ := h.wake (hasleep ha) (heq ▸ havail)
      have hqp : q ≠ p := fun e => hnp (e ▸ hq)
      exact ⟨q, by simpa only [hold q hqp] using hq⟩
  case asleep => exact fun ha => h.asleep (hasleep ha)
  case done => exact h.done
  case waiting => exact h.waiting
  case exited => exact h.exited

/-- The mutex is not touched by a producer that stays inside or outside. -/
theorem excludes_keep (h : Inv cnt s) {pc : ProducerPc} {j : ℕ}
    (hinside : Producer.Inside ⟨pc, j⟩ ↔ (s.producer p).Inside) :
    s.monitor.Excludes (s.setProducer p pc j).Inside := by
  refine h.excludes.congr rfl fun t => ?_
  cases t with
  | none => exact Iff.rfl
  | some q =>
    obtain rfl | hq := eq_or_ne q p
    · simpa only [State.Inside, State.setProducer, Function.update_self] using hinside
    · simp only [State.Inside, State.setProducer, Function.update_of_ne hq]

omit [Fintype π] in
/-- The other threads are where they were. -/
theorem inside_of_ne {pc : ProducerPc} {j : ℕ} {t : Option π} (ht : t ≠ some p) :
    (s.setProducer p pc j).Inside t ↔ s.Inside t := by
  cases t with
  | none => exact Iff.rfl
  | some q =>
    have hq : q ≠ p := fun e => ht (congrArg some e)
    simp only [State.Inside, State.setProducer, Function.update_of_ne hq]

omit [Fintype π] in
theorem inside_self {pc : ProducerPc} {j : ℕ} :
    (s.setProducer p pc j).Inside (some p) ↔ Producer.Inside ⟨pc, j⟩ := by
  simp only [State.Inside, State.setProducer, Function.update_self]

theorem producer (h : Inv cnt s) (hst : ProdCondvar.producer cnt s p = some s') : Inv cnt s' := by
  obtain ⟨hpc, hlt, rfl⟩ | ⟨hpc, hle, rfl⟩ | ⟨hpc, howner, rfl⟩ | ⟨hpc, rfl⟩ | ⟨hpc, rfl⟩ |
    ⟨hpc, rfl⟩ := producer_cases hst
  · exact h.setProducer (h.excludes_keep (by simp [Producer.Inside, hpc])) (fun _ _ => hlt) (by simp)
      (by simp [Producer.left, Producer.Notifies, hpc]) id
      fun _ _ => ⟨rfl, by simp [Producer.Notifies, hpc]⟩
  · exact h.setProducer (h.excludes_keep (by simp [Producer.Inside, hpc])) (by simp) (fun _ => hle)
      (by simp [Producer.left, Producer.Notifies, hpc]) id
      fun _ _ => ⟨rfl, by simp [Producer.Notifies, hpc]⟩
  · have hlt := h.running p (by simp [hpc]) (by simp [hpc])
    refine h.setProducer (h.excludes.enter howner ?_ fun t ht => inside_of_ne ht)
      (fun _ _ => hlt) (by simp)
      (by simp [Producer.left, Producer.Notifies, State.setProducer, hpc]) id
      fun _ _ => ⟨rfl, by simp [Producer.Notifies, hpc]⟩
    exact inside_self.2 (.inl rfl)
  · have hlt := h.running p (by simp [hpc]) (by simp [hpc])
    refine h.setProducer (h.excludes_keep (by simp [Producer.Inside, hpc])) (fun _ _ => hlt) (by simp)
      ?_ id fun hn => absurd (.inl rfl) hn
    simp only [Producer.left, Producer.Notifies, hpc]
    simp
    omega
  · have hlt := h.running p (by simp [hpc]) (by simp [hpc])
    refine h.setProducer (h.excludes.leave (t := some p) ?_ ?_ (fun t ht => inside_of_ne ht) rfl)
      (fun _ _ => hlt) (by simp)
      (by simp [Producer.left, Producer.Notifies, State.setProducer, hpc]) id
      fun hn => absurd (.inr rfl) hn
    · exact .inr hpc
    · rw [inside_self]
      simp [Producer.Inside]
  · refine h.setProducer ((h.excludes_keep ?_).congr rfl fun _ => Iff.rfl) (by simp) (by simp)
      (by simp [Producer.left, Producer.Notifies, State.setProducer, hpc])
      (by simp [Monitor.signal]) (by simp [Monitor.signal])
    simp [Producer.Inside, hpc]

omit [Fintype π] [DecidableEq π] in
/-- The producers are where they were when the main thread moves. -/
theorem inside_main {t : Option π} (ht : t ≠ none) (hp : s'.producer = s.producer) :
    s'.Inside t ↔ s.Inside t := by
  cases t with
  | none => exact absurd rfl ht
  | some p => simp only [State.Inside, hp]

omit [DecidableEq π] in
theorem excludes_main (h : Inv cnt s) (hm : s'.monitor.owner = s.monitor.owner)
    (hp : s'.producer = s.producer) (hinside : s'.main.Inside ↔ s.main.Inside) :
    s'.monitor.Excludes s'.Inside := by
  refine h.excludes.congr hm fun t => ?_
  cases t with
  | none => exact hinside
  | some p => simp only [State.Inside, hp]

omit [DecidableEq π] in
/-- A main thread that is not at its wait is awake. -/
theorem awake (h : Inv cnt s) (hmain : s.main ≠ .wait) : s.monitor.asleep ≠ true :=
  fun ha => hmain (h.asleep ha)

omit [DecidableEq π] in
theorem main (h : Inv cnt s) (hst : ProdCondvar.main (totRequired cnt) s = some s') :
    Inv cnt s' := by
  obtain ⟨hpc, howner, rfl⟩ | ⟨hpc, havail, rfl⟩ | ⟨hpc, havail, rfl⟩ | ⟨hpc, havail, rfl⟩ |
    ⟨hpc, havail, rfl⟩ | ⟨hpc, rfl⟩ | ⟨hpc, rfl⟩ := main_cases hst
  · have hasleep : s.monitor.asleep = false := by
      obtain hpc | hpc := hpc
      · exact Bool.eq_false_of_not_eq_true (h.awake (by simp [hpc]))
      · exact hpc.2
    exact {
      excludes := h.excludes.enter howner (.inl rfl) fun t ht => inside_main ht rfl
      running := h.running
      ended := h.ended
      units := h.units
      wake := fun ha => by simp [hasleep] at ha
      asleep := fun ha => by simp [hasleep] at ha
      done := h.done
      waiting := fun _ => h.waiting (hpc.imp id fun hpc => .inr hpc.1)
      exited := by simp }
  · exact {
      excludes := h.excludes.leave (t := none) (.inl hpc) (by simp [State.Inside, MainPc.Inside])
        (fun t ht => inside_main ht rfl) rfl
      running := h.running
      ended := h.ended
      units := h.units
      wake := fun _ hne => absurd havail hne
      asleep := fun _ => rfl
      done := h.done
      waiting := fun _ => h.waiting (.inr (.inl hpc))
      exited := by simp }
  · have hawake : s.monitor.asleep ≠ true := h.awake (by simp [hpc])
    exact {
      excludes := h.excludes_main rfl rfl (by simp [MainPc.Inside, hpc])
      running := h.running
      ended := h.ended
      units := h.units
      wake := h.wake
      asleep := fun ha => absurd ha hawake
      done := h.done
      waiting := by simp
      exited := by simp }
  · have hawake : s.monitor.asleep ≠ true := h.awake (by simp [hpc])
    exact {
      excludes := h.excludes_main rfl rfl Iff.rfl
      running := h.running
      ended := h.ended
      units := by
        have hu := h.units
        simp only
        omega
      wake := fun ha => absurd ha hawake
      asleep := fun ha => absurd ha hawake
      done := by simp
      waiting := by simp [hpc]
      exited := by simp [hpc] }
  · have hawake : s.monitor.asleep ≠ true := h.awake (by simp [hpc])
    exact {
      excludes := h.excludes_main rfl rfl (by simp [MainPc.Inside, hpc])
      running := h.running
      ended := h.ended
      units := h.units
      wake := h.wake
      asleep := fun ha => absurd ha hawake
      done := h.done
      waiting := by simp
      exited := by simp }
  · have hawake : s.monitor.asleep ≠ true := h.awake (by simp [hpc])
    exact {
      excludes := h.excludes.leave (t := none) (.inr (.inr hpc))
        (by simp [State.Inside, MainPc.Inside]) (fun t ht => inside_main ht rfl) rfl
      running := h.running
      ended := h.ended
      units := h.units
      wake := h.wake
      asleep := fun ha => absurd ha hawake
      done := h.done
      waiting := by simp
      exited := by simp }
  · have hawake : s.monitor.asleep ≠ true := h.awake (by simp [hpc])
    exact {
      excludes := h.excludes_main rfl rfl (by cases s.done <;> simp [MainPc.Inside, hpc])
      running := h.running
      ended := h.ended
      units := h.units
      wake := h.wake
      asleep := fun ha => absurd ha hawake
      done := h.done
      waiting := by cases hd : s.done <;> simp
      exited := by cases hd : s.done <;> simp }

theorem step (h : Inv cnt s) {l : Label π} (hst : ProdCondvar.step cnt s l = some s') :
    Inv cnt s' := by
  obtain ⟨-, hst⟩ := Option.ite_none_left_eq_some.1 hst
  cases l with
  | producer p => exact h.producer hst
  | main => exact h.main hst
  | spurious =>
    obtain ⟨-, hst⟩ := Option.ite_none_right_eq_some.1 hst
    obtain rfl := Option.some.inj hst
    exact {
      excludes := h.excludes.congr rfl fun t => by cases t <;> rfl
      running := h.running
      ended := h.ended
      units := h.units
      wake := by simp [Monitor.signal]
      asleep := by simp [Monitor.signal]
      done := h.done
      waiting := h.waiting
      exited := h.exited }

end Inv

theorem inv_of_reachable {ok : State π → Label π → Prop} (hs : (program cnt).ReachableBy ok s) :
    Inv cnt s :=
  hs.invariant inv_start fun _ _ _ h _ hst => h.step hst

/-! ## Runs end -/

/-- The steps of a producer, and those that its units and signals make for the consumer. -/
def Producer.cost (cnt : ℤ) (w : Producer) : ℕ :=
  match w.pc with
  | .test => 13 * (cnt.toNat - w.j) + 1
  | .lock => 13 * (cnt.toNat - w.j)
  | .incr => 13 * (cnt.toNat - w.j) - 1
  | .unlock => 13 * (cnt.toNat - w.j) - 8
  | .signal => 13 * (cnt.toNat - w.j) - 9
  | .ended => 0

/-- The steps of the consumer until it waits. -/
def State.mainCost (s : State π) : ℕ :=
  match s.main with
  | .lock => 2
  | .test => 1
  | .wait => if s.monitor.asleep then 0 else 2
  | .consume => if s.avail = 0 then 5 else 0
  | .unlock => 4
  | .checkDone => 3
  | .exited => 0

/-- The steps that are left, at most. -/
def cost (cnt : π → ℤ) (s : State π) : ℕ :=
  ∑ p, (s.producer p).cost (cnt p) + 6 * s.avail + s.mainCost

omit [Fintype π] [DecidableEq π] in
/-- What another thread does costs the consumer at most the return from its wait. -/
theorem mainCost_le (hmain : s'.main = s.main) (havail : s.avail ≤ s'.avail) :
    s'.mainCost ≤ s.mainCost + if s.monitor.asleep ∧ ¬ s'.monitor.asleep then 2 else 0 := by
  unfold State.mainCost
  rw [hmain]
  cases s.main with
  | wait => cases s.monitor.asleep <;> cases s'.monitor.asleep <;> simp
  | consume =>
    dsimp only
    split <;> split <;> omega
  | _ => exact Nat.le_add_right _ _

/-- A step of a producer that lowers its own cost by more than what it gives to the consumer. -/
theorem cost_setProducer {pc : ProducerPc} {j avail : ℕ} {m : Monitor (Option π)}
    (havail : s.avail ≤ avail)
    (hlt : Producer.cost (cnt p) ⟨pc, j⟩ + 6 * avail +
      (if s.monitor.asleep ∧ ¬ m.asleep then 2 else 0) < (s.producer p).cost (cnt p) + 6 * s.avail) :
    cost cnt { s.setProducer p pc j with monitor := m, avail := avail } < cost cnt s := by
  have hsum := sum_update_add (fun q => Producer.cost (cnt q)) s.producer p ⟨pc, j⟩
  have hmain : State.mainCost { s.setProducer p pc j with monitor := m, avail := avail } ≤
      s.mainCost + if s.monitor.asleep ∧ ¬ m.asleep then 2 else 0 := mainCost_le rfl havail
  simp only [cost]
  simp only [State.setProducer] at hmain ⊢
  omega

theorem cost_producer (h : Inv cnt s) (hst : producer cnt s p = some s') :
    cost cnt s' < cost cnt s := by
  have hrunning := h.running p
  obtain ⟨hpc, hlt, rfl⟩ | ⟨hpc, hle, rfl⟩ | ⟨hpc, howner, rfl⟩ | ⟨hpc, rfl⟩ | ⟨hpc, rfl⟩ |
    ⟨hpc, rfl⟩ := producer_cases hst
  · exact cost_setProducer le_rfl (by simp [Producer.cost, hpc])
  · exact cost_setProducer le_rfl (by simp [Producer.cost, hpc])
  · have hlt := hrunning (by simp [hpc]) (by simp [hpc])
    refine cost_setProducer le_rfl ?_
    simp only [Producer.cost, hpc, State.setProducer]
    simp
    omega
  · have hlt := hrunning (by simp [hpc]) (by simp [hpc])
    refine cost_setProducer (Nat.le_succ _) ?_
    simp only [Producer.cost, hpc, State.setProducer]
    simp
    omega
  · have hlt := hrunning (by simp [hpc]) (by simp [hpc])
    refine cost_setProducer le_rfl ?_
    simp only [Producer.cost, hpc, State.setProducer, Monitor.unlock]
    simp
    omega
  · have hlt := hrunning (by simp [hpc]) (by simp [hpc])
    refine cost_setProducer le_rfl ?_
    simp only [Producer.cost, hpc, State.setProducer, Monitor.signal]
    cases s.monitor.asleep <;> simp <;> omega

omit [DecidableEq π] in
theorem cost_main (hst : main (totRequired cnt) s = some s') :
    cost cnt s' < cost cnt s := by
  obtain ⟨hpc, howner, rfl⟩ | ⟨hpc, havail, rfl⟩ | ⟨hpc, havail, rfl⟩ | ⟨hpc, havail, rfl⟩ |
    ⟨hpc, havail, rfl⟩ | ⟨hpc, rfl⟩ | ⟨hpc, rfl⟩ := main_cases hst
  · obtain hpc | ⟨hpc, hasleep⟩ := hpc
    · simp [cost, State.mainCost, hpc]
    · simp [cost, State.mainCost, hpc, hasleep]
  · simp [cost, State.mainCost, hpc, Monitor.wait]
  · simp [cost, State.mainCost, hpc, havail]
  · simp only [cost, State.mainCost, hpc]
    split <;> split <;> omega
  · simp [cost, State.mainCost, hpc, havail]
  · simp [cost, State.mainCost, hpc]
  · cases s.done <;> simp [cost, State.mainCost, hpc]

theorem cost_step (h : Inv cnt s) {l : Label π} (hl : l ≠ .spurious)
    (hst : step cnt s l = some s') : cost cnt s' < cost cnt s := by
  obtain ⟨-, hst⟩ := Option.ite_none_left_eq_some.1 hst
  cases l with
  | producer p => exact cost_producer h hst
  | main => exact cost_main hst
  | spurious => exact absurd rfl hl

/-! ## Where nobody can go on -/

omit [DecidableEq π] in
theorem sum_le_toNat (cnt : π → ℤ) : ∑ p, cnt p ≤ ((∑ p, (cnt p).toNat : ℕ) : ℤ) := by
  rw [Nat.cast_sum]
  exact Finset.sum_le_sum fun p _ => Int.self_le_toNat _

omit [DecidableEq π] in
/-- The sum of arguments that fit is computed without overflow. -/
theorem Fits.totRequired_eq (h : Fits cnt) : totRequired cnt = ∑ p, cnt p := by
  have hle := sum_le_toNat cnt
  have hge : -∑ p, cnt p ≤ ((∑ p, (-cnt p).toNat : ℕ) : ℤ) := by
    rw [← Finset.sum_neg_distrib]
    exact sum_le_toNat fun p => -cnt p
  have hpos := h.sum_toNat_lt
  have hneg := h.sum_neg_toNat_le
  exact Int.bmod_eq_of_le (by omega) (by omega)

/-- No thread can make a step. -/
def Quiet (cnt : π → ℤ) (s : State π) : Prop := ∀ l, l ≠ .spurious → step cnt s l = none

theorem Quiet.producer (h : Quiet cnt s) (hmain : s.main ≠ .exited) (p : π) :
    ProdCondvar.producer cnt s p = none := by
  have hnone := h (.producer p) (by simp)
  rwa [step, if_neg hmain] at hnone

theorem Quiet.main (h : Quiet cnt s) (hmain : s.main ≠ .exited) :
    ProdCondvar.main (totRequired cnt) s = none := by
  have hnone := h .main (by simp)
  rwa [step, if_neg hmain] at hnone

/-- Nobody is inside the mutex. -/
theorem Quiet.not_inside (h : Quiet cnt s) (hmain : s.main ≠ .exited) (t : Option π) :
    ¬ s.Inside t := by
  cases t with
  | none =>
    have hnone := h.main hmain
    rintro (hpc | hpc | hpc) <;> simp only [ProdCondvar.main, hpc] at hnone
    · split at hnone <;> cases hnone
    · split at hnone <;> cases hnone
    · cases hnone
  | some p =>
    have hnone := h.producer hmain p
    rintro (hpc | hpc) <;> simp only [ProdCondvar.producer, hpc] at hnone <;> cases hnone

/-- The mutex is free. -/
theorem Quiet.owner (h : Quiet cnt s) (hinv : Inv cnt s) (hmain : s.main ≠ .exited) :
    s.monitor.owner = none := by
  cases howner : s.monitor.owner with
  | none => rfl
  | some t => exact absurd ((hinv.excludes t).2 howner) (h.not_inside hmain t)

/-- All producers have ended. -/
theorem Quiet.ended (h : Quiet cnt s) (hinv : Inv cnt s) (hmain : s.main ≠ .exited) (p : π) :
    (s.producer p).pc = .ended := by
  have hnone := h.producer hmain p
  have howner := h.owner hinv hmain
  cases hpc : (s.producer p).pc with
  | ended => rfl
  | lock => simp [ProdCondvar.producer, hpc, Monitor.lock, howner] at hnone
  | _ => simp [ProdCondvar.producer, hpc] at hnone

/-- **No wake-up is lost**: where nobody can go on, the process has ended, or there was nothing to
consume. -/
theorem Quiet.exited (h : Quiet cnt s) (hfits : Fits cnt) (hinv : Inv cnt s) :
    s.main = .exited ∨ s.main = .wait ∧ ∀ p, cnt p ≤ 0 := by
  by_cases hmain : s.main = .exited
  · exact .inl hmain
  · have hended := h.ended hinv hmain
    have hnone := h.main hmain
    have howner := h.owner hinv hmain
    have hwait : s.main = .wait ∧ s.monitor.asleep = true := by
      cases hpc : s.main with
      | lock => simp [ProdCondvar.main, hpc, Monitor.lock, howner] at hnone
      | wait =>
        refine ⟨rfl, ?_⟩
        by_contra ha
        simp [ProdCondvar.main, hpc, Monitor.wake, Monitor.lock, howner, ha] at hnone
      | checkDone => simp [ProdCondvar.main, hpc] at hnone
      | exited => exact absurd hpc hmain
      | test => exact absurd (.inl hpc) (h.not_inside hmain none)
      | consume => exact absurd (.inr (.inl hpc)) (h.not_inside hmain none)
      | unlock => exact absurd (.inr (.inr hpc)) (h.not_inside hmain none)
    have havail : s.avail = 0 := by
      by_contra hne
      obtain ⟨p, hp | hp⟩ := hinv.wake hwait.2 hne <;> rw [hended p] at hp <;> cases hp
    have hconsumed : s.numConsumed = ∑ p, (cnt p).toNat := by
      have hleft : ∀ p, (s.producer p).left (cnt p) = 0 := by
        intro p
        have hle := hinv.ended p (hended p)
        simp only [Producer.left]
        omega
      have hu := hinv.units
      simp only [hleft, Finset.sum_const_zero, havail] at hu
      omega
    have hdone := hinv.waiting (.inr (.inr hwait.1))
    rw [hinv.done, decide_eq_false_iff_not, hfits.totRequired_eq] at hdone
    refine .inr ⟨hwait.1, fun p => ?_⟩
    by_contra hpos
    have hle : (cnt p).toNat ≤ ∑ p, (cnt p).toNat :=
      Finset.single_le_sum (f := fun p => (cnt p).toNat) (fun _ _ => Nat.zero_le _)
        (Finset.mem_univ p)
    exact hdone ⟨by omega, hconsumed ▸ sum_le_toNat cnt⟩

/-! ## The program -/

/-- **Producers and consumer**, in any order of their steps, where no `int` overflows: one thread at
a time is inside the mutex; each unit is consumed at most once; the process does not end before the
consumer has as many units as the arguments sum up to, and with no negative argument it has then
consumed all of them. Without spurious wake-ups every run ends; and where nobody can go on, the
process has ended, unless no argument is positive: then the main thread waits for ever. -/
theorem prod_condvar_consumes (hfits : Fits cnt) {ls : List (Label π)}
    (hrun : (program cnt).run start ls = some s) :
    (∀ t u, s.Inside t → s.Inside u → t = u) ∧
      s.numConsumed + s.avail ≤ ∑ p, (cnt p).toNat ∧
      (s.main = .exited → 0 < s.numConsumed ∧ ∑ p, cnt p ≤ s.numConsumed ∧
        ((∀ p, 0 ≤ cnt p) → (s.numConsumed : ℤ) = ∑ p, cnt p ∧ s.avail = 0)) ∧
      (.spurious ∉ ls → ls.length ≤ ∑ p, (13 * (cnt p).toNat + 1) + 2) ∧
      (Quiet cnt s → s.main = .exited ∨ s.main = .wait ∧ ∀ p, cnt p ≤ 0) := by
  have hs : (program cnt).Reachable s := Machine.Reachable.run .init ls hrun
  have hinv : Inv cnt s := inv_of_reachable hs
  have hunits : s.numConsumed + s.avail ≤ ∑ p, (cnt p).toNat := by
    have hu := hinv.units
    omega
  refine ⟨fun t u => hinv.excludes.unique, hunits, fun hexited => ?_, fun hls => ?_,
    fun hquiet => hquiet.exited hfits hinv⟩
  · have hdone := hinv.exited hexited
    rw [hinv.done, decide_eq_true_iff, hfits.totRequired_eq] at hdone
    refine ⟨hdone.1, hdone.2, fun hnonneg => ?_⟩
    have hsum : ((∑ p, (cnt p).toNat : ℕ) : ℤ) = ∑ p, cnt p := by
      rw [Nat.cast_sum]
      exact Finset.sum_congr rfl fun p _ => Int.toNat_of_nonneg (hnonneg p)
    omega
  · have hs₀ : (program cnt).ReachableBy (fun _ l => l ≠ .spurious) start := .init
    have hlen := hs₀.length_le_of_credit (μ := cost cnt) (ν := fun _ => 0)
      (fun _ _ _ hs hl hst => by simpa using cost_step (inv_of_reachable hs) hl hst) ls
      (fun _ _ hl he => hls (he ▸ hl)) hrun
    have hstart : cost cnt start = ∑ p, (13 * (cnt p).toNat + 1) + 2 := by
      simp [cost, start, Producer.cost, State.mainCost]
    omega

/-- Two producers of two units and one unit; the consumer wakes for the first one, and the others
come while it is awake. -/
def twoProducers : Bool → ℤ := fun p => bif p then 2 else 1

theorem prod_condvar_consumes_twoProducers :
    ∃ s, (program twoProducers).run start
        [.main, .main, .producer true, .producer true, .producer true, .producer true,
          .producer true, .main, .main, .main, .main, .main, .main] = some s ∧
      s.numConsumed = 1 ∧ s.numConsumed + s.avail ≤ ∑ p, (twoProducers p).toNat := by
  have hrun : (program twoProducers).run start
      [.main, .main, .producer true, .producer true, .producer true, .producer true,
        .producer true, .main, .main, .main, .main, .main, .main] = some _ := rfl
  have hfits : Fits twoProducers := ⟨by decide, by decide⟩
  exact ⟨_, hrun, rfl, (prod_condvar_consumes hfits hrun).2.1⟩

end TlpiLearn.ProdCondvar
