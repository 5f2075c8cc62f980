import Mathlib.Data.Option.Basic
import Mathlib.Tactic

/-!
# Monitors

A mutex, and a condition variable on which one thread waits. The thread that owns the mutex is the
only one inside (`Monitor.Excludes`); a wait gives the mutex up and falls asleep in one step, and a
signal wakes the thread that sleeps, or has no effect.
-/

namespace TlpiLearn

/-- The owner of the mutex, and whether the thread in `pthread_cond_wait` is still to be woken. -/
structure Monitor (τ : Type*) where
  owner : Option τ
  asleep : Bool
  deriving DecidableEq, Repr

namespace Monitor

variable {τ : Type*} {m m' : Monitor τ} {t u : τ}

/-- Both at rest. -/
def free : Monitor τ := ⟨none, false⟩

/-- `pthread_mutex_lock`; `none` while it blocks. -/
def lock (m : Monitor τ) (t : τ) : Option (Monitor τ) :=
  match m.owner with
  | none => some { m with owner := some t }
  | some _ => none

/-- `pthread_mutex_unlock`. -/
def unlock (m : Monitor τ) : Monitor τ := { m with owner := none }

/-- `pthread_cond_wait`, up to the sleep. -/
def wait : Monitor τ := ⟨none, true⟩

/-- The return from the sleep, which takes the mutex again; `none` while it is asleep or blocks. -/
def wake (m : Monitor τ) (t : τ) : Option (Monitor τ) := if m.asleep then none else m.lock t

/-- `pthread_cond_signal`, or a spurious wake-up. -/
def signal (m : Monitor τ) : Monitor τ := { m with asleep := false }

theorem lock_eq_some : m.lock t = some m' ↔ m.owner = none ∧ m' = { m with owner := some t } := by
  rw [lock]
  cases h : m.owner <;> simp [eq_comm]

theorem wake_eq_some : m.wake t = some m' ↔
    m.asleep = false ∧ m.owner = none ∧ m' = { m with owner := some t } := by
  rw [wake, Option.ite_none_left_eq_some, Bool.not_eq_true, lock_eq_some]

/-- **Mutual exclusion**: the thread inside is the owner. -/
def Excludes (m : Monitor τ) (inside : τ → Prop) : Prop := ∀ t, inside t ↔ m.owner = some t

variable {inside inside' : τ → Prop}

theorem excludes_free (h : ∀ t, ¬ inside t) : (free : Monitor τ).Excludes inside := fun t =>
  iff_of_false (h t) (Option.some_ne_none t).symm

namespace Excludes

theorem unique (h : m.Excludes inside) (ht : inside t) (hu : inside u) : t = u :=
  Option.some.inj (((h t).1 ht).symm.trans ((h u).1 hu))

theorem congr (h : m.Excludes inside) (howner : m'.owner = m.owner)
    (hinside : ∀ u, inside' u ↔ inside u) : m'.Excludes inside' := fun u => by
  rw [howner, hinside u]
  exact h u

theorem enter (h : m.Excludes inside) (howner : m.owner = none) (ht : inside' t)
    (hinside : ∀ u, u ≠ t → (inside' u ↔ inside u)) :
    ({ m with owner := some t } : Monitor τ).Excludes inside' := by
  intro u
  obtain rfl | hne := eq_or_ne u t
  · exact iff_of_true ht rfl
  · refine iff_of_false (fun hu => ?_) fun hu => hne (Option.some.inj hu).symm
    have hin := (h u).1 ((hinside u hne).1 hu)
    rw [howner] at hin
    cases hin

theorem leave (h : m.Excludes inside) (ht : inside t) (ht' : ¬ inside' t)
    (hinside : ∀ u, u ≠ t → (inside' u ↔ inside u)) (howner : m'.owner = none) :
    m'.Excludes inside' := by
  intro u
  rw [howner]
  refine iff_of_false (fun hu => ?_) (Option.some_ne_none u).symm
  obtain rfl | hne := eq_or_ne u t
  · exact ht' hu
  · exact hne (h.unique ((hinside u hne).1 hu) ht)

end Excludes

end Monitor

end TlpiLearn
