import Mathlib.Logic.Function.Basic
import Mathlib.Tactic

/-!
# Descriptor tables

The descriptors of a process: each one below the limit is free or refers to an open file. A
descriptor is closed, and duplicated to the lowest free one from a given number on. The lowest free
descriptor is found by a search (`freeFrom`), which stops at its start if that is free
(`freeFrom_self`).
-/

namespace TlpiLearn

/-- What a descriptor holds: the open file that it refers to, and its close-on-exec flag. -/
structure Descriptor (φ : Type*) where
  file : φ
  cloexec : Bool
  deriving DecidableEq, Repr

/-- A table of descriptors below a limit. -/
@[ext] structure DescriptorTable (φ : Type*) (limit : ℕ) where
  entry : ℕ → Option (Descriptor φ)
  entry_eq_none : ∀ fd, limit ≤ fd → entry fd = none

namespace DescriptorTable

variable {φ : Type*} {limit : ℕ} (t : DescriptorTable φ limit)

/-- The descriptor is open. -/
def IsOpen (fd : ℕ) : Prop := t.entry fd ≠ none

instance (fd : ℕ) : Decidable (t.IsOpen fd) := inferInstanceAs (Decidable (_ ≠ none))

/-- The table with another entry. -/
def set (fd : ℕ) (hfd : fd < limit) (d : Descriptor φ) : DescriptorTable φ limit where
  entry := Function.update t.entry fd (some d)
  entry_eq_none k hk := by
    rw [Function.update_of_ne (by omega)]
    exact t.entry_eq_none k hk

/-- The table without a descriptor. -/
def close (fd : ℕ) : DescriptorTable φ limit where
  entry := Function.update t.entry fd none
  entry_eq_none k hk := by
    rw [Function.update_apply]
    split_ifs
    · rfl
    · exact t.entry_eq_none k hk

/-- The first free descriptor of `n` from `fd` on. -/
def freeFrom : ℕ → ℕ → Option ℕ
  | 0, _ => none
  | n + 1, fd => if t.IsOpen fd then freeFrom n (fd + 1) else some fd

variable {t}

@[simp] theorem entry_close_self (fd : ℕ) : (t.close fd).entry fd = none :=
  Function.update_self ..

theorem entry_close_of_ne {fd k : ℕ} (h : k ≠ fd) : (t.close fd).entry k = t.entry k :=
  Function.update_of_ne h ..

@[simp] theorem entry_set_self {fd : ℕ} (hfd : fd < limit) (d : Descriptor φ) :
    (t.set fd hfd d).entry fd = some d :=
  Function.update_self ..

theorem entry_set_of_ne {fd k : ℕ} (hfd : fd < limit) (d : Descriptor φ) (h : k ≠ fd) :
    (t.set fd hfd d).entry k = t.entry k :=
  Function.update_of_ne h ..

theorem not_isOpen_close (fd : ℕ) : ¬ (t.close fd).IsOpen fd :=
  not_not.2 (entry_close_self fd)

theorem isOpen_close_iff {fd k : ℕ} (h : k ≠ fd) : (t.close fd).IsOpen k ↔ t.IsOpen k := by
  rw [IsOpen, IsOpen, entry_close_of_ne h]

/-- A free descriptor is closed without a change. -/
theorem close_of_not_isOpen {fd : ℕ} (h : ¬ t.IsOpen fd) : t.close fd = t := by
  have hnone : t.entry fd = none := not_not.1 h
  ext1
  exact Function.update_eq_self_iff.2 hnone.symm

/-- **The search** ends below its bound at a free descriptor, with open ones in front of it. -/
theorem freeFrom_eq_some {n fd k : ℕ} (h : t.freeFrom n fd = some k) :
    fd ≤ k ∧ k < fd + n ∧ ¬ t.IsOpen k ∧ ∀ j, fd ≤ j → j < k → t.IsOpen j := by
  induction n generalizing fd with
  | zero => cases h
  | succ n ih =>
    rw [freeFrom] at h
    split_ifs at h with hopen
    · obtain ⟨hle, hlt, hfree, hbefore⟩ := ih h
      refine ⟨by omega, by omega, hfree, fun j hj hjk => ?_⟩
      obtain rfl | hne := eq_or_ne j fd
      · exact hopen
      · exact hbefore j (by omega) hjk
    · obtain rfl := Option.some.inj h
      exact ⟨le_rfl, by omega, hopen, fun j hj hjk => absurd hj (by omega)⟩

/-- The lowest free descriptor is below the limit. -/
theorem lt_of_freeFrom {k : ℕ} (h : t.freeFrom limit 0 = some k) : k < limit := by
  have hlt := (freeFrom_eq_some h).2.1
  omega

/-- A free descriptor is the first one from itself on. -/
theorem freeFrom_self {n fd : ℕ} (hn : n ≠ 0) (h : ¬ t.IsOpen fd) : t.freeFrom n fd = some fd := by
  obtain ⟨n, rfl⟩ := Nat.exists_eq_add_one_of_ne_zero hn
  rw [freeFrom, if_neg h]

end DescriptorTable

end TlpiLearn
