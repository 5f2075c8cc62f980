import TlpiLearn.Foundations.Machine
import Mathlib.Algebra.BigOperators.Group.Finset.Basic
import Mathlib.Data.Fintype.BigOperators
import Mathlib.Logic.Function.Basic

/-!
# The local states of many parties

A machine with many parties keeps a local state for each, and a step changes one of them. When each
such change is a step of the party's own machine, the local state of a party is one that its own
machine reaches, whatever the others do (`Reachable.party`). A sum over the parties, such as the
work that is left, changes in one summand (`sum_update_add`).
-/

namespace TlpiLearn

variable {π σ : Type*}

/-- A step changes no local state, or that of one party, which makes a step of its own. -/
def Machine.PartyStep {ι : Type*} (M : π → Machine σ ι) (s s' : π → σ) : Prop :=
  s' = s ∨ ∃ p l, (M p).step (s p) l = some (s' p) ∧ ∀ q, q ≠ p → s' q = s q

/-- **Each party runs its own machine.** -/
theorem Machine.Reachable.party {τ κ ι : Type*} {N : Machine τ κ} {M : π → Machine σ ι}
    {f : τ → π → σ} (hinit : ∀ p, f N.init p = (M p).init)
    (hstep : ∀ t k t', N.step t k = some t' → PartyStep M (f t) (f t')) {t : τ}
    (ht : N.Reachable t) (p : π) : (M p).Reachable (f t p) := by
  induction ht with
  | init => exact hinit p ▸ .init
  | step _ _ hst ih =>
    obtain heq | ⟨q, l, hq, hrest⟩ := hstep _ _ _ hst
    · exact heq ▸ ih
    · by_cases hp : p = q
      · subst hp
        exact ih.step trivial hq
      · exact hrest p hp ▸ ih

variable [DecidableEq π]

/-- The update of one party. -/
theorem Machine.partyStep_update {ι : Type*} {M : π → Machine σ ι} {s : π → σ} {p : π} {l : ι}
    {a : σ} (h : (M p).step (s p) l = some a) : PartyStep M s (Function.update s p a) :=
  .inr ⟨p, l, by rwa [Function.update_self], fun _ hq => Function.update_of_ne hq _ _⟩

/-- The sum over the parties when the state of `p` has changed. -/
theorem sum_update_add [Fintype π] (f : π → σ → ℕ) (s : π → σ) (p : π) (a : σ) :
    ∑ q, f q (Function.update s p a q) + f p (s p) = ∑ q, f q (s q) + f p a := by
  have hrest : ∑ q ∈ Finset.univ.erase p, f q (Function.update s p a q) =
      ∑ q ∈ Finset.univ.erase p, f q (s q) :=
    Finset.sum_congr rfl fun q hq => by rw [Function.update_of_ne (Finset.ne_of_mem_erase hq)]
  rw [← Finset.add_sum_erase _ _ (Finset.mem_univ p), ← Finset.add_sum_erase Finset.univ
    (fun q => f q (s q)) (Finset.mem_univ p), hrest, Function.update_self]
  omega

end TlpiLearn
