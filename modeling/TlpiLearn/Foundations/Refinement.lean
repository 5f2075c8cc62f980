import TlpiLearn.Foundations.Machine

/-!
# Refinement between machines

`M` refines `N` when the states of `M` can be related to those of `N` so that a step of `M` is
answered by a step of `N`, or by none. Then each state that `M` reaches is related to one that `N`
reaches (`ReachableBy.refines`), and what holds of all states of `N` comes down to `M`. The state of
`N` is where a history of `M` that `M` itself does not record is kept.
-/

namespace TlpiLearn.Machine

variable {σ ι τ κ : Type*} {M : Machine σ ι} {N : Machine τ κ}

/-- A stuck state has no step. -/
theorem Stuck.false {s s' : σ} {l : ι} (h : M.Stuck s) (hst : M.step s l = some s') : False := by
  rw [h l] at hst
  cases hst

/-- A run whose steps meet a condition, each in its own state, ends in a reached state. -/
theorem ReachableBy.of_meets {ok : σ → ι → Prop} {s s' : σ} (hs : M.ReachableBy ok s)
    {ls : List ι} (hok : M.Meets ok s ls) (h : M.run s ls = some s') : M.ReachableBy ok s' := by
  induction ls generalizing s with
  | nil => exact Option.some.inj h ▸ hs
  | cons l ls ih =>
    rw [run_cons, Option.bind_eq_some_iff] at h
    obtain ⟨t, ht, h⟩ := h
    exact ih (hs.step hok.1 ht) (hok.2 t ht) h

/-- One step, or none. -/
def Answers (N : Machine τ κ) (R : τ → Prop) (t : τ) : Prop :=
  R t ∨ ∃ k t', N.step t k = some t' ∧ R t'

/-- **Refinement**: each state reached by the steps that meet `ok` is related to a state that the
abstract machine reaches. -/
theorem ReachableBy.refines {ok : σ → ι → Prop} {R : σ → τ → Prop} (hinit : R M.init N.init)
    (hstep : ∀ s l s' t, R s t → N.Reachable t → ok s l → M.step s l = some s' →
      N.Answers (R s') t)
    {s : σ} (hs : M.ReachableBy ok s) : ∃ t, N.Reachable t ∧ R s t := by
  induction hs with
  | init => exact ⟨N.init, .init, hinit⟩
  | step _ hok hst ih =>
    obtain ⟨t, ht, hR⟩ := ih
    obtain hR' | ⟨k, t', hk, hR'⟩ := hstep _ _ _ t hR ht hok hst
    · exact ⟨t, ht, hR'⟩
    · exact ⟨t', ht.step trivial hk, hR'⟩

end TlpiLearn.Machine
