import TlpiLearn.Foundations.Machine
import Mathlib.Data.Set.Basic

/-!
# Traces of guarded machines

What can be seen of a run is the list of the events of its steps; most steps show nothing. The
traces of a machine from a state form a set that is closed under initial segments
(`Traced.initial`). A function that maps each step of a machine to a run of another one with the
same events carries the traces over (`Traced.simulate`), also when several steps answer one. When
every step lowers a measure, each run goes on to a stuck state (`exists_stuck`).
-/

namespace TlpiLearn

namespace Machine

variable {σ τ ι κ ε : Type*}

/-- `M.Traced obs s tr t`: a run leads from `s` to `t`, and `tr` is what was seen of it. -/
inductive Traced (M : Machine σ ι) (obs : σ → ι → Option ε) (s : σ) : List ε → σ → Prop
  | refl : Traced M obs s [] s
  | step {tr : List ε} {t u : σ} {l : ι} : Traced M obs s tr t → M.step t l = some u →
      Traced M obs s (tr ++ (obs t l).toList) u

/-- The traces of the runs from `s`. -/
def traces (M : Machine σ ι) (obs : σ → ι → Option ε) (s : σ) : Set (List ε) :=
  {tr | ∃ t, M.Traced obs s tr t}

/-- The traces of the runs from `s` that cannot go on and end in a state with `P`. -/
def completeTraces (M : Machine σ ι) (obs : σ → ι → Option ε) (s : σ) (P : σ → Prop) :
    Set (List ε) :=
  {tr | ∃ t, M.Traced obs s tr t ∧ M.Stuck t ∧ P t}

namespace Traced

variable {M : Machine σ ι} {obs : σ → ι → Option ε} {s t u : σ} {tr tr' : List ε}

theorem reachable (h : M.Traced obs s tr t) (hs : M.Reachable s) : M.Reachable t := by
  induction h with
  | refl => exact hs
  | step _ hst ih => exact ih.step trivial hst

/-- One step is a run. -/
theorem single {l : ι} (h : M.step s l = some t) : M.Traced obs s (obs s l).toList t :=
  Traced.step .refl h

theorem trans (h : M.Traced obs s tr t) (h' : M.Traced obs t tr' u) :
    M.Traced obs s (tr ++ tr') u := by
  induction h' with
  | refl =>
    rw [List.append_nil]
    exact h
  | step _ hst ih =>
    rw [← List.append_assoc]
    exact ih.step hst

/-- A replayed run has a trace. -/
theorem of_run (obs : σ → ι → Option ε) (ls : List ι) (h : M.run s ls = some t) :
    ∃ tr, M.Traced obs s tr t := by
  induction ls generalizing s with
  | nil => exact ⟨[], Option.some.inj h ▸ .refl⟩
  | cons l ls ih =>
    rw [run_cons, Option.bind_eq_some_iff] at h
    obtain ⟨u, hst, h⟩ := h
    obtain ⟨tr, htr⟩ := ih h
    exact ⟨_, (Traced.single hst).trans htr⟩

/-- **An initial segment of a trace** is a trace. -/
theorem initial (h : M.Traced obs s tr t) (htr : tr' <+: tr) : ∃ u, M.Traced obs s tr' u := by
  induction h with
  | refl =>
    rw [List.prefix_nil.1 htr]
    exact ⟨_, .refl⟩
  | @step tr t u l h hst ih =>
    cases hobs : obs t l with
    | none =>
      rw [hobs, Option.toList_none, List.append_nil] at htr
      exact ih htr
    | some e =>
      rw [hobs, Option.toList_some] at htr
      obtain rfl | htr := List.prefix_concat_iff.1 htr
      · have hlast : M.Traced obs s (tr ++ (obs t l).toList) u := h.step hst
        rw [hobs] at hlast
        exact ⟨_, hlast⟩
      · exact ih htr

/-- **Simulation**: a function that maps each step to a run with the same events carries a trace
over. -/
theorem simulate {N : Machine τ κ} {obsN : τ → κ → Option ε} {f : σ → τ} {I : σ → Prop}
    (hstep : ∀ s l s', I s → M.step s l = some s' →
      I s' ∧ N.Traced obsN (f s) (obs s l).toList (f s'))
    (h : M.Traced obs s tr t) (hs : I s) : I t ∧ N.Traced obsN (f s) tr (f t) := by
  induction h with
  | refl => exact ⟨hs, .refl⟩
  | step _ hst ih =>
    obtain ⟨ht, htr⟩ := ih
    obtain ⟨hu, hlast⟩ := hstep _ _ _ ht hst
    exact ⟨hu, htr.trans hlast⟩

end Traced

/-- When every step keeps an invariant and lowers a measure, each state leads to a stuck one. -/
theorem exists_stuck {M : Machine σ ι} (obs : σ → ι → Option ε) {I : σ → Prop} {μ : σ → ℕ}
    (hstep : ∀ s l s', I s → M.step s l = some s' → I s' ∧ μ s' < μ s) {s : σ} (hs : I s) :
    ∃ tr t, M.Traced obs s tr t ∧ M.Stuck t ∧ I t := by
  induction hn : μ s using Nat.strong_induction_on generalizing s with
  | _ n ih =>
    by_cases hstuck : M.Stuck s
    · exact ⟨[], s, .refl, hstuck, hs⟩
    · simp only [Stuck, not_forall] at hstuck
      obtain ⟨l, hl⟩ := hstuck
      obtain ⟨s', hst⟩ := Option.ne_none_iff_exists'.1 hl
      obtain ⟨hs', hlt⟩ := hstep s l s' hs hst
      obtain ⟨tr, t, htr, ht⟩ := ih (μ s') (hn ▸ hlt) hs' rfl
      exact ⟨_, t, (Traced.single hst).trans htr, ht⟩

end Machine

end TlpiLearn
