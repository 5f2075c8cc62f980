import Mathlib.Order.Basic
import Mathlib.Data.List.Basic

/-!
# Guarded machines

A machine has an initial state and a partial step function: `step s l = some s'` when the label
`l` (which party moves, and what its environment answers) is enabled in `s`, `none` when it is
not. The step function is executable, so that a run is replayed by evaluation, and an interleaving
is a list of labels.

`ReachableBy ok` collects the runs whose every step meets a condition `ok` on the state and the
label; `Reachable` is the case without a condition. The induction rules are `ReachableBy.invariant`
and its variant `ReachableBy.invariant_of`, which lets a second, already established invariant
be used in the step; `Reachable.length_le` bounds the runs by a measure that every step lowers, and
`ReachableBy.length_le_of_credit` those in which some steps add to it.
`Meets` is the condition on the steps of one run, and `run_iff_meets` the rule for a condition that
is exact.
-/

namespace TlpiLearn

/-- An initial state and a guarded step function. -/
structure Machine (σ ι : Type*) where
  /-- The state in which every run starts. -/
  init : σ
  /-- `step s l` is the next state, or `none` when the label `l` is not enabled in `s`. -/
  step : σ → ι → Option σ

namespace Machine

variable {σ ι : Type*} (M : Machine σ ι)

/-- Replay a list of labels. -/
def run (s : σ) (ls : List ι) : Option σ := ls.foldlM M.step s

/-- The states reached by runs whose steps all meet `ok`. -/
inductive ReachableBy (ok : σ → ι → Prop) : σ → Prop
  | init : ReachableBy ok M.init
  | step {s s' : σ} {l : ι} : ReachableBy ok s → ok s l → M.step s l = some s' → ReachableBy ok s'

/-- The states reached by any run. -/
abbrev Reachable : σ → Prop := M.ReachableBy fun _ _ => True

/-- No label is enabled. -/
def Stuck (s : σ) : Prop := ∀ l, M.step s l = none

variable {M}

@[simp] theorem run_nil (s : σ) : M.run s [] = some s := rfl

@[simp] theorem run_cons (s : σ) (l : ι) (ls : List ι) :
    M.run s (l :: ls) = (M.step s l).bind fun s' => M.run s' ls := rfl

theorem run_append (s : σ) (ls ms : List ι) :
    M.run s (ls ++ ms) = (M.run s ls).bind fun s' => M.run s' ms :=
  List.foldlM_append

namespace ReachableBy

variable {ok : σ → ι → Prop} {s s' : σ}

/-- **The invariant rule**: what holds initially and is kept by every allowed step holds of every
state reached. -/
theorem invariant {I : σ → Prop} (h : M.ReachableBy ok s) (hinit : I M.init)
    (hstep : ∀ s l s', I s → ok s l → M.step s l = some s' → I s') : I s := by
  induction h with
  | init => exact hinit
  | step _ hok hs ih => exact hstep _ _ _ ih hok hs

/-- The invariant rule, with an invariant `J` known of the reached states. -/
theorem invariant_of {I J : σ → Prop} (hJ : ∀ s, M.ReachableBy ok s → J s)
    (h : M.ReachableBy ok s) (hinit : I M.init)
    (hstep : ∀ s l s', I s → J s → ok s l → M.step s l = some s' → I s') : I s := by
  induction h with
  | init => exact hinit
  | step hs hok hst ih => exact hstep _ _ _ ih (hJ _ hs) hok hst

theorem mono {ok' : σ → ι → Prop} (h : M.ReachableBy ok s) (hmono : ∀ s l, ok s l → ok' s l) :
    M.ReachableBy ok' s := by
  induction h with
  | init => exact .init
  | step _ hok hs ih => exact ih.step (hmono _ _ hok) hs

/-- A replayed run whose steps all meet the condition ends in a reached state. -/
theorem run (hs : M.ReachableBy ok s) (ls : List ι) (hok : ∀ s, ∀ l ∈ ls, ok s l)
    (h : M.run s ls = some s') : M.ReachableBy ok s' := by
  induction ls generalizing s with
  | nil => exact Option.some.inj h ▸ hs
  | cons l ls ih =>
    rw [run_cons, Option.bind_eq_some_iff] at h
    obtain ⟨t, ht, h⟩ := h
    exact ih (hs.step (hok s l List.mem_cons_self) ht)
      (fun s m hm => hok s m (List.mem_cons_of_mem _ hm)) h

end ReachableBy

/-- A replayed run ends in a reachable state. -/
theorem Reachable.run {s s' : σ} (hs : M.Reachable s) (ls : List ι) (h : M.run s ls = some s') :
    M.Reachable s' :=
  ReachableBy.run hs ls (fun _ _ _ => trivial) h

/-- The machine that checks a condition before each step. -/
def restrict (M : Machine σ ι) (ok : σ → ι → Prop) [∀ s l, Decidable (ok s l)] : Machine σ ι where
  init := M.init
  step s l := if ok s l then M.step s l else none

/-- A run of the checking machine is a run of the machine. -/
theorem run_of_restrict {ok : σ → ι → Prop} [∀ s l, Decidable (ok s l)] {s s' : σ} {ls : List ι}
    (h : (M.restrict ok).run s ls = some s') : M.run s ls = some s' := by
  induction ls generalizing s with
  | nil => exact h
  | cons l ls ih =>
    rw [run_cons, Option.bind_eq_some_iff] at h
    obtain ⟨t, ht, h⟩ := h
    rw [restrict, Option.ite_none_right_eq_some] at ht
    rw [run_cons, ht.2, Option.bind_some]
    exact ih h

/-- What the checking machine reaches is reached by steps that meet the condition. -/
theorem ReachableBy.of_restrict {ok : σ → ι → Prop} [∀ s l, Decidable (ok s l)] {s : σ}
    (h : (M.restrict ok).Reachable s) : M.ReachableBy ok s := by
  induction h with
  | init => exact .init
  | step _ _ hs ih =>
    rw [restrict, Option.ite_none_right_eq_some] at hs
    exact ih.step hs.1 hs.2

/-- Every step of the run `ls` from `s` meets `ok`. -/
def Meets (M : Machine σ ι) (ok : σ → ι → Prop) : σ → List ι → Prop
  | _, [] => True
  | s, l :: ls => ok s l ∧ ∀ s', M.step s l = some s' → Meets M ok s' ls

/-- Conditions that agree where an invariant holds are met by the same runs. -/
theorem meets_congr {ok ok' : σ → ι → Prop} {I : σ → Prop}
    (hI : ∀ s l s', I s → M.step s l = some s' → I s') (h : ∀ s l, I s → (ok s l ↔ ok' s l))
    {s : σ} (hs : I s) (ls : List ι) : M.Meets ok s ls ↔ M.Meets ok' s ls := by
  induction ls generalizing s with
  | nil => exact Iff.rfl
  | cons l ls ih =>
    refine and_congr (h s l hs) (forall_congr' fun s' => forall_congr' fun hstep => ?_)
    exact ih (hI s l s' hs hstep)

/-- **The rule for an exact condition**: when a step leads to `G` if and only if it starts in `G`
and meets `ok`, then so does a run. `I` is an invariant, and `L` holds where a run goes on. -/
theorem run_iff_meets {ok : σ → ι → Prop} {I G L : σ → Prop}
    (hI : ∀ s l s', I s → M.step s l = some s' → I s')
    (hL : ∀ s l s', M.step s l = some s' → L s)
    (hG : ∀ s l s', I s → L s' → M.step s l = some s' → (G s' ↔ G s ∧ ok s l))
    {s s' : σ} (hs : I s) (hs' : L s') {ls : List ι} (h : M.run s ls = some s') :
    G s' ↔ G s ∧ M.Meets ok s ls := by
  induction ls generalizing s with
  | nil =>
    obtain rfl := Option.some.inj h
    exact (and_iff_left trivial).symm
  | cons l ls ih =>
    rw [run_cons, Option.bind_eq_some_iff] at h
    obtain ⟨t, ht, h⟩ := h
    have hlive : L t := by
      cases ls with
      | nil => exact Option.some.inj h ▸ hs'
      | cons m ls =>
        rw [run_cons, Option.bind_eq_some_iff] at h
        obtain ⟨u, hu, -⟩ := h
        exact hL t m u hu
    have hmeets : M.Meets ok s (l :: ls) ↔ ok s l ∧ M.Meets ok t ls := by
      rw [Meets, ht]
      refine and_congr_right fun _ => ⟨fun hall => hall t rfl, fun hrest u hu => ?_⟩
      exact Option.some.inj hu ▸ hrest
    rw [ih (hI s l t hs ht) h, hG s l t hs hlive ht, hmeets, and_assoc]

/-- **Runs end** when every step lowers a measure: a run from `s` is at most as long as the measure
of `s`. -/
theorem Reachable.length_le {μ : σ → ℕ}
    (hμ : ∀ s l s', M.Reachable s → M.step s l = some s' → μ s' < μ s) {s s' : σ}
    (hs : M.Reachable s) (ls : List ι) (h : M.run s ls = some s') : ls.length + μ s' ≤ μ s := by
  induction ls generalizing s with
  | nil =>
    obtain rfl := Option.some.inj h
    exact Nat.le_of_eq (Nat.zero_add _)
  | cons l ls ih =>
    rw [run_cons, Option.bind_eq_some_iff] at h
    obtain ⟨t, ht, h⟩ := h
    have hrest := ih (hs.step trivial ht) h
    have hlt := hμ s l t hs ht
    rw [List.length_cons]
    omega

/-- **Runs with a credit**: when every allowed step lowers a measure by one, up to the credit that it
adds, a run is at most as long as the measure and the credit that it has added. -/
theorem ReachableBy.length_le_of_credit {ok : σ → ι → Prop} {μ ν : σ → ℕ}
    (hμ : ∀ s l s', M.ReachableBy ok s → ok s l → M.step s l = some s' → μ s' + ν s < μ s + ν s')
    {s s' : σ} (hs : M.ReachableBy ok s) (ls : List ι) (hok : ∀ s, ∀ l ∈ ls, ok s l)
    (h : M.run s ls = some s') : ls.length + μ s' + ν s ≤ μ s + ν s' := by
  induction ls generalizing s with
  | nil =>
    obtain rfl := Option.some.inj h
    exact Nat.le_of_eq (by rw [List.length_nil, Nat.zero_add])
  | cons l ls ih =>
    rw [run_cons, Option.bind_eq_some_iff] at h
    obtain ⟨t, ht, h⟩ := h
    have hl := hok s l List.mem_cons_self
    have hrest := ih (hs.step hl ht) (fun s m hm => hok s m (List.mem_cons_of_mem _ hm)) h
    have hlt := hμ s l t hs hl ht
    rw [List.length_cons]
    omega

end Machine

end TlpiLearn
