import Mathlib.Data.List.Basic

/-!
# Calls that can fail

Rules for sequences of calls with outcomes in `Except`: `bind_eq_ok_iff` takes a successful
sequence apart, `foldlM_flatMap` runs a loop of loops as one loop over the concatenation.
-/

namespace TlpiLearn

universe u

variable {ε : Type*} {α β σ : Type u}

@[simp] theorem ok_bind (a : α) (f : α → Except ε β) : (Except.ok a >>= f) = f a := rfl

@[simp] theorem error_bind (e : ε) (f : α → Except ε β) : (Except.error e >>= f) = .error e := rfl

/-- **A sequence succeeds** when its first call succeeds and the others succeed on its result. -/
theorem bind_eq_ok_iff {x : Except ε α} {f : α → Except ε β} {b : β} :
    (x >>= f) = .ok b ↔ ∃ a, x = .ok a ∧ f a = .ok b := by
  cases x with
  | error e =>
    constructor
    · intro h
      cases h
    · rintro ⟨a, h, -⟩
      cases h
  | ok a =>
    rw [ok_bind]
    constructor
    · intro h
      exact ⟨a, rfl, h⟩
    · rintro ⟨a', h, hf⟩
      rw [Except.ok.inj h]
      exact hf

/-- **A loop of loops** is one loop over the concatenation. -/
theorem foldlM_flatMap {γ δ : Type*} (f : γ → List δ) (step : σ → δ → Except ε σ) (l : List γ)
    (s : σ) :
    l.foldlM (fun s a => (f a).foldlM step s) s = (l.flatMap f).foldlM step s := by
  induction l generalizing s with
  | nil => rfl
  | cons a l ih =>
    rw [List.foldlM_cons, List.flatMap_cons, List.foldlM_append]
    congr 1
    funext s'
    exact ih s'

end TlpiLearn
