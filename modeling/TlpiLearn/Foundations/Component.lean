import Mathlib.Logic.Basic
import Mathlib.Data.List.Basic

/-!
# Components that answer calls

A component is a function `f : σ → κ → σ × ρ` from a state and a call to the next state and the
answer. What can be seen of it, when the state is visible, is its `history` on a list of calls. Two
components have the same history exactly when they agree on each call in the state that the calls
before have led to (`history_eq_iff`).
-/

namespace TlpiLearn.Component

variable {σ κ ρ : Type*}

/-- The states and the answers of a component, call by call. -/
def history (f : σ → κ → σ × ρ) : σ → List κ → List (σ × ρ)
  | _, [] => []
  | s, c :: cs => f s c :: history f (f s c).1 cs

/-- `P` holds of each call and the state in which it is made. -/
def Along (f : σ → κ → σ × ρ) (P : σ → κ → Prop) : σ → List κ → Prop
  | _, [] => True
  | s, c :: cs => P s c ∧ Along f P (f s c).1 cs

variable {f g : σ → κ → σ × ρ} {P Q : σ → κ → Prop}

theorem along_congr (h : ∀ s c, P s c ↔ Q s c) (s : σ) (cs : List κ) :
    Along f P s cs ↔ Along f Q s cs := by
  induction cs generalizing s with
  | nil => exact Iff.rfl
  | cons c cs ih => exact and_congr (h s c) (ih _)

theorem history_eq_iff (s : σ) (cs : List κ) :
    history f s cs = history g s cs ↔ Along g (fun s c => f s c = g s c) s cs := by
  induction cs generalizing s with
  | nil => exact ⟨fun _ => trivial, fun _ => rfl⟩
  | cons c cs ih =>
    rw [history, history, Along, List.cons.injEq]
    apply and_congr_right
    intro hc
    rw [hc]
    exact ih _

end TlpiLearn.Component
