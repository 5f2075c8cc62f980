import TlpiLearn.Foundations.Component
import Mathlib.Data.Finset.Basic
import Mathlib.Tactic

/-!
# The System V signal functions

`22_4.c` writes `sigset`, `sighold`, `sigrelse`, `sigignore` and `sigpause` with `sigaction`,
`sigprocmask` and `sigsuspend`. The state is the signal mask and the dispositions; XSI says how
each function changes it and what it returns (`Xsi.step`).

`sigset` does not look at the mask: it neither returns `SIG_HOLD` for a blocked signal, nor removes
the signal from the mask when it installs a disposition, and when `sigaction` fails it returns the
field of a structure that nobody has written. On calls that do not meet these cases the functions
do what XSI says (`history_eq_xsi_iff`).
-/

namespace TlpiLearn.SigSet

open Component

/-- The signals of a program; 32 and 33 belong to the thread library. -/
abbrev Signal := {n : ℕ // 0 < n ∧ n < 65 ∧ n ≠ 32 ∧ n ≠ 33}

def SIGKILL : Signal := ⟨9, by decide⟩

def SIGTERM : Signal := ⟨15, by decide⟩

def SIGSTOP : Signal := ⟨19, by decide⟩

/-- The signals that can be blocked, caught and ignored. -/
def Catchable (sig : Signal) : Prop := sig ≠ SIGKILL ∧ sig ≠ SIGSTOP

instance (sig : Signal) : Decidable (Catchable sig) := inferInstanceAs (Decidable (_ ∧ _))

/-- What happens when a signal is delivered. -/
inductive Disposition (α : Type*)
  | SIG_DFL
  | SIG_IGN
  | function (f : α)
  deriving DecidableEq

/-- The second argument of `sigset`. -/
inductive Disp (α : Type*)
  | SIG_HOLD
  | install (act : Disposition α)

/-- A set of signals that can be blocked. -/
@[ext] structure Mask where
  signals : Finset Signal
  catchable : ∀ sig ∈ signals, Catchable sig
  deriving DecidableEq

structure State (α : Type*) where
  mask : Mask
  disp : Signal → Disposition α

/-- What a function returns. -/
inductive Returned (α : Type*)
  | handler (d : Disposition α)
  | SIG_HOLD
  | SIG_ERR
  /-- A value that nobody has written. -/
  | indeterminate
  | status (n : ℤ)
  /-- The process has waited under a mask. -/
  | suspended (mask : Mask) (n : ℤ)
  deriving DecidableEq

/-- A call of one of the five functions. -/
inductive Call (α : Type*)
  | sigset (sig : Signal) (disp : Disp α)
  | sighold (sig : Signal)
  | sigrelse (sig : Signal)
  | sigignore (sig : Signal)
  | sigpause (sig : Signal)

variable {α : Type*}

/-! ## The system calls -/

inductive How
  | SIG_BLOCK
  | SIG_UNBLOCK

/-- The signals of `set` are blocked, as far as they can be. -/
def Mask.block (m : Mask) (set : Finset Signal) : Mask where
  signals := m.signals ∪ set.filter Catchable
  catchable := by
    intro sig h
    rcases Finset.mem_union.1 h with h | h
    · exact m.catchable sig h
    · exact (Finset.mem_filter.1 h).2

def Mask.unblock (m : Mask) (set : Finset Signal) : Mask where
  signals := m.signals \ set
  catchable sig h := m.catchable sig (Finset.mem_sdiff.1 h).1

/-- `sigprocmask`, with the old mask. -/
def sigprocmask (how : How) (set : Option (Finset Signal)) (s : State α) : State α × Mask :=
  match set with
  | none => (s, s.mask)
  | some set =>
    match how with
    | .SIG_BLOCK => ({ s with mask := s.mask.block set }, s.mask)
    | .SIG_UNBLOCK => ({ s with mask := s.mask.unblock set }, s.mask)

/-- `sigaction`, with the old disposition; `none` is an error. -/
def sigaction (sig : Signal) (act : Option (Disposition α)) (s : State α) :
    Option (State α × Disposition α) :=
  match act with
  | none => some (s, s.disp sig)
  | some act =>
    if Catchable sig then
      some ({ s with disp := Function.update s.disp sig act }, s.disp sig)
    else none

/-- `signal`; `none` is `SIG_ERR`. -/
def signal (sig : Signal) (act : Disposition α) (s : State α) :
    Option (State α × Disposition α) :=
  sigaction sig (some act) s

/-- `sigsuspend` waits under `mask` and restores the mask of the process. -/
def sigsuspend (mask : Mask) (s : State α) : State α × Returned α := (s, .suspended mask (-1))

/-! ## The functions -/

def sighold (sig : Signal) (s : State α) : State α × Returned α :=
  ((sigprocmask .SIG_BLOCK (some {sig}) s).1, .status 0)

def sigrelse (sig : Signal) (s : State α) : State α × Returned α :=
  ((sigprocmask .SIG_UNBLOCK (some {sig}) s).1, .status 0)

def sigset (sig : Signal) (disp : Disp α) (s : State α) : State α × Returned α :=
  match disp with
  | .SIG_HOLD =>
    let s := (sighold sig s).1
    -- the results of both calls are not looked at
    match sigaction sig none s with
    | some (s, old_set) => (s, .handler old_set)
    | none => (s, .indeterminate)
  | .install act =>
    match sigaction sig (some act) s with
    | some (s, old_set) => (s, .handler old_set)
    | none => (s, .indeterminate)

def sigignore (sig : Signal) (s : State α) : State α × Returned α :=
  match signal sig .SIG_IGN s with
  | some (s, _) => (s, .status 0)
  | none => (s, .status (-1))

def sigpause (sig : Signal) (s : State α) : State α × Returned α :=
  let old_set := (sigprocmask .SIG_BLOCK none s).2
  sigsuspend (old_set.unblock {sig}) s

/-- One call. -/
def step (s : State α) : Call α → State α × Returned α
  | .sigset sig disp => sigset sig disp s
  | .sighold sig => sighold sig s
  | .sigrelse sig => sigrelse sig s
  | .sigignore sig => sigignore sig s
  | .sigpause sig => sigpause sig s

/-! ## What XSI says -/

/-- The mask with one more signal, which must be one that can be blocked. -/
def Mask.add (m : Mask) (sig : Signal) : Mask :=
  if h : Catchable sig then
    { signals := insert sig m.signals
      catchable := by
        intro sig' hmem
        rcases Finset.mem_insert.1 hmem with rfl | hmem
        · exact h
        · exact m.catchable sig' hmem }
  else m

/-- The mask with one signal less. -/
def Mask.remove (m : Mask) (sig : Signal) : Mask where
  signals := m.signals.erase sig
  catchable sig' h := m.catchable sig' (Finset.mem_of_mem_erase h)

/-- `SIG_HOLD` for a signal that was blocked, the disposition for another. -/
def State.previous (s : State α) (sig : Signal) : Returned α :=
  if sig ∈ s.mask.signals then .SIG_HOLD else .handler (s.disp sig)

/-- The functions as XSI specifies them. -/
def Xsi.step (s : State α) : Call α → State α × Returned α
  | .sigset sig .SIG_HOLD => ({ s with mask := s.mask.add sig }, s.previous sig)
  | .sigset sig (.install act) =>
    if Catchable sig then
      ({ mask := s.mask.remove sig, disp := Function.update s.disp sig act }, s.previous sig)
    else (s, .SIG_ERR)
  | .sighold sig => ({ s with mask := s.mask.add sig }, .status 0)
  | .sigrelse sig => ({ s with mask := s.mask.remove sig }, .status 0)
  | .sigignore sig =>
    if Catchable sig then ({ s with disp := Function.update s.disp sig .SIG_IGN }, .status 0)
    else (s, .status (-1))
  | .sigpause sig => (s, .suspended (s.mask.remove sig) (-1))

/-- `sigset` is called for a signal that is not blocked, and with a disposition only for one that
can be caught. -/
def Unheld (s : State α) : Call α → Prop
  | .sigset sig .SIG_HOLD => sig ∉ s.mask.signals
  | .sigset sig (.install _) => sig ∉ s.mask.signals ∧ Catchable sig
  | .sighold _ | .sigrelse _ | .sigignore _ | .sigpause _ => True

/-! ## The comparison -/

@[simp] theorem Mask.block_signals (m : Mask) (set : Finset Signal) :
    (m.block set).signals = m.signals ∪ set.filter Catchable := rfl

@[simp] theorem Mask.unblock_signals (m : Mask) (set : Finset Signal) :
    (m.unblock set).signals = m.signals \ set := rfl

@[simp] theorem Mask.remove_signals (m : Mask) (sig : Signal) :
    (m.remove sig).signals = m.signals.erase sig := rfl

theorem Mask.block_singleton (m : Mask) (sig : Signal) : m.block {sig} = m.add sig := by
  unfold add
  split
  case isTrue h =>
    apply Mask.ext
    rw [block_signals, Finset.filter_singleton, if_pos h, Finset.union_comm,
      Finset.singleton_union]
  case isFalse h =>
    apply Mask.ext
    rw [block_signals, Finset.filter_singleton, if_neg h, Finset.union_empty]

theorem Mask.unblock_singleton (m : Mask) (sig : Signal) : m.unblock {sig} = m.remove sig := by
  apply Mask.ext
  rw [unblock_signals, remove_signals, Finset.sdiff_singleton_eq_erase]

theorem Mask.remove_of_notMem {m : Mask} {sig : Signal} (h : sig ∉ m.signals) :
    m.remove sig = m := by
  apply Mask.ext
  rw [remove_signals, Finset.erase_eq_of_notMem h]

theorem Mask.remove_of_mem {m : Mask} {sig : Signal} (h : sig ∈ m.signals) :
    m.remove sig ≠ m := by
  intro heq
  rw [← heq] at h
  exact Finset.notMem_erase sig m.signals h

variable (s : State α) (sig : Signal)

theorem sighold_eq : sighold sig s = Xsi.step s (.sighold sig) := by
  rw [sighold, sigprocmask, Mask.block_singleton, Xsi.step]

theorem sigrelse_eq : sigrelse sig s = Xsi.step s (.sigrelse sig) := by
  rw [sigrelse, sigprocmask, Mask.unblock_singleton, Xsi.step]

theorem sigignore_eq : sigignore sig s = Xsi.step s (.sigignore sig) := by
  rw [sigignore, signal, sigaction, Xsi.step]
  split_ifs <;> rfl

theorem sigpause_eq : sigpause sig s = Xsi.step s (.sigpause sig) := by
  rw [sigpause, sigprocmask, sigsuspend, Mask.unblock_singleton, Xsi.step]

/-- `SIG_HOLD` gives the right mask, and the wrong answer for a blocked signal. -/
theorem sigset_hold :
    sigset sig .SIG_HOLD s = ({ s with mask := s.mask.add sig }, .handler (s.disp sig)) := by
  rw [sigset, sighold_eq, sigaction, Xsi.step]

/-- A disposition is installed, whatever the mask. -/
theorem sigset_install (act : Disposition α) :
    sigset sig (.install act) s =
      if Catchable sig then
        ({ s with disp := Function.update s.disp sig act }, .handler (s.disp sig))
      else (s, .indeterminate) := by
  rw [sigset, sigaction]
  split_ifs <;> rfl

theorem sigset_hold_iff :
    sigset sig .SIG_HOLD s = Xsi.step s (.sigset sig .SIG_HOLD) ↔ sig ∉ s.mask.signals := by
  rw [sigset_hold, Xsi.step, State.previous, Prod.mk.injEq]
  constructor
  · rintro ⟨-, h⟩ hmem
    rw [if_pos hmem] at h
    cases h
  · intro h
    exact ⟨rfl, (if_neg h).symm⟩

theorem sigset_install_iff (act : Disposition α) :
    sigset sig (.install act) s = Xsi.step s (.sigset sig (.install act)) ↔
      sig ∉ s.mask.signals ∧ Catchable sig := by
  rw [sigset_install, Xsi.step]
  by_cases hsig : Catchable sig
  · rw [if_pos hsig, if_pos hsig, Prod.mk.injEq, State.mk.injEq]
    constructor
    · rintro ⟨⟨hmask, -⟩, -⟩
      exact ⟨fun hmem => Mask.remove_of_mem hmem hmask.symm, hsig⟩
    · rintro ⟨hmem, -⟩
      rw [Mask.remove_of_notMem hmem, State.previous, if_neg hmem]
      exact ⟨⟨rfl, rfl⟩, rfl⟩
  · rw [if_neg hsig, if_neg hsig, Prod.mk.injEq]
    constructor
    · rintro ⟨-, h⟩
      cases h
    · rintro ⟨-, h⟩
      exact absurd h hsig

/-- One call does what XSI says exactly when it is not one of the bad ones. -/
theorem step_eq_xsi_iff (c : Call α) : step s c = Xsi.step s c ↔ Unheld s c := by
  cases c with
  | sigset sig disp =>
    cases disp with
    | SIG_HOLD => exact sigset_hold_iff s sig
    | install act => exact sigset_install_iff s sig act
  | sighold sig => exact iff_of_true (sighold_eq s sig) trivial
  | sigrelse sig => exact iff_of_true (sigrelse_eq s sig) trivial
  | sigignore sig => exact iff_of_true (sigignore_eq s sig) trivial
  | sigpause sig => exact iff_of_true (sigpause_eq s sig) trivial

/-- **The emulation**: the mask, the dispositions and the results evolve as XSI specifies exactly
when each `sigset` is called for a signal that is not blocked, and with a disposition only for one
that can be caught. -/
theorem history_eq_xsi_iff (calls : List (Call α)) :
    history step s calls = history Xsi.step s calls ↔ Along Xsi.step Unheld s calls :=
  (history_eq_iff s calls).trans (along_congr step_eq_xsi_iff s calls)

/-- A handler for a held signal: the signal stays in the mask, and the result does not tell that it
was there. -/
theorem held_signal_stays_blocked :
    ¬ ∀ (s : State Unit) (calls : List (Call Unit)),
      history step s calls = history Xsi.step s calls := by
  intro h
  have heq := congrArg (List.map Prod.snd)
    (h ⟨⟨∅, by simp⟩, fun _ => .SIG_DFL⟩
      [.sighold SIGTERM, .sigset SIGTERM (.install (.function ()))])
  revert heq
  decide

end TlpiLearn.SigSet
