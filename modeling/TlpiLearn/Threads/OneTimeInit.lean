import TlpiLearn.Foundations.Machine
import Mathlib.Logic.Function.Basic
import Mathlib.Tactic

/-!
# One-time initialisation

`31_1.c`: `one_time_init` tests and sets `called` under a mutex. Any number of threads call it any
number of times. Each call of `pthread_mutex_lock` and `pthread_mutex_unlock` succeeds, or it
returns a positive error number and leaves the mutex as it is; the mutex does not record its owner.

The code compares the result with `-1`, so it takes no notice of an error: a thread whose lock call
has failed goes on without the mutex. As long as no such thread finds `called` still 0, the
initialiser is run once (`Phase`).
-/

namespace TlpiLearn.OneTimeInit

/-- The statement of a thread that comes next. `own` is whether its lock call has taken the
mutex. -/
inductive Pc
  /-- Not in `one_time_init`. -/
  | idle
  | lock
  /-- `if (!once_control->called)` -/
  | check (own : Bool)
  /-- In `(*init)()`. -/
  | init (own : Bool)
  /-- `once_control->called = 1` -/
  | setCalled (own : Bool)
  | unlock (own : Bool)
  deriving DecidableEq, Repr

/-- The threads and the `once_struct` that they share. -/
structure State (ι : Type*) where
  pc : ι → Pc
  /-- `mtx` is taken. -/
  locked : Bool
  called : Bool
  /-- How often `init` has been called. -/
  started : ℕ
  /-- How often it has returned. -/
  finished : ℕ
  /-- The calls of `one_time_init` that have returned 0. -/
  returned : ℕ
  /-- `errExitEN` has ended the process. -/
  exited : Bool

/-- A step of a thread, with the result of its call. -/
inductive Label (ι : Type*)
  /-- The thread calls `one_time_init`. -/
  | call (t : ι)
  | lock (t : ι) (ret : ℕ)
  | check (t : ι)
  /-- `init` returns. -/
  | initReturns (t : ι)
  | setCalled (t : ι)
  | unlock (t : ι) (ret : ℕ)

/-- The thread that moves. -/
def Label.thread {ι : Type*} : Label ι → ι
  | .call t | .lock t _ | .check t | .initReturns t | .setCalled t | .unlock t _ => t

/-- `ONCE_INITIALIZER`. -/
def start (ι : Type*) : State ι where
  pc _ := .idle
  locked := false
  called := false
  started := 0
  finished := 0
  returned := 0
  exited := false

/-- The test of a result, `s == -1`. -/
def isError (s : ℤ) : Bool := s == -1

variable {ι : Type*} [DecidableEq ι]

/-- The thread goes on at `c`. -/
def State.goto (s : State ι) (t : ι) (c : Pc) : State ι :=
  { s with pc := Function.update s.pc t c }

@[simp] theorem State.goto_self (s : State ι) (t : ι) (c : Pc) : (s.goto t c).pc t = c := by
  simp only [goto, Function.update_self]

@[simp] theorem State.goto_of_ne (s : State ι) {t u : ι} (h : u ≠ t) (c : Pc) :
    (s.goto t c).pc u = s.pc u := by
  simp only [goto, ne_eq, h, not_false_eq_true, Function.update_of_ne]

/-- `one_time_init`, statement by statement. -/
def step (s : State ι) (l : Label ι) : Option (State ι) :=
  if s.exited then none else
  match l with
  | .call t => if s.pc t = .idle then some (s.goto t .lock) else none
  | .lock t ret =>
    -- a call that takes the mutex waits until it is free
    if s.pc t = .lock ∧ (ret = 0 → s.locked = false) then
      if isError ret then some { s with exited := true }
      else if ret = 0 then some { s.goto t (.check true) with locked := true }
      else some (s.goto t (.check false))
    else none
  | .check t =>
    match s.pc t with
    | .check own =>
      if s.called then some (s.goto t (.unlock own))
      else some { s.goto t (.init own) with started := s.started + 1 }
    | _ => none
  | .initReturns t =>
    match s.pc t with
    | .init own => some { s.goto t (.setCalled own) with finished := s.finished + 1 }
    | _ => none
  | .setCalled t =>
    match s.pc t with
    | .setCalled own => some { s.goto t (.unlock own) with called := true }
    | _ => none
  | .unlock t ret =>
    match s.pc t with
    | .unlock _ =>
      if isError ret then some { s with exited := true }
      else some {
        s.goto t .idle with
        locked := if ret = 0 then false else s.locked
        returned := s.returned + 1 }
    | _ => none

/-- The threads of `ι`, in any order. -/
def machine (ι : Type*) [DecidableEq ι] : Machine (State ι) (Label ι) where
  init := start ι
  step := step

/-- The initialiser is run once, and no call returns before it is done. -/
structure InitOnce (s : State ι) : Prop where
  once : s.started ≤ 1
  done : 0 < s.returned → s.finished = 1

/-- No thread whose lock call has failed finds `called` still 0. -/
def NoBareInit (s : State ι) : Label ι → Prop
  | .check t => s.pc t = .check false → s.called = true
  | _ => True

/-! ## What a step does -/

theorem isError_natCast (n : ℕ) : isError n = false := by
  rw [isError, beq_eq_false_iff_ne]
  omega

/-- The steps, with what they need. -/
inductive Happens (s : State ι) : Label ι → State ι → Prop
  | call {t : ι} : s.pc t = .idle → Happens s (.call t) (s.goto t .lock)
  | locks {t : ι} : s.pc t = .lock → s.locked = false →
      Happens s (.lock t 0) { s.goto t (.check true) with locked := true }
  | lockFails {t : ι} {ret : ℕ} : s.pc t = .lock → Happens s (.lock t ret) (s.goto t (.check false))
  | isCalled {t : ι} {own : Bool} : s.pc t = .check own → s.called = true →
      Happens s (.check t) (s.goto t (.unlock own))
  | starts {t : ι} {own : Bool} : s.pc t = .check own → s.called = false →
      Happens s (.check t) { s.goto t (.init own) with started := s.started + 1 }
  | initReturns {t : ι} {own : Bool} : s.pc t = .init own →
      Happens s (.initReturns t) { s.goto t (.setCalled own) with finished := s.finished + 1 }
  | setCalled {t : ι} {own : Bool} : s.pc t = .setCalled own →
      Happens s (.setCalled t) { s.goto t (.unlock own) with called := true }
  | unlocks {t : ι} {own : Bool} {ret : ℕ} (locked : Bool) : s.pc t = .unlock own →
      Happens s (.unlock t ret)
        { s.goto t .idle with locked := locked, returned := s.returned + 1 }

variable {s s' : State ι}

theorem happens_of_step {l : Label ι} (h : step s l = some s') : Happens s l s' := by
  unfold step at h
  rw [Option.ite_none_left_eq_some] at h
  rcases h with ⟨-, h⟩
  cases l with
  | call t =>
    rw [Option.ite_none_right_eq_some] at h
    cases h.2
    exact .call h.1
  | lock t ret =>
    simp only [isError_natCast, Bool.false_eq_true, if_false] at h
    rw [Option.ite_none_right_eq_some] at h
    rcases h with ⟨⟨hpc, hfree⟩, h⟩
    split at h
    case isTrue hret =>
      cases h
      subst hret
      exact .locks hpc (hfree rfl)
    case isFalse =>
      cases h
      exact .lockFails hpc
  | check t =>
    simp only at h
    split at h
    case h_1 own hpc =>
      split at h
      case isTrue hcalled =>
        cases h
        exact .isCalled hpc hcalled
      case isFalse hcalled =>
        cases h
        exact .starts hpc (Bool.eq_false_of_not_eq_true hcalled)
    case h_2 => cases h
  | initReturns t =>
    simp only at h
    split at h
    case h_1 own hpc =>
      cases h
      exact .initReturns hpc
    case h_2 => cases h
  | setCalled t =>
    simp only at h
    split at h
    case h_1 own hpc =>
      cases h
      exact .setCalled hpc
    case h_2 => cases h
  | unlock t ret =>
    simp only [isError_natCast, Bool.false_eq_true, if_false] at h
    split at h
    case h_1 own hpc =>
      cases h
      exact .unlocks _ hpc
    case h_2 => cases h

/-! ## The invariant -/

/-- Without the mutex and not past the test. -/
def Pc.Bare : Pc → Prop
  | .idle | .lock | .check false => True
  | .check true | .init _ | .setCalled _ | .unlock _ => False

/-- Before the test. -/
def Pc.Early : Pc → Prop
  | .idle | .lock | .check _ => True
  | .init _ | .setCalled _ | .unlock _ => False

/-- Not between the test and the assignment of `called`. -/
def Pc.Outside : Pc → Prop
  | .idle | .lock | .check _ | .unlock _ => True
  | .init _ | .setCalled _ => False

theorem Pc.Bare.outside {c : Pc} (h : c.Bare) : c.Outside := by
  cases c with
  | idle | lock | check => trivial
  | init | setCalled | unlock => exact h.elim

theorem Pc.early {c : Pc} {P : Prop} (h : c.Bare ∨ c = .check true ∧ P) : c.Early := by
  rcases h with h | ⟨rfl, -⟩
  · cases c with
    | idle | lock | check => trivial
    | init | setCalled | unlock => exact h
  · trivial

/-- How far the initialisation has come. -/
inductive Phase (s : State ι) : Prop
  /-- Nobody has started it; a thread with the mutex may be about to. -/
  | before : s.called = false → s.started = 0 → s.finished = 0 → s.returned = 0 →
      (∀ t, (s.pc t).Bare ∨ s.pc t = .check true ∧ s.locked = true) →
      (∀ t u, s.pc t = .check true → s.pc u = .check true → t = u) → Phase s
  /-- The thread with the mutex is at it. -/
  | running (t : ι) : s.called = false → s.locked = true → s.started = 1 → s.returned = 0 →
      (s.pc t = .init true ∧ s.finished = 0 ∨ s.pc t = .setCalled true ∧ s.finished = 1) →
      (∀ u, u ≠ t → (s.pc u).Bare) → Phase s
  | after : s.called = true → s.started = 1 → s.finished = 1 →
      (∀ t, (s.pc t).Outside) → Phase s

omit [DecidableEq ι] in
theorem Phase.initOnce (h : Phase s) : InitOnce s := by
  cases h with
  | before _ hstarted _ hreturned =>
    exact ⟨hstarted.le.trans (Nat.zero_le 1), fun hpos => absurd hreturned hpos.ne'⟩
  | running _ _ _ hstarted hreturned =>
    exact ⟨hstarted.le, fun hpos => absurd hreturned hpos.ne'⟩
  | after _ hstarted hfinished => exact ⟨hstarted.le, fun _ => hfinished⟩

omit [DecidableEq ι] in
theorem phase_start : Phase (start ι) :=
  .before rfl rfl rfl rfl (fun _ => .inl trivial) fun _ _ h => nomatch h

omit [DecidableEq ι] in
/-- A thread outside the initialiser is another one than the thread that is at it. -/
theorem ne_of_outside {r t : ι} {P Q : Prop}
    (hr : s.pc r = .init true ∧ P ∨ s.pc r = .setCalled true ∧ Q) (ht : (s.pc t).Outside) :
    t ≠ r := by
  rintro rfl
  rcases hr with ⟨hr, -⟩ | ⟨hr, -⟩ <;> rw [hr] at ht <;> exact ht

/-- A thread stays without the mutex and before the test. -/
theorem Phase.goto_bare (h : Phase s) {t : ι} {c : Pc} (hpc : (s.pc t).Bare) (hc : c.Bare) :
    Phase (s.goto t c) := by
  have hcheck : c ≠ .check true := by
    rintro rfl
    exact hc
  cases h with
  | before hcalled hstarted hfinished hreturned hpcs huniq =>
    refine .before hcalled hstarted hfinished hreturned ?_ ?_
    · intro u
      rcases eq_or_ne u t with rfl | hut
      · exact .inl (by rwa [State.goto_self])
      · rw [State.goto_of_ne _ hut]
        exact hpcs u
    · intro u v hu hv
      have hne : ∀ w, (s.goto t c).pc w = .check true → w ≠ t := by
        rintro w hw rfl
        rw [State.goto_self] at hw
        exact hcheck hw
      rw [State.goto_of_ne _ (hne u hu)] at hu
      rw [State.goto_of_ne _ (hne v hv)] at hv
      exact huniq u v hu hv
  | running r hcalled hlocked hstarted hreturned hr hpcs =>
    have hrt : r ≠ t := (ne_of_outside hr hpc.outside).symm
    refine .running r hcalled hlocked hstarted hreturned ?_ ?_
    · rwa [State.goto_of_ne _ hrt]
    · intro u hur
      rcases eq_or_ne u t with rfl | hut
      · rwa [State.goto_self]
      · rw [State.goto_of_ne _ hut]
        exact hpcs u hur
  | after hcalled hstarted hfinished hpcs =>
    refine .after hcalled hstarted hfinished fun u => ?_
    rcases eq_or_ne u t with rfl | hut
    · rw [State.goto_self]
      exact hc.outside
    · rw [State.goto_of_ne _ hut]
      exact hpcs u

/-- A thread takes the mutex. -/
theorem Phase.locks (h : Phase s) {t : ι} (hpc : s.pc t = .lock) (hfree : s.locked = false) :
    Phase { s.goto t (.check true) with locked := true } := by
  cases h with
  | before hcalled hstarted hfinished hreturned hpcs _ =>
    have hbare : ∀ u, s.pc u ≠ .check true := by
      intro u hu
      rcases hpcs u with hb | ⟨-, hlocked⟩
      · rw [hu] at hb
        exact hb
      · rw [hfree] at hlocked
        cases hlocked
    refine .before hcalled hstarted hfinished hreturned ?_ ?_
    · intro u
      rcases eq_or_ne u t with rfl | hut
      · exact .inr ⟨State.goto_self .., rfl⟩
      · refine .inl ?_
        simp only [State.goto_of_ne _ hut]
        exact (hpcs u).resolve_right fun hu => hbare u hu.1
    · intro u v hu hv
      have heq : ∀ w, (s.goto t (.check true)).pc w = .check true → w = t := by
        intro w hw
        by_contra hwt
        rw [State.goto_of_ne _ hwt] at hw
        exact hbare w hw
      exact (heq u hu).trans (heq v hv).symm
  | running r _ hlocked =>
    rw [hfree] at hlocked
    cases hlocked
  | after hcalled hstarted hfinished hpcs =>
    refine .after hcalled hstarted hfinished fun u => ?_
    rcases eq_or_ne u t with rfl | hut
    · simp only [State.goto_self]
      trivial
    · simp only [State.goto_of_ne _ hut]
      exact hpcs u

/-- The thread with the mutex starts the initialiser. -/
theorem Phase.starts (h : Phase s) {t : ι} (hpc : s.pc t = .check true)
    (hcalled : s.called = false) :
    Phase { s.goto t (.init true) with started := s.started + 1 } := by
  cases h with
  | before _ hstarted hfinished hreturned hpcs huniq =>
    refine .running t hcalled ?_ (congrArg (· + 1) hstarted) hreturned ?_ ?_
    · rcases hpcs t with hb | ⟨-, hlocked⟩
      · rw [hpc] at hb
        exact hb.elim
      · exact hlocked
    · exact .inl ⟨State.goto_self .., hfinished⟩
    · intro u hut
      simp only [State.goto_of_ne _ hut]
      exact (hpcs u).resolve_right fun hu => hut (huniq u t hu.1 hpc)
  | running r _ _ _ _ hr hpcs =>
    have hb : (s.pc t).Bare := hpcs t (ne_of_outside hr (by rw [hpc]; trivial))
    rw [hpc] at hb
    exact hb.elim
  | after htrue =>
    rw [hcalled] at htrue
    cases htrue

/-- The initialiser returns. -/
theorem Phase.initReturns (h : Phase s) {t : ι} {own : Bool} (hpc : s.pc t = .init own) :
    Phase { s.goto t (.setCalled own) with finished := s.finished + 1 } := by
  cases h with
  | before _ _ _ _ hpcs =>
    have he := Pc.early (hpcs t)
    rw [hpc] at he
    exact he.elim
  | running r hcalled hlocked hstarted hreturned hr hpcs =>
    obtain rfl : t = r := not_imp_comm.1 (hpcs t) (by rw [hpc]; exact id)
    rcases hr with ⟨hinit, hfinished⟩ | ⟨hset, -⟩
    · rw [hpc, Pc.init.injEq] at hinit
      subst hinit
      refine .running t hcalled hlocked hstarted hreturned ?_ ?_
      · exact .inr ⟨State.goto_self .., congrArg (· + 1) hfinished⟩
      · intro u hut
        simp only [State.goto_of_ne _ hut]
        exact hpcs u hut
    · rw [hpc] at hset
      cases hset
  | after _ _ _ hpcs =>
    have ho := hpcs t
    rw [hpc] at ho
    exact ho.elim

/-- The thread that has run the initialiser sets `called`. -/
theorem Phase.setCalled (h : Phase s) {t : ι} {own : Bool} (hpc : s.pc t = .setCalled own) :
    Phase { s.goto t (.unlock own) with called := true } := by
  cases h with
  | before _ _ _ _ hpcs =>
    have he := Pc.early (hpcs t)
    rw [hpc] at he
    exact he.elim
  | running r _ _ hstarted _ hr hpcs =>
    obtain rfl : t = r := not_imp_comm.1 (hpcs t) (by rw [hpc]; exact id)
    rcases hr with ⟨hinit, -⟩ | ⟨-, hfinished⟩
    · rw [hpc] at hinit
      cases hinit
    · refine .after rfl hstarted hfinished fun u => ?_
      rcases eq_or_ne u t with rfl | hut
      · simp only [State.goto_self]
        trivial
      · simp only [State.goto_of_ne _ hut]
        exact (hpcs u hut).outside
  | after _ _ _ hpcs =>
    have ho := hpcs t
    rw [hpc] at ho
    exact ho.elim

omit [DecidableEq ι] in
/-- A thread is at `unlock` only when the initialisation is over. -/
theorem Phase.called_of_unlock (h : Phase s) {t : ι} {own : Bool} (hpc : s.pc t = .unlock own) :
    s.called = true := by
  cases h with
  | before _ _ _ _ hpcs =>
    have he := Pc.early (hpcs t)
    rw [hpc] at he
    exact he.elim
  | running r _ _ _ _ hr hpcs =>
    have hb : (s.pc t).Bare := hpcs t (ne_of_outside hr (by rw [hpc]; trivial))
    rw [hpc] at hb
    exact hb.elim
  | after hcalled => exact hcalled

/-- Once `called` is set, a thread goes anywhere but into the initialiser. -/
theorem Phase.goto_of_called (h : Phase s) (hcalled : s.called = true) {t : ι} {c : Pc}
    (hc : c.Outside) (locked : Bool) (returned : ℕ) :
    Phase { s.goto t c with locked := locked, returned := returned } := by
  cases h with
  | before hfalse | running _ hfalse =>
    rw [hcalled] at hfalse
    cases hfalse
  | after _ hstarted hfinished hpcs =>
    refine .after hcalled hstarted hfinished fun u => ?_
    rcases eq_or_ne u t with rfl | hut
    · simp only [State.goto_self]
      exact hc
    · simp only [State.goto_of_ne _ hut]
      exact hpcs u

/-- **The step lemma**: as long as no thread without the mutex starts the initialiser, it is run
once. -/
theorem Phase.step (h : Phase s) {l : Label ι} (hok : NoBareInit s l) (hs : step s l = some s') :
    Phase s' := by
  cases happens_of_step hs with
  | call hpc => exact h.goto_bare (hpc ▸ trivial) trivial
  | locks hpc hfree => exact h.locks hpc hfree
  | lockFails hpc => exact h.goto_bare (hpc ▸ trivial) trivial
  | isCalled hpc hcalled => exact h.goto_of_called hcalled (c := .unlock _) trivial _ _
  | @starts t own hpc hcalled =>
    cases own with
    | false =>
      have htrue := hok hpc
      rw [hcalled] at htrue
      cases htrue
    | true => exact h.starts hpc hcalled
  | initReturns hpc => exact h.initReturns hpc
  | setCalled hpc => exact h.setCalled hpc
  | unlocks locked hpc => exact h.goto_of_called (h.called_of_unlock hpc) (c := .idle) trivial _ _

theorem phase_of_run (hs : (machine ι).ReachableBy NoBareInit s) : Phase s :=
  hs.invariant phase_start fun _ _ _ h hok hstep => h.step hok hstep

/-! ## The condition is needed -/

/-- A thread that has not come past the test gets into the initialiser, without the mutex. -/
theorem exists_run_of_bare {u : ι} (hexited : s.exited = false) (hcalled : s.called = false)
    (hpc : (s.pc u).Bare ∨ s.pc u = .check true) :
    ∃ ls s', (machine ι).run s ls = some s' ∧ s'.started = s.started + 1 := by
  have htest : ∀ s : State ι, s.exited = false → s.called = false → (∃ own, s.pc u = .check own) →
      ∃ s', step s (.check u) = some s' ∧ s'.started = s.started + 1 := by
    rintro s hexited hcalled ⟨own, hpc⟩
    exact ⟨{ s.goto u (.init own) with started := s.started + 1 },
      by simp [step, hexited, hpc, hcalled], rfl⟩
  have hlock : ∀ s : State ι, s.exited = false → s.called = false → s.pc u = .lock →
      ∃ s', (machine ι).run s [.lock u 1, .check u] = some s' ∧ s'.started = s.started + 1 := by
    intro s hexited hcalled hpc
    have hfail : step s (.lock u 1) = some (s.goto u (.check false)) := by
      simp [step, hexited, hpc, isError]
    rcases htest (s.goto u (.check false)) hexited hcalled ⟨false, State.goto_self ..⟩ with
      ⟨s', hs', hstarted⟩
    exact ⟨s', by simp [machine, hfail, hs'], hstarted⟩
  rcases hpc with hpc | hpc
  · cases hc : s.pc u with
    | idle =>
      have hcall : step s (.call u) = some (s.goto u .lock) := by simp [step, hexited, hc]
      rcases hlock (s.goto u .lock) hexited hcalled (State.goto_self ..) with ⟨s', hrun, hstarted⟩
      exact ⟨[.call u, .lock u 1, .check u], s', by
        rw [Machine.run_cons]
        simp only [machine] at hrun ⊢
        rw [hcall]
        exact hrun, hstarted⟩
    | lock =>
      rcases hlock s hexited hcalled hc with ⟨s', hrun, hstarted⟩
      exact ⟨_, s', hrun, hstarted⟩
    | check own =>
      rcases htest s hexited hcalled ⟨own, hc⟩ with ⟨s', hs', hstarted⟩
      exact ⟨[.check u], s', by simp [machine, hs'], hstarted⟩
    | init | setCalled | unlock =>
      rw [hc] at hpc
      exact hpc.elim
  · rcases htest s hexited hcalled ⟨true, hpc⟩ with ⟨s', hs', hstarted⟩
    exact ⟨[.check u], s', by simp [machine, hs'], hstarted⟩

/-- A thread that starts the initialiser without the mutex leaves it to the next thread to start it
again. -/
theorem exists_run_of_bareInit (h : Phase s) {l : Label ι} (hbad : ¬ NoBareInit s l)
    (hs : step s l = some s') {u : ι} (hu : u ≠ l.thread) :
    ∃ ls s'', (machine ι).run s' ls = some s'' ∧ ¬ InitOnce s'' := by
  have hexited : s.exited = false := by
    unfold step at hs
    rw [Option.ite_none_left_eq_some] at hs
    exact Bool.eq_false_of_not_eq_true hs.1
  cases happens_of_step hs with
  | call | locks | lockFails | initReturns | setCalled | unlocks => exact absurd trivial hbad
  | isCalled _ hcalled => exact absurd (fun _ => hcalled) hbad
  | @starts t own _ hcalled =>
    change u ≠ t at hu
    cases h with
    | before _ _ _ _ hpcs =>
      -- the other thread has not come past the test
      have hpc :
          ((s.goto t (.init own)).pc u).Bare ∨ (s.goto t (.init own)).pc u = .check true := by
        rw [State.goto_of_ne _ hu]
        exact (hpcs u).imp_right And.left
      rcases exists_run_of_bare (s := { s.goto t (.init own) with started := s.started + 1 })
        hexited hcalled hpc with ⟨ls, s'', hrun, hstarted⟩
      refine ⟨ls, s'', hrun, fun hgood => ?_⟩
      have honce := hgood.once
      rw [hstarted] at honce
      exact absurd honce (by simp only; omega)
    | running _ _ _ hstarted =>
      refine ⟨[], _, rfl, fun hgood => ?_⟩
      have honce := hgood.once
      simp only [hstarted] at honce
      omega
    | after htrue =>
      rw [hcalled] at htrue
      cases htrue

/-- **The initialiser runs once** in every run in which no thread whose lock call has failed finds
`called` still 0; and where one does, another thread can go on to run the initialiser again. -/
theorem one_time_init_once :
    (∀ s, (machine ι).ReachableBy NoBareInit s → InitOnce s) ∧
      ∀ s l s', (machine ι).ReachableBy NoBareInit s → ¬ NoBareInit s l →
        (machine ι).step s l = some s' → ∀ u, u ≠ l.thread →
          ∃ ls s'', (machine ι).run s' ls = some s'' ∧ ¬ InitOnce s'' :=
  ⟨fun _ hs => (phase_of_run hs).initOnce,
    fun _ _ _ hs hbad hstep _ hu => exists_run_of_bareInit (phase_of_run hs) hbad hstep hu⟩

/-- The first of two threads gets `EAGAIN` from its lock call and runs the initialiser; the second
takes the mutex and runs it as well. -/
theorem one_time_init_twice :
    ¬ ∀ s, (machine (Fin 2)).Reachable s → InitOnce s := by
  intro h
  have hrun : ∃ s, (machine (Fin 2)).run (start (Fin 2))
      [.call 0, .lock 0 11, .check 0, .call 1, .lock 1 0, .check 1] = some s ∧ s.started = 2 :=
    ⟨_, rfl, rfl⟩
  rcases hrun with ⟨s, hrun, hstarted⟩
  have honce := (h s (.run .init _ hrun)).once
  rw [hstarted] at honce
  omega

end TlpiLearn.OneTimeInit
