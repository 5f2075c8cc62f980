import TlpiLearn.Foundations.Machine
import Mathlib.Tactic

/-!
# The connection-limited echo server

`60/1/echo_sv.c` takes a permit of a semaphore before each `accept` and forks a child for the
connection; the `SIGCHLD` handler `grimReaper` gives one permit back for each child it reaps. The
parent runs its loop (`MainPc`), the handler interrupts it at any point (`HandlerPc`), and the
children end at any time, each raising a `SIGCHLD` that merges with one already pending.

`run_permits` is the balance of the permits over any run: a permit is free, held by the loop, held
by a child that is not yet reaped, between `waitpid` and `sem_post`, or was given up in the
branch of the failed `fork`, which posts nothing. `permits_balanced_iff` reads it at the top of
the loop.
-/

namespace TlpiLearn.EchoLimit

/-- `#define MAX_CONNECTIONS 10`. -/
def maxConnections : ℕ := 10

/-- Where the parent is in its accept loop. -/
inductive MainPc
  /-- Top of the loop, before `sem_wait`. -/
  | top
  /-- Before `accept`. -/
  | accepting
  /-- Before `fork`. -/
  | forking
  /-- `case -1`: before `close(cfd)`, giving up on this client. -/
  | givingUp
  /-- `default`: before `close(cfd)` in the parent. -/
  | closing
  /-- After `exit(EXIT_FAILURE)`. -/
  | exited
  deriving DecidableEq, Repr

/-- Where the `SIGCHLD` handler `grimReaper` is. -/
inductive HandlerPc
  /-- Not running. -/
  | idle
  /-- Before `waitpid(-1, NULL, WNOHANG)`. -/
  | reaping
  /-- A child was reaped; before `sem_post`. -/
  | posting
  deriving DecidableEq, Repr

/-- The parent, its semaphore and its children. -/
structure State where
  pc : MainPc
  handler : HandlerPc
  /-- The value of the semaphore. -/
  sem : ℕ
  /-- Children that have not ended. -/
  running : ℕ
  /-- Children that have ended and are not reaped. -/
  zombies : ℕ
  /-- `SIGCHLD` is pending. -/
  pending : Bool
  deriving DecidableEq, Repr

/-- The forked children not yet reaped. -/
def State.unreaped (s : State) : ℕ := s.running + s.zombies

/-- One step of the parent, of its handler or of a child, with the outcome of the call. -/
inductive Label
  | semWait (ok : Bool)
  | accept (ok : Bool)
  | fork (ok : Bool)
  | close
  | childExit
  | deliver
  | waitpid
  | semPost (ok : Bool)
  deriving DecidableEq, Repr

/-- The loop of `main` is running: neither in the handler nor after `exit`. -/
def State.inMain (s : State) (pc : MainPc) : Prop := s.handler = .idle ∧ s.pc = pc

instance (s : State) (pc : MainPc) : Decidable (s.inMain pc) :=
  inferInstanceAs (Decidable (_ ∧ _))

/-- The server after `sem_open(SEM_NAME, O_CREAT | O_EXCL, 0666, MAX_CONNECTIONS)`. -/
def start : State :=
  { pc := .top, handler := .idle, sem := maxConnections, running := 0, zombies := 0,
    pending := false }

/-- The steps. `sem_wait` blocks while the semaphore is zero; both it and `accept` are restarted
after the handler (`SA_RESTART`). -/
def step (s : State) : Label → Option State
  | .semWait true =>
    if s.inMain .top ∧ 0 < s.sem then some { s with pc := .accepting, sem := s.sem - 1 } else none
  | .semWait false => if s.inMain .top then some { s with pc := .exited } else none
  | .accept ok =>
    if s.inMain .accepting then some { s with pc := if ok then .forking else .exited } else none
  | .fork true =>
    if s.inMain .forking then some { s with pc := .closing, running := s.running + 1 } else none
  | .fork false => if s.inMain .forking then some { s with pc := .givingUp } else none
  | .close =>
    if s.inMain .givingUp ∨ s.inMain .closing then some { s with pc := .top } else none
  | .childExit =>
    if 0 < s.running then
      some { s with running := s.running - 1, zombies := s.zombies + 1, pending := true }
    else none
  | .deliver =>
    -- the signal is blocked while its own handler runs
    if s.pending ∧ s.handler = .idle ∧ s.pc ≠ .exited then
      some { s with handler := .reaping, pending := false }
    else none
  | .waitpid =>
    if s.handler = .reaping then
      if 0 < s.zombies then some { s with handler := .posting, zombies := s.zombies - 1 }
      else some { s with handler := .idle }
    else none
  | .semPost true =>
    if s.handler = .posting then some { s with handler := .reaping, sem := s.sem + 1 } else none
  | .semPost false =>
    if s.handler = .posting then some { s with handler := .idle, pc := .exited } else none

/-- The server and its children. -/
def server : Machine State Label := ⟨start, step⟩

/-! ## The balance of the permits -/

/-- The permit the loop holds between `sem_wait` and the end of `fork`. -/
def MainPc.held : MainPc → ℕ
  | .accepting | .forking => 1
  | _ => 0

/-- The permit of a reaped child that is not yet posted. -/
def HandlerPc.held : HandlerPc → ℕ
  | .posting => 1
  | _ => 0

/-- Every permit that a later step can still give back or use. -/
def State.permits (s : State) : ℕ := s.sem + s.unreaped + s.pc.held + s.handler.held

/-- The permit that a label loses although the server goes on: the one of a failed `fork`. -/
def Label.lost : Label → ℕ
  | .fork false => 1
  | _ => 0

/-- A step creates no permit and, unless the server exits, loses only the ones of `Label.lost`. -/
theorem permits_step {s s' : State} {l : Label} (h : step s l = some s') :
    s'.permits + l.lost ≤ s.permits ∧
      (s'.pc ≠ .exited → s'.permits + l.lost = s.permits) := by
  have conserved (e : s'.permits + l.lost = s.permits) : s'.permits + l.lost ≤ s.permits ∧
      (s'.pc ≠ .exited → s'.permits + l.lost = s.permits) := ⟨e.le, fun _ => e⟩
  have exits (hx : s'.pc = .exited) (e : s'.permits + l.lost ≤ s.permits) :
      s'.permits + l.lost ≤ s.permits ∧
      (s'.pc ≠ .exited → s'.permits + l.lost = s.permits) := ⟨e, fun h => absurd hx h⟩
  rcases l with (_ | _) | (_ | _) | (_ | _) | _ | _ | _ | _ | (_ | _) <;>
    simp only [step, Option.ite_none_right_eq_some] at h <;> obtain ⟨hg, h⟩ := h
  case semWait.false =>
    obtain rfl := Option.some.inj h
    exact exits rfl (by simp [State.permits, State.unreaped, Label.lost, hg.2, MainPc.held])
  case semWait.true =>
    obtain rfl := Option.some.inj h
    obtain ⟨⟨-, hp⟩, hsem⟩ := hg
    apply conserved
    simp only [State.permits, State.unreaped, Label.lost, hp, MainPc.held]
    omega
  case accept.false =>
    obtain rfl := Option.some.inj h
    exact exits rfl (by simp [State.permits, State.unreaped, Label.lost, hg.2, MainPc.held])
  case accept.true =>
    obtain rfl := Option.some.inj h
    exact conserved (by simp [State.permits, State.unreaped, Label.lost, hg.2, MainPc.held])
  case fork.false =>
    obtain rfl := Option.some.inj h
    apply conserved
    simp only [State.permits, State.unreaped, Label.lost, hg.2, MainPc.held]
    omega
  case fork.true =>
    obtain rfl := Option.some.inj h
    apply conserved
    simp only [State.permits, State.unreaped, Label.lost, hg.2, MainPc.held]
    omega
  case close =>
    obtain rfl := Option.some.inj h
    apply conserved
    obtain ⟨-, hp⟩ | ⟨-, hp⟩ := hg <;>
      simp [State.permits, State.unreaped, Label.lost, hp, MainPc.held]
  case childExit =>
    obtain rfl := Option.some.inj h
    apply conserved
    simp only [State.permits, State.unreaped, Label.lost]
    omega
  case deliver =>
    obtain rfl := Option.some.inj h
    exact conserved (by simp [State.permits, State.unreaped, Label.lost, hg.2.1, HandlerPc.held])
  case waitpid =>
    apply conserved
    split at h <;> obtain rfl := Option.some.inj h
    · simp only [State.permits, State.unreaped, Label.lost, hg, HandlerPc.held]
      omega
    · simp [State.permits, State.unreaped, Label.lost, hg, HandlerPc.held]
  case semPost.false =>
    obtain rfl := Option.some.inj h
    apply exits rfl
    simp only [State.permits, State.unreaped, Label.lost, hg, HandlerPc.held, MainPc.held]
    omega
  case semPost.true =>
    obtain rfl := Option.some.inj h
    apply conserved
    simp only [State.permits, State.unreaped, Label.lost, hg, HandlerPc.held]
    omega

/-- An exited server stays exited. -/
theorem exited_step {s s' : State} {l : Label} (h : step s l = some s') (hs : s.pc = .exited) :
    s'.pc = .exited := by
  have hm : ∀ pc, pc ≠ MainPc.exited → ¬ s.inMain pc := fun pc hpc hin => hpc (hin.2 ▸ hs)
  rcases l with (_ | _) | _ | (_ | _) | _ | _ | _ | _ | (_ | _) <;>
    simp only [step, hm _ (by decide : MainPc.top ≠ .exited),
      hm _ (by decide : MainPc.accepting ≠ .exited), hm _ (by decide : MainPc.forking ≠ .exited),
      hm _ (by decide : MainPc.givingUp ≠ .exited), hm _ (by decide : MainPc.closing ≠ .exited),
      false_and, or_self, ↓reduceIte, reduceCtorEq, Option.ite_none_right_eq_some,
      Option.some.injEq] at h
  · obtain ⟨-, rfl⟩ := h; exact hs
  · exact absurd hs h.1.2.2
  · obtain ⟨-, h⟩ := h
    split at h <;> obtain rfl := Option.some.inj h <;> exact hs
  · obtain ⟨-, rfl⟩ := h; rfl
  · obtain ⟨-, rfl⟩ := h; exact hs

/-- **The balance of the permits** over a run: none is created, and while the server is up only
the failed forks have lost one. -/
theorem run_permits {s s' : State} {ls : List Label} (h : server.run s ls = some s') :
    s'.permits ≤ s.permits ∧
      (s'.pc ≠ .exited →
        s.pc ≠ .exited ∧ s'.permits + ls.count (.fork false) = s.permits) := by
  induction ls generalizing s with
  | nil =>
    obtain rfl := Option.some.inj h
    exact ⟨le_rfl, fun hx => ⟨hx, rfl⟩⟩
  | cons l ls ih =>
    rw [Machine.run_cons, Option.bind_eq_some_iff] at h
    obtain ⟨t, ht, h⟩ := h
    obtain ⟨hle, hrun⟩ := ih h
    obtain ⟨hle', hstep⟩ := permits_step ht
    refine ⟨by omega, fun hx => ?_⟩
    obtain ⟨htx, hrun⟩ := hrun hx
    have hl : (l :: ls).count (.fork false) = ls.count (.fork false) + l.lost := by
      rw [List.count_cons]
      rcases l with (_ | _) | (_ | _) | (_ | _) | _ | _ | _ | _ | (_ | _) <;> rfl
    have := hstep htx
    exact ⟨fun hs => htx (exited_step ht hs), by omega⟩

/-- **The permits at the top of the loop**: over every run, the free permits and the children not
yet reaped make up all the permits exactly when no `fork` has failed; in every state there are at
most `MAX_CONNECTIONS` children. -/
theorem permits_balanced_iff (ls : List Label) {s : State}
    (h : server.run server.init ls = some s) :
    s.unreaped ≤ maxConnections ∧
      (s.inMain .top → (s.sem + s.unreaped = maxConnections ↔ Label.fork false ∉ ls)) := by
  obtain ⟨hle, hrun⟩ := run_permits h
  have hinit : server.init.permits = maxConnections := rfl
  rw [hinit] at hle hrun
  refine ⟨by simp only [State.permits] at hle; omega, fun ⟨hh, hp⟩ => ?_⟩
  obtain ⟨-, hrun⟩ := hrun (by simp [hp])
  simp only [State.permits, hp, hh, MainPc.held, HandlerPc.held, add_zero] at hrun
  rw [← List.count_eq_zero]
  omega

/-- A client that connects and is served, and whose child is reaped. -/
theorem permits_balanced_iff_served :
    ∃ s, server.run server.init [.semWait true, .accept true, .fork true, .close, .childExit,
        .deliver, .waitpid, .semPost true, .waitpid] = some s ∧
      s.inMain .top ∧ s.sem + s.unreaped = maxConnections := by
  refine ⟨_, rfl, by decide, ?_⟩
  exact ((permits_balanced_iff [.semWait true, .accept true, .fork true, .close, .childExit,
    .deliver, .waitpid, .semPost true, .waitpid] rfl).2 (by decide)).2 (by decide)

/-- A failed `fork` leaves the loop at its top with nine permits and no child. -/
theorem fork_failure_leaks :
    ∃ s, server.Reachable s ∧ s.inMain .top ∧ s.sem + s.unreaped ≠ maxConnections :=
  ⟨{ start with sem := 9 }, Machine.Reachable.run .init
    [.semWait true, .accept true, .fork false, .close] rfl, by decide, by decide⟩

end TlpiLearn.EchoLimit
