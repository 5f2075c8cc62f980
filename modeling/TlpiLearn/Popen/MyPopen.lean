import TlpiLearn.Foundations.Machine
import Mathlib.Data.Fin.Basic
import Mathlib.Tactic

/-!
# `mypopen` and `mypclose`

`Exercise/44_2.c`: `mypopen` makes a pipe, forks a child that runs a command behind one end of it,
and records the child's pid at the index of the other end in `fd_to_pid`; `mypclose` closes the
stream and waits for the pid recorded at its descriptor. The kernel gives out any free descriptors
below 1024, the size of the table, and any pid that no unwaited child has. Children are told apart
by the order of the forks, since pids come back.

The descriptors of a child are those that its parent had at the `fork`, changed by the calls of the
child up to its point of execution (`Child.fds`). A command that reads to the end of its standard
input ends only when nobody holds the write end of the pipe. A command may leave processes behind
that go on when the child has ended; each descriptor of such a process is a copy of one of the
child's.
-/

namespace TlpiLearn.Popen

/-- A descriptor that fits `fd_to_pid`. -/
abbrev Fd := Fin 1024

instance instNeZeroFd : NeZero 1024 := ⟨by decide⟩

/-- `STDIN_FILENO`. -/
def STDIN_FILENO {δ : Type*} [OfNat δ 0] : δ := 0

/-- `STDOUT_FILENO`. -/
def STDOUT_FILENO {δ : Type*} [OfNat δ 1] : δ := 1

/-- What a descriptor refers to. -/
inductive File
  | other
  | readEnd (pipe : ℕ)
  | writeEnd (pipe : ℕ)
  deriving DecidableEq, Repr

/-- The descriptors of a process, where they are of any type `δ`. -/
abbrev FdTable (δ : Type*) := δ → Option File

/-- The descriptors of a process. -/
abbrev Fds := FdTable Fd

section FdTable

variable {δ : Type*} [DecidableEq δ]

/-- `close`. -/
def FdTable.close (fds : FdTable δ) (fd : δ) : FdTable δ := Function.update fds fd none

/-- `dup2`. -/
def FdTable.dup2 (fds : FdTable δ) (oldfd newfd : δ) : FdTable δ :=
  Function.update fds newfd (fds oldfd)

/-- `pipe`, which returned the descriptors `pfd₀` and `pfd₁`. -/
def FdTable.pipe (fds : FdTable δ) (pfd₀ pfd₁ : δ) (n : ℕ) : FdTable δ :=
  Function.update (Function.update fds pfd₀ (some (.readEnd n))) pfd₁ (some (.writeEnd n))

end FdTable

/-- The argument `modes`. -/
inductive Modes
  | r
  | w
  deriving DecidableEq, Repr

/-- The end of the pipe that the parent keeps and the child closes. -/
def Modes.kept (modes : Modes) (pfd₀ pfd₁ : Fd) : Fd :=
  match modes with
  | .r => pfd₀
  | .w => pfd₁

/-- The end of the pipe that the parent closes and the child keeps. -/
def Modes.given (modes : Modes) (pfd₀ pfd₁ : Fd) : Fd :=
  match modes with
  | .r => pfd₁
  | .w => pfd₀

/-- The standard descriptor that the child puts its end on. -/
def Modes.std : Modes → Fd
  | .r => STDOUT_FILENO
  | .w => STDIN_FILENO

/-- The call of a child that comes next. -/
inductive Phase
  /-- The `close` of the end that it does not use. -/
  | close
  | dup2
  /-- The `close` of the end that it has duplicated. -/
  | closeGiven
  /-- `system(command)`. -/
  | system
  /-- It has ended and nobody has waited for it. -/
  | zombie
  | reaped
  deriving DecidableEq, Repr

/-- A child process. -/
structure Child where
  pid : ℕ
  modes : Modes
  pfd₀ : Fd
  pfd₁ : Fd
  /-- Which pipe it was made for. -/
  pipe : ℕ
  /-- The command ends when its standard input ends. -/
  readsToEof : Bool
  /-- The descriptors at the `fork`. -/
  inherited : Fds
  phase : Phase

/-- The end that the child closes. -/
def Child.kept (c : Child) : Fd := c.modes.kept c.pfd₀ c.pfd₁

/-- The end that the child uses. -/
def Child.given (c : Child) : Fd := c.modes.given c.pfd₀ c.pfd₁

/-- The descriptors of the child. -/
def Child.fds (c : Child) : Fds :=
  match c.phase with
  | .close => c.inherited
  | .dup2 => c.inherited.close c.kept
  | .closeGiven => (c.inherited.close c.kept).dup2 c.given c.modes.std
  | .system =>
    if c.given = c.modes.std then c.inherited.close c.kept
    else ((c.inherited.close c.kept).dup2 c.given c.modes.std).close c.given
  | .zombie | .reaped => fun _ => none

/-- What the parent does next: a call of its program, or the `waitpid` of `mypclose` on the stream
that was at `fd` and belonged to the child number `own`. -/
inductive Pc
  | idle
  | waitpid (fd : Fd) (own : ℕ)
  deriving DecidableEq, Repr

/-- The parent, its children in the order of the forks, and what `mypclose` has closed and waited
for. -/
structure State where
  fds : Fds
  fd_to_pid : Fd → ℕ
  /-- The child of the stream that is open at a descriptor. -/
  streams : Fd → Option ℕ
  pc : Pc
  children : List Child
  /-- The descriptors of the processes that the commands have left running. -/
  left : List Fds
  /-- The number of pipes made. -/
  pipes : ℕ
  /-- The children whose streams `mypclose` has closed. -/
  closed : List ℕ
  /-- The child whose stream was closed, and the child that `waitpid` returned. -/
  waited : List (ℕ × ℕ)

/-- What happens in a call of `mypopen`. -/
inductive Outcome (δ : Type*)
  | pipeFails
  | forkFails (pfd₀ pfd₁ : δ)
  | forks (pfd₀ pfd₁ : δ) (pid : ℕ) (fdopens : Bool)
  deriving DecidableEq, Repr

/-- For each descriptor of a new process, the descriptor that it is a copy of, or `none` if it is
closed. -/
abbrev Dups := Fd → Option Fd

/-- The descriptors of a new process. -/
def Fds.copy (fds : Fds) (dups : Dups) : Fds := fun fd => (dups fd).bind fds

/-- The steps: a call of `mypopen`, the `fclose` and the `waitpid` of `mypclose`, the next call of a
child, and what the commands do with other processes. -/
inductive Label
  | mypopen (modes : Modes) (readsToEof : Bool) (outcome : Outcome Fd)
  | fclose (fd : Fd) (succeeds : Bool)
  | waitpid (n : ℕ)
  | waitpidFails
  | child (n : ℕ)
  /-- The command of the child number `n` leaves a process running. -/
  | leaves (n : ℕ) (dups : Dups)
  /-- A process that was left running makes another one. -/
  | spawns (i : ℕ) (dups : Dups)
  /-- A process that was left running ends. -/
  | leftEnds (i : ℕ)

/-- Two free descriptors. -/
def State.Free (s : State) (pfd₀ pfd₁ : Fd) : Prop :=
  pfd₀ ≠ pfd₁ ∧ s.fds pfd₀ = none ∧ s.fds pfd₁ = none

instance (s : State) (pfd₀ pfd₁ : Fd) : Decidable (s.Free pfd₀ pfd₁) :=
  inferInstanceAs (Decidable (_ ∧ _ ∧ _))

/-- A pid that `fork` may return to the parent. -/
def State.PidFree (s : State) (pid : ℕ) : Prop :=
  0 < pid ∧ ∀ c ∈ s.children, c.phase ≠ .reaped → c.pid ≠ pid

instance (s : State) (pid : ℕ) : Decidable (s.PidFree pid) :=
  inferInstanceAs (Decidable (_ ∧ ∀ c ∈ s.children, _))

/-- `mypopen`. -/
def mypopen (s : State) (modes : Modes) (readsToEof : Bool) : Outcome Fd → Option State
  | .pipeFails => some s
  | .forkFails pfd₀ pfd₁ =>
    if s.Free pfd₀ pfd₁ then
      some { s with fds := s.fds.pipe pfd₀ pfd₁ s.pipes, pipes := s.pipes + 1 }
    else none
  | .forks pfd₀ pfd₁ pid fdopens =>
    if s.Free pfd₀ pfd₁ ∧ s.PidFree pid then
      let fds := s.fds.pipe pfd₀ pfd₁ s.pipes
      let fd := modes.kept pfd₀ pfd₁
      some { s with
        fds := fds.close (modes.given pfd₀ pfd₁)
        fd_to_pid := Function.update s.fd_to_pid fd pid
        streams := if fdopens then Function.update s.streams fd (some s.children.length)
          else s.streams
        children := s.children ++
          [{ pid, modes, pfd₀, pfd₁, pipe := s.pipes, readsToEof, inherited := fds,
             phase := .close }]
        pipes := s.pipes + 1 }
    else none

/-- Somebody holds the write end of a pipe. -/
def State.Written (s : State) (pipe : ℕ) : Prop :=
  (∃ fd, s.fds fd = some (.writeEnd pipe)) ∨
    (∃ c ∈ s.children, ∃ fd, c.fds fd = some (.writeEnd pipe)) ∨
      ∃ fds ∈ s.left, ∃ fd, fds fd = some (.writeEnd pipe)

instance (s : State) (pipe : ℕ) : Decidable (s.Written pipe) :=
  inferInstanceAs (Decidable ((∃ _, _) ∨ (∃ c ∈ s.children, _) ∨ ∃ fds ∈ s.left, _))

/-- The standard input of a child is at its end. -/
def State.AtEof (s : State) (c : Child) : Prop :=
  match c.fds STDIN_FILENO with
  | some (.readEnd pipe) => ¬ s.Written pipe
  | _ => True

instance (s : State) (c : Child) : Decidable (s.AtEof c) :=
  match h : c.fds STDIN_FILENO with
  | some (.readEnd pipe) => decidable_of_iff (¬ s.Written pipe) (by simp [State.AtEof, h])
  | some .other | some (.writeEnd _) | none => isTrue (by simp [State.AtEof, h])

/-- The child `c` after its next call, or `none` while it cannot go on. -/
def childStep (s : State) (c : Child) : Option Child :=
  match c.phase with
  | .close =>
    some { c with phase := if c.given = c.modes.std then .system else .dup2 }
  | .dup2 => some { c with phase := .closeGiven }
  | .closeGiven => some { c with phase := .system }
  | .system => if c.readsToEof = true → s.AtEof c then some { c with phase := .zombie } else none
  | .zombie | .reaped => none

/-- The step function. -/
def step (s : State) : Label → Option State
  | .mypopen modes readsToEof outcome =>
    if s.pc = .idle then mypopen s modes readsToEof outcome else none
  | .fclose fd succeeds =>
    match s.streams fd with
    | some own =>
      if s.pc = .idle then
        some { s with
          fds := s.fds.close fd
          streams := Function.update s.streams fd none
          pc := if succeeds then .waitpid fd own else .idle
          closed := s.closed ++ [own] }
      else none
    | none => none
  | .waitpid n =>
    match s.pc, s.children[n]? with
    | .waitpid fd own, some c =>
      if c.phase = .zombie ∧ c.pid = s.fd_to_pid fd then
        some { s with
          pc := .idle
          children := s.children.set n { c with phase := .reaped }
          waited := s.waited ++ [(own, n)] }
      else none
    | _, _ => none
  | .waitpidFails => if s.pc = .idle then none else some { s with pc := .idle }
  | .child n =>
    s.children[n]?.bind fun c =>
      (childStep s c).map fun c' => { s with children := s.children.set n c' }
  | .leaves n dups =>
    s.children[n]?.bind fun c =>
      if c.phase = .system then some { s with left := s.left ++ [c.fds.copy dups] } else none
  | .spawns i dups => s.left[i]?.map fun fds => { s with left := s.left ++ [fds.copy dups] }
  | .leftEnds i => some { s with left := s.left.eraseIdx i }

/-- A process that has no pipes yet, with the descriptors `fds`. -/
def init (fds : Fd → Bool) : State where
  fds fd := if fds fd then some .other else none
  fd_to_pid _ := 0
  streams _ := none
  pc := .idle
  children := []
  left := []
  pipes := 0
  closed := []
  waited := []

/-- The process and its children. -/
def machine (fds : Fd → Bool) : Machine State Label := ⟨init fds, step⟩

/-- What can happen in a step. -/
inductive Happens (s : State) : Label → State → Prop
  | pipeFails {modes : Modes} {readsToEof : Bool} (hpc : s.pc = .idle) :
      Happens s (.mypopen modes readsToEof .pipeFails) s
  | forkFails {modes : Modes} {readsToEof : Bool} {pfd₀ pfd₁ : Fd} (hpc : s.pc = .idle)
      (hfree : s.Free pfd₀ pfd₁) :
      Happens s (.mypopen modes readsToEof (.forkFails pfd₀ pfd₁))
        { s with fds := s.fds.pipe pfd₀ pfd₁ s.pipes, pipes := s.pipes + 1 }
  | forks {modes : Modes} {readsToEof : Bool} {pfd₀ pfd₁ : Fd} {pid : ℕ} {fdopens : Bool}
      (hpc : s.pc = .idle) (hfree : s.Free pfd₀ pfd₁) (hpid : s.PidFree pid) :
      Happens s (.mypopen modes readsToEof (.forks pfd₀ pfd₁ pid fdopens)) { s with
        fds := (s.fds.pipe pfd₀ pfd₁ s.pipes).close (modes.given pfd₀ pfd₁)
        fd_to_pid := Function.update s.fd_to_pid (modes.kept pfd₀ pfd₁) pid
        streams := if fdopens then
            Function.update s.streams (modes.kept pfd₀ pfd₁) (some s.children.length)
          else s.streams
        children := s.children ++
          [{ pid, modes, pfd₀, pfd₁, pipe := s.pipes, readsToEof,
             inherited := s.fds.pipe pfd₀ pfd₁ s.pipes, phase := .close }]
        pipes := s.pipes + 1 }
  | fclose {fd : Fd} {own : ℕ} {succeeds : Bool} (hpc : s.pc = .idle)
      (hown : s.streams fd = some own) :
      Happens s (.fclose fd succeeds) { s with
        fds := s.fds.close fd
        streams := Function.update s.streams fd none
        pc := if succeeds then .waitpid fd own else .idle
        closed := s.closed ++ [own] }
  | waitpid {fd : Fd} {own n : ℕ} {c : Child} (hpc : s.pc = .waitpid fd own)
      (hc : s.children[n]? = some c) (hphase : c.phase = .zombie)
      (hpid : c.pid = s.fd_to_pid fd) :
      Happens s (.waitpid n) { s with
        pc := .idle
        children := s.children.set n { c with phase := .reaped }
        waited := s.waited ++ [(own, n)] }
  | waitpidFails (hpc : s.pc ≠ .idle) : Happens s .waitpidFails { s with pc := .idle }
  | child {n : ℕ} {c c' : Child} (hc : s.children[n]? = some c) (hstep : childStep s c = some c') :
      Happens s (.child n) { s with children := s.children.set n c' }
  | leaves {n : ℕ} {c : Child} {dups : Dups} (hc : s.children[n]? = some c)
      (hphase : c.phase = .system) :
      Happens s (.leaves n dups) { s with left := s.left ++ [c.fds.copy dups] }
  | spawns {i : ℕ} {fds : Fds} {dups : Dups} (hfds : s.left[i]? = some fds) :
      Happens s (.spawns i dups) { s with left := s.left ++ [fds.copy dups] }
  | leftEnds {i : ℕ} : Happens s (.leftEnds i) { s with left := s.left.eraseIdx i }

theorem happens_of_step {s s' : State} {l : Label} (h : step s l = some s') : Happens s l s' := by
  cases l with
  | mypopen modes readsToEof outcome =>
    simp only [step, Option.ite_none_right_eq_some] at h
    obtain ⟨hpc, h⟩ := h
    cases outcome with
    | pipeFails =>
      obtain rfl := Option.some.inj h
      exact .pipeFails hpc
    | forkFails pfd₀ pfd₁ =>
      simp only [mypopen, Option.ite_none_right_eq_some, Option.some.injEq] at h
      obtain ⟨hfree, rfl⟩ := h
      exact .forkFails hpc hfree
    | forks pfd₀ pfd₁ pid fdopens =>
      simp only [mypopen, Option.ite_none_right_eq_some, Option.some.injEq] at h
      obtain ⟨⟨hfree, hpid⟩, rfl⟩ := h
      exact .forks hpc hfree hpid
  | fclose fd succeeds =>
    simp only [step] at h
    split at h
    · rename_i own hown
      simp only [Option.ite_none_right_eq_some, Option.some.injEq] at h
      obtain ⟨hpc, rfl⟩ := h
      exact .fclose hpc hown
    · cases h
  | waitpid n =>
    simp only [step] at h
    split at h
    · rename_i fd own c hpc hc
      simp only [Option.ite_none_right_eq_some, Option.some.injEq] at h
      obtain ⟨⟨hphase, hpid⟩, rfl⟩ := h
      exact .waitpid hpc hc hphase hpid
    · cases h
  | waitpidFails =>
    simp only [step, Option.ite_none_left_eq_some, Option.some.injEq] at h
    obtain ⟨hpc, rfl⟩ := h
    exact .waitpidFails hpc
  | child n =>
    simp only [step, Option.bind_eq_some_iff, Option.map_eq_some_iff] at h
    obtain ⟨c, hc, c', hstep, rfl⟩ := h
    exact .child hc hstep
  | leaves n dups =>
    simp only [step, Option.bind_eq_some_iff, Option.ite_none_right_eq_some,
      Option.some.injEq] at h
    obtain ⟨c, hc, hphase, rfl⟩ := h
    exact .leaves hc hphase
  | spawns i dups =>
    simp only [step, Option.map_eq_some_iff] at h
    obtain ⟨fds, hfds, rfl⟩ := h
    exact .spawns hfds
  | leftEnds i =>
    obtain rfl := Option.some.inj h
    exact .leftEnds

end TlpiLearn.Popen
