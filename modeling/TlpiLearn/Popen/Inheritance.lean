import TlpiLearn.Popen.Waits
import Mathlib.Tactic

/-!
# Who holds the write end of a stream

A child inherits the descriptors of all streams that are open at its `fork`, and closes none of
them but the unused end of its own pipe. So when `mypclose` closes a stream of mode `w`, each child
that was forked while the stream was open still holds the write end, unless it has ended or puts its
own end over that descriptor, and so may each process that the command of such a child has left
running. In every run in which no such child and no such process holds it at an `fclose`, a closed
stream is held only by children that are about to close it, and the child of the stream, which sees
the end of its input, does not block the `waitpid` (`closed_streams_unheld`). Otherwise the child
stays blocked behind another one (`later_child_holds_stream`).
-/

namespace TlpiLearn.Popen

/-- The child has not ended. -/
def Child.Live (c : Child) : Prop := c.phase ≠ .zombie ∧ c.phase ≠ .reaped

/-- The child has put its own end of its pipe on the standard descriptor `fd`. -/
def Child.Overlays (c : Child) (fd : Fd) : Prop :=
  fd = c.modes.std ∧ (c.phase = .closeGiven ∨ c.phase = .system)

/-- The child closes `fd` before it runs its command: it is the unused end of its own pipe, or the
standard descriptor that it puts the other end on. -/
def Child.Closing (c : Child) (fd : Fd) : Prop :=
  (c.phase = .close ∧ fd = c.kept) ∨ ((c.phase = .close ∨ c.phase = .dup2) ∧ fd = c.modes.std)

/-- No process that a command has left running has the write end of a pipe. -/
def State.NotLeft (s : State) (p : ℕ) : Prop :=
  ∀ fds ∈ s.left, ∀ fd, fds fd ≠ some (.writeEnd p)

/-- When a stream of mode `w` is closed, every child that was forked after its own child has ended,
unless the descriptor of the stream is the one that the later child puts its own end on, and every
process that a command has left running has ended or was started without the stream's pipe. -/
def LaterEnded (s : State) : Label → Prop
  | .fclose fd _ => ∀ n c, s.streams fd = some n → s.children[n]? = some c → c.modes = .w →
      (∀ m d, n < m → s.children[m]? = some d → d.Live → fd = d.modes.std) ∧ s.NotLeft c.pipe
  | _ => True

/-- Nobody holds the write end of a pipe, except children that are about to close it. -/
def State.Unheld (s : State) (p : ℕ) : Prop :=
  (∀ fd, s.fds fd ≠ some (.writeEnd p)) ∧
    (∀ d ∈ s.children, ∀ fd, d.fds fd = some (.writeEnd p) → d.Closing fd) ∧ s.NotLeft p

/-- The streams of mode `w` that `mypclose` has closed are not kept open. -/
def State.ClosedUnheld (s : State) : Prop :=
  ∀ n ∈ s.closed, ∀ c, s.children[n]? = some c → c.modes = .w → s.Unheld c.pipe

/-- The `waitpid` of `mypclose` does not wait for a child other than the one of the stream: its own
child has ended or can go on, except while a child that is about to close the stream holds it. -/
def State.NotBlocked (s : State) : Prop :=
  ∀ fd n c, s.pc = .waitpid fd n → s.children[n]? = some c → c.modes = .w → c.Live →
    (childStep s c).isSome ∨
      ∃ d ∈ s.children, (childStep s d).isSome ∧
        ∃ fd, d.fds fd = some (.writeEnd c.pipe) ∧ d.Closing fd

/-- What a child has inherited: its pipe is the newest one, with both ends in one place. -/
structure Child.Inherits (c : Child) : Prop where
  ne : c.pfd₀ ≠ c.pfd₁
  read : c.inherited c.pfd₀ = some (.readEnd c.pipe)
  write : c.inherited c.pfd₁ = some (.writeEnd c.pipe)
  le : ∀ fd p, c.inherited fd = some (.writeEnd p) → p ≤ c.pipe
  own : ∀ fd, c.inherited fd = some (.writeEnd c.pipe) → fd = c.pfd₁

/-- Where the write ends are. -/
structure Pipes (s : State) : Prop where
  inherits : ∀ (n : ℕ) (c : Child), s.children[n]? = some c → c.Inherits ∧ c.pipe < s.pipes
  sorted : ∀ (m n : ℕ) (c d : Child), s.children[m]? = some c → s.children[n]? = some d → m < n →
    c.pipe < d.pipe
  parent_lt : ∀ fd p, s.fds fd = some (.writeEnd p) → p < s.pipes
  parent_inj : ∀ fd fd' p, s.fds fd = some (.writeEnd p) → s.fds fd' = some (.writeEnd p) →
    fd = fd'
  stream : ∀ fd n c, s.streams fd = some n → s.children[n]? = some c → c.modes = .w →
    s.fds fd = some (.writeEnd c.pipe)
  closed : ∀ n ∈ s.closed, ∃ c, s.children[n]? = some c ∧
    (c.modes = .w → ∀ fd, s.fds fd ≠ some (.writeEnd c.pipe))
  waiting : ∀ fd n, s.pc = .waitpid fd n → n ∈ s.closed
  later : ∀ fd n c m d, s.streams fd = some n → s.children[n]? = some c → c.modes = .w → n < m →
    s.children[m]? = some d → d.inherited fd = some (.writeEnd c.pipe) ∧
      ∀ fd', d.inherited fd' = some (.writeEnd c.pipe) → fd' = fd

variable {s s' : State} {n : ℕ} {c c' : Child} {fd : Fd} {p : ℕ}

/-! ## The descriptors of a child -/

/-- The ends of the child's own pipe. -/
theorem Child.Inherits.ends (hc : c.Inherits) :
    c.kept ≠ c.given ∧
      (c.modes = .r → c.inherited c.given = some (.writeEnd c.pipe)) ∧
      (c.modes = .w → c.inherited c.given = some (.readEnd c.pipe) ∧
        c.inherited c.kept = some (.writeEnd c.pipe)) ∧
      ∀ p, p ≠ c.pipe → c.inherited c.kept ≠ some (.writeEnd p) ∧
        c.inherited c.given ≠ some (.writeEnd p) := by
  unfold Child.kept Child.given
  cases hmodes : c.modes with
  | r =>
    refine ⟨hc.ne, fun _ => hc.write, nofun, fun p hp => ⟨?_, ?_⟩⟩
    · change c.inherited c.pfd₀ ≠ _
      rw [hc.read]
      nofun
    · change c.inherited c.pfd₁ ≠ _
      rw [hc.write]
      simpa using hp.symm
  | w =>
    refine ⟨hc.ne.symm, nofun, fun _ => ⟨hc.read, hc.write⟩, fun p hp => ⟨?_, ?_⟩⟩
    · change c.inherited c.pfd₁ ≠ _
      rw [hc.write]
      simpa using hp.symm
    · change c.inherited c.pfd₀ ≠ _
      rw [hc.read]
      nofun

/-- A child that has not ended holds the write end of another pipe where it has inherited it, unless
it has put its own end over it. -/
theorem Child.Inherits.fds_other (hc : c.Inherits) (hp : p ≠ c.pipe) :
    c.fds fd = some (.writeEnd p) ↔
      c.inherited fd = some (.writeEnd p) ∧ c.Live ∧ ¬ c.Overlays fd := by
  obtain ⟨hends, -, -, hother⟩ := hc.ends
  obtain ⟨hkept, hgiven⟩ := hother p hp
  have hclose : c.inherited.close c.kept fd = some (.writeEnd p) ↔
      c.inherited fd = some (.writeEnd p) := by
    by_cases hfd : fd = c.kept
    · rw [hfd, close_self]
      simpa using hkept
    · rw [close_of_ne _ hfd]
  have hdup : (c.inherited.close c.kept).dup2 c.given c.modes.std fd = some (.writeEnd p) ↔
      c.inherited fd = some (.writeEnd p) ∧ fd ≠ c.modes.std := by
    unfold FdTable.dup2
    by_cases hfd : fd = c.modes.std
    · rw [hfd, Function.update_self, close_of_ne _ hends.symm]
      simpa using hgiven
    · rw [Function.update_of_ne hfd, hclose]
      simp [hfd]
  unfold Child.fds Child.Live Child.Overlays
  cases hphase : c.phase
  case close => simp
  case dup2 => simp [hclose]
  case closeGiven =>
    rw [hdup]
    simp
  case system =>
    by_cases hstd : c.given = c.modes.std
    · rw [if_pos hstd, hclose]
      simp only [ne_eq, reduceCtorEq, not_false_eq_true, or_true, and_true, true_and]
      refine ⟨fun h => ⟨h, ?_⟩, fun h => h.1⟩
      rintro rfl
      exact hgiven (hstd ▸ h)
    · rw [if_neg hstd]
      dsimp only
      by_cases hfd : fd = c.given
      · rw [hfd, close_self]
        simpa using fun h => absurd h hgiven
      · rw [close_of_ne _ hfd, hdup]
        simp
  case zombie | reaped => simp

/-- The child of a stream of mode `w` holds the write end of its own pipe only before it closes
it. -/
theorem Child.Inherits.fds_own (hc : c.Inherits) (hmodes : c.modes = .w)
    (h : c.fds fd = some (.writeEnd c.pipe)) : c.phase = .close := by
  obtain ⟨hends, -, hw, -⟩ := hc.ends
  obtain ⟨hgiven, -⟩ := hw hmodes
  have hkept : c.kept = c.pfd₁ := by rw [Child.kept, hmodes]; rfl
  have hclose : c.inherited.close c.kept fd ≠ some (.writeEnd c.pipe) := by
    by_cases hfd : fd = c.kept
    · rw [hfd, close_self]
      nofun
    · rw [close_of_ne _ hfd]
      exact fun h => hfd (hkept ▸ hc.own fd h)
  have hdup : (c.inherited.close c.kept).dup2 c.given c.modes.std fd ≠
      some (.writeEnd c.pipe) := by
    unfold FdTable.dup2
    by_cases hfd : fd = c.modes.std
    · rw [hfd, Function.update_self, close_of_ne _ hends.symm, hgiven]
      nofun
    · rw [Function.update_of_ne hfd]
      exact hclose
  unfold Child.fds at h
  cases hphase : c.phase <;> rw [hphase] at h
  case dup2 => exact absurd h hclose
  case closeGiven => exact absurd h hdup
  case system =>
    dsimp only at h
    split_ifs at h
    · exact absurd h hclose
    · by_cases hfd : fd = c.given
      · rw [hfd, close_self] at h
        cases h
      · rw [close_of_ne _ hfd] at h
        exact absurd h hdup
  case zombie | reaped => cases h

/-- The command of a stream of mode `w` reads from its pipe. -/
theorem Child.Inherits.fds_stdin (hc : c.Inherits) (hmodes : c.modes = .w)
    (hphase : c.phase = .system) : c.fds STDIN_FILENO = some (.readEnd c.pipe) := by
  obtain ⟨hends, -, hw, -⟩ := hc.ends
  obtain ⟨hgiven, -⟩ := hw hmodes
  have hstd : c.modes.std = STDIN_FILENO := by rw [hmodes]; rfl
  unfold Child.fds
  rw [hphase]
  dsimp only
  split_ifs with h
  · rw [← hstd, ← h, close_of_ne _ hends.symm, hgiven]
  · rw [close_of_ne _ (hstd ▸ Ne.symm h), FdTable.dup2, hstd, Function.update_self,
      close_of_ne _ hends.symm, hgiven]

theorem Child.Inherits.closing (hc : c.Inherits) (hmodes : c.modes = .w)
    (h : c.fds fd = some (.writeEnd c.pipe)) : c.Closing fd := by
  have hphase := hc.fds_own hmodes h
  refine .inl ⟨hphase, ?_⟩
  unfold Child.fds at h
  rw [hphase] at h
  rw [hc.own fd h, Child.kept, hmodes]
  rfl

theorem Child.Inherits.set_phase (hc : c.Inherits) (phase : Phase) :
    ({ c with phase := phase } : Child).Inherits :=
  ⟨hc.ne, hc.read, hc.write, hc.le, hc.own⟩

/-- A child that holds the write end of another pipe is about to close it if it is at the descriptor
that the child puts its own end on. -/
theorem Child.Inherits.closing_iff (hc : c.Inherits) (hp : p ≠ c.pipe)
    (h : c.fds fd = some (.writeEnd p)) : c.Closing fd ↔ fd = c.modes.std := by
  obtain ⟨hinherited, hlive, hoverlays⟩ := (hc.fds_other hp).1 h
  obtain ⟨-, -, -, hother⟩ := hc.ends
  obtain ⟨hkept, -⟩ := hother p hp
  constructor
  · rintro (⟨-, rfl⟩ | ⟨-, hstd⟩)
    · exact absurd hinherited hkept
    · exact hstd
  · intro hstd
    refine .inr ⟨?_, hstd⟩
    cases hphase : c.phase
    case close => exact .inl rfl
    case dup2 => exact .inr rfl
    case closeGiven => exact absurd ⟨hstd, .inl hphase⟩ hoverlays
    case system => exact absurd ⟨hstd, .inr hphase⟩ hoverlays
    case zombie => exact absurd hphase hlive.1
    case reaped => exact absurd hphase hlive.2

/-- A child that has put its end over a descriptor keeps it there until it ends. -/
theorem childStep_overlays (h : childStep s c = some c') (hover : c.Overlays fd)
    (hlive : c'.Live) : c'.Overlays fd := by
  obtain ⟨hstd, hphase⟩ := hover
  unfold childStep at h
  obtain hphase | hphase := hphase
  · rw [hphase] at h
    obtain rfl := Option.some.inj h
    exact ⟨hstd, .inr rfl⟩
  · rw [hphase] at h
    simp only [Option.ite_none_right_eq_some, Option.some.injEq] at h
    obtain ⟨-, rfl⟩ := h
    exact absurd rfl hlive.1

/-- A child that is about to close a descriptor can go on. -/
theorem Child.Closing.childStep_isSome (h : c.Closing fd) (s : State) :
    (childStep s c).isSome := by
  unfold childStep
  obtain ⟨hphase, -⟩ | ⟨hphase | hphase, -⟩ := h <;> rw [hphase] <;> rfl

/-! ## Where the write ends are -/

theorem pipes_init (fds : Fd → Bool) : Pipes (init fds) := by
  have hinit : ∀ fd p, (init fds).fds fd ≠ some (.writeEnd p) := by
    intro fd p
    unfold init
    dsimp only
    split <;> nofun
  have hstreams : ∀ fd n, (init fds).streams fd ≠ some n := by simp [init]
  refine ⟨?_, ?_, fun fd p h => absurd h (hinit fd p), fun fd _ p h => absurd h (hinit fd p),
    fun fd n _ h => absurd h (hstreams fd n), ?_, ?_, fun fd n _ _ _ h => absurd h (hstreams fd n)⟩
  · simp [init]
  · simp [init]
  · simp [init]
  · simp [init]

/-- Where a process has write ends after a `pipe`. -/
theorem pipe_writeEnd {fds : Fds} {pfd₀ pfd₁ : Fd} (hne : pfd₀ ≠ pfd₁) :
    fds.pipe pfd₀ pfd₁ n fd = some (.writeEnd p) ↔
      (fd = pfd₁ ∧ p = n) ∨ (fd ≠ pfd₀ ∧ fd ≠ pfd₁ ∧ fds fd = some (.writeEnd p)) := by
  unfold FdTable.pipe
  by_cases h₁ : fd = pfd₁
  · rw [h₁, Function.update_self]
    simp [eq_comm]
  · rw [Function.update_of_ne h₁]
    by_cases h₀ : fd = pfd₀
    · rw [h₀, Function.update_self]
      simp [hne]
    · rw [Function.update_of_ne h₀]
      simp [h₀, h₁]

/-- Each child has a pipe of its own. -/
theorem Pipes.eq_of_pipe (hs : Pipes s) {m : ℕ} {d : Child} (hd : s.children[m]? = some d)
    (hc : s.children[n]? = some c) (h : d.pipe = c.pipe) : m = n := by
  obtain hlt | heq | hlt := Nat.lt_trichotomy m n
  · exact absurd h (hs.sorted m n d c hd hc hlt).ne
  · exact heq
  · exact absurd h (hs.sorted n m c d hc hd hlt).ne'

theorem writeEnd_of_close {fds : Fds} {fd' : Fd} (h : fds.close fd' fd = some (.writeEnd p)) :
    fd ≠ fd' ∧ fds fd = some (.writeEnd p) := by
  have hne : fd ≠ fd' := by
    rintro rfl
    rw [close_self] at h
    cases h
  rw [close_of_ne _ hne] at h
  exact ⟨hne, h⟩

/-- A child behind a change of a phase is an old one in another phase. -/
theorem getElem?_set_phase (hc : s.children[n]? = some c) {phase : Phase} {m : ℕ} {d' : Child}
    (h : (s.children.set n { c with phase := phase })[m]? = some d') :
    ∃ d, s.children[m]? = some d ∧ d' = { d with phase := d'.phase } := by
  have hlt : n < s.children.length := (List.getElem?_eq_some_iff.1 hc).1
  by_cases hm : m = n
  · subst hm
    rw [List.getElem?_set_self hlt] at h
    obtain rfl := Option.some.inj h
    exact ⟨c, hc, rfl⟩
  · rw [List.getElem?_set_ne (Ne.symm hm)] at h
    exact ⟨d', h, rfl⟩

theorem exists_getElem?_set_phase (hc : s.children[n]? = some c) (phase : Phase) {m : ℕ}
    {d : Child} (hd : s.children[m]? = some d) :
    ∃ phase', (s.children.set n { c with phase := phase })[m]? =
      some { d with phase := phase' } := by
  have hlt : n < s.children.length := (List.getElem?_eq_some_iff.1 hc).1
  by_cases hm : m = n
  · subst hm
    obtain rfl := Option.some.inj (hc.symm.trans hd)
    exact ⟨phase, List.getElem?_set_self hlt⟩
  · exact ⟨d.phase, (List.getElem?_set_ne (Ne.symm hm)).trans hd⟩

/-- The phases of the children do not matter for where the write ends are. -/
theorem Pipes.set_phase (hs : Pipes s) (hc : s.children[n]? = some c) (phase : Phase) :
    Pipes { s with children := s.children.set n { c with phase := phase } } := by
  refine ⟨?_, ?_, hs.parent_lt, hs.parent_inj, ?_, ?_, hs.waiting, ?_⟩
  · intro m d' hd'
    obtain ⟨d, hd, heq⟩ := getElem?_set_phase hc hd'
    rw [heq]
    exact ⟨(hs.inherits m d hd).1.set_phase _, (hs.inherits m d hd).2⟩
  · intro m k d' e' hd' he' hlt
    obtain ⟨d, hd, heqd⟩ := getElem?_set_phase hc hd'
    obtain ⟨e, he, heqe⟩ := getElem?_set_phase hc he'
    rw [heqd, heqe]
    exact hs.sorted m k d e hd he hlt
  · intro fd m d' hfd hd' hmodes
    obtain ⟨d, hd, heq⟩ := getElem?_set_phase hc hd'
    rw [heq] at hmodes ⊢
    exact hs.stream fd m d hfd hd hmodes
  · intro m hm
    obtain ⟨d, hd, hclosed⟩ := hs.closed m hm
    obtain ⟨phase', hd'⟩ := exists_getElem?_set_phase hc phase hd
    exact ⟨_, hd', hclosed⟩
  · intro fd m d' k e' hfd hd' hmodes hlt he'
    obtain ⟨d, hd, heqd⟩ := getElem?_set_phase hc hd'
    obtain ⟨e, he, heqe⟩ := getElem?_set_phase hc he'
    rw [heqd] at hmodes ⊢
    rw [heqe]
    exact hs.later fd m d k e hfd hd hmodes hlt he

/-- The write end of a new pipe is the only one that a `pipe` adds. -/
theorem Pipes.pipe_inj (hs : Pipes s) {pfd₀ pfd₁ fd' : Fd} (hne : pfd₀ ≠ pfd₁)
    (h : s.fds.pipe pfd₀ pfd₁ s.pipes fd = some (.writeEnd p))
    (h' : s.fds.pipe pfd₀ pfd₁ s.pipes fd' = some (.writeEnd p)) : fd = fd' := by
  obtain ⟨rfl, rfl⟩ | ⟨-, -, h⟩ := (pipe_writeEnd hne).1 h
  · obtain ⟨rfl, -⟩ | ⟨-, -, h'⟩ := (pipe_writeEnd hne).1 h'
    · rfl
    · exact absurd (hs.parent_lt _ _ h') (Nat.lt_irrefl _)
  · obtain ⟨-, rfl⟩ | ⟨-, -, h'⟩ := (pipe_writeEnd hne).1 h'
    · exact absurd (hs.parent_lt _ _ h) (Nat.lt_irrefl _)
    · exact hs.parent_inj fd fd' p h h'

theorem Pipes.pipe_lt (hs : Pipes s) {pfd₀ pfd₁ : Fd} (hne : pfd₀ ≠ pfd₁)
    (h : s.fds.pipe pfd₀ pfd₁ s.pipes fd = some (.writeEnd p)) : p < s.pipes + 1 := by
  obtain ⟨-, rfl⟩ | ⟨-, -, h⟩ := (pipe_writeEnd hne).1 h
  · exact Nat.lt_succ_self _
  · exact Nat.lt_succ_of_lt (hs.parent_lt fd p h)

/-- A `pipe` does not open an old pipe again. -/
theorem pipe_unheld {pfd₀ pfd₁ : Fd} (hne : pfd₀ ≠ pfd₁) (hp : p < s.pipes)
    (h : ∀ fd, s.fds fd ≠ some (.writeEnd p)) (fd : Fd) :
    s.fds.pipe pfd₀ pfd₁ s.pipes fd ≠ some (.writeEnd p) := by
  intro heq
  obtain ⟨-, rfl⟩ | ⟨-, -, heq⟩ := (pipe_writeEnd hne).1 heq
  · exact absurd hp (Nat.lt_irrefl _)
  · exact h fd heq

theorem Pipes.forkFails (hs : Pipes s) {pfd₀ pfd₁ : Fd} (hfree : s.Free pfd₀ pfd₁) :
    Pipes { s with fds := s.fds.pipe pfd₀ pfd₁ s.pipes, pipes := s.pipes + 1 } := by
  obtain ⟨hne, h₀, h₁⟩ := hfree
  refine ⟨?_, hs.sorted, ?_, ?_, ?_, ?_, hs.waiting, hs.later⟩
  · intro n c hc
    exact ⟨(hs.inherits n c hc).1, Nat.lt_succ_of_lt (hs.inherits n c hc).2⟩
  · intro fd p h
    exact hs.pipe_lt hne h
  · intro fd fd' p h h'
    exact hs.pipe_inj hne h h'
  · intro fd n c hfd hc hmodes
    have hopen := hs.stream fd n c hfd hc hmodes
    change s.fds.pipe pfd₀ pfd₁ s.pipes fd = _
    rw [pipe_of_ne_none h₀ h₁ (by rw [hopen]; nofun)]
    exact hopen
  · intro n hn
    obtain ⟨c, hc, hclosed⟩ := hs.closed n hn
    exact ⟨c, hc, fun hmodes => pipe_unheld hne (hs.inherits n c hc).2 (hclosed hmodes)⟩

/-- What a child of a new pipe inherits. -/
theorem Pipes.inherits_pipe (hs : Pipes s) {modes : Modes} {pfd₀ pfd₁ : Fd} {pid : ℕ}
    {readsToEof : Bool} (hne : pfd₀ ≠ pfd₁) :
    Child.Inherits
      { pid, modes, pfd₀, pfd₁, pipe := s.pipes, readsToEof,
        inherited := s.fds.pipe pfd₀ pfd₁ s.pipes, phase := .close } where
  ne := hne
  read := by
    change Function.update (Function.update s.fds pfd₀ _) pfd₁ _ pfd₀ = _
    rw [Function.update_of_ne hne, Function.update_self]
  write := Function.update_self ..
  le fd p h := Nat.le_of_lt_succ (hs.pipe_lt hne h)
  own fd h := by
    obtain ⟨h, -⟩ | ⟨-, -, h⟩ := (pipe_writeEnd hne).1 h
    · exact h
    · exact absurd (hs.parent_lt _ _ h) (Nat.lt_irrefl _)

theorem Pipes.forks (hs : Pipes s) (ht : Table s) {modes : Modes} {pfd₀ pfd₁ : Fd} {pid : ℕ}
    (hfree : s.Free pfd₀ pfd₁) {readsToEof fdopens : Bool} :
    Pipes { s with
      fds := (s.fds.pipe pfd₀ pfd₁ s.pipes).close (modes.given pfd₀ pfd₁)
      fd_to_pid := Function.update s.fd_to_pid (modes.kept pfd₀ pfd₁) pid
      streams := if fdopens then
          Function.update s.streams (modes.kept pfd₀ pfd₁) (some s.children.length)
        else s.streams
      children := s.children ++
        [{ pid, modes, pfd₀, pfd₁, pipe := s.pipes, readsToEof,
           inherited := s.fds.pipe pfd₀ pfd₁ s.pipes, phase := .close }]
      pipes := s.pipes + 1 } := by
  set c : Child :=
    { pid, modes, pfd₀, pfd₁, pipe := s.pipes, readsToEof,
      inherited := s.fds.pipe pfd₀ pfd₁ s.pipes, phase := .close } with hcdef
  obtain ⟨hends, hkept, hgiven⟩ := hfree.ends modes
  obtain ⟨hne, h₀, h₁⟩ := hfree
  have hlt : ∀ {m : ℕ} {d : Child}, s.children[m]? = some d → m < s.children.length :=
    fun hd => (List.getElem?_eq_some_iff.1 hd).1
  have hopen : ∀ fd m d, s.streams fd = some m → s.children[m]? = some d → d.modes = .w →
      s.fds.pipe pfd₀ pfd₁ s.pipes fd = some (.writeEnd d.pipe) ∧ fd ≠ modes.given pfd₀ pfd₁ := by
    intro fd m d hfd hd hmodes
    have hopen := hs.stream fd m d hfd hd hmodes
    constructor
    · rw [pipe_of_ne_none h₀ h₁ (by rw [hopen]; nofun)]
      exact hopen
    · rintro rfl
      rw [hgiven] at hopen
      cases hopen
  -- An open stream has its child already.
  have hstream : ∀ {fd m}, s.streams fd = some m → m < s.children.length := by
    intro fd m hfd
    obtain ⟨⟨d, hd, -⟩, -⟩ := ht.stream fd m hfd
    exact hlt hd.1
  refine ⟨?_, ?_, ?_, ?_, ?_, ?_, hs.waiting, ?_⟩
  · intro m d hd
    obtain hd | ⟨-, rfl⟩ := getElem?_concat_eq_some.1 hd
    · exact ⟨(hs.inherits m d hd).1, Nat.lt_succ_of_lt (hs.inherits m d hd).2⟩
    · exact ⟨hs.inherits_pipe hne, Nat.lt_succ_self _⟩
  · intro m k d e hd he hmk
    obtain he | ⟨rfl, rfl⟩ := getElem?_concat_eq_some.1 he
    · obtain hd | ⟨rfl, -⟩ := getElem?_concat_eq_some.1 hd
      · exact hs.sorted m k d e hd he hmk
      · exact absurd (hlt he) (Nat.lt_asymm hmk)
    · obtain hd | ⟨rfl, -⟩ := getElem?_concat_eq_some.1 hd
      · exact (hs.inherits m d hd).2
      · exact absurd hmk (Nat.lt_irrefl _)
  · intro fd p h
    exact hs.pipe_lt hne (writeEnd_of_close h).2
  · intro fd fd' p h h'
    exact hs.pipe_inj hne (writeEnd_of_close h).2 (writeEnd_of_close h').2
  · intro fd m d hfd hd hmodes
    obtain hfd | ⟨rfl, rfl⟩ := streams_of_forks hfd
    · obtain hd | ⟨rfl, -⟩ := getElem?_concat_eq_some.1 hd
      · obtain ⟨hopen, hnegiven⟩ := hopen fd m d hfd hd hmodes
        exact (close_of_ne _ hnegiven).trans hopen
      · exact absurd (hstream hfd) (Nat.lt_irrefl _)
    · obtain hd | ⟨-, rfl⟩ := getElem?_concat_eq_some.1 hd
      · exact absurd (hlt hd) (Nat.lt_irrefl _)
      · obtain rfl : modes = .w := hmodes
        exact (close_of_ne _ hends).trans (Function.update_self ..)
  · intro m hm
    obtain ⟨d, hd, hclosed⟩ := hs.closed m hm
    refine ⟨d, (List.getElem?_append_left (hlt hd)).trans hd, fun hmodes fd h => ?_⟩
    exact pipe_unheld hne (hs.inherits m d hd).2 (hclosed hmodes) fd (writeEnd_of_close h).2
  · intro fd m d k e hfd hd hmodes hmk he
    obtain hfd | ⟨-, rfl⟩ := streams_of_forks hfd
    · obtain hd | ⟨rfl, -⟩ := getElem?_concat_eq_some.1 hd
      · obtain he | ⟨-, rfl⟩ := getElem?_concat_eq_some.1 he
        · exact hs.later fd m d k e hfd hd hmodes hmk he
        · obtain ⟨hopen, -⟩ := hopen fd m d hfd hd hmodes
          exact ⟨hopen, fun fd' h => hs.pipe_inj hne h hopen⟩
      · exact absurd (hstream hfd) (Nat.lt_irrefl _)
    · obtain he | ⟨rfl, -⟩ := getElem?_concat_eq_some.1 he
      · exact absurd (hlt he) (Nat.lt_asymm hmk)
      · exact absurd hmk (Nat.lt_irrefl _)

theorem Pipes.fclose (hs : Pipes s) (ht : Table s) (hfd : s.streams fd = some n) (pc : Pc)
    (hpc : ∀ fd' m, pc = .waitpid fd' m → m = n) :
    Pipes { s with
      fds := s.fds.close fd
      streams := Function.update s.streams fd none
      pc := pc
      closed := s.closed ++ [n] } := by
  refine ⟨hs.inherits, hs.sorted, ?_, ?_, ?_, ?_, ?_, ?_⟩
  · intro fd' p h
    exact hs.parent_lt fd' p (writeEnd_of_close h).2
  · intro fd₁ fd₂ p h₁ h₂
    exact hs.parent_inj fd₁ fd₂ p (writeEnd_of_close h₁).2 (writeEnd_of_close h₂).2
  · intro fd' m d h hd hmodes
    obtain ⟨hne, h⟩ := streams_of_fclose h
    exact (close_of_ne _ hne).trans (hs.stream fd' m d h hd hmodes)
  · intro m hm
    rw [List.mem_append, List.mem_singleton] at hm
    obtain hm | rfl := hm
    · obtain ⟨d, hd, hclosed⟩ := hs.closed m hm
      exact ⟨d, hd, fun hmodes fd' h => hclosed hmodes fd' (writeEnd_of_close h).2⟩
    · obtain ⟨⟨d, hd, -⟩, -⟩ := ht.stream fd m hfd
      refine ⟨d, hd.1, fun hmodes fd' h => ?_⟩
      obtain ⟨hne, h⟩ := writeEnd_of_close h
      exact hne (hs.parent_inj fd' fd _ h (hs.stream fd m d hfd hd.1 hmodes))
  · intro fd' m h
    rw [hpc fd' m h]
    exact List.mem_append_right _ (List.mem_singleton_self _)
  · intro fd' m d k e h hd hmodes hmk he
    exact hs.later fd' m d k e (streams_of_fclose h).2 hd hmodes hmk he

theorem Pipes.step (hs : Pipes s) (ht : Table s) {l : Label} (h : step s l = some s') :
    Pipes s' := by
  cases happens_of_step h with
  | pipeFails => exact hs
  | forkFails hpc hfree => exact hs.forkFails hfree
  | forks hpc hfree hpid => exact hs.forks ht hfree
  | @fclose fd own succeeds hpc hown =>
    refine hs.fclose ht hown _ fun fd' m hpc => ?_
    cases succeeds <;> cases hpc
    rfl
  | waitpid hpc hc => exact { hs.set_phase hc .reaped with waiting := nofun }
  | waitpidFails => exact { hs with waiting := nofun }
  | @child n c c' hc hstep =>
    obtain ⟨-, -, -, heq⟩ := childStep_eq_some hstep
    rw [heq]
    exact hs.set_phase hc c'.phase
  | leaves | spawns | leftEnds => exact { hs with }

theorem pipes_reachable {fds : Fd → Bool} (h : (machine fds).Reachable s) : Pipes s :=
  h.invariant_of (fun _ => table_reachable) (pipes_init fds)
    fun _ _ _ hs ht _ hst => hs.step ht hst

/-! ## Closed streams -/

theorem State.Unheld.child (hu : s.Unheld p) (hinherits : c.Inherits)
    (hc : s.children[n]? = some c) (hstep : childStep s c = some c')
    (hown : p = c.pipe → c.modes = .w) :
    State.Unheld { s with children := s.children.set n c' } p := by
  refine ⟨hu.1, fun d hd fd h => ?_, hu.2.2⟩
  obtain hd | rfl := List.mem_or_eq_of_mem_set hd
  · exact hu.2.1 d hd fd h
  obtain ⟨hzombie, hreaped, -, heq⟩ := childStep_eq_some hstep
  have hinherits' : d.Inherits := by
    rw [heq]
    exact hinherits.set_phase d.phase
  have hpipe : d.pipe = c.pipe := by rw [heq]
  have hmodes : d.modes = c.modes := by rw [heq]
  by_cases hp : p = c.pipe
  · exact hinherits'.closing (hmodes.trans (hown hp)) (by rw [h, hp, hpipe])
  · have hp' : p ≠ d.pipe := hpipe ▸ hp
    obtain ⟨hinherited, hlive, hoverlays⟩ := (hinherits'.fds_other hp').1 h
    rw [heq] at hinherited
    -- The child held it before the step already, so it was about to close it.
    have hbefore : c.fds fd = some (.writeEnd p) :=
      (hinherits.fds_other hp).2 ⟨hinherited, ⟨hzombie, hreaped⟩,
        fun hover => hoverlays (childStep_overlays hstep hover hlive)⟩
    have hstd := (hinherits.closing_iff hp hbefore).1
      (hu.2.1 c (List.mem_of_getElem? hc) fd hbefore)
    exact (hinherits'.closing_iff hp' h).2 (hmodes ▸ hstd)

theorem State.Unheld.waitpid (hu : s.Unheld p) (pc : Pc) (waited : List (ℕ × ℕ)) :
    State.Unheld { s with
      pc := pc, children := s.children.set n { c with phase := .reaped }, waited := waited } p := by
  refine ⟨hu.1, fun d hd fd h => ?_, hu.2.2⟩
  obtain hd | rfl := List.mem_or_eq_of_mem_set hd
  · exact hu.2.1 d hd fd h
  · cases h

/-- A process that has all its descriptors from one that does not hold a pipe does not hold it. -/
theorem copy_unheld {fds : Fds} (h : ∀ fd, fds fd ≠ some (.writeEnd p)) (dups : Dups) (fd : Fd) :
    fds.copy dups fd ≠ some (.writeEnd p) := by
  intro hcopy
  obtain ⟨fd', -, heq⟩ := Option.bind_eq_some_iff.1 hcopy
  exact h fd' heq

/-- A child that runs its command holds no pipe that is not kept open. -/
theorem State.Unheld.fds_ne (hu : s.Unheld p) (hc : s.children[n]? = some c)
    (hphase : c.phase = .system) (fd : Fd) : c.fds fd ≠ some (.writeEnd p) := by
  intro h
  obtain ⟨hclosing, -⟩ | ⟨hclosing | hclosing, -⟩ := hu.2.1 c (List.mem_of_getElem? hc) fd h <;>
    rw [hphase] at hclosing <;> cases hclosing

/-- One more process, with descriptors that are copies of those of one without the pipe. -/
theorem State.Unheld.copy (hu : s.Unheld p) {fds : Fds}
    (h : ∀ fd, fds fd ≠ some (.writeEnd p)) (dups : Dups) :
    State.Unheld { s with left := s.left ++ [fds.copy dups] } p := by
  refine ⟨hu.1, hu.2.1, fun fds' hfds' => ?_⟩
  rw [List.mem_append, List.mem_singleton] at hfds'
  obtain hfds' | rfl := hfds'
  · exact hu.2.2 fds' hfds'
  · exact copy_unheld h dups

theorem State.Unheld.leftEnds (hu : s.Unheld p) (i : ℕ) :
    State.Unheld { s with left := s.left.eraseIdx i } p :=
  ⟨hu.1, hu.2.1, fun fds hfds => hu.2.2 fds (List.mem_of_mem_eraseIdx hfds)⟩

/-- The child of a new pipe inherits no stream that its parent does not hold. -/
theorem State.Unheld.forks (hu : s.Unheld p) (hp : p < s.pipes) {modes : Modes} {pfd₀ pfd₁ : Fd}
    (hne : pfd₀ ≠ pfd₁) {pid : ℕ} {readsToEof : Bool} {fd_to_pid : Fd → ℕ}
    {streams : Fd → Option ℕ} :
    State.Unheld { s with
      fds := (s.fds.pipe pfd₀ pfd₁ s.pipes).close (modes.given pfd₀ pfd₁)
      fd_to_pid := fd_to_pid
      streams := streams
      children := s.children ++
        [{ pid, modes, pfd₀, pfd₁, pipe := s.pipes, readsToEof,
           inherited := s.fds.pipe pfd₀ pfd₁ s.pipes, phase := .close }]
      pipes := s.pipes + 1 } p := by
  have hpipe := pipe_unheld (s := s) hne hp hu.1
  refine ⟨fun fd h => hpipe fd (writeEnd_of_close h).2, fun d hd fd h => ?_, hu.2.2⟩
  rw [List.mem_append, List.mem_singleton] at hd
  obtain hd | rfl := hd
  · exact hu.2.1 d hd fd h
  · exact absurd h (hpipe fd)

/-- A stream is not kept open behind its `fclose` if and only if the later children have ended or
put their own ends over its descriptor. -/
theorem unheld_fclose_iff (hs : Pipes s) (hfd : s.streams fd = some n)
    (hc : s.children[n]? = some c) (hmodes : c.modes = .w) :
    (∀ d ∈ s.children, ∀ fd', d.fds fd' = some (.writeEnd c.pipe) → d.Closing fd') ↔
      ∀ m d, n < m → s.children[m]? = some d → d.Live → fd = d.modes.std := by
  constructor
  · intro h m d hlt hd hlive
    have hinherits := (hs.inherits m d hd).1
    have hne : c.pipe ≠ d.pipe := (hs.sorted n m c d hc hd hlt).ne
    by_contra hstd
    have hover : ¬ d.Overlays fd := fun hover => hstd hover.1
    have hheld : d.fds fd = some (.writeEnd c.pipe) :=
      (hinherits.fds_other hne).2 ⟨(hs.later fd n c m d hfd hc hmodes hlt hd).1, hlive, hover⟩
    exact hstd ((hinherits.closing_iff hne hheld).1 (h d (List.mem_of_getElem? hd) fd hheld))
  · intro h d hd fd' hheld
    obtain ⟨m, hd⟩ := List.mem_iff_getElem?.1 hd
    have hinherits := (hs.inherits m d hd).1
    obtain hlt | rfl | hlt := Nat.lt_trichotomy m n
    · -- An older child has its pipe from before.
      have hpipe := hs.sorted m n d c hd hc hlt
      have hinherited := ((hinherits.fds_other hpipe.ne').1 hheld).1
      exact absurd (hinherits.le fd' c.pipe hinherited) (Nat.not_le_of_lt hpipe)
    · obtain rfl := Option.some.inj (hc.symm.trans hd)
      exact hinherits.closing hmodes hheld
    · have hne : c.pipe ≠ d.pipe := (hs.sorted n m c d hc hd hlt).ne
      obtain ⟨hinherited, hlive, -⟩ := (hinherits.fds_other hne).1 hheld
      obtain rfl := (hs.later fd n c m d hfd hc hmodes hlt hd).2 fd' hinherited
      exact (hinherits.closing_iff hne hheld).2 (h m d hlt hd hlive)

theorem State.ClosedUnheld.fclose_iff (hu : s.ClosedUnheld) (hs : Pipes s)
    (hown : s.streams fd = some n) {succeeds : Bool} (pc : Pc) :
    State.ClosedUnheld { s with
      fds := s.fds.close fd
      streams := Function.update s.streams fd none
      pc := pc
      closed := s.closed ++ [n] } ↔ LaterEnded s (.fclose fd succeeds) := by
  constructor
  · intro hu' m c hfd hc hmodes
    obtain rfl := Option.some.inj (hown.symm.trans hfd)
    have hunheld := hu' n (List.mem_append_right _ (List.mem_singleton_self _)) c hc hmodes
    exact ⟨(unheld_fclose_iff hs hown hc hmodes).1 hunheld.2.1, hunheld.2.2⟩
  · intro hlater m hm c hc hmodes
    rw [List.mem_append, List.mem_singleton] at hm
    obtain hm | rfl := hm
    · obtain ⟨hparent, hothers⟩ := hu m hm c hc hmodes
      exact ⟨fun fd' h => hparent fd' (writeEnd_of_close h).2, hothers⟩
    · obtain ⟨hended, hleft⟩ := hlater m c hown hc hmodes
      refine ⟨fun fd' h => ?_, (unheld_fclose_iff hs hown hc hmodes).2 hended, hleft⟩
      obtain ⟨hne, h⟩ := writeEnd_of_close h
      exact hne (hs.parent_inj fd' fd _ h (hs.stream fd m c hown hc hmodes))

/-- **Every step** from a state whose closed streams are not kept open leads to such a state if and
only if it meets the condition. -/
theorem closedUnheld_step (hs : Pipes s) (hu : s.ClosedUnheld) {l : Label}
    (h : step s l = some s') : s'.ClosedUnheld ↔ LaterEnded s l := by
  cases happens_of_step h with
  | pipeFails => exact iff_of_true hu trivial
  | forkFails hpc hfree =>
    refine iff_of_true ?_ trivial
    intro n hn c hc hmodes
    obtain ⟨hparent, hothers⟩ := hu n hn c hc hmodes
    exact ⟨pipe_unheld hfree.1 (hs.inherits n c hc).2 hparent, hothers⟩
  | forks hpc hfree hpid =>
    refine iff_of_true ?_ trivial
    intro n hn c hc hmodes
    obtain ⟨d, hd, -⟩ := hs.closed n hn
    have hlt := (List.getElem?_eq_some_iff.1 hd).1
    rw [List.getElem?_append_left hlt] at hc
    exact (hu n hn c hc hmodes).forks (hs.inherits n c hc).2 hfree.1
  | fclose hpc hown => exact hu.fclose_iff hs hown _
  | waitpid hpc hc =>
    refine iff_of_true ?_ trivial
    intro m hm d' hd' hmodes
    obtain ⟨d, hd, heq⟩ := getElem?_set_phase hc hd'
    rw [heq] at hmodes ⊢
    exact (hu m hm d hd hmodes).waitpid _ _
  | waitpidFails => exact iff_of_true hu trivial
  | @child n c c' hc hstep =>
    refine iff_of_true ?_ trivial
    intro m hm d' hd' hmodes
    obtain ⟨-, -, -, heq'⟩ := childStep_eq_some hstep
    obtain ⟨d, hd, heq⟩ : ∃ d, s.children[m]? = some d ∧ d' = { d with phase := d'.phase } := by
      rw [heq'] at hd'
      exact getElem?_set_phase hc hd'
    rw [heq] at hmodes ⊢
    refine (hu m hm d hd hmodes).child (hs.inherits n c hc).1 hc hstep fun hpipe => ?_
    obtain rfl := hs.eq_of_pipe hd hc hpipe
    obtain rfl := Option.some.inj (hc.symm.trans hd)
    exact hmodes
  | leaves hc hphase =>
    refine iff_of_true (fun m hm d hd hmodes => ?_) trivial
    have hunheld := hu m hm d hd hmodes
    exact hunheld.copy (hunheld.fds_ne hc hphase) _
  | spawns hfds =>
    refine iff_of_true (fun m hm d hd hmodes => ?_) trivial
    have hunheld := hu m hm d hd hmodes
    exact hunheld.copy (hunheld.2.2 _ (List.mem_of_getElem? hfds)) _
  | leftEnds => exact iff_of_true (fun m hm d hd hmodes => (hu m hm d hd hmodes).leftEnds _) trivial

/-- Where closed streams are not kept open, `mypclose` is not blocked. -/
theorem notBlocked_of_closedUnheld (hs : Pipes s) (hu : s.ClosedUnheld) : s.NotBlocked := by
  intro fd n c hpc hc hmodes hlive
  obtain ⟨hparent, hchildren, hleft⟩ := hu n (hs.waiting fd n hpc) c hc hmodes
  cases hphase : c.phase
  case close | dup2 | closeGiven =>
    left
    unfold childStep
    rw [hphase]
    rfl
  case system =>
    by_cases hheld : ∃ d ∈ s.children, ∃ fd, d.fds fd = some (.writeEnd c.pipe)
    · obtain ⟨d, hd, fd', hheld⟩ := hheld
      have hclosing := hchildren d hd fd' hheld
      exact .inr ⟨d, hd, hclosing.childStep_isSome s, fd', hheld, hclosing⟩
    · left
      have heof : s.AtEof c := by
        unfold State.AtEof
        rw [(hs.inherits n c hc).1.fds_stdin hmodes hphase]
        rintro (⟨fd', h⟩ | h | ⟨fds, hfds, fd', h⟩)
        · exact hparent fd' h
        · exact hheld h
        · exact hleft fds hfds fd' h
      unfold childStep
      rw [hphase]
      dsimp only
      rw [if_pos fun _ => heof]
      rfl
  case zombie => exact absurd hphase hlive.1
  case reaped => exact absurd hphase hlive.2

/-- **Streams do not keep each other open** in a run in which, whenever a stream of mode `w` is
closed, all children forked after its own child have ended or put their own ends over its
descriptor, and no process that a command has left running has the stream's pipe: no closed stream
is held but by children about to close it, and no `waitpid` is blocked by the child of another
stream. A step that does not meet the condition leaves a closed stream held. -/
theorem closed_streams_unheld {fds : Fd → Bool} (h : (machine fds).ReachableBy LaterEnded s) :
    s.ClosedUnheld ∧ s.NotBlocked ∧
      ∀ l s', step s l = some s' → (s'.ClosedUnheld ↔ LaterEnded s l) := by
  have hreach : ∀ {s}, (machine fds).ReachableBy LaterEnded s → (machine fds).Reachable s :=
    fun h => h.mono fun _ _ _ => trivial
  have hu : s.ClosedUnheld := by
    induction h with
    | init => exact nofun
    | step hs hok hst ih =>
      exact (closedUnheld_step (pipes_reachable (hreach hs)) ih hst).2 hok
  have hs := pipes_reachable (hreach h)
  exact ⟨hu, notBlocked_of_closedUnheld hs hu,
    fun l s' hst => closedUnheld_step hs hu hst⟩

/-- Two streams of mode `w`, both with commands that run; the second one reads to the end of its
input if `readsToEof`. -/
def overlapRun (readsToEof : Bool) : List Label :=
  [.mypopen .w true (.forks 3 4 100 true), .child 0, .child 0, .child 0,
    .mypopen .w readsToEof (.forks 3 5 101 true), .child 1, .child 1, .child 1]

/-- A process that is started with copies of the standard descriptors only. -/
def standardDups : Dups := fun fd => if fd.val < 3 then some fd else none

/-- The second command leaves a process running and ends by itself, before the first stream is
closed. -/
def endedRun : List Label := overlapRun false ++ [.leaves 1 standardDups, .child 1]

theorem copy_standardDups {fds : Fds} (h : ∀ fd : Fd, fd.val < 3 → fds fd ≠ some (.writeEnd p))
    (fd : Fd) : fds.copy standardDups fd ≠ some (.writeEnd p) := by
  intro hcopy
  obtain ⟨fd', hdup, heq⟩ := Option.bind_eq_some_iff.1 hcopy
  simp only [standardDups, Option.ite_none_right_eq_some, Option.some.injEq] at hdup
  obtain ⟨hlt, rfl⟩ := hdup
  exact h fd hlt heq

theorem closed_streams_unheld_overlap :
    ∃ s s', (machine standardFds).run (init standardFds) endedRun = some s ∧
      step s (.fclose 4 true) = some s' ∧ s.left ≠ [] ∧ s'.pc = .waitpid 4 0 ∧
      s'.ClosedUnheld ∧ s'.NotBlocked := by
  obtain ⟨s, s', c, d, hrun, hclose, hpc, hchildren, hstream, hphase, hpipe, ⟨h₀, h₁, h₂⟩,
      hleft⟩ :
      ∃ s s' c d, (machine standardFds).run (init standardFds) endedRun = some s ∧
        step s (.fclose 4 true) = some s' ∧ s'.pc = .waitpid 4 0 ∧ s.children = [c, d] ∧
        s.streams 4 = some 0 ∧ d.phase = .zombie ∧ c.pipe = 0 ∧
        (({ d with phase := .system } : Child).fds 0 = some (.readEnd 1) ∧
          ({ d with phase := .system } : Child).fds 1 = some .other ∧
          ({ d with phase := .system } : Child).fds 2 = some .other) ∧
        s.left = [({ d with phase := .system } : Child).fds.copy standardDups] :=
    ⟨_, _, _, _, rfl, rfl, rfl, rfl, rfl, rfl, rfl, ⟨rfl, rfl, rfl⟩, rfl⟩
  have hfds : ∀ fd : Fd, fd.val < 3 →
      ({ d with phase := .system } : Child).fds fd ≠ some (.writeEnd 0) := by
    intro fd hlt
    obtain h | h | h : fd.val = 0 ∨ fd.val = 1 ∨ fd.val = 2 := by omega
    · rw [Fin.ext (b := 0) h, h₀]
      simp
    · rw [Fin.ext (b := 1) h, h₁]
      simp
    · rw [Fin.ext (b := 2) h, h₂]
      simp
  have hopen : (machine standardFds).ReachableBy LaterEnded s :=
    .run .init endedRun (by simp [endedRun, overlapRun, LaterEnded]) hrun
  have hended : LaterEnded s (.fclose 4 true) := by
    intro n c' hn hc _
    obtain rfl := Option.some.inj (hstream.symm.trans hn)
    rw [hchildren] at hc ⊢
    obtain rfl := Option.some.inj hc
    refine ⟨fun m e hlt he hlive => ?_, ?_⟩
    · have hm := (List.getElem?_eq_some_iff.1 he).1
      obtain rfl : m = 1 := by simp only [List.length_cons, List.length_nil] at hm; omega
      obtain rfl := Option.some.inj he
      exact absurd hphase hlive.1
    · unfold State.NotLeft
      rw [hleft, hpipe]
      rintro fds hmem
      rw [List.mem_singleton.1 hmem]
      exact copy_standardDups hfds
  have hreach : (machine standardFds).ReachableBy LaterEnded s' := hopen.step hended hclose
  exact ⟨s, s', hrun, hclose, by simp [hleft], hpc, (closed_streams_unheld hreach).1,
    (closed_streams_unheld hreach).2.1⟩

/-- A command that reads from a pipe that somebody writes to does not end. -/
theorem childStep_eq_none (hphase : c.phase = .system) (hreads : c.readsToEof = true)
    (hstdin : c.fds STDIN_FILENO = some (.readEnd p)) (hwritten : s.Written p) :
    childStep s c = none := by
  unfold childStep
  rw [hphase]
  dsimp only
  refine if_neg fun heof => ?_
  have heof := heof hreads
  unfold State.AtEof at heof
  rw [hstdin] at heof
  exact heof hwritten

/-- While both commands read to the end of their input, the first stream is closed, and none of the
three processes can go on. -/
theorem later_child_holds_stream :
    ∃ s, (machine standardFds).run (init standardFds)
        (overlapRun true ++ [.fclose 4 true]) = some s ∧
      ¬ s.ClosedUnheld ∧ ¬ s.NotBlocked ∧ s.pc = .waitpid 4 0 ∧
      (∀ n, step s (.child n) = none) ∧ ∀ n, step s (.waitpid n) = none := by
  obtain ⟨s, c, d, hrun, hpc, hclosed, hchildren, hfd, ⟨hmodes, hpipe⟩, ⟨hphase, hreads, hstdin⟩,
      ⟨hphase', hreads', hstdin'⟩, hheld⟩ :
      ∃ s c d, (machine standardFds).run (init standardFds)
          (overlapRun true ++ [.fclose 4 true]) = some s ∧
        s.pc = .waitpid 4 0 ∧ s.closed = [0] ∧ s.children = [c, d] ∧
        s.fds 5 = some (.writeEnd 1) ∧ (c.modes = .w ∧ c.pipe = 0) ∧
        (c.phase = .system ∧ c.readsToEof = true ∧ c.fds STDIN_FILENO = some (.readEnd 0)) ∧
        (d.phase = .system ∧ d.readsToEof = true ∧ d.fds STDIN_FILENO = some (.readEnd 1)) ∧
        d.fds 4 = some (.writeEnd 0) :=
    ⟨_, _, _, rfl, rfl, rfl, rfl, rfl, ⟨rfl, rfl⟩, ⟨rfl, rfl, rfl⟩, ⟨rfl, rfl, rfl⟩, rfl⟩
  have hc : s.children[0]? = some c := by rw [hchildren]; rfl
  have hd : d ∈ s.children := by rw [hchildren]; simp
  -- The second child holds the first pipe, and the parent holds the second one.
  have hnone : ∀ e ∈ s.children, childStep s e = none := by
    rw [hchildren]
    simp only [List.mem_cons, List.not_mem_nil, or_false]
    rintro e (rfl | rfl)
    · exact childStep_eq_none hphase hreads hstdin (.inr (.inl ⟨d, hd, 4, hheld⟩))
    · exact childStep_eq_none hphase' hreads' hstdin' (.inl ⟨5, hfd⟩)
  refine ⟨s, hrun, ?_, ?_, hpc, ?_, ?_⟩
  · intro h
    have hclosing := (h 0 (by simp [hclosed]) c hc hmodes).2.1 d hd 4 (by rw [hheld, hpipe])
    obtain ⟨h, -⟩ | ⟨h | h, -⟩ := hclosing <;> rw [hphase'] at h <;> cases h
  · intro h
    have hlive : c.Live := by
      unfold Child.Live
      rw [hphase]
      exact ⟨nofun, nofun⟩
    obtain h | ⟨e, he, h, -⟩ := h 4 0 c hpc hc hmodes hlive
    · rw [hnone c (List.mem_of_getElem? hc)] at h
      cases h
    · rw [hnone e he] at h
      cases h
  · intro n
    unfold step
    dsimp only
    cases hn : s.children[n]? with
    | none => rfl
    | some e =>
      rw [Option.bind_some, hnone e (List.mem_of_getElem? hn)]
      rfl
  · intro n
    unfold step
    dsimp only
    rw [hpc]
    cases hn : s.children[n]? with
    | none => rfl
    | some e =>
      have he := List.mem_of_getElem? hn
      rw [hchildren] at he
      simp only [List.mem_cons, List.not_mem_nil, or_false] at he
      obtain rfl | rfl := he
      · exact if_neg fun h => by simp [hphase] at h
      · exact if_neg fun h => by simp [hphase'] at h

end TlpiLearn.Popen
