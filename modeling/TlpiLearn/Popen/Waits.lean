import TlpiLearn.Popen.MyPopen
import Mathlib.Tactic

/-!
# Each `mypclose` waits for its own child

The table `fd_to_pid` is never cleared and its indices come back, and `mypclose` looks the pid up
after its descriptor is closed. Still the entry at the descriptor of an open stream, or of a stream
that is being closed, is the pid of the child that was forked for it (`Table`), and as long as
nobody has waited for that child no other child has its pid. So `waitpid` returns the stream's own
child (`waits_for_own_child`), and returns no child twice.
-/

namespace TlpiLearn.Popen

/-- The child number `n` has been forked and nobody has waited for it. -/
def State.Unwaited (s : State) (n : ℕ) (c : Child) : Prop :=
  s.children[n]? = some c ∧ c.phase ≠ .reaped

/-- The entry at `fd` is the pid of the child number `n`, which nobody has waited for. -/
def State.Entry (s : State) (fd : Fd) (n : ℕ) : Prop :=
  ∃ c, s.Unwaited n c ∧ s.fd_to_pid fd = c.pid

/-- The invariant of the table. -/
structure Table (s : State) : Prop where
  stream : ∀ fd n, s.streams fd = some n → s.Entry fd n ∧ s.fds fd ≠ none
  distinct : ∀ fd fd' n, s.streams fd = some n → s.streams fd' = some n → fd = fd'
  waiting : ∀ fd n, s.pc = .waitpid fd n → s.Entry fd n ∧ ∀ fd', s.streams fd' ≠ some n
  pid : ∀ m n c d, s.Unwaited m c → s.Unwaited n d → c.pid = d.pid → m = n
  own : ∀ p ∈ s.waited, p.2 = p.1
  reaped : ∀ n ∈ s.waited.map Prod.snd, ∃ c, s.children[n]? = some c ∧ c.phase = .reaped
  once : (s.waited.map Prod.snd).Nodup

variable {s s' : State} {n : ℕ} {c : Child}

theorem table_init (fds : Fd → Bool) : Table (init fds) where
  stream := nofun
  distinct := nofun
  waiting := nofun
  pid := by simp [State.Unwaited, init]
  own := by simp [init]
  reaped := by simp [init]
  once := List.nodup_nil

/-! ## Descriptors -/

theorem close_self (fds : Fds) (fd : Fd) : fds.close fd fd = none := Function.update_self ..

theorem close_of_ne (fds : Fds) {fd fd' : Fd} (h : fd' ≠ fd) : fds.close fd fd' = fds fd' :=
  Function.update_of_ne h ..

/-- A pipe leaves the descriptors in use as they are. -/
theorem pipe_of_ne_none {fds : Fds} {pfd₀ pfd₁ fd : Fd} {n : ℕ} (h₀ : fds pfd₀ = none)
    (h₁ : fds pfd₁ = none) (h : fds fd ≠ none) : fds.pipe pfd₀ pfd₁ n fd = fds fd := by
  have hne₀ : fd ≠ pfd₀ := fun heq => h (heq ▸ h₀)
  have hne₁ : fd ≠ pfd₁ := fun heq => h (heq ▸ h₁)
  rw [FdTable.pipe, Function.update_of_ne hne₁, Function.update_of_ne hne₀]

/-! ## Streams -/

/-- The streams behind an `fclose`. -/
theorem streams_of_fclose {streams : Fd → Option ℕ} {fd fd' : Fd}
    (h : Function.update streams fd none fd' = some n) : fd' ≠ fd ∧ streams fd' = some n := by
  by_cases hne : fd' = fd
  · rw [hne, Function.update_self] at h
    cases h
  · rw [Function.update_of_ne hne] at h
    exact ⟨hne, h⟩

/-- The streams behind a fork: the old ones, and the new one at the end that is kept. -/
theorem streams_of_forks {streams : Fd → Option ℕ} {fd kept : Fd} {m : ℕ} {fdopens : Bool}
    (h : (if fdopens then Function.update streams kept (some n) else streams) fd = some m) :
    streams fd = some m ∨ (fd = kept ∧ m = n) := by
  cases fdopens with
  | false => exact .inl h
  | true =>
    change Function.update streams kept (some n) fd = some m at h
    by_cases hkept : fd = kept
    · rw [hkept, Function.update_self] at h
      exact .inr ⟨hkept, (Option.some.inj h).symm⟩
    · rw [Function.update_of_ne hkept] at h
      exact .inl h

/-! ## Children -/

/-- A call of a child changes its phase, and does not wait for it. -/
theorem childStep_eq_some {c' : Child} (h : childStep s c = some c') :
    c.phase ≠ .zombie ∧ c.phase ≠ .reaped ∧ c'.phase ≠ .reaped ∧
      c' = { c with phase := c'.phase } := by
  unfold childStep at h
  cases hphase : c.phase <;> rw [hphase] at h
  case close =>
    obtain rfl := Option.some.inj h
    refine ⟨nofun, nofun, ?_, rfl⟩
    dsimp only
    split <;> nofun
  case dup2 | closeGiven =>
    obtain rfl := Option.some.inj h
    exact ⟨nofun, nofun, nofun, rfl⟩
  case system =>
    simp only [Option.ite_none_right_eq_some, Option.some.injEq] at h
    obtain ⟨-, rfl⟩ := h
    exact ⟨nofun, nofun, nofun, rfl⟩
  case zombie | reaped => cases h

/-- The children behind a change of the child number `n`. -/
theorem unwaited_set {c' : Child} (hc : s.children[n]? = some c)
    (hchildren : s'.children = s.children.set n c') {m : ℕ} {d : Child} :
    s'.Unwaited m d ↔ (m = n ∧ d = c' ∧ c'.phase ≠ .reaped) ∨ (m ≠ n ∧ s.Unwaited m d) := by
  have hlt : n < s.children.length := (List.getElem?_eq_some_iff.1 hc).1
  unfold State.Unwaited
  rw [hchildren]
  by_cases hm : m = n
  · subst hm
    rw [List.getElem?_set_self hlt]
    constructor
    · rintro ⟨hd, hphase⟩
      obtain rfl := Option.some.inj hd
      exact .inl ⟨rfl, rfl, hphase⟩
    · rintro (⟨-, rfl, hphase⟩ | ⟨hne, -⟩)
      · exact ⟨rfl, hphase⟩
      · exact absurd rfl hne
  · rw [List.getElem?_set_ne (Ne.symm hm)]
    constructor
    · exact fun h => .inr ⟨hm, h⟩
    · rintro (⟨heq, -⟩ | ⟨-, h⟩)
      · exact absurd heq hm
      · exact h

/-- The members of a list that a new one was added to. -/
theorem getElem?_concat_eq_some {α : Type*} {l : List α} {a b : α} {m : ℕ} :
    (l ++ [a])[m]? = some b ↔ l[m]? = some b ∨ (m = l.length ∧ b = a) := by
  by_cases hm : m < l.length
  · rw [List.getElem?_append_left hm]
    constructor
    · exact .inl
    · rintro (h | ⟨rfl, -⟩)
      · exact h
      · exact absurd hm (Nat.lt_irrefl _)
  · have hold : l[m]? = none := List.getElem?_eq_none (Nat.le_of_not_lt hm)
    rw [List.getElem?_append_right (Nat.le_of_not_lt hm), List.getElem?_singleton, hold]
    constructor
    · intro h
      split_ifs at h with hlen
      exact .inr ⟨by omega, (Option.some.inj h).symm⟩
    · rintro (h | ⟨rfl, rfl⟩)
      · cases h
      · rw [Nat.sub_self, if_pos rfl]

/-- The children behind a fork. -/
theorem unwaited_append {c' : Child} (hchildren : s'.children = s.children ++ [c']) {m : ℕ}
    {d : Child} :
    s'.Unwaited m d ↔
      s.Unwaited m d ∨ (m = s.children.length ∧ d = c' ∧ c'.phase ≠ .reaped) := by
  unfold State.Unwaited
  rw [hchildren, getElem?_concat_eq_some]
  constructor
  · rintro ⟨hd | ⟨hm, rfl⟩, hphase⟩
    · exact .inl ⟨hd, hphase⟩
    · exact .inr ⟨hm, rfl, hphase⟩
  · rintro (⟨hd, hphase⟩ | ⟨hm, rfl, hphase⟩)
    · exact ⟨.inl hd, hphase⟩
    · exact ⟨.inr ⟨hm, rfl⟩, hphase⟩

/-! ## Steps -/

/-- An entry stays right while its child can be followed. -/
theorem State.Entry.mono {fd : Fd} {n : ℕ} (h : s.Entry fd n)
    (htable : s'.fd_to_pid fd = s.fd_to_pid fd)
    (hchild : ∀ c, s.Unwaited n c → ∃ c', s'.Unwaited n c' ∧ c'.pid = c.pid) : s'.Entry fd n := by
  obtain ⟨c, hc, hpid⟩ := h
  obtain ⟨c', hc', hpid'⟩ := hchild c hc
  exact ⟨c', hc', by rw [htable, hpid, hpid']⟩

/-- The number of an unwaited child is not among those that were waited for. -/
theorem Table.notMem_waited (hs : Table s) (hc : s.Unwaited n c) :
    n ∉ s.waited.map Prod.snd := by
  intro hn
  obtain ⟨d, hd, hphase⟩ := hs.reaped n hn
  obtain rfl := Option.some.inj (hd.symm.trans hc.1)
  exact hc.2 hphase

/-- The processes that the commands leave running do not matter for the table. -/
theorem Table.setLeft (hs : Table s) (left : List Fds) : Table { s with left := left } :=
  { hs with }

theorem Table.forkFails (hs : Table s) {pfd₀ pfd₁ : Fd} (hfree : s.Free pfd₀ pfd₁) :
    Table { s with fds := s.fds.pipe pfd₀ pfd₁ s.pipes, pipes := s.pipes + 1 } := by
  obtain ⟨-, h₀, h₁⟩ := hfree
  refine { hs with stream := ?_ }
  intro fd n hfd
  obtain ⟨hentry, hopen⟩ := hs.stream fd n hfd
  refine ⟨hentry, ?_⟩
  change s.fds.pipe pfd₀ pfd₁ s.pipes fd ≠ none
  rw [pipe_of_ne_none h₀ h₁ hopen]
  exact hopen

theorem Table.fclose (hs : Table s) {fd : Fd} (hfd : s.streams fd = some n) (succeeds : Bool) :
    Table { s with
      fds := s.fds.close fd
      streams := Function.update s.streams fd none
      pc := if succeeds then .waitpid fd n else .idle
      closed := s.closed ++ [n] } := by
  refine ⟨?_, ?_, ?_, hs.pid, hs.own, hs.reaped, hs.once⟩
  · intro fd' m h
    obtain ⟨hne, h⟩ := streams_of_fclose h
    obtain ⟨hentry, hopen⟩ := hs.stream fd' m h
    refine ⟨hentry, ?_⟩
    change s.fds.close fd fd' ≠ none
    rw [close_of_ne _ hne]
    exact hopen
  · intro fd₁ fd₂ m h₁ h₂
    exact hs.distinct fd₁ fd₂ m (streams_of_fclose h₁).2 (streams_of_fclose h₂).2
  · intro fd' m h
    cases succeeds with
    | false => cases h
    | true =>
      cases h
      refine ⟨(hs.stream fd n hfd).1, ?_⟩
      intro fd' h
      obtain ⟨hne, h⟩ := streams_of_fclose h
      exact hne (hs.distinct fd' fd n h hfd)

theorem Table.waitpid (hs : Table s) {fd : Fd} {own : ℕ} (hpc : s.pc = .waitpid fd own)
    (hc : s.children[n]? = some c) (hphase : c.phase = .zombie) (hpid : c.pid = s.fd_to_pid fd) :
    Table { s with
      pc := .idle
      children := s.children.set n { c with phase := .reaped }
      waited := s.waited ++ [(own, n)] } := by
  have hunwaited : s.Unwaited n c := ⟨hc, by rw [hphase]; nofun⟩
  obtain ⟨⟨d, hd, hentry⟩, hstreams⟩ := hs.waiting fd own hpc
  -- Only the stream's own child has the pid.
  obtain rfl : n = own := hs.pid n own c d hunwaited hd (hpid.trans hentry)
  set s' : State := { s with
    pc := .idle
    children := s.children.set n { c with phase := .reaped }
    waited := s.waited ++ [(n, n)] } with hs'
  have hset : ∀ {m d}, s'.Unwaited m d ↔ m ≠ n ∧ s.Unwaited m d := by
    intro m d
    rw [unwaited_set hc rfl]
    simp
  refine ⟨?_, hs.distinct, nofun, ?_, ?_, ?_, ?_⟩
  · intro fd' m hfd'
    obtain ⟨hentry, hopen⟩ := hs.stream fd' m hfd'
    refine ⟨hentry.mono rfl ?_, hopen⟩
    intro c hc
    have hne : m ≠ n := by
      rintro rfl
      exact hstreams fd' hfd'
    exact ⟨c, hset.2 ⟨hne, hc⟩, rfl⟩
  · intro m k c d hc hd hpid
    exact hs.pid m k c d (hset.1 hc).2 (hset.1 hd).2 hpid
  · intro p hp
    rw [hs', List.mem_append, List.mem_singleton] at hp
    obtain hp | rfl := hp
    · exact hs.own p hp
    · rfl
  · intro m hm
    rw [hs', List.map_append, List.mem_append] at hm
    have hlt : n < s.children.length := (List.getElem?_eq_some_iff.1 hc).1
    by_cases hmn : m = n
    · subst hmn
      exact ⟨_, List.getElem?_set_self hlt, rfl⟩
    · obtain hm | hm := hm
      · obtain ⟨d, hd, hphase⟩ := hs.reaped m hm
        exact ⟨d, (List.getElem?_set_ne (Ne.symm hmn)).trans hd, hphase⟩
      · exact absurd (List.mem_singleton.1 hm) hmn
  · rw [hs', List.map_append]
    refine List.Nodup.append hs.once (List.nodup_singleton _) ?_
    rw [List.map_singleton, List.disjoint_singleton]
    exact hs.notMem_waited hunwaited

theorem Table.child (hs : Table s) {c' : Child} (hc : s.children[n]? = some c)
    (h : childStep s c = some c') : Table { s with children := s.children.set n c' } := by
  obtain ⟨-, hphase, hphase', heq⟩ := childStep_eq_some h
  have hpid : c'.pid = c.pid := by rw [heq]
  set s' : State := { s with children := s.children.set n c' } with hs'
  have hset : ∀ {m d}, s'.Unwaited m d ↔ (m = n ∧ d = c') ∨ (m ≠ n ∧ s.Unwaited m d) := by
    intro m d
    rw [unwaited_set hc rfl]
    simp [hphase']
  -- Each child is found again with its pid.
  have hforward : ∀ m d, s.Unwaited m d → ∃ d', s'.Unwaited m d' ∧ d'.pid = d.pid := by
    intro m d hd
    by_cases hm : m = n
    · subst hm
      obtain rfl := Option.some.inj (hc.symm.trans hd.1)
      exact ⟨c', hset.2 (.inl ⟨rfl, rfl⟩), hpid⟩
    · exact ⟨d, hset.2 (.inr ⟨hm, hd⟩), rfl⟩
  have hbackward : ∀ m d', s'.Unwaited m d' → ∃ d, s.Unwaited m d ∧ d.pid = d'.pid := by
    intro m d' hd'
    obtain ⟨rfl, rfl⟩ | ⟨-, hd'⟩ := hset.1 hd'
    · exact ⟨c, ⟨hc, hphase⟩, hpid.symm⟩
    · exact ⟨d', hd', rfl⟩
  refine ⟨?_, hs.distinct, ?_, ?_, hs.own, ?_, hs.once⟩
  · intro fd m hfd
    obtain ⟨hentry, hopen⟩ := hs.stream fd m hfd
    exact ⟨hentry.mono rfl (hforward m), hopen⟩
  · intro fd m hpc
    obtain ⟨hentry, hstreams⟩ := hs.waiting fd m hpc
    exact ⟨hentry.mono rfl (hforward m), hstreams⟩
  · intro m k d' e' hd' he' hpid
    obtain ⟨d, hd, hpd⟩ := hbackward m d' hd'
    obtain ⟨e, he, hpe⟩ := hbackward k e' he'
    exact hs.pid m k d e hd he (by rw [hpd, hpe, hpid])
  · intro m hm
    obtain ⟨d, hd, hreaped⟩ := hs.reaped m hm
    have hne : m ≠ n := by
      rintro rfl
      obtain rfl := Option.some.inj (hc.symm.trans hd)
      exact hphase hreaped
    exact ⟨d, (List.getElem?_set_ne (Ne.symm hne)).trans hd, hreaped⟩

/-- Both ends of a new pipe are at free descriptors, and they are different ones. -/
theorem State.Free.ends {pfd₀ pfd₁ : Fd} (hfree : s.Free pfd₀ pfd₁) (modes : Modes) :
    modes.kept pfd₀ pfd₁ ≠ modes.given pfd₀ pfd₁ ∧ s.fds (modes.kept pfd₀ pfd₁) = none ∧
      s.fds (modes.given pfd₀ pfd₁) = none := by
  obtain ⟨hne, h₀, h₁⟩ := hfree
  cases modes with
  | r => exact ⟨hne, h₀, h₁⟩
  | w => exact ⟨hne.symm, h₁, h₀⟩

theorem pipe_kept_ne_none {fds : Fds} {pfd₀ pfd₁ : Fd} (hne : pfd₀ ≠ pfd₁) (modes : Modes)
    (n : ℕ) : fds.pipe pfd₀ pfd₁ n (modes.kept pfd₀ pfd₁) ≠ none := by
  cases modes with
  | r =>
    change Function.update (Function.update fds pfd₀ _) pfd₁ _ pfd₀ ≠ none
    rw [Function.update_of_ne hne, Function.update_self]
    nofun
  | w =>
    change Function.update (Function.update fds pfd₀ _) pfd₁ _ pfd₁ ≠ none
    rw [Function.update_self]
    nofun

theorem Table.forks (hs : Table s) (hpc : s.pc = .idle) {modes : Modes} {pfd₀ pfd₁ : Fd}
    {pid : ℕ} (hfree : s.Free pfd₀ pfd₁) (hpid : s.PidFree pid) (hc : c.pid = pid)
    (hphase : c.phase ≠ .reaped) {fdopens : Bool} :
    Table { s with
      fds := (s.fds.pipe pfd₀ pfd₁ s.pipes).close (modes.given pfd₀ pfd₁)
      fd_to_pid := Function.update s.fd_to_pid (modes.kept pfd₀ pfd₁) pid
      streams := if fdopens then
          Function.update s.streams (modes.kept pfd₀ pfd₁) (some s.children.length)
        else s.streams
      children := s.children ++ [c]
      pipes := s.pipes + 1 } := by
  set s' : State := { s with
    fds := (s.fds.pipe pfd₀ pfd₁ s.pipes).close (modes.given pfd₀ pfd₁)
    fd_to_pid := Function.update s.fd_to_pid (modes.kept pfd₀ pfd₁) pid
    streams := if fdopens then
        Function.update s.streams (modes.kept pfd₀ pfd₁) (some s.children.length)
      else s.streams
    children := s.children ++ [c]
    pipes := s.pipes + 1 } with hs'
  obtain ⟨hends, hkept, hgiven⟩ := hfree.ends modes
  have happend : ∀ {m d}, s'.Unwaited m d ↔ s.Unwaited m d ∨ (m = s.children.length ∧ d = c) := by
    intro m d
    rw [unwaited_append rfl]
    simp [hphase]
  have hnew : ∀ d, ¬ s.Unwaited s.children.length d := by
    intro d hd
    exact absurd (List.getElem?_eq_some_iff.1 hd.1).1 (Nat.lt_irrefl _)
  have hpids : ∀ m d, s.Unwaited m d → d.pid ≠ c.pid := by
    intro m d hd
    rw [hc]
    exact hpid.2 d (List.mem_of_getElem? hd.1) hd.2
  -- An old stream is not at the end that is kept, which was free.
  have hstreams : ∀ fd m, s'.streams fd = some m → (fd ≠ modes.kept pfd₀ pfd₁ ∧
      s.streams fd = some m) ∨ (fd = modes.kept pfd₀ pfd₁ ∧ m = s.children.length) := by
    intro fd m hfd
    obtain hfd | hnew := streams_of_forks hfd
    · exact .inl ⟨fun hkeptfd => (hs.stream fd m hfd).2 (hkeptfd ▸ hkept), hfd⟩
    · exact .inr hnew
  refine ⟨?_, ?_, ?_, ?_, hs.own, ?_, hs.once⟩
  · intro fd m hfd
    obtain ⟨hne, hfd⟩ | ⟨rfl, rfl⟩ := hstreams fd m hfd
    · obtain ⟨hentry, hopen⟩ := hs.stream fd m hfd
      have hnegiven : fd ≠ modes.given pfd₀ pfd₁ := fun heq => hopen (heq ▸ hgiven)
      constructor
      · exact hentry.mono (Function.update_of_ne hne ..) fun d hd => ⟨d, happend.2 (.inl hd), rfl⟩
      · change (s.fds.pipe pfd₀ pfd₁ s.pipes).close _ fd ≠ none
        rw [close_of_ne _ hnegiven, pipe_of_ne_none hfree.2.1 hfree.2.2 hopen]
        exact hopen
    · constructor
      · exact ⟨c, happend.2 (.inr ⟨rfl, rfl⟩), (Function.update_self ..).trans hc.symm⟩
      · change (s.fds.pipe pfd₀ pfd₁ s.pipes).close _ _ ≠ none
        rw [close_of_ne _ hends]
        exact pipe_kept_ne_none hfree.1 modes _
  · intro fd fd' m hfd hfd'
    obtain ⟨-, hfd⟩ | ⟨hfd, hm⟩ := hstreams fd m hfd
    · obtain ⟨-, hfd'⟩ | ⟨-, rfl⟩ := hstreams fd' m hfd'
      · exact hs.distinct fd fd' m hfd hfd'
      · obtain ⟨⟨d, hd, -⟩, -⟩ := hs.stream fd _ hfd
        exact absurd hd (hnew d)
    · obtain ⟨-, hfd'⟩ | ⟨hfd', -⟩ := hstreams fd' m hfd'
      · obtain ⟨⟨d, hd, -⟩, -⟩ := hs.stream fd' _ hfd'
        exact absurd (hm ▸ hd) (hnew d)
      · rw [hfd, hfd']
  · intro fd m h
    exact absurd (hpc.symm.trans h) nofun
  · intro m k d e hd he heq
    obtain hold | ⟨rfl, rfl⟩ := happend.1 hd
    · obtain hold' | ⟨-, rfl⟩ := happend.1 he
      · exact hs.pid m k d e hold hold' heq
      · exact absurd heq (hpids m d hold)
    · obtain hold' | ⟨rfl, -⟩ := happend.1 he
      · exact absurd heq.symm (hpids k e hold')
      · rfl
  · intro m hm
    obtain ⟨d, hd, hreaped⟩ := hs.reaped m hm
    have hlt := (List.getElem?_eq_some_iff.1 hd).1
    exact ⟨d, (List.getElem?_append_left hlt).trans hd, hreaped⟩

/-- **Every step** keeps the table right. -/
theorem Table.step (hs : Table s) {l : Label} (h : step s l = some s') : Table s' := by
  cases happens_of_step h with
  | pipeFails => exact hs
  | forkFails hpc hfree => exact hs.forkFails hfree
  | forks hpc hfree hpid =>
    refine hs.forks hpc hfree hpid ?_ ?_
    · rfl
    · nofun
  | fclose hpc hown => exact hs.fclose hown _
  | waitpid hpc hc hphase hpid => exact hs.waitpid hpc hc hphase hpid
  | waitpidFails => exact { hs with waiting := nofun }
  | child hc hstep => exact hs.child hc hstep
  | leaves | spawns | leftEnds => exact hs.setLeft _

theorem table_reachable {fds : Fd → Bool} (h : (machine fds).Reachable s) : Table s :=
  h.invariant (table_init fds) fun _ _ _ hs _ hst => hs.step hst

/-- **Each `mypclose` waits for its own child.** In every reachable state the entry of `fd_to_pid`
at the descriptor of an open stream is the pid of the child forked for it, which nobody has waited
for; while `mypclose` is at its `waitpid` that child, and no other unwaited one, has the pid looked
up; every `waitpid` so far has returned the child of the stream that was closed, and none has been
returned twice. -/
theorem waits_for_own_child {fds : Fd → Bool} (h : (machine fds).Reachable s) :
    (∀ fd n, s.streams fd = some n → ∃ c, s.Unwaited n c ∧ s.fd_to_pid fd = c.pid) ∧
      (∀ fd n, s.pc = .waitpid fd n → (∃ c, s.Unwaited n c) ∧
        ∀ m c, s.Unwaited m c → (c.pid = s.fd_to_pid fd ↔ m = n)) ∧
      (∀ p ∈ s.waited, p.2 = p.1) ∧ (s.waited.map Prod.snd).Nodup := by
  have hs := table_reachable h
  refine ⟨fun fd n hfd => (hs.stream fd n hfd).1, ?_, hs.own, hs.once⟩
  intro fd n hpc
  obtain ⟨⟨d, hd, hentry⟩, -⟩ := hs.waiting fd n hpc
  refine ⟨⟨d, hd⟩, fun m c hc => ?_⟩
  constructor
  · intro hpid
    exact hs.pid m n c d hc hd (hpid.trans hentry)
  · rintro rfl
    obtain rfl := Option.some.inj (hc.1.symm.trans hd.1)
    exact hentry.symm

/-- The standard descriptors are open. -/
def standardFds (fd : Fd) : Bool := decide (fd.val < 3)

/-- A child is waited for, and its pid and its descriptor come back. -/
def reuseRun : List Label :=
  [.mypopen .r false (.forks 3 4 100 true), .child 0, .child 0, .child 0, .child 0,
    .fclose 3 true, .waitpid 0, .mypopen .w false (.forks 4 3 100 true), .child 1, .child 1,
    .child 1, .child 1, .fclose 3 true, .waitpid 1]

theorem waits_for_own_child_reused :
    ∃ s, (machine standardFds).run (init standardFds) reuseRun = some s ∧
      s.waited = [(0, 0), (1, 1)] ∧ (s.waited.map Prod.snd).Nodup := by
  refine ⟨_, rfl, rfl, ?_⟩
  have hreach : (machine standardFds).Reachable _ := .run .init reuseRun rfl
  exact (waits_for_own_child hreach).2.2.2

end TlpiLearn.Popen
