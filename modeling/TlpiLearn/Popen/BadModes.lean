import TlpiLearn.Foundations.CString
import TlpiLearn.Popen.Waits
import Mathlib.Tactic

/-!
# What a failed `mypopen` leaves behind

Here `mypopen` of `Exercise/44_2.c` is followed for any string `modes`, in both processes. It makes
the pipe and forks before it looks at `modes`, and the child looks at it on its own: with another
string than `r` and `w` it returns to the caller's code like its parent. Descriptors may be of any
type, since a call that should fail does not come to the table `fd_to_pid`.

`mypopen_noEffect_iff` says when a call that should fail has no effect. `mypopen_caller` connects
this model with the one in which the modes are known to be right.
-/

namespace TlpiLearn.Popen.OneCall

/-- `"r"`. -/
def modeR : CString := ⟨[114], by decide⟩

theorem zero_notMem_modeW : (0 : UInt8) ∉ [119] := by decide

/-- `"w"`. -/
def modeW : CString := ⟨[119], zero_notMem_modeW⟩

/-- `strcmp(modes, s) == 0`. -/
def isMode (modes s : CString) : Bool := strcmp (modes.1 ++ [0]) s.1 = some 0

/-- A process: its descriptors, the table `fd_to_pid`, and the children that it has not waited
for. -/
structure Process (δ : Type*) where
  fds : FdTable δ
  fd_to_pid : δ → ℕ
  children : List ℕ

/-- How a process goes on. -/
inductive Next (δ : Type*)
  /-- It returns to the caller's code, with the stream at a descriptor or with `NULL`. -/
  | returns (stream : Option δ)
  /-- `system(command)`, and then `_exit`. -/
  | system (command : CString)
  deriving DecidableEq

/-- The processes behind a call: the caller, and the child if there is one. -/
structure Processes (δ : Type*) where
  caller : Process δ
  next : Next δ
  child : Option (Process δ × Next δ)

section Call

variable {δ : Type*} [DecidableEq δ] [OfNat δ 0] [OfNat δ 1]

/-- The descriptors of the child in front of `system(command)`. -/
def childFds (fds : FdTable δ) (kept given std : δ) : FdTable δ :=
  if given ≠ std then ((fds.close kept).dup2 given std).close given else fds.close kept

/-- The child, behind `fork`. -/
def childPart (command modes : CString) (p : Process δ) (pfd₀ pfd₁ : δ) : Process δ × Next δ :=
  if isMode modes modeR then
    ({ p with fds := childFds p.fds pfd₀ pfd₁ STDOUT_FILENO }, .system command)
  else if isMode modes modeW then
    ({ p with fds := childFds p.fds pfd₁ pfd₀ STDIN_FILENO }, .system command)
  else (p, .returns none)

/-- The parent, behind `fork`. -/
def parentPart (modes : CString) (p : Process δ) (pfd₀ pfd₁ : δ) (pid : ℕ) (fdopens : Bool) :
    Process δ × Next δ :=
  if isMode modes modeR then
    ({ p with fds := p.fds.close pfd₁, fd_to_pid := Function.update p.fd_to_pid pfd₀ pid },
      .returns (if fdopens then some pfd₀ else none))
  else if isMode modes modeW then
    ({ p with fds := p.fds.close pfd₀, fd_to_pid := Function.update p.fd_to_pid pfd₁ pid },
      .returns (if fdopens then some pfd₁ else none))
  else (p, .returns none)

/-- `mypopen`, whose pipe is the `n`-th one. -/
def mypopen (command modes : CString) (p : Process δ) (n : ℕ) : Outcome δ → Processes δ
  | .pipeFails => ⟨p, .returns none, none⟩
  | .forkFails pfd₀ pfd₁ => ⟨{ p with fds := p.fds.pipe pfd₀ pfd₁ n }, .returns none, none⟩
  | .forks pfd₀ pfd₁ pid fdopens =>
    let p := { p with fds := p.fds.pipe pfd₀ pfd₁ n }
    let parent := parentPart modes { p with children := p.children ++ [pid] } pfd₀ pfd₁ pid fdopens
    ⟨parent.1, parent.2, some (childPart command modes { p with children := [] } pfd₀ pfd₁)⟩

/-- The pipe is given two free descriptors. -/
def Possible (p : Process δ) : Outcome δ → Prop
  | .pipeFails => True
  | .forkFails pfd₀ pfd₁ | .forks pfd₀ pfd₁ _ _ =>
    pfd₀ ≠ pfd₁ ∧ p.fds pfd₀ = none ∧ p.fds pfd₁ = none

/-- The call should fail: the modes are wrong, or the `fork` fails. -/
def ShouldFail (modes : CString) (o : Outcome δ) : Prop :=
  (modes ≠ modeR ∧ modes ≠ modeW) ∨ ∃ pfd₀ pfd₁, o = .forkFails pfd₀ pfd₁

/-- `NULL` is returned once, in the caller, and there is no other process with its code, no child to
be waited for and no descriptor more than before. -/
structure NoEffect (p : Process δ) (after : Processes δ) : Prop where
  null : after.next = .returns none
  once : ∀ child ∈ after.child, ∀ stream, child.2 ≠ .returns stream
  children : after.caller.children = p.children
  fds : ∀ fd, after.caller.fds fd ≠ none → p.fds fd ≠ none

theorem isMode_iff {modes s : CString} : isMode modes s = true ↔ modes = s := by
  have hzero : 0 ∈ modes.1 ++ [0] := by simp
  obtain ⟨z, hz, hiff⟩ := strcmp_eq hzero (s := s.1) fun b hb hb0 => s.2 (hb0 ▸ hb)
  rw [cstr_append_zero, cstr_eq_self modes.2] at hiff
  rw [isMode, decide_eq_true_eq, hz, Option.some.injEq, hiff, Subtype.ext_iff]

/-- With wrong modes both processes return, the caller with a child and both ends of the pipe. -/
theorem mypopen_of_badModes (command : CString) {modes : CString} (hr : modes ≠ modeR)
    (hw : modes ≠ modeW) (p : Process δ) (n : ℕ) (pfd₀ pfd₁ : δ) (pid : ℕ) (fdopens : Bool) :
    mypopen command modes p n (.forks pfd₀ pfd₁ pid fdopens) =
      ⟨⟨p.fds.pipe pfd₀ pfd₁ n, p.fd_to_pid, p.children ++ [pid]⟩, .returns none,
        some (⟨p.fds.pipe pfd₀ pfd₁ n, p.fd_to_pid, []⟩, .returns none)⟩ := by
  simp only [mypopen, parentPart, childPart, if_neg (mt isMode_iff.1 hr),
    if_neg (mt isMode_iff.1 hw)]

/-- **When a call that should fail has no effect**: the pipe cannot be made. -/
theorem mypopen_noEffect_iff (command : CString) {modes : CString} {p : Process δ} (n : ℕ)
    {o : Outcome δ} (hpossible : Possible p o) (hfail : ShouldFail modes o) :
    NoEffect p (mypopen command modes p n o) ↔ o = .pipeFails := by
  cases o with
  | pipeFails =>
    refine iff_of_true ⟨rfl, fun child hchild => ?_, rfl, fun _ h => h⟩ rfl
    cases hchild
  | forkFails pfd₀ pfd₁ =>
    refine iff_of_false (fun h => ?_) (by simp)
    obtain ⟨hne, hfree, -⟩ := hpossible
    refine h.fds pfd₀ ?_ hfree
    change p.fds.pipe pfd₀ pfd₁ n pfd₀ ≠ none
    rw [FdTable.pipe, Function.update_of_ne hne, Function.update_self]
    exact Option.some_ne_none _
  | forks pfd₀ pfd₁ pid fdopens =>
    refine iff_of_false (fun h => ?_) (by simp)
    obtain ⟨hr, hw⟩ | ⟨_, _, hfork⟩ := hfail
    · rw [mypopen_of_badModes command hr hw] at h
      exact h.once _ rfl none rfl
    · cases hfork

end Call

/-- The command `ls`. -/
def ls : CString := ⟨[108, 115], by decide⟩

/-- The modes `rw`. -/
def modeRW : CString := ⟨[114, 119], by decide⟩

/-- A process with the three standard descriptors. -/
def standard : Process ℕ := ⟨fun fd => if fd < 3 then some .other else none, fun _ => 0, []⟩

/-- With the modes `rw` nothing happens without a pipe, and something does when the `fork`
succeeds. -/
theorem mypopen_noEffect_iff_rw :
    NoEffect standard (mypopen ls modeRW standard 0 .pipeFails) ∧
      ¬ NoEffect standard (mypopen ls modeRW standard 0 (.forks 3 4 7 true)) := by
  have hmodes : modeRW ≠ modeR ∧ modeRW ≠ modeW := by decide
  have hfree : Possible standard (.forks 3 4 7 true) := ⟨by decide, by decide, by decide⟩
  constructor
  · exact (mypopen_noEffect_iff ls 0 (o := .pipeFails) trivial (.inl hmodes)).2 rfl
  · rw [mypopen_noEffect_iff ls 0 hfree (.inl hmodes)]
    simp

/-- With the modes `rw` the child returns to the caller's code, and the caller keeps the child and
the pipe. -/
theorem not_noEffect_rw :
    (mypopen ls modeRW standard 0 (.forks 3 4 7 true)).child.map Prod.snd = some (.returns none) ∧
      (mypopen ls modeRW standard 0 (.forks 3 4 7 true)).caller.children = [7] ∧
      (mypopen ls modeRW standard 0 (.forks 3 4 7 true)).caller.fds 3 = some (.readEnd 0) ∧
      (mypopen ls modeRW standard 0 (.forks 3 4 7 true)).caller.fds 4 = some (.writeEnd 0) ∧
      ¬ NoEffect standard (mypopen ls modeRW standard 0 (.forks 3 4 7 true)) := by
  refine ⟨by decide, by decide, by decide, by decide, fun h => ?_⟩
  have hchildren := h.children
  revert hchildren
  decide

/-! ## The right modes -/

/-- The string for known modes. -/
def text : Modes → CString
  | .r => modeR
  | .w => modeW

/-- The caller in the model with known modes. -/
def callerOf (s : State) : Process Fd :=
  ⟨s.fds, s.fd_to_pid, (s.children.filter fun c => c.phase ≠ .reaped).map Child.pid⟩

theorem isMode_modeR : isMode modeR modeR = true := by decide

theorem isMode_modeW : isMode modeW modeW = true := by decide

theorem isMode_modeW_modeR : ¬ isMode modeW modeR = true := by decide

theorem childFds_eq (c : Child) :
    childFds c.inherited c.kept c.given c.modes.std = { c with phase := .system }.fds := by
  rw [childFds, Child.fds]
  by_cases hstd : c.given = c.modes.std
  · rw [if_neg (not_not.2 hstd)]
    exact (if_pos hstd).symm
  · rw [if_pos hstd]
    exact (if_neg hstd).symm

/-- **With right modes** the two models of `mypopen` agree, on the caller and on the descriptors of
the child in front of `system`. -/
theorem mypopen_caller (command : CString) {s s' : State} {modes : Modes} {readsToEof : Bool}
    {o : Outcome Fd} (h : Popen.mypopen s modes readsToEof o = some s') :
    (mypopen command (text modes) (callerOf s) s.pipes o).caller = callerOf s' ∧
      ∀ child ∈ (mypopen command (text modes) (callerOf s) s.pipes o).child,
        ∃ c ∈ s'.children, child.1.fds = { c with phase := .system }.fds := by
  cases o with
  | pipeFails =>
    obtain rfl := Option.some.inj h
    refine ⟨rfl, fun child hchild => ?_⟩
    cases hchild
  | forkFails pfd₀ pfd₁ =>
    simp only [Popen.mypopen, Option.ite_none_right_eq_some, Option.some.injEq] at h
    obtain ⟨-, rfl⟩ := h
    refine ⟨rfl, fun child hchild => ?_⟩
    cases hchild
  | forks pfd₀ pfd₁ pid fdopens =>
    simp only [Popen.mypopen, Option.ite_none_right_eq_some, Option.some.injEq] at h
    obtain ⟨-, rfl⟩ := h
    constructor
    · cases modes <;>
        simp [mypopen, parentPart, text, callerOf, isMode_modeR, isMode_modeW, isMode_modeW_modeR,
          Modes.kept, Modes.given]
    · intro child hchild
      obtain rfl := Option.some.inj hchild
      refine ⟨_, List.mem_append_right _ List.mem_cons_self, ?_⟩
      cases modes
      · rw [childPart, text, if_pos isMode_modeR]
        exact childFds_eq ⟨pid, .r, pfd₀, pfd₁, s.pipes, readsToEof, s.fds.pipe pfd₀ pfd₁ s.pipes,
          .close⟩
      · rw [childPart, text, if_neg isMode_modeW_modeR, if_pos isMode_modeW]
        exact childFds_eq ⟨pid, .w, pfd₀, pfd₁, s.pipes, readsToEof, s.fds.pipe pfd₀ pfd₁ s.pipes,
          .close⟩

end TlpiLearn.Popen.OneCall
