import TlpiLearn.FileIo.TreeWalkSteps
import Mathlib.Tactic

/-!
# What a walk leaves behind

The directory of the process and the open streams when `mynftw` of `18/8/18_8.c` returns. The stream
of a directory is closed at the end of the loop only: every other `return` behind `opendir` leaves
it open, and a failed `opendir` leaves the process in the directory that `chdir` has entered.

`State.leaked` counts the streams that no call of `_ftw_rec` will close. It never falls, and a step
that is `Orderly` is one that does not raise it and does not make a level above raise it, so that
`mynftw_restores_iff` is exact.
-/

namespace TlpiLearn.TreeWalkSteps

open TreeWalk (withSlash Pathname)

variable {δ : Type*}

/-- The places in the loop and behind it, where the stream is to be closed. -/
def Pc.inLoop : Pc → Bool
  | .readdir => true
  | .statEntry => true
  | .access => true
  | .preorder => true
  | .postorder => true
  | .file => true
  | .finish => true
  | .stat => false
  | .getcwd => false
  | .chdir => false
  | .opendir => false
  | .abandon => false
  | .ret _ => false
  | .done _ => false
  | .fault => false

/-- The open streams that neither the loop nor a loop that waits for it will close. -/
def State.leaked (s : State δ) : ℤ :=
  s.streams - s.stack.length - if s.pc.inLoop then 1 else 0

/-- The process is in the directory `cwd` and has no open streams. -/
def Restored (cwd : δ) (s : State δ) : Prop := s.cwd = cwd ∧ s.streams = 0

/-- **The condition** on a step: the callback returns 0, no `chdir` back fails, the descriptors are
enough, and failures at the way into a directory are for the starting directory only, and not
behind a `chdir` that has left the directory of the process. -/
def Orderly (flags : Flags) (s : State δ) : Answer δ → Prop
  | .stat st_dev => st_dev = none → s.stack = []
  | .getcwd ok => ok = false → s.stack = []
  | .chdir dir => dir = none → s.stack = []
  | .opendir ok =>
    if ok then 0 < s.frame.descriptors
    else s.stack = [] ∧ (flags.chdir = true → s.cwd = s.frame.cwd)
  | .func v => v = 0
  | .chdirBack ok => ok = true
  | .readdir _ => True
  | .statEntry _ => True
  | .access _ => True
  | .leave => True

/-! ## The invariant -/

/-- What holds in every walk that was started in the directory `cwd`. -/
def KeptAt (flags : Flags) (cwd : δ) (s : State δ) : Pc → Prop
  | .stat => s.stack = [] → s.cwd = cwd
  | .getcwd => flags.chdir = true ∧ (s.stack = [] → s.cwd = cwd)
  | .chdir => flags.chdir = true ∧ (s.stack = [] → s.cwd = cwd)
  | .abandon => flags.chdir = true ∧ 0 < s.leaked
  | .finish => flags.chdir = true
  | .done _ => s.stack = []
  | _ => True

/-- The directories whose names the calls of `_ftw_rec` have stored. -/
def State.cwds (s : State δ) : List δ := s.frame.cwd :: s.stack.map Frame.cwd

/-- **The invariant**: no stream is closed twice, the first call of `_ftw_rec` knows the directory
of the process, and without `FTW_CHDIR` this is never left. -/
structure Kept (flags : Flags) (cwd : δ) (s : State δ) : Prop where
  leaked_nonneg : 0 ≤ s.leaked
  bottom : s.cwds.getLast? = some cwd
  still : flags.chdir = false → s.cwd = cwd
  here : KeptAt flags cwd s s.pc

/-- No level will lose a stream because of what it gets back, and the process is back. -/
def SoundAt (cwd : δ) (s : State δ) : Pc → Prop
  | .ret r => if s.stack = [] then s.cwd = cwd else r = 0
  | .done _ => s.cwd = cwd
  | _ => True

/-- No stream is lost, and `SoundAt` where the walk is. -/
def Sound (cwd : δ) (s : State δ) : Prop := s.leaked = 0 ∧ SoundAt cwd s s.pc

section

variable {flags : Flags} {cwd : δ} {s t : State δ} {l : Answer δ}

theorem leaked_of_inLoop (h : s.pc.inLoop = true) :
    s.leaked = s.streams - s.stack.length - 1 := by
  rw [State.leaked, h, if_pos rfl]

theorem leaked_of_not_inLoop (h : s.pc.inLoop = false) :
    s.leaked = s.streams - s.stack.length := by
  rw [State.leaked, h, if_neg Bool.false_ne_true, Int.sub_zero]

theorem leaked_le (s : State δ) : s.leaked ≤ s.streams - s.stack.length := by
  rw [State.leaked]
  split_ifs
  · omega
  · omega

theorem soundAt_of_inLoop (h : s.pc.inLoop = true) : SoundAt cwd s s.pc := by
  cases hpc : s.pc
  all_goals first
    | exact trivial
    | rw [hpc] at h; exact absurd h Bool.false_ne_true

/-- The same directory, streams and calls of `_ftw_rec`. -/
structure Same (s t : State δ) : Prop where
  cwd : t.cwd = s.cwd
  streams : t.streams = s.streams
  stack : t.stack = s.stack
  frame : t.frame.cwd = s.frame.cwd

theorem Same.cwds (h : Same s t) : t.cwds = s.cwds := by
  rw [State.cwds, State.cwds, h.frame, h.stack]

theorem Kept.bottom_frame (h : Kept flags cwd s) (hstack : s.stack = []) : s.frame.cwd = cwd := by
  have hbottom := h.bottom
  rw [State.cwds, hstack] at hbottom
  exact Option.some.inj hbottom

theorem Kept.of_pc {p : Pc} (h : Kept flags cwd s) (hpc : s.pc = p) : KeptAt flags cwd s p :=
  hpc ▸ h.here

/-- What a step does: the invariant is kept, and what is sound behind it was sound before. -/
structure Leads (flags : Flags) (cwd : δ) (s : State δ) (l : Answer δ) (t : State δ) : Prop where
  kept : Kept flags cwd t
  sound_iff : t.pc ≠ .fault → (Sound cwd t ↔ Sound cwd s ∧ Orderly flags s l)

namespace Leads

/-- A step that meets the condition and loses nothing. -/
theorem go (h : Kept flags cwd s) (hleaked : t.leaked = s.leaked)
    (hbottom : t.cwds.getLast? = some cwd) (hstill : flags.chdir = false → t.cwd = cwd)
    (hhere : KeptAt flags cwd t t.pc) (hat : SoundAt cwd t t.pc ↔ SoundAt cwd s s.pc)
    (hok : Orderly flags s l) : Leads flags cwd s l t where
  kept := ⟨hleaked ▸ h.leaked_nonneg, hbottom, hstill, hhere⟩
  sound_iff _ := by rw [Sound, Sound, hleaked, hat, and_iff_left hok]

/-- A step behind which a stream is lost. -/
theorem leak (hpos : 0 < t.leaked) (hbottom : t.cwds.getLast? = some cwd)
    (hstill : flags.chdir = false → t.cwd = cwd) (hhere : KeptAt flags cwd t t.pc)
    (hnot : ¬ (Sound cwd s ∧ Orderly flags s l)) : Leads flags cwd s l t where
  kept := ⟨hpos.le, hbottom, hstill, hhere⟩
  sound_iff _ := iff_of_false (fun hsound => hpos.ne' hsound.1) hnot

/-- A failure in front of the loop. -/
theorem fail (h : Kept flags cwd s) (hloop : s.pc.inLoop = false) (hat : SoundAt cwd s s.pc)
    (hok : Orderly flags s l ↔ s.stack = [] ∧ s.cwd = cwd) :
    Leads flags cwd s l (s.ret (-1)) where
  kept := by
    refine ⟨?_, h.bottom, h.still, trivial⟩
    rw [leaked_of_not_inLoop rfl]
    exact leaked_of_not_inLoop hloop ▸ h.leaked_nonneg
  sound_iff _ := by
    have hleaked : (s.ret (-1)).leaked = s.leaked :=
      (leaked_of_not_inLoop rfl).trans (leaked_of_not_inLoop hloop).symm
    have hret : SoundAt cwd (s.ret (-1)) (s.ret (-1)).pc ↔ s.stack = [] ∧ s.cwd = cwd := by
      change (if s.stack = [] then s.cwd = cwd else (-1 : ℤ) = 0) ↔ _
      split_ifs with hstack
      · rw [and_iff_right hstack]
      · exact iff_of_false (by decide) fun hboth => hstack hboth.1
    rw [Sound, Sound, hleaked, hret, hok, and_iff_left hat]

/-- The next place in front of the loop. -/
theorem ahead (h : Kept flags cwd s) (hloop : s.pc.inLoop = false) (hat : SoundAt cwd s s.pc)
    (hloop' : t.pc.inLoop = false) (hstreams : t.streams = s.streams) (hstack : t.stack = s.stack)
    (hbottom : t.cwds.getLast? = some cwd) (hstill : flags.chdir = false → t.cwd = cwd)
    (hhere : KeptAt flags cwd t t.pc) (hat' : SoundAt cwd t t.pc) (hok : Orderly flags s l) :
    Leads flags cwd s l t := by
  refine go h ?_ hbottom hstill hhere (iff_of_true hat' hat) hok
  rw [leaked_of_not_inLoop hloop, leaked_of_not_inLoop hloop', hstreams, hstack]

/-- A path overruns its array. -/
theorem overrun (h : Kept flags cwd s) : Leads flags cwd s l { s with pc := .fault } where
  kept := by
    refine ⟨?_, h.bottom, h.still, trivial⟩
    rw [leaked_of_not_inLoop rfl]
    exact h.leaked_nonneg.trans (leaked_le s)
  sound_iff hne := absurd rfl hne

/-- The next place in the loop. -/
theorem stay (h : Kept flags cwd s) (hin : s.pc.inLoop = true) (hsame : Same s t)
    (hin' : t.pc.inLoop = true) (hhere : KeptAt flags cwd t t.pc) (hok : Orderly flags s l) :
    Leads flags cwd s l t := by
  have hleaked : t.leaked = s.leaked := by
    rw [leaked_of_inLoop hin, leaked_of_inLoop hin', hsame.streams, hsame.stack]
  refine go h hleaked (hsame.cwds ▸ h.bottom) (fun hflag => hsame.cwd ▸ h.still hflag) hhere ?_ hok
  exact iff_of_true (soundAt_of_inLoop hin') (soundAt_of_inLoop hin)

theorem next (h : Kept flags cwd s) (hin : s.pc.inLoop = true) (hsame : Same s t)
    (hok : Orderly flags s l) : Leads flags cwd s l t.next :=
  stay h hin ⟨hsame.1, hsame.2, hsame.3, hsame.4⟩ rfl trivial hok

/-- The way into a directory: its loop gets the next stream. -/
theorem descend (h : Kept flags cwd s) (hin : s.pc.inLoop = true) (hsame : Same s t)
    (hok : Orderly flags s l) : Leads flags cwd s l (t.descend flags) := by
  unfold State.descend
  split_ifs
  · refine go h ?_ ?_ ?_ ?_ (iff_of_true trivial (soundAt_of_inLoop hin)) hok
    · rw [leaked_of_not_inLoop rfl, leaked_of_inLoop hin]
      dsimp only
      rw [hsame.streams, hsame.stack, List.length_cons]
      omega
    · change (t.cwd :: t.cwds).getLast? = some cwd
      rw [hsame.cwds]
      exact h.bottom
    · exact fun hflag => hsame.cwd.trans (h.still hflag)
    · exact fun hstack => absurd hstack (List.cons_ne_nil _ _)
  · exact stay h hin ⟨hsame.1, hsame.2, hsame.3, hsame.4⟩ rfl trivial hok
  · exact next h hin hsame hok

/-- A `return` from the loop. -/
theorem early (hnonneg : 0 < (t.streams : ℤ) - t.stack.length)
    (hbottom : t.cwds.getLast? = some cwd) (hstill : flags.chdir = false → t.cwd = cwd)
    (hnot : ¬ (Sound cwd s ∧ Orderly flags s l)) : Leads flags cwd s l (t.early flags) := by
  unfold State.early
  split_ifs with hflag
  · refine leak ?_ hbottom hstill ⟨hflag, ?_⟩ hnot
    · rwa [leaked_of_not_inLoop rfl]
    · rwa [leaked_of_not_inLoop rfl]
  · refine leak ?_ hbottom hstill trivial hnot
    rwa [leaked_of_not_inLoop rfl]

theorem callThen (h : Kept flags cwd s) (hin : s.pc.inLoop = true) (hsame : Same s t)
    (flag : CallFlag) (info : Option TreeWalk.FTW) (v : ℤ) {next : State δ → State δ}
    (hnext : ∀ u : State δ, Same s u → v = 0 → Leads flags cwd s (.func v) (next u)) :
    Leads flags cwd s (.func v) (t.callThen flags flag info v next) := by
  have hcall : Same s (t.call flag info v) := ⟨hsame.1, hsame.2, hsame.3, hsame.4⟩
  unfold State.callThen
  split_ifs with hv
  · refine early ?_ (hcall.cwds ▸ h.bottom) (fun hflag => hcall.cwd.trans (h.still hflag)) ?_
    · have hnonneg := h.leaked_nonneg
      rw [leaked_of_inLoop hin] at hnonneg
      rw [hcall.streams, hcall.stack]
      omega
    · exact fun hboth => hv hboth.2
  · exact hnext _ hcall (not_not.1 hv)

/-! ### The steps -/

theorem stat (h : Kept flags cwd s) (hpc : s.pc = .stat) (st_dev : Option (BitVec 64)) :
    Leads flags cwd s (.stat st_dev) (onStat flags s st_dev) := by
  have hloop : s.pc.inLoop = false := by rw [hpc]; rfl
  have hat : SoundAt cwd s s.pc := by rw [hpc]; trivial
  have hhere : s.stack = [] → s.cwd = cwd := h.of_pc hpc
  cases st_dev with
  | none =>
    refine fail h hloop hat ⟨fun hok => ⟨hok rfl, hhere (hok rfl)⟩, fun hboth _ => hboth.1⟩
  | some st_dev =>
    have hok : Orderly flags s (.stat (some st_dev)) := fun hnone => absurd hnone (by simp)
    dsimp only [onStat]
    split_ifs with hflag
    · exact ahead h hloop hat rfl rfl rfl h.bottom h.still ⟨hflag, hhere⟩ trivial hok
    · exact overrun h
    · exact ahead h hloop hat rfl rfl rfl h.bottom h.still trivial trivial hok

theorem getcwd (h : Kept flags cwd s) (hpc : s.pc = .getcwd) (ok : Bool) :
    Leads flags cwd s (.getcwd ok) (onGetcwd s ok) := by
  have hloop : s.pc.inLoop = false := by rw [hpc]; rfl
  have hat : SoundAt cwd s s.pc := by rw [hpc]; trivial
  obtain ⟨hflag, hhere⟩ : flags.chdir = true ∧ (s.stack = [] → s.cwd = cwd) := h.of_pc hpc
  cases ok with
  | false => exact fail h hloop hat ⟨fun hok => ⟨hok rfl, hhere (hok rfl)⟩, fun hboth _ => hboth.1⟩
  | true =>
    refine ahead h hloop hat rfl rfl rfl ?_ h.still ⟨hflag, hhere⟩ trivial fun hne => ?_
    · have hbottom := h.bottom
      change (s.cwd :: s.stack.map Frame.cwd).getLast? = some cwd
      rw [State.cwds] at hbottom
      cases hstack : s.stack with
      | nil => rw [hhere hstack]; rfl
      | cons frame stack => rwa [hstack] at hbottom
    · exact absurd hne (by decide)

theorem chdir (h : Kept flags cwd s) (hpc : s.pc = .chdir) (dir : Option δ) :
    Leads flags cwd s (.chdir dir) (onChdir s dir) := by
  have hloop : s.pc.inLoop = false := by rw [hpc]; rfl
  have hat : SoundAt cwd s s.pc := by rw [hpc]; trivial
  obtain ⟨hflag, hhere⟩ : flags.chdir = true ∧ (s.stack = [] → s.cwd = cwd) := h.of_pc hpc
  cases dir with
  | none => exact fail h hloop hat ⟨fun hok => ⟨hok rfl, hhere (hok rfl)⟩, fun hboth _ => hboth.1⟩
  | some dir =>
    refine ahead h hloop hat rfl rfl rfl h.bottom (fun hnot => ?_) trivial trivial fun hnone => ?_
    · exact absurd (hnot.symm.trans hflag) Bool.false_ne_true
    · exact absurd hnone (by simp)

/-- The step lemma for `opendir`, behind which a failure leaves the process where it is. -/
theorem opendir (h : Kept flags cwd s) (hpc : s.pc = .opendir) (ok : Bool) :
    Leads flags cwd s (.opendir ok) (onOpendir s ok) := by
  have hloop : s.pc.inLoop = false := by rw [hpc]; rfl
  have hat : SoundAt cwd s s.pc := by rw [hpc]; trivial
  have hleaked := leaked_of_not_inLoop hloop
  cases ok with
  | false =>
    refine fail h hloop hat ⟨fun hok => ⟨hok.1, ?_⟩, fun hboth => ⟨hboth.1, fun _ => ?_⟩⟩
    · cases hflag : flags.chdir with
      | false => exact h.still hflag
      | true => exact (hok.2 hflag).trans (h.bottom_frame hok.1)
    · exact hboth.2.trans (h.bottom_frame hboth.1).symm
  | true =>
    dsimp only [onOpendir]
    rw [if_pos rfl]
    split_ifs with hneg
    · refine leak ?_ h.bottom h.still trivial fun hboth => ?_
      · rw [leaked_of_not_inLoop rfl]
        have hnonneg := h.leaked_nonneg
        change 0 < ((s.streams + 1 : ℕ) : ℤ) - s.stack.length
        omega
      · have hpos : 0 < s.frame.descriptors := hboth.2
        omega
    · refine go h ?_ h.bottom h.still trivial (iff_of_true trivial hat) ?_
      · rw [leaked_of_inLoop rfl, hleaked]
        change ((s.streams + 1 : ℕ) : ℤ) - s.stack.length - 1 = _
        omega
      · change 0 < s.frame.descriptors
        omega

theorem readdir (h : Kept flags cwd s) (hpc : s.pc = .readdir) (entry : Entry) :
    Leads flags cwd s (.readdir entry) (onReaddir flags s entry) := by
  have hin : s.pc.inLoop = true := by rw [hpc]; rfl
  cases entry with
  | error => exact stay h hin ⟨rfl, rfl, rfl, rfl⟩ hin h.here trivial
  | eof =>
    dsimp only [onReaddir]
    split_ifs with hflag
    · exact stay h hin ⟨rfl, rfl, rfl, rfl⟩ rfl hflag trivial
    · have hstill := h.still (Bool.eq_false_of_not_eq_true hflag)
      refine go h ?_ h.bottom h.still trivial (iff_of_true ?_ (soundAt_of_inLoop hin)) trivial
      · have hnonneg := h.leaked_nonneg
        rw [leaked_of_inLoop hin] at hnonneg
        rw [leaked_of_inLoop hin, leaked_of_not_inLoop rfl]
        change ((s.streams - 1 : ℕ) : ℤ) - s.stack.length = _
        omega
      · change if s.stack = [] then s.cwd = cwd else (0 : ℤ) = 0
        split_ifs
        · exact hstill
        · rfl
  | name d_name =>
    dsimp only [onReaddir]
    split_ifs
    · exact overrun h
    · exact stay h hin ⟨rfl, rfl, rfl, rfl⟩ rfl trivial trivial

theorem statEntry (h : Kept flags cwd s) (hpc : s.pc = .statEntry)
    (st : Option (BitVec 64 × FileType)) :
    Leads flags cwd s (.statEntry st) (onStatEntry flags s st) := by
  have hin : s.pc.inLoop = true := by rw [hpc]; rfl
  obtain hnext | haccess | ⟨f, hfile⟩ := onStatEntry_cases flags s st
  · rw [hnext]
    exact next h hin ⟨rfl, rfl, rfl, rfl⟩ trivial
  · rw [haccess]
    exact stay h hin ⟨rfl, rfl, rfl, rfl⟩ rfl trivial trivial
  · rw [hfile]
    exact stay h hin ⟨rfl, rfl, rfl, rfl⟩ rfl trivial trivial

theorem access (h : Kept flags cwd s) (hpc : s.pc = .access) (r : Access) :
    Leads flags cwd s (.access r) (onAccess flags s r) := by
  have hin : s.pc.inLoop = true := by rw [hpc]; rfl
  have hflag (f : CallFlag) : Leads flags cwd s (.access r) (withFlag flags s f) := by
    unfold withFlag
    split_ifs
    · exact descend h hin ⟨rfl, rfl, rfl, rfl⟩ trivial
    · exact stay h hin ⟨rfl, rfl, rfl, rfl⟩ rfl trivial trivial
  cases r with
  | ok => exact hflag _
  | denied => exact next h hin ⟨rfl, rfl, rfl, rfl⟩ trivial
  | failed => exact hflag _

theorem abandon (h : Kept flags cwd s) (hpc : s.pc = .abandon) (ok : Bool) :
    Leads flags cwd s (.chdirBack ok) (onAbandon s ok) := by
  obtain ⟨hflag, hpos⟩ : flags.chdir = true ∧ 0 < s.leaked := h.of_pc hpc
  have hleaked := leaked_of_not_inLoop (s := s) (by rw [hpc]; rfl)
  have hnot : ¬ (Sound cwd s ∧ Orderly flags s (.chdirBack ok)) :=
    fun hboth => hpos.ne' hboth.1.1
  have hstill : flags.chdir = false → s.frame.cwd = cwd := fun hfalse =>
    absurd (hfalse.symm.trans hflag) Bool.false_ne_true
  rw [hleaked] at hpos
  cases ok with
  | false =>
    refine leak ?_ h.bottom h.still trivial hnot
    rw [leaked_of_not_inLoop rfl]
    exact hpos
  | true =>
    refine leak ?_ h.bottom hstill trivial hnot
    rw [leaked_of_not_inLoop rfl]
    exact hpos

theorem finish (h : Kept flags cwd s) (hpc : s.pc = .finish) (ok : Bool) :
    Leads flags cwd s (.chdirBack ok) (onFinish s ok) := by
  have hflag : flags.chdir = true := h.of_pc hpc
  have hin : s.pc.inLoop = true := by rw [hpc]; rfl
  have hnonneg := h.leaked_nonneg
  rw [leaked_of_inLoop hin] at hnonneg
  cases ok with
  | false =>
    refine leak ?_ h.bottom h.still trivial fun hboth => absurd hboth.2 Bool.false_ne_true
    rw [leaked_of_not_inLoop rfl]
    change 0 < (s.streams : ℤ) - s.stack.length
    omega
  | true =>
    refine go h ?_ h.bottom (fun hfalse => ?_) trivial ?_ rfl
    · rw [leaked_of_inLoop hin, leaked_of_not_inLoop rfl]
      change ((s.streams - 1 : ℕ) : ℤ) - s.stack.length = _
      omega
    · exact absurd (hfalse.symm.trans hflag) Bool.false_ne_true
    · refine iff_of_true ?_ (soundAt_of_inLoop hin)
      change if s.stack = [] then s.frame.cwd = cwd else (0 : ℤ) = 0
      split_ifs with hstack
      · exact h.bottom_frame hstack
      · rfl

/-- The step lemma for the return to the level above, which loses its stream unless it gets 0. -/
theorem leave (h : Kept flags cwd s) {r : ℤ} (hpc : s.pc = .ret r) :
    Leads flags cwd s .leave (onLeave flags s r) := by
  have hat : SoundAt cwd s s.pc ↔ if s.stack = [] then s.cwd = cwd else r = 0 := by
    rw [hpc]
    rfl
  have hleaked := leaked_of_not_inLoop (s := s) (by rw [hpc]; rfl)
  have hnonneg := h.leaked_nonneg
  rw [hleaked] at hnonneg
  unfold onLeave
  split
  · rename_i hstack
    refine go h ?_ h.bottom h.still hstack (hat.trans (by rw [if_pos hstack]; rfl)).symm trivial
    exact (leaked_of_not_inLoop rfl).trans hleaked.symm
  · rename_i frame stack hstack
    have hbottom : (frame.cwd :: stack.map Frame.cwd).getLast? = some cwd := by
      have hbottom := h.bottom
      rwa [State.cwds, hstack] at hbottom
    rw [hstack, if_neg (List.cons_ne_nil _ _)] at hat
    rw [hstack, List.length_cons] at hleaked hnonneg
    split_ifs with hr hdepth
    · refine early ?_ hbottom h.still fun hboth => hr (hat.1 hboth.1.2)
      change 0 < (s.streams : ℤ) - stack.length
      omega
    · refine go h ?_ hbottom h.still trivial (iff_of_true trivial (hat.2 (not_not.1 hr))) trivial
      rw [leaked_of_inLoop rfl, hleaked]
      change (s.streams : ℤ) - stack.length - 1 = _
      omega
    · refine go h ?_ hbottom h.still trivial (iff_of_true trivial (hat.2 (not_not.1 hr))) trivial
      rw [leaked_of_inLoop rfl, hleaked]
      change (s.streams : ℤ) - stack.length - 1 = _
      omega

/-- **The step lemma.** -/
theorem of_step (h : Kept flags cwd s) (hs : step flags s l = some t) :
    Leads flags cwd s l t := by
  cases Step.of_step hs with
  | stat st_dev hpc => exact stat h hpc st_dev
  | getcwd ok hpc => exact getcwd h hpc ok
  | chdir dir hpc => exact chdir h hpc dir
  | opendir ok hpc => exact opendir h hpc ok
  | readdir entry hpc => exact readdir h hpc entry
  | statEntry st hpc => exact statEntry h hpc st
  | access r hpc => exact access h hpc r
  | preorder v hpc =>
    have hin : s.pc.inLoop = true := by rw [hpc]; rfl
    exact callThen h hin ⟨rfl, rfl, rfl, rfl⟩ _ _ _ fun u hu hv => descend h hin hu hv
  | postorder v hpc =>
    have hin : s.pc.inLoop = true := by rw [hpc]; rfl
    refine callThen h hin ?_ _ _ _ fun u hu hv => next h hin hu hv
    exact ⟨rfl, rfl, rfl, rfl⟩
  | file v hpc =>
    have hin : s.pc.inLoop = true := by rw [hpc]; rfl
    exact callThen h hin ⟨rfl, rfl, rfl, rfl⟩ _ _ _ fun u hu hv => next h hin hu hv
  | abandon ok hpc => exact abandon h hpc ok
  | finish ok hpc => exact finish h hpc ok
  | leave r hpc => exact leave h hpc

end Leads

end

/-! ## A whole walk -/

theorem kept_init (flags : Flags) (dir : Pathname) (descriptors : ℤ) (cwd : δ) :
    Kept flags cwd (mynftw flags dir descriptors cwd).init :=
  ⟨le_rfl, rfl, fun _ => rfl, fun _ => rfl⟩

theorem ne_fault_of_step {flags : Flags} {s t : State δ} {l : Answer δ}
    (h : step flags s l = some t) : s.pc ≠ .fault := by
  intro hpc
  cases Step.of_step h
  all_goals
    rename_i hother
    rw [hpc] at hother
    cases hother

/-- **What a walk leaves behind**: a walk that has returned has left the process in its directory
and has closed every stream if and only if all its steps were orderly. -/
theorem mynftw_restores_iff (flags : Flags) (dir : Pathname) (descriptors : ℤ) (cwd : δ)
    {answers : List (Answer δ)} {s : State δ}
    (hrun : (mynftw flags dir descriptors cwd).run (mynftw flags dir descriptors cwd).init answers =
      some s) {r : ℤ} (hdone : s.pc = .done r) :
    Restored cwd s ↔ (mynftw flags dir descriptors cwd).Meets (Orderly flags)
      (mynftw flags dir descriptors cwd).init answers := by
  have hkept : Kept flags cwd s :=
    (Machine.Reachable.run .init answers hrun).invariant (kept_init flags dir descriptors cwd)
      fun _ _ _ hinv _ hstep => (Leads.of_step hinv hstep).kept
  have hsound : Sound cwd s ↔ Sound cwd (mynftw flags dir descriptors cwd).init ∧
      (mynftw flags dir descriptors cwd).Meets (Orderly flags)
        (mynftw flags dir descriptors cwd).init answers :=
    Machine.run_iff_meets (L := fun s : State δ => s.pc ≠ .fault)
      (fun _ _ _ hinv hstep => (Leads.of_step hinv hstep).kept)
      (fun _ _ _ hstep => ne_fault_of_step hstep)
      (fun _ _ _ hinv hlive hstep => (Leads.of_step hinv hstep).sound_iff hlive)
      (kept_init flags dir descriptors cwd) (by rw [hdone]; exact fun h => by cases h) hrun
  rw [and_iff_right ⟨rfl, trivial⟩] at hsound
  rw [← hsound]
  have hstack : s.stack = [] := hkept.of_pc hdone
  have hat : SoundAt cwd s s.pc ↔ s.cwd = cwd := by rw [hdone]; rfl
  have hleaked : s.leaked = s.streams := by
    rw [leaked_of_not_inLoop (by rw [hdone]; rfl), hstack]
    exact Int.sub_zero _
  rw [Restored, Sound, hat, hleaked, and_comm]
  exact and_congr_left' Int.natCast_eq_zero.symm

/-- The directory `a` with a directory in it, with `FTW_CHDIR`. -/
def chdirAnswers : List (Answer ℕ) :=
  [.stat (some 1), .getcwd true, .chdir (some 1), .opendir true, .readdir (.name [98]),
    .statEntry (some (1, .dir)), .access .ok, .func 0, .stat (some 1), .getcwd true,
    .chdir (some 2), .opendir true, .readdir .eof, .chdirBack true, .leave, .readdir .eof,
    .chdirBack true, .leave]

/-- A stream stays open when the callback does not return 0, and the process stays in `a` when
`opendir` fails with `FTW_CHDIR`. -/
theorem mynftw_leaves :
    (∃ s, (mynftw ⟨true, false, false⟩ pathA 5 0).Reachable s ∧ s.pc = .done 0 ∧
      s.streams = 1 ∧ ¬ Restored 0 s) ∧
    ∃ s, (mynftw ⟨true, true, false⟩ pathA 5 0).Reachable s ∧ s.pc = .done (-1) ∧
      s.cwd = 1 ∧ ¬ Restored 0 s :=
  ⟨⟨_, Machine.Reachable.run .init [.stat (some 1), .opendir true, .readdir (.name [98]),
      .statEntry (some (1, .other)), .func 7, .leave] rfl, rfl, rfl, fun h => by cases h.2⟩,
    ⟨_, Machine.Reachable.run .init [.stat (some 1), .getcwd true, .chdir (some 1),
      .opendir false, .leave] rfl, rfl, rfl, fun h => by cases h.1⟩⟩

theorem mynftw_restores_iff_chdir : ∃ s, (mynftw ⟨true, true, false⟩ pathA 5 0).run
      (mynftw ⟨true, true, false⟩ pathA 5 0).init chdirAnswers = some s ∧ s.pc = .done 0 ∧
      Restored 0 s ∧ (mynftw ⟨true, true, false⟩ pathA 5 0).Meets (Orderly ⟨true, true, false⟩)
        (mynftw ⟨true, true, false⟩ pathA 5 0).init chdirAnswers := by
  obtain ⟨s, hrun, hdone, hcwd, hstreams⟩ : ∃ s, (mynftw ⟨true, true, false⟩ pathA 5 0).run
      (mynftw ⟨true, true, false⟩ pathA 5 0).init chdirAnswers = some s ∧ s.pc = .done 0 ∧
      s.cwd = 0 ∧ s.streams = 0 := ⟨_, rfl, rfl, rfl, rfl⟩
  have hrestored : Restored 0 s := ⟨hcwd, hstreams⟩
  exact ⟨s, hrun, hdone, hrestored, (mynftw_restores_iff _ _ _ _ hrun hdone).1 hrestored⟩

end TlpiLearn.TreeWalkSteps
