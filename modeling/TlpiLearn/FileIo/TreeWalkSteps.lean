import TlpiLearn.Foundations.Machine
import TlpiLearn.FileIo.TreeWalk
import Mathlib.Tactic

/-!
# `nftw` step by step

`mynftw` of `18/8/18_8.c` with all its flags and with every answer of the system and of the
callback, as a machine whose labels are these answers. The calls of `_ftw_rec` are frames on a
stack, and the state has what is left behind: the directory of the process, the number of open
streams, the entries that were read and the calls of the callback with their results.

The value of a callback is lost: the loop is left with `ret_value`, which is 0 there, so that the
level above goes on (`mynftw_stops_iff`).
-/

namespace TlpiLearn.TreeWalkSteps

open TreeWalk (temp skips withSlash FTW Pathname)

/-- `FTW_PHYS`, `FTW_CHDIR` and `FTW_DEPTH`. -/
structure Flags where
  phys : Bool
  chdir : Bool
  depth : Bool

/-- The type in `st_mode`. -/
inductive FileType
  | dir
  | link
  | other

/-- The types of the calls. -/
inductive CallFlag
  | FTW_F
  | FTW_D
  | FTW_DNR
  | FTW_DP
  | FTW_SL
  | FTW_SLN
  deriving DecidableEq

/-- What `readdir` returns: the name of an entry, or a null pointer without or with an error. -/
inductive Entry
  | name (d_name : List UInt8)
  | eof
  | error

/-- What `access` returns; a failure sets `errno` or not. -/
inductive Access
  | ok
  | denied
  | failed

/-- The answers of the system and of the callback; `leave` is the return from a recursive call. -/
inductive Answer (δ : Type*)
  | stat (st_dev : Option (BitVec 64))
  | getcwd (ok : Bool)
  | chdir (dir : Option δ)
  | opendir (ok : Bool)
  | readdir (entry : Entry)
  | statEntry (st : Option (BitVec 64 × FileType))
  | access (r : Access)
  | func (v : ℤ)
  | chdirBack (ok : Bool)
  | leave

/-- Where `_ftw_rec` is. -/
inductive Pc
  | stat
  | getcwd
  | chdir
  | opendir
  | readdir
  | statEntry
  | access
  | preorder
  | postorder
  | file
  /-- The `chdir` in front of a `return ret_value`. -/
  | abandon
  /-- The `chdir` behind the loop. -/
  | finish
  | ret (r : ℤ)
  /-- `mynftw` has returned. -/
  | done (r : ℤ)
  /-- A path has overrun its array. -/
  | fault

/-- The variables of a call of `_ftw_rec`; `cwd` is the directory whose name `getcwd` stores. -/
structure Frame (δ : Type*) where
  pathname : List UInt8
  level : ℕ
  descriptors : ℤ
  ret_value : ℤ
  dev : BitVec 32
  path : List UInt8
  cwd : δ
  d_name : List UInt8
  temp : List UInt8
  f : CallFlag

/-- A call of the callback for an entry of a directory, with its result. -/
structure Call where
  level : ℕ
  d_name : List UInt8
  filename : List UInt8
  flag : CallFlag
  info : Option FTW
  result : ℤ

/-- The current call of `_ftw_rec` and those that wait for it, the directory of the process, the
open streams, and what was read and called so far. -/
structure State (δ : Type*) where
  cwd : δ
  streams : ℕ
  reads : List (ℕ × List UInt8)
  log : List Call
  pc : Pc
  frame : Frame δ
  stack : List (Frame δ)

variable {δ : Type*}

/-- The variables at a call of `_ftw_rec`. -/
def enter (pathname : List UInt8) (descriptors : ℤ) (level : ℕ) (cwd : δ) : Frame δ where
  pathname := pathname
  level := level
  descriptors := descriptors
  ret_value := 0
  dev := 0
  path := []
  cwd := cwd
  d_name := []
  temp := []
  f := .FTW_F

namespace State

/-- `return r`. -/
def ret (s : State δ) (r : ℤ) : State δ := { s with pc := .ret r }

/-- `return ret_value`, behind a `chdir` with `FTW_CHDIR`. -/
def early (flags : Flags) (s : State δ) : State δ :=
  if flags.chdir then { s with pc := .abandon } else s.ret s.frame.ret_value

/-- The assignment to `f`. -/
def setF (s : State δ) (f : CallFlag) : State δ := { s with frame := { s.frame with f := f } }

/-- A call of the callback. -/
def call (s : State δ) (flag : CallFlag) (info : Option FTW) (v : ℤ) : State δ :=
  { s with
    log := s.log ++ [{ level := s.frame.level
                       d_name := s.frame.d_name
                       filename := s.frame.temp
                       flag := flag
                       info := info
                       result := v }] }

/-- A call of the callback; the loop is left if it does not return 0. -/
def callThen (flags : Flags) (s : State δ) (flag : CallFlag) (info : Option FTW) (v : ℤ)
    (next : State δ → State δ) : State δ :=
  if v ≠ 0 then (s.call flag info v).early flags else next (s.call flag info v)

/-- The next entry. -/
def next (s : State δ) : State δ := { s with pc := .readdir }

/-- The way into a directory other than `.`, and behind it. -/
def descend (flags : Flags) (s : State δ) : State δ :=
  if s.frame.d_name ≠ [dot] then
    { s with
      pc := .stat
      frame := enter s.frame.temp s.frame.descriptors (s.frame.level + 1) s.cwd
      stack := s.frame :: s.stack }
  else if flags.depth then { s with pc := .postorder }
  else s.next

end State

open State

def onStat (flags : Flags) (s : State δ) : Option (BitVec 64) → State δ
  | none => s.ret (-1)
  | some st_dev =>
    let frame := { s.frame with dev := st_dev.setWidth 32 }
    if flags.chdir then { s with pc := .getcwd, frame := frame }
    else if PATH_MAX < (withSlash s.frame.pathname).length + 1 then { s with pc := .fault }
    else { s with pc := .opendir, frame := { frame with path := withSlash s.frame.pathname } }

def onGetcwd (s : State δ) (ok : Bool) : State δ :=
  if ok then { s with pc := .chdir, frame := { s.frame with cwd := s.cwd } } else s.ret (-1)

def onChdir (s : State δ) : Option δ → State δ
  | none => s.ret (-1)
  | some dir => { s with pc := .opendir, cwd := dir }

def onOpendir (s : State δ) (ok : Bool) : State δ :=
  if ok then
    let s :=
      { s with
        streams := s.streams + 1
        frame := { s.frame with descriptors := s.frame.descriptors - 1 } }
    if s.frame.descriptors < 0 then s.ret (-1) else s.next
  else s.ret (-1)

def onReaddir (flags : Flags) (s : State δ) : Entry → State δ
  | .error => s
  | .eof =>
    if flags.chdir then { s with pc := .finish }
    else { s with streams := s.streams - 1 }.ret 0
  | .name d_name =>
    let temp := temp s.frame.path d_name
    if PATH_MAX < temp.length + 1 then { s with pc := .fault }
    else
      { s with
        pc := .statEntry
        reads := s.reads ++ [(s.frame.level, d_name)]
        frame := { s.frame with d_name := d_name, temp := temp } }

/-- `f` for an entry that is no directory. -/
def fileFlag (flags : Flags) : FileType → CallFlag
  | .link => if flags.phys then .FTW_SL else .FTW_SLN
  | .dir => .FTW_F
  | .other => .FTW_F

def onStatEntry (flags : Flags) (s : State δ) : Option (BitVec 64 × FileType) → State δ
  | none => s.next
  | some (st_dev, type) =>
    if st_dev ≠ s.frame.dev.signExtend 64 then s.next
    else if s.frame.d_name = [dot, dot] then s.next
    else
      match type with
      | .dir =>
        if skips s.frame.level s.frame.temp s.frame.d_name then s.next
        else { s with pc := .access }
      | .link => { s with pc := .file }.setF (fileFlag flags .link)
      | .other => { s with pc := .file }.setF (fileFlag flags .other)

/-- A directory whose type is known. -/
def withFlag (flags : Flags) (s : State δ) (f : CallFlag) : State δ :=
  if flags.depth then (s.setF f).descend flags else { s.setF f with pc := .preorder }

def onAccess (flags : Flags) (s : State δ) : Access → State δ
  | .ok => withFlag flags s .FTW_D
  | .denied => s.next
  | .failed => withFlag flags s .FTW_DNR

def onPreorder (flags : Flags) (s : State δ) (v : ℤ) : State δ :=
  s.callThen flags s.frame.f none v (descend flags)

def onPostorder (flags : Flags) (s : State δ) (v : ℤ) : State δ :=
  let f := if s.frame.f ≠ .FTW_DNR then .FTW_DP else s.frame.f
  (s.setF f).callThen flags f none v next

def onFile (flags : Flags) (s : State δ) (v : ℤ) : State δ :=
  s.callThen flags s.frame.f
    (some { base := s.frame.path.length, level := s.frame.level }) v next

def onAbandon (s : State δ) (ok : Bool) : State δ :=
  if ok then { s with cwd := s.frame.cwd }.ret s.frame.ret_value else s.ret (-1)

def onFinish (s : State δ) (ok : Bool) : State δ :=
  if ok then { s with cwd := s.frame.cwd, streams := s.streams - 1 }.ret 0 else s.ret (-1)

/-- The return to the level above, or from `mynftw`. -/
def onLeave (flags : Flags) (s : State δ) (r : ℤ) : State δ :=
  match s.stack with
  | [] => { s with pc := .done r }
  | frame :: stack =>
    let s := { s with frame := { frame with ret_value := r }, stack := stack }
    if r ≠ 0 then s.early flags
    else if flags.depth then { s with pc := .postorder }
    else s.next

/-- A step of `_ftw_rec`. -/
def step (flags : Flags) (s : State δ) (l : Answer δ) : Option (State δ) :=
  match s.pc, l with
  | .stat, .stat st_dev => some (onStat flags s st_dev)
  | .getcwd, .getcwd ok => some (onGetcwd s ok)
  | .chdir, .chdir dir => some (onChdir s dir)
  | .opendir, .opendir ok => some (onOpendir s ok)
  | .readdir, .readdir entry => some (onReaddir flags s entry)
  | .statEntry, .statEntry st => some (onStatEntry flags s st)
  | .access, .access r => some (onAccess flags s r)
  | .preorder, .func v => some (onPreorder flags s v)
  | .postorder, .func v => some (onPostorder flags s v)
  | .file, .func v => some (onFile flags s v)
  | .abandon, .chdirBack ok => some (onAbandon s ok)
  | .finish, .chdirBack ok => some (onFinish s ok)
  | .ret r, .leave => some (onLeave flags s r)
  | _, _ => none

/-- `mynftw` in the directory `cwd`. -/
def mynftw (flags : Flags) (dir : Pathname) (descriptors : ℤ) (cwd : δ) :
    Machine (State δ) (Answer δ) where
  init :=
    { cwd := cwd
      streams := 0
      reads := []
      log := []
      pc := .stat
      frame := enter dir.1 descriptors 0 cwd
      stack := [] }
  step := step flags

/-! ## Steps -/

/-- **A step**: the place, the answer, and what is done with it. -/
inductive Step (flags : Flags) (s : State δ) : Answer δ → State δ → Prop
  | stat (st_dev : Option (BitVec 64)) (hpc : s.pc = .stat) :
    Step flags s (.stat st_dev) (onStat flags s st_dev)
  | getcwd (ok : Bool) (hpc : s.pc = .getcwd) : Step flags s (.getcwd ok) (onGetcwd s ok)
  | chdir (dir : Option δ) (hpc : s.pc = .chdir) : Step flags s (.chdir dir) (onChdir s dir)
  | opendir (ok : Bool) (hpc : s.pc = .opendir) : Step flags s (.opendir ok) (onOpendir s ok)
  | readdir (entry : Entry) (hpc : s.pc = .readdir) :
    Step flags s (.readdir entry) (onReaddir flags s entry)
  | statEntry (st : Option (BitVec 64 × FileType)) (hpc : s.pc = .statEntry) :
    Step flags s (.statEntry st) (onStatEntry flags s st)
  | access (r : Access) (hpc : s.pc = .access) : Step flags s (.access r) (onAccess flags s r)
  | preorder (v : ℤ) (hpc : s.pc = .preorder) : Step flags s (.func v) (onPreorder flags s v)
  | postorder (v : ℤ) (hpc : s.pc = .postorder) : Step flags s (.func v) (onPostorder flags s v)
  | file (v : ℤ) (hpc : s.pc = .file) : Step flags s (.func v) (onFile flags s v)
  | abandon (ok : Bool) (hpc : s.pc = .abandon) : Step flags s (.chdirBack ok) (onAbandon s ok)
  | finish (ok : Bool) (hpc : s.pc = .finish) : Step flags s (.chdirBack ok) (onFinish s ok)
  | leave (r : ℤ) (hpc : s.pc = .ret r) : Step flags s .leave (onLeave flags s r)

theorem Step.of_step {flags : Flags} {s s' : State δ} {l : Answer δ}
    (h : step flags s l = some s') : Step flags s l s' := by
  unfold step at h
  split at h
  all_goals cases h
  case h_1 hpc => exact .stat _ hpc
  case h_2 hpc => exact .getcwd _ hpc
  case h_3 hpc => exact .chdir _ hpc
  case h_4 hpc => exact .opendir _ hpc
  case h_5 hpc => exact .readdir _ hpc
  case h_6 hpc => exact .statEntry _ hpc
  case h_7 hpc => exact .access _ hpc
  case h_8 hpc => exact .preorder _ hpc
  case h_9 hpc => exact .postorder _ hpc
  case h_10 hpc => exact .file _ hpc
  case h_11 hpc => exact .abandon _ hpc
  case h_12 hpc => exact .finish _ hpc
  case h_13 hpc => exact .leave _ hpc

theorem early_of_not_chdir {flags : Flags} (h : flags.chdir = false) (s : State δ) :
    s.early flags = s.ret s.frame.ret_value := by
  rw [early, h, if_neg Bool.false_ne_true]

theorem onStat_of_not_chdir {flags : Flags} (h : flags.chdir = false) (s : State δ)
    (st_dev : BitVec 64) :
    onStat flags s (some st_dev) =
      if PATH_MAX < (withSlash s.frame.pathname).length + 1 then { s with pc := .fault }
      else
        { s with
          pc := .opendir
          frame := { s.frame with
            dev := st_dev.setWidth 32
            path := withSlash s.frame.pathname } } := by
  simp only [onStat, h, if_neg Bool.false_ne_true]

theorem onReaddir_eof_of_not_chdir {flags : Flags} (h : flags.chdir = false) (s : State δ) :
    onReaddir flags s .eof = { s with streams := s.streams - 1 }.ret 0 := by
  simp only [onReaddir, h, if_neg Bool.false_ne_true]

/-- An entry is left out, or it is a directory that gets through the tests, or no directory. -/
theorem onStatEntry_cases (flags : Flags) (s : State δ) (st : Option (BitVec 64 × FileType)) :
    onStatEntry flags s st = s.next ∨ onStatEntry flags s st = { s with pc := .access } ∨
      ∃ f, onStatEntry flags s st = { s with pc := .file }.setF f := by
  cases st with
  | none => exact .inl rfl
  | some st =>
    obtain ⟨st_dev, type⟩ := st
    dsimp only [onStatEntry]
    by_cases hdev : st_dev ≠ s.frame.dev.signExtend 64
    · exact .inl (if_pos hdev)
    · rw [if_neg hdev]
      by_cases hdots : s.frame.d_name = [dot, dot]
      · exact .inl (if_pos hdots)
      · rw [if_neg hdots]
        cases type with
        | dir =>
          by_cases hskips : skips s.frame.level s.frame.temp s.frame.d_name
          · exact .inl (if_pos hskips)
          · exact .inr (.inl (if_neg hskips))
        | link => exact .inr (.inr ⟨_, rfl⟩)
        | other => exact .inr (.inr ⟨_, rfl⟩)

/-! ## The value of the callback -/

/-- The last call has returned 0. -/
def LastZero (log : List Call) : Prop := ∀ c, log.getLast? = some c → c.result = 0

theorem lastZero_nil : LastZero [] := fun _ h => absurd h (by simp)

theorem lastZero_concat {log : List Call} {c : Call} (h : c.result = 0) :
    LastZero (log ++ [c]) := by
  intro d hd
  rw [List.getLast?_concat] at hd
  rwa [← Option.some.inj hd]

/-- **What holds in a walk without `FTW_CHDIR`**: a directory is entered only behind a call that
has returned 0, and a value other than 0 is returned only behind such a call. -/
def ZeroAt (depth : Bool) (s : State δ) : Pc → Prop
  | .stat => s.frame.ret_value = 0 ∧ LastZero s.log
  | .opendir => s.frame.ret_value = 0 ∧ LastZero s.log
  | .readdir => s.frame.ret_value = 0 ∧ (depth = true → LastZero s.log)
  | .statEntry => s.frame.ret_value = 0 ∧ (depth = true → LastZero s.log)
  | .access => s.frame.ret_value = 0 ∧ (depth = true → LastZero s.log)
  | .preorder => s.frame.ret_value = 0
  | .postorder => s.frame.ret_value = 0
  | .file => s.frame.ret_value = 0
  | .ret r => r ≠ 0 → LastZero s.log
  | .done r => r ≠ 0 → LastZero s.log
  | .fault => True
  -- only with `FTW_CHDIR`
  | .getcwd => False
  | .chdir => False
  | .abandon => False
  | .finish => False

/-- `ZeroAt` where the walk is. -/
def Zeroed (flags : Flags) (s : State δ) : Prop := ZeroAt flags.depth s s.pc

namespace Zeroed

variable {flags : Flags} {s s' : State δ} {l : Answer δ}

theorem descend (hret : s.frame.ret_value = 0) (hlast : LastZero s.log) :
    Zeroed flags (s.descend flags) := by
  unfold State.descend
  split_ifs
  · exact ⟨rfl, hlast⟩
  · exact hret
  · exact ⟨hret, fun _ => hlast⟩

/-- The step lemma for the callback: with a value other than 0 the loop is left with 0. -/
theorem callThen (hchdir : flags.chdir = false) (hret : s.frame.ret_value = 0) (flag : CallFlag)
    (info : Option FTW) (v : ℤ) {next : State δ → State δ}
    (hnext : ∀ t : State δ, t.frame.ret_value = 0 → LastZero t.log → Zeroed flags (next t)) :
    Zeroed flags (s.callThen flags flag info v next) := by
  unfold State.callThen
  split_ifs with hv
  · rw [early_of_not_chdir hchdir]
    exact fun hne => absurd hret hne
  · exact hnext _ hret (lastZero_concat (not_not.1 hv))

theorem stat (hchdir : flags.chdir = false) (h : s.frame.ret_value = 0 ∧ LastZero s.log)
    (st_dev : Option (BitVec 64)) : Zeroed flags (onStat flags s st_dev) := by
  cases st_dev with
  | none => exact fun _ => h.2
  | some st_dev =>
    rw [onStat_of_not_chdir hchdir]
    split_ifs
    · trivial
    · exact h

theorem opendir (h : s.frame.ret_value = 0 ∧ LastZero s.log) (ok : Bool) :
    Zeroed flags (onOpendir s ok) := by
  dsimp only [onOpendir]
  split_ifs
  · exact fun _ => h.2
  · exact ⟨h.1, fun _ => h.2⟩
  · exact fun _ => h.2

theorem readdir (hchdir : flags.chdir = false) (hpc : s.pc = .readdir) (h : Zeroed flags s)
    (entry : Entry) : Zeroed flags (onReaddir flags s entry) := by
  have hat := h
  rw [Zeroed, hpc] at hat
  cases entry with
  | error => exact h
  | eof =>
    rw [onReaddir_eof_of_not_chdir hchdir]
    exact fun hne => absurd rfl hne
  | name d_name =>
    dsimp only [onReaddir]
    split_ifs
    · trivial
    · exact hat

theorem statEntry (h : s.frame.ret_value = 0 ∧ (flags.depth = true → LastZero s.log))
    (st : Option (BitVec 64 × FileType)) : Zeroed flags (onStatEntry flags s st) := by
  obtain hnext | haccess | ⟨f, hfile⟩ := onStatEntry_cases flags s st
  · rw [hnext]
    exact h
  · rw [haccess]
    exact h
  · rw [hfile]
    exact h.1

theorem withFlag (h : s.frame.ret_value = 0 ∧ (flags.depth = true → LastZero s.log))
    (f : CallFlag) : Zeroed flags (withFlag flags s f) := by
  unfold TreeWalkSteps.withFlag
  split_ifs with hdepth
  · exact descend h.1 (h.2 hdepth)
  · exact h.1

theorem access (h : s.frame.ret_value = 0 ∧ (flags.depth = true → LastZero s.log)) (r : Access) :
    Zeroed flags (onAccess flags s r) := by
  cases r with
  | ok => exact withFlag h _
  | denied => exact h
  | failed => exact withFlag h _

/-- The step lemma for the return to the level above. -/
theorem leave (hchdir : flags.chdir = false) {r : ℤ} (h : r ≠ 0 → LastZero s.log) :
    Zeroed flags (onLeave flags s r) := by
  unfold onLeave
  split
  · exact h
  · split_ifs with hr hdepth
    · rw [early_of_not_chdir hchdir]
      exact h
    · exact not_not.1 hr
    · exact ⟨not_not.1 hr, fun htrue => absurd htrue hdepth⟩

/-- **The step lemma.** -/
theorem step (hchdir : flags.chdir = false) (h : Zeroed flags s)
    (hs : step flags s l = some s') : Zeroed flags s' := by
  have hnext : ∀ t : State δ, t.frame.ret_value = 0 → LastZero t.log → Zeroed flags t.next :=
    fun _ hret hlast => ⟨hret, fun _ => hlast⟩
  have hat := h
  unfold Zeroed at hat
  cases Step.of_step hs with
  | stat st_dev hpc => rw [hpc] at hat; exact stat hchdir hat st_dev
  | getcwd ok hpc => rw [hpc] at hat; exact hat.elim
  | chdir dir hpc => rw [hpc] at hat; exact hat.elim
  | opendir ok hpc => rw [hpc] at hat; exact opendir hat ok
  | readdir entry hpc => exact readdir hchdir hpc h entry
  | statEntry st hpc => rw [hpc] at hat; exact statEntry hat st
  | access r hpc => rw [hpc] at hat; exact access hat r
  | preorder v hpc =>
    rw [hpc] at hat
    exact callThen hchdir hat _ _ _ fun t => descend
  | postorder v hpc =>
    rw [hpc] at hat
    refine callThen hchdir ?_ _ _ _ hnext
    exact hat
  | file v hpc =>
    rw [hpc] at hat
    exact callThen hchdir hat _ _ _ hnext
  | abandon ok hpc => rw [hpc] at hat; exact hat.elim
  | finish ok hpc => rw [hpc] at hat; exact hat.elim
  | leave r hpc => rw [hpc] at hat; exact leave hchdir hat

theorem of_reachable {dir : Pathname} {descriptors : ℤ} {cwd : δ} (hchdir : flags.chdir = false)
    (h : (mynftw flags dir descriptors cwd).Reachable s) : Zeroed flags s :=
  h.invariant ⟨rfl, lastZero_nil⟩ fun _ _ _ hinv _ hstep => step hchdir hinv hstep

end Zeroed

/-- A call that does not return 0 is the last one, and its value is returned. -/
def Stops (log : List Call) (r : ℤ) : Prop :=
  ∀ calls c rest, log = calls ++ c :: rest → c.result ≠ 0 → rest = [] ∧ r = c.result

/-- **The value of the callback**: without `FTW_CHDIR`, a walk that has returned was stopped by the
callback as it should be if and only if the callback did not stop it at all. -/
theorem mynftw_stops_iff (flags : Flags) (hchdir : flags.chdir = false) (dir : Pathname)
    (descriptors : ℤ) (cwd : δ) {s : State δ}
    (hs : (mynftw flags dir descriptors cwd).Reachable s) {r : ℤ} (hdone : s.pc = .done r) :
    Stops s.log r ↔ ∀ c ∈ s.log, c.result = 0 := by
  have hzero : r ≠ 0 → LastZero s.log := by
    have hinv := Zeroed.of_reachable hchdir hs
    rwa [Zeroed, hdone] at hinv
  constructor
  · intro hstops c hc
    by_contra hne
    obtain ⟨calls, rest, hlog⟩ := List.append_of_mem hc
    obtain ⟨hrest, hr⟩ := hstops calls c rest hlog hne
    -- the value would be returned behind this last call
    have hlast : s.log.getLast? = some c := by rw [hlog, hrest, List.getLast?_concat]
    exact hne (hzero (hr ▸ hne) c hlast)
  · intro hall calls c rest hlog hne
    refine absurd (hall c ?_) hne
    rw [hlog]
    exact List.mem_append_right _ List.mem_cons_self

/-- The pathname `a`. -/
def pathA : Pathname := ⟨[97], by decide, by decide⟩

/-- `a` with a directory `b` and a file `c`, and a file `d` in `b`; the callback returns `v` for
this file. -/
def answers (v : ℤ) : List (Answer Unit) :=
  [.stat (some 1), .opendir true, .readdir (.name [98]), .statEntry (some (1, .dir)), .access .ok,
    .func 0, .stat (some 1), .opendir true, .readdir (.name [100]), .statEntry (some (1, .other)),
    .func v] ++ (if v = 0 then [.readdir .eof] else []) ++
  [.leave, .readdir (.name [99]), .statEntry (some (1, .other)), .func 0, .readdir .eof, .leave]

/-- The callback returns 7 for a file; it is called for one more, and 0 is returned. -/
theorem mynftw_continues : ∃ s, (mynftw ⟨true, false, false⟩ pathA 5 ()).Reachable s ∧
    s.pc = .done 0 ∧ s.log.map Call.result = [0, 7, 0] ∧ ¬ Stops s.log 0 := by
  have hmap : ((mynftw ⟨true, false, false⟩ pathA 5 ()).run
      (mynftw ⟨true, false, false⟩ pathA 5 ()).init (answers 7)).map
        (fun s => (s.pc, s.log.map Call.result)) = some (.done 0, [0, 7, 0]) := rfl
  obtain ⟨s, hrun, hend⟩ := Option.map_eq_some_iff.1 hmap
  obtain ⟨hdone, hlog⟩ := Prod.mk.inj hend
  refine ⟨s, Machine.Reachable.run .init _ hrun, hdone, hlog, fun hstops => ?_⟩
  -- the second call is the one that returns 7
  obtain ⟨first, rest, hfirst, -, hrest⟩ := List.map_eq_cons_iff.1 hlog
  obtain ⟨c, last, rfl, hc, -⟩ := List.map_eq_cons_iff.1 hrest
  have hzero := (hstops [first] c last hfirst (by rw [hc]; decide)).2
  rw [hc] at hzero
  exact absurd hzero (by decide)

theorem mynftw_stops_iff_zero : ∃ s, (mynftw ⟨true, false, false⟩ pathA 5 ()).Reachable s ∧
    s.pc = .done 0 ∧ s.log.map Call.result = [0, 0, 0] ∧ Stops s.log 0 := by
  have hmap : ((mynftw ⟨true, false, false⟩ pathA 5 ()).run
      (mynftw ⟨true, false, false⟩ pathA 5 ()).init (answers 0)).map
        (fun s => (s.pc, s.log.map Call.result)) = some (.done 0, [0, 0, 0]) := rfl
  obtain ⟨s, hrun, hend⟩ := Option.map_eq_some_iff.1 hmap
  obtain ⟨hdone, hlog⟩ := Prod.mk.inj hend
  have hs := Machine.Reachable.run .init _ hrun
  refine ⟨s, hs, hdone, hlog, (mynftw_stops_iff _ rfl _ _ _ hs hdone).2 fun c hc => ?_⟩
  have hmem := List.mem_map_of_mem (f := Call.result) hc
  rw [hlog] at hmem
  simpa using hmem

end TlpiLearn.TreeWalkSteps
