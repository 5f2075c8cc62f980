import TlpiLearn.FileIo.TreeWalkSteps
import Mathlib.Tactic

/-!
# The starting directory of a walk

The calls of the callback for the starting directory of `mynftw` of `18/8/18_8.c`. It has no entry
in a directory that is read, so that the only call it can get is the one for its own entry `.`. The
test of the last characters is made for the entries `.` of the directories below, and lets the one
of the starting directory through for a few spellings of its path only (`mynftw_selfCalls_iff`).
-/

namespace TlpiLearn.TreeWalkSteps

open TreeWalk (temp skips withSlash FTW Pathname getLast?_withSlash)

variable {δ : Type*}

/-- The current entry is the entry `.` of the starting directory. -/
def State.AtSelf (s : State δ) : Prop := s.frame.level = 0 ∧ s.frame.d_name = [dot]

instance State.decidableAtSelf (s : State δ) : Decidable s.AtSelf :=
  inferInstanceAs (Decidable (_ ∧ _))

/-- How often the entry `.` of the starting directory was read. -/
def State.selfReads (s : State δ) : ℕ := s.reads.count (0, [dot])

/-- How often the callback was called for the starting directory. -/
def State.selfCalls (s : State δ) : ℕ :=
  s.log.countP fun c => c.level = 0 ∧ c.d_name = [dot]

/-- The pathname names a readable directory on the device `D`, and so does its entry `.`. -/
def SelfReadable (D : BitVec 64) (s : State δ) : Answer δ → Prop
  | .stat st_dev => s.frame.level = 0 → st_dev = some D
  | .statEntry st => s.AtSelf → st = some (D, .dir)
  | .access r => s.AtSelf → r = .ok
  | _ => True

/-- **The condition** on a pathname with a slash behind it: it is absolute, the directory `.`, or
ends with two dots in front of the slash. -/
def ReportsSelf (path : List UInt8) : Prop :=
  path.head? = some slash ∨ path = [dot, slash] ∨ [dot, dot, slash] <:+ path

instance decidableReportsSelf (path : List UInt8) : Decidable (ReportsSelf path) :=
  inferInstanceAs (Decidable (_ ∨ _))

/-- `ReportsSelf`, and the device number is the value of an `int`. -/
def Reported (D : BitVec 64) (path : List UInt8) : Prop :=
  ReportsSelf path ∧ (D.setWidth 32).signExtend 64 = D

instance decidableReported (D : BitVec 64) (path : List UInt8) : Decidable (Reported D path) :=
  inferInstanceAs (Decidable (_ ∧ _))

/-! ## The entry `.` of the starting directory -/

theorem temp_start {base : List UInt8} (hbase : base ≠ [dot]) :
    temp (base ++ [slash]) [dot] = base ++ [slash] ++ [dot] := by
  rw [temp, if_neg]
  rintro ⟨hpath, -⟩
  exact hbase ((List.append_left_inj [slash]).1 hpath)

theorem suffix_iff (base : List UInt8) :
    [dot, dot, slash] <:+ base ++ [slash] ↔ [dot, dot] <+: base.reverse := by
  rw [← List.reverse_prefix, List.reverse_append]
  exact List.cons_prefix_cons.trans (and_iff_right rfl)

/-- **The test of the last characters** for the entry `.` of the starting directory. -/
theorem skips_start_iff {path : List UInt8} (hpath : path.getLast? = some slash) :
    skips 0 (temp path [dot]) [dot] ↔ ¬ ReportsSelf path := by
  obtain ⟨base, rfl⟩ := List.getLast?_eq_some_iff.1 hpath
  by_cases hdot : base = [dot]
  · rw [hdot]
    exact iff_of_false (by decide) (by decide)
  · have hrev : (base ++ [slash] ++ [dot]).reverse = dot :: slash :: base.reverse := by simp
    rw [temp_start hdot, skips, hrev, ReportsSelf, suffix_iff]
    cases ht : base.reverse with
    | nil =>
      rw [List.reverse_eq_nil_iff.1 ht]
      exact iff_of_false (by decide) (by decide)
    | cons a t =>
      have hne : base ≠ [] := fun hnil => by rw [hnil] at ht; cases ht
      have hlen : 2 < (base ++ [slash] ++ [dot]).length := by
        have hpos := List.length_pos_of_ne_nil hne
        simp only [List.length_append, List.length_cons, List.length_nil]
        omega
      have hhead : (base ++ [slash] ++ [dot]).head? = (base ++ [slash]).head? :=
        List.head?_append_of_ne_nil _ (by simp)
      have hshort : base ++ [slash] ≠ [dot, slash] :=
        fun heq => hdot ((List.append_left_inj [slash]).1 heq)
      have hdots : ((a :: t)[0]? ≠ some dot ∨ (a :: t)[1]? ≠ some dot) ↔
          ¬ [dot, dot] <+: a :: t := by
        cases t with
        | nil =>
          have ha : a ≠ dot := fun ha => hdot (by rw [← List.reverse_reverse base, ht, ha]; rfl)
          simp [ha, List.cons_prefix_cons]
        | cons b t =>
          simp only [List.getElem?_cons_zero, List.getElem?_cons_succ, List.cons_prefix_cons,
            List.nil_prefix, and_true, ne_eq, Option.some.injEq]
          rw [not_and_or, @eq_comm _ dot a, @eq_comm _ dot b]
      rw [hhead]
      change _ ∧ _ ∧ _ ∧ ¬ _ ∧ ((a :: t)[0]? ≠ some dot ∨ (a :: t)[1]? ≠ some dot) ↔ _
      rw [hdots, not_or, not_or]
      constructor
      · rintro ⟨-, -, -, habs, hpre⟩
        exact ⟨fun hslash => habs ⟨rfl, hslash, rfl⟩, hshort, hpre⟩
      · rintro ⟨habs, -, hpre⟩
        exact ⟨hlen, rfl, rfl, fun hslash => habs hslash.2.1, hpre⟩

/-! ## The calls and the entries that were read -/

section

variable {s : State δ}

theorem State.selfCalls_call (s : State δ) (flag : CallFlag) (info : Option FTW) (v : ℤ) :
    (s.call flag info v).selfCalls = s.selfCalls + if s.AtSelf then 1 else 0 := by
  rw [State.selfCalls, State.selfCalls, State.call, List.countP_append, List.countP_singleton]
  simp only [decide_eq_true_eq]
  rfl

theorem count_concat_self (reads : List (ℕ × List UInt8)) (level : ℕ) (d_name : List UInt8) :
    (reads ++ [(level, d_name)]).count (0, [dot]) =
      reads.count (0, [dot]) + if level = 0 ∧ d_name = [dot] then 1 else 0 := by
  rw [List.count_append, List.count_singleton]
  simp only [beq_iff_eq, Prod.mk.injEq]

end

/-- The calls for the starting directory that are due. -/
def State.dueSelf (D : BitVec 64) (dir : List UInt8) (s : State δ) : ℕ :=
  if Reported D (withSlash dir) then s.selfReads else 0

/-- Every call that is due has been made. -/
def Even (D : BitVec 64) (dir : List UInt8) (s : State δ) : Prop :=
  s.selfCalls = s.dueSelf D dir

/-- Every call that is due has been made, but for the current entry. -/
def Owing (D : BitVec 64) (dir : List UInt8) (s : State δ) : Prop :=
  s.selfCalls + (if s.AtSelf ∧ Reported D (withSlash dir) then 1 else 0) = s.dueSelf D dir

/-- The variables of the loop over the starting directory. -/
def Based (D : BitVec 64) (dir : List UInt8) (frame : Frame δ) : Prop :=
  frame.level = 0 → frame.path = withSlash dir ∧ frame.dev = D.setWidth 32

/-- What holds in a walk without `FTW_CHDIR`. -/
def CountedAt (flags : Flags) (D : BitVec 64) (dir : List UInt8) (s : State δ) : Pc → Prop
  | .stat => (s.frame.level = 0 → s.frame.pathname = dir) ∧ Even D dir s
  | .opendir => Based D dir s.frame ∧ Even D dir s
  | .readdir => Based D dir s.frame ∧ Even D dir s
  | .statEntry =>
    Based D dir s.frame ∧ Owing D dir s ∧ s.frame.temp = temp s.frame.path s.frame.d_name
  | .access => Based D dir s.frame ∧ Owing D dir s ∧ (s.AtSelf → Reported D (withSlash dir))
  | .preorder =>
    flags.depth = false ∧ Based D dir s.frame ∧ Owing D dir s ∧
      (s.AtSelf → Reported D (withSlash dir))
  | .postorder => Based D dir s.frame ∧ Owing D dir s ∧ (s.AtSelf → Reported D (withSlash dir))
  | .file => Based D dir s.frame ∧ Even D dir s ∧ ¬ s.AtSelf
  | .ret _ => Even D dir s
  | .done _ => Even D dir s
  | .fault => True
  -- only with `FTW_CHDIR`
  | .getcwd => False
  | .chdir => False
  | .abandon => False
  | .finish => False

/-- **The invariant.** A directory that waits for another one is not at its entry `.`. -/
structure Counted (flags : Flags) (D : BitVec 64) (dir : List UInt8) (s : State δ) : Prop where
  here : CountedAt flags D dir s s.pc
  waiting : ∀ frame ∈ s.stack, frame.d_name ≠ [dot] ∧ Based D dir frame

namespace Counted

variable {flags : Flags} {D : BitVec 64} {dir : List UInt8} {s t : State δ} {l : Answer δ}

theorem even_of_not_atSelf (h : Owing D dir s) (hself : ¬ s.AtSelf) : Even D dir s := by
  rwa [Owing, if_neg fun hboth => hself hboth.1] at h

theorem owing_of_not_atSelf (h : Even D dir s) (hself : ¬ s.AtSelf) : Owing D dir s := by
  rwa [Owing, if_neg fun hboth => hself hboth.1]

theorem even_of_not_reported (h : Owing D dir s) (hnot : ¬ Reported D (withSlash dir)) :
    Even D dir s := by
  rwa [Owing, if_neg fun hboth => hnot hboth.2] at h

/-- A call that is owed is made. -/
theorem even_call (h : Owing D dir s) (hself : s.AtSelf → Reported D (withSlash dir))
    (flag : CallFlag) (info : Option FTW) (v : ℤ) : Even D dir (s.call flag info v) := by
  rw [Even, State.selfCalls_call]
  by_cases hat : s.AtSelf
  · rw [Owing, if_pos ⟨hat, hself hat⟩] at h
    rw [if_pos hat]
    exact h
  · rw [if_neg hat]
    exact even_of_not_atSelf h hat

/-- The step lemma for the callback. -/
theorem callThen (hchdir : flags.chdir = false)
    (hwaiting : ∀ frame ∈ s.stack, frame.d_name ≠ [dot] ∧ Based D dir frame)
    (h : Owing D dir s) (hself : s.AtSelf → Reported D (withSlash dir)) (flag : CallFlag)
    (info : Option FTW) (v : ℤ) {next : State δ → State δ}
    (hnext : Even D dir (s.call flag info v) → Counted flags D dir (next (s.call flag info v))) :
    Counted flags D dir (s.callThen flags flag info v next) := by
  have heven := even_call h hself flag info v
  unfold State.callThen
  split_ifs with hv
  · rw [early_of_not_chdir hchdir]
    exact ⟨heven, hwaiting⟩
  · exact hnext heven

/-- The step lemma for the way into a directory. -/
theorem descend (hwaiting : ∀ frame ∈ s.stack, frame.d_name ≠ [dot] ∧ Based D dir frame)
    (hbased : Based D dir s.frame) (heven : s.frame.d_name ≠ [dot] → Even D dir s)
    (hself : s.frame.d_name = [dot] → if flags.depth then
      Owing D dir s ∧ (s.AtSelf → Reported D (withSlash dir)) else Even D dir s) :
    Counted flags D dir (s.descend flags) := by
  unfold State.descend
  split_ifs with hname hdepth
  · refine ⟨⟨fun hlevel => ?_, heven hname⟩, ?_⟩
    · exact absurd hlevel (Nat.succ_ne_zero _)
    · exact List.forall_mem_cons.2 ⟨⟨hname, hbased⟩, hwaiting⟩
  · have hpost := hself (not_not.1 hname)
    rw [if_pos hdepth] at hpost
    exact ⟨⟨hbased, hpost⟩, hwaiting⟩
  · have hnext := hself (not_not.1 hname)
    rw [if_neg hdepth] at hnext
    exact ⟨⟨hbased, hnext⟩, hwaiting⟩

theorem stat (hchdir : flags.chdir = false) (h : Counted flags D dir s) (hpc : s.pc = .stat)
    {st_dev : Option (BitVec 64)} (hok : SelfReadable D s (.stat st_dev)) :
    Counted flags D dir (onStat flags s st_dev) := by
  obtain ⟨hhere, hwaiting⟩ := h
  rw [hpc] at hhere
  obtain ⟨hname, heven⟩ := hhere
  cases st_dev with
  | none => exact ⟨heven, hwaiting⟩
  | some st_dev =>
    rw [onStat_of_not_chdir hchdir]
    split_ifs
    · exact ⟨trivial, hwaiting⟩
    · refine ⟨⟨fun hlevel => ⟨?_, ?_⟩, heven⟩, hwaiting⟩
      · exact congrArg withSlash (hname hlevel)
      · exact congrArg (BitVec.setWidth 32) (Option.some.inj (hok hlevel))

theorem opendir (h : Counted flags D dir s) (hpc : s.pc = .opendir) (ok : Bool) :
    Counted flags D dir (onOpendir s ok) := by
  obtain ⟨hhere, hwaiting⟩ := h
  rw [hpc] at hhere
  obtain ⟨hbased, heven⟩ := hhere
  dsimp only [onOpendir]
  split_ifs
  · exact ⟨heven, hwaiting⟩
  · exact ⟨⟨hbased, heven⟩, hwaiting⟩
  · exact ⟨heven, hwaiting⟩

theorem readdir (hchdir : flags.chdir = false) (h : Counted flags D dir s)
    (hpc : s.pc = .readdir) (entry : Entry) :
    Counted flags D dir (onReaddir flags s entry) := by
  have hsame := h
  obtain ⟨hhere, hwaiting⟩ := h
  rw [hpc] at hhere
  obtain ⟨hbased, heven⟩ := hhere
  cases entry with
  | error => exact hsame
  | eof =>
    rw [onReaddir_eof_of_not_chdir hchdir]
    exact ⟨heven, hwaiting⟩
  | name d_name =>
    dsimp only [onReaddir]
    split_ifs
    · exact ⟨trivial, hwaiting⟩
    · refine ⟨⟨hbased, ?_, rfl⟩, hwaiting⟩
      rw [Even, State.dueSelf] at heven
      rw [Owing, State.dueSelf, State.selfReads, count_concat_self]
      change s.selfCalls + (if (s.frame.level = 0 ∧ d_name = [dot]) ∧ _ then 1 else 0) = _
      rw [heven, State.selfReads]
      by_cases hreported : Reported D (withSlash dir)
      · simp only [hreported, and_true, if_true]
      · simp only [hreported, and_false, if_false]

/-- **The step lemma for the tests of an entry**: the entry `.` of the starting directory passes
them if and only if it is to be reported. -/
theorem statEntry (h : Counted flags D dir s) (hpc : s.pc = .statEntry)
    {st : Option (BitVec 64 × FileType)} (hok : SelfReadable D s (.statEntry st)) :
    Counted flags D dir (onStatEntry flags s st) := by
  obtain ⟨hhere, hwaiting⟩ := h
  rw [hpc] at hhere
  obtain ⟨hbased, howing, htemp⟩ := hhere
  have hnext (heven : Even D dir s) : Counted flags D dir s.next := ⟨⟨hbased, heven⟩, hwaiting⟩
  by_cases hat : s.AtSelf
  · obtain ⟨hpath, hdev⟩ := hbased hat.1
    have hskips : skips s.frame.level s.frame.temp s.frame.d_name ↔
        ¬ ReportsSelf (withSlash dir) := by
      rw [htemp, hpath, hat.1, hat.2]
      exact skips_start_iff (getLast?_withSlash dir)
    have hdots : s.frame.d_name ≠ [dot, dot] := by
      rw [hat.2]
      decide
    rw [hok hat]
    dsimp only [onStatEntry]
    rw [if_neg hdots, hdev]
    split_ifs with hdevice hskip
    · exact hnext (even_of_not_reported howing fun hreported => hdevice hreported.2.symm)
    · exact hnext (even_of_not_reported howing fun hreported => hskips.1 hskip hreported.1)
    · refine ⟨⟨hbased, howing, fun _ => ⟨?_, (not_not.1 hdevice).symm⟩⟩, hwaiting⟩
      exact not_not.1 fun hnot => hskip (hskips.2 hnot)
  · have heven := even_of_not_atSelf howing hat
    obtain hskip | haccess | ⟨f, hfile⟩ := onStatEntry_cases flags s st
    · rw [hskip]
      exact hnext heven
    · rw [haccess]
      exact ⟨⟨hbased, howing, fun hself => absurd hself hat⟩, hwaiting⟩
    · rw [hfile]
      exact ⟨⟨hbased, heven, hat⟩, hwaiting⟩

theorem withFlag (hwaiting : ∀ frame ∈ s.stack, frame.d_name ≠ [dot] ∧ Based D dir frame)
    (hbased : Based D dir s.frame) (howing : Owing D dir s)
    (hself : s.AtSelf → Reported D (withSlash dir)) (f : CallFlag) :
    Counted flags D dir (withFlag flags s f) := by
  unfold TreeWalkSteps.withFlag
  split_ifs with hdepth
  · refine descend hwaiting hbased (fun hname => ?_) fun _ => ?_
    · exact even_of_not_atSelf howing fun hat => hname hat.2
    · rw [if_pos hdepth]
      exact ⟨howing, hself⟩
  · exact ⟨⟨Bool.eq_false_of_not_eq_true hdepth, hbased, howing, hself⟩, hwaiting⟩

theorem access (h : Counted flags D dir s) (hpc : s.pc = .access) {r : Access}
    (hok : SelfReadable D s (.access r)) : Counted flags D dir (onAccess flags s r) := by
  obtain ⟨hhere, hwaiting⟩ := h
  rw [hpc] at hhere
  obtain ⟨hbased, howing, hself⟩ := hhere
  cases r with
  | ok => exact withFlag hwaiting hbased howing hself _
  | denied =>
    have hat : ¬ s.AtSelf := fun hat => by cases hok hat
    exact ⟨⟨hbased, even_of_not_atSelf howing hat⟩, hwaiting⟩
  | failed => exact withFlag hwaiting hbased howing hself _

theorem preorder (hchdir : flags.chdir = false) (h : Counted flags D dir s)
    (hpc : s.pc = .preorder) (v : ℤ) : Counted flags D dir (onPreorder flags s v) := by
  obtain ⟨hhere, hwaiting⟩ := h
  rw [hpc] at hhere
  obtain ⟨hdepth, hbased, howing, hself⟩ := hhere
  refine callThen hchdir hwaiting howing hself _ _ _ fun heven => ?_
  refine descend hwaiting hbased (fun _ => heven) fun _ => ?_
  rw [hdepth, if_neg Bool.false_ne_true]
  exact heven

theorem postorder (hchdir : flags.chdir = false) (h : Counted flags D dir s)
    (hpc : s.pc = .postorder) (v : ℤ) : Counted flags D dir (onPostorder flags s v) := by
  obtain ⟨hhere, hwaiting⟩ := h
  rw [hpc] at hhere
  obtain ⟨hbased, howing, hself⟩ := hhere
  unfold onPostorder
  refine callThen hchdir ?_ ?_ ?_ _ _ _ fun heven => ⟨⟨?_, heven⟩, ?_⟩
  · exact hwaiting
  · exact howing
  · exact hself
  · exact hbased
  · exact hwaiting

theorem file (hchdir : flags.chdir = false) (h : Counted flags D dir s) (hpc : s.pc = .file)
    (v : ℤ) : Counted flags D dir (onFile flags s v) := by
  obtain ⟨hhere, hwaiting⟩ := h
  rw [hpc] at hhere
  obtain ⟨hbased, heven, hat⟩ := hhere
  refine callThen hchdir hwaiting (owing_of_not_atSelf heven hat) (fun hself => ?_) _ _ _
    fun heven => ⟨⟨hbased, heven⟩, hwaiting⟩
  exact absurd hself hat

theorem leave (hchdir : flags.chdir = false) (h : Counted flags D dir s) {r : ℤ}
    (hpc : s.pc = .ret r) : Counted flags D dir (onLeave flags s r) := by
  obtain ⟨hhere, hwaiting⟩ := h
  rw [hpc] at hhere
  have heven : Even D dir s := hhere
  unfold onLeave
  split
  · exact ⟨heven, hwaiting⟩
  · rename_i frame stack hstack
    rw [hstack] at hwaiting
    obtain ⟨⟨hname, hbased⟩, hwaiting⟩ := List.forall_mem_cons.1 hwaiting
    split_ifs
    · rw [early_of_not_chdir hchdir]
      exact ⟨heven, hwaiting⟩
    · refine ⟨⟨hbased, owing_of_not_atSelf heven fun hat => hname hat.2, fun hat => ?_⟩, hwaiting⟩
      exact absurd hat.2 hname
    · exact ⟨⟨hbased, heven⟩, hwaiting⟩

/-- **The step lemma.** -/
theorem step (hchdir : flags.chdir = false) (h : Counted flags D dir s) (hok : SelfReadable D s l)
    (hs : step flags s l = some t) : Counted flags D dir t := by
  have hhere := h.here
  cases Step.of_step hs with
  | stat st_dev hpc => exact stat hchdir h hpc hok
  | getcwd ok hpc => rw [hpc] at hhere; exact hhere.elim
  | chdir dir hpc => rw [hpc] at hhere; exact hhere.elim
  | opendir ok hpc => exact opendir h hpc ok
  | readdir entry hpc => exact readdir hchdir h hpc entry
  | statEntry st hpc => exact statEntry h hpc hok
  | access r hpc => exact access h hpc hok
  | preorder v hpc => exact preorder hchdir h hpc v
  | postorder v hpc => exact postorder hchdir h hpc v
  | file v hpc => exact file hchdir h hpc v
  | abandon ok hpc => rw [hpc] at hhere; exact hhere.elim
  | finish ok hpc => rw [hpc] at hhere; exact hhere.elim
  | leave r hpc => exact leave hchdir h hpc

end Counted

end TlpiLearn.TreeWalkSteps
