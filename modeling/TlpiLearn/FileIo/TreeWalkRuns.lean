import TlpiLearn.FileIo.TreeWalkSteps
import Mathlib.Tactic

/-!
# A walk through a tree as a run

The walk of `TlpiLearn.FileIo.TreeWalk` through a given tree is a run of the machine of
`TlpiLearn.FileIo.TreeWalkSteps`: when the system answers as the tree says and the callback is a
function of its arguments, the machine makes the same calls and returns the same value, or overruns
an array where the walk does (`mynftw_runs`).
-/

namespace TlpiLearn.TreeWalkSteps

open TreeWalk (temp skips withSlash FTW Pathname Name Kind Listing Tree Walk)

variable {δ : Type*} (func : TreeWalk.Call → ℤ) (depth : Bool)
  (parent : Option (BitVec 64 × FileType))

/-! ## The answers of a tree -/

namespace Answer

/-- The answers behind a path that is stored in an array. -/
def store (path : List UInt8) (answers : List (Answer δ)) : List (Answer δ) :=
  if PATH_MAX < path.length + 1 then [] else answers

/-- The value of the callback and, if it is 0, the answers behind it. -/
def callThen (c : TreeWalk.Call) (answers : List (Answer δ)) : List (Answer δ) :=
  .func (func c) :: if func c ≠ 0 then [] else answers

/-- The answers for a recursive call and, if it returns 0, those behind it. -/
def recThen (sub : Walk) (subAnswers answers : List (Answer δ)) : List (Answer δ) :=
  subAnswers ++
    match sub with
    | .error _ => []
    | .ok (ret_value, _) => .leave :: if ret_value ≠ 0 then [] else answers

/-- The answers for a directory, with those for its entries. -/
def ftwRec (pathname : List UInt8) (st_dev : BitVec 64) (readable : Bool) (descriptors : ℤ)
    (answers : List (Answer δ)) : List (Answer δ) :=
  .stat (some st_dev) ::
    store (withSlash pathname) (.opendir readable ::
      if ¬ readable then [] else if descriptors - 1 < 0 then [] else answers)

/-- `S_ISLNK` for an entry that is no directory. -/
def fileType : Kind → FileType
  | .link => .link
  | .other => .other

/-- The answers for the entries of a directory; `parent` is what `lstat` says about `..`. -/
def ftwLoop : Listing → TreeWalk.Frame → List (Answer δ)
  | .nil, _ => [.readdir .eof]
  | .self rest, s =>
    .readdir (.name [dot]) :: store (temp s.path [dot]) (.statEntry (some (s.st_dev, .dir)) ::
      if s.st_dev ≠ s.dev.signExtend 64 then ftwLoop rest s
      else if skips s.level (temp s.path [dot]) [dot] then ftwLoop rest s
      else
        .access .ok ::
          callThen func
            { filename := temp s.path [dot]
              flag := if depth then .FTW_DP else .FTW_D
              info := none
              node := s.node }
            (ftwLoop rest s))
  | .parent rest, s =>
    .readdir (.name [dot, dot]) :: store (temp s.path [dot, dot])
      (.statEntry parent :: ftwLoop rest s)
  | .file name kind st_dev rest, s =>
    .readdir (.name name.1) :: store (temp s.path name.1)
      (.statEntry (some (st_dev, fileType kind)) ::
        if st_dev ≠ s.dev.signExtend 64 then ftwLoop rest s
        else
          callThen func
            { filename := temp s.path name.1
              flag := TreeWalk.fileFlag kind
              info := some { base := s.path.length, level := s.level }
              node := s.node ++ [name] }
            (ftwLoop rest s))
  | .dir name st_dev readable entries rest, s =>
    .readdir (.name name.1) :: store (temp s.path name.1)
      (.statEntry (some (st_dev, .dir)) ::
        if st_dev ≠ s.dev.signExtend 64 then ftwLoop rest s
        else if skips s.level (temp s.path name.1) name.1 then ftwLoop rest s
        else if ¬ readable then .access .denied :: ftwLoop rest s
        else
          let path := temp s.path name.1
          let node := s.node ++ [name]
          let sub := TreeWalk.ftwRec path st_dev readable s.descriptors (s.level + 1) node
            (TreeWalk.ftwLoop func depth entries)
          let subAnswers := ftwRec path st_dev readable s.descriptors
            (ftwLoop entries
              (TreeWalk.enter path st_dev s.descriptors (s.level + 1) node))
          .access .ok ::
            if depth then
              recThen sub subAnswers
                (callThen func { filename := path, flag := .FTW_DP, info := none, node }
                  (ftwLoop rest s))
            else
              callThen func { filename := path, flag := .FTW_D, info := none, node }
                (recThen sub subAnswers (ftwLoop rest s)))

/-- The answers for a whole walk. -/
def mynftw (tree : Tree) (dir : Pathname) (descriptors : ℤ) : List (Answer δ) :=
  ftwRec dir.1 tree.st_dev tree.readable descriptors
    (ftwLoop func depth parent tree.entries
      (TreeWalk.enter dir.1 tree.st_dev descriptors 0 [])) ++
    match TreeWalk.mynftw func depth tree dir descriptors with
    | .error _ => []
    | .ok _ => [.leave]

end Answer

/-! ## Calls of the walk and of the machine -/

/-- The types of the calls in both models. -/
def CallFlag.of : TreeWalk.Flag → CallFlag
  | .FTW_F => .FTW_F
  | .FTW_D => .FTW_D
  | .FTW_DP => .FTW_DP
  | .FTW_SL => .FTW_SL

/-- What the callback gets, and what it returns. -/
def Call.shown (c : Call) : List UInt8 × CallFlag × Option FTW × ℤ :=
  (c.filename, c.flag, c.info, c.result)

/-- What the callback gets in a walk, and what it returns. -/
def shown (c : TreeWalk.Call) : List UInt8 × CallFlag × Option FTW × ℤ :=
  (c.filename, CallFlag.of c.flag, c.info, func c)

/-- The machine has returned from a call of `_ftw_rec` as the walk has, with the calls of the
callback behind those before. -/
def Ends (stack : List (Frame δ)) (log : List Call) (t : State δ) : Walk → Prop
  | .error _ => t.pc = .fault
  | .ok (r, calls) =>
    t.pc = .ret r ∧ t.stack = stack ∧
      t.log.map Call.shown = log.map Call.shown ++ calls.map (shown func)

/-- With the answers the machine goes through the walk. -/
def Follows (stack : List (Frame δ)) (s : State δ) (answers : List (Answer δ)) (w : Walk) : Prop :=
  ∃ t, answers.foldlM (step ⟨true, false, depth⟩) s = some t ∧ Ends func stack s.log t w

/-- The variables of the walk and those of the machine at the next entry. -/
structure Matches (fr : TreeWalk.Frame) (s : State δ) : Prop where
  pc : s.pc = .readdir
  path : s.frame.path = fr.path
  dev : s.frame.dev = fr.dev
  level : s.frame.level = fr.level
  descriptors : s.frame.descriptors = fr.descriptors
  ret_value : s.frame.ret_value = 0

/-- An entry leaves the variables of the loop alone. -/
theorem Matches.of_frame {fr : TreeWalk.Frame} {s t : State δ} (hm : Matches fr s)
    {d_name path : List UInt8} {f : CallFlag} {r : ℤ} (hpc : t.pc = .readdir)
    (hframe : t.frame =
      { s.frame with d_name := d_name, temp := path, f := f, ret_value := r }) (hr : r = 0) :
    Matches fr t := by
  refine ⟨hpc, ?_, ?_, ?_, ?_, ?_⟩
  all_goals rw [hframe]
  · exact hm.path
  · exact hm.dev
  · exact hm.level
  · exact hm.descriptors
  · exact hr

/-- The machine behind `readdir` and the construction of `temp`. -/
def State.entry (s : State δ) (d_name : List UInt8) : State δ :=
  { s with
    pc := .statEntry
    reads := s.reads ++ [(s.frame.level, d_name)]
    frame := { s.frame with d_name := d_name, temp := temp s.frame.path d_name } }

/-- The machine behind `opendir`. -/
def State.opened (s : State δ) : State δ :=
  { s with
    streams := s.streams + 1
    frame := { s.frame with descriptors := s.frame.descriptors - 1 } }

namespace Follows

variable {func depth} {stack : List (Frame δ)} {s t : State δ} {l : Answer δ}
  {answers : List (Answer δ)} {w : Walk} {r : ℤ}

/-- One step without a call. -/
theorem cons (hstep : step ⟨true, false, depth⟩ s l = some t) (hlog : t.log = s.log)
    (h : Follows func depth stack t answers w) : Follows func depth stack s (l :: answers) w := by
  obtain ⟨u, hrun, hends⟩ := h
  refine ⟨u, ?_, hlog ▸ hends⟩
  rw [List.foldlM_cons, hstep]
  exact hrun

theorem ret (hpc : s.pc = .ret r) (hstack : s.stack = stack) :
    Follows func depth stack s [] (.ok (r, [])) :=
  ⟨s, rfl, hpc, hstack, (List.append_nil _).symm⟩

theorem fault (hpc : s.pc = .fault) : Follows func depth stack s [] (.error .overflow) :=
  ⟨s, rfl, hpc⟩

/-- The step for an entry, whose path is stored. -/
theorem readdir (hpc : s.pc = .readdir) (d_name : List UInt8)
    (h : Follows func depth stack (s.entry d_name) answers w) :
    Follows func depth stack s
      (.readdir (.name d_name) :: Answer.store (temp s.frame.path d_name) answers)
      (TreeWalk.store (temp s.frame.path d_name) w) := by
  have hstep : step ⟨true, false, depth⟩ s (.readdir (.name d_name)) =
      some (onReaddir ⟨true, false, depth⟩ s (.name d_name)) := by
    simp only [step, hpc]
  rw [Answer.store, TreeWalk.store]
  dsimp only [onReaddir] at hstep
  split_ifs with hover
  · rw [if_pos hover] at hstep
    exact cons hstep rfl (fault rfl)
  · rw [if_neg hover] at hstep
    exact cons hstep rfl h

/-- The step for the callback: it is called with what the walk says, and a value other than 0 ends
the loop. -/
theorem callThen (u : State δ) {c : TreeWalk.Call} (flag : CallFlag) (info : Option FTW)
    (next : State δ → State δ)
    (hstep : step ⟨true, false, depth⟩ s (.func (func c)) =
      some (u.callThen ⟨true, false, depth⟩ flag info (func c) next))
    (hlog : u.log = s.log) (hstack : u.stack = stack) (hret : u.frame.ret_value = 0)
    (hshown : (u.frame.temp, flag, info) = (c.filename, CallFlag.of c.flag, c.info))
    (hnext : ∀ v : State δ, (next v).log = v.log)
    (h : Follows func depth stack (next (u.call flag info (func c))) answers w) :
    Follows func depth stack s (Answer.callThen func c answers) (TreeWalk.callThen func c w) := by
  have hcall : (u.call flag info (func c)).log.map Call.shown =
      s.log.map Call.shown ++ [shown func c] := by
    rw [State.call, List.map_append, hlog]
    simp only [Prod.mk.injEq] at hshown
    obtain ⟨htemp, hflag, hinfo⟩ := hshown
    simp only [List.map_cons, List.map_nil, Call.shown, shown, htemp, hflag, hinfo]
  rw [Answer.callThen, TreeWalk.callThen]
  rw [State.callThen] at hstep
  split_ifs with hv
  · rw [if_pos hv, early_of_not_chdir rfl] at hstep
    refine ⟨(u.call flag info (func c)).ret u.frame.ret_value, ?_, congrArg Pc.ret hret, hstack,
      hcall⟩
    rw [List.foldlM_cons, hstep]
    rfl
  · rw [if_neg hv] at hstep
    obtain ⟨t, hrun, hends⟩ := h
    refine ⟨t, by rw [List.foldlM_cons, hstep]; exact hrun, ?_⟩
    cases w with
    | error fault => exact hends
    | ok result =>
      obtain ⟨hpc, hstack', hcalls⟩ := hends
      refine ⟨hpc, hstack', ?_⟩
      rw [hcalls, hnext, hcall, List.append_assoc]
      rfl

/-- The step for the recursive call: its value is returned unless it is 0. -/
theorem recThen {frame : Frame δ} {sub : Walk} {subAnswers : List (Answer δ)}
    (hsub : Follows func depth (frame :: stack) s subAnswers sub)
    (h : ∀ t : State δ, t.pc = (if depth then .postorder else .readdir) →
      t.frame = { frame with ret_value := 0 } → t.stack = stack →
      Follows func depth stack t answers w) :
    Follows func depth stack s (Answer.recThen sub subAnswers answers)
      (TreeWalk.recThen sub w) := by
  obtain ⟨t, hrun, hends⟩ := hsub
  cases sub with
  | error fault => exact ⟨t, by rw [Answer.recThen, List.append_nil]; exact hrun, hends⟩
  | ok result =>
    obtain ⟨r, calls⟩ := result
    obtain ⟨hpc, hstack, hcalls⟩ := hends
    have hstep : step ⟨true, false, depth⟩ t .leave = some (onLeave ⟨true, false, depth⟩ t r) := by
      simp only [step, hpc]
    have happend (rest : List (Answer δ)) :
        (subAnswers ++ .leave :: rest).foldlM (step ⟨true, false, depth⟩) s =
          rest.foldlM (step ⟨true, false, depth⟩) (onLeave ⟨true, false, depth⟩ t r) := by
      rw [List.foldlM_append, hrun, Option.bind_eq_bind, Option.bind_some, List.foldlM_cons, hstep]
      rfl
    dsimp only [Answer.recThen, TreeWalk.recThen]
    split_ifs with hr
    · refine ⟨_, happend _, ?_⟩
      simp only [onLeave, hstack, if_pos hr]
      exact ⟨rfl, rfl, hcalls⟩
    · obtain rfl : r = 0 := not_not.1 hr
      have hleave : onLeave ⟨true, false, depth⟩ t 0 =
          { t with
            pc := if depth then .postorder else .readdir
            frame := { frame with ret_value := 0 }
            stack := stack } := by
        simp only [onLeave, hstack]
        cases depth with
        | false => rfl
        | true => rfl
      obtain ⟨u, hrun', hends'⟩ := h (onLeave ⟨true, false, depth⟩ t 0) (by rw [hleave])
        (by rw [hleave]) (by rw [hleave])
      refine ⟨u, (happend answers).trans hrun', ?_⟩
      cases w with
      | error fault => exact hends'
      | ok result =>
        obtain ⟨hpc', hstack', hcalls'⟩ := hends'
        refine ⟨hpc', hstack', ?_⟩
        rw [hcalls', hleave, hcalls, List.append_assoc, List.map_append]

/-- The step for `opendir`, behind which the descriptors are counted. -/
theorem opendir (hpc : s.pc = .opendir) (hstack : s.stack = stack)
    (h : Follows func depth stack s.opened.next answers w) :
    Follows func depth stack s
      (.opendir true :: if s.frame.descriptors - 1 < 0 then [] else answers)
      (if s.frame.descriptors - 1 < 0 then .ok (-1, []) else w) := by
  have hstep : step ⟨true, false, depth⟩ s (.opendir true) = some (onOpendir s true) := by
    simp only [step, hpc]
  have hopen : onOpendir s true =
      if s.frame.descriptors - 1 < 0 then s.opened.ret (-1) else s.opened.next := by
    rw [onOpendir, if_pos rfl]
    rfl
  rw [hopen] at hstep
  split_ifs at hstep ⊢
  · exact cons hstep rfl (ret rfl hstack)
  · exact cons hstep rfl h

/-- The step lemma for a call of `_ftw_rec` up to its loop. -/
theorem ftwRec {pathname : List UInt8} {st_dev : BitVec 64} {readable : Bool} {descriptors : ℤ}
    {level : ℕ} {node : List Name} {loop : TreeWalk.Frame → Walk} (hpc : s.pc = .stat)
    (hpathname : s.frame.pathname = pathname) (hlevel : s.frame.level = level)
    (hdescriptors : s.frame.descriptors = descriptors) (hret : s.frame.ret_value = 0)
    (hstack : s.stack = stack)
    (h : ∀ t : State δ,
      Matches (TreeWalk.enter pathname st_dev descriptors level node) t → t.stack = stack →
      Follows func depth stack t answers
        (loop (TreeWalk.enter pathname st_dev descriptors level node))) :
    Follows func depth stack s (Answer.ftwRec pathname st_dev readable descriptors answers)
      (TreeWalk.ftwRec pathname st_dev readable descriptors level node loop) := by
  have hstep : step ⟨true, false, depth⟩ s (.stat (some st_dev)) =
      some (onStat ⟨true, false, depth⟩ s (some st_dev)) := by
    simp only [step, hpc]
  rw [onStat_of_not_chdir rfl, hpathname] at hstep
  rw [Answer.ftwRec, TreeWalk.ftwRec, Answer.store, TreeWalk.store]
  by_cases hover : PATH_MAX < (withSlash pathname).length + 1
  · rw [if_pos hover] at hstep ⊢
    rw [if_pos hover]
    exact cons hstep rfl (fault rfl)
  · rw [if_neg hover] at hstep ⊢
    rw [if_neg hover]
    refine cons hstep rfl ?_
    cases readable with
    | false => exact cons rfl rfl (ret rfl hstack)
    | true =>
      rw [if_neg (not_not.2 rfl), if_neg (not_not.2 rfl)]
      subst hpathname hlevel hdescriptors
      exact opendir rfl hstack (h _ ⟨rfl, rfl, rfl, rfl, rfl, hret⟩ hstack)

theorem log_descend (flags : Flags) (s : State δ) : (s.descend flags).log = s.log := by
  unfold State.descend
  split_ifs
  · rfl
  · rfl
  · rfl

/-- The step lemma for the way into a directory and back. -/
theorem descend {path : List UInt8} {st_dev : BitVec 64} {readable : Bool} {descriptors : ℤ}
    {level : ℕ} {node : List Name} {loop : TreeWalk.Frame → Walk} {loopAnswers : List (Answer δ)}
    (hname : s.frame.d_name ≠ [dot]) (hstack : s.stack = stack) (hpath : s.frame.temp = path)
    (hdescriptors : s.frame.descriptors = descriptors) (hlevel : s.frame.level + 1 = level)
    (hloop : ∀ t : State δ, Matches (TreeWalk.enter path st_dev descriptors level node) t →
      t.stack = s.frame :: stack → Follows func depth (s.frame :: stack) t loopAnswers
        (loop (TreeWalk.enter path st_dev descriptors level node)))
    (h : ∀ t : State δ, t.pc = (if depth then .postorder else .readdir) →
      t.frame = { s.frame with ret_value := 0 } → t.stack = stack →
      Follows func depth stack t answers w) :
    Follows func depth stack (s.descend ⟨true, false, depth⟩)
      (Answer.recThen (TreeWalk.ftwRec path st_dev readable descriptors level node loop)
        (Answer.ftwRec path st_dev readable descriptors loopAnswers) answers)
      (TreeWalk.recThen (TreeWalk.ftwRec path st_dev readable descriptors level node loop) w) := by
  rw [State.descend, if_pos hname]
  refine recThen (ftwRec rfl hpath hlevel hdescriptors rfl ?_ hloop) h
  exact congrArg (List.cons s.frame) hstack

/-- An entry that is left out. -/
theorem leftOut {fr : TreeWalk.Frame} {d_name : List UInt8} (hm : Matches fr s)
    (hstep : step ⟨true, false, depth⟩ (s.entry d_name) l = some (s.entry d_name).next)
    (hstack : s.stack = stack)
    (h : ∀ t : State δ, Matches fr t → t.stack = stack → Follows func depth stack t answers w) :
    Follows func depth stack (s.entry d_name) (l :: answers) w :=
  cons hstep rfl (h _ (hm.of_frame rfl rfl hm.ret_value) hstack)

/-- The step for a directory that gets through the tests. -/
theorem throughTests {d_name : List UInt8} {st_dev : BitVec 64} (hdots : d_name ≠ [dot, dot])
    (hdev : ¬ st_dev ≠ s.frame.dev.signExtend 64)
    (hskips : ¬ skips s.frame.level (temp s.frame.path d_name) d_name)
    (h : Follows func depth stack { s.entry d_name with pc := .access } answers w) :
    Follows func depth stack (s.entry d_name) (.statEntry (some (st_dev, .dir)) :: answers) w := by
  have hstep : step ⟨true, false, depth⟩ (s.entry d_name) (.statEntry (some (st_dev, .dir))) =
      some { s.entry d_name with pc := .access } :=
    congrArg some ((if_neg hdev).trans ((if_neg hdots).trans (if_neg hskips)))
  exact cons hstep rfl h

/-- The call for the entry `.`, which is not entered. -/
theorem callSelf {fr : TreeWalk.Frame} (hm : Matches fr s) (hstack : s.stack = stack)
    (h : ∀ t : State δ, Matches fr t → t.stack = stack → Follows func depth stack t answers w) :
    Follows func depth stack { s.entry [dot] with pc := .access }
      (.access .ok ::
        Answer.callThen func
          { filename := temp s.frame.path [dot]
            flag := if depth then .FTW_DP else .FTW_D
            info := none
            node := fr.node } answers)
      (TreeWalk.callThen func
        { filename := temp s.frame.path [dot]
          flag := if depth then .FTW_DP else .FTW_D
          info := none
          node := fr.node } w) := by
  cases depth with
  | false =>
    refine cons (t := { (s.entry [dot]).setF .FTW_D with pc := .preorder }) rfl rfl ?_
    refine callThen { (s.entry [dot]).setF .FTW_D with pc := .preorder } .FTW_D none
      (State.descend ⟨true, false, false⟩) rfl rfl hstack hm.ret_value rfl (log_descend _) ?_
    exact h _ (hm.of_frame rfl rfl hm.ret_value) hstack
  | true =>
    refine cons (t := { (s.entry [dot]).setF .FTW_D with pc := .postorder }) rfl rfl ?_
    refine callThen ({ (s.entry [dot]).setF .FTW_D with pc := .postorder }.setF .FTW_DP)
      .FTW_DP none State.next rfl rfl hstack hm.ret_value rfl (fun _ => rfl) ?_
    exact h _ (hm.of_frame rfl rfl hm.ret_value) hstack

/-- The call for an entry that is no directory. -/
theorem callFile {fr : TreeWalk.Frame} (hm : Matches fr s) (hstack : s.stack = stack) (name : Name)
    (kind : Kind) {st_dev : BitVec 64} (hdev : ¬ st_dev ≠ s.frame.dev.signExtend 64)
    (h : ∀ t : State δ, Matches fr t → t.stack = stack → Follows func depth stack t answers w) :
    Follows func depth stack (s.entry name.1)
      (.statEntry (some (st_dev, Answer.fileType kind)) ::
        Answer.callThen func
          { filename := temp s.frame.path name.1
            flag := TreeWalk.fileFlag kind
            info := some { base := s.frame.path.length, level := s.frame.level }
            node := fr.node ++ [name] } answers)
      (TreeWalk.callThen func
        { filename := temp s.frame.path name.1
          flag := TreeWalk.fileFlag kind
          info := some { base := s.frame.path.length, level := s.frame.level }
          node := fr.node ++ [name] } w) := by
  have hdots : name.1 ≠ [dot, dot] := name.2.2.2.2
  have hstep : step ⟨true, false, depth⟩ (s.entry name.1)
      (.statEntry (some (st_dev, Answer.fileType kind))) =
        some ({ s.entry name.1 with pc := .file }.setF
          (CallFlag.of (TreeWalk.fileFlag kind))) := by
    cases kind with
    | link => exact congrArg some ((if_neg hdev).trans (if_neg hdots))
    | other => exact congrArg some ((if_neg hdev).trans (if_neg hdots))
  refine cons hstep rfl (callThen
    ({ s.entry name.1 with pc := .file }.setF (CallFlag.of (TreeWalk.fileFlag kind)))
    (CallFlag.of (TreeWalk.fileFlag kind))
    (some { base := s.frame.path.length, level := s.frame.level }) State.next rfl rfl hstack
    hm.ret_value rfl (fun _ => rfl) ?_)
  exact h _ (hm.of_frame rfl rfl hm.ret_value) hstack

/-- The call for a directory and those for what is below it. -/
theorem callDir {fr : TreeWalk.Frame} (hm : Matches fr s) (hstack : s.stack = stack) (name : Name)
    {st_dev : BitVec 64} {loop : TreeWalk.Frame → Walk} {loopAnswers : List (Answer δ)}
    (hloop : ∀ t : State δ, ∀ {stack : List (Frame δ)},
      Matches (TreeWalk.enter (temp s.frame.path name.1) st_dev s.frame.descriptors
        (s.frame.level + 1) (fr.node ++ [name])) t → t.stack = stack →
      Follows func depth stack t loopAnswers
        (loop (TreeWalk.enter (temp s.frame.path name.1) st_dev s.frame.descriptors
          (s.frame.level + 1) (fr.node ++ [name]))))
    (h : ∀ t : State δ, Matches fr t → t.stack = stack → Follows func depth stack t answers w)
    {sub : Walk} {subAnswers : List (Answer δ)}
    (hsub : sub = TreeWalk.ftwRec (temp s.frame.path name.1) st_dev true s.frame.descriptors
      (s.frame.level + 1) (fr.node ++ [name]) loop)
    (hsubAnswers : subAnswers = Answer.ftwRec (temp s.frame.path name.1) st_dev true
      s.frame.descriptors loopAnswers) :
    Follows func depth stack { s.entry name.1 with pc := .access }
      (.access .ok ::
        if depth then
          Answer.recThen sub subAnswers
            (Answer.callThen func
              { filename := temp s.frame.path name.1
                flag := .FTW_DP
                info := none
                node := fr.node ++ [name] } answers)
        else
          Answer.callThen func
            { filename := temp s.frame.path name.1
              flag := .FTW_D
              info := none
              node := fr.node ++ [name] }
            (Answer.recThen sub subAnswers answers))
      (if depth then
        TreeWalk.recThen sub
          (TreeWalk.callThen func
            { filename := temp s.frame.path name.1
              flag := .FTW_DP
              info := none
              node := fr.node ++ [name] } w)
      else
        TreeWalk.callThen func
          { filename := temp s.frame.path name.1
            flag := .FTW_D
            info := none
            node := fr.node ++ [name] }
          (TreeWalk.recThen sub w)) := by
  have hname : name.1 ≠ [dot] := name.2.2.2.1
  subst hsub hsubAnswers
  cases depth with
  | false =>
    refine cons (t := { (s.entry name.1).setF .FTW_D with pc := .preorder }) rfl rfl ?_
    refine callThen { (s.entry name.1).setF .FTW_D with pc := .preorder } .FTW_D none
      (State.descend ⟨true, false, false⟩) rfl rfl hstack hm.ret_value rfl (log_descend _) ?_
    refine descend hname hstack rfl rfl rfl (fun t hm' hst => hloop t hm' hst) ?_
    exact fun t hpc hframe hst => h t (hm.of_frame hpc hframe rfl) hst
  | true =>
    refine cons (t := ({ s.entry name.1 with pc := .access }.setF .FTW_D).descend
      ⟨true, false, true⟩) rfl (log_descend _ _) ?_
    refine descend hname hstack rfl rfl rfl (fun t hm' hst => hloop t hm' hst) ?_
    -- the call behind the return from the directory
    intro t hpc hframe hst
    have hf : t.frame.f = .FTW_D := by
      rw [hframe]
      rfl
    refine callThen (t.setF .FTW_DP) .FTW_DP none State.next ?_ rfl hst ?_ ?_ (fun _ => rfl) ?_
    · simp only [step, hpc, onPostorder, hf]
      rfl
    · change t.frame.ret_value = 0
      rw [hframe]
    · change (t.frame.temp, _, _) = _
      rw [hframe]
      rfl
    · have hframe' : { t.frame with f := .FTW_DP } =
          { (s.entry name.1).frame with f := .FTW_DP, ret_value := 0 } := by
        rw [hframe]
        rfl
      exact h _ (hm.of_frame rfl hframe' rfl) hst

/-- **The loop** over the entries of a directory. -/
theorem ftwLoop (parent : Option (BitVec 64 × FileType)) (entries : Listing)
    {fr : TreeWalk.Frame} (hm : Matches fr s) (hstack : s.stack = stack) :
    Follows func depth stack s (Answer.ftwLoop func depth parent entries fr)
      (TreeWalk.ftwLoop func depth entries fr) := by
  induction entries generalizing fr s stack with
  | nil =>
    have hstep : step ⟨true, false, depth⟩ s (.readdir .eof) =
        some ({ s with streams := s.streams - 1 }.ret 0) := by
      simp only [step, hm.pc, onReaddir_eof_of_not_chdir]
    exact cons hstep rfl (ret rfl hstack)
  | self rest ih =>
    rw [Answer.ftwLoop, TreeWalk.ftwLoop, ← hm.path, ← hm.dev, ← hm.level]
    refine readdir hm.pc _ ?_
    have hdots : [dot] ≠ [dot, dot] := by decide
    by_cases hdev : fr.st_dev ≠ s.frame.dev.signExtend 64
    · rw [if_pos hdev, if_pos hdev]
      exact leftOut hm (congrArg some (if_pos hdev)) hstack fun t hm' hst => ih hm' hst
    · rw [if_neg hdev, if_neg hdev]
      by_cases hskips : skips s.frame.level (temp s.frame.path [dot]) [dot]
      · rw [if_pos hskips, if_pos hskips]
        refine leftOut hm (congrArg some ?_) hstack fun t hm' hst => ih hm' hst
        exact (if_neg hdev).trans ((if_neg hdots).trans (if_pos hskips))
      · rw [if_neg hskips, if_neg hskips]
        exact throughTests hdots hdev hskips (callSelf hm hstack fun t hm' hst => ih hm' hst)
  | parent rest ih =>
    rw [Answer.ftwLoop, TreeWalk.ftwLoop, ← hm.path]
    refine readdir hm.pc _ (leftOut hm (congrArg some ?_) hstack fun t hm' hst => ih hm' hst)
    cases parent with
    | none => rfl
    | some st =>
      by_cases hdev : st.1 ≠ s.frame.dev.signExtend 64
      · exact if_pos hdev
      · exact (if_neg hdev).trans (if_pos rfl)
  | file name kind st_dev rest ih =>
    rw [Answer.ftwLoop, TreeWalk.ftwLoop, ← hm.path, ← hm.dev, ← hm.level]
    refine readdir hm.pc _ ?_
    by_cases hdev : st_dev ≠ s.frame.dev.signExtend 64
    · rw [if_pos hdev, if_pos hdev]
      exact leftOut hm (congrArg some (if_pos hdev)) hstack fun t hm' hst => ih hm' hst
    · rw [if_neg hdev, if_neg hdev]
      exact callFile hm hstack name kind hdev fun t hm' hst => ih hm' hst
  | dir name st_dev readable entries rest ihEntries ih =>
    rw [Answer.ftwLoop, TreeWalk.ftwLoop, ← hm.path, ← hm.dev, ← hm.level, ← hm.descriptors]
    refine readdir hm.pc _ ?_
    have hdots : name.1 ≠ [dot, dot] := name.2.2.2.2
    by_cases hdev : st_dev ≠ s.frame.dev.signExtend 64
    · rw [if_pos hdev, if_pos hdev]
      exact leftOut hm (congrArg some (if_pos hdev)) hstack fun t hm' hst => ih hm' hst
    · rw [if_neg hdev, if_neg hdev]
      by_cases hskips : skips s.frame.level (temp s.frame.path name.1) name.1
      · rw [if_pos hskips, if_pos hskips]
        refine leftOut hm (congrArg some ?_) hstack fun t hm' hst => ih hm' hst
        exact (if_neg hdev).trans ((if_neg hdots).trans (if_pos hskips))
      · rw [if_neg hskips, if_neg hskips]
        refine throughTests hdots hdev hskips ?_
        cases readable with
        | false => exact cons rfl rfl (ih (hm.of_frame rfl rfl hm.ret_value) hstack)
        | true =>
          rw [if_neg (not_not.2 rfl), if_neg (not_not.2 rfl)]
          exact callDir hm hstack name (fun t _ hm' hst => ihEntries hm' hst)
            (fun t hm' hst => ih hm' hst) rfl rfl

end Follows

/-- The machine has ended as the walk has. -/
def EndsAs (t : State δ) : Walk → Prop
  | .error _ => t.pc = .fault
  | .ok (r, calls) => t.pc = .done r ∧ t.log.map Call.shown = calls.map (shown func)

/-- **The walk is a run**: with the answers of a tree the machine makes the calls of the walk
through it, with the same arguments and results and in the same order, and returns its value. -/
theorem mynftw_runs (tree : Tree) (dir : Pathname) (descriptors : ℤ) (cwd : δ) :
    ∃ t, (mynftw ⟨true, false, depth⟩ dir descriptors cwd).run
        (mynftw ⟨true, false, depth⟩ dir descriptors cwd).init
        (Answer.mynftw func depth parent tree dir descriptors) = some t ∧
      EndsAs func t (TreeWalk.mynftw func depth tree dir descriptors) := by
  have hfollows : Follows func depth [] (mynftw ⟨true, false, depth⟩ dir descriptors cwd).init
      (Answer.ftwRec dir.1 tree.st_dev tree.readable descriptors
        (Answer.ftwLoop func depth parent tree.entries
          (TreeWalk.enter dir.1 tree.st_dev descriptors 0 [])))
      (TreeWalk.mynftw func depth tree dir descriptors) :=
    Follows.ftwRec rfl rfl rfl rfl rfl rfl fun t hm hstack => Follows.ftwLoop _ _ hm hstack
  obtain ⟨t, hrun, hends⟩ := hfollows
  cases hwalk : TreeWalk.mynftw func depth tree dir descriptors with
  | error fault =>
    rw [hwalk] at hends
    refine ⟨t, ?_, hends⟩
    rw [Answer.mynftw, hwalk, List.append_nil]
    exact hrun
  | ok result =>
    rw [hwalk] at hends
    obtain ⟨hpc, hstack, hcalls⟩ := hends
    refine ⟨{ t with pc := .done result.1 }, ?_, rfl, hcalls⟩
    have hstep : step ⟨true, false, depth⟩ t .leave = some { t with pc := .done result.1 } := by
      simp only [step, hpc, onLeave, hstack]
    rw [Answer.mynftw, hwalk, Machine.run_append]
    refine Option.bind_eq_some_iff.2 ⟨t, hrun, ?_⟩
    exact Option.bind_eq_some_iff.2 ⟨_, hstep, rfl⟩

end TlpiLearn.TreeWalkSteps
