import TlpiLearn.Foundations.Constants
import TlpiLearn.Foundations.Forest
import Mathlib.Tactic

/-!
# An implementation of `nftw`

`mynftw` of `18/8/18_8.c` with `FTW_PHYS` and without `FTW_CHDIR`. A directory is given by the
entries in the order in which `readdir` returns them, and an entry by what `lstat` and `access` say
about it. Every call of the callback is logged, with the path that is built for it and the node of
the tree that this path leads to.

A directory gets its call as an entry of its parent; its own entry `.` is to be skipped, which is
decided by the last characters of the path. The paths are built in arrays of `PATH_MAX` bytes
without a check, and the device number is kept in an `int`.
-/

namespace TlpiLearn.TreeWalk

/-- The name of an entry other than `.` and `..`. -/
abbrev Name := { name : List UInt8 // name ≠ [] ∧ slash ∉ name ∧ name ≠ [dot] ∧ name ≠ [dot, dot] }

/-- An entry that is no directory. -/
inductive Kind
  | link
  | other
  deriving DecidableEq, Repr

/-- What `readdir` returns for a directory: the first entry and the rest. -/
inductive Listing
  | nil
  /-- The entry `.`. -/
  | self (rest : Listing)
  /-- The entry `..`. -/
  | parent (rest : Listing)
  | file (name : Name) (kind : Kind) (st_dev : BitVec 64) (rest : Listing)
  /-- A directory, with the results of `lstat` and of `access` and its own entries. -/
  | dir (name : Name) (st_dev : BitVec 64) (readable : Bool) (entries rest : Listing)

/-- The types of the calls. -/
inductive Flag
  | FTW_F
  | FTW_D
  | FTW_DP
  | FTW_SL
  deriving DecidableEq, Repr

/-- `f` for an entry that is no directory. -/
def fileFlag : Kind → Flag
  | .link => .FTW_SL
  | .other => .FTW_F

/-- `struct FTW`. -/
structure FTW where
  base : ℕ
  level : ℕ
  deriving DecidableEq, Repr

/-- A call of the callback; `status` is about the node at the end of the path `node` from the
starting directory. -/
structure Call where
  filename : List UInt8
  flag : Flag
  info : Option FTW
  node : List Name
  deriving DecidableEq

/-- A path that does not fit its array. -/
inductive Fault
  | overflow
  deriving DecidableEq, Repr

/-- A return value and the calls that were made. -/
abbrev Walk := Except Fault (ℤ × List Call)

/-- The variables of `_ftw_rec`, the device of the directory and where it is. -/
structure Frame where
  path : List UInt8
  st_dev : BitVec 64
  dev : BitVec 32
  level : ℕ
  descriptors : ℤ
  node : List Name

/-- The test of the last characters of `temp` behind `S_ISDIR`: a directory that is left out. -/
def skips (level : ℕ) (temp d_name : List UInt8) : Prop :=
  2 < temp.length ∧ temp.reverse[0]? = some dot ∧ temp.reverse[1]? = some slash ∧
    ¬ (level = 0 ∧ temp.head? = some slash ∧ d_name.head? = some dot) ∧
      (temp.reverse[2]? ≠ some dot ∨ temp.reverse[3]? ≠ some dot)

instance (level : ℕ) (temp d_name : List UInt8) : Decidable (skips level temp d_name) :=
  inferInstanceAs (Decidable (_ ∧ _))

/-- The construction of `temp` from the path and the name of an entry. -/
def temp (path d_name : List UInt8) : List UInt8 :=
  if path = [dot, slash] ∧ d_name = [dot] then [dot] else path ++ d_name

/-- A path in an array of `PATH_MAX` bytes, and what comes behind. -/
def store (path : List UInt8) (k : Walk) : Walk :=
  if PATH_MAX < path.length + 1 then .error .overflow else k

/-- `func`; if it does not return 0, the loop is left with `ret_value`, which is 0 there. -/
def callThen (func : Call → ℤ) (c : Call) (k : Walk) : Walk :=
  if func c ≠ 0 then .ok (0, [c]) else k.map fun r => (r.1, c :: r.2)

/-- The recursive call; its value is returned unless it is 0. -/
def recThen (sub k : Walk) : Walk :=
  match sub with
  | .error fault => .error fault
  | .ok (ret_value, calls) =>
    if ret_value ≠ 0 then .ok (ret_value, calls) else k.map fun r => (r.1, calls ++ r.2)

/-- The path of a directory with a slash behind it. -/
def withSlash (pathname : List UInt8) : List UInt8 :=
  if pathname.getLast? = some slash then pathname else pathname ++ [slash]

/-- The variables in front of the loop. -/
def enter (pathname : List UInt8) (st_dev : BitVec 64) (descriptors : ℤ) (level : ℕ)
    (node : List Name) : Frame where
  path := withSlash pathname
  st_dev := st_dev
  dev := st_dev.setWidth 32
  level := level
  descriptors := descriptors - 1
  node := node

/-- `_ftw_rec` on a directory, with its loop over the entries as a parameter; `stat` is successful
on the path of a directory. -/
def ftwRec (pathname : List UInt8) (st_dev : BitVec 64) (readable : Bool) (descriptors : ℤ)
    (level : ℕ) (node : List Name) (loop : Frame → Walk) : Walk :=
  store (withSlash pathname) <|
    if ¬ readable then .ok (-1, [])
    else if descriptors - 1 < 0 then .ok (-1, [])
    else loop (enter pathname st_dev descriptors level node)

/-- The loop of `_ftw_rec`. -/
def ftwLoop (func : Call → ℤ) (depth : Bool) : Listing → Frame → Walk
  | .nil, _ => .ok (0, [])
  | .self rest, s =>
    let temp := temp s.path [dot]
    store temp <|
      if s.st_dev ≠ s.dev.signExtend 64 then ftwLoop func depth rest s
      else if skips s.level temp [dot] then ftwLoop func depth rest s
      else
        -- the directory itself, which is readable and is not entered again
        callThen func
          { filename := temp
            flag := if depth then .FTW_DP else .FTW_D
            info := none
            node := s.node }
          (ftwLoop func depth rest s)
  | .parent rest, s => store (temp s.path [dot, dot]) (ftwLoop func depth rest s)
  | .file name kind st_dev rest, s =>
    let temp := temp s.path name.1
    store temp <|
      if st_dev ≠ s.dev.signExtend 64 then ftwLoop func depth rest s
      else
        callThen func
          { filename := temp
            flag := fileFlag kind
            info := some { base := s.path.length, level := s.level }
            node := s.node ++ [name] }
          (ftwLoop func depth rest s)
  | .dir name st_dev readable entries rest, s =>
    let temp := temp s.path name.1
    store temp <|
      if st_dev ≠ s.dev.signExtend 64 then ftwLoop func depth rest s
      else if skips s.level temp name.1 then ftwLoop func depth rest s
      else if ¬ readable then ftwLoop func depth rest s
      else
        let node := s.node ++ [name]
        let sub := ftwRec temp st_dev readable s.descriptors (s.level + 1) node
          (ftwLoop func depth entries)
        if depth then
          recThen sub
            (callThen func { filename := temp, flag := .FTW_DP, info := none, node }
              (ftwLoop func depth rest s))
        else
          callThen func { filename := temp, flag := .FTW_D, info := none, node }
            (recThen sub (ftwLoop func depth rest s))

/-- The starting directory and what is below it. -/
structure Tree where
  st_dev : BitVec 64
  readable : Bool
  entries : Listing

/-- A path that `stat` takes. -/
abbrev Pathname := { path : List UInt8 // path ≠ [] ∧ path.length < PATH_MAX }

/-- `mynftw`. -/
def mynftw (func : Call → ℤ) (depth : Bool) (tree : Tree) (dir : Pathname) (descriptors : ℤ) :
    Walk :=
  ftwRec dir.1 tree.st_dev tree.readable descriptors 0 [] (ftwLoop func depth tree.entries)

/-! ## What a walk should do -/

namespace Listing

/-- The files and directories below a directory. -/
def forest : Listing → Forest Name
  | .nil => .nil
  | .self rest => rest.forest
  | .parent rest => rest.forest
  | .file name _ _ rest => .node name .nil rest.forest
  | .dir name _ _ entries rest => .node name entries.forest rest.forest

/-- All files and directories are on one device. -/
def OneDevice (st_dev : BitVec 64) : Listing → Prop
  | .nil => True
  | .self rest => rest.OneDevice st_dev
  | .parent rest => rest.OneDevice st_dev
  | .file _ _ dev rest => dev = st_dev ∧ rest.OneDevice st_dev
  | .dir _ dev _ entries rest =>
    dev = st_dev ∧ entries.OneDevice st_dev ∧ rest.OneDevice st_dev

/-- All directories are readable. -/
def Readable : Listing → Prop
  | .nil => True
  | .self rest => rest.Readable
  | .parent rest => rest.Readable
  | .file _ _ _ rest => rest.Readable
  | .dir _ _ readable entries rest => readable = true ∧ entries.Readable ∧ rest.Readable

/-- The depth of the directories. -/
def height : Listing → ℕ
  | .nil => 0
  | .self rest => rest.height
  | .parent rest => rest.height
  | .file _ _ _ rest => rest.height
  | .dir _ _ _ entries rest => max (entries.height + 1) rest.height

end Listing

/-- A tree with different names in each directory, on one device, readable, and not deeper than the
descriptors allow. -/
structure Tree.Suitable (tree : Tree) (descriptors : ℤ) : Prop where
  distinct : tree.entries.forest.Distinct
  oneDevice : tree.entries.OneDevice tree.st_dev
  readable : tree.readable = true
  allReadable : tree.entries.Readable
  height_lt : (tree.entries.height : ℤ) < descriptors

/-- **The calls below the starting directory**: one for every file and every directory, and for
each directory before those below it, or behind them with `FTW_DEPTH`. -/
def VisitsOnce (depth : Bool) (tree : Tree) (w : Walk) : Prop :=
  ∃ ret calls, w = .ok (ret, calls) ∧
    ((calls.map Call.node).filter (· ≠ [])).Nodup ∧
    (∀ p, p ∈ (calls.map Call.node).filter (· ≠ []) ↔ tree.entries.forest.HasPath p) ∧
    ((calls.map Call.node).filter (· ≠ [])).Pairwise (Forest.Before depth)

/-- A name that ends with two dots. -/
def EndsDotDot (name : Name) : Prop := [dot, dot] <:+ name.1

instance (name : Name) : Decidable (EndsDotDot name) := inferInstanceAs (Decidable (_ <:+ _))

namespace Listing

/-- The entry `.` is among the entries. -/
def ListsSelf : Listing → Prop
  | .nil => False
  | .self _ => True
  | .parent rest => rest.ListsSelf
  | .file _ _ _ rest => rest.ListsSelf
  | .dir _ _ _ _ rest => rest.ListsSelf

/-- No directory with the entry `.` has a name that ends with two dots. -/
def DotFree : Listing → Prop
  | .nil => True
  | .self rest => rest.DotFree
  | .parent rest => rest.DotFree
  | .file _ _ _ rest => rest.DotFree
  | .dir name _ _ entries rest =>
    ¬ (EndsDotDot name ∧ entries.ListsSelf) ∧ entries.DotFree ∧ rest.DotFree

/-- The paths that are built in the directory `path` fit their arrays, and those in the directories
below it if these are entered. -/
def Fits (entered : Prop) (path : List UInt8) : Listing → Prop
  | .nil => True
  | .self rest => (temp path [dot]).length < PATH_MAX ∧ rest.Fits entered path
  | .parent rest => (temp path [dot, dot]).length < PATH_MAX ∧ rest.Fits entered path
  | .file name _ _ rest => (temp path name.1).length < PATH_MAX ∧ rest.Fits entered path
  | .dir name _ _ entries rest =>
    (temp path name.1).length < PATH_MAX ∧
      (entered → (withSlash (temp path name.1)).length < PATH_MAX ∧
        entries.Fits entered (withSlash (temp path name.1))) ∧
      rest.Fits entered path

end Listing

/-- **The condition** on a tree and the path to it: the device number is the value of an `int`, no
directory that lists the entry `.` has a name that ends with two dots, and all paths fit. -/
structure Harmless (tree : Tree) (dir : Pathname) : Prop where
  device : (tree.st_dev.setWidth 32).signExtend 64 = tree.st_dev ∨ tree.entries.forest = .nil
  dotFree : tree.entries.DotFree
  start : (withSlash dir.1).length < PATH_MAX
  fits : tree.entries.Fits True (withSlash dir.1)

/-! ## Walks that run over all entries -/

/-- A walk returns 0 behind its calls if `fits`, and otherwise overruns an array. -/
def Runs (w : Walk) (fits : Prop) (nodes : List (List Name)) : Prop :=
  (fits ∧ ∃ calls, w = .ok (0, calls) ∧ calls.map Call.node = nodes) ∨
    (¬ fits ∧ w = .error .overflow)

namespace Runs

variable {w w' : Walk} {fits fits' : Prop} {nodes nodes' : List (List Name)} {func : Call → ℤ}

theorem nothing : Runs (.ok (0, [])) True [] := Or.inl ⟨trivial, [], rfl, rfl⟩

theorem store (h : Runs w fits nodes) (path : List UInt8) :
    Runs (TreeWalk.store path w) (path.length < PATH_MAX ∧ fits) nodes := by
  rw [TreeWalk.store]
  split_ifs with hover
  · exact Or.inr ⟨fun hfits => by omega, rfl⟩
  · have hpath : path.length < PATH_MAX := by omega
    refine h.imp (fun hok => ⟨⟨hpath, hok.1⟩, hok.2⟩) fun herr => ⟨fun hfits => ?_, herr.2⟩
    exact herr.1 hfits.2

theorem callThen (h : Runs w fits nodes) (c : Call) (hfunc : func c = 0) :
    Runs (TreeWalk.callThen func c w) fits (c.node :: nodes) := by
  rw [TreeWalk.callThen, if_neg (not_not.2 hfunc)]
  obtain ⟨hfits, calls, rfl, hnodes⟩ | ⟨hnot, rfl⟩ := h
  · exact Or.inl ⟨hfits, c :: calls, rfl, by rw [List.map_cons, hnodes]⟩
  · exact Or.inr ⟨hnot, rfl⟩

theorem recThen (h : Runs w fits nodes) (h' : Runs w' fits' nodes') :
    Runs (TreeWalk.recThen w w') (fits ∧ fits') (nodes ++ nodes') := by
  obtain ⟨hfits, calls, rfl, hnodes⟩ | ⟨hnot, rfl⟩ := h
  · obtain ⟨hfits', calls', rfl, hnodes'⟩ | ⟨hnot', rfl⟩ := h'
    · refine Or.inl ⟨⟨hfits, hfits'⟩, calls ++ calls', rfl, ?_⟩
      rw [List.map_append, hnodes, hnodes']
    · exact Or.inr ⟨fun hboth => hnot' hboth.2, rfl⟩
  · exact Or.inr ⟨fun hboth => hnot hboth.1, rfl⟩

theorem ftwRec {pathname : List UInt8} {st_dev : BitVec 64} {readable : Bool} {descriptors : ℤ}
    {level : ℕ} {node : List Name} {loop : Frame → Walk} (hreadable : readable = true)
    (hdescriptors : 0 < descriptors)
    (h : Runs (loop (enter pathname st_dev descriptors level node)) fits nodes) :
    Runs (TreeWalk.ftwRec pathname st_dev readable descriptors level node loop)
      ((withSlash pathname).length < PATH_MAX ∧ fits) nodes := by
  rw [TreeWalk.ftwRec, if_neg (not_not.2 hreadable), if_neg (by omega)]
  exact h.store _

theorem congr (h : Runs w fits nodes) (hfits : fits ↔ fits') (hnodes : nodes = nodes') :
    Runs w fits' nodes' := by
  rw [← hnodes, Runs, ← hfits]
  exact h

end Runs

/-! ## Paths -/

theorem getLast?_withSlash (path : List UInt8) : (withSlash path).getLast? = some slash := by
  rw [withSlash]
  split_ifs with h
  · exact h
  · exact List.getLast?_concat

theorem temp_name (path : List UInt8) (name : Name) : temp path name.1 = path ++ name.1 := by
  rw [temp, if_neg fun h => name.2.2.2.1 h.2]

theorem getLast?_append_name (path : List UInt8) (name : Name) :
    (path ++ name.1).getLast? ≠ some slash := by
  rw [List.getLast?_append_of_ne_nil _ name.2.1]
  exact fun h => name.2.2.1 (List.mem_of_getLast? h)

/-- The path of a directory below another one. -/
theorem withSlash_name (path : List UInt8) (name : Name) :
    withSlash (path ++ name.1) = path ++ name.1 ++ [slash] := by
  rw [withSlash, if_neg (getLast?_append_name path name)]

/-- **An entry with a name** is not skipped. -/
theorem not_skips_name (level : ℕ) (path : List UInt8) (name : Name) :
    ¬ skips level (temp path name.1) name.1 := by
  obtain ⟨hne, hnoslash, hdot, -⟩ := name.2
  rintro ⟨-, hlast, hslash, -⟩
  rw [temp_name, List.reverse_append] at hlast hslash
  cases hrev : name.1.reverse with
  | nil => exact hne (List.reverse_eq_nil_iff.1 hrev)
  | cons a t =>
    rw [hrev] at hlast hslash
    have ha : a = dot := Option.some.inj hlast
    cases t with
    | nil => exact hdot (by rw [← List.reverse_reverse name.1, hrev, ha]; rfl)
    | cons b t =>
      have hb : b = slash := Option.some.inj hslash
      have hmem : b ∈ name.1.reverse := by
        rw [hrev]
        simp
      rw [hb, List.mem_reverse] at hmem
      exact hnoslash hmem

theorem endsDotDot_iff (name : Name) : EndsDotDot name ↔ [dot, dot] <+: name.1.reverse := by
  rw [EndsDotDot, ← List.reverse_prefix]
  rfl

/-- The entry `.` of a directory below another one. -/
theorem temp_self {path : List UInt8} (hpath : path ≠ []) (name : Name) :
    temp (withSlash (temp path name.1)) [dot] = path ++ name.1 ++ [slash] ++ [dot] := by
  rw [temp_name, withSlash_name, temp, if_neg]
  rintro ⟨hshort, -⟩
  have hlen := congrArg List.length hshort
  have hpos := List.length_pos_of_ne_nil hpath
  have hpos' := List.length_pos_of_ne_nil name.2.1
  simp only [List.length_append, List.length_cons, List.length_nil] at hlen
  omega

/-- **The entry `.` of a directory below another one** is skipped unless the name of the directory
ends with two dots. -/
theorem skips_self_iff {path : List UInt8} (hpath : path.getLast? = some slash) (level : ℕ)
    (name : Name) :
    skips (level + 1) (temp (withSlash (temp path name.1)) [dot]) [dot] ↔ ¬ EndsDotDot name := by
  have hne : path ≠ [] := by
    rintro rfl
    cases hpath
  have hrev : (path ++ name.1 ++ [slash] ++ [dot]).reverse =
      dot :: slash :: (name.1.reverse ++ path.reverse) := by
    simp
  have hlen : 2 < (path ++ name.1 ++ [slash] ++ [dot]).length := by
    have hpos := List.length_pos_of_ne_nil hne
    simp only [List.length_append, List.length_cons, List.length_nil]
    omega
  have hhead : path.reverse[0]? = some slash := by
    rw [← List.head?_eq_getElem?, List.head?_reverse, hpath]
  rw [temp_self hne, skips, hrev, endsDotDot_iff]
  simp only [hlen, true_and, List.getElem?_cons_zero, List.getElem?_cons_succ, Nat.add_one_ne_zero,
    false_and, not_false_eq_true]
  cases ht : name.1.reverse with
  | nil => exact absurd (List.reverse_eq_nil_iff.1 ht) name.2.1
  | cons a t =>
    cases t with
    | nil =>
      -- the character in front of the name is the slash
      have hshort : ¬ [dot, dot] <+: [a] := fun h => absurd h.length_le (by simp)
      have hslash : slash ≠ dot := by decide
      simp [hhead, hshort, hslash]
    | cons b t =>
      simp only [List.cons_append, List.getElem?_cons_zero, List.getElem?_cons_succ,
        List.cons_prefix_cons, List.nil_prefix, and_true, ne_eq, Option.some.injEq]
      rw [not_and_or, @eq_comm _ dot a, @eq_comm _ dot b]

/-! ## The nodes of the calls -/

namespace Listing

/-- The nodes of the calls for the entries of a directory; the entry `.` has a call if `dots`. -/
def trace (depth : Bool) : Listing → Bool → List (List Name)
  | .nil, _ => []
  | .self rest, dots => if dots then [] :: rest.trace depth dots else rest.trace depth dots
  | .parent rest, dots => rest.trace depth dots
  | .file name _ _ rest, dots => Forest.around depth name [] ++ rest.trace depth dots
  | .dir name _ _ entries rest, dots =>
    Forest.around depth name (entries.trace depth (EndsDotDot name)) ++ rest.trace depth dots

variable {depth dots : Bool} {l : Listing}

/-- Without a call for `.` the walk is one through the forest. -/
theorem trace_eq_paths (hfree : l.DotFree) (hdots : ¬ (dots = true ∧ l.ListsSelf)) :
    l.trace depth dots = l.forest.paths depth := by
  induction l generalizing dots with
  | nil => rfl
  | self rest ih =>
    have hfalse : ¬ dots = true := fun h => hdots ⟨h, trivial⟩
    rw [trace, if_neg hfalse]
    exact ih hfree fun h => hfalse h.1
  | parent rest ih => exact ih hfree hdots
  | file name kind st_dev rest ih => exact congrArg (_ ++ ·) (ih hfree hdots)
  | dir name st_dev readable entries rest ihe ihr =>
    obtain ⟨hname, hentries, hrest⟩ := hfree
    rw [← decide_eq_true_iff (p := EndsDotDot name)] at hname
    rw [trace, ihe hentries hname, ihr hrest hdots]
    rfl

theorem filter_around (name : Name) (nodes : List (List Name)) :
    (Forest.around depth name nodes).filter (· ≠ []) = Forest.around depth name nodes := by
  refine List.filter_eq_self.2 fun p hp => ?_
  obtain ⟨q, rfl⟩ := Forest.exists_cons_of_mem_around hp
  simp

/-- **Below the starting directory** the walk is one through the forest if no name of a directory
ends with two dots. -/
theorem filter_trace (hfree : l.DotFree) :
    (l.trace depth dots).filter (· ≠ []) = l.forest.paths depth := by
  induction l with
  | nil => rfl
  | self rest ih =>
    rw [trace]
    split_ifs
    · exact ih hfree
    · exact ih hfree
  | parent rest ih => exact ih hfree
  | file name kind st_dev rest ih =>
    rw [trace, List.filter_append, filter_around, ih hfree]
    rfl
  | dir name st_dev readable entries rest _ ihr =>
    obtain ⟨hname, hentries, hrest⟩ := hfree
    rw [← decide_eq_true_iff (p := EndsDotDot name)] at hname
    rw [trace, List.filter_append, filter_around, ihr hrest, trace_eq_paths hentries hname]
    rfl

theorem nil_mem_trace (hself : l.ListsSelf) : [] ∈ l.trace depth true := by
  induction l with
  | nil => exact hself.elim
  | self rest _ => exact List.mem_cons_self
  | parent rest ih => exact ih hself
  | file name kind st_dev rest ih => exact List.mem_append_right _ (ih hself)
  | dir name st_dev readable entries rest _ ih => exact List.mem_append_right _ (ih hself)

/-- **A name that ends with two dots** makes the walk visit its directory twice. -/
theorem not_nodup_trace (hfree : ¬ l.DotFree) :
    ¬ ((l.trace depth dots).filter (· ≠ [])).Nodup := by
  induction l generalizing dots with
  | nil => exact absurd trivial hfree
  | self rest ih =>
    rw [trace]
    split_ifs
    · exact ih hfree
    · exact ih hfree
  | parent rest ih => exact ih hfree
  | file name kind st_dev rest ih =>
    rw [trace, List.filter_append]
    exact fun h => ih hfree h.of_append_right
  | dir name st_dev readable entries rest ihe ihr =>
    rw [trace, List.filter_append, filter_around]
    intro h
    obtain ⟨hnil, hsub⟩ := Forest.nodup_around.1 h.of_append_left
    refine hfree ⟨fun hname => hnil ?_, ?_, ?_⟩
    · rw [decide_eq_true hname.1]
      exact nil_mem_trace hname.2
    · by_contra hentries
      exact ihe hentries (hsub.filter _)
    · by_contra hrest
      exact ihr hrest h.of_append_right

end Listing

/-! ## The whole walk -/

/-- What a walk over all entries does with the nodes below the starting directory. -/
theorem visitsOnce_iff_of_runs {depth : Bool} {tree : Tree} {w : Walk} {fits : Prop}
    {nodes : List (List Name)} (h : Runs w fits nodes) :
    VisitsOnce depth tree w ↔ fits ∧ (nodes.filter (· ≠ [])).Nodup ∧
      (∀ p, p ∈ nodes.filter (· ≠ []) ↔ tree.entries.forest.HasPath p) ∧
      (nodes.filter (· ≠ [])).Pairwise (Forest.Before depth) := by
  obtain ⟨hfits, calls, rfl, rfl⟩ | ⟨hnot, rfl⟩ := h
  · constructor
    · rintro ⟨ret, calls', hcalls, hvisits⟩
      cases hcalls
      exact ⟨hfits, hvisits⟩
    · rintro ⟨-, hvisits⟩
      exact ⟨0, calls, rfl, hvisits⟩
  · refine iff_of_false ?_ fun hboth => hnot hboth.1
    rintro ⟨ret, calls, hcalls, -⟩
    cases hcalls

/-- **The loop** on a device whose number is no value of an `int`: all entries are left out. -/
theorem runs_ftwLoop_skip {func : Call → ℤ} {depth : Bool} {l : Listing} {s : Frame}
    {D : BitVec 64} (hD : (D.setWidth 32).signExtend 64 ≠ D) (hst_dev : s.st_dev = D)
    (hdev : s.dev = D.setWidth 32) (hone : l.OneDevice D) :
    Runs (ftwLoop func depth l s) (l.Fits False s.path) [] := by
  have hne : D ≠ s.dev.signExtend 64 := hdev ▸ hD.symm
  induction l with
  | nil => exact Runs.nothing
  | self rest ih =>
    rw [ftwLoop, hst_dev, if_pos hne]
    exact (ih hone).store _
  | parent rest ih => exact (ih hone).store _
  | file name kind st_dev rest ih =>
    obtain ⟨rfl, hone⟩ := hone
    rw [ftwLoop, if_pos hne]
    exact (ih hone).store _
  | dir name st_dev readable entries rest _ ihr =>
    obtain ⟨rfl, -, hone⟩ := hone
    rw [ftwLoop, if_pos hne]
    refine ((ihr hone).store _).congr (and_congr_right' ?_) rfl
    exact (and_iff_right False.elim).symm

/-- A directory without files and directories. -/
theorem Listing.of_forest_eq_nil {l : Listing} (h : l.forest = .nil) (path : List UInt8) :
    l.DotFree ∧ (l.Fits False path ↔ l.Fits True path) := by
  induction l with
  | nil => exact ⟨trivial, Iff.rfl⟩
  | self rest ih => exact ⟨(ih h).1, and_congr_right' (ih h).2⟩
  | parent rest ih => exact ⟨(ih h).1, and_congr_right' (ih h).2⟩
  | file name kind st_dev rest _ => cases h
  | dir name st_dev readable entries rest _ _ => cases h

section Walk

variable {func : Call → ℤ} (hfunc : ∀ c, func c = 0) {depth : Bool} {l : Listing} {s : Frame}

include hfunc

/-- **The loop** on a device whose number is the value of an `int`: it goes through all entries and
enters all directories, if the paths fit. -/
theorem runs_ftwLoop {D : BitVec 64} (hD : (D.setWidth 32).signExtend 64 = D)
    (hst_dev : s.st_dev = D) (hdev : s.dev = D.setWidth 32) (hone : l.OneDevice D)
    (hread : l.Readable) (hdesc : (l.height : ℤ) ≤ s.descriptors)
    (hpath : s.path.getLast? = some slash) {dots : Bool}
    (hdots : skips s.level (temp s.path [dot]) [dot] ↔ ¬ dots = true) :
    Runs (ftwLoop func depth l s) (l.Fits True s.path)
      ((l.trace depth dots).map (s.node ++ ·)) := by
  induction l generalizing s dots with
  | nil => exact Runs.nothing
  | self rest ih =>
    have hrest := ih hst_dev hdev hone hread hdesc hpath hdots
    rw [ftwLoop, Listing.trace]
    refine Runs.store ?_ _
    rw [hdev, hD, if_neg (not_not.2 hst_dev)]
    by_cases h : dots = true
    · rw [if_neg (fun hskips => hdots.1 hskips h), if_pos h]
      refine (hrest.callThen _ (hfunc _)).congr Iff.rfl ?_
      rw [List.map_cons, List.append_nil]
    · rw [if_pos (hdots.2 h), if_neg h]
      exact hrest
  | parent rest ih => exact (ih hst_dev hdev hone hread hdesc hpath hdots).store _
  | file name kind st_dev rest ih =>
    have hrest := ih hst_dev hdev hone.2 hread hdesc hpath hdots
    rw [ftwLoop]
    refine Runs.store ?_ _
    rw [hdev, hD, if_neg (not_not.2 hone.1)]
    exact (hrest.callThen _ (hfunc _)).congr Iff.rfl (by simp [Listing.trace, Forest.around])
  | dir name st_dev readable entries rest ihe ihr =>
    obtain ⟨rfl, honee, honer⟩ := hone
    obtain ⟨hreadable, hreade, hreadr⟩ := hread
    rw [Listing.height, Nat.cast_max, max_le_iff, Nat.cast_add, Nat.cast_one] at hdesc
    have hrest := ihr hst_dev hdev honer hreadr hdesc.2 hpath hdots
    have hdots' : skips (s.level + 1) (temp (withSlash (temp s.path name.1)) [dot]) [dot] ↔
        ¬ decide (EndsDotDot name) = true := by
      rw [skips_self_iff hpath, decide_eq_true_iff]
    have hentries : Runs (ftwLoop func depth entries
        (enter (temp s.path name.1) st_dev s.descriptors (s.level + 1) (s.node ++ [name]))) _ _ :=
      ihe rfl rfl honee hreade (by change _ ≤ s.descriptors - 1; omega) (getLast?_withSlash _)
        hdots'
    have hsub := Runs.ftwRec hreadable (by omega) hentries
    rw [ftwLoop]
    refine Runs.store ?_ _
    rw [hdev, hD, if_neg (not_not.2 rfl), if_neg (not_skips_name _ _ _),
      if_neg (not_not.2 hreadable)]
    have hfits := and_congr_left' (c := rest.Fits True s.path) (true_imp_iff
      (α := (withSlash (temp s.path name.1)).length < PATH_MAX ∧
        entries.Fits True (withSlash (temp s.path name.1)))).symm
    cases depth with
    | true =>
      refine (hsub.recThen (hrest.callThen _ (hfunc _))).congr hfits ?_
      simp [Listing.trace, Forest.around, enter, Function.comp_def]
    | false =>
      refine ((hsub.recThen hrest).callThen _ (hfunc _)).congr hfits ?_
      simp [Listing.trace, Forest.around, enter, Function.comp_def]

/-- **`mynftw` visits every descendant once exactly if the tree is harmless**: no name of a
directory with the entry `.` ends with two dots, the paths fit, and the device number is the value
of an `int`. -/
theorem mynftw_visitsOnce_iff {tree : Tree} {descriptors : ℤ} (htree : tree.Suitable descriptors)
    (dir : Pathname) (depth : Bool) :
    VisitsOnce depth tree (mynftw func depth tree dir descriptors) ↔ Harmless tree dir := by
  obtain ⟨hdistinct, hone, hreadable, hread, hheight⟩ := htree
  by_cases hD : (tree.st_dev.setWidth 32).signExtend 64 = tree.st_dev
  · have hdots : skips 0 (temp (withSlash dir.1) [dot]) [dot] ↔
        ¬ decide (¬ skips 0 (temp (withSlash dir.1) [dot]) [dot]) = true := by
      rw [decide_eq_true_iff, not_not]
    have hloop : Runs (ftwLoop func depth tree.entries
        (enter dir.1 tree.st_dev descriptors 0 [])) _ _ :=
      runs_ftwLoop hfunc hD rfl rfl hone hread (by change _ ≤ descriptors - 1; omega)
        (getLast?_withSlash _) hdots
    have hruns := Runs.ftwRec hreadable (by omega) hloop
    have hnodes (l : List (List Name)) : l.map ([] ++ ·) = l := by simp
    rw [mynftw, visitsOnce_iff_of_runs (hruns.congr Iff.rfl (hnodes _))]
    constructor
    · rintro ⟨⟨hstart, hfits⟩, hnodup, -, -⟩
      refine ⟨Or.inl hD, ?_, hstart, hfits⟩
      by_contra hfree
      exact Listing.not_nodup_trace hfree hnodup
    · rintro ⟨-, hfree, hstart, hfits⟩
      rw [Listing.filter_trace hfree]
      exact ⟨⟨hstart, hfits⟩, Forest.nodup_paths hdistinct, fun p => Forest.mem_paths,
        Forest.pairwise_paths hdistinct⟩
  · have hloop : Runs (ftwLoop func depth tree.entries
        (enter dir.1 tree.st_dev descriptors 0 [])) _ _ := runs_ftwLoop_skip hD rfl rfl hone
    have hruns := Runs.ftwRec hreadable (by omega) hloop
    rw [mynftw, visitsOnce_iff_of_runs hruns]
    constructor
    · rintro ⟨⟨hstart, hfits⟩, -, hmem, -⟩
      have hnil := Forest.forall_not_hasPath.1 fun p hp => List.not_mem_nil ((hmem p).2 hp)
      obtain ⟨hfree, hiff⟩ := Listing.of_forest_eq_nil hnil (withSlash dir.1)
      exact ⟨Or.inr hnil, hfree, hstart, hiff.1 hfits⟩
    · rintro ⟨hdevice, -, hstart, hfits⟩
      have hnil := hdevice.resolve_left hD
      obtain ⟨-, hiff⟩ := Listing.of_forest_eq_nil hnil (withSlash dir.1)
      refine ⟨⟨hstart, hiff.2 hfits⟩, List.nodup_nil, fun p => ?_, List.Pairwise.nil⟩
      exact iff_of_false List.not_mem_nil (Forest.forall_not_hasPath.2 hnil p)

end Walk

/-- A tree with one directory, which is empty. -/
def oneDirectory (name : Name) : Tree where
  st_dev := 1
  readable := true
  entries := .self (.parent (.dir name 1 true (.self (.parent .nil)) .nil))

/-- The name `a`. -/
def nameA : Name := ⟨[97], by decide⟩

/-- The name `a..`. -/
def nameDots : Name := ⟨[97, dot, dot], by decide⟩

/-- The path `d`. -/
def pathD : Pathname := ⟨[100], by decide⟩

theorem oneDirectory_suitable (name : Name) : (oneDirectory name).Suitable 2 where
  distinct := ⟨List.not_mem_nil, trivial, trivial⟩
  oneDevice := ⟨rfl, trivial, trivial⟩
  readable := rfl
  allReadable := ⟨rfl, trivial, trivial⟩
  height_lt := (by decide : ((1 : ℕ) : ℤ) < 2)

/-- A directory `a` is visited once, and a directory `a..` is not. -/
theorem mynftw_visitsOnce_iff_oneDirectory :
    VisitsOnce false (oneDirectory nameA) (mynftw (fun _ => 0) false (oneDirectory nameA) pathD 2) ∧
      ¬ VisitsOnce false (oneDirectory nameDots)
        (mynftw (fun _ => 0) false (oneDirectory nameDots) pathD 2) := by
  have hiff (name : Name) := mynftw_visitsOnce_iff (fun _ => rfl) (oneDirectory_suitable name)
    pathD false
  have hA : Harmless (oneDirectory nameA) pathD :=
    { device := Or.inl (by decide)
      dotFree := ⟨fun h => absurd h.1 (by decide), trivial, trivial⟩
      start := by decide
      fits := ⟨by decide, by decide, by decide, fun _ => ⟨by decide, by decide, by decide, trivial⟩,
        trivial⟩ }
  refine ⟨(hiff nameA).2 hA, fun h => ?_⟩
  exact ((hiff nameDots).1 h).dotFree.1 ⟨by decide, trivial⟩

/-- The two calls for the directory `a..`. -/
theorem mynftw_nameDots :
    mynftw (fun _ => 0) false (oneDirectory nameDots) pathD 2 =
      .ok (0, [{ filename := [100, slash, 97, dot, dot]
                 flag := .FTW_D
                 info := none
                 node := [nameDots] },
        { filename := [100, slash, 97, dot, dot, slash, dot]
          flag := .FTW_D
          info := none
          node := [nameDots] }]) := rfl

/-- A directory `a..` is visited twice. -/
theorem not_visitsOnce_nameDots :
    ¬ VisitsOnce false (oneDirectory nameDots)
      (mynftw (fun _ => 0) false (oneDirectory nameDots) pathD 2) := by
  rintro ⟨ret, calls, hrun, hnodup, -⟩
  rw [mynftw_nameDots] at hrun
  cases hrun
  exact absurd hnodup (by decide)

end TlpiLearn.TreeWalk
