import TlpiLearn.Foundations.Constants
import TlpiLearn.Foundations.FileSystem
import TlpiLearn.Paths.GetCwd
import Mathlib.Tactic

/-!
# A copy of `realpath`

`myrealpath` of `18/3/18_3.c`, with `dirname` and `getcwd` as they are specified; `MAXBUF` is
`PATH_MAX`. The whole argument, and not its last component, is put behind the pathname of its
directory. `myrealpath_iff` says when that is a path to the same file.
-/

namespace TlpiLearn.RealPath

/-- The number of symbolic links that are followed. -/
def MAXSYMLINKS : ℕ := 40

variable {ι : Type*}

/-- The file of a path, for `stat` and `open`. -/
def namei (fs : FileSystem ι) (cwd : ι) (path : List UInt8) : Option ι :=
  if PATH_MAX ≤ path.length then none else fs.resolve MAXSYMLINKS cwd path

/-- `open(path, O_RDONLY)`; `readable` gives the files that can be read. -/
def openRead (fs : FileSystem ι) (readable : ι → Bool) (cwd : ι) (path : List UInt8) : Option ι :=
  (namei fs cwd path).filter readable

/-- `getcwd(buf, size)` in a directory. -/
def getcwd (fs : FileSystem ι) (cwd : ι) (buf : List UInt8) (size : ℕ) : Option (List UInt8) :=
  if (pathname (fs.place cwd)).length < size then
    some (pathname (fs.place cwd) ++ 0 :: buf.drop ((pathname (fs.place cwd)).length + 1))
  else none

/-- `myrealpath`: a null pointer or the array `resolved`. It faults (`none`) where it leaves the
array. -/
def myrealpath (fs : FileSystem ι) (readable : ι → Bool) (two : Bool) (cwd : ι) (name : CString)
    (resolved : List UInt8) : Option (Option (List UInt8)) :=
  if (namei fs cwd name).isNone then some none
  else if (openRead fs readable cwd [dot]).isNone then some none
  else
    let str := name.val.take (PATH_MAX - 1)
    match openRead fs readable cwd (dirname two str) with
    | none => some none
    | some fd =>
      -- `fchdir`
      if ¬ (fs.kind fd).IsDirectory then some none
      else
        match getcwd fs fd resolved PATH_MAX with
        | none => some none
        | some resolved =>
          ((strcat resolved [slash]).bind fun resolved => strcat resolved name).map some

/-- A component that is a name. -/
def IsName (c : List UInt8) : Prop := c ≠ [] ∧ c ≠ [dot] ∧ c ≠ [dot, dot]

/-- **What `realpath` stores**: an absolute path of names to the same file. -/
def IsReal (fs : FileSystem ι) (cwd : ι) (name s : List UInt8) : Prop :=
  s.head? = some slash ∧ (s = [slash] ∨ ∀ c ∈ (components s).tail, IsName c) ∧
    namei fs cwd s = namei fs cwd name

/-- The calls that store such a path: the directories can be opened, the directory of the argument
is not the root and its pathname leaves room for the argument, which consists of names only and
leads to the same file from there. -/
def RealPathWhen (fs : FileSystem ι) (readable : ι → Bool) (two : Bool) (cwd : ι)
    (name : CString) : Prop :=
  openRead fs readable cwd [dot] ≠ none ∧
    ∃ fd, openRead fs readable cwd (dirname two name) = some fd ∧ (fs.kind fd).IsDirectory ∧
      fd ≠ fs.root ∧ (pathname (fs.place fd)).length + (name.val.length + 1) < PATH_MAX ∧
      (∀ c ∈ components name, IsName c) ∧ namei fs fd name = namei fs cwd name

variable {fs : FileSystem ι} {readable : ι → Bool} {two : Bool} {cwd fd : ι} {name : CString}
  {resolved : List UInt8}

/-! ## The string that is stored -/

theorem zero_notMem_pathname (names : List FileName) : 0 ∉ pathname names := by
  have hslashed (l : List FileName) : 0 ∉ slashed l := by
    rw [slashed, List.mem_flatMap]
    rintro ⟨a, -, h⟩
    obtain h | h := List.mem_cons.1 h
    · exact absurd h (by decide)
    · exact a.val.property h
  rw [pathname]
  split_ifs
  · decide
  · exact hslashed _

theorem getcwd_eq_some {mem : List UInt8} (hlen : resolved.length = PATH_MAX)
    (h : getcwd fs fd resolved PATH_MAX = some mem) :
    cstr mem = pathname (fs.place fd) ∧ mem.length = PATH_MAX := by
  rw [getcwd] at h
  split_ifs at h with hfits
  cases h
  refine ⟨cstr_append_cons_zero (zero_notMem_pathname _) _, ?_⟩
  rw [List.length_append, List.length_cons, List.length_drop, hlen]
  omega

/-- The two `strcat` calls behind `getcwd`. -/
theorem exists_resolved (hlen : resolved.length = PATH_MAX)
    (hfits : (pathname (fs.place fd)).length + (name.val.length + 1) < PATH_MAX) :
    ∃ mem mem' mem'', getcwd fs fd resolved PATH_MAX = some mem ∧
      strcat mem [slash] = some mem' ∧ strcat mem' name = some mem'' := by
  obtain ⟨mem, hmem⟩ : ∃ mem, getcwd fs fd resolved PATH_MAX = some mem :=
    ⟨_, if_pos (by omega)⟩
  obtain ⟨hstr, hlen₀⟩ := getcwd_eq_some hlen hmem
  have hroom : (cstr mem).length + [slash].length < mem.length := by
    rw [hstr, hlen₀, List.length_singleton]
    omega
  obtain ⟨mem', hmem', -, hlen', hstr'⟩ := exists_strcat (by decide) hroom
  have hroom' : (cstr mem').length + name.val.length < mem'.length := by
    rw [hstr', hstr, hlen', hlen₀, List.length_append, List.length_singleton]
    omega
  obtain ⟨mem'', hmem'', -⟩ := exists_strcat name.property hroom'
  exact ⟨mem, mem', mem'', hmem, hmem', hmem''⟩

/-- What the array holds then. -/
theorem cstr_resolved {mem mem' mem'' : List UInt8} (hlen : resolved.length = PATH_MAX)
    (h : getcwd fs fd resolved PATH_MAX = some mem) (h' : strcat mem [slash] = some mem')
    (h'' : strcat mem' name = some mem'') :
    cstr mem'' = pathname (fs.place fd) ++ slash :: name.val ∧
      (pathname (fs.place fd)).length + (name.val.length + 1) < PATH_MAX := by
  obtain ⟨hstr, hlen₀⟩ := getcwd_eq_some hlen h
  obtain ⟨-, hlen', hstr'⟩ := strcat_eq_some (by decide) h'
  obtain ⟨hzero, hlen'', hstr''⟩ := strcat_eq_some name.property h''
  have hfull : cstr mem'' = pathname (fs.place fd) ++ slash :: name.val := by
    rw [hstr'', hstr', hstr, List.append_assoc, List.singleton_append]
  have hlt := length_cstr_lt hzero
  rw [hfull, hlen'', hlen', hlen₀, List.length_append, List.length_cons] at hlt
  exact ⟨hfull, hlt⟩

/-- **The call** stores the argument behind the pathname of its directory. -/
theorem myrealpath_eq_some_iff (readable : ι → Bool) (two : Bool) (name : CString)
    (hname : namei fs cwd name ≠ none) (hlen : resolved.length = PATH_MAX) (s : List UInt8) :
    (∃ mem, myrealpath fs readable two cwd name resolved = some (some mem) ∧ cstr mem = s) ↔
      openRead fs readable cwd [dot] ≠ none ∧
        ∃ fd, openRead fs readable cwd (dirname two name) = some fd ∧ (fs.kind fd).IsDirectory ∧
          (pathname (fs.place fd)).length + (name.val.length + 1) < PATH_MAX ∧
          s = pathname (fs.place fd) ++ slash :: name.val := by
  have hshort : name.val.length < PATH_MAX := by
    by_contra hlong
    exact hname (if_pos (not_lt.1 hlong))
  have htake : name.val.take (PATH_MAX - 1) = name := List.take_of_length_le (by omega)
  simp only [myrealpath, htake]
  rw [if_neg (by simpa using hname)]
  by_cases hopen : openRead fs readable cwd [dot] = none
  · rw [if_pos (by simp [hopen])]
    simp [hopen]
  rw [if_neg (by simpa using hopen), and_iff_right hopen]
  cases hfd : openRead fs readable cwd (dirname two name) with
  | none => simp
  | some fd =>
    simp only [Option.some.injEq, exists_eq_left']
    by_cases hdir : (fs.kind fd).IsDirectory
    · rw [if_neg (not_not.2 hdir), and_iff_right hdir]
      constructor
      · rintro ⟨mem'', hrun, rfl⟩
        cases hmem : getcwd fs fd resolved PATH_MAX with
        | none =>
          rw [hmem] at hrun
          cases hrun
        | some mem =>
          rw [hmem] at hrun
          obtain ⟨mem₂, hbind, heq⟩ := Option.map_eq_some_iff.1 hrun
          obtain ⟨mem', hmem', hmem''⟩ := Option.bind_eq_some_iff.1 hbind
          cases heq
          exact (cstr_resolved hlen hmem hmem' hmem'').symm
      · rintro ⟨hfits, rfl⟩
        obtain ⟨mem, mem', mem'', hmem, hmem', hmem''⟩ := exists_resolved hlen hfits
        refine ⟨mem'', ?_, (cstr_resolved hlen hmem hmem' hmem'').1⟩
        simp only [hmem, hmem', hmem'', Option.bind_some, Option.map_some]
    · rw [if_pos hdir]
      simp [hdir]

/-! ## The path that is stored -/

theorem head?_ne_of_names {s : List UInt8} (h : ∀ c ∈ components s, IsName c) :
    s.head? ≠ some slash ∧ s ≠ [] := by
  constructor
  · intro hhead
    obtain ⟨t, rfl⟩ := List.head?_eq_some_iff.1 hhead
    refine (h [] ?_).1 rfl
    rw [← List.nil_append (slash :: t), components_append]
    simp
  · rintro rfl
    exact (h [] (by simp)).1 rfl

/-- The components of the path are names if those of the argument are, and the directory is not the
root. -/
theorem names_iff (names : List FileName) (s : List UInt8) :
    (∀ c ∈ (components (pathname names ++ slash :: s)).tail, IsName c) ↔
      names ≠ [] ∧ ∀ c ∈ components s, IsName c := by
  rw [components_append, components_pathname, List.cons_append, List.tail_cons,
    List.forall_mem_append]
  refine and_congr_left fun _ => ?_
  split_ifs with hnil
  · refine iff_of_false (fun h => ?_) (not_not.2 hnil)
    exact (h [] (List.mem_singleton.2 rfl)).1 rfl
  · refine iff_of_true (fun c hc => ?_) hnil
    obtain ⟨a, -, rfl⟩ := List.mem_map.1 hc
    exact ⟨a.property.1, a.property.2.2⟩

theorem place_ne_nil_iff (hdir : (fs.kind fd).IsDirectory) : fs.place fd ≠ [] ↔ fd ≠ fs.root := by
  refine not_congr ⟨fun hnil => ?_, fun hroot => hroot ▸ fs.place_root⟩
  have hdescend := fs.descend_place hdir
  rw [hnil] at hdescend
  cases hdescend
  rfl

/-- The stored path is right if it consists of names, and they lead to the same file from the
directory. -/
theorem isReal_iff (hdir : (fs.kind fd).IsDirectory)
    (hfits : (pathname (fs.place fd)).length + (name.val.length + 1) < PATH_MAX) :
    IsReal fs cwd name (pathname (fs.place fd) ++ slash :: name.val) ↔
      fd ≠ fs.root ∧ (∀ c ∈ components name, IsName c) ∧
        namei fs fd name = namei fs cwd name := by
  obtain ⟨s, hs⟩ := exists_pathname (fs.place fd)
  have hhead : (pathname (fs.place fd) ++ slash :: name.val).head? = some slash := by
    rw [hs]
    rfl
  have hne : pathname (fs.place fd) ++ slash :: name.val ≠ [slash] := by
    rw [hs]
    simp
  rw [IsReal, and_iff_right hhead, or_iff_right hne, names_iff, place_ne_nil_iff hdir, and_assoc]
  refine and_congr_right fun _ => and_congr_right fun hnames => ?_
  obtain ⟨hrel, hnil⟩ := head?_ne_of_names hnames
  have hlong : ¬ PATH_MAX ≤ (pathname (fs.place fd) ++ slash :: name.val).length := by
    rw [List.length_append, List.length_cons]
    omega
  have hsame : namei fs cwd (pathname (fs.place fd) ++ slash :: name.val) = namei fs fd name := by
    rw [namei, namei, if_neg hlong, if_neg (by omega),
      fs.resolve_pathname_append hdir MAXSYMLINKS cwd hrel hnil]
  rw [hsame]

/-- **When `myrealpath` stores a path to the same file.** -/
theorem myrealpath_iff (readable : ι → Bool) (two : Bool) (name : CString)
    (hname : namei fs cwd name ≠ none) (hlen : resolved.length = PATH_MAX) :
    (∃ mem, myrealpath fs readable two cwd name resolved = some (some mem) ∧
        IsReal fs cwd name (cstr mem)) ↔ RealPathWhen fs readable two cwd name := by
  have hstored := myrealpath_eq_some_iff readable two name hname hlen
  constructor
  · rintro ⟨mem, hrun, hreal⟩
    obtain ⟨hopen, fd, hfd, hdir, hfits, hmem⟩ := (hstored (cstr mem)).1 ⟨mem, hrun, rfl⟩
    rw [hmem, isReal_iff hdir hfits] at hreal
    exact ⟨hopen, fd, hfd, hdir, hreal.1, hfits, hreal.2⟩
  · rintro ⟨hopen, fd, hfd, hdir, hroot, hfits, hnames⟩
    obtain ⟨mem, hrun, hmem⟩ := (hstored _).2 ⟨hopen, fd, hfd, hdir, hfits, rfl⟩
    refine ⟨mem, hrun, ?_⟩
    rw [hmem, isReal_iff hdir hfits]
    exact ⟨hroot, hnames⟩

/-- The files `/`, `/w`, `/w/a` and `/w/a/b`. -/
inductive ExampleFile
  | root
  | w
  | a
  | b
  deriving DecidableEq

/-- What is in these files. -/
def exampleKind : ExampleFile → FileKind ExampleFile
  | .root => .directory .root fun s => if s = [119] then some .w else none
  | .w => .directory .root fun s => if s = [97] then some .a else none
  | .a => .directory .w fun s => if s = [98] then some .b else none
  | .b => .other

/-- `w`. -/
def nameW : FileName := ⟨⟨[119], by decide⟩, by decide⟩

/-- The files `/`, `/w`, `/w/a` and `/w/a/b`. -/
def exampleFiles : FileSystem ExampleFile where
  kind := exampleKind
  root := .root
  place
    | .root => []
    | .w => [nameW]
    | .a => [GetCwd.nameA, nameW]
    | .b => []
  isDirectory_root := trivial
  place_root := rfl
  descend_place {i} h := by
    cases i with
    | root => rfl
    | w => rfl
    | a => rfl
    | b => exact h.elim

/-- `a` in the directory `/w`. -/
theorem myrealpath_a :
    ∃ mem, myrealpath exampleFiles (fun _ => true) true .w ⟨[97], by decide⟩
        (List.replicate PATH_MAX 0) = some (some mem) ∧
      IsReal exampleFiles .w [97] (cstr mem) :=
  (myrealpath_iff (fun _ => true) true ⟨[97], by decide⟩ (by decide) List.length_replicate).2
    ⟨by decide, .w, by decide, by decide, by decide, by decide, fun c hc => by
      rw [components_of_notMem (by decide), List.mem_singleton] at hc
      subst hc
      exact ⟨by decide, by decide, by decide⟩, by decide⟩

/-- `a/b` in the directory `/w`. -/
theorem not_isReal_a_b :
    ¬ ∃ mem, myrealpath exampleFiles (fun _ => true) true .w ⟨[97, 47, 98], by decide⟩
        (List.replicate PATH_MAX 0) = some (some mem) ∧
      IsReal exampleFiles .w [97, 47, 98] (cstr mem) := by
  rintro ⟨mem, hrun, hreal⟩
  have hexists : namei exampleFiles .w [97, 47, 98] ≠ none := by decide
  obtain ⟨-, fd, hfd, hdir, hfits, hmem⟩ := (myrealpath_eq_some_iff (fun _ => true) true
    ⟨[97, 47, 98], by decide⟩ hexists List.length_replicate (cstr mem)).1
      ⟨mem, hrun, rfl⟩
  have hdirname :
      openRead exampleFiles (fun _ => true) .w (dirname true [97, 47, 98]) = some .a := by
    decide
  obtain rfl : .a = fd := Option.some.inj (hdirname.symm.trans hfd)
  rw [hmem] at hreal
  have hsame := ((isReal_iff hdir hfits).1 hreal).2.2
  exact absurd hsame (by decide)

end TlpiLearn.RealPath
