import TlpiLearn.Foundations.Constants
import TlpiLearn.Foundations.Pathname
import Mathlib.Tactic

/-!
# A copy of `getcwd`

`mygetcwd` of `18/5/18_5.c`. It climbs to the root with `chdir("..")`, looks up in each directory
the name of the one it came from, and collects the names in an array of `PATH_MAX` bytes; then the
names go into the caller's buffer in the opposite order (`finish_reverses`). The size of the buffer
is not looked at, the root gives the empty string (`mygetcwd_computes_iff`), and a `chdir` that
fails on the way leaves the process where it is (`mygetcwd_restores_iff`).
-/

namespace TlpiLearn.GetCwd

/-- A directory, by the names that lead to it from the root; the last one comes first. -/
abbrev Node := List FileName

/-- What `stat`, `readdir` and `stat` of an entry say in the directories. -/
structure Volume where
  ino : Node → ℕ
  dev : Node → ℕ
  entries : Node → List (CString × ℕ)
  entryDev : Node → CString → ℕ

/-- The calls at one level of the climb. -/
inductive Call where
  | chdir
  | stat
  | opendir
  | readdir (k : ℕ)
  | statEntry (k : ℕ)
  | statAgain

/-- The calls that fail. -/
structure Failures where
  openDot : Bool
  statDot : Bool
  climb : ℕ → Call → Bool

/-- The calls all succeed. -/
def Failures.none : Failures := ⟨false, false, fun _ _ => false⟩

/-- The inner loop from the `k`-th entry on: the name of the entry with the number `ino` on the
device `dev`, or `none` if the function gives up. -/
def scan (fails : Call → Bool) (entryDev : CString → ℕ) (ino dev : ℕ) :
    ℕ → List (CString × ℕ) → Option CString
  | _, [] => none
  | k, (d_name, d_ino) :: rest =>
    if fails (.readdir k) then none
    else if ino = d_ino then
      if fails (.statEntry k) then none
      else if dev = entryDev d_name then some d_name
      else scan fails entryDev ino dev (k + 1) rest
    else scan fails entryDev ino dev (k + 1) rest

/-- The two `strcat` calls for a name. -/
def addName (mem : List UInt8) (name : List UInt8) : Option (List UInt8) := do
  let mem ← strcat mem name
  strcat mem [slash]

/-- How the climb ends: a null pointer is returned in a directory, or the names are complete. -/
inductive Climb where
  | null (cwd : Node)
  | top (retemp : List UInt8)

/-- The climb from a directory; `fails` starts with the calls at this level. It faults (`none`)
where it leaves the array. -/
def climb (v : Volume) (origin : Node) (fails : ℕ → Call → Bool) (retemp : List UInt8) :
    Node → Option Climb
  | [] =>
    if fails 0 .chdir then some (.null [])
    else if fails 0 .stat then some (.null origin)
    -- the root is its own parent, so that the test for the root succeeds
    else some (.top retemp)
  | a :: up =>
    if fails 0 .chdir then some (.null (a :: up))
    else if fails 0 .stat then some (.null origin)
    else if v.ino (a :: up) = v.ino up ∧ v.dev (a :: up) = v.dev up then some (.top retemp)
    else if fails 0 .opendir then some (.null origin)
    else
      match scan (fails 0) (v.entryDev up) (v.ino (a :: up)) (v.dev (a :: up)) 0
          (v.entries up) with
      | none => some (.null origin)
      | some d_name =>
        (addName retemp d_name).bind fun retemp =>
          if fails 0 .statAgain then some (.null origin)
          else climb v origin (fun level => fails (level + 1)) retemp up

/-- `strrchr(s, '/')`. -/
def strrchr (s : List UInt8) : Option ℕ :=
  if slash ∈ s then some ((stripName s).length - 1) else none

/-- The last loop; `n` bounds the length of the string in `retemp`. -/
def turn : ℕ → List UInt8 → List UInt8 → Option (List UInt8)
  | 0, _, buf => some buf
  | n + 1, retemp, buf =>
    match strrchr (cstr retemp) with
    | none => some buf
    | some p =>
      (addName buf ((cstr retemp).drop (p + 1))).bind fun buf => turn n (retemp.set p 0) buf

/-- The lines behind the climb. -/
def finish (retemp buf : List UInt8) : Option (List UInt8) :=
  -- `sprintf` of `/` into the buffer
  if buf.length < 2 then none
  else
    let retemp := retemp.set ((cstr retemp).length - 1) 0
    (turn (cstr retemp).length retemp (slash :: 0 :: buf.drop 2)).map fun buf =>
      buf.set ((cstr buf).length - 1) 0

/-- The return behind the climb. -/
def leave (buf : List UInt8) (origin : Node) : Climb → Option (Option (List UInt8) × Node)
  | .null cwd => some (none, cwd)
  | .top retemp => (finish retemp buf).map fun buf => (some buf, origin)

/-- `mygetcwd` in the directory `cwd`: the buffer or a null pointer, and the directory of the
process. -/
def mygetcwd (v : Volume) (fails : Failures) (buf : List UInt8) (cwd : Node) :
    Option (Option (List UInt8) × Node) :=
  if fails.openDot ∨ fails.statDot then some (none, cwd)
  else
    (climb v cwd fails.climb (slash :: List.replicate (PATH_MAX - 1) 0) cwd).bind (leave buf cwd)

/-- A tree of directories on one file system: no other entry of a directory has the number of a
directory in it. -/
structure Volume.IsTree (v : Volume) (IsDir : Node → Prop) : Prop where
  isDir_nil : IsDir []
  isDir_up : ∀ {a up}, IsDir (a :: up) → IsDir up
  dev_eq : ∀ n, v.dev n = v.dev []
  entryDev_eq : ∀ n s, v.entryDev n s = v.dev []
  ino_inj : ∀ {m n}, IsDir m → IsDir n → v.ino m = v.ino n → m = n
  listed : ∀ {a up}, IsDir (a :: up) → (a.val, v.ino (a :: up)) ∈ v.entries up
  unique : ∀ {a up s}, IsDir (a :: up) → (s, v.ino (a :: up)) ∈ v.entries up → s = a.val

/-- **What has to hold of the directory** of the process when the function returns. -/
def Restores (cwd : Node) (r : Option (Option (List UInt8) × Node)) : Prop :=
  ∀ ret cwd', r = some (ret, cwd') → cwd' = cwd

/-- The name that is found at a level, if the climb does not end there. -/
def levelName (v : Volume) (fails : Call → Bool) : Node → Option CString
  | [] => none
  | a :: up =>
    if fails .chdir ∨ fails .stat ∨ (v.ino (a :: up) = v.ino up ∧ v.dev (a :: up) = v.dev up) ∨
        fails .opendir then none
    else scan fails (v.entryDev up) (v.ino (a :: up)) (v.dev (a :: up)) 0 (v.entries up)

/-- The climb passes a level for each of the names, and finds them. -/
def Climbs (v : Volume) : (ℕ → Call → Bool) → Node → List CString → Prop
  | _, _, [] => True
  | fails, n, name :: names =>
    levelName v (fails 0) n = some name ∧ fails 0 .statAgain = false ∧
      Climbs v (fun level => fails (level + 1)) n.tail names

/-- The names with a slash behind each. -/
def joined (names : List CString) : List UInt8 :=
  names.flatMap fun name : CString => name.val ++ [slash]

/-- The names with a slash in front of each. -/
def rooted (names : List CString) : List UInt8 :=
  names.flatMap fun name : CString => slash :: name.val

/-- The turns of the last loop on `retemp` and `buf`, up to its `break`; then `buf` is the last
one. -/
inductive Turns : List UInt8 → List UInt8 → List UInt8 → Prop
  | stop {retemp buf : List UInt8} (h : strrchr (cstr retemp) = none) : Turns retemp buf buf
  | next {retemp buf buf' out : List UInt8} {p : ℕ} (h : strrchr (cstr retemp) = some p)
      (hadd : addName buf ((cstr retemp).drop (p + 1)) = some buf')
      (hrest : Turns (retemp.set p 0) buf' out) : Turns retemp buf out

/-- **What `getcwd` does**: the pathname is in the buffer if it fits, with its null byte. -/
def Computes (cwd : Node) (size : ℕ) (r : Option (Option (List UInt8) × Node)) : Prop :=
  if (pathname cwd).length < size then
    ∃ buf cwd', r = some (some buf, cwd') ∧ pathname cwd ++ [0] <+: buf
  else ∃ cwd', r = some (none, cwd')

/-- The calls of a run that bring the process back: behind the first level passed, no `chdir` fails
at a level that the climb gets to. -/
def RestoresWhen (v : Volume) (fails : Failures) (cwd : Node) : Prop :=
  fails.openDot = true ∨ fails.statDot = true ∨
    ∀ names, names ≠ [] → Climbs v fails.climb cwd names →
      1 + (joined names).length < PATH_MAX → fails.climb names.length .chdir = false

variable {v : Volume} {IsDir : Node → Prop} {fails : ℕ → Call → Bool} {origin n : Node}
  {mem retemp buf : List UInt8}

/-! ## Names in an array -/

theorem joined_cons (name : CString) (names : List CString) :
    joined (name :: names) = name.val ++ [slash] ++ joined names := List.flatMap_cons

theorem length_joined_concat (names : List CString) (name : CString) :
    (joined (names ++ [name])).length = (joined names).length + (name.val ++ [slash]).length := by
  rw [joined, List.flatMap_append, List.length_append, List.flatMap_singleton, joined]

theorem exists_addName {name : List UInt8} (hname : 0 ∉ name)
    (h : (cstr mem).length + (name ++ [slash]).length < mem.length) :
    ∃ mem', addName mem name = some mem' ∧ 0 ∈ mem' ∧ mem'.length = mem.length ∧
      cstr mem' = cstr mem ++ (name ++ [slash]) := by
  rw [List.length_append, List.length_singleton] at h
  have hfits : (cstr mem).length + name.length < mem.length := by omega
  obtain ⟨mem₁, h₁, -, hlen₁, hstr₁⟩ := exists_strcat hname hfits
  have hfits₁ : (cstr mem₁).length + [slash].length < mem₁.length := by
    rw [hstr₁, hlen₁, List.length_append, List.length_singleton]
    omega
  obtain ⟨mem₂, h₂, hzero, hlen₂, hstr₂⟩ := exists_strcat (by decide) hfits₁
  refine ⟨mem₂, ?_, hzero, hlen₂.trans hlen₁, ?_⟩
  · rw [addName, h₁, Option.bind_eq_bind, Option.bind_some, h₂]
  · rw [hstr₂, hstr₁, List.append_assoc]

/-- A name that does not fit leaves the array. -/
theorem addName_eq_none {name : List UInt8} (hname : 0 ∉ name)
    (h : mem.length ≤ (cstr mem).length + (name ++ [slash]).length) :
    addName mem name = none := by
  rw [addName, Option.bind_eq_bind, Option.bind_eq_none_iff]
  intro mem₁ h₁
  obtain ⟨-, hlen₁, hstr₁⟩ := strcat_eq_some hname h₁
  rw [strcat_eq_none_iff, hlen₁, hstr₁, List.length_append, List.length_singleton]
  rw [List.length_append, List.length_singleton] at h
  omega

/-! ## The way up -/

/-- The entry of a directory in its parent is found. -/
theorem scan_eq_some {entries : List (CString × ℕ)} {entryDev : CString → ℕ} {ino dev : ℕ}
    {s : CString} (hmem : (s, ino) ∈ entries) (huniq : ∀ t, (t, ino) ∈ entries → t = s)
    (hdev : dev = entryDev s) (k : ℕ) :
    scan (fun _ => false) entryDev ino dev k entries = some s := by
  induction entries generalizing k with
  | nil => cases hmem
  | cons e entries ih =>
    obtain ⟨t, i⟩ := e
    rw [scan, if_neg Bool.false_ne_true]
    split_ifs with hino hfail hdev'
    · cases hfail
    · rw [huniq t (hino ▸ List.mem_cons_self)]
    · exact absurd (huniq t (hino ▸ List.mem_cons_self) ▸ hdev) hdev'
    · have hmem' : (s, ino) ∈ entries := by
        refine (List.mem_cons.1 hmem).resolve_left fun heq => hino ?_
        exact (Prod.ext_iff.1 heq).2
      exact ih hmem' (fun t ht => huniq t (List.mem_cons_of_mem _ ht)) (k + 1)

/-- One level of the climb. -/
theorem climb_cons (hv : v.IsTree IsDir) {a : FileName} {up : Node} (h : IsDir (a :: up))
    (retemp : List UInt8) :
    climb v origin (fun _ _ => false) retemp (a :: up) =
      (addName retemp a.val).bind fun retemp =>
        climb v origin (fun _ _ => false) retemp up := by
  have hne : ¬ (v.ino (a :: up) = v.ino up ∧ v.dev (a :: up) = v.dev up) := by
    rintro ⟨hino, -⟩
    exact List.cons_ne_self a up (hv.ino_inj h (hv.isDir_up h) hino)
  have hdev : v.dev (a :: up) = v.entryDev up a.val := by
    rw [hv.dev_eq, hv.entryDev_eq]
  have hscan := scan_eq_some (hv.listed h) (fun _ ht => hv.unique h ht) hdev 0
  simp only [climb, Bool.false_eq_true, if_false, if_neg hne, hscan]

/-- **The whole climb** adds the names of the directory and of those above it. -/
theorem climb_of_fits (origin : Node) (hv : v.IsTree IsDir) (h : IsDir n)
    (hfits : (cstr retemp).length + (joined (n.map Subtype.val)).length < retemp.length) :
    ∃ retemp', climb v origin (fun _ _ => false) retemp n = some (.top retemp') ∧
      cstr retemp' = cstr retemp ++ joined (n.map Subtype.val) := by
  induction n generalizing retemp with
  | nil => exact ⟨retemp, rfl, (List.append_nil _).symm⟩
  | cons a up ih =>
    rw [List.map_cons, joined_cons, List.length_append] at hfits
    have hname : (cstr retemp).length + (a.val.val ++ [slash]).length < retemp.length := by omega
    obtain ⟨mem', hmem', -, hlen, hstr⟩ := exists_addName a.val.property hname
    have hrest : (cstr mem').length + (joined (up.map Subtype.val)).length < mem'.length := by
      rw [hstr, hlen, List.length_append]
      omega
    obtain ⟨retemp', hclimb, hstr'⟩ := ih (hv.isDir_up h) hrest
    refine ⟨retemp', ?_, ?_⟩
    · rw [climb_cons hv h, hmem', Option.bind_some, hclimb]
    · rw [hstr', hstr, List.map_cons, joined_cons, List.append_assoc]

/-- Names that do not fit leave the array. -/
theorem climb_of_not_fits (origin : Node) (hv : v.IsTree IsDir) (h : IsDir n) (hmem : 0 ∈ retemp)
    (hfits : retemp.length ≤ (cstr retemp).length + (joined (n.map Subtype.val)).length) :
    climb v origin (fun _ _ => false) retemp n = none := by
  induction n generalizing retemp with
  | nil => exact absurd (length_cstr_lt hmem) (not_lt.2 hfits)
  | cons a up ih =>
    rw [List.map_cons, joined_cons, List.length_append] at hfits
    rw [climb_cons hv h]
    by_cases hname : (cstr retemp).length + (a.val.val ++ [slash]).length < retemp.length
    · obtain ⟨mem', hmem', hzero, hlen, hstr⟩ := exists_addName a.val.property hname
      rw [hmem', Option.bind_some]
      refine ih (hv.isDir_up h) hzero ?_
      rw [hstr, hlen, List.length_append]
      omega
    · rw [addName_eq_none a.val.property (not_lt.1 hname), Option.bind_none]

/-! ## The way down -/

theorem strrchr_append {s t : List UInt8} (ht : slash ∉ t) :
    strrchr (s ++ slash :: t) = some s.length := by
  rw [strrchr, if_pos (by simp), stripName_append ht, List.length_append]
  rfl

theorem turn_of_nil (h : cstr retemp = []) (k : ℕ) : turn k retemp buf = some buf := by
  cases k with
  | zero => rfl
  | succ k =>
    rw [turn, h]
    rfl

theorem rooted_concat (names : List CString) (name : CString) :
    rooted (names ++ [name]) = rooted names ++ slash :: name.val := by
  rw [rooted, List.flatMap_append, List.flatMap_singleton, rooted]

/-- The last name is what `strrchr` finds. -/
theorem strrchr_rooted_concat (names : List CString) {name : CString} (hname : slash ∉ name.val) :
    strrchr (rooted (names ++ [name])) = some (rooted names).length ∧
      (rooted (names ++ [name])).drop ((rooted names).length + 1) = name.val := by
  rw [rooted_concat]
  refine ⟨strrchr_append hname, ?_⟩
  rw [List.append_cons]
  exact List.drop_left' (by simp)

/-- The store behind `strcat` leaves the names in front of the last one. -/
theorem cstr_set_rooted {names : List CString} {name : CString}
    (hstr : cstr retemp = rooted (names ++ [name])) :
    cstr (retemp.set (rooted names).length 0) = rooted names := by
  rw [cstr_set, hstr, rooted_concat, List.take_left]

/-- A turn of the last loop. -/
theorem turn_concat {names : List CString} {name : CString} {k : ℕ} (hname : slash ∉ name.val)
    (hstr : cstr retemp = rooted (names ++ [name])) :
    turn (k + 1) retemp buf = (addName buf name.val).bind fun buf =>
      turn k (retemp.set (rooted names).length 0) buf := by
  obtain ⟨hlast, hdrop⟩ := strrchr_rooted_concat names hname
  simp only [turn, hstr, hlast, hdrop]

/-- **The last loop** ends, and moves the names, with the last one first. -/
theorem exists_turns {names : List CString} (hnames : ∀ name ∈ names, slash ∉ name.val)
    (hstr : cstr retemp = rooted names)
    (hfits : (cstr buf).length + (joined names).length < buf.length) :
    ∃ buf', Turns retemp buf buf' ∧ buf'.length = buf.length ∧
      cstr buf' = cstr buf ++ joined names.reverse := by
  induction names using List.reverseRecOn generalizing retemp buf with
  | nil =>
    refine ⟨buf, .stop ?_, rfl, (List.append_nil _).symm⟩
    rw [hstr]
    rfl
  | append_singleton names name ih =>
    have hlast : slash ∉ name.val := hnames name (by simp)
    rw [length_joined_concat] at hfits
    have hroom : (cstr buf).length + (name.val ++ [slash]).length < buf.length := by omega
    obtain ⟨buf', hbuf', -, hlen, hstr'⟩ := exists_addName name.property hroom
    have hrest : (cstr buf').length + (joined names).length < buf'.length := by
      rw [hstr', hlen, List.length_append]
      omega
    obtain ⟨buf'', hturns, hlen', hstr''⟩ :=
      ih (fun a ha => hnames a (List.mem_append_left _ ha)) (cstr_set_rooted hstr) hrest
    obtain ⟨hp, hdrop⟩ := strrchr_rooted_concat names hlast
    refine ⟨buf'', .next (by rw [hstr, hp]) (by rw [hstr, hdrop, hbuf']) hturns,
      hlen'.trans hlen, ?_⟩
    rw [hstr'', hstr', List.reverse_concat, joined_cons, List.append_assoc]

/-- The position that `strrchr` finds is in the string. -/
theorem strrchr_lt {s : List UInt8} {p : ℕ} (h : strrchr s = some p) : p < s.length := by
  rw [strrchr] at h
  split_ifs at h with hmem
  obtain ⟨d, f, rfl, hf⟩ := exists_last_slash hmem
  rw [stripName_append hf, List.length_append, Option.some.injEq] at h
  rw [List.length_append, List.length_cons]
  simp at h
  omega

/-- A loop that ends is the loop with the length of the string for its bound. -/
theorem Turns.turn_eq {out : List UInt8} (h : Turns retemp buf out) {k : ℕ}
    (hk : (cstr retemp).length ≤ k) : turn k retemp buf = some out := by
  induction h generalizing k with
  | stop h =>
    cases k with
    | zero => rfl
    | succ k => rw [turn, h]
  | next h hadd hrest ih =>
    have hp := strrchr_lt h
    obtain ⟨k, rfl⟩ : ∃ j, k = j + 1 := ⟨k - 1, by omega⟩
    rw [turn, h]
    simp only [hadd, Option.bind_some]
    refine ih ?_
    rw [cstr_set, List.length_take]
    omega

/-- Names that do not fit leave the buffer. -/
theorem turn_of_not_fits {names : List CString} {k : ℕ}
    (hnames : ∀ name ∈ names, slash ∉ name.val) (hk : (rooted names).length ≤ k)
    (hstr : cstr retemp = rooted names) (hbuf : 0 ∈ buf)
    (hfits : buf.length ≤ (cstr buf).length + (joined names).length) :
    turn k retemp buf = none := by
  induction names using List.reverseRecOn generalizing k retemp buf with
  | nil => exact absurd (length_cstr_lt hbuf) (not_lt.2 hfits)
  | append_singleton names name ih =>
    rw [rooted_concat, List.length_append, List.length_cons] at hk
    obtain ⟨k, rfl⟩ : ∃ j, k = j + 1 := ⟨k - 1, by omega⟩
    rw [length_joined_concat] at hfits
    rw [turn_concat (hnames name (by simp)) hstr]
    by_cases hname : (cstr buf).length + (name.val ++ [slash]).length < buf.length
    · obtain ⟨buf', hbuf', hzero, hlen, hstr'⟩ := exists_addName name.property hname
      rw [hbuf', Option.bind_some]
      refine ih (fun a ha => hnames a (List.mem_append_left _ ha)) (by omega)
        (cstr_set_rooted hstr) hzero ?_
      rw [hstr', hlen, List.length_append]
      omega
    · rw [addName_eq_none name.property (not_lt.1 hname), Option.bind_none]

/-! ## The pathname -/

/-- The names with the slashes moved to the front. -/
theorem slash_cons_joined (names : List CString) :
    slash :: joined names = rooted names ++ [slash] := by
  induction names with
  | nil => rfl
  | cons name names ih =>
    have hcons : rooted (name :: names) = slash :: name.val ++ rooted names := List.flatMap_cons
    rw [joined_cons, List.append_assoc, List.singleton_append, ih, hcons, List.append_assoc,
      List.cons_append]

theorem length_rooted (names : List CString) : (rooted names).length = (joined names).length := by
  have h := congrArg List.length (slash_cons_joined names)
  rw [List.length_cons, List.length_append, List.length_singleton] at h
  omega

theorem length_joined_reverse (names : List CString) :
    (joined names.reverse).length = (joined names).length :=
  ((List.reverse_perm names).flatMap_right _).length_eq

theorem rooted_map (n : Node) : rooted (n.map Subtype.val) = slashed n := List.flatMap_map ..

theorem pathname_eq_rooted (h : n ≠ []) :
    pathname n = rooted (n.map Subtype.val).reverse := by
  rw [pathname, if_neg h, ← List.map_reverse, rooted_map]

theorem length_pathname (h : n ≠ []) :
    (pathname n).length = (joined (n.map Subtype.val)).length := by
  rw [pathname_eq_rooted h, length_rooted, length_joined_reverse]

theorem slash_notMem_names (n : Node) : ∀ name ∈ n.map Subtype.val, slash ∉ name.val := by
  intro name hname
  obtain ⟨a, -, rfl⟩ := List.mem_map.1 hname
  exact a.property.2.1

/-- The end of the call with the names of the climb: the state in front of the last loop. -/
theorem finish_eq {names : List CString} (hstr : cstr retemp = slash :: joined names)
    (hbuf : 2 ≤ buf.length) :
    finish retemp buf =
        (turn (cstr (retemp.set ((cstr retemp).length - 1) 0)).length
          (retemp.set ((cstr retemp).length - 1) 0) (slash :: 0 :: buf.drop 2)).map
          (fun buf => buf.set ((cstr buf).length - 1) 0) ∧
      cstr (retemp.set ((cstr retemp).length - 1) 0) = rooted names ∧
      cstr (slash :: 0 :: buf.drop 2) = [slash] ∧
      (slash :: 0 :: buf.drop 2).length = buf.length := by
  refine ⟨if_neg (not_lt.2 hbuf), ?_, cstr_append_cons_zero (s := [slash]) (by decide) _, ?_⟩
  · rw [cstr_set_pred, hstr, slash_cons_joined, List.dropLast_concat]
  · rw [List.length_cons, List.length_cons, List.length_drop]
    omega

/-- The last loop with room for the names, one more slash and the null byte. -/
theorem exists_turns_finish {names : List CString} (hnames : ∀ name ∈ names, slash ∉ name.val)
    (hstr : cstr retemp = slash :: joined names.reverse)
    (hfits : (rooted names).length + 2 ≤ buf.length) :
    ∃ out, Turns (retemp.set ((cstr retemp).length - 1) 0) (slash :: 0 :: buf.drop 2) out ∧
      finish retemp buf = some (out.set ((cstr out).length - 1) 0) ∧
      cstr out = rooted names ++ [slash] ∧ out.length = buf.length := by
  obtain ⟨hfinish, hretemp, hbuf, hlen⟩ := finish_eq hstr (show 2 ≤ buf.length by omega)
  have hroom : (cstr (slash :: 0 :: buf.drop 2)).length + (joined names.reverse).length <
      (slash :: 0 :: buf.drop 2).length := by
    rw [hbuf, hlen, length_joined_reverse, ← length_rooted, List.length_singleton]
    omega
  obtain ⟨out, hturns, hlen', hout⟩ :=
    exists_turns (fun name hname => hnames name (List.mem_reverse.1 hname)) hretemp hroom
  rw [hbuf, List.reverse_reverse, List.singleton_append, slash_cons_joined] at hout
  refine ⟨out, hturns, ?_, hout, hlen'.trans hlen⟩
  rw [hfinish, hturns.turn_eq le_rfl, Option.map_some]

/-- The string of the last loop without its last slash. -/
theorem cstr_set_concat {s : List UInt8} (h : cstr buf = s ++ [slash]) :
    cstr (buf.set ((cstr buf).length - 1) 0) = s ∧
      (s.length < buf.length → 0 ∈ buf.set ((cstr buf).length - 1) 0) := by
  have hstr : cstr (buf.set ((cstr buf).length - 1) 0) = s := by
    rw [cstr_set_pred, h, List.dropLast_concat]
  refine ⟨hstr, fun hlen => zero_mem_of_length_lt ?_⟩
  rw [hstr, List.length_set]
  exact hlen

/-- A buffer with room for the pathname, one more slash and the null byte. -/
theorem finish_of_fits (hn : n ≠ []) (hstr : cstr retemp = slash :: joined (n.map Subtype.val))
    (hfits : (pathname n).length + 2 ≤ buf.length) :
    ∃ buf', finish retemp buf = some buf' ∧ pathname n ++ [0] <+: buf' := by
  have hnames : ∀ name ∈ (n.map Subtype.val).reverse, slash ∉ name.val :=
    fun name hname => slash_notMem_names n name (List.mem_reverse.1 hname)
  rw [pathname_eq_rooted hn] at hfits ⊢
  rw [← List.reverse_reverse (n.map Subtype.val)] at hstr
  obtain ⟨out, -, hfinish, hout, hlen⟩ := exists_turns_finish hnames hstr hfits
  obtain ⟨hpath, hzero⟩ := cstr_set_concat hout
  exact ⟨_, hfinish, (cstr_eq_iff (hpath ▸ zero_notMem_cstr _)).1 ⟨hzero (by omega), hpath⟩⟩

/-- A smaller buffer. -/
theorem finish_of_not_fits (hn : n ≠ [])
    (hstr : cstr retemp = slash :: joined (n.map Subtype.val))
    (hfits : buf.length < (pathname n).length + 2) : finish retemp buf = none := by
  by_cases hbuf : buf.length < 2
  · exact if_pos hbuf
  · obtain ⟨hfinish, hretemp, hbuf₁, hlen⟩ := finish_eq hstr (not_lt.1 hbuf)
    have hroom : (slash :: 0 :: buf.drop 2).length ≤
        (cstr (slash :: 0 :: buf.drop 2)).length + (joined (n.map Subtype.val)).length := by
      rw [hbuf₁, hlen, ← length_pathname hn, List.length_singleton]
      omega
    rw [hfinish, turn_of_not_fits (slash_notMem_names n) (by rw [hretemp]) hretemp (by simp) hroom,
      Option.map_none]

/-- **The names in the opposite order.** With the names in `retemp`, the deepest one first, the last
loop gets to its `break`, and the string in the buffer has them behind their slashes. -/
theorem finish_reverses {names : List CString} (hnames : ∀ name ∈ names, slash ∉ name.val)
    (hstr : cstr retemp = slash :: joined names.reverse)
    (hfits : (rooted names).length + 2 ≤ buf.length) :
    ∃ out, Turns (retemp.set ((cstr retemp).length - 1) 0) (slash :: 0 :: buf.drop 2) out ∧
      finish retemp buf = some (out.set ((cstr out).length - 1) 0) ∧
      0 ∈ out.set ((cstr out).length - 1) 0 ∧
      cstr (out.set ((cstr out).length - 1) 0) = rooted names := by
  obtain ⟨out, hturns, hfinish, hout, hlen⟩ := exists_turns_finish hnames hstr hfits
  obtain ⟨hpath, hzero⟩ := cstr_set_concat hout
  exact ⟨out, hturns, hfinish, hzero (by omega), hpath⟩

theorem zero_notMem_a : (0 : UInt8) ∉ [97] := by decide

theorem zero_notMem_parent : (0 : UInt8) ∉ [98, 99] := by decide

/-- `/a/bc/` from the deepest directory gives `/bc/a`. -/
theorem finish_reverses_two :
    ∃ out, Turns (([47, 97, 47, 98, 99, 47, 0] : List UInt8).set 5 0) [47, 0, 0, 0, 0, 0, 0] out ∧
      finish [47, 97, 47, 98, 99, 47, 0] [0, 0, 0, 0, 0, 0, 0] =
        some (out.set ((cstr out).length - 1) 0) ∧
      0 ∈ out.set ((cstr out).length - 1) 0 ∧
      cstr (out.set ((cstr out).length - 1) 0) = [47, 98, 99, 47, 97] :=
  @finish_reverses [47, 97, 47, 98, 99, 47, 0] [0, 0, 0, 0, 0, 0, 0]
    [⟨[98, 99], zero_notMem_parent⟩, ⟨[97], zero_notMem_a⟩] (by decide) (by decide) (by decide)

/-- The root gives the empty string. -/
theorem finish_root (buf : List UInt8) (hstr : cstr retemp = [slash]) :
    finish retemp buf = none ∨ ∃ buf', finish retemp buf = some buf' ∧ cstr buf' = [] := by
  by_cases hbuf : buf.length < 2
  · exact .inl (if_pos hbuf)
  · obtain ⟨hfinish, hretemp, hbuf₁, -⟩ :=
      finish_eq (show _ = slash :: joined [] from hstr) (not_lt.1 hbuf)
    refine .inr ⟨_, by rw [hfinish, turn_of_nil hretemp, Option.map_some], ?_⟩
    rw [cstr_set_pred, hbuf₁]
    rfl

/-- The array of the function at its start. -/
theorem start_array : (0 : UInt8) ∈ slash :: List.replicate (PATH_MAX - 1) 0 ∧
    (slash :: List.replicate (PATH_MAX - 1) (0 : UInt8)).length = PATH_MAX := by
  constructor
  · exact List.mem_cons_of_mem _ (List.mem_replicate.2 ⟨by decide, rfl⟩)
  · rw [List.length_cons, List.length_replicate]
    rfl

theorem cstr_start : cstr (slash :: List.replicate (PATH_MAX - 1) 0) = [slash] :=
  cstr_append_cons_zero (s := [slash]) (by decide) _

/-- A result in which nothing was stored past an array, and the buffer holds the pathname. -/
theorem not_computes_none (cwd : Node) (size : ℕ) : ¬ Computes cwd size none := by
  rw [Computes]
  split_ifs
  · rintro ⟨-, -, h, -⟩
    cases h
  · rintro ⟨-, h⟩
    cases h

/-- A string in the buffer is the right result if it is the pathname. -/
theorem computes_some_iff {cwd cwd' : Node} {size : ℕ} {buf : List UInt8} :
    Computes cwd size (some (some buf, cwd')) ↔
      (pathname cwd).length < size ∧ pathname cwd ++ [0] <+: buf := by
  rw [Computes]
  split_ifs with h
  · simp [h]
  · simp [h]

theorem mygetcwd_none (v : Volume) (buf : List UInt8) (cwd : Node) :
    mygetcwd v Failures.none buf cwd =
      (climb v cwd (fun _ _ => false) (slash :: List.replicate (PATH_MAX - 1) 0) cwd).bind
        (leave buf cwd) := rfl

/-- In the root the buffer gets the empty string. -/
theorem not_computes_root (v : Volume) (buf : List UInt8) :
    ¬ Computes [] buf.length (mygetcwd v Failures.none buf []) := by
  have hclimb : climb v [] (fun _ _ => false) (slash :: List.replicate (PATH_MAX - 1) 0) [] =
    some (.top (slash :: List.replicate (PATH_MAX - 1) 0)) := rfl
  rw [mygetcwd_none, hclimb, Option.bind_some, leave]
  obtain hnone | ⟨buf', hsome, hempty⟩ := finish_root buf cstr_start
  · rw [hnone]
    exact not_computes_none _ _
  · rw [hsome, Option.map_some, computes_some_iff, ← cstr_eq_iff (by decide), hempty]
    rintro ⟨-, -, heq⟩
    cases heq

/-- **When `mygetcwd` computes the pathname**: not for the root, and only with room for one more
byte, in the buffer and in its own array. -/
theorem mygetcwd_computes_iff (hv : v.IsTree IsDir) {cwd : Node} (h : IsDir cwd)
    (hshort : (pathname cwd).length < PATH_MAX) (buf : List UInt8) :
    Computes cwd buf.length (mygetcwd v Failures.none buf cwd) ↔
      cwd ≠ [] ∧ (pathname cwd).length + 2 ≤ buf.length ∧
        (pathname cwd).length + 2 ≤ PATH_MAX := by
  by_cases hnil : cwd = []
  · subst hnil
    exact iff_of_false (not_computes_root v buf) fun hne => hne.1 rfl
  · rw [mygetcwd_none, and_iff_right hnil]
    have hpath := length_pathname hnil
    by_cases hfits : (pathname cwd).length + 2 ≤ PATH_MAX
    · rw [and_iff_left hfits]
      have hroom : (cstr (slash :: List.replicate (PATH_MAX - 1) 0)).length +
          (joined (cwd.map Subtype.val)).length <
          (slash :: List.replicate (PATH_MAX - 1) (0 : UInt8)).length := by
        rw [cstr_start, start_array.2, ← hpath, List.length_singleton]
        omega
      obtain ⟨retemp, hclimb, hretemp⟩ := climb_of_fits cwd hv h hroom
      rw [cstr_start, List.singleton_append] at hretemp
      rw [hclimb, Option.bind_some, leave]
      by_cases hbuf : (pathname cwd).length + 2 ≤ buf.length
      · obtain ⟨buf', hfinish, hprefix⟩ := finish_of_fits hnil hretemp hbuf
        rw [hfinish, Option.map_some, computes_some_iff]
        exact iff_of_true ⟨by omega, hprefix⟩ hbuf
      · rw [finish_of_not_fits hnil hretemp (by omega)]
        exact iff_of_false (not_computes_none _ _) hbuf
    · have hroom : (slash :: List.replicate (PATH_MAX - 1) (0 : UInt8)).length ≤
          (cstr (slash :: List.replicate (PATH_MAX - 1) 0)).length +
          (joined (cwd.map Subtype.val)).length := by
        rw [cstr_start, start_array.2, ← hpath, List.length_singleton]
        omega
      rw [climb_of_not_fits cwd hv h start_array.1 hroom]
      exact iff_of_false (not_computes_none _ _) fun hand => hfits hand.2

/-- `a`. -/
def nameA : FileName := ⟨⟨[97], zero_notMem_a⟩, by decide⟩

/-- A root with one directory `a`. -/
def oneDirectory : Volume where
  ino n := n.length
  dev _ := 0
  entries n := if n = [] then [(nameA.val, 1)] else []
  entryDev _ _ := 0

/-- `bc`. -/
def nameB : FileName := ⟨⟨[98, 99], zero_notMem_parent⟩, by decide⟩

/-- A root with a directory `bc` that has a directory `a`. -/
def twoDirectories : Volume where
  ino n := n.length
  dev _ := 0
  entries n := if n = [] then [(nameB.val, 1)] else if n = [nameB] then [(nameA.val, 2)] else []
  entryDev _ _ := 0

theorem twoDirectories_isTree :
    twoDirectories.IsTree fun n => n = [] ∨ n = [nameB] ∨ n = [nameA, nameB] where
  isDir_nil := .inl rfl
  isDir_up h := by
    obtain h | h | h := h
    · cases h
    · exact .inl (List.cons.inj h).2
    · exact .inr (.inl (List.cons.inj h).2)
  dev_eq _ := rfl
  entryDev_eq _ _ := rfl
  ino_inj hm hn h := by
    obtain rfl | rfl | rfl := hm <;> obtain rfl | rfl | rfl := hn <;> first | rfl | cases h
  listed h := by
    obtain h | h | h := h
    · cases h
    · obtain ⟨rfl, rfl⟩ := List.cons.inj h
      exact List.mem_singleton.2 rfl
    · obtain ⟨rfl, rfl⟩ := List.cons.inj h
      exact List.mem_singleton.2 rfl
  unique h hmem := by
    obtain h | h | h := h
    · cases h
    · obtain ⟨rfl, rfl⟩ := List.cons.inj h
      exact (Prod.ext_iff.1 (List.mem_singleton.1 hmem)).1
    · obtain ⟨rfl, rfl⟩ := List.cons.inj h
      exact (Prod.ext_iff.1 (List.mem_singleton.1 hmem)).1

/-- `/bc/a` in a buffer of seven bytes, and not in one of six. -/
theorem mygetcwd_computes_a :
    Computes [nameA, nameB] (List.replicate 7 (0 : UInt8)).length
        (mygetcwd twoDirectories Failures.none (List.replicate 7 0) [nameA, nameB]) ∧
      ¬ Computes [nameA, nameB] (List.replicate 6 (0 : UInt8)).length
        (mygetcwd twoDirectories Failures.none (List.replicate 6 0) [nameA, nameB]) := by
  have hdir : ([nameA, nameB] : Node) = [] ∨ ([nameA, nameB] : Node) = [nameB] ∨
      ([nameA, nameB] : Node) = [nameA, nameB] := .inr (.inr rfl)
  constructor
  · rw [mygetcwd_computes_iff twoDirectories_isTree hdir (by decide)]
    exact ⟨by decide, by decide, by decide⟩
  · rw [mygetcwd_computes_iff twoDirectories_isTree hdir (by decide)]
    exact fun h => absurd h.2.1 (by decide)

/-- The root in a large buffer. -/
theorem not_computes_slash :
    ¬ Computes [] (List.replicate PATH_MAX (0 : UInt8)).length
      (mygetcwd oneDirectory Failures.none (List.replicate PATH_MAX 0) []) :=
  not_computes_root oneDirectory (List.replicate PATH_MAX 0)

/-! ## The directory of the process -/

theorem climb_of_levelName (origin : Node) {a : FileName} {up : Node} {name : CString}
    (h : levelName v (fails 0) (a :: up) = some name) (retemp : List UInt8) :
    fails 0 .chdir = false ∧ climb v origin fails retemp (a :: up) =
      (addName retemp name).bind fun retemp =>
        if fails 0 .statAgain then some (.null origin)
        else climb v origin (fun level => fails (level + 1)) retemp up := by
  rw [levelName] at h
  split_ifs at h with hstop
  simp only [not_or] at hstop
  refine ⟨Bool.eq_false_iff.2 hstop.1, ?_⟩
  rw [climb, if_neg hstop.1, if_neg hstop.2.1, if_neg hstop.2.2.1, if_neg hstop.2.2.2, h]

/-- A level without a name ends the climb, and only a `chdir` that fails leaves the process
there. -/
theorem climb_of_levelName_none (origin : Node) (h : levelName v (fails 0) n = none)
    (retemp : List UInt8) :
    fails 0 .chdir = true ∧ climb v origin fails retemp n = some (.null n) ∨
      fails 0 .chdir = false ∧
        ∀ cwd, climb v origin fails retemp n = some (.null cwd) → cwd = origin := by
  cases hchdir : fails 0 .chdir with
  | true =>
    refine .inl ⟨rfl, ?_⟩
    cases n with
    | nil => rw [climb, if_pos hchdir]
    | cons a up => rw [climb, if_pos hchdir]
  | false =>
    refine .inr ⟨rfl, fun cwd hclimb => ?_⟩
    cases n with
    | nil =>
      rw [climb, if_neg (Bool.eq_false_iff.1 hchdir)] at hclimb
      split_ifs at hclimb <;> cases hclimb
      rfl
    | cons a up =>
      rw [climb, if_neg (Bool.eq_false_iff.1 hchdir)] at hclimb
      by_cases hstat : fails 0 .stat
      · rw [if_pos hstat] at hclimb
        cases hclimb
        rfl
      rw [if_neg hstat] at hclimb
      by_cases hsame : v.ino (a :: up) = v.ino up ∧ v.dev (a :: up) = v.dev up
      · rw [if_pos hsame] at hclimb
        cases hclimb
      rw [if_neg hsame] at hclimb
      by_cases hopen : fails 0 .opendir
      · rw [if_pos hopen] at hclimb
        cases hclimb
        rfl
      rw [levelName, if_neg (by simp [hchdir, hstat, hsame, hopen])] at h
      rw [if_neg hopen, h] at hclimb
      cases hclimb
      rfl

theorem length_le_of_climbs {names : List CString} (h : Climbs v fails n names) :
    names.length ≤ n.length := by
  induction names generalizing fails n with
  | nil => exact Nat.zero_le _
  | cons name names ih =>
    cases n with
    | nil => cases h.1
    | cons a up => exact Nat.succ_le_succ (ih h.2.2)

/-- A level without a name leaves the process in its directory, or takes it back. -/
theorem climb_null_iff_of_none (h : levelName v (fails 0) n = none) (hmem : 0 ∈ retemp) :
    (∃ cwd, climb v origin fails retemp n = some (.null cwd) ∧ cwd ≠ origin) ↔
      ∃ names, Climbs v fails n names ∧
        (cstr retemp).length + (joined names).length < retemp.length ∧
        fails names.length .chdir = true ∧ n.drop names.length ≠ origin := by
  have hnil {names : List CString} (hnames : Climbs v fails n names) : names = [] := by
    cases names with
    | nil => rfl
    | cons name names => cases h.symm.trans hnames.1
  obtain ⟨hchdir, hclimb⟩ | ⟨hchdir, hclimb⟩ := climb_of_levelName_none origin h retemp
  · constructor
    · rintro ⟨cwd, hcwd, hne⟩
      obtain rfl : n = cwd := by
        rw [hclimb] at hcwd
        cases hcwd
        rfl
      exact ⟨[], trivial, length_cstr_lt hmem, hchdir, hne⟩
    · rintro ⟨names, hnames, -, -, hne⟩
      obtain rfl := hnil hnames
      exact ⟨n, hclimb, hne⟩
  · refine iff_of_false ?_ ?_
    · rintro ⟨cwd, hcwd, hne⟩
      exact hne (hclimb cwd hcwd)
    · rintro ⟨names, hnames, -, hfails, -⟩
      obtain rfl := hnil hnames
      exact Bool.false_ne_true (hchdir.symm.trans hfails)

/-- A climb that goes on: the name of its first level is the first one. -/
theorem exists_climbs_cons_iff {a : FileName} {up : Node} {name : CString}
    (hname : levelName v (fails 0) (a :: up) = some name) (hchdir : fails 0 .chdir = false)
    (origin : Node) :
    (∃ names, Climbs v fails (a :: up) names ∧
        (cstr retemp).length + (joined names).length < retemp.length ∧
        fails names.length .chdir = true ∧ (a :: up).drop names.length ≠ origin) ↔
      fails 0 .statAgain = false ∧ ∃ names, Climbs v (fun level => fails (level + 1)) up names ∧
        (cstr retemp).length + (joined (name :: names)).length < retemp.length ∧
        fails (names.length + 1) .chdir = true ∧ up.drop names.length ≠ origin := by
  constructor
  · rintro ⟨names, hnames, hfits, hfails, hne⟩
    cases names with
    | nil => exact absurd (hchdir.symm.trans hfails) Bool.false_ne_true
    | cons name' names =>
      obtain ⟨hname', hstat, hrest⟩ := hnames
      obtain rfl : name = name' := Option.some.inj (hname.symm.trans hname')
      exact ⟨hstat, names, hrest, hfits, hfails, hne⟩
  · rintro ⟨hstat, names, hrest, hfits, hfails, hne⟩
    exact ⟨name :: names, ⟨hname, hstat, hrest⟩, hfits, hfails, hne⟩

/-- **Where the climb can leave the process**: in the directory of a level whose `chdir` fails, with
all names found before. -/
theorem climb_null_iff (hmem : 0 ∈ retemp) :
    (∃ cwd, climb v origin fails retemp n = some (.null cwd) ∧ cwd ≠ origin) ↔
      ∃ names, Climbs v fails n names ∧
        (cstr retemp).length + (joined names).length < retemp.length ∧
        fails names.length .chdir = true ∧ n.drop names.length ≠ origin := by
  induction n generalizing fails retemp with
  | nil => exact climb_null_iff_of_none rfl hmem
  | cons a up ih =>
    cases hname : levelName v (fails 0) (a :: up) with
    | none => exact climb_null_iff_of_none hname hmem
    | some name =>
      obtain ⟨hchdir, hclimb⟩ := climb_of_levelName origin hname retemp
      rw [hclimb, exists_climbs_cons_iff hname hchdir]
      by_cases hfits : (cstr retemp).length + (name.val ++ [slash]).length < retemp.length
      · obtain ⟨mem', hmem', hzero, hlen, hstr⟩ := exists_addName name.property hfits
        rw [hmem', Option.bind_some]
        cases hstat : fails 0 .statAgain with
        | true => simp
        | false =>
          have hsum (names : List CString) :
              (cstr retemp).length + (joined (name :: names)).length < retemp.length ↔
                (cstr mem').length + (joined names).length < mem'.length := by
            simp only [joined_cons, hstr, hlen, List.length_append]
            omega
          rw [if_neg Bool.false_ne_true, and_iff_right rfl, ih hzero]
          simp only [hsum]
      · rw [addName_eq_none name.property (not_lt.1 hfits), Option.bind_none]
        refine iff_of_false (by simp) ?_
        rintro ⟨-, names, -, hroom, -⟩
        rw [joined_cons, List.length_append] at hroom
        omega

/-- The process is back, unless the climb leaves it elsewhere. -/
theorem restores_iff_climb {fails : Failures} (hstart : ¬ (fails.openDot ∨ fails.statDot))
    (v : Volume) (buf : List UInt8) (cwd : Node) :
    Restores cwd (mygetcwd v fails buf cwd) ↔
      ¬ ∃ cwd', climb v cwd fails.climb (slash :: List.replicate (PATH_MAX - 1) 0) cwd =
        some (.null cwd') ∧ cwd' ≠ cwd := by
  rw [mygetcwd, if_neg hstart]
  constructor
  · rintro h ⟨cwd', hcwd', hne⟩
    exact hne (h none cwd' (by rw [hcwd', Option.bind_some, leave]))
  · intro h ret cwd' hret
    obtain ⟨c, hclimb, hleave⟩ := Option.bind_eq_some_iff.1 hret
    cases c with
    | null cwd'' =>
      cases hleave
      by_contra hne
      exact h ⟨cwd', hclimb, hne⟩
    | top retemp =>
      obtain ⟨buf', -, hret'⟩ := Option.map_eq_some_iff.1 hleave
      cases hret'
      rfl

theorem climb_start_null_iff (v : Volume) (fails : ℕ → Call → Bool) (cwd : Node) :
    (∃ cwd', climb v cwd fails (slash :: List.replicate (PATH_MAX - 1) 0) cwd =
        some (.null cwd') ∧ cwd' ≠ cwd) ↔
      ∃ names, Climbs v fails cwd names ∧ 1 + (joined names).length < PATH_MAX ∧
        fails names.length .chdir = true ∧ cwd.drop names.length ≠ cwd := by
  rw [climb_null_iff start_array.1, cstr_start, start_array.2, List.length_singleton]

/-- **When the process is back in its directory.** -/
theorem mygetcwd_restores_iff (v : Volume) (fails : Failures) (buf : List UInt8) (cwd : Node) :
    Restores cwd (mygetcwd v fails buf cwd) ↔ RestoresWhen v fails cwd := by
  rw [RestoresWhen, ← or_assoc]
  by_cases hstart : fails.openDot ∨ fails.statDot
  · rw [mygetcwd, if_pos hstart]
    refine iff_of_true (fun ret cwd' h => ?_) (.inl hstart)
    cases h
    rfl
  rw [or_iff_right hstart, restores_iff_climb hstart, climb_start_null_iff]
  constructor
  · intro h names hnames hclimbs hfits
    refine Bool.eq_false_iff.2 fun hfails => h ⟨names, hclimbs, hfits, hfails, fun heq => ?_⟩
    have hpos : 0 < names.length := List.length_pos_iff.2 hnames
    have hle := length_le_of_climbs hclimbs
    have hdrop := congrArg List.length heq
    rw [List.length_drop] at hdrop
    omega
  · rintro h ⟨names, hclimbs, hfits, hfails, hne⟩
    have hnames : names ≠ [] := by
      rintro rfl
      exact hne rfl
    exact Bool.false_ne_true ((h names hnames hclimbs hfits).symm.trans hfails)

/-- A `chdir` that fails above `/a` leaves the process in the root. -/
theorem not_restores_a :
    ¬ Restores [nameA] (mygetcwd oneDirectory ⟨false, false, fun level _ => decide (level = 1)⟩
      (List.replicate PATH_MAX 0) [nameA]) := by
  intro h
  refine (restores_iff_climb (by decide) _ _ _).1 h ((climb_start_null_iff _ _ _).2 ?_)
  exact ⟨[nameA.val], ⟨by decide, by decide, trivial⟩, by decide, by decide, by decide⟩

end TlpiLearn.GetCwd
