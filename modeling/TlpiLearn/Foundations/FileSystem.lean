import TlpiLearn.Foundations.Pathname
import Mathlib.Tactic

/-!
# Directories, links and the resolution of paths

A file system with directories and symbolic links, and the file that a path leads to. The number of
links that are followed is bounded, as in every kernel. `walk_place` goes along the names of a
directory, where no link is met.
-/

namespace TlpiLearn

/-- A directory with its parent and its entries, a symbolic link, or another file. -/
inductive FileKind (ι : Type*) where
  | directory (parent : ι) (entry : List UInt8 → Option ι)
  | link (target : List UInt8)
  | other

variable {ι : Type*}

/-- The entry of a directory. -/
def FileKind.lookup : FileKind ι → List UInt8 → Option ι
  | directory _ entry, name => entry name
  | link _, _ => none
  | other, _ => none

def FileKind.IsDirectory : FileKind ι → Prop
  | directory _ _ => True
  | link _ => False
  | other => False

instance : (k : FileKind ι) → Decidable k.IsDirectory
  | .directory _ _ => isTrue trivial
  | .link _ => isFalse id
  | .other => isFalse id

/-- The file to which names lead from the root, with the last name first. -/
def descend (kind : ι → FileKind ι) (root : ι) : List FileName → Option ι
  | [] => some root
  | a :: up => (descend kind root up).bind fun i => (kind i).lookup a.val

/-- Files of all kinds; each directory has one place, to which its names lead. -/
structure FileSystem (ι : Type*) where
  kind : ι → FileKind ι
  root : ι
  place : ι → List FileName
  isDirectory_root : (kind root).IsDirectory
  place_root : place root = []
  descend_place : ∀ {i}, (kind i).IsDirectory → descend kind root (place i) = some i

namespace FileSystem

/-- The directory in which a path starts. -/
def start (fs : FileSystem ι) (i : ι) (path : List UInt8) : ι :=
  if path.head? = some slash then fs.root else i

/-- The way along the components of a path; `follow` goes on behind a symbolic link. -/
def walkWith (fs : FileSystem ι) (follow : ι → List UInt8 → List (List UInt8) → Option ι) :
    ι → List (List UInt8) → Option ι
  | i, [] => some i
  | i, c :: rest =>
    match fs.kind i with
    | .directory parent entry =>
      if c = [] ∨ c = [dot] then walkWith fs follow i rest
      else if c = [dot, dot] then walkWith fs follow parent rest
      else
        match entry c with
        | none => none
        | some j =>
          match fs.kind j with
          | .link target => follow i target rest
          | .directory _ _ => walkWith fs follow j rest
          | .other => walkWith fs follow j rest
    | .link _ => none
    | .other => none

/-- The way along the components of a path with at most `budget` symbolic links. -/
def walk (fs : FileSystem ι) : ℕ → ι → List (List UInt8) → Option ι
  | 0 => walkWith fs fun _ _ _ => none
  | budget + 1 => walkWith fs fun i target rest =>
    if target = [] then none
    else walk fs budget (fs.start i target) (components target ++ rest)

/-- The file of a path. -/
def resolve (fs : FileSystem ι) (budget : ℕ) (i : ι) (path : List UInt8) : Option ι :=
  if path = [] then none else walk fs budget (fs.start i path) (components path)

variable (fs : FileSystem ι) {i j : ι}

theorem exists_walkWith (budget : ℕ) : ∃ follow, fs.walk budget = fs.walkWith follow := by
  cases budget with
  | zero => exact ⟨_, rfl⟩
  | succ budget => exact ⟨_, rfl⟩

/-- An empty component stays in its directory. -/
theorem walk_nil_cons (h : (fs.kind i).IsDirectory) (budget : ℕ) (rest : List (List UInt8)) :
    fs.walk budget i ([] :: rest) = fs.walk budget i rest := by
  obtain ⟨follow, hfollow⟩ := fs.exists_walkWith budget
  rw [hfollow, walkWith]
  cases hkind : fs.kind i with
  | directory parent entry => exact if_pos (.inl rfl)
  | link target => rw [hkind] at h; cases h
  | other => rw [hkind] at h; cases h

/-- A name leads to the entry of the directory, if that is no link. -/
theorem walk_name_cons {a : FileName} (h : (fs.kind i).lookup a.val = some j)
    (hj : (fs.kind j).IsDirectory) (budget : ℕ) (rest : List (List UInt8)) :
    fs.walk budget i (a.val.val :: rest) = fs.walk budget j rest := by
  obtain ⟨follow, hfollow⟩ := fs.exists_walkWith budget
  obtain ⟨hnil, -, hdot, hdots⟩ := a.property
  rw [hfollow, walkWith]
  cases hkind : fs.kind i with
  | directory parent entry =>
    rw [hkind, FileKind.lookup] at h
    simp only [if_neg (not_or.2 ⟨hnil, hdot⟩), if_neg hdots, h]
    cases hkind' : fs.kind j with
    | directory parent' entry' => rfl
    | link target => rw [hkind'] at hj; cases hj
    | other => rfl
  | link target => rw [hkind] at h; cases h
  | other => rw [hkind] at h; cases h

/-- **The names of a directory** lead to it, and the path goes on there. -/
theorem walk_descend {names : List FileName} (h : descend fs.kind fs.root names = some i)
    (hi : (fs.kind i).IsDirectory) (budget : ℕ) (rest : List (List UInt8)) :
    fs.walk budget fs.root ((names.reverse.map fun a : FileName => a.val.val) ++ rest) =
      fs.walk budget i rest := by
  induction names generalizing i rest with
  | nil =>
    cases h
    rfl
  | cons a up ih =>
    obtain ⟨j, hj, hlookup⟩ := Option.bind_eq_some_iff.1 h
    have hdirectory : (fs.kind j).IsDirectory := by
      cases hkind : fs.kind j with
      | directory parent entry => trivial
      | link target => rw [hkind] at hlookup; cases hlookup
      | other => rw [hkind] at hlookup; cases hlookup
    rw [List.reverse_cons, List.map_append, List.append_assoc, ih hj hdirectory]
    exact fs.walk_name_cons hlookup hi budget rest

/-- **A path below a directory**, with the pathname of the directory in front. -/
theorem resolve_pathname_append (hi : (fs.kind i).IsDirectory) (budget : ℕ) (j : ι)
    {path : List UInt8} (hpath : path.head? ≠ some slash) (hne : path ≠ []) :
    fs.resolve budget j (pathname (fs.place i) ++ slash :: path) = fs.resolve budget i path := by
  obtain ⟨s, hs⟩ := exists_pathname (fs.place i)
  have hdescend := fs.descend_place hi
  rw [resolve, resolve, if_neg (by simp), if_neg hne, start, start, if_pos (by simp [hs]),
    if_neg hpath, components_append, components_pathname, List.cons_append,
    fs.walk_nil_cons fs.isDirectory_root]
  split_ifs with hnil
  · rw [hnil] at hdescend
    cases hdescend
    exact fs.walk_nil_cons fs.isDirectory_root budget _
  · exact fs.walk_descend hdescend hi budget _

end FileSystem

end TlpiLearn
