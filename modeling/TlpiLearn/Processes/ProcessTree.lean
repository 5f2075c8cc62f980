import TlpiLearn.Foundations.ParentTable
import TlpiLearn.Foundations.Outcome
import TlpiLearn.Processes.StatusFile
import Mathlib.Tactic

/-!
# The tree of processes

`Exercise/12_2.c` prints the processes below `init`: `make_tree` goes through the whole table for
the children of one process and calls itself for each. It keeps no record of where it has been, and
`/proc` can be read while processes come and go, so the table can name parents that are gone or
parents in a circle.

`main_prints`: where `init` is not below itself, the recursion ends and prints the tree below it.
`main_of_files` goes on from the files under `/proc`, whose names it needs to be legible.
-/

namespace TlpiLearn.ProcessTree

open StatusFile

/-- `procnode`. -/
structure Procnode where
  name : List UInt8
  pid : Int32
  ppid : Int32
  deriving DecidableEq, Repr

/-- A table with one entry for a process. -/
abbrev Table := {proc : List Procnode // (proc.map Procnode.pid).Nodup}

/-- `MAXNAME`. -/
def MAXNAME : ℕ := 256

/-- The buffers of `handle_proc`, without a text before they are written. -/
structure Vars where
  proc_name : Option (List UInt8)
  pid : Option (List UInt8)
  ppid : Option (List UInt8)

/-- The body of the loop of `handle_proc`, for a key and a value. -/
def handleField (v : Vars) (key value : List UInt8) : Vars :=
  let v := if key = ascii "Name" then { v with proc_name := some value } else v
  let v := if key = ascii "Pid" then { v with pid := some value } else v
  if key = ascii "PPid" then { v with ppid := some value } else v

/-- `atoi`, a `long` that is cut to 32 bits. -/
def atoi (s : List UInt8) : Int32 :=
  Int32.ofInt ((scanInt (-9223372036854775808) 9223372036854775807 s).getD 0)

/-- `handle_proc`, with what `fopen` finds: the table with a new entry. -/
def handleProc (proc : List Procnode) (status : Option (List UInt8)) :
    Except Fault (List Procnode) :=
  match status with
  | none => .ok proc
  | some text => do
    let v := readStatus handleField ⟨none, none, none⟩ text
    let pid ← cutLast v.pid
    let ppid ← cutLast v.ppid
    let proc_name ← cutLast v.proc_name
    if MAXNAME ≤ proc_name.length then .error .overflow
    else .ok (proc ++ [⟨proc_name, atoi pid, atoi ppid⟩])

/-- `main`, the loop over the directories under `/proc`. -/
def readProc (dirs : List (Option (List UInt8))) : Except Fault (List Procnode) :=
  dirs.foldlM handleProc []

/-- `empty`. -/
def empty : List UInt8 := List.replicate 15 32

/-- `end_empty`: `empty` as often as `layer`, which is not 0, says, with the last blank replaced. -/
def endEmpty (layer : ℕ) : List UInt8 :=
  ((fun end_empty => end_empty ++ empty)^[layer] []).dropLast ++ ascii "|->"

/-- A line of `make_tree`, behind its indentation. -/
def entryText (p : Procnode) : List UInt8 :=
  p.name ++ ascii "(" ++ decimalInt p.pid.toInt ++ ascii "|" ++ decimalInt p.ppid.toInt ++
    ascii ")\n"

/-- The line of `main`. -/
def rootLine (p : Procnode) : List UInt8 :=
  p.name ++ ascii "(pid" ++ decimalInt p.pid.toInt ++ ascii "|ppid" ++
    decimalInt p.ppid.toInt ++ ascii ")\n"

/-- `make_tree(ppid, layer)`: what each turn of the loop prints. The comparison converts the `int`
of the entry to the `uid_t` of the argument. -/
def makeTree (proc : List Procnode) : ℕ → UInt32 → ℕ → Option (List UInt8)
  | 0, _, _ => none
  | fuel + 1, ppid, layer =>
    (proc.mapM fun p =>
      if p.ppid.toUInt32 = ppid then
        (makeTree proc fuel p.pid.toUInt32 (layer + 1)).map (endEmpty layer ++ entryText p ++ ·)
      else some []).map List.flatten

/-- `main`, from the loop over the table on. -/
def main (proc : List Procnode) (fuel : ℕ) : Option (List UInt8) :=
  (makeTree proc fuel 1 1).map
    ((proc.flatMap fun p => if p.pid = 1 then rootLine p else []) ++ ·)

/-! ## Filling the table -/

/-- The entry of a process. -/
def procnode (s : Status) : Procnode := ⟨s.name, s.pid, s.ppid⟩

/-- The name of the process is taken as it is, and it has room in the entry. -/
def Legible (s : Status) : Prop :=
  (colon ∉ s.name ∧ ∀ b ∈ s.name.head?, isBlank b = false) ∧ s.name.length < MAXNAME

theorem handleField_other (o : Other) (v : Vars) (value : List UInt8) :
    handleField v o.key value = v := by
  obtain ⟨hname, hpid, hppid, -⟩ := o.key_ne
  simp only [handleField, hname, hpid, hppid, if_false]

theorem atoi_decimalInt (z : Int32) : atoi (decimalInt z.toInt) = z := by
  have hlo := z.le_toInt
  have hhi := z.toInt_lt
  rw [atoi, scanInt_decimalInt (by omega) (by omega), Option.getD_some, Int32.ofInt_toInt]

/-- The buffers after a well-formed file. -/
theorem readStatus_handleField (s : Status) :
    readStatus handleField ⟨none, none, none⟩ s.text =
      ⟨some s.taken, some (decimalInt s.pid.toInt ++ [newline]),
        some (decimalInt s.ppid.toInt ++ [newline])⟩ := by
  rw [readStatus_text handleField_other]
  rfl

theorem handleProc_text {s : Status} (hs : Legible s) (proc : List Procnode) :
    handleProc proc (some s.text) = .ok (proc ++ [procnode s]) := by
  have hname : cutLast (some s.taken) = .ok s.name := cutLast_taken_iff.2 (taken_eq_iff.2 hs.1)
  have hroom : ¬ MAXNAME ≤ s.name.length := by
    have := hs.2
    omega
  rw [handleProc]
  simp only [readStatus_handleField, cutLast_append, hname, ok_bind, if_neg hroom, atoi_decimalInt,
    procnode]

/-- **The table** has an entry for each status file. -/
theorem readProc_texts {ss : List Status} (hss : ∀ s ∈ ss, Legible s) :
    readProc (ss.map fun s => some s.text) = .ok (ss.map procnode) := by
  have hloop : ∀ proc, (ss.map fun s => some s.text).foldlM handleProc proc =
      .ok (proc ++ ss.map procnode) := by
    induction ss with
    | nil => exact fun proc => congrArg Except.ok (List.append_nil proc).symm
    | cons s ss ih =>
      intro proc
      rw [List.map_cons, List.foldlM_cons, handleProc_text (hss s List.mem_cons_self), ok_bind,
        ih fun t ht => hss t (List.mem_cons_of_mem s ht), List.append_assoc,
        List.singleton_append, List.map_cons]
  exact hloop []

/-! ## The table as a table of parents -/

/-- The processes with the parents they name. -/
def Table.parents (proc : Table) : ParentTable Procnode Int32 where
  nodes := proc.1
  key := Procnode.pid
  parent := Procnode.ppid
  keys_nodup := proc.2

/-- The indentation of a process `depth` steps below `init`. -/
def indent (depth : ℕ) : List UInt8 :=
  List.replicate (15 * depth - 1) 32 ++ ascii "|->"

theorem iterate_empty (layer : ℕ) :
    (fun end_empty => end_empty ++ empty)^[layer] [] = List.replicate (15 * layer) 32 := by
  induction layer with
  | zero => rfl
  | succ layer ih =>
    rw [Function.iterate_succ_apply', ih, empty, List.replicate_append_replicate, Nat.mul_succ]

theorem endEmpty_eq (layer : ℕ) : endEmpty layer = indent layer := by
  rw [endEmpty, indent, iterate_empty, List.dropLast_replicate]

theorem toUInt32_inj {a b : Int32} : a.toUInt32 = b.toUInt32 ↔ a = b := by
  constructor
  · intro h
    cases a
    cases b
    exact congrArg _ h
  · exact congrArg _

/-- A loop that skips entries runs over the others. -/
theorem flatten_mapM_ite {α β γ : Type*} {p : α → Prop} [DecidablePred p]
    {f : α → Option (List β)} {g : α → Option (List γ)} {e : γ → List β}
    (hfg : ∀ a, p a → f a = (g a).map (List.flatMap e)) (l : List α) :
    (l.mapM fun a => if p a then f a else some []).map List.flatten =
      (((l.filter p).mapM g).map List.flatten).map (List.flatMap e) := by
  induction l with
  | nil => rfl
  | cons a l ih =>
    rw [List.mapM_cons]
    by_cases ha : p a
    · rw [if_pos ha, hfg a ha, List.filter_cons_of_pos (by simpa using ha), List.mapM_cons]
      cases g a with
      | none => rfl
      | some out =>
        cases hl : l.mapM (fun a => if p a then f a else some []) <;>
          cases hm : (l.filter p).mapM g <;>
          simp_all
    · rw [if_neg ha, List.filter_cons_of_neg (by simpa using ha), ← ih]
      cases l.mapM fun a => if p a then f a else some [] <;> rfl

theorem makeTree_eq (proc : Table) (fuel : ℕ) (k : Int32) (layer : ℕ) :
    makeTree proc.1 fuel k.toUInt32 layer =
      (proc.parents.walk fuel k layer).map
        (List.flatMap fun e => endEmpty e.1 ++ entryText e.2) := by
  induction fuel generalizing k layer with
  | zero => rfl
  | succ fuel ih =>
    rw [makeTree, ParentTable.walk, ParentTable.children]
    simp only [toUInt32_inj]
    refine flatten_mapM_ite (fun p _ => ?_) proc.1
    rw [ih, Option.map_map, Option.map_map]
    rfl

/-- What `main` prints of a table in which `init` is not below itself. -/
theorem exists_listing {proc : Table} (hinit : proc.parents.Grounded 1) :
    ∃ listing, proc.parents.Visits 1 1 listing ∧ ∃ enough, ∀ fuel ≥ enough,
      makeTree proc.1 fuel 1 1 = some (listing.flatMap fun e => indent e.1 ++ entryText e.2) ∧
      main proc.1 fuel = some
        ((proc.1.flatMap fun p => if p.pid = 1 then rootLine p else []) ++
          listing.flatMap fun e => indent e.1 ++ entryText e.2) := by
  obtain ⟨listing, hvisits, hwalk⟩ := ParentTable.exists_walk hinit 1
  refine ⟨listing, hvisits, proc.parents.subtreeSize 1 + 1, fun fuel hfuel => ?_⟩
  have htree : makeTree proc.1 fuel 1 1 =
      some (listing.flatMap fun e => indent e.1 ++ entryText e.2) := by
    rw [show (1 : UInt32) = (1 : Int32).toUInt32 from rfl, makeTree_eq, hwalk fuel hfuel]
    simp only [endEmpty_eq, Option.map_some]
  refine ⟨htree, ?_⟩
  rw [main, htree]
  rfl

/-- **From the files to the tree**: the entries are those of the files, and the tree below `init` is
printed where `init` is not below itself. -/
theorem main_of_files {ss : List Status} (hss : ∀ s ∈ ss, Legible s)
    (hpids : ((ss.map procnode).map Procnode.pid).Nodup)
    (hinit : (Table.parents ⟨ss.map procnode, hpids⟩).Grounded 1) :
    readProc (ss.map fun s => some s.text) = .ok (ss.map procnode) ∧
      ∃ listing, (Table.parents ⟨ss.map procnode, hpids⟩).Visits 1 1 listing ∧
        ∃ enough, ∀ fuel ≥ enough, main (ss.map procnode) fuel = some
          (((ss.map procnode).flatMap fun p => if p.pid = 1 then rootLine p else []) ++
            listing.flatMap fun e => indent e.1 ++ entryText e.2) := by
  obtain ⟨listing, hvisits, enough, hprints⟩ := exists_listing hinit
  exact ⟨readProc_texts hss, listing, hvisits, enough, fun fuel hfuel => (hprints fuel hfuel).2⟩

end TlpiLearn.ProcessTree
