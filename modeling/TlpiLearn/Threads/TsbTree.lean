import TlpiLearn.Foundations.CString
import TlpiLearn.Foundations.Machine
import Mathlib.Tactic

/-!
# Concurrent insertion into `tsbTree`

`tsb_add` of `30_2/tsb_tree.c`, called by any number of callers on one tree that is empty at the
start and whose mutex is initialized. A label lets one caller make its next mutex operation or the
stretch of code up to the one behind it. The function initializes the mutex of the tree that it was
given in the place of the mutex of its new node, and at each node of its descent it unlocks the
mutex of the node that comes next, which it has not locked, and which is `NULL` at the end.

Any operation on a mutex at `NULL`, or on one that was never initialized, ends the process
(`crashed`); so does `strcmp` on a null pointer.
-/

namespace TlpiLearn.TsbTree

/-- A string that a key points to. -/
abbrev Key := { key : List UInt8 // 0 ∉ key }

/-- The tree that the callers were given, or the node that a caller allocates. -/
inductive Node (ι : Type*)
  | root
  | pnode (i : ι)
  deriving DecidableEq, Repr

/-- `struct tsbTree` without its mutex. -/
structure Fields (ι α : Type*) where
  key : Option Key
  value : Option α
  left_ptsb : Option (Node ι)
  right_ptsb : Option (Node ι)

/-- A mutex, locked by anybody or not. -/
inductive Mutex
  | uninitialized
  | unlocked
  | locked
  deriving DecidableEq, Repr

/-- Where a caller of `tsb_add` is. -/
inductive Pc (ι : Type*)
  | start
  | lockRoot
  /-- `if (tree->key == NULL)`. -/
  | checkRoot
  /-- The unlock behind the assignments to the root. -/
  | unlockFilled
  /-- The unlock behind the root check. -/
  | unlockChecked
  | malloc
  /-- `pthread_mutex_init(&tree->mutex, NULL)`. -/
  | init
  /-- `while (tree)` and the lock behind it. -/
  | loop (tree : Option (Node ι))
  /-- The comparison, the choice of the next node and the assignment of `pnode`. -/
  | compare (tree : Node ι)
  /-- The unlock at the end of the loop. -/
  | unlock (tree : Option (Node ι))
  /-- The unlock in front of the `break`. -/
  | unlockFound (tree : Node ι)
  | returned (r : ℤ)
  deriving DecidableEq

/-- The arguments `key` and `value` of a caller. -/
structure Args (α : Type*) where
  key : Option Key
  value : α

/-- The callers, the nodes, and whether the process has died. -/
structure State (ι α : Type*) where
  pc : ι → Pc ι
  fields : Node ι → Fields ι α
  mutex : Node ι → Mutex
  /-- The caller has locked the mutex of the node and not unlocked it. -/
  holds : ι → Node ι → Bool
  crashed : Bool

/-- A caller makes its next step; its `malloc` or `pthread_mutex_init` fails. -/
inductive Label (ι : Type*)
  | step (i : ι)
  | mallocFails (i : ι)
  | initFails (i : ι)
  deriving DecidableEq, Repr

variable {ι α : Type*} [DecidableEq ι]

/-- The caller `i` goes on to `pc`. -/
def State.goto (s : State ι α) (i : ι) (pc : Pc ι) : State ι α :=
  { s with pc := Function.update s.pc i pc }

/-- The process has died. -/
def State.crash (s : State ι α) : State ι α := { s with crashed := true }

/-- `pthread_mutex_lock(&n->mutex)`, or `none` while it blocks. -/
def State.lock (s : State ι α) (i : ι) (n : Node ι) (pc : Pc ι) : Option (State ι α) :=
  match s.mutex n with
  | .uninitialized => some s.crash
  | .unlocked =>
    some { s.goto i pc with
      mutex := Function.update s.mutex n .locked
      holds := Function.update s.holds i (Function.update (s.holds i) n true) }
  | .locked => none

/-- `pthread_mutex_unlock(&n->mutex)`. -/
def State.unlock (s : State ι α) (i : ι) (n : Option (Node ι)) (pc : Pc ι) : State ι α :=
  match n with
  | none => s.crash
  | some n =>
    if s.mutex n = .uninitialized then s.crash
    else
      { s.goto i pc with
        mutex := Function.update s.mutex n .unlocked
        holds := Function.update s.holds i (Function.update (s.holds i) n false) }

/-- `if (tree->key == NULL)` and the assignments behind it. -/
def checkRoot (a : Args α) (s : State ι α) (i : ι) : State ι α :=
  if (s.fields .root).key = none then
    { s.goto i .unlockFilled with
      fields := Function.update s.fields .root
        { s.fields .root with key := a.key, value := some a.value } }
  else s.goto i .unlockChecked

/-- `pnode` is allocated and set up, except for its mutex. -/
def malloc (a : Args α) (s : State ι α) (i : ι) : State ι α :=
  { s.goto i .init with
    fields := Function.update s.fields (.pnode i)
      { key := a.key, value := some a.value, left_ptsb := none, right_ptsb := none } }

/-- The stretch between the lock and the unlock of the loop. -/
def compare (a : Args α) (s : State ι α) (i : ι) (tree : Node ι) : State ι α :=
  let node := s.fields tree
  match node.key, a.key with
  | some k, some key =>
    match strcmp (k.1 ++ [0]) key.1 with
    | some compare =>
      if 0 < compare then
        { s.goto i (.unlock node.left_ptsb) with
          fields := if node.left_ptsb = none then
              Function.update s.fields tree { node with left_ptsb := some (.pnode i) }
            else s.fields }
      else if compare < 0 then
        { s.goto i (.unlock node.right_ptsb) with
          fields := if node.right_ptsb = none then
              Function.update s.fields tree { node with right_ptsb := some (.pnode i) }
            else s.fields }
      else s.goto i (.unlockFound tree)
    | none => s.crash
  | _, _ => s.crash

/-- The next step of the caller `i`, or `none` while it cannot go on. -/
def tsb_add (a : Args α) (s : State ι α) (i : ι) : Option (State ι α) :=
  match s.pc i with
  | .start => some (s.goto i (if a.key = none then .returned (-1) else .lockRoot))
  | .lockRoot => s.lock i .root .checkRoot
  | .checkRoot => some (checkRoot a s i)
  | .unlockFilled => some (s.unlock i (some .root) (.returned 0))
  | .unlockChecked => some (s.unlock i (some .root) .malloc)
  | .malloc => some (malloc a s i)
  | .init =>
    some { s.goto i (.loop (some .root)) with mutex := Function.update s.mutex .root .unlocked }
  | .loop none => some (s.goto i (.returned 0))
  | .loop (some tree) => s.lock i tree (.compare tree)
  | .compare tree => some (compare a s i tree)
  | .unlock tree => some (s.unlock i tree (.loop tree))
  | .unlockFound tree => some (s.unlock i (some tree) (.returned 0))
  | .returned _ => none

/-- The step function. -/
def step (args : ι → Args α) (s : State ι α) (l : Label ι) : Option (State ι α) :=
  if s.crashed then none
  else
    match l with
    | .step i => tsb_add (args i) s i
    | .mallocFails i => if s.pc i = .malloc then some (s.goto i (.returned (-1))) else none
    | .initFails i => if s.pc i = .init then some (s.goto i (.returned (-1))) else none

/-- An empty tree with an initialized mutex. -/
def init : State ι α where
  pc _ := .start
  fields _ := { key := none, value := none, left_ptsb := none, right_ptsb := none }
  mutex n := if n = .root then .unlocked else .uninitialized
  holds _ _ := false
  crashed := false

/-- The callers of `tsb_add`. -/
def machine (args : ι → Args α) : Machine (State ι α) (Label ι) := ⟨init, step args⟩

/-- The nodes that `tsb_lookup` visits in its search for a key. -/
inductive State.Visits (s : State ι α) (key : Key) : Node ι → Prop
  | root : s.Visits key .root
  | left {n n' : Node ι} {k : Key} {z : ℤ} : s.Visits key n → (s.fields n).key = some k →
      strcmp (k.1 ++ [0]) key.1 = some z → 0 < z → (s.fields n).left_ptsb = some n' →
      s.Visits key n'
  | right {n n' : Node ι} {k : Key} {z : ℤ} : s.Visits key n → (s.fields n).key = some k →
      strcmp (k.1 ++ [0]) key.1 = some z → z < 0 → (s.fields n).right_ptsb = some n' →
      s.Visits key n'

end TlpiLearn.TsbTree
