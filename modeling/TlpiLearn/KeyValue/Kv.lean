import TlpiLearn.Foundations.CString
import TlpiLearn.Foundations.SList
import Mathlib.Tactic

/-!
# The key-value list

`59/4/header/kv.c`: a singly linked list of key-value nodes behind an empty head node. The list
lives on a heap; `malloc` is a parameter that names the address of the block and what the block
happens to contain. The three traversals keep the source's pointers: `add_kv` looks one node
ahead, `delete_kv` carries the predecessor and starts at the head node with `NULL`, `change_kv`
looks at the node itself. A traversal makes at most as many steps as the heap has cells; a list
that runs in a circle is reported as `diverges`.
-/

namespace TlpiLearn.KeyValue

/-- `MAXBUF`. -/
def MAXBUF : ℕ := 32

/-- `struct kv_dsa`. -/
structure KvDsa where
  key : List UInt8
  value : List UInt8
  next : Ptr
  length_key : key.length = MAXBUF
  length_value : value.length = MAXBUF

/-- What a call can run into besides returning. -/
inductive Fault
  | nullDeref
  /-- A pointer to a cell that is not allocated. -/
  | badAddress
  /-- `strcmp` runs off the end of a node. -/
  | overread
  | diverges
  deriving DecidableEq, Repr

/-- The outcome of `malloc(sizeof(struct kv_dsa))`: `none` for `NULL`, or the address of the block
and its old contents. -/
abbrev Malloc := Heap KvDsa → Option (ℕ × KvDsa)

/-- The node that a pointer points to. -/
def load (h : Heap KvDsa) : Ptr → Except Fault KvDsa
  | none => .error .nullDeref
  | some a =>
    match h.lookup a with
    | none => .error .badAddress
    | some v => .ok v

/-- `!strcmp(v->key, key)`. The bytes behind `v->key` are those of `v->value`. -/
def KvDsa.keyIs (v : KvDsa) (key : List UInt8) : Except Fault Bool :=
  match strcmp (v.key ++ v.value) key with
  | none => .error .overread
  | some z => .ok (z = 0)

/-- `strncpy(v->value, value, MAXBUF)`. -/
def KvDsa.setValue (v : KvDsa) (value : List UInt8) : KvDsa :=
  { v with value := strncpy MAXBUF value, length_value := length_strncpy MAXBUF value }

/-- A last node with the given key and value. -/
def KvDsa.ofWords (key value : List UInt8) : KvDsa where
  key := strncpy MAXBUF key
  value := strncpy MAXBUF value
  next := none
  length_key := length_strncpy MAXBUF key
  length_value := length_strncpy MAXBUF value

/-- The head node: an empty key in whatever the block contained. -/
def KvDsa.emptyHead (junk : KvDsa) : KvDsa :=
  { junk with key := junk.key.set 0 0, next := none, length_key := by simp [junk.length_key] }

/-- `init_kv`. -/
def initKv (malloc : Malloc) (h : Heap KvDsa) : Ptr × Heap KvDsa :=
  match malloc h with
  | none => (none, h)
  | some (a, junk) => (some a, h.insert a junk.emptyHead)

/-- The steps that are enough for a list on the heap. -/
def fuelOf (h : Heap KvDsa) : ℕ := h.keys.card + 1

/-- The loop of `add_kv` at the node with address `p`, and what follows it. -/
def addLoop (malloc : Malloc) (key value : List UInt8) :
    ℕ → Heap KvDsa → ℕ → Except Fault (ℤ × Heap KvDsa)
  | 0, _, _ => .error .diverges
  | fuel + 1, h, p => do
    let v ← load h (some p)
    match v.next with
    | some q =>
      let w ← load h (some q)
      if ← w.keyIs key then return (-1, h) else addLoop malloc key value fuel h q
    | none =>
      match malloc h with
      | none => return (-1, h.insert p { v with next := none })
      | some (a, _) =>
        return (0, (h.insert p { v with next := some a }).insert a (.ofWords key value))

/-- `add_kv`. -/
def addKv (malloc : Malloc) (h : Heap KvDsa) (kv : Ptr) (key value : List UInt8) :
    Except Fault (ℤ × Heap KvDsa) :=
  match kv with
  | none => .ok (-1, h)
  | some p => addLoop malloc key value (fuelOf h) h p

/-- The loop of `delete_kv` with the pointers `p` and `pre`. -/
def deleteLoop (key : List UInt8) :
    ℕ → Heap KvDsa → Ptr → Ptr → Except Fault (ℤ × Heap KvDsa)
  | 0, _, _, _ => .error .diverges
  | _ + 1, h, none, _ => .ok (-1, h)
  | fuel + 1, h, some p, pre => do
    let v ← load h (some p)
    if ← v.keyIs key then
      match pre with
      | none => .error .nullDeref
      | some b =>
        let w ← load h (some b)
        return (0, (h.insert b { w with next := v.next }).erase p)
    else deleteLoop key fuel h v.next (some p)

/-- `delete_kv`. -/
def deleteKv (h : Heap KvDsa) (kv : Ptr) (key : List UInt8) : Except Fault (ℤ × Heap KvDsa) :=
  deleteLoop key (fuelOf h) h kv none

/-- The loop of `change_kv` with the pointer `p`. -/
def changeLoop (key value : List UInt8) :
    ℕ → Heap KvDsa → Ptr → Except Fault (ℤ × Heap KvDsa)
  | 0, _, _ => .error .diverges
  | _ + 1, h, none => .ok (-1, h)
  | fuel + 1, h, some p => do
    let v ← load h (some p)
    if ← v.keyIs key then return (0, h.insert p (v.setValue value))
    else changeLoop key value fuel h v.next

/-- `change_kv`. -/
def changeKv (h : Heap KvDsa) (kv : Ptr) (key value : List UInt8) :
    Except Fault (ℤ × Heap KvDsa) :=
  changeLoop key value (fuelOf h) h kv

end TlpiLearn.KeyValue
