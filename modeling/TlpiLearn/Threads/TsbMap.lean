import TlpiLearn.Foundations.HeapTree
import TlpiLearn.Threads.TsbTree
import Mathlib.Tactic

/-!
# One caller of `tsbTree`

`tsb_add` and `tsb_lookup` of `30_2/tsb_tree.c`, called one after the other. The nodes live on a
heap; `malloc` and the operations on the mutexes are parameters, whose results may depend on
everything that happened before. The operations, the allocations and the links of new nodes are
logged. A loop makes at most as many steps as the heap has cells, and one more.

When the mutex operations return zero and `malloc` finds a new block, the nodes form a search tree
in the order of `strcmp`, and the search returns the value that came first with the key.
-/

namespace TlpiLearn.TsbMap

open SearchTree
open TsbTree (Key)

/-- `enum Boolean`. -/
inductive Boolean
  | True
  | False
  deriving DecidableEq, Repr

/-- `struct tsbTree` without its mutex. -/
structure PtsbTree (α : Type) where
  key : Option Key
  value : α
  left_ptsb : Ptr
  right_ptsb : Ptr

/-- `EINVAL`. -/
def EINVAL : ℤ := 22

/-- `ENOMEM`, which `malloc` sets. -/
def ENOMEM : ℤ := 12

/-- An operation on the mutex of the node that a pointer points to. -/
inductive Call
  | lock (tree : Ptr)
  | unlock (tree : Ptr)
  | init (tree : Ptr)
  deriving DecidableEq, Repr

/-- What is logged. -/
inductive Event
  /-- A mutex operation and its result. -/
  | mutex (c : Call) (r : ℤ)
  | malloc (p : Ptr)
  /-- A child pointer of a node is set to `pnode`. -/
  | link (pnode : Ptr)
  deriving DecidableEq, Repr

/-- What a call can run into besides returning. -/
inductive Fault
  | nullDeref
  /-- A pointer to a cell that is not allocated. -/
  | badAddress
  /-- `strcmp` runs off the end of a key. -/
  | overread
  | diverges
  deriving DecidableEq, Repr

/-- The memory, `errno` and the log. -/
structure Sys (α : Type) where
  heap : Heap (PtsbTree α)
  errno : ℤ
  events : List Event

/-- The results of the mutex operations and of `malloc`, after what was logged. -/
structure Env (α : Type) where
  mutex : List Event → Call → ℤ
  malloc : List Event → Heap (PtsbTree α) → Ptr

/-- A stretch of code. -/
abbrev Code (α β : Type) := EStateM Fault (Sys α) β

variable {α : Type}

/-- Log an event. -/
def Sys.log (s : Sys α) (e : Event) : Sys α := { s with events := s.events ++ [e] }

/-- A mutex operation. -/
def call (env : Env α) (c : Call) : Code α ℤ := fun s =>
  .ok (env.mutex s.events c) (s.log (.mutex c (env.mutex s.events c)))

/-- The return with an error number. -/
def fail (r : ℤ) : Code α ℤ := fun s => .ok (-1) { s with errno := r }

/-- `RET_CHECK(r)` in front of `rest`. -/
def RET_CHECK (r : ℤ) (rest : Code α ℤ) : Code α ℤ := if r ≠ 0 then fail r else rest

/-- The node that a pointer points to. -/
def load (p : Ptr) : Code α (PtsbTree α) := fun s =>
  match p with
  | none => .error .nullDeref s
  | some a =>
    match s.heap.lookup a with
    | none => .error .badAddress s
    | some node => .ok node s

/-- Assignments to the node at an address. -/
def store (a : ℕ) (node : PtsbTree α) : Code α Unit := fun s =>
  .ok () { s with heap := s.heap.insert a node }

/-- `malloc(sizeof(struct tsbTree))` and the assignments to the members of the block. -/
def mallocNode (env : Env α) (node : PtsbTree α) : Code α Ptr := fun s =>
  match env.malloc s.events s.heap with
  | none => .ok none { s.log (.malloc none) with errno := ENOMEM }
  | some a => .ok (some a) { s.log (.malloc (some a)) with heap := s.heap.insert a node }

/-- The node at `pre` gets the link to `pnode`. -/
def link (pre : ℕ) (node : PtsbTree α) (pnode : Ptr) : Code α Unit := fun s =>
  .ok () { s.log (.link pnode) with heap := s.heap.insert pre node }

/-- `if (tree == NULL)` and the link to `pnode` behind it. -/
def linkAtEnd (tree : Ptr) (pre : ℕ) (node : PtsbTree α) (pnode : Ptr) : Code α Unit :=
  if tree = none then link pre node pnode else pure ()

/-- `strcmp(tree->key, key)`. -/
def compareKey (node : PtsbTree α) (key : Key) : Code α ℤ := fun s =>
  match node.key with
  | none => .error .nullDeref s
  | some k =>
    match strcmp (k.1 ++ [0]) key.1 with
    | none => .error .overread s
    | some compare => .ok compare s

/-- The unlock at the end of the loop, where `tree` is the next node, and the way back to the
head of the loop. -/
def unlockNext (env : Env α) (tree : Ptr) (loop : Code α ℤ) : Code α ℤ := do
  let r ← call env (.unlock tree)
  RET_CHECK r loop

/-- The loop of `tsb_add` and what follows it. -/
def addLoop (env : Env α) (key : Key) (pnode : Ptr) : ℕ → Ptr → Code α ℤ
  | 0, _ => throw .diverges
  | _ + 1, none => pure 0
  | fuel + 1, some pre => do
    let r ← call env (.lock (some pre))
    RET_CHECK r do
      let node ← load (some pre)
      let compare ← compareKey node key
      if 0 < compare then
        linkAtEnd node.left_ptsb pre { node with left_ptsb := pnode } pnode
        unlockNext env node.left_ptsb (addLoop env key pnode fuel node.left_ptsb)
      else if compare < 0 then
        linkAtEnd node.right_ptsb pre { node with right_ptsb := pnode } pnode
        unlockNext env node.right_ptsb (addLoop env key pnode fuel node.right_ptsb)
      else
        -- the unlock in front of the `break`
        let r ← call env (.unlock (some pre))
        RET_CHECK r (pure 0)

/-- The steps that are enough for a tree on the heap. -/
def fuelOf (h : Heap (PtsbTree α)) : ℕ := h.keys.card + 1

/-- The part of `tsb_add` behind the root check. -/
def addNode (env : Env α) (tree : ℕ) (key : Key) (value : α) : Code α ℤ := do
  let pnode ← mallocNode env
    { key := some key, value := value, left_ptsb := none, right_ptsb := none }
  if pnode = none then pure (-1)
  else
    -- the mutex of the tree in the place of the mutex of the new node
    let r ← call env (.init (some tree))
    RET_CHECK r do
      let s ← get
      addLoop env key pnode (fuelOf s.heap) (some tree)

/-- The root check of `tsb_add` and what follows it. -/
def checkRoot (env : Env α) (tree : ℕ) (key : Key) (value : α) : Code α ℤ := do
  let r ← call env (.lock (some tree))
  RET_CHECK r do
    let node ← load (some tree)
    if node.key = none then
      store tree { node with key := some key, value := value }
      let r ← call env (.unlock (some tree))
      RET_CHECK r (pure 0)
    else
      let r ← call env (.unlock (some tree))
      RET_CHECK r (addNode env tree key value)

/-- `tsb_add`. -/
def tsb_add (env : Env α) (tree : Ptr) (key : Option Key) (value : α) : Code α ℤ :=
  match tree, key with
  | some tree, some key => checkRoot env tree key value
  | _, _ => fail EINVAL

/-- The loop of `tsb_lookup`; `value` is what is at the address that the caller passes, if it
passes one. -/
def lookupLoop (key : Key) (value : Option α) : ℕ → Ptr → Code α (Boolean × Option α)
  | 0, _ => throw .diverges
  | _ + 1, none => pure (.False, value)
  | fuel + 1, some a => do
    let node ← load (some a)
    let compare ← compareKey node key
    if 0 < compare then lookupLoop key value fuel node.left_ptsb
    else if compare < 0 then lookupLoop key value fuel node.right_ptsb
    else pure (.True, value.map fun _ => node.value)

/-- `tsb_lookup`. -/
def tsb_lookup (tree : Ptr) (key : Option Key) (value : Option α) : Code α (Boolean × Option α) :=
  match key with
  | none => fun s => .ok (.False, value) { s with errno := EINVAL }
  | some key => do
    let s ← get
    lookupLoop key value (fuelOf s.heap) tree

/-! ## The order of the keys -/

/-- The comparison of two keys by the sign of `strcmp`. -/
def keyCompare (k k' : Key) : Ordering := compare ((strcmp (k.1 ++ [0]) k'.1).getD 0) 0

theorem keyCompare_eq : keyCompare = compareOn Subtype.val := by
  funext k k'
  obtain ⟨z, hz, hcmp⟩ := strcmp_compare k.2 k'.2
  rw [keyCompare, hz, Option.getD_some, hcmp, compareOn]

instance keyCompare_transCmp : Std.TransCmp keyCompare := by
  rw [keyCompare_eq]
  infer_instance

instance keyCompare_lawfulEqCmp : Std.LawfulEqCmp keyCompare where
  eq_of_compare {k k'} h := by
    rw [keyCompare_eq] at h
    exact Subtype.ext (Std.LawfulEqCmp.eq_of_compare h)

/-! ## Stretches of code -/

@[simp] theorem log_heap (s : Sys α) (e : Event) : (s.log e).heap = s.heap := rfl

@[simp] theorem log_events (s : Sys α) (e : Event) : (s.log e).events = s.events ++ [e] := rfl

/-- Code that returns is followed by what comes behind it. -/
theorem run_bind_of_ok {β γ : Type} {x : Code α β} {f : β → Code α γ} {s s' : Sys α} {b : β}
    (h : x.run s = .ok b s') : (x >>= f).run s = (f b).run s' := by
  rw [EStateM.run_bind, h]

theorem run_call (env : Env α) (c : Call) (s : Sys α) :
    (call env c).run s =
      .ok (env.mutex s.events c) (s.log (.mutex c (env.mutex s.events c))) := rfl

theorem RET_CHECK_zero (rest : Code α ℤ) : RET_CHECK 0 rest = rest := rfl

theorem run_load {a : ℕ} {s : Sys α} {node : PtsbTree α} (h : s.heap.lookup a = some node) :
    (load (some a)).run s = .ok node s := by
  simp only [load, EStateM.run, h]

theorem run_store (a : ℕ) (node : PtsbTree α) (s : Sys α) :
    (store a node).run s = .ok () { s with heap := s.heap.insert a node } := rfl

/-- The comparison of two keys in memory. -/
theorem run_compareKey {node : PtsbTree α} {k : Key} (hk : node.key = some k) (key : Key)
    (s : Sys α) :
    ∃ z, (compareKey node key).run s = .ok z s ∧ compare z 0 = keyCompare k key := by
  obtain ⟨z, hz, -⟩ := strcmp_compare k.2 key.2
  refine ⟨z, ?_, ?_⟩
  · simp only [compareKey, EStateM.run, hk, hz]
  · rw [keyCompare, hz, Option.getD_some]

section Branches

variable {β : Type} {node : PtsbTree α} {k : Key}

/-- The branches behind a comparison are those of the order of the keys. -/
theorem run_compareKey_of_gt (hk : node.key = some k) (key : Key)
    (h : keyCompare k key = .gt) (s : Sys α) (gt lt eq : Code α β) :
    (compareKey node key >>= fun compare =>
      if 0 < compare then gt else if compare < 0 then lt else eq).run s = gt.run s := by
  obtain ⟨z, hz, hcmp⟩ := run_compareKey hk key s
  rw [run_bind_of_ok hz, if_pos (compare_gt_iff_gt.1 (hcmp.trans h))]

theorem run_compareKey_of_lt (hk : node.key = some k) (key : Key)
    (h : keyCompare k key = .lt) (s : Sys α) (gt lt eq : Code α β) :
    (compareKey node key >>= fun compare =>
      if 0 < compare then gt else if compare < 0 then lt else eq).run s = lt.run s := by
  obtain ⟨z, hz, hcmp⟩ := run_compareKey hk key s
  have hneg : z < 0 := compare_lt_iff_lt.1 (hcmp.trans h)
  rw [run_bind_of_ok hz, if_neg hneg.le.not_gt, if_pos hneg]

theorem run_compareKey_of_eq (hk : node.key = some k) (key : Key)
    (h : keyCompare k key = .eq) (s : Sys α) (gt lt eq : Code α β) :
    (compareKey node key >>= fun compare =>
      if 0 < compare then gt else if compare < 0 then lt else eq).run s = eq.run s := by
  obtain ⟨z, hz, hcmp⟩ := run_compareKey hk key s
  have hzero : z = 0 := compare_eq_iff_eq.1 (hcmp.trans h)
  rw [run_bind_of_ok hz, if_neg hzero.le.not_gt, if_neg hzero.ge.not_gt]

end Branches

theorem run_mallocNode {env : Env α} {a : ℕ} {s : Sys α} (h : env.malloc s.events s.heap = some a)
    (node : PtsbTree α) :
    (mallocNode env node).run s =
      .ok (some a) { s.log (.malloc (some a)) with heap := s.heap.insert a node } := by
  simp only [mallocNode, EStateM.run, h]

/-! ## Trees of nodes -/

/-- The node with a key, a value and two children. -/
def ofEntry (e : Key × α) (left_ptsb right_ptsb : Ptr) : PtsbTree α where
  key := some e.1
  value := e.2
  left_ptsb := left_ptsb
  right_ptsb := right_ptsb

/-- The key of a node with its address. -/
def keyOf (x : ℕ × Key × α) : Key := x.2.1

/-- What `tsb_lookup` returns and leaves at the address `value`. -/
def found (value : Option α) : Option α → Boolean × Option α
  | none => (.False, value)
  | some v => (.True, value.map fun _ => v)

variable {t : BinaryTree (ℕ × Key × α)} {key : Key} {s : Sys α}

/-- **The loop of `tsb_lookup`** searches the tree. -/
theorem run_lookupLoop (value : Option α) (ht : Cells ofEntry s.heap t) {fuel : ℕ}
    (hfuel : t.numNodes < fuel) :
    (lookupLoop key value fuel (rootPtr t)).run s =
      .ok (found value ((find keyCompare keyOf key t).map fun x => x.2.2)) s := by
  induction t generalizing fuel with
  | nil =>
    obtain ⟨fuel, rfl⟩ := Nat.exists_eq_add_one_of_ne_zero hfuel.ne'
    rfl
  | node x l r hl hr =>
    obtain ⟨fuel, rfl⟩ := Nat.exists_eq_add_one_of_ne_zero (Nat.ne_zero_of_lt hfuel)
    obtain ⟨hx, hcl, hcr⟩ := ht
    rw [BinaryTree.numNodes] at hfuel
    have hkey : (ofEntry x.2 (rootPtr l) (rootPtr r)).key = some (keyOf x) := rfl
    rw [rootPtr_node, lookupLoop, run_bind_of_ok (run_load hx)]
    cases h : keyCompare (keyOf x) key with
    | gt =>
      rw [run_compareKey_of_gt hkey key h, find_of_gt h]
      exact hl hcl (by omega)
    | lt =>
      rw [run_compareKey_of_lt hkey key h, find_of_lt h]
      exact hr hcr (by omega)
    | eq =>
      rw [run_compareKey_of_eq hkey key h, find_of_eq h]
      rfl

section Add

variable {env : Env α} (hmutex : ∀ es c, env.mutex es c = 0)

include hmutex

theorem run_call_zero (c : Call) (s : Sys α) :
    (call env c).run s = .ok 0 (s.log (.mutex c 0)) := by
  rw [run_call, hmutex]

/-- The end of an iteration at the end of the tree. -/
theorem run_link (pre : ℕ) (node : PtsbTree α) (pnode : Ptr) (fuel : ℕ) (s : Sys α) :
    ((linkAtEnd none pre node pnode : Code α Unit) >>= fun _ =>
      unlockNext env none (addLoop env key pnode (fuel + 1) none)).run s =
      .ok 0 { (s.log (.link pnode)).log (.mutex (.unlock none) 0) with
        heap := s.heap.insert pre node } := by
  have hlink : (linkAtEnd none pre node pnode).run s =
      .ok () { s.log (.link pnode) with heap := s.heap.insert pre node } := rfl
  rw [run_bind_of_ok hlink, unlockNext, run_bind_of_ok (run_call_zero hmutex _ _), RET_CHECK_zero]
  rfl

/-- The end of an iteration in front of another node. -/
theorem run_next (b pre : ℕ) (node : PtsbTree α) (pnode : Ptr) (loop : Code α ℤ) (s : Sys α) :
    ((linkAtEnd (some b) pre node pnode : Code α Unit) >>= fun _ =>
      unlockNext env (some b) loop).run s = loop.run (s.log (.mutex (.unlock (some b)) 0)) := by
  have hskip : (linkAtEnd (some b) pre node pnode).run s = .ok () s := rfl
  rw [run_bind_of_ok hskip, unlockNext, run_bind_of_ok (run_call_zero hmutex _ _), RET_CHECK_zero]

/-- **The loop of `tsb_add`** inserts the new node and touches no cell outside of the tree. -/
theorem run_addLoop {a : ℕ} {e : Key × α} {fuel : ℕ} (hfuel : t.numNodes < fuel) (s : Sys α)
    (ht : HeapTree ofEntry s.heap t) (hne : t ≠ .nil)
    (ha : s.heap.lookup a = some (ofEntry e none none)) (hat : a ∉ addresses t) :
    ∃ s', (addLoop env e.1 (some a) fuel (rootPtr t)).run s = .ok 0 s' ∧
      Cells ofEntry s'.heap (insertKey keyCompare keyOf (a, e) t) ∧
      ∀ c, c ∉ addresses t → s'.heap.lookup c = s.heap.lookup c := by
  induction t generalizing fuel s with
  | nil => exact absurd rfl hne
  | node x l r hl hr =>
    obtain ⟨fuel, rfl⟩ := Nat.exists_eq_add_one_of_ne_zero (Nat.ne_zero_of_lt hfuel)
    rw [BinaryTree.numNodes] at hfuel
    obtain ⟨fuel', rfl⟩ := Nat.exists_eq_add_one_of_ne_zero (by omega : fuel ≠ 0)
    have hfuel_left : l.numNodes < fuel' + 1 := by omega
    have hfuel_right : r.numNodes < fuel' + 1 := by omega
    obtain ⟨hal, hax, har⟩ := notMem_addresses_node.1 hat
    have hkey : (ofEntry x.2 (rootPtr l) (rootPtr r)).key = some (keyOf x) := rfl
    have hload := run_load (s := s.log (.mutex (.lock (some x.1)) 0)) ht.cells.1
    rw [rootPtr_node, addLoop, run_bind_of_ok (run_call_zero hmutex _ _), RET_CHECK_zero,
      run_bind_of_ok hload]
    cases h : keyCompare (keyOf x) (keyOf (a, e)) with
    | gt =>
      rw [run_compareKey_of_gt hkey e.1 h, insertKey_of_gt h]
      cases l with
      | nil =>
        refine ⟨_, run_link hmutex _ _ _ _ _, ht.linkLeft ha hax, fun c hc => ?_⟩
        exact Finmap.lookup_insert_of_ne s.heap (notMem_addresses_node.1 hc).2.1
      | node y l' r' =>
        obtain ⟨s', hrun, hcells, hframe⟩ :=
          hl hfuel_left ((s.log (.mutex (.lock (some x.1)) 0)).log (.mutex (.unlock (some y.1)) 0))
            ht.left (by simp) ha hal
        refine ⟨s', (run_next hmutex _ _ _ _ _ _).trans hrun, ?_, fun c hc => ?_⟩
        · exact ht.replaceLeft hcells (rootPtr_insertKey _ (by simp)) hframe
        · exact hframe c (notMem_addresses_node.1 hc).1
    | lt =>
      rw [run_compareKey_of_lt hkey e.1 h, insertKey_of_lt h]
      cases r with
      | nil =>
        refine ⟨_, run_link hmutex _ _ _ _ _, ht.linkRight ha hax, fun c hc => ?_⟩
        exact Finmap.lookup_insert_of_ne s.heap (notMem_addresses_node.1 hc).2.1
      | node y l' r' =>
        obtain ⟨s', hrun, hcells, hframe⟩ :=
          hr hfuel_right ((s.log (.mutex (.lock (some x.1)) 0)).log (.mutex (.unlock (some y.1)) 0))
            ht.right (by simp) ha har
        refine ⟨s', (run_next hmutex _ _ _ _ _ _).trans hrun, ?_, fun c hc => ?_⟩
        · exact ht.replaceRight hcells (rootPtr_insertKey _ (by simp)) hframe
        · exact hframe c (notMem_addresses_node.1 hc).2.2
    | eq =>
      rw [run_compareKey_of_eq hkey e.1 h, insertKey_of_eq h,
        run_bind_of_ok (run_call_zero hmutex _ _), RET_CHECK_zero]
      exact ⟨_, rfl, ht.cells, fun c _ => rfl⟩

end Add

/-! ## Any number of calls -/

/-- The mutex operations return zero and `malloc` finds a block. -/
structure Env.Works (env : Env α) : Prop where
  mutex : ∀ es c, env.mutex es c = 0
  malloc : ∀ es h, ∃ a, env.malloc es h = some a ∧ a ∉ h

section Call

variable {env : Env α} {tree : ℕ} {node : PtsbTree α}

/-- A call of `tsb_add` on a root without a key. -/
theorem run_tsb_add_fill (henv : env.Works) (hnode : s.heap.lookup tree = some node)
    (hkey : node.key = none) (e : Key × α) :
    ∃ s', (tsb_add env (some tree) (some e.1) e.2).run s = .ok 0 s' ∧
      s'.heap = s.heap.insert tree { node with key := some e.1, value := e.2 } := by
  have hload := run_load (s := s.log (.mutex (.lock (some tree)) 0)) hnode
  rw [tsb_add, checkRoot, run_bind_of_ok (run_call_zero henv.mutex _ _), RET_CHECK_zero,
    run_bind_of_ok hload, if_pos hkey]
  rw [run_bind_of_ok (run_store _ _ _), run_bind_of_ok (run_call_zero henv.mutex _ _),
    RET_CHECK_zero, EStateM.run_pure]
  exact ⟨_, rfl, rfl⟩

/-- A call of `tsb_add` on a root with a key comes to its loop with a new node. -/
theorem run_tsb_add_loop (henv : env.Works) (hnode : s.heap.lookup tree = some node)
    (hkey : node.key ≠ none) (e : Key × α) :
    ∃ a s', a ∉ s.heap ∧ s'.heap = s.heap.insert a (ofEntry e none none) ∧
      (tsb_add env (some tree) (some e.1) e.2).run s =
        (addLoop env e.1 (some a) (fuelOf s'.heap) (some tree)).run s' := by
  have hload := run_load (s := s.log (.mutex (.lock (some tree)) 0)) hnode
  obtain ⟨s₁, hs₁⟩ : ∃ s₁, s₁ = (s.log (.mutex (.lock (some tree)) 0)).log
    (.mutex (.unlock (some tree)) 0) := ⟨_, rfl⟩
  have hheap : s₁.heap = s.heap := by rw [hs₁, log_heap, log_heap]
  obtain ⟨a, hmalloc, ha⟩ := henv.malloc s₁.events s₁.heap
  rw [tsb_add, checkRoot, run_bind_of_ok (run_call_zero henv.mutex _ _), RET_CHECK_zero,
    run_bind_of_ok hload, if_neg hkey, run_bind_of_ok (run_call_zero henv.mutex _ _),
    RET_CHECK_zero, ← hs₁, addNode, run_bind_of_ok (run_mallocNode hmalloc _),
    if_neg (Option.some_ne_none a), run_bind_of_ok (run_call_zero henv.mutex _ _), RET_CHECK_zero,
    run_bind_of_ok (EStateM.run_get _)]
  refine ⟨a, _, hheap ▸ ha, ?_, rfl⟩
  rw [log_heap, hheap]
  rfl

end Call

/-- The nodes from `tree` on are a search tree of the keys that were added, each with the value
that came first. -/
structure Represents (h : Heap (PtsbTree α)) (tree : ℕ) (adds : List (Key × α))
    (t : BinaryTree (ℕ × Key × α)) : Prop where
  heapTree : HeapTree ofEntry h t
  rootPtr_eq : rootPtr t = some tree
  ordered : Ordered keyCompare keyOf t
  find_eq : ∀ k, (find keyCompare keyOf k t).map (fun x => x.2.2) = adds.lookup k

/-- A new node adds its value for its key, unless the key has one. -/
theorem find_insertKey_map (a : ℕ) (e : Key × α) (k : Key) (t : BinaryTree (ℕ × Key × α)) :
    (find keyCompare keyOf k (insertKey keyCompare keyOf (a, e) t)).map (fun x => x.2.2) =
      ((find keyCompare keyOf k t).map fun x => x.2.2).or ([e].lookup k) := by
  obtain ⟨k', v⟩ := e
  rw [find_insertKey, Option.map_or, List.lookup_cons, List.lookup_nil]
  by_cases hk : k' = k
  · simp [keyOf, hk]
  · have hbeq : (k == k') = false := beq_eq_false_iff_ne.2 (Ne.symm hk)
    simp [keyOf, hk, hbeq]

namespace Represents

variable {env : Env α} {tree : ℕ} {adds : List (Key × α)}

/-- A root that gets its first key. -/
theorem fill {e : Key × α} (h : s.heap.lookup tree = some (ofEntry e none none)) :
    Represents s.heap tree [e] (.node (tree, e) .nil .nil) where
  heapTree := ⟨⟨h, trivial, trivial⟩, List.nodup_singleton _⟩
  rootPtr_eq := rfl
  ordered := ⟨by simp, by simp, trivial, trivial⟩
  find_eq k := find_insertKey_map tree e k .nil

/-- **A call of `tsb_add`** inserts a new key and keeps the value of an old one. -/
theorem tsb_add (h : Represents s.heap tree adds t) (henv : env.Works) (e : Key × α) :
    ∃ s' t', (tsb_add env (some tree) (some e.1) e.2).run s = .ok 0 s' ∧
      Represents s'.heap tree (adds ++ [e]) t' := by
  obtain ⟨ht, hroot, hord, hfind⟩ := h
  have hne : t ≠ .nil := by
    rintro rfl
    cases hroot
  obtain ⟨node, hnode, hkey⟩ : ∃ node, s.heap.lookup tree = some node ∧ node.key ≠ none := by
    cases t with
    | nil => exact absurd rfl hne
    | node x l r =>
      cases hroot
      exact ⟨_, ht.cells.1, Option.some_ne_none _⟩
  obtain ⟨a, s₁, ha, hheap, hrun⟩ := run_tsb_add_loop henv hnode hkey e
  have hat : a ∉ addresses t := fun hmem => ha (ht.cells.mem hmem)
  have hlookup : s₁.heap.lookup a = some (ofEntry e none none) := by
    rw [hheap, Finmap.lookup_insert]
  have ht₁ : HeapTree ofEntry s₁.heap t := by
    refine ⟨ht.cells.frame fun c hc => ?_, ht.nodup⟩
    rw [hheap]
    exact Finmap.lookup_insert_of_ne _ fun hca => hat (hca ▸ hc)
  have hfuel : t.numNodes < fuelOf s₁.heap := Nat.lt_succ_of_le ht₁.numNodes_le
  obtain ⟨s', hloop, hcells, -⟩ := run_addLoop henv.mutex hfuel s₁ ht₁ hne hlookup hat
  rw [hroot] at hloop
  refine ⟨s', _, hrun.trans hloop, ⟨hcells, ?_⟩, ?_, hord.insertKey (a, e), fun k => ?_⟩
  · exact nodup_addresses_insertKey ht.nodup hat
  · rw [rootPtr_insertKey _ hne, hroot]
  · rw [find_insertKey_map, hfind k, List.lookup_append]

/-- **Calls of `tsb_add`** on a tree that is in use. -/
theorem run_adds (h : Represents s.heap tree adds t) (henv : env.Works) (adds' : List (Key × α)) :
    ∃ s' t', (adds'.mapM fun e => TsbMap.tsb_add env (some tree) (some e.1) e.2).run s =
        .ok (adds'.map fun _ => 0) s' ∧ Represents s'.heap tree (adds ++ adds') t' := by
  induction adds' generalizing s t adds with
  | nil => exact ⟨s, t, rfl, by rwa [List.append_nil]⟩
  | cons e adds' ih =>
    obtain ⟨s₁, t₁, hrun, h₁⟩ := h.tsb_add henv e
    obtain ⟨s', t', hruns, h'⟩ := ih h₁
    refine ⟨s', t', ?_, by rwa [List.append_cons]⟩
    rw [List.mapM_cons, run_bind_of_ok hrun, run_bind_of_ok hruns, EStateM.run_pure, List.map_cons]

/-- The nodes have the keys that were added and their first values. -/
theorem mem_iff (h : Represents s.heap tree adds t) (k : Key) (v : α) :
    (k, v) ∈ (inorder t).map Prod.snd ↔ adds.lookup k = some v := by
  rw [← h.find_eq k, Option.map_eq_some_iff, List.mem_map]
  constructor
  · rintro ⟨x, hx, hkv⟩
    exact ⟨x, h.ordered.find_eq_some_iff.2 ⟨hx, congrArg Prod.fst hkv⟩, congrArg Prod.snd hkv⟩
  · rintro ⟨x, hx, hv⟩
    obtain ⟨hmem, hk⟩ := h.ordered.find_eq_some_iff.1 hx
    exact ⟨x, hmem, Prod.ext hk hv⟩

/-- **`tsb_lookup`** finds the first value of each key. -/
theorem tsb_lookup (h : Represents s.heap tree adds t) (k : Key) (value : Option α) :
    (tsb_lookup (some tree) (some k) value).run s = .ok (found value (adds.lookup k)) s := by
  have hfuel : t.numNodes < fuelOf s.heap := Nat.lt_succ_of_le h.heapTree.numNodes_le
  rw [TsbMap.tsb_lookup, run_bind_of_ok (EStateM.run_get s), ← h.rootPtr_eq,
    run_lookupLoop value h.heapTree.cells hfuel, h.find_eq]

end Represents

/-- **Calls of `tsb_add` build a search tree.** Whatever is added to an empty tree, each call
returns zero, the nodes are then ordered by their distinct keys, which are the added ones with
their first values, and `tsb_lookup` finds exactly these. -/
theorem tsb_adds_represent {env : Env α} (henv : env.Works) {tree : ℕ} {v : α}
    (hs : s.heap.lookup tree =
      some { key := none, value := v, left_ptsb := none, right_ptsb := none })
    (adds : List (Key × α)) (hadds : adds ≠ []) :
    ∃ s' t, (adds.mapM fun e => tsb_add env (some tree) (some e.1) e.2).run s =
        .ok (adds.map fun _ => 0) s' ∧
      HeapTree ofEntry s'.heap t ∧ rootPtr t = some tree ∧ Ordered keyCompare keyOf t ∧
      ((inorder t).map keyOf).Nodup ∧
      (∀ k v, (k, v) ∈ (inorder t).map Prod.snd ↔ adds.lookup k = some v) ∧
      ∀ k value, (tsb_lookup (some tree) (some k) value).run s' =
        .ok (found value (adds.lookup k)) s' := by
  obtain ⟨e, adds, rfl⟩ := List.exists_cons_of_ne_nil hadds
  obtain ⟨s₁, hrun, hheap⟩ := run_tsb_add_fill henv hs rfl e
  have hfill : Represents s₁.heap tree [e] (.node (tree, e) .nil .nil) := by
    refine .fill ?_
    rw [hheap, Finmap.lookup_insert]
    rfl
  obtain ⟨s', t, hruns, h⟩ := hfill.run_adds henv adds
  refine ⟨s', t, ?_, h.heapTree, h.rootPtr_eq, h.ordered, h.ordered.nodup, h.mem_iff, h.tsb_lookup⟩
  rw [List.mapM_cons, run_bind_of_ok hrun, run_bind_of_ok hruns, EStateM.run_pure, List.map_cons]

/-- Mutex operations without failures, and a `malloc` that goes on behind the last block. -/
def goodEnv : Env α where
  mutex _ _ := 0
  malloc _ h := some (h.keys.sup id + 1)

theorem goodEnv_malloc_notMem (h : Heap (PtsbTree α)) : h.keys.sup id + 1 ∉ h := by
  intro hmem
  have hle : h.keys.sup id + 1 ≤ h.keys.sup id := Finset.le_sup (f := id) (Finmap.mem_keys.2 hmem)
  omega

theorem goodEnv_works : (goodEnv : Env α).Works where
  mutex _ _ := rfl
  malloc _ h := ⟨_, rfl, goodEnv_malloc_notMem h⟩

/-- The key `"a"`. -/
def keyA : Key := ⟨[97], by decide⟩

/-- The key `"b"`. -/
def keyB : Key := ⟨[98], by decide⟩

/-- A root at the address 1. -/
def rootOf (key : Option Key) : Sys ℕ where
  heap := Finmap.singleton 1 { key := key, value := 0, left_ptsb := none, right_ptsb := none }
  errno := 0
  events := []

@[simp] theorem lookup_rootOf (key : Option Key) : (rootOf key).heap.lookup 1 =
    some { key := key, value := 0, left_ptsb := none, right_ptsb := none } :=
  Finmap.lookup_singleton_eq

/-- A key that is added twice keeps its first value. -/
theorem tsb_adds_represent_again :
    ∃ s', ([(keyB, 1), (keyA, 2), (keyB, 3)].mapM fun e =>
        tsb_add goodEnv (some 1) (some e.1) e.2).run (rootOf none) = .ok [0, 0, 0] s' ∧
      (tsb_lookup (some 1) (some keyA) (some 0)).run s' = .ok (.True, some 2) s' ∧
      (tsb_lookup (some 1) (some keyB) (some 0)).run s' = .ok (.True, some 1) s' := by
  obtain ⟨s', t, hrun, -, -, -, -, -, hlookup⟩ := tsb_adds_represent goodEnv_works
    (lookup_rootOf none) [(keyB, 1), (keyA, 2), (keyB, 3)] (List.cons_ne_nil _ _)
  exact ⟨s', hrun, hlookup keyA (some 0), hlookup keyB (some 0)⟩

end TlpiLearn.TsbMap
