import TlpiLearn.Threads.TsbMap
import Mathlib.Tactic

/-!
# Deletions from `tsbTree`

`tsb_delete` of `30_2/tsb_tree.c` on the trees of one caller. The search sets `pre = tree` in front
of every comparison, so that a key that is found is found at `pre`, and the case that is meant for
the root is taken at every node. There `tree = p` stands in front of the assignments, which then
copy the links of the successor `p` to itself, and `free(tree)` frees the successor while it is
still linked; without a right child there is no successor and `p` is `NULL`.
-/

namespace TlpiLearn.TsbMap

open SearchTree
open TsbTree (Key)

variable {α : Type}

/-- An assignment to members of the node that a pointer points to. -/
def assign (p : Ptr) (f : PtsbTree α → PtsbTree α) : Code α Unit := fun s =>
  match p with
  | none => .error .nullDeref s
  | some a =>
    match s.heap.lookup a with
    | none => .error .badAddress s
    | some node => .ok () { s with heap := s.heap.insert a (f node) }

/-- `free`. -/
def free (p : Ptr) : Code α Unit := fun s =>
  match p with
  | none => .ok () s
  | some a =>
    match s.heap.lookup a with
    | none => .error .badAddress s
    | some _ => .ok () { s with heap := s.heap.erase a }

/-- The key of a node, for `strcmp`. -/
def nodeKey (node : PtsbTree α) : Code α Key := fun s =>
  match node.key with
  | none => .error .nullDeref s
  | some key => .ok key s

/-- The search of `tsb_delete`; it ends with `pre` and `tree`. -/
def searchLoop (key : Key) : ℕ → Ptr → Ptr → Code α (Ptr × Ptr)
  | 0, _, _ => throw .diverges
  | _ + 1, pre, none => pure (pre, none)
  | fuel + 1, _, some a => do
    let node ← load (some a)
    let compare ← compareKey node key
    if 0 < compare then searchLoop key fuel (some a) node.left_ptsb
    else if compare < 0 then searchLoop key fuel (some a) node.right_ptsb
    else pure (some a, some a)

/-- `while (p->left_ptsb)`. -/
def leftmostLoop : ℕ → Ptr → Code α Ptr
  | 0, _ => throw .diverges
  | fuel + 1, p => do
    let node ← load p
    if node.left_ptsb = none then pure p else leftmostLoop fuel node.left_ptsb

/-- The assignments of the links of `tree` to `p`. -/
def takeLinks (p tree : Ptr) : Code α Unit := do
  let node ← load tree
  assign p fun pnode => { pnode with left_ptsb := node.left_ptsb }
  let node ← load tree
  if node.right_ptsb = p then pure ()
  else assign p fun pnode => { pnode with right_ptsb := node.right_ptsb }

/-- The comparison with the left child of `pre` and the assignment of `p` to a link of `pre`. -/
def relink (pre tree p : Ptr) : Code α Unit := do
  let prenode ← load pre
  let left ← load prenode.left_ptsb
  let node ← load tree
  let key ← nodeKey node
  let compare ← compareKey left key
  if compare = 0 then assign pre fun prenode => { prenode with left_ptsb := p }
  else assign pre fun prenode => { prenode with right_ptsb := p }

/-- The unlock, `free(tree)` and `return 0`. -/
def unlockFree (env : Env α) (tree : Ptr) : Code α ℤ := do
  let r ← call env (.unlock tree)
  RET_CHECK r do
    free tree
    pure 0

/-- The case `tree == pre` of `tsb_delete`. -/
def deleteRoot (env : Env α) (tree : Ptr) : Code α ℤ := do
  let node ← load tree
  let r ← call env (.lock node.right_ptsb)
  RET_CHECK r do
    let s ← get
    let p ← leftmostLoop (fuelOf s.heap) node.right_ptsb
    -- `tree = p`
    takeLinks p p
    let r ← call env (.unlock p)
    RET_CHECK r (unlockFree env p)

/-- The cases of `tsb_delete` behind it. -/
def deleteInner (env : Env α) (pre tree : Ptr) : Code α ℤ := do
  let node ← load tree
  if node.left_ptsb = none then
    relink pre tree node.right_ptsb
    unlockFree env tree
  else if node.right_ptsb = none then
    relink pre tree node.left_ptsb
    unlockFree env tree
  else
    let r ← call env (.lock node.right_ptsb)
    RET_CHECK r do
      let s ← get
      let p ← leftmostLoop (fuelOf s.heap) node.right_ptsb
      takeLinks p tree
      relink pre tree p
      let r ← call env (.lock p)
      RET_CHECK r (unlockFree env tree)

/-- `tsb_delete` behind the search. -/
def deleteFound (env : Env α) (pre tree : Ptr) : Code α ℤ := do
  let r ← call env (.lock tree)
  RET_CHECK r <|
    if tree = none then pure (-1)
    else if tree = pre then deleteRoot env tree
    else deleteInner env pre tree

/-- `tsb_delete`; `pre` is uninitialized in front of the search. -/
def tsb_delete (env : Env α) (tree : Ptr) (key : Option Key) : Code α ℤ :=
  match tree, key with
  | some tree, some key => do
    let s ← get
    let found ← searchLoop key (fuelOf s.heap) none (some tree)
    deleteFound env found.1 found.2
  | _, _ => fail EINVAL

/-! ## What a deletion should do -/

/-- The entries of the map that the tree at `tree` stands for; a root without a key is empty. -/
def HoldsEntries (h : Heap (PtsbTree α)) (tree : ℕ) (entries : List (Key × α)) : Prop :=
  (entries = [] ∧ ∃ v, h.lookup tree =
    some { key := none, value := v, left_ptsb := none, right_ptsb := none }) ∨
  ∃ t, HeapTree ofEntry h t ∧ rootPtr t = some tree ∧ Ordered keyCompare keyOf t ∧
    (inorder t).map Prod.snd = entries

/-- A call of `tsb_delete` returns, and it takes `key` and nothing else out of the tree `t`. What
is freed is no cell of the tree that is left. -/
def Deletes (env : Env α) (s : Sys α) (tree : ℕ) (t : BinaryTree (ℕ × Key × α)) (key : Key) :
    Prop :=
  ∃ r s', (tsb_delete env (some tree) (some key)).run s = .ok r s' ∧
    (key ∈ (inorder t).map keyOf → r = 0 ∧
      HoldsEntries s'.heap tree (((inorder t).map Prod.snd).filter fun e => e.1 ≠ key)) ∧
    (key ∉ (inorder t).map keyOf → r = -1 ∧ s'.heap = s.heap)

/-! ## The search and the successor -/

variable {t : BinaryTree (ℕ × Key × α)} {key : Key} {s : Sys α}

/-- **The search** ends behind the tree, or at the node with the key, which is then also `pre`. -/
theorem run_searchLoop (ht : HeapTree ofEntry s.heap t) {fuel : ℕ} (hfuel : t.numNodes < fuel)
    (key : Key) (pre : Ptr) :
    (find keyCompare keyOf key t = none ∧
      ∃ pre', (searchLoop key fuel pre (rootPtr t)).run s = .ok (pre', none) s) ∨
    ∃ x l r, find keyCompare keyOf key t = some x ∧
      (searchLoop key fuel pre (rootPtr t)).run s = .ok (some x.1, some x.1) s ∧
      HeapTree ofEntry s.heap (.node x l r) ∧ addresses r ⊆ addresses t := by
  induction t generalizing fuel pre with
  | nil =>
    obtain ⟨fuel, rfl⟩ := Nat.exists_eq_add_one_of_ne_zero hfuel.ne'
    exact Or.inl ⟨rfl, pre, rfl⟩
  | node x l r hl hr =>
    obtain ⟨fuel, rfl⟩ := Nat.exists_eq_add_one_of_ne_zero (Nat.ne_zero_of_lt hfuel)
    rw [BinaryTree.numNodes] at hfuel
    have hkey : (ofEntry x.2 (rootPtr l) (rootPtr r)).key = some (keyOf x) := rfl
    rw [rootPtr_node, searchLoop, run_bind_of_ok (run_load ht.cells.1), addresses_node]
    cases h : keyCompare (keyOf x) key with
    | gt =>
      rw [run_compareKey_of_gt hkey key h, find_of_gt h]
      refine (hl ht.left (by omega) (some x.1)).imp_right ?_
      rintro ⟨y, l', r', hfind, hrun, htree, hsub⟩
      exact ⟨y, l', r', hfind, hrun, htree, List.subset_append_of_subset_left _ hsub⟩
    | lt =>
      rw [run_compareKey_of_lt hkey key h, find_of_lt h]
      refine (hr ht.right (by omega) (some x.1)).imp_right ?_
      rintro ⟨y, l', r', hfind, hrun, htree, hsub⟩
      refine ⟨y, l', r', hfind, hrun, htree, List.subset_append_of_subset_right _ ?_⟩
      exact List.subset_cons_of_subset _ hsub
    | eq =>
      rw [run_compareKey_of_eq hkey key h, find_of_eq h]
      refine Or.inr ⟨x, l, r, rfl, rfl, ht, List.subset_append_of_subset_right _ ?_⟩
      exact List.subset_cons_self _ _

/-- **The way to the left** ends at a node of the tree. -/
theorem run_leftmostLoop (ht : Cells ofEntry s.heap t) (hne : t ≠ .nil) {fuel : ℕ}
    (hfuel : t.numNodes < fuel) :
    ∃ a node, (leftmostLoop fuel (rootPtr t)).run s = .ok (some a) s ∧ a ∈ addresses t ∧
      s.heap.lookup a = some node := by
  induction t generalizing fuel with
  | nil => exact absurd rfl hne
  | node x l r hl hr =>
    obtain ⟨fuel, rfl⟩ := Nat.exists_eq_add_one_of_ne_zero (Nat.ne_zero_of_lt hfuel)
    obtain ⟨hx, hcl, -⟩ := ht
    rw [BinaryTree.numNodes] at hfuel
    rw [rootPtr_node, leftmostLoop, run_bind_of_ok (run_load hx)]
    cases l with
    | nil => exact ⟨x.1, _, rfl, by simp, hx⟩
    | node y l' r' =>
      have hfuel_left : (BinaryTree.node y l' r').numNodes < fuel := by omega
      obtain ⟨a, node, hrun, ha, hlookup⟩ := hl hcl (by simp) hfuel_left
      refine ⟨a, node, hrun, ?_, hlookup⟩
      rw [addresses_node]
      exact List.mem_append_left _ ha

/-! ## The root case -/

theorem run_assign {a : ℕ} {node : PtsbTree α} (h : s.heap.lookup a = some node)
    (f : PtsbTree α → PtsbTree α) :
    (assign (some a) f).run s = .ok () { s with heap := s.heap.insert a (f node) } := by
  simp only [assign, EStateM.run, h]

theorem run_free {a : ℕ} {node : PtsbTree α} (h : s.heap.lookup a = some node) :
    (free (some a)).run s = .ok () { s with heap := s.heap.erase a } := by
  simp only [free, EStateM.run, h]

/-- A node that is assigned its own links stays as it is. -/
theorem run_takeLinks_self {a : ℕ} {node : PtsbTree α} (h : s.heap.lookup a = some node) :
    ∃ s', (takeLinks (some a) (some a)).run s = .ok () s' ∧
      ∀ b, s'.heap.lookup b = s.heap.lookup b := by
  have hinsert (h' : Heap (PtsbTree α)) (heq : ∀ b, h'.lookup b = s.heap.lookup b) (b : ℕ) :
      (h'.insert a node).lookup b = s.heap.lookup b := by
    by_cases hb : b = a
    · rw [hb, Finmap.lookup_insert, h]
    · rw [Finmap.lookup_insert_of_ne _ hb, heq]
  have hleft := hinsert s.heap fun _ => rfl
  have hload := run_load (s := { s with heap := s.heap.insert a node }) (Finmap.lookup_insert _)
  rw [takeLinks, run_bind_of_ok (run_load h), run_bind_of_ok (run_assign h _),
    run_bind_of_ok hload]
  split_ifs
  · exact ⟨_, rfl, hleft⟩
  · exact ⟨_, run_assign (Finmap.lookup_insert _) _, hinsert _ hleft⟩

/-- **A tree that has lost a node** holds no entries any more. -/
theorem not_holdsEntries_of_free {h' : Heap (PtsbTree α)} (ht : HeapTree ofEntry s.heap t)
    {tree : ℕ} (hroot : rootPtr t = some tree) {a : ℕ} (ha : a ∈ addresses t) (hfree : a ∉ h')
    (heq : ∀ b, b ≠ a → h'.lookup b = s.heap.lookup b) (entries : List (Key × α)) :
    ¬ HoldsEntries h' tree entries := by
  rintro (⟨-, v, hv⟩ | ⟨t', ht', hroot', -⟩)
  · have htree : tree ≠ a := fun hta => hfree (hta ▸ Finmap.mem_of_lookup_eq_some hv)
    cases t with
    | nil => cases hroot
    | node x l r =>
      cases hroot
      rw [heq _ htree, ht.cells.1] at hv
      cases hv
  · have hmk {e e' : Key × α} {p p' q q' : Ptr} (hnode : ofEntry e p q = ofEntry e' p' q') :
        p = p' ∧ q = q' :=
      ⟨congrArg PtsbTree.left_ptsb hnode, congrArg PtsbTree.right_ptsb hnode⟩
    exact not_cells_of_free hmk ha ht.cells hfree (fun b _ hb => heq b hb)
      (hroot'.trans hroot.symm) ht'.cells

section Delete

variable {env : Env α} (hmutex : ∀ es c, env.mutex es c = 0)

include hmutex

theorem run_unlockFree {a : ℕ} {node : PtsbTree α} (h : s.heap.lookup a = some node) :
    (unlockFree env (some a)).run s =
      .ok 0 { s.log (.mutex (.unlock (some a)) 0) with heap := s.heap.erase a } := by
  have hfree := run_free (s := s.log (.mutex (.unlock (some a)) 0)) h
  rw [unlockFree, run_bind_of_ok (run_call_zero hmutex _ _), RET_CHECK_zero, run_bind_of_ok hfree]
  rfl

/-- **The root case** does not return, or it frees a node of the right subtree and leaves all
others as they are. -/
theorem run_deleteRoot {x : ℕ × Key × α} {l r : BinaryTree (ℕ × Key × α)}
    (ht : HeapTree ofEntry s.heap (.node x l r)) {res : ℤ} {s' : Sys α}
    (hrun : (deleteRoot env (some x.1)).run s = .ok res s') :
    ∃ a ∈ addresses r, a ∉ s'.heap ∧ ∀ b, b ≠ a → s'.heap.lookup b = s.heap.lookup b := by
  have hright : (ofEntry x.2 (rootPtr l) (rootPtr r)).right_ptsb = rootPtr r := rfl
  rw [deleteRoot, run_bind_of_ok (run_load ht.cells.1), hright,
    run_bind_of_ok (run_call_zero hmutex _ _), RET_CHECK_zero,
    run_bind_of_ok (EStateM.run_get _)] at hrun
  cases r with
  | nil =>
    -- `p` is `NULL`
    cases hrun
  | node y l' r' =>
    have hfuel := Nat.lt_succ_of_le ht.right.numNodes_le
    obtain ⟨a, node, hp, ha, hlookup⟩ := run_leftmostLoop
      (s := s.log (.mutex (.lock (rootPtr (.node y l' r'))) 0)) ht.right.cells (by simp) hfuel
    obtain ⟨s₁, hlinks, heq⟩ := run_takeLinks_self hlookup
    have hlookup₁ : (s₁.log (.mutex (.unlock (some a)) 0)).heap.lookup a = some node := by
      rw [log_heap, heq, hlookup]
    rw [fuelOf, log_heap, run_bind_of_ok hp, run_bind_of_ok hlinks,
      run_bind_of_ok (run_call_zero hmutex _ _), RET_CHECK_zero,
      run_unlockFree hmutex hlookup₁] at hrun
    cases hrun
    refine ⟨a, ha, Finmap.notMem_erase_self, fun b hb => ?_⟩
    rw [Finmap.lookup_erase_ne hb, log_heap, heq, log_heap]

/-! ## The whole call -/

variable {tree : ℕ}

/-- **A key that is not in the tree** makes `tsb_delete` return −1. -/
theorem run_tsb_delete_absent (ht : HeapTree ofEntry s.heap t) (hroot : rootPtr t = some tree)
    (hord : Ordered keyCompare keyOf t) (hkey : key ∉ (inorder t).map keyOf) :
    ∃ s', (tsb_delete env (some tree) (some key)).run s = .ok (-1) s' ∧ s'.heap = s.heap := by
  have hfuel : t.numNodes < fuelOf s.heap := Nat.lt_succ_of_le ht.numNodes_le
  obtain ⟨-, pre, hsearch⟩ | ⟨x, -, -, hfind, -⟩ := run_searchLoop ht hfuel key none
  · rw [hroot] at hsearch
    rw [tsb_delete, run_bind_of_ok (EStateM.run_get s), run_bind_of_ok hsearch, deleteFound,
      run_bind_of_ok (run_call_zero hmutex _ _), RET_CHECK_zero, if_pos rfl]
    exact ⟨_, rfl, rfl⟩
  · obtain ⟨hx, hxkey⟩ := hord.find_eq_some_iff.1 hfind
    exact absurd (List.mem_map.2 ⟨x, hx, hxkey⟩) hkey

/-- **A key that is in the tree** makes `tsb_delete` free a node of the tree, if it returns. -/
theorem run_tsb_delete_present (ht : HeapTree ofEntry s.heap t) (hroot : rootPtr t = some tree)
    (hord : Ordered keyCompare keyOf t) (hkey : key ∈ (inorder t).map keyOf) {res : ℤ}
    {s' : Sys α} (hrun : (tsb_delete env (some tree) (some key)).run s = .ok res s') :
    ∃ a ∈ addresses t, a ∉ s'.heap ∧ ∀ b, b ≠ a → s'.heap.lookup b = s.heap.lookup b := by
  have hfuel : t.numNodes < fuelOf s.heap := Nat.lt_succ_of_le ht.numNodes_le
  obtain ⟨hfind, -⟩ | ⟨x, l, r, -, hsearch, htree, hsub⟩ := run_searchLoop ht hfuel key none
  · obtain ⟨x, hx, hxkey⟩ := List.mem_map.1 hkey
    rw [hord.find_eq_some_iff.2 ⟨hx, hxkey⟩] at hfind
    cases hfind
  · rw [hroot] at hsearch
    rw [tsb_delete, run_bind_of_ok (EStateM.run_get s), run_bind_of_ok hsearch, deleteFound,
      run_bind_of_ok (run_call_zero hmutex _ _), RET_CHECK_zero, if_neg (Option.some_ne_none _),
      if_pos rfl] at hrun
    obtain ⟨a, ha, hfree, heq⟩ :=
      run_deleteRoot (s := s.log (.mutex (.lock (some x.1)) 0)) hmutex htree hrun
    exact ⟨a, hsub ha, hfree, heq⟩

/-- **`tsb_delete` does its work exactly for the keys that are not in the tree**: with a key that
is, it follows a null pointer or frees a node that is still linked, whatever the tree. -/
theorem tsb_delete_deletes_iff (ht : HeapTree ofEntry s.heap t) (hroot : rootPtr t = some tree)
    (hord : Ordered keyCompare keyOf t) (key : Key) :
    Deletes env s tree t key ↔ key ∉ (inorder t).map keyOf := by
  constructor
  · rintro ⟨res, s', hrun, hpresent, -⟩ hkey
    obtain ⟨a, ha, hfree, heq⟩ := run_tsb_delete_present hmutex ht hroot hord hkey hrun
    exact not_holdsEntries_of_free ht hroot ha hfree heq _ (hpresent hkey).2
  · intro hkey
    obtain ⟨s', hrun, hheap⟩ := run_tsb_delete_absent hmutex ht hroot hord hkey
    exact ⟨-1, s', hrun, fun hmem => absurd hmem hkey, fun _ => ⟨rfl, hheap⟩⟩

end Delete

/-- The tree of a single node with the key `"b"`. -/
theorem tsb_delete_deletes_iff_rootOf :
    Deletes goodEnv (rootOf (some keyB)) 1 (.node (1, keyB, 0) .nil .nil) keyA ∧
      ¬ Deletes goodEnv (rootOf (some keyB)) 1 (.node (1, keyB, 0) .nil .nil) keyB := by
  have ht : HeapTree ofEntry (rootOf (some keyB)).heap (.node (1, keyB, 0) .nil .nil) :=
    ⟨⟨lookup_rootOf _, trivial, trivial⟩, List.nodup_singleton _⟩
  have hord : Ordered keyCompare keyOf (.node (1, keyB, (0 : ℕ)) .nil .nil) :=
    ⟨by simp, by simp, trivial, trivial⟩
  have hA := tsb_delete_deletes_iff goodEnv_works.mutex ht rfl hord keyA
  have hB := tsb_delete_deletes_iff goodEnv_works.mutex ht rfl hord keyB
  exact ⟨hA.2 (by decide), fun hdel => hB.1 hdel (by decide)⟩

/-- A root without children has no successor. -/
theorem run_tsb_delete_rootOf :
    (tsb_delete goodEnv (some 1) (some keyB)).run (rootOf (some keyB)) =
      .error .nullDeref
        (((rootOf (some keyB)).log (.mutex (.lock (some 1)) 0)).log (.mutex (.lock none) 0)) :=
  rfl

/-- The only key of a tree is not taken out. -/
theorem not_deletes_rootOf :
    ¬ Deletes goodEnv (rootOf (some keyB)) 1 (.node (1, keyB, 0) .nil .nil) keyB := by
  rintro ⟨r, s', hrun, -⟩
  rw [run_tsb_delete_rootOf] at hrun
  cases hrun

end TlpiLearn.TsbMap
