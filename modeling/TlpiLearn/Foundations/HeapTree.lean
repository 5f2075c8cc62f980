import TlpiLearn.Foundations.SList
import TlpiLearn.Foundations.SearchTree
import Mathlib.Tactic

/-!
# Binary trees on a heap

A tree whose elements are given with the addresses of their cells; a cell holds `mk e p q` for an
element `e` and the pointers `p` and `q` to its children. A tree is only about its own cells
(`Cells.frame`), so that a change below one child leaves the other one as it is. New nodes are
linked in where a pointer is `NULL` (`HeapTree.linkLeft`, `HeapTree.linkRight`). Once a cell of a
tree is freed while the others stay, there is no tree from its root on (`not_cells_of_free`).
-/

namespace TlpiLearn

open SearchTree

variable {ε ν : Type*}

/-- The pointer to a tree. -/
def rootPtr : BinaryTree (ℕ × ε) → Ptr
  | .nil => none
  | .node x _ _ => some x.1

@[simp] theorem rootPtr_nil : rootPtr (.nil : BinaryTree (ℕ × ε)) = none := rfl

@[simp] theorem rootPtr_node (x : ℕ × ε) (l r : BinaryTree (ℕ × ε)) :
    rootPtr (.node x l r) = some x.1 := rfl

/-- The addresses of the nodes of a tree. -/
def addresses (t : BinaryTree (ℕ × ε)) : List ℕ := (inorder t).map Prod.fst

@[simp] theorem addresses_nil : addresses (.nil : BinaryTree (ℕ × ε)) = [] := rfl

@[simp] theorem addresses_node (x : ℕ × ε) (l r : BinaryTree (ℕ × ε)) :
    addresses (.node x l r) = addresses l ++ x.1 :: addresses r := by
  simp [addresses]

theorem notMem_addresses_node {a : ℕ} {x : ℕ × ε} {l r : BinaryTree (ℕ × ε)} :
    a ∉ addresses (.node x l r) ↔ a ∉ addresses l ∧ a ≠ x.1 ∧ a ∉ addresses r := by
  rw [addresses_node, List.mem_append, List.mem_cons, not_or, not_or]

variable (mk : ε → Ptr → Ptr → ν)

/-- Every node of the tree is in its cell. -/
def Cells (h : Heap ν) : BinaryTree (ℕ × ε) → Prop
  | .nil => True
  | .node x l r => h.lookup x.1 = some (mk x.2 (rootPtr l) (rootPtr r)) ∧ Cells h l ∧ Cells h r

/-- A tree whose nodes are in different cells. -/
structure HeapTree (h : Heap ν) (t : BinaryTree (ℕ × ε)) : Prop where
  cells : Cells mk h t
  nodup : (addresses t).Nodup

variable {mk} {h h' : Heap ν} {t l r : BinaryTree (ℕ × ε)} {x : ℕ × ε}

/-- A tree depends only on its own cells. -/
theorem Cells.frame (ht : Cells mk h t) (heq : ∀ a ∈ addresses t, h'.lookup a = h.lookup a) :
    Cells mk h' t := by
  induction t with
  | nil => trivial
  | node x l r hl hr =>
    obtain ⟨hx, hcl, hcr⟩ := ht
    rw [addresses_node] at heq
    refine ⟨?_, hl hcl fun a ha => heq a ?_, hr hcr fun a ha => heq a ?_⟩
    · rw [heq x.1 (by simp), hx]
    · exact List.mem_append_left _ ha
    · exact List.mem_append_right _ (List.mem_cons_of_mem _ ha)

/-- The cells of a tree are allocated. -/
theorem Cells.mem (ht : Cells mk h t) {a : ℕ} (ha : a ∈ addresses t) : a ∈ h := by
  induction t with
  | nil => cases ha
  | node x l r hl hr =>
    obtain ⟨hx, hcl, hcr⟩ := ht
    rw [addresses_node, List.mem_append, List.mem_cons] at ha
    obtain ha | rfl | ha := ha
    · exact hl hcl ha
    · exact Finmap.mem_of_lookup_eq_some hx
    · exact hr hcr ha

/-- The root of a tree is one of its nodes. -/
theorem mem_addresses_of_rootPtr {a : ℕ} (hroot : rootPtr t = some a) : a ∈ addresses t := by
  cases t with
  | nil => cases hroot
  | node x l r =>
    rw [rootPtr_node, Option.some.injEq] at hroot
    rw [addresses_node, hroot]
    simp

/-- **A tree that loses a cell** and keeps the others is no tree any more. -/
theorem not_cells_of_free
    (hmk : ∀ {e e' p p' q q'}, mk e p q = mk e' p' q' → p = p' ∧ q = q') {a : ℕ}
    (ha : a ∈ addresses t) (ht : Cells mk h t) (hfree : a ∉ h')
    (heq : ∀ b ∈ addresses t, b ≠ a → h'.lookup b = h.lookup b) {t' : BinaryTree (ℕ × ε)}
    (hroot : rootPtr t' = rootPtr t) : ¬ Cells mk h' t' := by
  intro ht'
  induction t generalizing t' with
  | nil => cases ha
  | node x l r hl hr =>
    cases t' with
    | nil => cases hroot
    | node x' l' r' =>
      obtain ⟨hx, hcl, hcr⟩ := ht
      obtain ⟨hx', hcl', hcr'⟩ := ht'
      rw [rootPtr_node, rootPtr_node, Option.some.injEq] at hroot
      rw [hroot] at hx'
      have hxa : x.1 ≠ a := fun hxa => hfree (hxa ▸ Finmap.mem_of_lookup_eq_some hx')
      rw [heq x.1 (by simp) hxa, hx, Option.some.injEq] at hx'
      -- the links lead to the roots of the subtrees, one of which has the freed cell
      obtain ⟨hleft, hright⟩ := hmk hx'
      rw [addresses_node] at ha heq
      obtain hal | har := List.mem_append.1 ha
      · exact hl hal hcl (fun b hb => heq b (List.mem_append_left _ hb)) hleft.symm hcl'
      · obtain rfl | har := List.mem_cons.1 har
        · exact hxa rfl
        · refine hr har hcr (fun b hb => heq b ?_) hright.symm hcr'
          exact List.mem_append_right _ (List.mem_cons_of_mem _ hb)

namespace HeapTree

/-- A tree has at most as many nodes as the heap has cells. -/
theorem numNodes_le (ht : HeapTree mk h t) : t.numNodes ≤ h.keys.card := by
  have hsub : (addresses t).toFinset ⊆ h.keys := fun a ha =>
    Finmap.mem_keys.2 (ht.cells.mem (List.mem_toFinset.1 ha))
  calc t.numNodes = (addresses t).toFinset.card := by
        rw [List.toFinset_card_of_nodup ht.nodup, addresses, List.length_map, length_inorder]
    _ ≤ h.keys.card := Finset.card_le_card hsub

/-- The subtrees of a node are in cells of their own. -/
theorem disjoint (ht : HeapTree mk h (.node x l r)) :
    x.1 ∉ addresses l ∧ x.1 ∉ addresses r ∧ (addresses l).Disjoint (addresses r) := by
  have hnodup := ht.nodup
  rw [addresses_node, List.nodup_append'] at hnodup
  obtain ⟨-, hcons, hdisj⟩ := hnodup
  refine ⟨fun hx => hdisj hx List.mem_cons_self, (List.nodup_cons.1 hcons).1, fun a hl hr => ?_⟩
  exact hdisj hl (List.mem_cons_of_mem _ hr)

theorem left (ht : HeapTree mk h (.node x l r)) : HeapTree mk h l where
  cells := ht.cells.2.1
  nodup := by
    have hnodup := ht.nodup
    rw [addresses_node] at hnodup
    exact hnodup.of_append_left

theorem right (ht : HeapTree mk h (.node x l r)) : HeapTree mk h r where
  cells := ht.cells.2.2
  nodup := by
    have hnodup := ht.nodup
    rw [addresses_node] at hnodup
    exact hnodup.of_append_right.of_cons

/-- The root of a tree is none of its children. -/
theorem rootPtr_ne (ht : HeapTree mk h (.node x l r)) :
    rootPtr l ≠ some x.1 ∧ rootPtr r ≠ some x.1 := by
  obtain ⟨hl, hr, -⟩ := ht.disjoint
  exact ⟨fun hroot => hl (mem_addresses_of_rootPtr hroot),
    fun hroot => hr (mem_addresses_of_rootPtr hroot)⟩

/-- Link a new node in on the left. -/
theorem linkLeft (ht : HeapTree mk h (.node x .nil r)) {a : ℕ} {e : ε}
    (ha : h.lookup a = some (mk e none none)) (hax : a ≠ x.1) :
    Cells mk (h.insert x.1 (mk x.2 (some a) (rootPtr r))) (.node x (.node (a, e) .nil .nil) r) := by
  refine ⟨Finmap.lookup_insert h, ⟨?_, trivial, trivial⟩, ht.cells.2.2.frame fun b hb => ?_⟩
  · rw [Finmap.lookup_insert_of_ne h hax]
    exact ha
  · exact Finmap.lookup_insert_of_ne h fun hbx => ht.disjoint.2.1 (hbx ▸ hb)

/-- Link a new node in on the right. -/
theorem linkRight (ht : HeapTree mk h (.node x l .nil)) {a : ℕ} {e : ε}
    (ha : h.lookup a = some (mk e none none)) (hax : a ≠ x.1) :
    Cells mk (h.insert x.1 (mk x.2 (rootPtr l) (some a))) (.node x l (.node (a, e) .nil .nil)) := by
  refine ⟨Finmap.lookup_insert h, ht.cells.2.1.frame fun b hb => ?_, ?_, trivial, trivial⟩
  · exact Finmap.lookup_insert_of_ne h fun hbx => ht.disjoint.1 (hbx ▸ hb)
  · rw [Finmap.lookup_insert_of_ne h hax]
    exact ha

/-- Replace the left child by another tree with the same root. -/
theorem replaceLeft (ht : HeapTree mk h (.node x l r)) {l' : BinaryTree (ℕ × ε)}
    (hl : Cells mk h' l') (hroot : rootPtr l' = rootPtr l)
    (hframe : ∀ a, a ∉ addresses l → h'.lookup a = h.lookup a) : Cells mk h' (.node x l' r) := by
  obtain ⟨hxl, -, hdisj⟩ := ht.disjoint
  refine ⟨?_, hl, ht.cells.2.2.frame fun a ha => hframe a fun hl => hdisj hl ha⟩
  rw [hframe x.1 hxl, hroot]
  exact ht.cells.1

/-- Replace the right child by another tree with the same root. -/
theorem replaceRight (ht : HeapTree mk h (.node x l r)) {r' : BinaryTree (ℕ × ε)}
    (hr : Cells mk h' r') (hroot : rootPtr r' = rootPtr r)
    (hframe : ∀ a, a ∉ addresses r → h'.lookup a = h.lookup a) : Cells mk h' (.node x l r') := by
  obtain ⟨-, hxr, hdisj⟩ := ht.disjoint
  refine ⟨?_, ht.cells.2.1.frame fun a ha => hframe a fun hr => hdisj ha hr, hr⟩
  rw [hframe x.1 hxr, hroot]
  exact ht.cells.1

end HeapTree

section Insertion

variable {κ : Type*} {cmp : κ → κ → Ordering} {key : ℕ × ε → κ}

/-- A node in a cell of its own may be inserted. -/
theorem nodup_addresses_insertKey (ht : (addresses t).Nodup) (hx : x.1 ∉ addresses t) :
    (addresses (insertKey cmp key x t)).Nodup := by
  have hcases : insertKey cmp key x t = t ∨ _ := insertKey_eq_or_perm x t
  obtain heq | hperm := hcases
  · rw [heq]
    exact ht
  · exact (hperm.map Prod.fst).nodup_iff.2 (List.nodup_cons.2 ⟨hx, ht⟩)

/-- An insertion keeps the root of a tree that has one. -/
theorem rootPtr_insertKey (y : ℕ × ε) (ht : t ≠ .nil) :
    rootPtr (insertKey cmp key y t) = rootPtr t := by
  cases t with
  | nil => exact absurd rfl ht
  | node x l r =>
    rw [insertKey]
    cases cmp (key x) (key y) with
    | lt => rfl
    | gt => rfl
    | eq => rfl

end Insertion

end TlpiLearn
