import Mathlib.Data.Tree.Basic
import Mathlib.Tactic

/-!
# Binary search trees

Binary trees whose elements have keys, ordered by a three-way comparison of the keys. `insertKey`
puts an element into the place where the search for its key ends and leaves a tree that already has
the key as it is, so that `find` returns what was inserted first (`find_insertKey`). In an ordered
tree the search finds each element by its key (`Ordered.find_eq_some_iff`).
-/

namespace TlpiLearn.SearchTree

variable {ε κ : Type*}

/-- The elements of a tree from the left to the right. -/
def inorder : BinaryTree ε → List ε
  | .nil => []
  | .node x l r => inorder l ++ x :: inorder r

@[simp] theorem inorder_nil : inorder (.nil : BinaryTree ε) = [] := rfl

@[simp] theorem inorder_node (x : ε) (l r : BinaryTree ε) :
    inorder (.node x l r) = inorder l ++ x :: inorder r := rfl

theorem length_inorder (t : BinaryTree ε) : (inorder t).length = t.numNodes := by
  induction t with
  | nil => rfl
  | node x l r hl hr =>
    rw [inorder_node, List.length_append, List.length_cons, hl, hr, BinaryTree.numNodes]
    omega

variable (cmp : κ → κ → Ordering) (key : ε → κ)

/-- Every key has the smaller ones on its left and the greater ones on its right. -/
def Ordered : BinaryTree ε → Prop
  | .nil => True
  | .node x l r =>
    (∀ y ∈ inorder l, cmp (key y) (key x) = .lt) ∧ (∀ y ∈ inorder r, cmp (key x) (key y) = .lt) ∧
      Ordered l ∧ Ordered r

/-- Insert an element, unless its key is in the tree. -/
def insertKey (x : ε) : BinaryTree ε → BinaryTree ε
  | .nil => .node x .nil .nil
  | .node y l r =>
    match cmp (key y) (key x) with
    | .gt => .node y (insertKey x l) r
    | .lt => .node y l (insertKey x r)
    | .eq => .node y l r

/-- Search for a key. -/
def find (k : κ) : BinaryTree ε → Option ε
  | .nil => none
  | .node y l r =>
    match cmp (key y) k with
    | .gt => find k l
    | .lt => find k r
    | .eq => some y

variable {cmp key} {x y : ε} {k : κ} {l r t : BinaryTree ε}

/-! ## One node -/

theorem insertKey_of_gt (h : cmp (key y) (key x) = .gt) :
    insertKey cmp key x (.node y l r) = .node y (insertKey cmp key x l) r := by
  rw [insertKey, h]

theorem insertKey_of_lt (h : cmp (key y) (key x) = .lt) :
    insertKey cmp key x (.node y l r) = .node y l (insertKey cmp key x r) := by
  rw [insertKey, h]

theorem insertKey_of_eq (h : cmp (key y) (key x) = .eq) :
    insertKey cmp key x (.node y l r) = .node y l r := by
  rw [insertKey, h]

theorem find_of_gt (h : cmp (key y) k = .gt) : find cmp key k (.node y l r) = find cmp key k l := by
  rw [find, h]

theorem find_of_lt (h : cmp (key y) k = .lt) : find cmp key k (.node y l r) = find cmp key k r := by
  rw [find, h]

theorem find_of_eq (h : cmp (key y) k = .eq) : find cmp key k (.node y l r) = some y := by
  rw [find, h]

/-! ## Insertion -/

/-- The tree stays as it is, or it gets one element more. -/
theorem insertKey_eq_or_perm (x : ε) (t : BinaryTree ε) :
    insertKey cmp key x t = t ∨ (inorder (insertKey cmp key x t)).Perm (x :: inorder t) := by
  induction t with
  | nil => exact Or.inr (List.Perm.refl _)
  | node y l r hl hr =>
    cases h : cmp (key y) (key x) with
    | gt =>
      rw [insertKey_of_gt h]
      refine hl.imp (fun heq => by rw [heq]) fun hperm => ?_
      exact hperm.append_right (y :: inorder r)
    | lt =>
      rw [insertKey_of_lt h]
      refine hr.imp (fun heq => by rw [heq]) fun hperm => ?_
      calc inorder l ++ y :: inorder (insertKey cmp key x r)
          |>.Perm (inorder l ++ y :: x :: inorder r) := (hperm.cons y).append_left _
        _ |>.Perm (inorder l ++ x :: y :: inorder r) := (List.Perm.swap x y _).append_left _
        _ |>.Perm (x :: (inorder l ++ y :: inorder r)) := List.perm_middle
    | eq => exact Or.inl (insertKey_of_eq h)

theorem mem_inorder_insertKey (hy : y ∈ inorder (insertKey cmp key x t)) :
    y = x ∨ y ∈ inorder t := by
  have hcases : insertKey cmp key x t = t ∨ _ := insertKey_eq_or_perm x t
  obtain heq | hperm := hcases
  · exact Or.inr (heq ▸ hy)
  · exact List.mem_cons.1 (hperm.subset hy)

/-- **The order** survives an insertion. -/
theorem Ordered.insertKey [Std.OrientedCmp cmp] (h : Ordered cmp key t) (x : ε) :
    Ordered cmp key (insertKey cmp key x t) := by
  induction t with
  | nil => exact ⟨by simp, by simp, trivial, trivial⟩
  | node y l r hl hr =>
    obtain ⟨hleft, hright, hol, hor⟩ := h
    cases hcmp : cmp (key y) (key x) with
    | gt =>
      rw [insertKey_of_gt hcmp]
      refine ⟨fun z hz => ?_, hright, hl hol, hor⟩
      obtain rfl | hz := mem_inorder_insertKey hz
      · exact Std.OrientedCmp.lt_of_gt hcmp
      · exact hleft z hz
    | lt =>
      rw [insertKey_of_lt hcmp]
      refine ⟨hleft, fun z hz => ?_, hol, hr hor⟩
      obtain rfl | hz := mem_inorder_insertKey hz
      · exact hcmp
      · exact hright z hz
    | eq =>
      rw [insertKey_of_eq hcmp]
      exact ⟨hleft, hright, hol, hor⟩

/-- **The first insertion of a key** is the one that is found. -/
theorem find_insertKey [DecidableEq κ] [Std.LawfulEqCmp cmp] (x : ε) (k : κ) (t : BinaryTree ε) :
    find cmp key k (insertKey cmp key x t) =
      (find cmp key k t).or (if key x = k then some x else none) := by
  -- a search that parts from the path of the insertion is for another key
  have hne {y : ε} (h : cmp (key y) (key x) ≠ cmp (key y) k) :
      (if key x = k then some x else none) = none := by
    refine if_neg ?_
    rintro rfl
    exact h rfl
  induction t with
  | nil =>
    by_cases hk : key x = k
    · have hself : cmp (key x) k = .eq := hk ▸ Std.ReflCmp.compare_self
      rw [insertKey, find_of_eq hself, if_pos hk]
      rfl
    · have hcmp : cmp (key x) k ≠ .eq := fun h => hk (Std.LawfulEqCmp.eq_of_compare h)
      rw [insertKey, if_neg hk]
      cases h : cmp (key x) k with
      | eq => exact absurd h hcmp
      | lt => exact find_of_lt h
      | gt => exact find_of_gt h
  | node y l r hl hr =>
    cases hx : cmp (key y) (key x) with
    | gt =>
      rw [insertKey_of_gt hx]
      cases hk : cmp (key y) k with
      | gt => rw [find_of_gt hk, find_of_gt hk, hl]
      | lt => rw [find_of_lt hk, find_of_lt hk, hne (by rw [hx, hk]; decide), Option.or_none]
      | eq => rw [find_of_eq hk, find_of_eq hk, Option.some_or]
    | lt =>
      rw [insertKey_of_lt hx]
      cases hk : cmp (key y) k with
      | gt => rw [find_of_gt hk, find_of_gt hk, hne (by rw [hx, hk]; decide), Option.or_none]
      | lt => rw [find_of_lt hk, find_of_lt hk, hr]
      | eq => rw [find_of_eq hk, find_of_eq hk, Option.some_or]
    | eq =>
      rw [insertKey_of_eq hx]
      cases hk : cmp (key y) k with
      | gt => rw [find_of_gt hk, hne (by rw [hx, hk]; decide), Option.or_none]
      | lt => rw [find_of_lt hk, hne (by rw [hx, hk]; decide), Option.or_none]
      | eq => rw [find_of_eq hk, Option.some_or]

/-! ## Ordered trees -/

/-- Keys in a strict order are different. -/
theorem ne_of_lt_key [Std.ReflCmp cmp] {k k' : κ} (h : cmp k k' = .lt) : k ≠ k' := by
  rintro rfl
  have hself : cmp k k = .eq := Std.ReflCmp.compare_self
  rw [hself] at h
  cases h

/-- The keys increase from the left to the right. -/
theorem Ordered.pairwise [Std.TransCmp cmp] (h : Ordered cmp key t) :
    (inorder t).Pairwise fun x y => cmp (key x) (key y) = .lt := by
  induction t with
  | nil => exact List.Pairwise.nil
  | node x l r hl hr =>
    obtain ⟨hleft, hright, hol, hor⟩ := h
    refine List.pairwise_append.2
      ⟨hl hol, List.pairwise_cons.2 ⟨hright, hr hor⟩, fun y hy z hz => ?_⟩
    obtain rfl | hz := List.mem_cons.1 hz
    · exact hleft y hy
    · exact Std.TransCmp.lt_trans (hleft y hy) (hright z hz)

/-- **The keys of an ordered tree** are distinct. -/
theorem Ordered.nodup [Std.TransCmp cmp] (h : Ordered cmp key t) :
    ((inorder t).map key).Nodup := by
  refine List.pairwise_map.2 (h.pairwise.imp fun {x y} hlt heq => ?_)
  exact ne_of_lt_key hlt heq

/-- **The search** finds each element by its key. -/
theorem Ordered.find_eq_some_iff [Std.OrientedCmp cmp] [Std.LawfulEqCmp cmp]
    (h : Ordered cmp key t) : find cmp key k t = some x ↔ x ∈ inorder t ∧ key x = k := by
  induction t with
  | nil => simp [find]
  | node y l r hl hr =>
    obtain ⟨hleft, hright, hol, hor⟩ := h
    rw [inorder_node, List.mem_append, List.mem_cons]
    cases hk : cmp (key y) k with
    | gt =>
      rw [find_of_gt hk, hl hol]
      refine and_congr_left fun hx => ⟨Or.inl, ?_⟩
      rintro (hmem | rfl | hmem)
      · exact hmem
      · exact absurd hx.symm (ne_of_lt_key (Std.OrientedCmp.lt_of_gt hk))
      · have hlt := hright x hmem
        rw [hx, hk] at hlt
        cases hlt
    | lt =>
      rw [find_of_lt hk, hr hor]
      refine and_congr_left fun hx => ⟨fun hmem => Or.inr (Or.inr hmem), ?_⟩
      rintro (hmem | rfl | hmem)
      · have hgt := Std.OrientedCmp.gt_of_lt (hleft x hmem)
        rw [hx, hk] at hgt
        cases hgt
      · exact absurd hx (ne_of_lt_key hk)
      · exact hmem
    | eq =>
      have hyk : key y = k := Std.LawfulEqCmp.eq_of_compare hk
      rw [find_of_eq hk, Option.some.injEq]
      constructor
      · rintro rfl
        exact ⟨Or.inr (Or.inl rfl), hyk⟩
      · rintro ⟨hmem | rfl | hmem, hx⟩
        · exact absurd (hx.trans hyk.symm) (ne_of_lt_key (hleft x hmem))
        · rfl
        · exact absurd (hyk.trans hx.symm) (ne_of_lt_key (hright x hmem))

end TlpiLearn.SearchTree
