import Mathlib.Tactic

/-!
# Walks through a forest

A forest is given by its first tree, whose root has a label and a forest of children, and the
others. A node is found by the labels on the path to it. `paths` goes to every node, to a root in
front of its children or behind them; where siblings have different labels, it goes to each node
once (`nodup_paths`) and every node comes in the right order with those above it
(`pairwise_paths`).
-/

namespace TlpiLearn

/-- Trees with labelled nodes: the first one by its root and the children of that, and the rest. -/
inductive Forest (ν : Type*)
  | nil
  | node (a : ν) (children siblings : Forest ν)

namespace Forest

variable {ν : Type*}

/-- The labels of the roots. -/
def roots : Forest ν → List ν
  | .nil => []
  | .node a _ siblings => a :: roots siblings

/-- Siblings have different labels. -/
def Distinct : Forest ν → Prop
  | .nil => True
  | .node a children siblings => a ∉ roots siblings ∧ Distinct children ∧ Distinct siblings

/-- There is a node at the end of a path. -/
def HasPath : Forest ν → List ν → Prop
  | .nil, _ => False
  | .node a children siblings, p =>
    p = [a] ∨ (∃ q, p = a :: q ∧ HasPath children q) ∨ HasPath siblings p

/-- The path to a root with the paths `l` below it, the root behind them (`post`) or in front. -/
def around (post : Bool) (a : ν) (l : List (List ν)) : List (List ν) :=
  if post then l.map (List.cons a) ++ [[a]] else [a] :: l.map (List.cons a)

/-- The paths to all nodes. -/
def paths (post : Bool) : Forest ν → List (List ν)
  | .nil => []
  | .node a children siblings => around post a (paths post children) ++ paths post siblings

/-- The order of two paths: the first one does not lead to a node above the second one (`post`), or
not to a node below it. -/
def Before (post : Bool) (p q : List ν) : Prop := if post then ¬ p <+: q else ¬ q <+: p

variable {f : Forest ν} {p : List ν} {post : Bool} {a : ν} {l : List (List ν)}

/-! ## One tree -/

theorem mem_around : p ∈ around post a l ↔ p = [a] ∨ ∃ q, p = a :: q ∧ q ∈ l := by
  have hmap : p ∈ l.map (List.cons a) ↔ ∃ q, p = a :: q ∧ q ∈ l := by
    rw [List.mem_map]
    refine exists_congr fun q => ?_
    rw [eq_comm, and_comm]
  rw [around]
  split_ifs
  · rw [List.mem_append, List.mem_singleton, hmap, or_comm]
  · rw [List.mem_cons, hmap]

theorem exists_cons_of_mem_around (h : p ∈ around post a l) : ∃ q, p = a :: q := by
  obtain rfl | ⟨q, rfl, -⟩ := mem_around.1 h
  · exact ⟨[], rfl⟩
  · exact ⟨q, rfl⟩

/-- The root is met once if no path below it is empty. -/
theorem nodup_around : (around post a l).Nodup ↔ [] ∉ l ∧ l.Nodup := by
  have hnot : [a] ∉ l.map (List.cons a) ↔ [] ∉ l := by
    rw [List.mem_map_of_injective List.cons_injective]
  have hmap : (l.map (List.cons a)).Nodup ↔ l.Nodup := List.nodup_map_iff List.cons_injective
  rw [around]
  split_ifs
  · rw [List.nodup_append_comm, List.singleton_append, List.nodup_cons, hnot, hmap]
  · rw [List.nodup_cons, hnot, hmap]

theorem before_cons {q : List ν} : Before post (a :: p) (a :: q) ↔ Before post p q := by
  rw [Before, Before, List.prefix_cons_inj, List.prefix_cons_inj]

theorem before_of_ne {b : ν} (hne : a ≠ b) (p q : List ν) : Before post (a :: p) (b :: q) := by
  rw [Before, List.cons_prefix_cons, List.cons_prefix_cons]
  split_ifs
  · exact fun h => hne h.1
  · exact fun h => hne h.1.symm

/-- The root is in order with the nodes below it. -/
theorem pairwise_around (hnil : [] ∉ l) (h : l.Pairwise (Before post)) :
    (around post a l).Pairwise (Before post) := by
  have hmap : (l.map (List.cons a)).Pairwise (Before post) :=
    List.pairwise_map.2 (h.imp before_cons.2)
  have hbelow {q : List ν} (hq : q ∈ l.map (List.cons a)) : ¬ q <+: [a] := by
    obtain ⟨q, hql, rfl⟩ := List.mem_map.1 hq
    rw [List.prefix_cons_inj, List.prefix_nil]
    rintro rfl
    exact hnil hql
  rw [around]
  split_ifs with hpost
  · refine List.pairwise_append.2 ⟨hmap, List.pairwise_singleton _ _, fun p hp q hq => ?_⟩
    rw [List.mem_singleton.1 hq, Before, if_pos hpost]
    exact hbelow hp
  · refine List.pairwise_cons.2 ⟨fun q hq => ?_, hmap⟩
    rw [Before, if_neg hpost]
    exact hbelow hq

/-! ## All trees -/

/-- A path begins at a root. -/
theorem HasPath.exists_cons (h : HasPath f p) : ∃ a q, p = a :: q ∧ a ∈ roots f := by
  induction f with
  | nil => exact h.elim
  | node a children siblings _ ih =>
    obtain rfl | ⟨q, rfl, -⟩ | h := h
    · exact ⟨a, [], rfl, List.mem_cons_self⟩
    · exact ⟨a, q, rfl, List.mem_cons_self⟩
    · obtain ⟨b, q, rfl, hb⟩ := ih h
      exact ⟨b, q, rfl, List.mem_cons_of_mem _ hb⟩

theorem forall_not_hasPath : (∀ p, ¬ HasPath f p) ↔ f = .nil := by
  constructor
  · intro h
    cases f with
    | nil => rfl
    | node a children siblings => exact absurd (Or.inl rfl) (h [a])
  · rintro rfl p
    exact id

/-- **The walk goes to every node.** -/
theorem mem_paths : p ∈ paths post f ↔ HasPath f p := by
  induction f generalizing p with
  | nil => simp [paths, HasPath]
  | node a children siblings ihc ihs =>
    rw [paths, HasPath, List.mem_append, mem_around, ihs, or_assoc]
    simp only [ihc]

theorem nil_notMem_paths (post : Bool) (f : Forest ν) : [] ∉ paths post f := by
  intro h
  obtain ⟨a, q, heq, -⟩ := (mem_paths.1 h).exists_cons
  cases heq

/-- The paths from a root are none of those from other roots. -/
theorem cons_notMem_paths (ha : a ∉ roots f) (q : List ν) : a :: q ∉ paths post f := by
  intro h
  obtain ⟨b, r, heq, hb⟩ := (mem_paths.1 h).exists_cons
  cases heq
  exact ha hb

/-- **The walk goes to every node once.** -/
theorem nodup_paths (h : Distinct f) : (paths post f).Nodup := by
  induction f with
  | nil => exact List.nodup_nil
  | node a children siblings ihc ihs =>
    obtain ⟨ha, hc, hs⟩ := h
    refine List.Nodup.append (nodup_around.2 ⟨nil_notMem_paths _ _, ihc hc⟩) (ihs hs) ?_
    intro p hp hps
    obtain ⟨q, rfl⟩ := exists_cons_of_mem_around hp
    exact cons_notMem_paths ha q hps

/-- **The walk is in order** with the nodes above each node. -/
theorem pairwise_paths (h : Distinct f) : (paths post f).Pairwise (Before post) := by
  induction f with
  | nil => exact List.Pairwise.nil
  | node a children siblings ihc ihs =>
    obtain ⟨ha, hc, hs⟩ := h
    refine List.pairwise_append.2
      ⟨pairwise_around (nil_notMem_paths _ _) (ihc hc), ihs hs, fun p hp q hq => ?_⟩
    obtain ⟨p, rfl⟩ := exists_cons_of_mem_around hp
    obtain ⟨b, q, rfl, hb⟩ := (mem_paths.1 hq).exists_cons
    refine before_of_ne ?_ p q
    rintro rfl
    exact ha hb

end Forest

end TlpiLearn
