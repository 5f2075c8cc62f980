import Mathlib.Data.Set.Card
import Mathlib.Tactic

/-!
# Tables of nodes that name their parents

A table gives every node a key of its own and the key of its parent. Below a key with no descendant
of the same key (`Grounded`) the nodes form a tree, whatever the rest of the table does: there are
fewer descendants below each child (`subtreeSize_lt`), and those of two children are different nodes
(`DescendsBy.disjoint`). `walk` visits the children of a key in the order of the table, every one in
front of what is below it; it ends on a grounded key and goes to every descendant once
(`exists_walk`).
-/

namespace TlpiLearn

/-- Nodes with a key each, and the key of a parent, which need not be in the table. -/
structure ParentTable (ν κ : Type*) where
  /-- The nodes, in the order of the table. -/
  nodes : List ν
  /-- The key of a node. -/
  key : ν → κ
  /-- The key of its parent. -/
  parent : ν → κ
  /-- No two nodes have one key. -/
  keys_nodup : (nodes.map key).Nodup

namespace ParentTable

variable {ν κ : Type*} (T : ParentTable ν κ)

/-- The node `a` is `n` steps below the key `k`. -/
inductive DescendsBy (k : κ) : ℕ → ν → Prop
  | child {a : ν} : a ∈ T.nodes → T.parent a = k → DescendsBy k 1 a
  | next {n : ℕ} {b a : ν} : DescendsBy k n b → a ∈ T.nodes → T.parent a = T.key b →
      DescendsBy k (n + 1) a

/-- No node below the key has it as its own. -/
def Grounded (k : κ) : Prop := ∀ n a, T.DescendsBy k n a → T.key a ≠ k

/-- What stands directly in front of a node visited below `k`: nothing if it is a child of `k`, or
its parent, or the whole subtree of another node with the same parent. -/
def Follows (k : κ) (front : List ν) (a : ν) : Prop :=
  front = [] ∧ T.parent a = k ∨
  (∃ rest b, front = rest ++ [b] ∧ T.key b = T.parent a) ∨
  ∃ rest s below, front = rest ++ s :: below ∧ T.parent s = T.parent a ∧
    ∀ b, b ∈ below ↔ ∃ n, T.DescendsBy (T.key s) n b

/-- A visit of all that is below `k`, each node with its layer: the layer of the children of `k` is
`layer`. -/
structure Visits (k : κ) (layer : ℕ) (out : List (ℕ × ν)) : Prop where
  /-- No node is visited twice. -/
  nodup : (out.map Prod.snd).Nodup
  /-- The descendants are visited, and nothing else. -/
  mem : ∀ l a, (l, a) ∈ out ↔ ∃ n, T.DescendsBy k n a ∧ l + 1 = layer + n
  /-- Each follows its parent or a subtree of a sibling. -/
  follows : ∀ front l a back, out = front ++ (l, a) :: back →
    T.Follows k (front.map Prod.snd) a

variable {T} {k : κ} {n m layer : ℕ} {a b : ν}

/-! ## Descendants -/

theorem DescendsBy.mem (h : T.DescendsBy k n a) : a ∈ T.nodes := by
  cases h with
  | child ha _ => exact ha
  | next _ ha _ => exact ha

theorem DescendsBy.pos (h : T.DescendsBy k n a) : 0 < n := by
  cases h with
  | child _ _ => exact Nat.one_pos
  | next _ _ _ => exact Nat.succ_pos _

theorem eq_of_key_eq (ha : a ∈ T.nodes) (hb : b ∈ T.nodes) (h : T.key a = T.key b) : a = b :=
  List.inj_on_of_nodup_map T.keys_nodup ha hb h

/-- Steps below a node that is itself below `k`. -/
theorem DescendsBy.trans (h : T.DescendsBy k n b) (ha : T.DescendsBy (T.key b) m a) :
    T.DescendsBy k (n + m) a := by
  induction ha with
  | child ha hp => exact h.next ha hp
  | next _ ha hp ih => exact ih.next ha hp

/-- What is below `k` is a child of it or below a child of it. -/
theorem DescendsBy.exists_child (h : T.DescendsBy k n a) :
    ∃ c ∈ T.nodes, T.parent c = k ∧
      (n = 1 ∧ a = c ∨ ∃ m, T.DescendsBy (T.key c) m a ∧ n = m + 1) := by
  induction h with
  | child ha hp => exact ⟨_, ha, hp, Or.inl ⟨rfl, rfl⟩⟩
  | next hb ha hp ih =>
    obtain ⟨c, hc, hck, hrest⟩ := ih
    refine ⟨c, hc, hck, Or.inr ?_⟩
    obtain ⟨rfl, rfl⟩ | ⟨m, hm, rfl⟩ := hrest
    · exact ⟨1, .child ha hp, rfl⟩
    · exact ⟨m + 1, hm.next ha hp, rfl⟩

/-- Below a node with `k` as its parent's key. -/
theorem DescendsBy.of_child (hb : b ∈ T.nodes) (hk : T.parent b = k)
    (ha : T.DescendsBy (T.key b) m a) : T.DescendsBy k (m + 1) a := by
  rw [Nat.add_comm]
  exact (DescendsBy.child hb hk).trans ha

/-- A child of a grounded key is not below one, itself included. -/
theorem Grounded.not_below_child (hk : T.Grounded k) (ha : T.parent a = k) (hb : b ∈ T.nodes)
    (hbk : T.parent b = k) : ¬ T.DescendsBy (T.key b) n a := by
  intro h
  cases h with
  | child _ hp => exact hk 1 b (.child hb hbk) (hp.symm.trans ha)
  | next hc _ hp => exact hk _ _ (.of_child hb hbk hc) (hp.symm.trans ha)

theorem Grounded.child (hk : T.Grounded k) (ha : a ∈ T.nodes) (hp : T.parent a = k) :
    T.Grounded (T.key a) := by
  intro n b hb hkey
  obtain rfl := eq_of_key_eq hb.mem ha hkey
  exact hk.not_below_child hp ha hp hb

/-- Two children of a grounded key have no descendant in common. -/
theorem DescendsBy.disjoint (hk : T.Grounded k) {c d : ν} (hc : c ∈ T.nodes) (hd : d ∈ T.nodes)
    (hck : T.parent c = k) (hdk : T.parent d = k) (hne : c ≠ d)
    (ha : T.DescendsBy (T.key c) n a) : ∀ m, ¬ T.DescendsBy (T.key d) m a := by
  induction ha with
  | child _ hp =>
    intro m h
    cases h with
    | child _ hp' => exact hne (eq_of_key_eq hc hd (hp.symm.trans hp'))
    | next hb _ hp' =>
      obtain rfl := eq_of_key_eq hb.mem hc (hp'.symm.trans hp)
      exact hk.not_below_child hck hd hdk hb
  | next hb _ hp ih =>
    intro m h
    cases h with
    | child _ hp' =>
      obtain rfl := eq_of_key_eq hb.mem hd (hp.symm.trans hp')
      exact hk.not_below_child hdk hc hck hb
    | next hb' _ hp' =>
      obtain rfl := eq_of_key_eq hb.mem hb'.mem (hp.symm.trans hp')
      exact ih _ hb'

/-! ## The size of a subtree -/

/-- The nodes below a key. -/
def below (T : ParentTable ν κ) (k : κ) : Set ν := {a | ∃ n, T.DescendsBy k n a}

theorem finite_below (T : ParentTable ν κ) (k : κ) : (T.below k).Finite := by
  refine (List.finite_toSet T.nodes).subset ?_
  rintro a ⟨n, ha⟩
  exact ha.mem

/-- The number of nodes below a key. -/
noncomputable def subtreeSize (T : ParentTable ν κ) (k : κ) : ℕ := (T.below k).ncard

/-- There are fewer nodes below a child: the child itself is missing there. -/
theorem subtreeSize_lt (hk : T.Grounded k) (ha : a ∈ T.nodes) (hp : T.parent a = k) :
    T.subtreeSize (T.key a) < T.subtreeSize k := by
  refine Set.ncard_lt_ncard (Set.ssubset_iff_of_subset ?_ |>.2 ⟨a, ?_, ?_⟩) (T.finite_below k)
  · rintro b ⟨n, hb⟩
    exact ⟨n + 1, .of_child ha hp hb⟩
  · exact ⟨1, .child ha hp⟩
  · rintro ⟨n, hn⟩
    exact hk.not_below_child hp ha hp hn

/-! ## Visits -/

variable {sub : ν → List (ℕ × ν)}

/-- The first part of a concatenation ends within one of the pieces. -/
theorem exists_piece {α β : Type*} {f : α → List β} {x : β} {back : List β} :
    ∀ {l : List α} {front : List β}, l.flatMap f = front ++ x :: back →
      ∃ done c rest start stop, l = done ++ c :: rest ∧ f c = start ++ x :: stop ∧
        front = done.flatMap f ++ start := by
  intro l
  induction l with
  | nil => intro front h; simp at h
  | cons c l ih =>
    intro front h
    rw [List.flatMap_cons, List.append_eq_append_iff] at h
    obtain ⟨front', rfl, h⟩ | ⟨stop, hc, h⟩ := h
    · obtain ⟨done, d, rest, start, stop, rfl, hd, rfl⟩ := ih h
      refine ⟨c :: done, d, rest, start, stop, rfl, hd, ?_⟩
      rw [List.flatMap_cons, List.append_assoc]
    · cases stop with
      | nil =>
        have hrest : l.flatMap f = [] ++ x :: back := h.symm
        obtain ⟨done, d, rest, start, stop, rfl, hd, hnil⟩ := ih hrest
        refine ⟨c :: done, d, rest, start, stop, rfl, hd, ?_⟩
        rw [List.flatMap_cons, List.append_assoc, ← hnil, hc, List.append_nil, List.append_nil]
      | cons y stop =>
        obtain ⟨rfl, -⟩ := List.cons.inj h
        exact ⟨[], c, l, front, stop, rfl, hc, rfl⟩

section Children

variable [DecidableEq κ]

/-- The children of a key, in the order of the table. -/
def children (T : ParentTable ν κ) (k : κ) : List ν := T.nodes.filter fun a => T.parent a = k

@[simp] theorem mem_children : a ∈ T.children k ↔ a ∈ T.nodes ∧ T.parent a = k := by
  simp [children]

theorem nodup_children : (T.children k).Nodup := T.keys_nodup.of_map.filter _

/-- The children of a key, each with what is visited below it. -/
def blocks (T : ParentTable ν κ) (k : κ) (layer : ℕ) (sub : ν → List (ℕ × ν)) : List (ℕ × ν) :=
  (T.children k).flatMap fun a => (layer, a) :: sub a

theorem nodup_blocks (hk : T.Grounded k)
    (h : ∀ a ∈ T.children k, T.Visits (T.key a) (layer + 1) (sub a)) :
    ((T.blocks k layer sub).map Prod.snd).Nodup := by
  have hbelow : ∀ a ∈ T.children k, ∀ b ∈ (sub a).map Prod.snd,
      ∃ n, T.DescendsBy (T.key a) n b := by
    intro a ha b hb
    obtain ⟨⟨l, b⟩, hmem, rfl⟩ := List.mem_map.1 hb
    obtain ⟨n, hn, -⟩ := ((h a ha).mem l b).1 hmem
    exact ⟨n, hn⟩
  rw [blocks, List.map_flatMap, List.nodup_flatMap]
  constructor
  · intro a ha
    rw [List.map_cons, List.nodup_cons]
    refine ⟨fun hmem => ?_, (h a ha).nodup⟩
    obtain ⟨n, hn⟩ := hbelow a ha a hmem
    rw [mem_children] at ha
    exact hk.not_below_child ha.2 ha.1 ha.2 hn
  · refine nodup_children.pairwise_of_forall_ne fun a ha b hb hne => ?_
    have hab := hbelow a ha
    have hbb := hbelow b hb
    rw [mem_children] at ha hb
    intro x hxa hxb
    simp only [List.map_cons, List.mem_cons] at hxa hxb
    obtain rfl | hxa := hxa
    · obtain rfl | hxb := hxb
      · exact hne rfl
      · obtain ⟨n, hn⟩ := hbb _ hxb
        exact hk.not_below_child ha.2 hb.1 hb.2 hn
    · obtain ⟨n, hn⟩ := hab _ hxa
      obtain rfl | hxb := hxb
      · exact hk.not_below_child hb.2 ha.1 ha.2 hn
      · obtain ⟨m, hm⟩ := hbb _ hxb
        exact hn.disjoint hk ha.1 hb.1 ha.2 hb.2 hne m hm

theorem mem_blocks (h : ∀ a ∈ T.children k, T.Visits (T.key a) (layer + 1) (sub a)) (l : ℕ)
    (a : ν) :
    (l, a) ∈ T.blocks k layer sub ↔ ∃ n, T.DescendsBy k n a ∧ l + 1 = layer + n := by
  rw [blocks, List.mem_flatMap]
  constructor
  · rintro ⟨c, hc, hmem⟩
    obtain hmem | hmem := List.mem_cons.1 hmem
    · obtain ⟨rfl, rfl⟩ := Prod.mk.inj hmem
      rw [mem_children] at hc
      exact ⟨1, .child hc.1 hc.2, rfl⟩
    · obtain ⟨n, hn, hl⟩ := ((h c hc).mem l a).1 hmem
      rw [mem_children] at hc
      exact ⟨n + 1, .of_child hc.1 hc.2 hn, by omega⟩
  · rintro ⟨n, hn, hl⟩
    obtain ⟨c, hc, hck, ⟨rfl, rfl⟩ | ⟨m, hm, rfl⟩⟩ := hn.exists_child
    · obtain rfl : l = layer := by omega
      exact ⟨a, mem_children.2 ⟨hc, hck⟩, List.mem_cons_self⟩
    · refine ⟨c, mem_children.2 ⟨hc, hck⟩, List.mem_cons_of_mem _ ?_⟩
      exact ((h c (mem_children.2 ⟨hc, hck⟩)).mem l a).2 ⟨m, hm, by omega⟩

theorem follows_blocks (h : ∀ a ∈ T.children k, T.Visits (T.key a) (layer + 1) (sub a))
    {front back : List (ℕ × ν)} {l : ℕ} (heq : T.blocks k layer sub = front ++ (l, a) :: back) :
    T.Follows k (front.map Prod.snd) a := by
  obtain ⟨done, c, rest, start, stop, hcs, hblock, rfl⟩ := exists_piece heq
  have hin : ∀ b ∈ done ++ c :: rest, b ∈ T.nodes ∧ T.parent b = k := fun b hb => by
    rwa [← mem_children, hcs]
  have hc := hin c (by simp)
  rw [List.map_append]
  cases start with
  | nil =>
    -- a child of `k`: the first one, or behind the block of the one before it
    obtain ⟨hca, -⟩ := List.cons.inj hblock
    obtain ⟨-, rfl⟩ := Prod.mk.inj hca
    obtain rfl | ⟨done, s, rfl⟩ := done.eq_nil_or_concat
    · exact Or.inl ⟨rfl, hc.2⟩
    · have hs := hin s (by simp)
      refine Or.inr (Or.inr ⟨(done.flatMap fun a => (layer, a) :: sub a).map Prod.snd, s,
        (sub s).map Prod.snd, ?_, hs.2.trans hc.2.symm, fun b => ?_⟩)
      · simp
      · rw [List.mem_map]
        constructor
        · rintro ⟨⟨l, b⟩, hmem, rfl⟩
          obtain ⟨n, hn, -⟩ := ((h s (mem_children.2 hs)).mem l b).1 hmem
          exact ⟨n, hn⟩
        · rintro ⟨n, hn⟩
          have hpos := hn.pos
          exact ⟨(layer + n, b), ((h s (mem_children.2 hs)).mem _ b).2 ⟨n, hn, by omega⟩, rfl⟩
  | cons d start =>
    obtain ⟨rfl, hsub⟩ := List.cons.inj hblock
    rw [List.map_cons]
    generalize (done.flatMap fun a => (layer, a) :: sub a).map Prod.snd = visited
    obtain ⟨hnil, hp⟩ | ⟨pre, b, hpre, hb⟩ | ⟨pre, s, below, hpre, hs, hall⟩ :=
      (h c (mem_children.2 hc)).follows start l a stop hsub
    · exact Or.inr (Or.inl ⟨visited, c, by rw [hnil], hp.symm⟩)
    · refine Or.inr (Or.inl ⟨visited ++ c :: pre, b, ?_, hb⟩)
      rw [hpre, List.append_assoc, List.cons_append]
    · refine Or.inr (Or.inr ⟨visited ++ c :: pre, s, below, ?_, hs, hall⟩)
      rw [hpre, List.append_assoc, List.cons_append]

/-- The visits below the children make one below the key. -/
theorem Visits.of_children (hk : T.Grounded k)
    (h : ∀ a ∈ T.children k, T.Visits (T.key a) (layer + 1) (sub a)) :
    T.Visits k layer (T.blocks k layer sub) where
  nodup := nodup_blocks hk h
  mem := mem_blocks h
  follows _ _ _ _ := follows_blocks h

/-! ## The walk -/

/-- The nodes below `k` with their layers, the children of `k` in the order of the table and each
in front of what is below it; `none` if `fuel` levels are not enough. -/
def walk (T : ParentTable ν κ) : ℕ → κ → ℕ → Option (List (ℕ × ν))
  | 0, _, _ => none
  | fuel + 1, k, layer =>
    ((T.children k).mapM fun a => (walk T fuel (T.key a) (layer + 1)).map ((layer, a) :: ·)).map
      List.flatten

theorem mapM_some {α β : Type*} {f : α → Option β} {g : α → β} :
    ∀ {l : List α}, (∀ a ∈ l, f a = some (g a)) → l.mapM f = some (l.map g) := by
  intro l h
  induction l with
  | nil => rfl
  | cons a l ih =>
    rw [List.mapM_cons, h a List.mem_cons_self, ih fun b hb => h b (List.mem_cons_of_mem a hb)]
    rfl

theorem walk_succ {fuel : ℕ}
    (h : ∀ a ∈ T.children k, T.walk fuel (T.key a) (layer + 1) = some (sub a)) :
    T.walk (fuel + 1) k layer = some (T.blocks k layer sub) := by
  rw [walk, mapM_some (g := fun a => (layer, a) :: sub a) fun a ha => by rw [h a ha]; rfl]
  rfl

/-- **The walk below a grounded key ends**, and is a visit of what is there. -/
theorem exists_walk (hk : T.Grounded k) (layer : ℕ) :
    ∃ out, T.Visits k layer out ∧ ∀ fuel, T.subtreeSize k < fuel →
      T.walk fuel k layer = some out := by
  induction hsize : T.subtreeSize k using Nat.strong_induction_on generalizing k layer with
  | _ size ih =>
    have hlt : ∀ a ∈ T.children k, T.subtreeSize (T.key a) < size := fun a ha => by
      rw [mem_children] at ha
      exact hsize ▸ subtreeSize_lt hk ha.1 ha.2
    have hchild : ∀ a ∈ T.children k, ∃ out, T.Visits (T.key a) (layer + 1) out ∧
        ∀ fuel, T.subtreeSize (T.key a) < fuel →
          T.walk fuel (T.key a) (layer + 1) = some out := fun a ha => by
      have hmem := mem_children.1 ha
      exact ih _ (hlt a ha) (hk.child hmem.1 hmem.2) (layer + 1) rfl
    choose! sub hvisits hwalk using hchild
    refine ⟨T.blocks k layer sub, .of_children hk hvisits, fun fuel hfuel => ?_⟩
    obtain ⟨fuel, rfl⟩ := Nat.exists_eq_succ_of_ne_zero (Nat.ne_zero_of_lt hfuel)
    refine walk_succ fun a ha => hwalk a ha fuel ?_
    have := hlt a ha
    omega

end Children

end ParentTable

end TlpiLearn
