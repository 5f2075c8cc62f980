import Mathlib.Data.Finmap
import Mathlib.Tactic

/-!
# Singly linked lists on a heap

A heap is a finite map from addresses to nodes and a pointer is an address or `NULL`. For a link
field `next`, `Seg next h p l q` says that following the links from `p` passes the nodes `l` and
then reaches `q`. A segment is only about its own cells (`Seg.frame`), and the three edits of a
list are `Seg.update` (a node that keeps its link), `Seg.unlink` (take out the node after a node)
and `Seg.link` (put a node behind the last one). The results of the edits are stated for
`SList`, the lists that end in `NULL` and visit no cell twice; their length is bounded by the size
of the heap, which is what lets a traversal stop (`SList.length_le`).
-/

namespace TlpiLearn

/-- Cells of nodes `ν` by their addresses. -/
abbrev Heap (ν : Type*) := Finmap fun _ : ℕ => ν

/-- A pointer; `none` is `NULL`. -/
abbrev Ptr := Option ℕ

variable {ν : Type*} (next : ν → Ptr)

/-- The links from `p` pass the nodes `l`, given with their addresses, and lead to `q`. -/
def Seg (h : Heap ν) : Ptr → List (ℕ × ν) → Ptr → Prop
  | p, [], q => p = q
  | p, (a, v) :: l, q => p = some a ∧ h.lookup a = some v ∧ Seg h (next v) l q

/-- A list from `p` to `NULL` that visits no cell twice. -/
structure SList (h : Heap ν) (p : Ptr) (l : List (ℕ × ν)) : Prop where
  seg : Seg next h p l none
  nodup : (l.map Prod.fst).Nodup

variable {next} {h h' : Heap ν} {p q : Ptr}

/-! ## Segments -/

theorem seg_append (l₁ l₂ : List (ℕ × ν)) :
    Seg next h p (l₁ ++ l₂) q ↔ ∃ r, Seg next h p l₁ r ∧ Seg next h r l₂ q := by
  induction l₁ generalizing p with
  | nil => simp [Seg]
  | cons x l₁ ih =>
    obtain ⟨a, v⟩ := x
    simp only [List.cons_append, Seg, ih]
    constructor
    · rintro ⟨hp, hv, r, hl, hr⟩
      exact ⟨r, ⟨hp, hv, hl⟩, hr⟩
    · rintro ⟨r, ⟨hp, hv, hl⟩, hr⟩
      exact ⟨hp, hv, r, hl, hr⟩

/-- A segment depends only on its own cells. -/
theorem Seg.frame {l : List (ℕ × ν)} (hl : Seg next h p l q)
    (heq : ∀ a ∈ l.map Prod.fst, h'.lookup a = h.lookup a) : Seg next h' p l q := by
  induction l generalizing p with
  | nil => exact hl
  | cons x l ih =>
    obtain ⟨a, v⟩ := x
    obtain ⟨hp, hv, hrest⟩ := hl
    refine ⟨hp, ?_, ih hrest fun b hb => heq b (List.mem_cons_of_mem _ hb)⟩
    rw [heq a List.mem_cons_self, hv]

/-- Every node of a segment is in its cell. -/
theorem Seg.lookup {l : List (ℕ × ν)} (hl : Seg next h p l q) {x : ℕ × ν} (hx : x ∈ l) :
    h.lookup x.1 = some x.2 := by
  induction l generalizing p with
  | nil => cases hx
  | cons y l ih =>
    obtain ⟨-, hv, hrest⟩ := hl
    obtain rfl | hx := List.mem_cons.1 hx
    · exact hv
    · exact ih hrest hx

namespace SList

variable {l l₁ l₂ : List (ℕ × ν)} {a b : ℕ} {v w v' : ν}

/-- A list has at most as many nodes as the heap has cells. -/
theorem length_le (hl : SList next h p l) : l.length ≤ h.keys.card := by
  have hsub : (l.map Prod.fst).toFinset ⊆ h.keys := by
    intro a ha
    obtain ⟨x, hx, rfl⟩ := List.mem_map.1 (List.mem_toFinset.1 ha)
    rw [Finmap.mem_keys, ← Finmap.lookup_isSome, hl.seg.lookup hx]
    rfl
  calc l.length = (l.map Prod.fst).toFinset.card := by
        rw [List.toFinset_card_of_nodup hl.nodup, List.length_map]
    _ ≤ h.keys.card := Finset.card_le_card hsub

/-- The addresses around one node are different from its own. -/
theorem notMem (hl : SList next h p (l₁ ++ (a, v) :: l₂)) :
    a ∉ l₁.map Prod.fst ∧ a ∉ l₂.map Prod.fst := by
  have hnodup := hl.nodup
  rw [List.map_append, List.map_cons, List.nodup_append'] at hnodup
  obtain ⟨-, hcons, hdisj⟩ := hnodup
  exact ⟨fun ha => hdisj ha List.mem_cons_self, (List.nodup_cons.1 hcons).1⟩

/-- Write a node that keeps its link. -/
theorem update (hl : SList next h p (l₁ ++ (a, v) :: l₂)) (hnext : next v' = next v) :
    SList next (h.insert a v') p (l₁ ++ (a, v') :: l₂) := by
  obtain ⟨h₁, h₂⟩ := hl.notMem
  obtain ⟨r, hseg, hp, -, hrest⟩ := (seg_append _ _).1 hl.seg
  refine ⟨(seg_append _ _).2 ⟨r, hseg.frame ?_, hp, Finmap.lookup_insert h, ?_⟩, ?_⟩
  · exact fun b hb => Finmap.lookup_insert_of_ne h fun hba => h₁ (hba ▸ hb)
  · rw [hnext]
    exact hrest.frame fun b hb => Finmap.lookup_insert_of_ne h fun hba => h₂ (hba ▸ hb)
  · simpa using hl.nodup

/-- Unlink and free the node after `b`. -/
theorem unlink (hl : SList next h p (l₁ ++ (b, w) :: (a, v) :: l₂)) (w' : ν)
    (hnext : next w' = next v) :
    SList next ((h.insert b w').erase a) p (l₁ ++ (b, w') :: l₂) := by
  obtain ⟨hb₁, hb₂⟩ := hl.notMem
  have hl' : SList next h p ((l₁ ++ [(b, w)]) ++ (a, v) :: l₂) := by rwa [← List.append_cons]
  obtain ⟨ha₁, ha₂⟩ := hl'.notMem
  rw [List.map_append, List.mem_append, not_or] at ha₁
  have hab : b ≠ a := fun h => hb₂ (h ▸ List.mem_cons_self)
  obtain ⟨r, hseg, hp, -, -, -, hrest⟩ := (seg_append _ _).1 hl.seg
  have hother : ∀ c, c ≠ a → c ≠ b → ((h.insert b w').erase a).lookup c = h.lookup c :=
    fun c hca hcb => (Finmap.lookup_erase_ne hca).trans (Finmap.lookup_insert_of_ne h hcb)
  refine ⟨(seg_append _ _).2 ⟨r, hseg.frame ?_, hp, ?_, ?_⟩, ?_⟩
  · intro c hc
    exact hother c (fun hca => ha₁.1 (hca ▸ hc)) fun hcb => hb₁ (hcb ▸ hc)
  · rw [Finmap.lookup_erase_ne hab, Finmap.lookup_insert]
  · rw [hnext]
    refine hrest.frame fun c hc => ?_
    exact hother c (fun hca => ha₂ (hca ▸ hc)) fun hcb => hb₂ (hcb ▸ List.mem_cons_of_mem _ hc)
  · refine hl.nodup.sublist ?_
    simp only [List.map_append, List.map_cons]
    exact ((List.sublist_cons_self a _).cons_cons b).append_left _

/-- Put a node into a new cell behind the last one. -/
theorem link (hl : SList next h p (l₁ ++ [(b, w)])) (ha : a ∉ h) (w' v : ν)
    (hw : next w' = some a) (hv : next v = none) :
    SList next ((h.insert b w').insert a v) p (l₁ ++ [(b, w'), (a, v)]) := by
  have hnew : ∀ c ∈ (l₁ ++ [(b, w)]).map Prod.fst, c ≠ a := by
    intro c hc hca
    obtain ⟨x, hx, rfl⟩ := List.mem_map.1 hc
    exact ha (hca ▸ Finmap.mem_iff.2 ⟨x.2, hl.seg.lookup hx⟩)
  have hba : b ≠ a := hnew b (by simp)
  obtain ⟨hb₁, -⟩ := hl.notMem
  obtain ⟨r, hseg, hp, -, -⟩ := (seg_append _ _).1 hl.seg
  refine ⟨(seg_append _ _).2 ⟨r, hseg.frame ?_, hp, ?_, hw, Finmap.lookup_insert _, hv⟩, ?_⟩
  · intro c hc
    have hca : c ≠ a := hnew c (by rw [List.map_append]; exact List.mem_append_left _ hc)
    rw [Finmap.lookup_insert_of_ne _ hca,
      Finmap.lookup_insert_of_ne h fun hcb : c = b => hb₁ (hcb ▸ hc)]
  · rw [Finmap.lookup_insert_of_ne _ hba, Finmap.lookup_insert]
  · have hkeys : (l₁ ++ [(b, w'), (a, v)]).map Prod.fst = (l₁ ++ [(b, w)]).map Prod.fst ++ [a] := by
      simp
    rw [hkeys, List.nodup_append']
    refine ⟨hl.nodup, List.nodup_singleton a, fun c hc hca => ?_⟩
    exact hnew c hc (List.mem_singleton.1 hca)

end SList

end TlpiLearn
