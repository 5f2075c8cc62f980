import Mathlib

/-!
# Intervals handed out one after the other

A service that grants intervals `[start, start + len)` keeps them in a list, oldest first.
`Stacked a l b` says that the intervals of `l` are nonempty, lie between `a` and `b` and follow
each other upwards, possibly with gaps; `Tiles a l b` says the same without gaps. Both grow at
their upper end (`Stacked.snoc`, `Tiles.snoc`), which is what a step of the service does;
`Stacked.pairwise_disjoint` and `Tiles.iUnion_eq` are what its clients want to know.
-/

namespace TlpiLearn

variable {α : Type*} [AddCommGroup α] [LinearOrder α]

/-- A granted interval: its start and its length. -/
structure Span (α : Type*) where
  start : α
  len : α
  deriving DecidableEq, Repr

/-- The elements of the interval. -/
def Span.toSet (g : Span α) : Set α := Set.Ico g.start (g.start + g.len)

/-- The intervals of `l` are nonempty and follow each other from `a` up to `b`. -/
def Stacked (a : α) : List (Span α) → α → Prop
  | [], b => a ≤ b
  | g :: l, b => a ≤ g.start ∧ 0 < g.len ∧ Stacked (g.start + g.len) l b

/-- The intervals of `l` are nonempty and follow each other from `a` to `b` without a gap. -/
def Tiles (a : α) : List (Span α) → α → Prop
  | [], b => a = b
  | g :: l, b => g.start = a ∧ 0 < g.len ∧ Tiles (a + g.len) l b

theorem Tiles.stacked {l : List (Span α)} {a b : α} (h : Tiles a l b) : Stacked a l b := by
  induction l generalizing a with
  | nil => exact le_of_eq h
  | cons g l ih =>
    obtain ⟨rfl, hlen, h⟩ := h
    exact ⟨le_rfl, hlen, ih h⟩

/-- A new interval at the upper end. -/
theorem Stacked.snoc {l : List (Span α)} {a b : α} (h : Stacked a l b) {g : Span α}
    (hg : b ≤ g.start) (hlen : 0 < g.len) : Stacked a (l ++ [g]) (g.start + g.len) := by
  induction l generalizing a with
  | nil => exact ⟨le_trans h hg, hlen, le_rfl⟩
  | cons x l ih => exact ⟨h.1, h.2.1, ih h.2.2⟩

/-- The upper end may be raised. -/
theorem Stacked.mono {l : List (Span α)} {a b c : α} (h : Stacked a l b) (hbc : b ≤ c) :
    Stacked a l c := by
  induction l generalizing a with
  | nil => exact le_trans h hbc
  | cons x l ih => exact ⟨h.1, h.2.1, ih h.2.2⟩

/-- The next interval, which starts where the last one ends. -/
theorem Tiles.snoc {l : List (Span α)} {a b n : α} (h : Tiles a l b) (hn : 0 < n) :
    Tiles a (l ++ [⟨b, n⟩]) (b + n) := by
  induction l generalizing a with
  | nil =>
    obtain rfl : a = b := h
    exact ⟨rfl, hn, rfl⟩
  | cons x l ih => exact ⟨h.1, h.2.1, ih h.2.2⟩

/-- The upper end of a tiling is the sum of the lengths above its lower end. -/
theorem Tiles.end_eq {l : List (Span α)} {a b : α} (h : Tiles a l b) :
    b = a + (l.map Span.len).sum := by
  induction l generalizing a with
  | nil => simpa using h.symm
  | cons g l ih => rw [ih h.2.2, List.map_cons, List.sum_cons, add_assoc]

variable [IsOrderedAddMonoid α]

theorem Stacked.le {l : List (Span α)} {a b : α} (h : Stacked a l b) : a ≤ b := by
  induction l generalizing a with
  | nil => exact h
  | cons g l ih =>
    calc a ≤ g.start := h.1
      _ ≤ g.start + g.len := le_add_of_nonneg_right h.2.1.le
      _ ≤ b := ih h.2.2

/-- Every interval lies between the ends. -/
theorem Stacked.bounds {l : List (Span α)} {a b : α} (h : Stacked a l b) {g : Span α}
    (hg : g ∈ l) : a ≤ g.start ∧ g.start + g.len ≤ b := by
  induction l generalizing a with
  | nil => cases hg
  | cons x l ih =>
    obtain ⟨hx, hlen, h⟩ := h
    rcases List.mem_cons.mp hg with rfl | hg
    · exact ⟨hx, h.le⟩
    · obtain ⟨h1, h2⟩ := ih h hg
      exact ⟨hx.trans ((le_add_of_nonneg_right hlen.le).trans h1), h2⟩

/-- **The intervals of a stack are pairwise disjoint.** -/
theorem Stacked.pairwise_disjoint {l : List (Span α)} {a b : α} (h : Stacked a l b) :
    l.Pairwise fun g g' => Disjoint g.toSet g'.toSet := by
  induction l generalizing a with
  | nil => exact .nil
  | cons g l ih =>
    obtain ⟨-, -, h⟩ := h
    refine .cons (fun g' hg' => Set.disjoint_left.mpr fun x hx hx' => ?_) (ih h)
    exact absurd hx.2 (not_lt.mpr ((h.bounds hg').1.trans hx'.1))

/-- **A tiling covers exactly the elements between its ends.** -/
theorem Tiles.iUnion_eq {l : List (Span α)} {a b : α} (h : Tiles a l b) :
    ⋃ g ∈ l, g.toSet = Set.Ico a b := by
  induction l generalizing a with
  | nil =>
    obtain rfl : a = b := h
    simp
  | cons g l ih =>
    obtain ⟨rfl, hlen, h⟩ := h
    have hle : g.start ≤ g.start + g.len := le_add_of_nonneg_right hlen.le
    simp only [List.mem_cons, Set.iUnion_iUnion_eq_or_left, ih h]
    exact Set.Ico_union_Ico_eq_Ico hle h.stacked.le

end TlpiLearn
