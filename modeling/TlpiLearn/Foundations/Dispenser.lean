import TlpiLearn.Foundations.Intervals
import TlpiLearn.Foundations.Machine

/-!
# A dispenser of intervals

What a sequence-number service is for: a dispenser hands out intervals of integers, one after the
other without gaps from `base` on, and at most one to each holder. A `Dispenser` carries these facts, so that two
tickets of it are disjoint (`Dispenser.disjoint`) and a holder's ticket is the only one it has
(`Dispenser.eq_of_holder_eq`). The machine `dispenser base len` grants to each holder `p` at most once,
`len p` numbers.
-/

namespace TlpiLearn

/-- A granted interval and its holder. -/
structure Ticket (π : Type*) where
  holder : π
  span : Span ℤ
  deriving DecidableEq, Repr

/-- The intervals from `base` to `next`, and who holds them. -/
structure Dispenser (π : Type*) (base : ℤ) where
  next : ℤ
  tickets : List (Ticket π)
  tiles : Tiles base (tickets.map Ticket.span) next
  nodup : (tickets.map Ticket.holder).Nodup

namespace Dispenser

variable {π : Type*} {base : ℤ}

/-- Nothing is granted. -/
def empty : Dispenser π base := ⟨base, [], rfl, .nil⟩

/-- Those that hold an interval. -/
def holders (d : Dispenser π base) : List π := d.tickets.map Ticket.holder

/-- `p` gets the next `n` numbers. -/
def grant (d : Dispenser π base) (p : π) (n : ℤ) (hp : p ∉ d.holders) (hn : 0 < n) :
    Dispenser π base where
  next := d.next + n
  tickets := d.tickets ++ [⟨p, ⟨d.next, n⟩⟩]
  tiles := by
    rw [List.map_append]
    exact d.tiles.snoc hn
  nodup := by
    rw [List.map_append]
    exact d.nodup.append (List.nodup_singleton p) (List.disjoint_singleton.2 hp)

variable {d : Dispenser π base} {p q : π} {n : ℤ} {t u : Ticket π}

@[simp] theorem holders_empty : (empty : Dispenser π base).holders = [] := rfl

@[simp] theorem next_grant (hp : p ∉ d.holders) (hn : 0 < n) :
    (d.grant p n hp hn).next = d.next + n := rfl

@[simp] theorem holders_grant (hp : p ∉ d.holders) (hn : 0 < n) :
    (d.grant p n hp hn).holders = d.holders ++ [p] := List.map_append

theorem not_mem_holders_grant (hp : p ∉ d.holders) (hn : 0 < n) (hqp : q ≠ p)
    (hq : q ∉ d.holders) : q ∉ (d.grant p n hp hn).holders := by
  rw [holders_grant, List.mem_append, List.mem_singleton, not_or]
  exact ⟨hq, hqp⟩

theorem mem_tickets_grant (hp : p ∉ d.holders) (hn : 0 < n) :
    t ∈ (d.grant p n hp hn).tickets ↔ t ∈ d.tickets ∨ t = ⟨p, ⟨d.next, n⟩⟩ := by
  rw [grant, List.mem_append, List.mem_singleton]

theorem mem_holders_of_mem (ht : t ∈ d.tickets) : t.holder ∈ d.holders :=
  List.mem_map_of_mem ht

/-- A holder has one ticket. -/
theorem eq_of_holder_eq (ht : t ∈ d.tickets) (hu : u ∈ d.tickets) (h : t.holder = u.holder) :
    t = u :=
  List.inj_on_of_nodup_map d.nodup ht hu h

/-- **Different holders have disjoint intervals.** -/
theorem disjoint (ht : t ∈ d.tickets) (hu : u ∈ d.tickets) (h : t.holder ≠ u.holder) :
    Disjoint t.span.toSet u.span.toSet := by
  have hpair := List.pairwise_map.1 d.tiles.stacked.pairwise_disjoint
  have : Std.Symm fun t u : Ticket π => Disjoint t.span.toSet u.span.toSet :=
    ⟨fun _ _ hd => hd.symm⟩
  exact hpair.forall ht hu fun e => h (congrArg Ticket.holder e)

/-- The intervals cover the numbers from `base` up to `next`. -/
theorem iUnion_eq (d : Dispenser π base) : ⋃ t ∈ d.tickets, t.span.toSet = Set.Ico base d.next := by
  rw [← d.tiles.iUnion_eq]
  ext x
  simp only [Set.mem_iUnion, List.mem_map, exists_prop]
  refine ⟨fun ⟨t, ht, hx⟩ => ⟨t.span, ⟨t, ht, rfl⟩, hx⟩, ?_⟩
  rintro ⟨g, ⟨t, ht, rfl⟩, hx⟩
  exact ⟨t, ht, hx⟩

/-- When all holders know their tickets, the intervals that they know cover the same. -/
theorem iUnion_known (d : Dispenser π base) {f : π → Option (Span ℤ)}
    (hf : ∀ p g, f p = some g → ⟨p, g⟩ ∈ d.tickets) (hall : ∀ p ∈ d.holders, f p ≠ none) :
    ⋃ p, ⋃ g ∈ f p, g.toSet = Set.Ico base d.next := by
  rw [← d.iUnion_eq]
  ext x
  simp only [Set.mem_iUnion, Option.mem_def, exists_prop]
  refine ⟨fun ⟨p, g, hg, hx⟩ => ⟨⟨p, g⟩, hf p g hg, hx⟩, fun ⟨t, ht, hx⟩ => ?_⟩
  obtain ⟨g, hg⟩ := Option.ne_none_iff_exists'.1 (hall t.holder (mem_holders_of_mem ht))
  have hspan : t.span = g := congrArg Ticket.span (eq_of_holder_eq ht (hf _ g hg) rfl)
  exact ⟨t.holder, g, hg, hspan ▸ hx⟩

/-- The end is the sum of the lengths. -/
theorem next_eq_sum (d : Dispenser π base) :
    d.next = base + (d.tickets.map fun t => t.span.len).sum := by
  rw [d.tiles.end_eq, List.map_map]
  rfl

theorem base_le_next (d : Dispenser π base) : base ≤ d.next := d.tiles.stacked.le

end Dispenser

variable {π : Type*} [DecidableEq π] {base : ℤ}

/-- The dispenser that grants `len p` numbers to `p`, once. -/
def dispenser (base : ℤ) (len : π → ℤ) : Machine (Dispenser π base) π where
  init := .empty
  step d p := if h : p ∉ d.holders ∧ 0 < len p then some (d.grant p (len p) h.1 h.2) else none

namespace Dispenser

variable {len : π → ℤ} {d : Dispenser π base} {t : Ticket π}

theorem step_dispenser {p : π} (hp : p ∉ d.holders) (hn : 0 < len p) :
    (dispenser base len).step d p = some (d.grant p (len p) hp hn) := dif_pos ⟨hp, hn⟩

/-- Each ticket is for the length of its holder. -/
theorem len_eq (hd : (dispenser base len).Reachable d) (ht : t ∈ d.tickets) :
    t.span.len = len t.holder := by
  refine hd.invariant (I := fun d => ∀ t ∈ d.tickets, t.span.len = len t.holder)
    (fun _ h => absurd h List.not_mem_nil) ?_ t ht
  intro d p d' ih _ hst t ht
  obtain ⟨h, hd'⟩ := Option.dite_none_right_eq_some.1 hst
  obtain rfl := Option.some.inj hd'
  rcases (mem_tickets_grant h.1 h.2).1 ht with ht | rfl
  · exact ih t ht
  · rfl

theorem next_eq_sum_holders [Fintype π] (hd : (dispenser base len).Reachable d) :
    d.next = base + ∑ p ∈ d.holders.toFinset, len p := by
  have hnext : d.next = base + (d.holders.map len).sum := by
    rw [d.next_eq_sum, holders, List.map_map]
    exact congrArg (fun l => base + l.sum) (List.map_congr_left fun t ht => len_eq hd ht)
  exact hnext.trans (congrArg (base + ·) (List.sum_toFinset len d.nodup).symm)

/-- No number above the sum of all lengths is granted. -/
theorem next_le_sum [Fintype π] (hlen : ∀ p, 0 ≤ len p) (hd : (dispenser base len).Reachable d) :
    d.next ≤ base + ∑ p, len p := by
  rw [next_eq_sum_holders hd]
  refine add_le_add_right ?_ base
  exact Finset.sum_le_sum_of_subset_of_nonneg (Finset.subset_univ _) fun p _ _ => hlen p

/-- When nobody waits, all numbers below the sum of the lengths are granted. -/
theorem next_eq_sum_of_served [Fintype π] (hd : (dispenser base len).Reachable d)
    (h : ∀ p ∉ d.holders, len p = 0) : d.next = base + ∑ p, len p := by
  rw [next_eq_sum_holders hd]
  refine congrArg (base + ·) (Finset.sum_subset (Finset.subset_univ _) fun p _ hp => h p ?_)
  rwa [List.mem_toFinset] at hp

end Dispenser

end TlpiLearn
