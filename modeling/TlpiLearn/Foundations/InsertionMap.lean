import Mathlib.Tactic

/-!
# Maps in insertion order

A finite map whose entries keep the order in which their keys came in. The structure carries the
proof that no key occurs twice. A new key goes to the end (`append`); `erase` and `replace` touch
the one entry of their key and leave the others as they are (`entries_erase`, `entries_replace`).
-/

namespace TlpiLearn

/-- Entries with distinct keys, the oldest first. -/
structure InsertionMap (κ β : Type*) where
  entries : List (κ × β)
  nodup : (entries.map Prod.fst).Nodup

namespace InsertionMap

variable {κ β : Type*}

/-- The keys, the oldest first. -/
def keys (m : InsertionMap κ β) : List κ := m.entries.map Prod.fst

/-- The map without entries. -/
def empty : InsertionMap κ β := ⟨[], List.nodup_nil⟩

/-- A new entry behind the others. -/
def append (m : InsertionMap κ β) (k : κ) (v : β) (hk : k ∉ m.keys) : InsertionMap κ β where
  entries := m.entries ++ [(k, v)]
  nodup := by
    rw [List.map_append, List.nodup_append']
    refine ⟨m.nodup, List.nodup_singleton k, fun c hc hck => ?_⟩
    rw [List.mem_singleton.1 hck] at hc
    exact hk hc

variable {m : InsertionMap κ β} {k : κ} {v : β} {l₁ l₂ : List (κ × β)}

/-- The key of an entry occurs in no other one. -/
theorem ne_of_mem (hm : m.entries = l₁ ++ (k, v) :: l₂) {e : κ × β} (he : e ∈ l₁ ∨ e ∈ l₂) :
    e.1 ≠ k := by
  have hnodup := m.nodup
  rw [hm, List.map_append, List.map_cons, List.nodup_append'] at hnodup
  obtain ⟨-, hcons, hdisj⟩ := hnodup
  intro hek
  obtain he | he := he
  · exact hdisj (List.mem_map.2 ⟨e, he, hek⟩) List.mem_cons_self
  · exact (List.nodup_cons.1 hcons).1 (List.mem_map.2 ⟨e, he, hek⟩)

variable [DecidableEq κ]

/-- The map without the entry of `k`. -/
def erase (m : InsertionMap κ β) (k : κ) : InsertionMap κ β where
  entries := m.entries.filter fun e => e.1 ≠ k
  nodup := m.nodup.sublist (List.filter_sublist.map _)

/-- The map with the value `v` for `k`, if it has the key. -/
def replace (m : InsertionMap κ β) (k : κ) (v : β) : InsertionMap κ β where
  entries := m.entries.map fun e => if e.1 = k then (k, v) else e
  nodup := by
    have hkeys : (m.entries.map fun e => if e.1 = k then (k, v) else e).map Prod.fst = m.keys := by
      rw [List.map_map]
      refine List.map_congr_left fun e _ => ?_
      rw [Function.comp_apply]
      split
      · rename_i he
        exact he.symm
      · rfl
    rw [hkeys]
    exact m.nodup

theorem entries_erase (hm : m.entries = l₁ ++ (k, v) :: l₂) : (m.erase k).entries = l₁ ++ l₂ := by
  have h₁ : l₁.filter (fun e => e.1 ≠ k) = l₁ :=
    List.filter_eq_self.2 fun e he => by simpa using ne_of_mem hm (.inl he)
  have h₂ : l₂.filter (fun e => e.1 ≠ k) = l₂ :=
    List.filter_eq_self.2 fun e he => by simpa using ne_of_mem hm (.inr he)
  change m.entries.filter (fun e => e.1 ≠ k) = _
  rw [hm, List.filter_append, List.filter_cons_of_neg (by simp), h₁, h₂]

theorem entries_replace (hm : m.entries = l₁ ++ (k, v) :: l₂) (w : β) :
    (m.replace k w).entries = l₁ ++ (k, w) :: l₂ := by
  have h₁ : l₁.map (fun e => if e.1 = k then (k, w) else e) = l₁ :=
    (List.map_congr_left fun e he => if_neg (ne_of_mem hm (.inl he))).trans (List.map_id l₁)
  have h₂ : l₂.map (fun e => if e.1 = k then (k, w) else e) = l₂ :=
    (List.map_congr_left fun e he => if_neg (ne_of_mem hm (.inr he))).trans (List.map_id l₂)
  change m.entries.map (fun e => if e.1 = k then (k, w) else e) = _
  rw [hm, List.map_append, List.map_cons, if_pos rfl, h₁, h₂]

end InsertionMap

end TlpiLearn
