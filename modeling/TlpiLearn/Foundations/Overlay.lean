import Mathlib.Tactic

/-!
# Writes to the start of a block

A reader that fills the same block again and again, each time from its start, leaves in it the
last write where that was long enough, and behind it what earlier writes and the first contents
left there. `getElem?_overlays_of_lastAt` and `getElem?_overlays_of_forall_le` say so position by
position, and `prefix_overlays_iff` tells which texts the block starts with.
-/

namespace TlpiLearn

variable {α : Type*}

/-- The block `mem` after `w` has been written to its start. -/
def overlay (mem w : List α) : List α := w ++ mem.drop w.length

/-- The block after all of `cs` have been written to its start, one after the other. -/
def overlays (mem : List α) (cs : List (List α)) : List α := cs.foldl overlay mem

/-- `w` is the last of `cs` that has a position `i`. -/
def LastAt (cs : List (List α)) (w : List α) (i : ℕ) : Prop :=
  ∃ pre post, cs = pre ++ w :: post ∧ i < w.length ∧ ∀ d ∈ post, d.length ≤ i

variable {mem w t : List α} {cs : List (List α)} {i : ℕ}

@[simp] theorem overlays_nil (mem : List α) : overlays mem [] = mem := rfl

@[simp] theorem overlays_cons (mem w : List α) (cs : List (List α)) :
    overlays mem (w :: cs) = overlays (overlay mem w) cs := rfl

theorem overlays_append (mem : List α) (cs ds : List (List α)) :
    overlays mem (cs ++ ds) = overlays (overlays mem cs) ds := List.foldl_append

theorem length_overlay (h : w.length ≤ mem.length) : (overlay mem w).length = mem.length := by
  rw [overlay, List.length_append, List.length_drop]
  omega

/-- Writes that fit keep the length of the block. -/
theorem length_overlays (h : ∀ w ∈ cs, w.length ≤ mem.length) :
    (overlays mem cs).length = mem.length := by
  induction cs generalizing mem with
  | nil => rfl
  | cons w cs ih =>
    have hw := length_overlay (h w List.mem_cons_self)
    rw [overlays_cons, ih fun d hd => ?_, hw]
    rw [hw]
    exact h d (List.mem_cons_of_mem _ hd)

theorem getElem?_overlay_of_lt (mem : List α) (h : i < w.length) : (overlay mem w)[i]? = w[i]? :=
  List.getElem?_append_left h

theorem getElem?_overlay_of_le (mem : List α) (h : w.length ≤ i) :
    (overlay mem w)[i]? = mem[i]? := by
  rw [overlay, List.getElem?_append_right h, List.getElem?_drop, Nat.add_sub_cancel' h]

/-- One more element stored behind those written so far. -/
theorem set_overlay (h : w.length < mem.length) (a : α) :
    (overlay mem w).set w.length a = overlay mem (w ++ [a]) := by
  have hdrop : mem.drop w.length = mem[w.length] :: mem.drop (w.length + 1) :=
    List.drop_eq_getElem_cons h
  rw [overlay, overlay, List.set_append_right _ _ le_rfl, Nat.sub_self, hdrop, List.set_cons_zero,
    List.length_append, List.length_singleton, List.append_assoc, List.singleton_append]

/-- A position that no write reaches keeps its contents. -/
theorem getElem?_overlays_of_forall_le (mem : List α) (h : ∀ w ∈ cs, w.length ≤ i) :
    (overlays mem cs)[i]? = mem[i]? := by
  induction cs generalizing mem with
  | nil => rfl
  | cons w cs ih =>
    rw [overlays_cons, ih _ fun d hd => h d (List.mem_cons_of_mem _ hd),
      getElem?_overlay_of_le mem (h w List.mem_cons_self)]

/-- A position has the contents of the last write that reaches it. -/
theorem getElem?_overlays_of_lastAt (mem : List α) (h : LastAt cs w i) :
    (overlays mem cs)[i]? = w[i]? := by
  obtain ⟨pre, post, rfl, hi, hpost⟩ := h
  rw [overlays_append, overlays_cons, getElem?_overlays_of_forall_le _ hpost,
    getElem?_overlay_of_lt _ hi]

/-- A position that some write reaches has a last such write. -/
theorem exists_lastAt_or (cs : List (List α)) (i : ℕ) :
    (∃ w, LastAt cs w i) ∨ ∀ w ∈ cs, w.length ≤ i := by
  induction cs with
  | nil => exact .inr fun w hc => absurd hc List.not_mem_nil
  | cons d cs ih =>
    rcases ih with ⟨w, pre, post, rfl, hi, hpost⟩ | hle
    · exact .inl ⟨w, d :: pre, post, rfl, hi, hpost⟩
    · by_cases hd : i < d.length
      · exact .inl ⟨d, [], cs, rfl, hd, hle⟩
      · refine .inr fun w hc => ?_
        rcases List.mem_cons.1 hc with rfl | hc
        · exact not_lt.1 hd
        · exact hle w hc

/-- **The text at the start of the block**: each of its positions was written last with its own
contents, or was never written and had them from the first. -/
theorem prefix_overlays_iff : t <+: overlays mem cs ↔
    (∀ w i, LastAt cs w i → i < t.length → w[i]? = t[i]?) ∧
      ∀ i < t.length, (∀ w ∈ cs, w.length ≤ i) → mem[i]? = t[i]? := by
  rw [List.prefix_iff_getElem?]
  constructor
  · intro h
    constructor
    · intro w i hc hi
      rw [← getElem?_overlays_of_lastAt mem hc, h i hi, List.getElem?_eq_getElem hi]
    · intro i hi hle
      rw [← getElem?_overlays_of_forall_le mem hle, h i hi, List.getElem?_eq_getElem hi]
  · rintro ⟨hlast, hkept⟩ i hi
    rw [← List.getElem?_eq_getElem hi]
    rcases exists_lastAt_or cs i with ⟨w, hc⟩ | hle
    · rw [getElem?_overlays_of_lastAt mem hc]
      exact hlast w i hc hi
    · rw [getElem?_overlays_of_forall_le mem hle]
      exact hkept i hi hle

end TlpiLearn
