import TlpiLearn.Threads.TsbMap
import Mathlib.Tactic

/-!
# The initialization of a `tsbTree`

`tsb_initialize` of `30_2/tsb_tree.c`, followed by calls of `tsb_lookup` and `tsb_add`. The block
that `malloc` returns is assigned to the parameter, and the members that are set are those of this
block, so that `*tree` keeps what it had before the call. `tsb_lookup` compares with the key of the
root without a look at whether it has one.
-/

namespace TlpiLearn.TsbMap

open TsbTree (Key)

variable {α : Type}

/-- `tsb_initialize`; `null` is `NULL` as a value. -/
def tsb_initialize (env : Env α) (null : α) (tree : Ptr) : Code α ℤ := do
  let r ← call env (.init tree)
  RET_CHECK r do
    let tree ← mallocNode env
      { key := none, value := null, left_ptsb := none, right_ptsb := none }
    if tree = none then pure (-1) else pure 0

/-- No key is found in the tree at `tree`, and the first key that is added to it is stored in the
root and is the only one that is found from then on. -/
structure EmptyMap (env : Env α) (s : Sys α) (tree : ℕ) : Prop where
  lookup : ∀ k value, ∃ s', (tsb_lookup (some tree) (some k) value).run s = .ok (.False, value) s'
  add : ∀ k v, ∃ s', (tsb_add env (some tree) (some k) v).run s = .ok 0 s' ∧
    (∃ node, s'.heap.lookup tree = some node ∧ node.key = some k ∧ node.value = v) ∧
    ∀ k' value, ∃ s'', (tsb_lookup (some tree) (some k') value).run s' =
      .ok (found value (if k' = k then some v else none)) s''

/-- `tsb_initialize` of the node at `tree` returns zero, and leaves `s'`. -/
def ReturnsZero (env : Env α) (null : α) (tree : ℕ) (s s' : Sys α) : Prop :=
  let code := tsb_initialize env null (some tree)
  code.run s = .ok 0 s'

/-- Whenever `tsb_initialize` returns zero, `*tree` is an empty map. -/
def Initializes (env : Env α) (null : α) (s : Sys α) (tree : ℕ) : Prop :=
  ∀ s', ReturnsZero env null tree s s' → EmptyMap env s' tree

variable {env : Env α} {null : α} {s s' : Sys α} {tree : ℕ} {node : PtsbTree α}

/-- **When it returns zero**: both calls have succeeded, and the assignments went to a block of
their own. -/
theorem returnsZero_iff :
    ReturnsZero env null tree s s' ↔
      env.mutex s.events (.init (some tree)) = 0 ∧
        ∃ a, env.malloc (s.events ++ [.mutex (.init (some tree)) 0]) s.heap = some a ∧
          s' = { (s.log (.mutex (.init (some tree)) 0)).log (.malloc (some a)) with
            heap := s.heap.insert a
              { key := none, value := null, left_ptsb := none, right_ptsb := none } } := by
  unfold ReturnsZero tsb_initialize
  dsimp only
  rw [run_bind_of_ok (run_call env _ s)]
  by_cases hinit : env.mutex s.events (.init (some tree)) = 0
  · rw [hinit, RET_CHECK_zero]
    cases hmalloc : env.malloc (s.events ++ [.mutex (.init (some tree)) 0]) s.heap with
    | none =>
      have hrun : (mallocNode env
          { key := none, value := null, left_ptsb := none, right_ptsb := none }).run
            (s.log (.mutex (.init (some tree)) 0)) =
          .ok none { (s.log (.mutex (.init (some tree)) 0)).log (.malloc none) with
            errno := ENOMEM } := by
        simp only [mallocNode, EStateM.run, log_events, log_heap, hmalloc]
      rw [run_bind_of_ok hrun, if_pos rfl]
      constructor
      · intro h
        cases h
      · rintro ⟨-, a, ha, -⟩
        cases ha
    | some a =>
      rw [run_bind_of_ok (run_mallocNode (s := s.log (.mutex (.init (some tree)) 0)) hmalloc _),
        if_neg (Option.some_ne_none a)]
      constructor
      · intro h
        cases h
        exact ⟨rfl, a, rfl, rfl⟩
      · rintro ⟨-, b, hb, rfl⟩
        cases hb
        rfl
  · rw [RET_CHECK, if_pos hinit]
    constructor
    · intro h
      cases h
    · rintro ⟨hzero, -⟩
      exact absurd hzero hinit

/-- **`*tree` is not touched** by its initialization. -/
theorem lookup_of_returnsZero (hmalloc : ∀ es h a, env.malloc es h = some a → a ∉ h)
    (hnode : s.heap.lookup tree = some node)
    (hrun : ReturnsZero env null tree s s') :
    s'.heap.lookup tree = some node := by
  obtain ⟨-, a, ha, rfl⟩ := returnsZero_iff.1 hrun
  have hne : tree ≠ a := by
    rintro rfl
    exact hmalloc _ _ _ ha (Finmap.mem_of_lookup_eq_some hnode)
  exact (Finmap.lookup_insert_of_ne _ hne).trans hnode

/-- The search from a root without a key follows a null pointer. -/
theorem run_tsb_lookup_of_key_none (hnode : s.heap.lookup tree = some node) (hkey : node.key = none)
    (k : Key) (value : Option α) :
    (tsb_lookup (some tree) (some k) value).run s = .error .nullDeref s := by
  rw [tsb_lookup, run_bind_of_ok (EStateM.run_get s), fuelOf, lookupLoop,
    run_bind_of_ok (run_load hnode), EStateM.run_bind]
  simp only [compareKey, EStateM.run, hkey]

/-- The search for the key of the root finds it. -/
theorem run_tsb_lookup_of_key_some (hnode : s.heap.lookup tree = some node) {k : Key}
    (hkey : node.key = some k) (value : Option α) :
    (tsb_lookup (some tree) (some k) value).run s =
      .ok (.True, value.map fun _ => node.value) s := by
  rw [tsb_lookup, run_bind_of_ok (EStateM.run_get s), fuelOf, lookupLoop,
    run_bind_of_ok (run_load hnode), run_compareKey_of_eq hkey k Std.ReflCmp.compare_self]
  rfl

/-- **No cell is an empty map** for `tsb_lookup`: without a key it is no node that can be compared,
and with a key it has this one. -/
theorem not_emptyMap (hnode : s.heap.lookup tree = some node) : ¬ EmptyMap env s tree := by
  intro hempty
  cases hkey : node.key with
  | none =>
    obtain ⟨s', hrun⟩ := hempty.lookup ⟨[], List.not_mem_nil⟩ none
    rw [run_tsb_lookup_of_key_none hnode hkey] at hrun
    cases hrun
  | some k =>
    obtain ⟨s', hrun⟩ := hempty.lookup k none
    rw [run_tsb_lookup_of_key_some hnode hkey] at hrun
    cases hrun

/-- **`tsb_initialize` makes an empty map only where it fails**: whatever `*tree` was, it is no
empty map after any call that returns zero. -/
theorem initializes_iff (hmalloc : ∀ es h a, env.malloc es h = some a → a ∉ h)
    (hnode : s.heap.lookup tree = some node) :
    Initializes env null s tree ↔ env.mutex s.events (.init (some tree)) ≠ 0 ∨
      env.malloc (s.events ++ [.mutex (.init (some tree)) 0]) s.heap = none := by
  constructor
  · intro h
    by_contra hsucceeds
    rw [not_or, not_not, ← ne_eq, Option.ne_none_iff_exists'] at hsucceeds
    obtain ⟨hinit, a, ha⟩ := hsucceeds
    have hrun : ReturnsZero env null tree s _ :=
      returnsZero_iff.2 ⟨hinit, a, ha, rfl⟩
    exact not_emptyMap (lookup_of_returnsZero hmalloc hnode hrun) (h _ hrun)
  · rintro hfails s' hrun
    obtain ⟨hinit, a, ha, -⟩ := returnsZero_iff.1 hrun
    obtain hne | hnone := hfails
    · exact absurd hinit hne
    · rw [ha] at hnone
      cases hnone

/-- A `malloc` without blocks. -/
def fullEnv : Env ℕ where
  mutex _ _ := 0
  malloc _ _ := none

/-- A root with the key `"a"` from before, with and without memory. -/
theorem initializes_iff_rootOf :
    ¬ Initializes goodEnv 0 (rootOf (some keyA)) 1 ∧
      Initializes fullEnv 0 (rootOf (some keyA)) 1 := by
  have hgood (es : List Event) (h : Heap (PtsbTree ℕ)) (a : ℕ)
      (ha : goodEnv.malloc es h = some a) : a ∉ h := by
    cases ha
    exact goodEnv_malloc_notMem h
  have hfull (es : List Event) (h : Heap (PtsbTree ℕ)) (a : ℕ)
      (ha : fullEnv.malloc es h = some a) : a ∉ h := by
    cases ha
  refine ⟨fun h => ?_, (initializes_iff hfull (lookup_rootOf _)).2 (Or.inr rfl)⟩
  obtain hne | hnone := (initializes_iff hgood (lookup_rootOf _)).1 h
  · exact hne rfl
  · cases hnone

/-- The key from before is found in the tree that was just initialized. -/
theorem not_initializes_rootOf : ¬ Initializes goodEnv 0 (rootOf (some keyA)) 1 := by
  intro h
  have hnode := lookup_rootOf (some keyA)
  have hrun : ReturnsZero goodEnv 0 1 (rootOf (some keyA)) _ :=
    returnsZero_iff.2 ⟨rfl, 2, rfl, rfl⟩
  exact not_emptyMap ((Finmap.lookup_insert_of_ne _ (by decide)).trans hnode) (h _ hrun)

end TlpiLearn.TsbMap
