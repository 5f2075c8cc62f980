import TlpiLearn.Threads.TsbMap
import Mathlib.Tactic

/-!
# The mutexes of one call of `tsb_add`

A single caller of `tsb_add`: it may lock an initialized mutex of an existing node, it may unlock
what it holds, it must initialize the mutex of a new node before it links the node in, and it must
hold nothing when it returns. The bookkeeping is a fold over the log. The function keeps to these
rules as long as it stays at the root; as soon as it goes on to a child it unlocks the mutex of the
child instead of the one it holds.
-/

namespace TlpiLearn.TsbMap

open SearchTree
open TsbTree (Key)

/-- What the caller has to know: the nodes that exist, those with an initialized mutex, and those
whose mutex it holds. -/
structure Mutexes where
  nodes : Finset ℕ
  initialized : Finset ℕ
  held : Finset ℕ

namespace Mutexes

/-- The bookkeeping; an operation that fails changes nothing. -/
def after (m : Mutexes) : Event → Mutexes
  | .mutex (.lock (some a)) r => if r = 0 then { m with held := insert a m.held } else m
  | .mutex (.unlock (some a)) r => if r = 0 then { m with held := m.held.erase a } else m
  | .mutex (.init (some a)) r =>
    if r = 0 then { m with initialized := insert a m.initialized } else m
  | .malloc (some a) =>
    { m with nodes := insert a m.nodes, initialized := m.initialized.erase a }
  | _ => m

/-- What the caller may do. -/
def Allows (m : Mutexes) : Event → Prop
  | .mutex (.lock p) _ => ∃ a ∈ m.nodes, p = some a ∧ a ∈ m.initialized
  | .mutex (.unlock p) _ => ∃ a ∈ m.held, p = some a
  | .link pnode => ∃ a ∈ m.initialized, pnode = some a
  | _ => True

/-- The caller does only what it may do. -/
def Disciplined : Mutexes → List Event → Prop
  | _, [] => True
  | m, e :: es => m.Allows e ∧ (m.after e).Disciplined es

/-- The discipline of a run, which ends with nothing held if it returns. -/
def Keeps {α β : Type} (m : Mutexes) : EStateM.Result Fault (Sys α) β → Prop
  | .ok _ s => m.Disciplined s.events ∧ (s.events.foldl after m).held = ∅
  | .error _ s => m.Disciplined s.events

variable {m : Mutexes}

theorem disciplined_append (es es' : List Event) :
    m.Disciplined (es ++ es') ↔ m.Disciplined es ∧ (es.foldl after m).Disciplined es' := by
  induction es generalizing m with
  | nil => simp [Disciplined]
  | cons e es ih =>
    rw [List.cons_append, Disciplined, Disciplined, ih, List.foldl_cons, and_assoc]

end Mutexes

variable {α β γ : Type} {m : Mutexes} {env : Env α} {s : Sys α} {key : Key}

/-! ## The log grows -/

/-- The state in which code stops. -/
def finalState : EStateM.Result Fault (Sys α) β → Sys α
  | .ok _ s => s
  | .error _ s => s

theorem Mutexes.Keeps.disciplined {r : EStateM.Result Fault (Sys α) β} (h : m.Keeps r) :
    m.Disciplined (finalState r).events := by
  cases r with
  | ok b s => exact h.1
  | error f s => exact h

/-- Code that takes nothing out of the log. -/
def Grows (x : Code α β) : Prop := ∀ s, s.events <+: (finalState (x.run s)).events

theorem Grows.bind {x : Code α β} {f : β → Code α γ} (hx : Grows x) (hf : ∀ b, Grows (f b)) :
    Grows (x >>= f) := by
  intro s
  have hs := hx s
  rw [EStateM.run_bind]
  cases hrun : x.run s with
  | ok b s' =>
    rw [hrun] at hs
    exact hs.trans (hf b s')
  | error f s' =>
    rw [hrun] at hs
    exact hs

theorem grows_pure (b : β) : Grows (pure b : Code α β) := fun s => List.prefix_refl s.events

theorem grows_call (env : Env α) (c : Call) : Grows (call env c) := fun s =>
  List.prefix_append s.events _

theorem grows_load (p : Ptr) : Grows (load p : Code α (PtsbTree α)) := by
  intro s
  simp only [load, EStateM.run]
  split
  · exact List.prefix_refl s.events
  · split
    · exact List.prefix_refl s.events
    · exact List.prefix_refl s.events

theorem grows_compareKey (node : PtsbTree α) (key : Key) : Grows (compareKey node key) := by
  intro s
  simp only [compareKey, EStateM.run]
  split
  · exact List.prefix_refl s.events
  · split
    · exact List.prefix_refl s.events
    · exact List.prefix_refl s.events

theorem grows_linkAtEnd (tree : Ptr) (pre : ℕ) (node : PtsbTree α) (pnode : Ptr) :
    Grows (linkAtEnd tree pre node pnode) := by
  cases tree with
  | none => exact fun s => List.prefix_append s.events _
  | some a => exact grows_pure ()

theorem Grows.retCheck {rest : Code α ℤ} (h : Grows rest) (r : ℤ) : Grows (RET_CHECK r rest) := by
  rw [RET_CHECK]
  split
  · exact fun s => List.prefix_refl s.events
  · exact h

theorem Grows.unlockNext {loop : Code α ℤ} (h : Grows loop) (env : Env α) (tree : Ptr) :
    Grows (unlockNext env tree loop) :=
  (grows_call env _).bind h.retCheck

/-- The loop of `tsb_add` takes nothing out of the log. -/
theorem grows_addLoop (env : Env α) (key : Key) (pnode : Ptr) (fuel : ℕ) (p : Ptr) :
    Grows (addLoop env key pnode fuel p) := by
  induction fuel generalizing p with
  | zero => exact fun s => List.prefix_refl s.events
  | succ fuel ih =>
    cases p with
    | none => exact grows_pure 0
    | some pre =>
      refine (grows_call env _).bind (Grows.retCheck ?_)
      refine (grows_load _).bind fun node => (grows_compareKey node key).bind fun z => ?_
      split_ifs
      · exact (grows_linkAtEnd _ _ _ _).bind fun _ => (ih _).unlockNext env _
      · exact (grows_linkAtEnd _ _ _ _).bind fun _ => (ih _).unlockNext env _
      · exact (grows_call env _).bind (Grows.retCheck (grows_pure 0))

/-! ## Beyond the root -/

/-- **The unlock of a node that is not held** breaks the rules, whatever comes behind it. -/
theorem not_keeps_next {tree : Ptr}
    (hheld : ∀ a ∈ (s.events.foldl Mutexes.after m).held, tree ≠ some a) (pre : ℕ)
    (node : PtsbTree α) (pnode : Ptr) {loop : Code α ℤ} (hloop : Grows loop) :
    ¬ m.Keeps ((linkAtEnd tree pre node pnode >>= fun _ => unlockNext env tree loop).run s) := by
  intro hkeeps
  obtain ⟨s', hlink, hheld'⟩ : ∃ s', (linkAtEnd tree pre node pnode).run s = .ok () s' ∧
      (s'.events.foldl Mutexes.after m).held = (s.events.foldl Mutexes.after m).held := by
    cases tree with
    | none =>
      refine ⟨{ s.log (.link pnode) with heap := s.heap.insert pre node }, rfl, ?_⟩
      simp only [log_events, List.foldl_append, List.foldl_cons, List.foldl_nil, Mutexes.after]
    | some a => exact ⟨s, rfl, rfl⟩
  rw [run_bind_of_ok hlink, unlockNext, run_bind_of_ok (run_call _ _ _)] at hkeeps
  obtain ⟨es, hes⟩ := hloop.retCheck _
    (s'.log (.mutex (.unlock tree) (env.mutex s'.events (.unlock tree))))
  have hdisc := hkeeps.disciplined
  rw [← hes, log_events, List.append_assoc, Mutexes.disciplined_append] at hdisc
  obtain ⟨-, ⟨a, ha, htree⟩, -⟩ := hdisc
  rw [hheld'] at ha
  exact hheld a ha htree

/-! ## At the root -/

/-- The caller has kept to the rules, it holds `held`, and it may lock the mutex of `tree`. -/
structure Now (m : Mutexes) (es : List Event) (tree : ℕ) (held : Finset ℕ) : Prop where
  disciplined : m.Disciplined es
  held_eq : (es.foldl Mutexes.after m).held = held
  mem_nodes : tree ∈ (es.foldl Mutexes.after m).nodes
  mem_initialized : tree ∈ (es.foldl Mutexes.after m).initialized

namespace Now

variable {es : List Event} {tree : ℕ} {held : Finset ℕ} {r : ℤ}

/-- One event more. -/
theorem snoc (h : Now m es tree held) {e : Event} {held' : Finset ℕ}
    (hallows : (es.foldl Mutexes.after m).Allows e)
    (hheld : ((es.foldl Mutexes.after m).after e).held = held')
    (hnodes : tree ∈ ((es.foldl Mutexes.after m).after e).nodes)
    (hinit : tree ∈ ((es.foldl Mutexes.after m).after e).initialized) :
    Now m (es ++ [e]) tree held' := by
  have hfold : (es ++ [e]).foldl Mutexes.after m = (es.foldl Mutexes.after m).after e := by
    rw [List.foldl_append, List.foldl_cons, List.foldl_nil]
  refine ⟨(Mutexes.disciplined_append _ _).2 ⟨h.disciplined, hallows, trivial⟩, ?_, ?_, ?_⟩
  · rw [hfold, hheld]
  · rwa [hfold]
  · rwa [hfold]

theorem lock (h : Now m es tree ∅) : Now m (es ++ [.mutex (.lock (some tree)) 0]) tree {tree} := by
  refine h.snoc ⟨tree, h.mem_nodes, rfl, h.mem_initialized⟩ ?_ h.mem_nodes h.mem_initialized
  simp [Mutexes.after, h.held_eq]

theorem lock_fails (h : Now m es tree held) (hr : r ≠ 0) :
    Now m (es ++ [.mutex (.lock (some tree)) r]) tree held := by
  have hafter (m : Mutexes) : m.after (.mutex (.lock (some tree)) r) = m := if_neg hr
  refine h.snoc ⟨tree, h.mem_nodes, rfl, h.mem_initialized⟩ ?_ ?_ ?_
  · rw [hafter, h.held_eq]
  · rw [hafter]
    exact h.mem_nodes
  · rw [hafter]
    exact h.mem_initialized

theorem unlock (h : Now m es tree {tree}) :
    Now m (es ++ [.mutex (.unlock (some tree)) 0]) tree ∅ := by
  refine h.snoc ⟨tree, ?_, rfl⟩ ?_ h.mem_nodes h.mem_initialized
  · rw [h.held_eq]
    exact Finset.mem_singleton_self tree
  · simp [Mutexes.after, h.held_eq]

theorem init (h : Now m es tree held) (r : ℤ) :
    Now m (es ++ [.mutex (.init (some tree)) r]) tree held := by
  by_cases hr : r = 0
  · subst hr
    exact h.snoc trivial h.held_eq h.mem_nodes (Finset.mem_insert_self _ _)
  · have hafter (m : Mutexes) : m.after (.mutex (.init (some tree)) r) = m := if_neg hr
    refine h.snoc trivial ?_ ?_ ?_
    · rw [hafter, h.held_eq]
    · rw [hafter]
      exact h.mem_nodes
    · rw [hafter]
      exact h.mem_initialized

theorem malloc (h : Now m es tree held) {p : Ptr} (hp : p ≠ some tree) :
    Now m (es ++ [.malloc p]) tree held := by
  cases p with
  | none => exact h.snoc trivial h.held_eq h.mem_nodes h.mem_initialized
  | some a =>
    have hne : tree ≠ a := fun hta => hp (hta ▸ rfl)
    exact h.snoc trivial h.held_eq (Finset.mem_insert_of_mem h.mem_nodes)
      (Finset.mem_erase_of_ne_of_mem hne h.mem_initialized)

/-- The caller may return when it holds nothing. -/
theorem keeps (h : Now m s.events tree ∅) (r : ℤ) : m.Keeps (.ok r s) := ⟨h.disciplined, h.held_eq⟩

end Now

theorem run_RET_CHECK_ne {r : ℤ} (hr : r ≠ 0) (rest : Code α ℤ) (s : Sys α) :
    (RET_CHECK r rest).run s = .ok (-1) { s with errno := r } := by
  rw [RET_CHECK, if_pos hr]
  rfl

/-- The unlock of a held mutex returns zero, and `malloc` returns no block that is in use. -/
structure Env.Sound (env : Env α) (m : Mutexes) : Prop where
  unlock : ∀ es a, a ∈ (es.foldl Mutexes.after m).held → env.mutex es (.unlock (some a)) = 0
  malloc : ∀ es h a, env.malloc es h = some a → a ∉ h

variable {tree : ℕ} {node : PtsbTree α}

theorem Env.Sound.unlock_eq (henv : env.Sound m) (h : Now m s.events tree {tree}) :
    env.mutex s.events (.unlock (some tree)) = 0 := by
  apply henv.unlock
  rw [h.held_eq]
  exact Finset.mem_singleton_self tree

/-- **The loop of `tsb_add`** keeps to the rules only if it ends at the root. -/
theorem keeps_addLoop_iff (henv : env.Sound m) (h : Now m s.events tree ∅)
    (hnode : s.heap.lookup tree = some node) {k : Key} (hk : node.key = some k)
    (hleft : node.left_ptsb ≠ some tree) (hright : node.right_ptsb ≠ some tree) (pnode : Ptr)
    (fuel : ℕ) :
    m.Keeps ((addLoop env key pnode (fuel + 1) (some tree)).run s) ↔
      env.mutex s.events (.lock (some tree)) ≠ 0 ∨ k = key := by
  rw [addLoop, run_bind_of_ok (run_call _ _ _)]
  by_cases hlock : env.mutex s.events (.lock (some tree)) = 0
  · have hnow := h.lock
    rw [hlock, RET_CHECK_zero]
    have hload := run_load (s := s.log (.mutex (.lock (some tree)) 0)) hnode
    rw [run_bind_of_ok hload]
    have hheld (p : Ptr) (hp : p ≠ some tree) :
        ∀ a ∈ ((s.log (.mutex (.lock (some tree)) 0)).events.foldl Mutexes.after m).held,
          p ≠ some a := by
      intro a ha
      rw [log_events, hnow.held_eq, Finset.mem_singleton] at ha
      exact ha ▸ hp
    by_cases hkey : k = key
    · have heq : keyCompare k key = .eq := hkey ▸ Std.ReflCmp.compare_self
      rw [run_compareKey_of_eq hk key heq, run_bind_of_ok (run_call _ _ _), henv.unlock_eq hnow,
        RET_CHECK_zero]
      exact iff_of_true (hnow.unlock.keeps 0) (Or.inr hkey)
    · refine iff_of_false ?_ (not_or.2 ⟨not_not.2 rfl, hkey⟩)
      -- the next node is unlocked in the place of the root
      cases hc : keyCompare k key with
      | gt =>
        rw [run_compareKey_of_gt hk key hc]
        exact not_keeps_next (hheld _ hleft) _ _ _ (grows_addLoop env key pnode fuel _)
      | lt =>
        rw [run_compareKey_of_lt hk key hc]
        exact not_keeps_next (hheld _ hright) _ _ _ (grows_addLoop env key pnode fuel _)
      | eq => exact absurd (Std.LawfulEqCmp.eq_of_compare hc) hkey
  · rw [run_RET_CHECK_ne hlock]
    exact iff_of_true ((h.lock_fails hlock).keeps (-1)) (Or.inl hlock)

/-- The log behind the set-up of the new node at `pnode`, where the mutex of `tree` is
initialized. -/
def setUp (es : List Event) (tree : ℕ) (pnode : Ptr) : List Event :=
  es ++ [.malloc pnode] ++ [.mutex (.init (some tree)) 0]

/-- The set-up of a new node behind the events `es`, or the lock of the root behind it, fails. -/
def SetUpFails (env : Env α) (es : List Event) (h : Heap (PtsbTree α)) (tree : ℕ) : Prop :=
  env.malloc es h = none ∨ env.mutex (es ++ [.malloc (env.malloc es h)]) (.init (some tree)) ≠ 0 ∨
    env.mutex (setUp es tree (env.malloc es h)) (.lock (some tree)) ≠ 0

/-- The part of `tsb_add` behind the root check. -/
theorem keeps_addNode_iff (henv : env.Sound m) (h : Now m s.events tree ∅)
    (hnode : s.heap.lookup tree = some node) {k : Key} (hk : node.key = some k)
    (hleft : node.left_ptsb ≠ some tree) (hright : node.right_ptsb ≠ some tree) (value : α) :
    m.Keeps ((addNode env tree key value).run s) ↔
      SetUpFails env s.events s.heap tree ∨ k = key := by
  rw [addNode, SetUpFails]
  cases hmalloc : env.malloc s.events s.heap with
  | none =>
    have hrun (node : PtsbTree α) : (mallocNode env node).run s =
        .ok none { s.log (.malloc none) with errno := ENOMEM } := by
      simp only [mallocNode, EStateM.run, hmalloc]
    rw [run_bind_of_ok (hrun _), if_pos rfl]
    have hnow : Now m (s.events ++ [.malloc none]) tree ∅ := h.malloc (by simp)
    exact iff_of_true (hnow.keeps (-1)) (Or.inl (Or.inl rfl))
  | some a =>
    have hne : tree ≠ a := by
      rintro rfl
      exact henv.malloc _ _ _ hmalloc (Finmap.mem_of_lookup_eq_some hnode)
    have hnow : Now m (s.events ++ [.malloc (some a)]) tree ∅ :=
      h.malloc fun ha => hne (Option.some.inj ha).symm
    rw [run_bind_of_ok (run_mallocNode hmalloc _), if_neg (Option.some_ne_none a),
      run_bind_of_ok (run_call _ _ _)]
    simp only [log_events]
    by_cases hinit : env.mutex (s.events ++ [.malloc (some a)]) (.init (some tree)) = 0
    · rw [hinit, RET_CHECK_zero, run_bind_of_ok (EStateM.run_get _), fuelOf,
        keeps_addLoop_iff henv (hnow.init 0) ?_ hk hleft hright, setUp]
      · simp
      · rw [log_heap]
        exact (Finmap.lookup_insert_of_ne _ hne).trans hnode
    · rw [run_RET_CHECK_ne hinit]
      exact iff_of_true ((hnow.init _).keeps (-1)) (Or.inl (Or.inr (Or.inl hinit)))

/-- The log behind the root check of a root that has a key. -/
def checked (es : List Event) (tree : ℕ) : List Event :=
  es ++ [.mutex (.lock (some tree)) 0] ++ [.mutex (.unlock (some tree)) 0]

/-- **`tsb_add` behind the check of its arguments.** -/
theorem keeps_checkRoot_iff (henv : env.Sound m) (h : Now m s.events tree ∅)
    (hnode : s.heap.lookup tree = some node) (hleft : node.left_ptsb ≠ some tree)
    (hright : node.right_ptsb ≠ some tree) (value : α) :
    m.Keeps ((checkRoot env tree key value).run s) ↔
      env.mutex s.events (.lock (some tree)) ≠ 0 ∨ node.key = none ∨ node.key = some key ∨
        SetUpFails env (checked s.events tree) s.heap tree := by
  rw [checkRoot, run_bind_of_ok (run_call _ _ _)]
  by_cases hlock : env.mutex s.events (.lock (some tree)) = 0
  · have hnow := h.lock
    have hload := run_load (s := s.log (.mutex (.lock (some tree)) 0)) hnode
    have hunlock := henv.unlock_eq (s := s.log (.mutex (.lock (some tree)) 0)) hnow
    rw [hlock, RET_CHECK_zero, run_bind_of_ok hload]
    cases hk : node.key with
    | none =>
      rw [if_pos rfl, run_bind_of_ok (run_store _ _ _), run_bind_of_ok (run_call _ _ _), hunlock,
        RET_CHECK_zero]
      exact iff_of_true (hnow.unlock.keeps 0) (Or.inr (Or.inl rfl))
    | some k =>
      rw [if_neg (Option.some_ne_none k), run_bind_of_ok (run_call _ _ _), hunlock, RET_CHECK_zero,
        keeps_addNode_iff (s := (s.log _).log _) henv hnow.unlock hnode hk hleft hright]
      simp only [log_events, log_heap, ne_eq, not_true_eq_false, false_or, reduceCtorEq,
        Option.some.injEq]
      exact or_comm
  · rw [run_RET_CHECK_ne hlock]
    exact iff_of_true ((h.lock_fails hlock).keeps (-1)) (Or.inl hlock)

/-! ## Every tree and key -/

/-- A node with the given members. -/
def ofFields (e : Option Key × α) (left_ptsb right_ptsb : Ptr) : PtsbTree α where
  key := e.1
  value := e.2
  left_ptsb := left_ptsb
  right_ptsb := right_ptsb

/-- A tree for a caller that holds nothing; the mutex of its root is initialized. -/
structure Ready (h : Heap (PtsbTree α)) (tree : Ptr) (m : Mutexes) : Prop where
  heapTree : ∃ t, HeapTree ofFields h t ∧ rootPtr t = tree
  nodes : m.nodes = h.keys
  initialized : ∀ a, tree = some a → a ∈ m.initialized
  held : m.held = ∅

/-- The call does not go on to a child of the root: an argument is `NULL`, the root has no key or
the given one, or the lock of the root or the set-up of a new node fails. -/
def StaysAtRoot (env : Env α) (h : Heap (PtsbTree α)) : Ptr → Option Key → Prop
  | some tree, some key =>
    env.mutex [] (.lock (some tree)) ≠ 0 ∨
      (∃ node, h.lookup tree = some node ∧ (node.key = none ∨ node.key = some key)) ∨
      SetUpFails env (checked [] tree) h tree
  | _, _ => True

/-- **The lock discipline of `tsb_add`** holds exactly as long as the call stays at the root. -/
theorem tsb_add_keeps_iff {h : Heap (PtsbTree α)} {tree : Ptr} (henv : env.Sound m)
    (hready : Ready h tree m) (key : Option Key) (value : α) (errno : ℤ) :
    m.Keeps ((tsb_add env tree key value).run ⟨h, errno, []⟩) ↔ StaysAtRoot env h tree key := by
  have hfail : m.Keeps ((fail EINVAL : Code α ℤ).run ⟨h, errno, []⟩) := ⟨trivial, hready.held⟩
  cases tree with
  | none => exact iff_of_true hfail trivial
  | some a =>
    cases key with
    | none => exact iff_of_true hfail trivial
    | some key =>
      obtain ⟨⟨t, ht, hroot⟩, hnodes, hinit, hheld⟩ := hready
      cases t with
      | nil => cases hroot
      | node x l r =>
        cases hroot
        obtain ⟨hleft, hright⟩ := ht.rootPtr_ne
        have hmem : x.1 ∈ m.nodes :=
          hnodes ▸ Finmap.mem_keys.2 (Finmap.mem_of_lookup_eq_some ht.cells.1)
        have hnow : Now m [] x.1 ∅ := ⟨trivial, hheld, hmem, hinit x.1 rfl⟩
        rw [tsb_add, keeps_checkRoot_iff henv hnow ht.cells.1 hleft hright, StaysAtRoot]
        simp [ht.cells.1, or_assoc]

/-- A root at the address 1 whose mutex is initialized. -/
def rootMutexes : Mutexes where
  nodes := {1}
  initialized := {1}
  held := ∅

theorem goodEnv_sound (m : Mutexes) : (goodEnv : Env α).Sound m where
  unlock _ _ _ := rfl
  malloc _ h a ha := by
    have heq : h.keys.sup id + 1 = a := Option.some.inj ha
    exact heq ▸ goodEnv_malloc_notMem h

theorem ready_rootOf (key : Option Key) : Ready (rootOf key).heap (some 1) rootMutexes where
  heapTree := by
    refine ⟨.node (1, (key, 0)) .nil .nil, ⟨⟨?_, trivial, trivial⟩, List.nodup_singleton 1⟩, rfl⟩
    exact lookup_rootOf key
  nodes := (Finmap.keys_singleton 1 _).symm
  initialized _ ha := Option.some.inj ha ▸ Finset.mem_singleton_self 1
  held := rfl

/-- A key that is in the root is added again. -/
theorem tsb_add_keeps_iff_root :
    rootMutexes.Keeps
      ((tsb_add goodEnv (some 1) (some keyB) 5).run ⟨(rootOf (some keyB)).heap, 0, []⟩) :=
  (tsb_add_keeps_iff (goodEnv_sound rootMutexes) (ready_rootOf (some keyB)) (some keyB) 5 0).2
    (Or.inr (Or.inl ⟨_, lookup_rootOf _, Or.inr rfl⟩))

/-- A second key is added: its node is linked in with an uninitialized mutex, and the mutex of a
null pointer is unlocked in the place of that of the root. -/
theorem second_key_breaks_discipline :
    (goodEnv : Env ℕ).Sound rootMutexes ∧ Ready (rootOf (some keyB)).heap (some 1) rootMutexes ∧
      ¬ rootMutexes.Keeps
        ((tsb_add goodEnv (some 1) (some keyA) 5).run ⟨(rootOf (some keyB)).heap, 0, []⟩) := by
  refine ⟨goodEnv_sound rootMutexes, ready_rootOf (some keyB), fun hkeeps => ?_⟩
  have hevents : (finalState ((tsb_add goodEnv (some 1) (some keyA) 5).run
      ⟨(rootOf (some keyB)).heap, 0, []⟩)).events =
      checked [] 1 ++ [.malloc (some 2), .mutex (.init (some 1)) 0, .mutex (.lock (some 1)) 0,
        .link (some 2), .mutex (.unlock none) 0] := by decide
  have hdisc := hkeeps.disciplined
  rw [hevents] at hdisc
  simp [checked, Mutexes.Disciplined, Mutexes.Allows, Mutexes.after, rootMutexes] at hdisc

end TlpiLearn.TsbMap
