import TlpiLearn.Threads.TsbTree
import Mathlib.Tactic

/-!
# Mutual exclusion in `tsb_add`

The first caller that locks the tree puts its key into the root and returns 0. Every other one
initializes the mutex of the root once more in front of its descent, also while another caller has
it locked. In every run in which that does not happen (`InitFree`), no two callers are inside one
node, and every key whose call has returned 0 is found (`exclusive_of_initFree`). There at most one
caller reaches the end of its descent; it has the root locked and unlocks the mutex at `NULL`.
Otherwise two callers change the root at a time (`init_breaks_exclusion`).
-/

namespace TlpiLearn.TsbTree

variable {ι α : Type*}

/-- No two callers are between locking and unlocking the mutex of one node. -/
def State.Exclusive (s : State ι α) : Prop :=
  ∀ n i j, s.holds i n = true → s.holds j n = true → i = j

/-- A caller initializes the mutex of the root only while nobody is between locking and unlocking
it. -/
def InitFree (s : State ι α) : Label ι → Prop
  | .step i => s.pc i = .init → ∀ j, s.holds j .root = false
  | _ => True

/-- The caller has the root locked. -/
def Pc.Inside : Pc ι → Prop
  | .checkRoot | .unlockFilled | .unlockChecked | .compare _ | .unlock _ | .unlockFound _ => True
  | _ => False

/-- The caller has put its key into the root. -/
def Pc.Filled : Pc ι → Prop
  | .unlockFilled => True
  | .returned r => r = 0
  | _ => False

/-- What is known of the caller at `pc` with the argument `key`, when `rootKey` is the key of the
root. -/
def Caller (rootKey key : Option Key) : Pc ι → Prop
  | .start => True
  | .lockRoot | .checkRoot => key ≠ none
  | .unlockFilled => key ≠ none ∧ rootKey = key
  | .unlockChecked | .malloc | .init => key ≠ none ∧ rootKey ≠ none
  | .loop tree => (key ≠ none ∧ rootKey ≠ none) ∧ tree = some .root
  | .compare tree => (key ≠ none ∧ rootKey ≠ none) ∧ tree = .root
  | .unlock tree => (key ≠ none ∧ rootKey ≠ none) ∧ tree = none
  | .unlockFound _ => False
  | .returned r => r = 0 → key ≠ none ∧ rootKey = key

/-- The invariant of the runs that meet the condition. -/
structure Inv (args : ι → Args α) (s : State ι α) : Prop where
  caller : ∀ i, Caller (s.fields .root).key (args i).key (s.pc i)
  holds : ∀ i n, s.holds i n = true ↔ n = .root ∧ (s.pc i).Inside
  unique : ∀ i j, (s.pc i).Inside → (s.pc j).Inside → i = j
  mutex : (s.mutex .root = .unlocked ∧ ∀ i, ¬ (s.pc i).Inside) ∨
    (s.mutex .root = .locked ∧ ∃ i, (s.pc i).Inside)
  filled : ∀ k, (s.fields .root).key = some k → ∃ i, (args i).key = some k ∧ (s.pc i).Filled
  leaf : (∃ i, s.pc i = .unlock none) ∨
    ((s.fields .root).left_ptsb = none ∧ (s.fields .root).right_ptsb = none)

variable {args : ι → Args α} {s s' : State ι α} {i : ι}

/-- What is known of a caller stays known when an empty root is filled. -/
theorem Caller.mono {rootKey rootKey' key : Option Key} {pc : Pc ι} (h : Caller rootKey key pc)
    (hroot : rootKey ≠ none → rootKey' = rootKey) : Caller rootKey' key pc := by
  have hne : rootKey ≠ none → rootKey' ≠ none := fun h => (hroot h).symm ▸ h
  have heq : key ≠ none ∧ rootKey = key → key ≠ none ∧ rootKey' = key := by
    rintro ⟨hkey, rfl⟩
    exact ⟨hkey, hroot hkey⟩
  cases pc with
  | start => trivial
  | lockRoot | checkRoot => exact h
  | unlockFilled => exact heq h
  | unlockChecked | malloc | init => exact ⟨h.1, hne h.2⟩
  | loop | compare | unlock => exact ⟨⟨h.1.1, hne h.1.2⟩, h.2⟩
  | unlockFound => exact h
  | returned r => exact fun hr => heq (h hr)

/-- A caller inside the root has locked it, and is the only one. -/
theorem Inv.locked (hs : Inv args s) (hin : (s.pc i).Inside) :
    s.mutex .root = .locked ∧ ∀ j, (s.pc j).Inside ↔ j = i := by
  obtain ⟨-, hout⟩ | ⟨hlocked, -⟩ := hs.mutex
  · exact absurd hin (hout i)
  · refine ⟨hlocked, fun j => ⟨fun hj => hs.unique j i hj hin, ?_⟩⟩
    rintro rfl
    exact hin

variable [DecidableEq ι]

theorem inv_init : Inv args (init : State ι α) where
  caller _ := trivial
  holds i n := iff_of_false Bool.false_ne_true fun h => h.2
  unique _ _ h := h.elim
  mutex := .inl ⟨by simp [init], fun _ h => h⟩
  filled := nofun
  leaf := .inr ⟨rfl, rfl⟩

/-! ## The program points after a step -/

theorem inside_update {pc : Pc ι} {j : ι} :
    (Function.update s.pc i pc j).Inside ↔ (j = i ∧ pc.Inside) ∨ (j ≠ i ∧ (s.pc j).Inside) := by
  by_cases hj : j = i
  · subst hj
    rw [Function.update_self]
    simp
  · rw [Function.update_of_ne hj]
    simp [hj]

theorem caller_update {pc : Pc ι} {rootKey : Option Key}
    (hs : ∀ j, Caller (s.fields .root).key (args j).key (s.pc j))
    (hroot : (s.fields .root).key ≠ none → rootKey = (s.fields .root).key)
    (hpc : Caller rootKey (args i).key pc) (j : ι) :
    Caller rootKey (args j).key (Function.update s.pc i pc j) := by
  by_cases hj : j = i
  · subst hj
    rwa [Function.update_self]
  · rw [Function.update_of_ne hj]
    exact (hs j).mono hroot

/-- The caller that has filled the root goes on as one. -/
theorem filled_update {pc : Pc ι} {k : Key}
    (hs : ∃ j, (args j).key = some k ∧ (s.pc j).Filled) (hpc : (s.pc i).Filled → pc.Filled) :
    ∃ j, (args j).key = some k ∧ (Function.update s.pc i pc j).Filled := by
  obtain ⟨j, hkey, hfilled⟩ := hs
  refine ⟨j, hkey, ?_⟩
  by_cases hj : j = i
  · subst hj
    rw [Function.update_self]
    exact hpc hfilled
  · rwa [Function.update_of_ne hj]

/-- While the root is a leaf, its caller leaves it one by any step to another point. -/
theorem leaf_update {pc : Pc ι} (hs : Inv args s) (hne : s.pc i ≠ .unlock none) :
    (∃ j, Function.update s.pc i pc j = .unlock none) ∨
      ((s.fields .root).left_ptsb = none ∧ (s.fields .root).right_ptsb = none) := by
  obtain ⟨j, hj⟩ | hleaf := hs.leaf
  · have hji : j ≠ i := by
      rintro rfl
      exact hne hj
    exact .inl ⟨j, (Function.update_of_ne hji ..).trans hj⟩
  · exact .inr hleaf

/-! ## Steps -/

/-- A step outside the root that does not touch it. -/
theorem Inv.goto (hs : Inv args s) {pc : Pc ι} (hout : ¬ (s.pc i).Inside) (hout' : ¬ pc.Inside)
    (hfilled : (s.pc i).Filled → pc.Filled)
    (hcaller : Caller (s.fields .root).key (args i).key pc) : Inv args (s.goto i pc) := by
  have hinside : ∀ j, (Function.update s.pc i pc j).Inside ↔ (s.pc j).Inside := by
    intro j
    rw [inside_update]
    by_cases hj : j = i
    · subst hj
      simp [hout, hout']
    · simp [hj]
  refine ⟨caller_update hs.caller (fun _ => rfl) hcaller, ?_, ?_, ?_, ?_, ?_⟩
  · intro j n
    exact (hs.holds j n).trans (and_congr_right fun _ => (hinside j).symm)
  · intro j k hj hk
    exact hs.unique j k ((hinside j).1 hj) ((hinside k).1 hk)
  · obtain ⟨hmutex, hnone⟩ | ⟨hmutex, j, hj⟩ := hs.mutex
    · exact .inl ⟨hmutex, fun j hj => hnone j ((hinside j).1 hj)⟩
    · exact .inr ⟨hmutex, j, (hinside j).2 hj⟩
  · intro k hk
    exact filled_update (hs.filled k hk) hfilled
  · refine leaf_update hs fun h => ?_
    rw [h] at hout
    exact hout trivial

/-- A caller locks the root. -/
theorem Inv.lock (hs : Inv args s) {pc : Pc ι} (h : s.lock i .root pc = some s')
    (hout : ¬ (s.pc i).Inside) (hin : pc.Inside) (hfilled : ¬ (s.pc i).Filled)
    (hcaller : Caller (s.fields .root).key (args i).key pc) : Inv args s' := by
  unfold State.lock at h
  obtain ⟨hmutex, hnone⟩ | ⟨hmutex, -⟩ := hs.mutex
  · rw [hmutex] at h
    obtain rfl := Option.some.inj h
    have hinside : ∀ j, (Function.update s.pc i pc j).Inside ↔ j = i := by
      intro j
      rw [inside_update]
      simp [hin, hnone]
    refine ⟨caller_update hs.caller (fun _ => rfl) hcaller, ?_, ?_, ?_, ?_, ?_⟩
    · intro j n
      refine Iff.trans ?_ (and_congr_right fun _ => (hinside j).symm)
      change Function.update s.holds i (Function.update (s.holds i) .root true) j n = true ↔ _
      have hfree : ∀ j n, s.holds j n = false := fun j n => by
        rw [Bool.eq_false_iff, ne_eq, hs.holds]
        exact fun h => hnone j h.2
      by_cases hj : j = i
      · subst hj
        rw [Function.update_self]
        by_cases hn : n = .root
        · subst hn
          simp
        · rw [Function.update_of_ne hn]
          simp [hn, hfree]
      · rw [Function.update_of_ne hj]
        simp [hj, hfree]
    · intro j k hj hk
      rw [(hinside j).1 hj, (hinside k).1 hk]
    · exact .inr ⟨Function.update_self .root Mutex.locked s.mutex, i, (hinside i).2 rfl⟩
    · intro k hk
      exact filled_update (hs.filled k hk) fun h => absurd h hfilled
    · refine leaf_update hs fun h => ?_
      rw [h] at hout
      exact hout trivial
  · rw [hmutex] at h
    cases h

/-- The caller inside the root unlocks it. -/
theorem Inv.unlock (hs : Inv args s) {pc : Pc ι} (hin : (s.pc i).Inside) (hout : ¬ pc.Inside)
    (hfilled : (s.pc i).Filled → pc.Filled) (hne : s.pc i ≠ .unlock none)
    (hcaller : Caller (s.fields .root).key (args i).key pc) :
    Inv args (s.unlock i (some .root) pc) := by
  obtain ⟨hlocked, honly⟩ := hs.locked hin
  have hnone : ∀ j, ¬ (Function.update s.pc i pc j).Inside := by
    intro j
    rw [inside_update, honly]
    rintro (⟨-, h⟩ | ⟨hne, h⟩)
    · exact hout h
    · exact hne h
  unfold State.unlock
  dsimp only
  rw [if_neg (by rw [hlocked]; nofun)]
  refine ⟨caller_update hs.caller (fun _ => rfl) hcaller, ?_, ?_, ?_, ?_, ?_⟩
  · intro j n
    refine iff_of_false ?_ fun h => hnone j h.2
    change ¬ Function.update s.holds i (Function.update (s.holds i) .root false) j n = true
    by_cases hj : j = i
    · subst hj
      rw [Function.update_self]
      by_cases hn : n = .root
      · subst hn
        simp
      · rw [Function.update_of_ne hn, hs.holds]
        simp [hn]
    · rw [Function.update_of_ne hj, hs.holds, honly]
      simp [hj]
  · intro j k hj
    exact absurd hj (hnone j)
  · exact .inl ⟨Function.update_self .root Mutex.unlocked s.mutex, hnone⟩
  · intro k hk
    exact filled_update (hs.filled k hk) hfilled
  · exact leaf_update hs hne

/-- The caller inside the root changes its fields. -/
theorem Inv.change (hs : Inv args s) (pc : Pc ι) (hin : (s.pc i).Inside) (hin' : pc.Inside)
    {fields : Node ι → Fields ι α}
    (hroot : (s.fields .root).key ≠ none → (fields .root).key = (s.fields .root).key)
    (hcaller : Caller (fields .root).key (args i).key pc)
    (hfilled : ∀ k, (fields .root).key = some k →
      ∃ j, (args j).key = some k ∧ (Function.update s.pc i pc j).Filled)
    (hleaf : (∃ j, Function.update s.pc i pc j = .unlock none) ∨
      ((fields .root).left_ptsb = none ∧ (fields .root).right_ptsb = none)) :
    Inv args { s.goto i pc with fields := fields } := by
  obtain ⟨hlocked, honly⟩ := hs.locked hin
  have hinside : ∀ j, (Function.update s.pc i pc j).Inside ↔ (s.pc j).Inside := by
    intro j
    rw [inside_update, honly]
    by_cases hj : j = i
    · simp [hj, hin']
    · simp [hj]
  refine ⟨caller_update hs.caller hroot hcaller, ?_, ?_, ?_, hfilled, hleaf⟩
  · intro j n
    exact (hs.holds j n).trans (and_congr_right fun _ => (hinside j).symm)
  · intro j k hj hk
    exact hs.unique j k ((hinside j).1 hj) ((hinside k).1 hk)
  · exact .inr ⟨hlocked, i, (hinside i).2 hin⟩

theorem Inv.checkRoot (hs : Inv args s) (hpc : s.pc i = .checkRoot) :
    Inv args (checkRoot (args i) s i) := by
  have hin : (s.pc i).Inside := hpc ▸ trivial
  have hcaller := hs.caller i
  rw [hpc] at hcaller
  have hleaf : ∀ pc, (∃ j, Function.update s.pc i pc j = .unlock none) ∨
      ((s.fields .root).left_ptsb = none ∧ (s.fields .root).right_ptsb = none) :=
    fun pc => leaf_update hs (by rw [hpc]; nofun)
  unfold TsbTree.checkRoot
  split_ifs with hkey
  · have hroot : (Function.update s.fields .root
        { s.fields .root with key := (args i).key, value := some (args i).value }) .root =
        { s.fields .root with key := (args i).key, value := some (args i).value } :=
      Function.update_self ..
    refine hs.change .unlockFilled hin trivial (fun h => absurd hkey h) ?_ ?_ ?_
    · rw [hroot]
      exact ⟨hcaller, rfl⟩
    · intro k hk
      rw [hroot] at hk
      exact ⟨i, hk, by rw [Function.update_self]; trivial⟩
    · rw [hroot]
      exact hleaf _
  · refine hs.change .unlockChecked hin trivial (fun _ => rfl) ⟨hcaller, hkey⟩ ?_ (hleaf _)
    intro k hk
    refine filled_update (hs.filled k hk) fun h => ?_
    rw [hpc] at h
    exact h.elim

theorem Inv.malloc (hs : Inv args s) (hpc : s.pc i = .malloc) :
    Inv args (malloc (args i) s i) := by
  have hcaller := hs.caller i
  rw [hpc] at hcaller
  have hgoto : Inv args (s.goto i .init) :=
    hs.goto (by rw [hpc]; exact id) id (by rw [hpc]; exact id) hcaller
  -- The new node is not the root.
  unfold TsbTree.malloc
  set fields := Function.update s.fields (.pnode i)
    { key := (args i).key, value := some (args i).value, left_ptsb := none, right_ptsb := none }
  have hroot : fields .root = s.fields .root := Function.update_of_ne (by nofun) ..
  refine ⟨?_, hgoto.holds, hgoto.unique, hgoto.mutex, ?_, ?_⟩
  · change ∀ j, Caller (fields .root).key (args j).key _
    rw [hroot]
    exact hgoto.caller
  · change ∀ k, (fields .root).key = some k → _
    rw [hroot]
    exact hgoto.filled
  · change _ ∨ ((fields .root).left_ptsb = none ∧ (fields .root).right_ptsb = none)
    rw [hroot]
    exact hgoto.leaf

omit [DecidableEq ι] in
/-- The key of the root is another one than the key of a caller that descends. -/
theorem Inv.strcmp_ne (hs : Inv args s)
    (hdistinct : ∀ i j k, (args i).key = some k → (args j).key = some k → i = j) {k key : Key}
    (hk : (s.fields .root).key = some k) (hkey : (args i).key = some key)
    (hpc : ¬ (s.pc i).Filled) : ∃ z, strcmp (k.1 ++ [0]) key.1 = some z ∧ z ≠ 0 := by
  obtain ⟨z, hz, hiff⟩ :
      ∃ z, strcmp (k.1 ++ [0]) key.1 = some z ∧ (z = 0 ↔ cstr (k.1 ++ [0]) = key.1) :=
    strcmp_eq (by simp) fun b hb h => key.2 (h ▸ hb)
  refine ⟨z, hz, fun hzero => ?_⟩
  have heq := hiff.1 hzero
  rw [cstr_append_zero, cstr_eq_self k.2] at heq
  obtain ⟨j, hj, hfilled⟩ := hs.filled k hk
  obtain rfl := hdistinct i j key hkey (hj.trans (congrArg some (Subtype.ext heq)))
  exact hpc hfilled

/-- A comparison at the root attaches the new node to it. -/
theorem Inv.compare (hs : Inv args s)
    (hdistinct : ∀ i j k, (args i).key = some k → (args j).key = some k → i = j)
    (hpc : s.pc i = .compare .root) : Inv args (compare (args i) s i .root) := by
  have hin : (s.pc i).Inside := hpc ▸ trivial
  have hcaller := hs.caller i
  rw [hpc] at hcaller
  obtain ⟨⟨hkey, hroot⟩, -⟩ := hcaller
  obtain ⟨key, hkey⟩ := Option.ne_none_iff_exists'.1 hkey
  obtain ⟨k, hk⟩ := Option.ne_none_iff_exists'.1 hroot
  have hnot : ¬ (s.pc i).Filled := by
    rw [hpc]
    exact id
  obtain ⟨z, hz, hne⟩ := hs.strcmp_ne hdistinct hk hkey hnot
  obtain ⟨hleft, hright⟩ : (s.fields .root).left_ptsb = none ∧
      (s.fields .root).right_ptsb = none := by
    refine hs.leaf.resolve_left ?_
    rintro ⟨j, hj⟩
    obtain rfl := ((hs.locked hin).2 j).1 (hj ▸ trivial)
    rw [hpc] at hj
    cases hj
  have hattach : ∀ node : Fields ι α, node.key = (s.fields .root).key →
      Inv args { s.goto i (.unlock none) with
        fields := Function.update s.fields .root node } := by
    intro node hnode
    have hself : Function.update s.fields .root node .root = node := Function.update_self ..
    refine hs.change (.unlock none) hin trivial ?_ ?_ ?_ (.inl ⟨i, Function.update_self ..⟩)
    · intro
      rw [hself, hnode]
    · rw [hself, hnode, hk, hkey]
      exact ⟨⟨nofun, nofun⟩, rfl⟩
    · intro k' hk'
      rw [hself, hnode] at hk'
      exact filled_update (hs.filled k' hk') fun h => absurd h hnot
  unfold TsbTree.compare
  simp only [hk, hkey, hz, hleft, hright, if_true]
  split_ifs with hpos hneg
  · exact hattach _ hk.symm
  · exact hattach _ hk.symm
  · omega

omit [DecidableEq ι] in
theorem Inv.crash (hs : Inv args s) : Inv args s.crash :=
  ⟨hs.caller, hs.holds, hs.unique, hs.mutex, hs.filled, hs.leaf⟩

omit [DecidableEq ι] in
/-- When nobody holds the mutex of the root, it is unlocked and nobody is inside. -/
theorem Inv.unlocked_of_free (hs : Inv args s) (hfree : ∀ j, s.holds j .root = false) :
    (∀ j, ¬ (s.pc j).Inside) ∧ s.mutex .root = .unlocked := by
  have hnone : ∀ j, ¬ (s.pc j).Inside := by
    intro j hj
    have hholds := (hs.holds j .root).2 ⟨rfl, hj⟩
    rw [hfree j] at hholds
    cases hholds
  obtain ⟨hmutex, -⟩ | ⟨-, j, hj⟩ := hs.mutex
  · exact ⟨hnone, hmutex⟩
  · exact absurd hj (hnone j)

/-- **Every step** that meets the condition keeps the invariant. -/
theorem Inv.step (hs : Inv args s)
    (hdistinct : ∀ i j k, (args i).key = some k → (args j).key = some k → i = j) {l : Label ι}
    (hfree : InitFree s l) (h : step args s l = some s') : Inv args s' := by
  unfold TsbTree.step at h
  simp only [Option.ite_none_left_eq_some] at h
  obtain ⟨-, h⟩ := h
  cases l with
  | step i =>
    have hcaller := hs.caller i
    simp only [tsb_add] at h
    cases hpc : s.pc i <;> rw [hpc] at h hcaller
    case start =>
      obtain rfl := Option.some.inj h
      have hout : ¬ (s.pc i).Inside := by rw [hpc]; exact id
      have hfilled : ¬ (s.pc i).Filled := by rw [hpc]; exact id
      by_cases hkey : (args i).key = none
      · rw [if_pos hkey]
        exact hs.goto hout id (fun h => absurd h hfilled) fun h => absurd h (by decide)
      · rw [if_neg hkey]
        exact hs.goto hout id (fun h => absurd h hfilled) hkey
    case lockRoot =>
      have hlock : s.lock i .root .checkRoot = some s' := h
      refine hs.lock hlock ?_ ?_ ?_ hcaller
      · rw [hpc]
        exact id
      · trivial
      · rw [hpc]
        exact id
    case checkRoot =>
      obtain rfl := Option.some.inj h
      exact hs.checkRoot hpc
    case unlockFilled =>
      obtain rfl := Option.some.inj h
      exact hs.unlock (hpc ▸ trivial) id (fun _ => rfl) (by rw [hpc]; nofun) fun _ => hcaller
    case unlockChecked =>
      obtain rfl := Option.some.inj h
      exact hs.unlock (hpc ▸ trivial) id (by rw [hpc]; exact id) (by rw [hpc]; nofun) hcaller
    case malloc =>
      obtain rfl := Option.some.inj h
      exact hs.malloc hpc
    case init =>
      obtain rfl := Option.some.inj h
      obtain ⟨hnone, hmutex⟩ := hs.unlocked_of_free (hfree hpc)
      have hupdate : Function.update s.mutex .root .unlocked = s.mutex := by
        rw [← hmutex, Function.update_eq_self]
      have hgoto : Inv args (s.goto i (.loop (some .root))) :=
        hs.goto (hnone i) id (by rw [hpc]; exact id) ⟨hcaller, rfl⟩
      rw [hupdate]
      exact hgoto
    case loop tree =>
      obtain ⟨hkeys, rfl⟩ := hcaller
      have hlock : s.lock i .root (.compare .root) = some s' := h
      refine hs.lock hlock ?_ ?_ ?_ ⟨hkeys, rfl⟩
      · rw [hpc]
        exact id
      · trivial
      · rw [hpc]
        exact id
    case compare tree =>
      obtain ⟨-, rfl⟩ := hcaller
      obtain rfl := Option.some.inj h
      exact hs.compare hdistinct hpc
    case unlock tree =>
      obtain ⟨-, rfl⟩ := hcaller
      obtain rfl := Option.some.inj h
      exact hs.crash
    case unlockFound tree => exact hcaller.elim
    case returned r => cases h
  | mallocFails i =>
    simp only [Option.ite_none_right_eq_some, Option.some.injEq] at h
    obtain ⟨hpc, rfl⟩ := h
    exact hs.goto (by rw [hpc]; exact id) id (by rw [hpc]; exact False.elim)
      fun h => absurd h (by decide)
  | initFails i =>
    simp only [Option.ite_none_right_eq_some, Option.some.injEq] at h
    obtain ⟨hpc, rfl⟩ := h
    exact hs.goto (by rw [hpc]; exact id) id (by rw [hpc]; exact False.elim)
      fun h => absurd h (by decide)

/-- A caller that initializes the mutex of the root while another one has it locked can lock it
next. -/
theorem exists_lock_of_init (hs : Inv args s) (hpc : s.pc i = .init) {j : ι}
    (hj : s.holds j .root = true) (h : step args s (.step i) = some s') :
    ∃ s'', step args s' (.step i) = some s'' ∧ ¬ s''.Exclusive := by
  have hne : i ≠ j := by
    rintro rfl
    have hin := ((hs.holds i .root).1 hj).2
    rw [hpc] at hin
    exact hin
  unfold TsbTree.step at h
  simp only [Option.ite_none_left_eq_some, tsb_add, hpc, Option.some.injEq] at h
  obtain ⟨hcrashed, rfl⟩ := h
  set s₁ : State ι α :=
    { s.goto i (.loop (some .root)) with mutex := Function.update s.mutex .root .unlocked }
  have hpc₁ : s₁.pc i = .loop (some .root) := Function.update_self ..
  have hmutex₁ : s₁.mutex .root = .unlocked :=
    Function.update_self .root Mutex.unlocked s.mutex
  refine ⟨{ s₁.goto i (.compare .root) with
    mutex := Function.update s₁.mutex .root .locked
    holds := Function.update s₁.holds i (Function.update (s₁.holds i) .root true) }, ?_, ?_⟩
  · have hcrashed₁ : ¬ s₁.crashed = true := hcrashed
    unfold TsbTree.step
    rw [if_neg hcrashed₁]
    dsimp only [tsb_add]
    rw [hpc₁]
    dsimp only [State.lock]
    rw [hmutex₁]
  · intro h
    refine hne (h .root i j ?_ ?_)
    · change Function.update s.holds i (Function.update (s.holds i) .root true) i .root = true
      rw [Function.update_self, Function.update_self]
    · change Function.update s.holds i (Function.update (s.holds i) .root true) j .root = true
      rw [Function.update_of_ne (Ne.symm hne)]
      exact hj

/-- **Mutual exclusion and no lost keys** for callers with distinct keys, in every run in which
nobody initializes the mutex of the root while a caller is between locking and unlocking it. A step
of such a run that would do so can be followed by one that breaks the exclusion. -/
theorem exclusive_of_initFree
    (hdistinct : ∀ i j k, (args i).key = some k → (args j).key = some k → i = j)
    (h : (machine args).ReachableBy InitFree s) :
    s.Exclusive ∧
      (∀ i, s.pc i = .returned 0 → ∃ key n, (args i).key = some key ∧ s.Visits key n ∧
        (s.fields n).key = some key) ∧
      ∀ l s', ¬ InitFree s l → step args s l = some s' →
        ∃ l' s'', step args s' l' = some s'' ∧ ¬ s''.Exclusive := by
  have hs : Inv args s :=
    h.invariant inv_init fun _ _ _ hs hfree hst => hs.step hdistinct hfree hst
  refine ⟨?_, ?_, ?_⟩
  · intro n i j hi hj
    exact hs.unique i j ((hs.holds i n).1 hi).2 ((hs.holds j n).1 hj).2
  · intro i hpc
    have hcaller := hs.caller i
    rw [hpc] at hcaller
    obtain ⟨hkey, hroot⟩ := hcaller rfl
    obtain ⟨key, hkey⟩ := Option.ne_none_iff_exists'.1 hkey
    exact ⟨key, .root, hkey, .root, hroot.trans hkey⟩
  · intro l s' hnot hst
    cases l with
    | step i =>
      simp only [InitFree, Classical.not_imp, not_forall, Bool.not_eq_false] at hnot
      obtain ⟨hpc, j, hj⟩ := hnot
      obtain ⟨s'', hst', hbroken⟩ := exists_lock_of_init hs hpc hj hst
      exact ⟨_, s'', hst', hbroken⟩
    | mallocFails | initFails => exact absurd trivial hnot

instance [Fintype ι] (s : State ι α) : (l : Label ι) → Decidable (InitFree s l)
  | .step i => inferInstanceAs (Decidable (s.pc i = .init → ∀ j, s.holds j .root = false))
  | .mallocFails _ | .initFails _ => isTrue trivial

/-- Three callers with the keys `m`, `c` and `t`. -/
def letters : Fin 3 → Args Unit
  | 0 => ⟨some ⟨[109], by decide⟩, ()⟩
  | 1 => ⟨some ⟨[99], by decide⟩, ()⟩
  | 2 => ⟨some ⟨[116], by decide⟩, ()⟩

theorem letters_distinct (i j : Fin 3) (k : Key) (hi : (letters i).key = some k)
    (hj : (letters j).key = some k) : i = j := by
  have hinj : ∀ i j : Fin 3, (letters i).key = (letters j).key → i = j := by decide
  exact hinj i j (hi.trans hj.symm)

/-- The first caller fills the root, and the second one attaches its node to it. -/
def attachRun : List (Label (Fin 3)) := List.replicate 4 (.step 0) ++ List.replicate 8 (.step 1)

theorem exclusive_of_initFree_attached :
    ∃ s, (machine letters).run init attachRun = some s ∧ s.pc 0 = .returned 0 ∧
      s.pc 1 = .unlock none ∧ (s.fields .root).left_ptsb = some (.pnode 1) ∧ s.Exclusive ∧
      ∃ key n, (letters 0).key = some key ∧ s.Visits key n ∧ (s.fields n).key = some key := by
  obtain ⟨s, hrun, hpc₀, hpc₁, hleft⟩ :
      ∃ s, ((machine letters).restrict InitFree).run init attachRun = some s ∧
        s.pc 0 = .returned 0 ∧ s.pc 1 = .unlock none ∧
        (s.fields .root).left_ptsb = some (.pnode 1) := ⟨_, rfl, rfl, rfl, rfl⟩
  have hreach : (machine letters).ReachableBy InitFree s :=
    .of_restrict (.run .init attachRun hrun)
  exact ⟨s, Machine.run_of_restrict hrun, hpc₀, hpc₁, hleft,
    (exclusive_of_initFree letters_distinct hreach).1,
    (exclusive_of_initFree letters_distinct hreach).2.1 0 hpc₀⟩

/-- Two callers have seen a root that is not empty. The second one locks it in its descent, then the
third one initializes its mutex and locks it too. -/
def initRun : List (Label (Fin 3)) :=
  List.replicate 4 (Label.step 0) ++ List.replicate 5 (Label.step 1) ++
    List.replicate 5 (Label.step 2) ++ [.step 1, .step 1, .step 2, .step 2]

theorem init_breaks_exclusion :
    ∃ s, (machine letters).run init initRun = some s ∧ s.pc 1 = .compare .root ∧
      s.pc 2 = .compare .root ∧ s.holds 1 .root = true ∧ s.holds 2 .root = true ∧
      ¬ s.Exclusive := by
  refine ⟨_, rfl, rfl, rfl, rfl, rfl, ?_⟩
  intro h
  exact absurd (h .root 1 2 rfl rfl) (by decide)

end TlpiLearn.TsbTree
