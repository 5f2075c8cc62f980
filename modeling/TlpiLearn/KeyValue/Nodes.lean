import TlpiLearn.Foundations.InsertionMap
import TlpiLearn.KeyValue.Kv
import Mathlib.Tactic

/-!
# The nodes of the key-value list

What the list stores behind its head node is a map in insertion order (`Nodes`), as long as every
key and every value is shorter than its field. The words of a call may be of any length. Each
traversal walks over the nodes whose key is not the one looked for (`addLoop_skip`,
`deleteLoop_skip`, `changeLoop_skip`); where it stops decides what the call does, and the edits of
`SList` give the list afterwards. The empty word is the key of the head node: `change_kv` finds it
there (`Nodes.changeKv_nil`).
-/

namespace TlpiLearn.KeyValue

/-- The key and the value of a node. -/
def KvDsa.entry (v : KvDsa) : List UInt8 × List UInt8 := (cstr v.key, cstr v.value)

theorem KvDsa.keyIs_eq {v : KvDsa} (hv : v.entry.1.length < MAXBUF) {k : List UInt8}
    (hk : ∀ b ∈ k, b ≠ 0) : v.keyIs k = .ok (decide (v.entry.1 = k)) := by
  have hzero : 0 ∈ v.key := zero_mem_of_length_lt (by rwa [v.length_key])
  obtain ⟨z, hz, hiff⟩ := strcmp_eq (List.mem_append_left v.value hzero) hk
  rw [cstr_append hzero] at hiff
  unfold KvDsa.keyIs
  simp only [hz, hiff]
  rfl

/-! ## The traversals -/

/-- A node that a search for `k` passes. -/
structure KvDsa.Skips (v : KvDsa) (k : List UInt8) : Prop where
  length_lt : v.entry.1.length < MAXBUF
  ne : v.entry.1 ≠ k

theorem load_eq {h : Heap KvDsa} {a : ℕ} {v : KvDsa} (hv : h.lookup a = some v) :
    load h (some a) = .ok v := by
  simp only [load, hv]

section Loops

variable {h : Heap KvDsa} {p r : Ptr} {k : List UInt8} {l : List (ℕ × KvDsa)} {b : ℕ} {w : KvDsa}

theorem KvDsa.Skips.keyIs {v : KvDsa} (hv : v.Skips k) (hk : ∀ b ∈ k, b ≠ 0) :
    v.keyIs k = .ok false := by
  rw [KvDsa.keyIs_eq hv.length_lt hk, decide_eq_false hv.ne]

theorem changeLoop_skip (value : List UInt8) (hk : ∀ b ∈ k, b ≠ 0) (hl : Seg KvDsa.next h p l r)
    (hskip : ∀ x ∈ l, x.2.Skips k) (fuel : ℕ) :
    changeLoop k value (l.length + fuel) h p = changeLoop k value fuel h r := by
  induction l generalizing p with
  | nil =>
    cases hl
    rw [List.length_nil, Nat.zero_add]
  | cons x l ih =>
    obtain ⟨a, v⟩ := x
    obtain ⟨rfl, hv, hrest⟩ := hl
    have hkey := (hskip _ List.mem_cons_self).keyIs hk
    rw [List.length_cons, Nat.add_right_comm, changeLoop, load_eq hv]
    simp only [bind, Except.bind, hkey]
    exact ih hrest fun x hx => hskip x (List.mem_cons_of_mem _ hx)

theorem deleteLoop_skip (hk : ∀ b ∈ k, b ≠ 0) (hl : Seg KvDsa.next h p (l ++ [(b, w)]) r)
    (hskip : ∀ x ∈ l ++ [(b, w)], x.2.Skips k) (pre : Ptr) (fuel : ℕ) :
    deleteLoop k ((l ++ [(b, w)]).length + fuel) h p pre = deleteLoop k fuel h r (some b) := by
  induction l generalizing p pre with
  | nil =>
    obtain ⟨rfl, hw, rfl⟩ := hl
    have hkey := (hskip _ List.mem_cons_self).keyIs hk
    rw [List.nil_append, List.length_singleton, Nat.add_comm, deleteLoop, load_eq hw]
    simp only [bind, Except.bind, hkey]
    rfl
  | cons x l ih =>
    obtain ⟨a, v⟩ := x
    obtain ⟨rfl, hv, hrest⟩ := hl
    have hkey := (hskip _ List.mem_cons_self).keyIs hk
    rw [List.cons_append, List.length_cons, Nat.add_right_comm, deleteLoop, load_eq hv]
    simp only [bind, Except.bind, hkey]
    exact ih hrest (fun x hx => hskip x (List.mem_cons_of_mem _ hx)) (some a)

theorem addLoop_skip (malloc : Malloc) (value : List UInt8) (hk : ∀ b ∈ k, b ≠ 0) {a : ℕ}
    (hl : Seg KvDsa.next h (some a) (l ++ [(b, w)]) r)
    (hskip : ∀ x ∈ (l ++ [(b, w)]).tail, x.2.Skips k) (fuel : ℕ) :
    addLoop malloc k value (l.length + fuel) h a = addLoop malloc k value fuel h b := by
  induction l generalizing a with
  | nil =>
    obtain ⟨hab, -⟩ := hl
    rw [List.length_nil, Nat.zero_add, Option.some.inj hab]
  | cons x l ih =>
    obtain ⟨c, v⟩ := x
    obtain ⟨hac, hv, hrest⟩ := hl
    obtain rfl := Option.some.inj hac
    -- the node that is compared is the first of the rest
    obtain ⟨⟨q, u⟩, rest, hcons⟩ := List.exists_cons_of_ne_nil
      (show l ++ [(b, w)] ≠ [] by simp)
    rw [List.cons_append, List.tail_cons] at hskip
    have hu : v.next = some q ∧ h.lookup q = some u := by
      have hseg : Seg KvDsa.next h v.next ((q, u) :: rest) r := hcons ▸ hrest
      exact ⟨hseg.1, hseg.2.1⟩
    have hkey := (hskip (q, u) (hcons ▸ List.mem_cons_self)).keyIs hk
    rw [hu.1] at hrest
    rw [List.length_cons, Nat.add_right_comm, addLoop, load_eq hv]
    simp only [bind, Except.bind, hu.1, load_eq hu.2, hkey]
    exact ih hrest fun x hx => hskip x (List.mem_of_mem_tail hx)

end Loops

/-- The nodes from a pointer on. -/
def nodesFrom : ℕ → Heap KvDsa → Ptr → List KvDsa
  | 0, _, _ => []
  | _ + 1, _, none => []
  | fuel + 1, h, some a =>
    match h.lookup a with
    | none => []
    | some v => v :: nodesFrom fuel h v.next

/-- The nodes of a list. -/
def nodesOf (h : Heap KvDsa) (kv : Ptr) : List KvDsa := nodesFrom (fuelOf h) h kv

theorem nodesFrom_eq {h : Heap KvDsa} {p : Ptr} {l : List (ℕ × KvDsa)}
    (hl : Seg KvDsa.next h p l none) (fuel : ℕ) :
    nodesFrom (l.length + (fuel + 1)) h p = l.map Prod.snd := by
  induction l generalizing p with
  | nil =>
    cases hl
    rw [List.length_nil, Nat.zero_add, nodesFrom, List.map_nil]
  | cons x l ih =>
    obtain ⟨a, v⟩ := x
    obtain ⟨rfl, hv, hrest⟩ := hl
    rw [List.length_cons, Nat.add_right_comm, nodesFrom, hv]
    exact congrArg (v :: ·) (ih hrest)

/-- There is fuel for every node of a list and one step more. -/
theorem exists_fuelOf_eq {h : Heap KvDsa} {p : Ptr} {l l' : List (ℕ × KvDsa)}
    (hl : SList KvDsa.next h p l) (hle : l'.length ≤ l.length) :
    ∃ f, fuelOf h = l'.length + (f + 1) := by
  have hcard := hl.length_le
  refine ⟨h.keys.card - l'.length, ?_⟩
  unfold fuelOf
  omega

theorem nodesOf_eq {h : Heap KvDsa} {p : Ptr} {l : List (ℕ × KvDsa)} (hl : SList KvDsa.next h p l) :
    nodesOf h p = l.map Prod.snd := by
  obtain ⟨f, hf⟩ := exists_fuelOf_eq hl (le_refl l.length)
  rw [nodesOf, hf, nodesFrom_eq hl.seg]

/-! ## The calls -/

/-- What a list stores behind its head node. -/
abbrev Stored := InsertionMap (List UInt8) (List UInt8)

/-- The nodes `l` from the address `kv` on: the head node with its empty key, and behind it nodes
whose keys and values are shorter than their fields. -/
structure NodesBy (h : Heap KvDsa) (kv : ℕ) (m : Stored) (l : List (ℕ × KvDsa)) : Prop where
  list : SList KvDsa.next h (some kv) l
  entries : ∃ junk, l.map (fun x => x.2.entry) = ([], junk) :: m.entries
  short : ∀ e ∈ m.entries, e.1.length < MAXBUF ∧ e.2.length < MAXBUF

/-- The list at `kv` stores the entries of the map, in its order. -/
def Nodes (h : Heap KvDsa) (kv : ℕ) (m : Stored) : Prop := ∃ l, NodesBy h kv m l

theorem KvDsa.entry_ofWords {key value : List UInt8} (hkey : ∀ b ∈ key, b ≠ 0)
    (hvalue : ∀ b ∈ value, b ≠ 0) (hk : key.length < MAXBUF) (hv : value.length < MAXBUF) :
    (KvDsa.ofWords key value).entry = (key, value) :=
  Prod.ext (cstr_strncpy hkey hk) (cstr_strncpy hvalue hv)

theorem KvDsa.entry_setValue (v : KvDsa) {value : List UInt8} (hvalue : ∀ b ∈ value, b ≠ 0)
    (hv : value.length < MAXBUF) : (v.setValue value).entry = (v.entry.1, value) :=
  Prod.ext rfl (cstr_strncpy hvalue hv)

theorem skips_of_mem {l : List (ℕ × KvDsa)} {es : List (List UInt8 × List UInt8)} {k : List UInt8}
    (hl : l.map (fun x => x.2.entry) = es) (hshort : ∀ e ∈ es, e.1.length < MAXBUF)
    (hne : ∀ e ∈ es, e.1 ≠ k) : ∀ x ∈ l, x.2.Skips k := by
  intro x hx
  have hmem : x.2.entry ∈ es := hl ▸ List.mem_map_of_mem hx
  exact ⟨hshort _ hmem, hne _ hmem⟩

namespace NodesBy

variable {h : Heap KvDsa} {kv : ℕ} {m : Stored} {l : List (ℕ × KvDsa)} {k : List UInt8}

/-- The head node comes first. -/
theorem exists_head (hr : NodesBy h kv m l) :
    ∃ w l', l = (kv, w) :: l' ∧ w.entry.1 = [] ∧ l'.map (fun x => x.2.entry) = m.entries := by
  obtain ⟨junk, hentries⟩ := hr.entries
  obtain ⟨⟨a, w⟩, l', rfl, hw, hl'⟩ := List.map_eq_cons_iff.1 hentries
  obtain ⟨ha, -, -⟩ := hr.list.seg
  obtain rfl := Option.some.inj ha
  exact ⟨w, l', rfl, congrArg Prod.fst hw, hl'⟩

/-- A search behind the head node for a key that the map does not have passes all nodes. -/
theorem skips_tail (hr : NodesBy h kv m l) (hk : k ∉ m.keys) : ∀ x ∈ l.tail, x.2.Skips k := by
  obtain ⟨w, l', rfl, -, hl'⟩ := hr.exists_head
  exact skips_of_mem hl' (fun e he => (hr.short e he).1)
    fun e he hek => hk (List.mem_map.2 ⟨e, he, hek⟩)

/-- The head node is passed in a search for another word than the empty one. -/
theorem skips (hr : NodesBy h kv m l) (hnil : k ≠ []) (hk : k ∉ m.keys) :
    ∀ x ∈ l, x.2.Skips k := by
  have htail := hr.skips_tail hk
  obtain ⟨w, l', rfl, hw, -⟩ := hr.exists_head
  intro x hx
  obtain rfl | hx := List.mem_cons.1 hx
  · constructor
    · rw [hw]
      exact Nat.zero_lt_succ 31
    · rw [hw]
      exact hnil.symm
  · exact htail x hx

/-- Where a key of the map is: behind the nodes `l₁` and `b`, in the node `a`, and before the nodes
`l₂`. -/
theorem split (hr : NodesBy h kv m l) (hzero : ∀ b ∈ k, b ≠ 0) (hk : k ∈ m.keys) :
    ∃ l₁ b w a v l₂ junk es₁ value es₂, l = l₁ ++ (b, w) :: (a, v) :: l₂ ∧
      m.entries = es₁ ++ (k, value) :: es₂ ∧
      (l₁ ++ [(b, w)]).map (fun x => x.2.entry) = ([], junk) :: es₁ ∧
      v.entry = (k, value) ∧ l₂.map (fun x => x.2.entry) = es₂ ∧
      (∀ x ∈ (l₁ ++ [(b, w)]).tail, x.2.Skips k) ∧
      (k ≠ [] → ∀ x ∈ l₁ ++ [(b, w)], x.2.Skips k) ∧ v.keyIs k = .ok true := by
  obtain ⟨junk, hentries⟩ := hr.entries
  obtain ⟨⟨k, value⟩, he, rfl⟩ := List.mem_map.1 hk
  obtain ⟨es₁, es₂, hes⟩ := List.append_of_mem he
  have hshort : ∀ e ∈ es₁, e.1.length < MAXBUF := fun e he =>
    (hr.short e (hes ▸ List.mem_append_left _ he)).1
  have hne : ∀ e ∈ es₁, e.1 ≠ k := fun e he => InsertionMap.ne_of_mem hes (.inl he)
  rw [hes, ← List.cons_append, List.map_eq_append_iff] at hentries
  obtain ⟨l', l'', rfl, hl', hl''⟩ := hentries
  obtain ⟨⟨a, v⟩, l₂, rfl, hv, hl₂⟩ := List.map_eq_cons_iff.1 hl''
  obtain rfl | ⟨l₁, ⟨b, w⟩, rfl⟩ := l'.eq_nil_or_concat'
  · cases hl'
  · have htail : (l₁ ++ [(b, w)]).tail.map (fun x => x.2.entry) = es₁ := by
      rw [List.map_tail, hl', List.tail_cons]
    refine ⟨l₁, b, w, a, v, l₂, junk, es₁, value, es₂, ?_, hes, hl', hv, hl₂,
      skips_of_mem htail hshort hne, ?_, ?_⟩
    · rw [List.append_assoc, List.singleton_append]
    · intro hnil
      refine skips_of_mem hl' ?_ ?_
      · rintro e (_ | ⟨_, he⟩)
        · exact Nat.zero_lt_succ 31
        · exact hshort e he
      · rintro e (_ | ⟨_, he⟩)
        · exact hnil.symm
        · exact hne e he
    · have hkey : v.entry.1 = k := congrArg Prod.fst hv
      rw [KvDsa.keyIs_eq (hkey ▸ (hr.short _ he).1) hzero, decide_eq_true hkey]

/-- `change_kv` finds the empty word in the head node. -/
theorem changeKv_nil (hr : NodesBy h kv m l) (value : List UInt8) :
    ∃ h', changeKv h (some kv) [] value = .ok (0, h') ∧ Nodes h' kv m := by
  obtain ⟨w, l', rfl, hw, hl'⟩ := hr.exists_head
  obtain ⟨-, hlookup, -⟩ := hr.list.seg
  have hfound : w.keyIs [] = .ok true := by
    rw [KvDsa.keyIs_eq (by rw [hw]; exact Nat.zero_lt_succ 31) (by simp), decide_eq_true hw]
  have hupdated : SList KvDsa.next (h.insert kv (w.setValue value)) (some kv)
      ([] ++ (kv, w.setValue value) :: l') := SList.update hr.list rfl
  refine ⟨h.insert kv (w.setValue value), ?_, _, hupdated, ⟨(w.setValue value).entry.2, ?_⟩,
    hr.short⟩
  · rw [changeKv, fuelOf, changeLoop, load_eq hlookup]
    simp only [bind, Except.bind, hfound]
    rfl
  · rw [List.nil_append, List.map_cons, hl']
    exact congrArg (· :: m.entries) (Prod.ext hw rfl)

theorem changeKv_of_notMem (hr : NodesBy h kv m l) (hzero : ∀ b ∈ k, b ≠ 0) (hnil : k ≠ [])
    (hk : k ∉ m.keys) (value : List UInt8) : changeKv h (some kv) k value = .ok (-1, h) := by
  obtain ⟨f, hf⟩ := exists_fuelOf_eq hr.list (le_refl l.length)
  rw [changeKv, hf, changeLoop_skip value hzero hr.list.seg (hr.skips hnil hk), changeLoop]

/-- `change_kv` replaces the value in the node of the key. -/
theorem changeKv_of_mem (hr : NodesBy h kv m l) (hzero : ∀ b ∈ k, b ≠ 0) (hnil : k ≠ [])
    (hk : k ∈ m.keys) {value : List UInt8} (hvalue : ∀ b ∈ value, b ≠ 0)
    (hlt : value.length < MAXBUF) :
    ∃ h', changeKv h (some kv) k value = .ok (0, h') ∧ Nodes h' kv (m.replace k value) := by
  obtain ⟨l₁, b, w, a, v, l₂, junk, es₁, old, es₂, rfl, hes, hl₁, hv, hl₂, -, hskip, hfound⟩ :=
    hr.split hzero hk
  have hshort := hr.short
  rw [List.append_cons] at hr
  obtain ⟨r, hseg, rfl, hlookup, -⟩ := (seg_append _ _).1 hr.list.seg
  obtain ⟨f, hf⟩ := exists_fuelOf_eq hr.list (show (l₁ ++ [(b, w)]).length ≤ _ by simp)
  have hentries := InsertionMap.entries_replace hes value
  refine ⟨h.insert a (v.setValue value), ?_,
    l₁ ++ [(b, w)] ++ (a, v.setValue value) :: l₂, hr.list.update rfl, ⟨junk, ?_⟩, ?_⟩
  · rw [changeKv, hf, changeLoop_skip _ hzero hseg (hskip hnil), changeLoop, load_eq hlookup]
    simp only [bind, Except.bind, hfound]
    rfl
  · rw [hentries, List.map_append, hl₁, List.map_cons, hl₂, KvDsa.entry_setValue v hvalue hlt, hv,
      List.cons_append]
  · rw [hentries]
    rw [hes] at hshort
    intro e he
    obtain he | he := List.mem_append.1 he
    · exact hshort e (List.mem_append_left _ he)
    · obtain rfl | he := List.mem_cons.1 he
      · exact ⟨(hshort (k, old) (List.mem_append_right _ List.mem_cons_self)).1, hlt⟩
      · exact hshort e (List.mem_append_right _ (List.mem_cons_of_mem _ he))

theorem deleteKv_of_notMem (hr : NodesBy h kv m l) (hzero : ∀ b ∈ k, b ≠ 0) (hnil : k ≠ [])
    (hk : k ∉ m.keys) : deleteKv h (some kv) k = .ok (-1, h) := by
  obtain ⟨f, hf⟩ := exists_fuelOf_eq hr.list (le_refl l.length)
  have hskip := hr.skips hnil hk
  obtain rfl | ⟨l', ⟨b, w⟩, rfl⟩ := l.eq_nil_or_concat'
  · cases hr.list.seg
  · rw [deleteKv, hf, deleteLoop_skip hzero hr.list.seg hskip, deleteLoop]

/-- `delete_kv` takes out the node of the key. -/
theorem deleteKv_of_mem (hr : NodesBy h kv m l) (hzero : ∀ b ∈ k, b ≠ 0) (hnil : k ≠ [])
    (hk : k ∈ m.keys) :
    ∃ h', deleteKv h (some kv) k = .ok (0, h') ∧ Nodes h' kv (m.erase k) := by
  obtain ⟨l₁, b, w, a, v, l₂, junk, es₁, old, es₂, rfl, hes, hl₁, hv, hl₂, -, hskip, hfound⟩ :=
    hr.split hzero hk
  have hw := hr.list.seg.lookup (show (b, w) ∈ _ by simp)
  have hunlinked := hr.list.unlink { w with next := v.next } rfl
  have hshort := hr.short
  rw [List.append_cons] at hr
  obtain ⟨r, hseg, rfl, hlookup, -⟩ := (seg_append _ _).1 hr.list.seg
  obtain ⟨f, hf⟩ := exists_fuelOf_eq hr.list (show (l₁ ++ [(b, w)]).length ≤ _ by simp)
  refine ⟨_, ?_, _, hunlinked, ⟨junk, ?_⟩, fun e he => hshort e (List.mem_filter.1 he).1⟩
  · rw [deleteKv, hf, deleteLoop_skip hzero hseg (hskip hnil), deleteLoop, load_eq hlookup]
    simp only [bind, Except.bind, hfound, load_eq hw]
    rfl
  · have hentry : (l₁ ++ (b, { w with next := v.next }) :: l₂).map (fun x => x.2.entry)
        = (l₁ ++ [(b, w)]).map (fun x => x.2.entry) ++ l₂.map (fun x => x.2.entry) := by
      rw [List.append_cons]
      simp [KvDsa.entry]
    rw [hentry, hl₁, hl₂, InsertionMap.entries_erase hes, List.cons_append]

theorem addKv_of_mem (hr : NodesBy h kv m l) (hzero : ∀ b ∈ k, b ≠ 0) (hk : k ∈ m.keys)
    (malloc : Malloc) (value : List UInt8) :
    addKv malloc h (some kv) k value = .ok (-1, h) := by
  obtain ⟨l₁, b, w, a, v, l₂, junk, es₁, old, es₂, rfl, hes, hl₁, hv, hl₂, hskip, -, hfound⟩ :=
    hr.split hzero hk
  have hw := hr.list.seg.lookup (show (b, w) ∈ _ by simp)
  rw [List.append_cons] at hr
  obtain ⟨r, hseg, rfl, hlookup, -⟩ := (seg_append _ _).1 hr.list.seg
  obtain ⟨f, hf⟩ := exists_fuelOf_eq hr.list (show l₁.length ≤ _ by simp)
  have hnext : w.next = some a := by
    obtain ⟨_, -, -, -, hnext⟩ := (seg_append _ _).1 hseg
    exact hnext
  rw [addKv, hf, addLoop_skip malloc value hzero hseg hskip, addLoop, load_eq hw]
  simp only [bind, Except.bind, hnext, load_eq hlookup, hfound]
  rfl

/-- The walk of `add_kv` to the last node, for a key that the map does not have. -/
theorem addKv_eq (hr : NodesBy h kv m l) (hzero : ∀ b ∈ k, b ≠ 0) (hk : k ∉ m.keys)
    (malloc : Malloc) (value : List UInt8) :
    ∃ l' b w, l = l' ++ [(b, w)] ∧ w.next = none ∧ addKv malloc h (some kv) k value =
      .ok (match malloc h with
        | none => (-1, h.insert b { w with next := none })
        | some (a, _) =>
          (0, (h.insert b { w with next := some a }).insert a (.ofWords k value))) := by
  have hskip := hr.skips_tail hk
  obtain rfl | ⟨l', ⟨b, w⟩, rfl⟩ := l.eq_nil_or_concat'
  · cases hr.list.seg
  obtain ⟨f, hf⟩ := exists_fuelOf_eq hr.list (show l'.length ≤ _ by simp)
  have hw := hr.list.seg.lookup (show (b, w) ∈ _ by simp)
  have hnext : w.next = none := by
    obtain ⟨_, -, -, -, hnext⟩ := (seg_append _ _).1 hr.list.seg
    exact hnext
  refine ⟨l', b, w, rfl, hnext, ?_⟩
  rw [addKv, hf, addLoop_skip malloc value hzero hr.list.seg hskip, addLoop, load_eq hw]
  simp only [bind, Except.bind, hnext]
  cases malloc h <;> rfl

/-- `add_kv` puts a new node behind the last one. -/
theorem addKv_of_notMem (hr : NodesBy h kv m l) (hzero : ∀ b ∈ k, b ≠ 0) (hk : k ∉ m.keys)
    (hlt : k.length < MAXBUF) {value : List UInt8} (hvalue : ∀ b ∈ value, b ≠ 0)
    (hlt' : value.length < MAXBUF) {malloc : Malloc} {a : ℕ} {old : KvDsa}
    (hmalloc : malloc h = some (a, old)) (ha : a ∉ h) :
    ∃ h', addKv malloc h (some kv) k value = .ok (0, h') ∧ Nodes h' kv (m.append k value hk) := by
  obtain ⟨junk, hentries⟩ := hr.entries
  obtain ⟨l', b, w, rfl, -, hadd⟩ := hr.addKv_eq hzero hk malloc value
  rw [hmalloc] at hadd
  have hlinked := hr.list.link ha { w with next := some a } (.ofWords k value) rfl rfl
  refine ⟨_, hadd, _, hlinked, ⟨junk, ?_⟩, ?_⟩
  · have hentry : (l' ++ [(b, { w with next := some a }), (a, KvDsa.ofWords k value)]).map
        (fun x => x.2.entry)
          = (l' ++ [(b, w)]).map (fun x => x.2.entry) ++ [(KvDsa.ofWords k value).entry] := by
      simp [KvDsa.entry]
    rw [hentry, hentries, KvDsa.entry_ofWords hzero hvalue hlt hlt', InsertionMap.append,
      List.cons_append]
  · intro e he
    obtain he | he := List.mem_append.1 he
    · exact hr.short e he
    · rw [List.mem_singleton.1 he]
      exact ⟨hlt, hlt'⟩

/-- `add_kv` without memory leaves the list as it is. -/
theorem addKv_of_null (hr : NodesBy h kv m l) (hzero : ∀ b ∈ k, b ≠ 0) (hk : k ∉ m.keys)
    (value : List UInt8) {malloc : Malloc} (hmalloc : malloc h = none) :
    ∃ h', addKv malloc h (some kv) k value = .ok (-1, h') ∧ Nodes h' kv m := by
  obtain ⟨junk, hentries⟩ := hr.entries
  obtain ⟨l', b, w, rfl, hnext, hadd⟩ := hr.addKv_eq hzero hk malloc value
  rw [hmalloc] at hadd
  have hupdated : SList KvDsa.next (h.insert b { w with next := none }) (some kv)
      (l' ++ [(b, { w with next := none })]) := hr.list.update hnext.symm
  refine ⟨_, hadd, _, hupdated, ⟨junk, ?_⟩, hr.short⟩
  rw [← hentries]
  simp [KvDsa.entry]

end NodesBy

end TlpiLearn.KeyValue
