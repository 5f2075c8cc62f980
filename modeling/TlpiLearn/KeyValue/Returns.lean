import TlpiLearn.KeyValue.HandleCommand
import TlpiLearn.KeyValue.Nodes
import Mathlib.Tactic

/-!
# When `handle_command` returns

The list may hold words that fill their fields, so that a comparison or a `sprintf` can run off a
node. `Returns` says of the nodes and the words of a line whether the code comes through; each
traversal either returns, with a list that is well formed again, or crashes, as `compares` or
`prints` tells (`changeLoop_returns`, `deleteLoop_returns`, `addLoop_returns`, `showLoop_returns`).
When `handle_command` returns, its result is one line that fits a buffer
(`handle_command_returns`).
-/

namespace TlpiLearn.KeyValue

/-- The comparisons with `key` come to an end at the nodes up to the one that has the key. -/
def compares (key : List UInt8) : List KvDsa → Bool
  | [] => true
  | v :: vs =>
    match strcmp (v.key ++ v.value) key with
    | none => false
    | some z => z = 0 || compares key vs

/-- The nodes up to the one that makes a listing too long are printed, and otherwise the listing,
which starts with `len` bytes, has room for its newline. -/
def prints : ℕ → List KvDsa → Bool
  | len, [] => len + 2 ≤ MAXLINE
  | len, v :: vs =>
    match v.text with
    | .error _ => false
    | .ok t => MAXLINE < t.length + len + 1 || prints (len + t.length) vs

/-- **The condition** on the nodes of the list and the words of a line. -/
def Returns (nodes : List KvDsa) : List (List UInt8) → Bool
  | [word, key, _] =>
    if word = ascii "add" then compares key nodes.tail
    else if word = ascii "change" then compares key nodes
    else true
  | [word, key] => if word = ascii "delete" then key ≠ [] && compares key nodes else true
  | [word] => if word = ascii "show" then prints 0 nodes.tail else true
  | _ => true

/-- One line with its newline, for a buffer of `MAXLINE` bytes. -/
structure IsLine (bs : List UInt8) : Prop where
  line : ∃ t, bs = t ++ [newline] ∧ newline ∉ t
  nonzero : 0 ∉ bs
  fits : bs.length < MAXLINE

/-- The head node with its empty key, and nodes behind it that hold no newline. -/
structure Shaped (kv : ℕ) (l : List (ℕ × KvDsa)) : Prop where
  head : ∃ w l', l = (kv, w) :: l' ∧ cstr w.key = []
  clean : ∀ x ∈ l.tail, newline ∉ x.2.key ∧ newline ∉ x.2.value

/-- The list at `kv` is well formed. -/
def WellFormed (h : Heap KvDsa) (kv : ℕ) : Prop :=
  ∃ l, SList KvDsa.next h (some kv) l ∧ Shaped kv l

/-! ## The traversals -/

section Loops

variable {h : Heap KvDsa} {p : Ptr} {l : List (ℕ × KvDsa)} {v : KvDsa} {z : ℤ} {key : List UInt8}

theorem keyIs_of_some (hz : strcmp (v.key ++ v.value) key = some z) :
    v.keyIs key = .ok (decide (z = 0)) := by
  unfold KvDsa.keyIs
  rw [hz]

/-- A node is read over its end, is the one with the key, or another one. -/
theorem keyIs_cases (v : KvDsa) (key : List UInt8) (vs : List KvDsa) :
    (v.keyIs key = .error .overread ∧ compares key (v :: vs) = false) ∨
      (v.keyIs key = .ok true ∧ compares key (v :: vs) = true) ∨
      v.keyIs key = .ok false ∧ compares key (v :: vs) = compares key vs := by
  rw [compares]
  cases hz : strcmp (v.key ++ v.value) key with
  | none =>
    refine .inl ⟨?_, rfl⟩
    unfold KvDsa.keyIs
    rw [hz]
  | some z =>
    rw [keyIs_of_some hz]
    by_cases hzero : z = 0
    · exact .inr (.inl (by simp [hzero]))
    · exact .inr (.inr (by simp [hzero]))

theorem changeLoop_returns (key value : List UInt8) (hl : Seg KvDsa.next h p l none) (fuel : ℕ) :
    if compares key (l.map Prod.snd) then
      changeLoop key value (l.length + (fuel + 1)) h p = .ok (-1, h) ∨
        ∃ x ∈ l, changeLoop key value (l.length + (fuel + 1)) h p =
          .ok (0, h.insert x.1 (x.2.setValue value))
    else changeLoop key value (l.length + (fuel + 1)) h p = .error .overread := by
  induction l generalizing p with
  | nil =>
    cases hl
    rw [List.map_nil, compares, if_pos rfl, List.length_nil, Nat.zero_add, changeLoop]
    exact .inl rfl
  | cons x l ih =>
    obtain ⟨a, v⟩ := x
    obtain ⟨rfl, hv, hrest⟩ := hl
    rw [List.map_cons, List.length_cons, Nat.add_right_comm, changeLoop, load_eq hv]
    obtain ⟨hkey, hcompares⟩ | ⟨hkey, hcompares⟩ | ⟨hkey, hcompares⟩ :=
      keyIs_cases v key (l.map Prod.snd)
    · simp only [bind, Except.bind, hkey, hcompares, Bool.false_eq_true, if_false]
    · simp only [bind, Except.bind, hkey, hcompares, if_true]
      exact .inr ⟨(a, v), List.mem_cons_self, rfl⟩
    · simp only [bind, Except.bind, hkey, hcompares, Bool.false_eq_true, if_false]
      have hloop := ih hrest
      split_ifs at hloop ⊢
      · obtain hloop | ⟨x, hx, hloop⟩ := hloop
        · exact .inl hloop
        · exact .inr ⟨x, List.mem_cons_of_mem _ hx, hloop⟩
      · exact hloop

/-- The loop of `delete_kv` behind the node `b`. -/
theorem deleteLoop_returns (key : List UInt8) {b : ℕ} {w : KvDsa}
    (hl : Seg KvDsa.next h (some b) ((b, w) :: l) none) (fuel : ℕ) :
    if compares key (l.map Prod.snd) then
      deleteLoop key (l.length + (fuel + 1)) h w.next (some b) = .ok (-1, h) ∨
        ∃ l₁ c u a v l₂, (b, w) :: l = l₁ ++ (c, u) :: (a, v) :: l₂ ∧
          deleteLoop key (l.length + (fuel + 1)) h w.next (some b) =
            .ok (0, (h.insert c { u with next := v.next }).erase a)
    else deleteLoop key (l.length + (fuel + 1)) h w.next (some b) = .error .overread := by
  induction l generalizing b w with
  | nil =>
    obtain ⟨-, -, hnext⟩ := hl
    have hnext : w.next = none := hnext
    rw [List.map_nil, compares, if_pos rfl, List.length_nil, Nat.zero_add, hnext, deleteLoop]
    exact .inl rfl
  | cons x l ih =>
    obtain ⟨a, v⟩ := x
    obtain ⟨-, hw, hnext, hv, hrest⟩ := hl
    rw [List.map_cons, List.length_cons, Nat.add_right_comm, hnext, deleteLoop, load_eq hv]
    obtain ⟨hkey, hcompares⟩ | ⟨hkey, hcompares⟩ | ⟨hkey, hcompares⟩ :=
      keyIs_cases v key (l.map Prod.snd)
    · simp only [bind, Except.bind, hkey, hcompares, Bool.false_eq_true, if_false]
    · simp only [bind, Except.bind, hkey, hcompares, if_true, load_eq hw]
      exact .inr ⟨[], b, w, a, v, l, rfl, rfl⟩
    · simp only [bind, Except.bind, hkey, hcompares, Bool.false_eq_true, if_false]
      have hloop := ih ⟨rfl, hv, hrest⟩
      split_ifs at hloop ⊢
      · obtain hloop | ⟨l₁, c, u, a', v', l₂, heq, hloop⟩ := hloop
        · exact .inl hloop
        · exact .inr ⟨(b, w) :: l₁, c, u, a', v', l₂, by rw [heq, List.cons_append], hloop⟩
      · exact hloop

/-- The loop of `add_kv` at the node `b`. -/
theorem addLoop_returns (malloc : Malloc) (key value : List UInt8) {b : ℕ} {w : KvDsa}
    (hl : Seg KvDsa.next h (some b) ((b, w) :: l) none) (fuel : ℕ) :
    if compares key (l.map Prod.snd) then
      addLoop malloc key value (l.length + (fuel + 1)) h b = .ok (-1, h) ∨
        ∃ l' c u, (b, w) :: l = l' ++ [(c, u)] ∧ u.next = none ∧
          addLoop malloc key value (l.length + (fuel + 1)) h b = .ok (match malloc h with
            | none => (-1, h.insert c { u with next := none })
            | some (a, _) =>
              (0, (h.insert c { u with next := some a }).insert a (.ofWords key value)))
    else addLoop malloc key value (l.length + (fuel + 1)) h b = .error .overread := by
  induction l generalizing b w with
  | nil =>
    obtain ⟨-, hw, hnext⟩ := hl
    have hnext : w.next = none := hnext
    rw [List.map_nil, compares, if_pos rfl, List.length_nil, Nat.zero_add, addLoop, load_eq hw]
    simp only [bind, Except.bind, hnext]
    refine .inr ⟨[], b, w, rfl, hnext, ?_⟩
    cases malloc h <;> rfl
  | cons x l ih =>
    obtain ⟨a, v⟩ := x
    obtain ⟨-, hw, hnext, hv, hrest⟩ := hl
    rw [List.map_cons, List.length_cons, Nat.add_right_comm, addLoop, load_eq hw]
    obtain ⟨hkey, hcompares⟩ | ⟨hkey, hcompares⟩ | ⟨hkey, hcompares⟩ :=
      keyIs_cases v key (l.map Prod.snd)
    · simp only [bind, Except.bind, hnext, load_eq hv, hkey, hcompares, Bool.false_eq_true,
        if_false]
    · simp only [bind, Except.bind, hnext, load_eq hv, hkey, hcompares, if_true]
      exact .inl rfl
    · simp only [bind, Except.bind, hnext, load_eq hv, hkey, hcompares, Bool.false_eq_true,
        if_false]
      have hloop := ih ⟨rfl, hv, hrest⟩
      split_ifs at hloop ⊢
      · obtain hloop | ⟨l', c, u, heq, hnone, hloop⟩ := hloop
        · exact .inl hloop
        · exact .inr ⟨(b, w) :: l', c, u, by rw [heq, List.cons_append], hnone, hloop⟩
      · exact hloop

end Loops

/-! ## Results -/

theorem isLine_of_check {s : List UInt8} (h : s.getLast? = some newline ∧ newline ∉ s.dropLast ∧
    0 ∉ s ∧ s.length < MAXLINE) : IsLine s := by
  obtain ⟨hlast, hline, hzero, hfits⟩ := h
  obtain rfl | ⟨t, b, rfl⟩ := s.eq_nil_or_concat'
  · cases hlast
  · rw [List.getLast?_concat, Option.some.injEq] at hlast
    rw [List.dropLast_concat] at hline
    exact ⟨⟨t, by rw [hlast], hline⟩, hzero, hfits⟩

/-- What `sprintf` prints of a clean node is clean. -/
theorem KvDsa.text_clean {v : KvDsa} {t : List UInt8} (h : v.text = .ok t)
    (hkey : newline ∉ v.key) (hvalue : newline ∉ v.value) : newline ∉ t ∧ 0 ∉ t := by
  unfold KvDsa.text at h
  split_ifs at h
  obtain rfl := Except.ok.inj h
  have hboth : newline ∉ cstr (v.key ++ v.value) := by
    intro hmem
    obtain hmem | hmem := List.mem_append.1 ((cstr_prefix_mem _).subset hmem)
    · exact hkey hmem
    · exact hvalue hmem
  have hlast : newline ∉ cstr v.value := fun hmem => hvalue ((cstr_prefix_mem _).subset hmem)
  have hopen : newline ∉ ascii "(" ∧ 0 ∉ ascii "(" := by decide
  have hcolon : newline ∉ ascii " : " ∧ 0 ∉ ascii " : " := by decide
  have hclose : newline ∉ ascii "); " ∧ 0 ∉ ascii "); " := by decide
  simp only [List.mem_append, not_or]
  exact ⟨⟨⟨⟨⟨hopen.1, hboth⟩, hcolon.1⟩, hlast⟩, hclose.1⟩,
    ⟨⟨⟨hopen.2, zero_notMem_cstr _⟩, hcolon.2⟩, zero_notMem_cstr _⟩, hclose.2⟩

theorem showLoop_returns {h : Heap KvDsa} {p : Ptr} {l : List (ℕ × KvDsa)}
    (hl : Seg KvDsa.next h p l none) (hclean : ∀ x ∈ l, newline ∉ x.2.key ∧ newline ∉ x.2.value)
    {result : List UInt8} (hresult : newline ∉ result ∧ 0 ∉ result) (fuel : ℕ) :
    if prints result.length (l.map Prod.snd) then
      ∃ r reply, showLoop (l.length + (fuel + 1)) h p result = .ok (r, reply) ∧ IsLine reply
    else ∃ crash, showLoop (l.length + (fuel + 1)) h p result = .error crash := by
  induction l generalizing p result with
  | nil =>
    cases hl
    rw [List.map_nil, prints, List.length_nil, Nat.zero_add, showLoop]
    by_cases hroom : MAXLINE < result.length + 2
    · rw [if_pos hroom, if_neg (by simpa using hroom)]
      exact ⟨_, rfl⟩
    · rw [if_neg hroom, if_pos (by simpa using hroom)]
      refine ⟨_, _, rfl, ⟨result, rfl, hresult.1⟩, ?_, ?_⟩
      · rw [List.mem_append, not_or]
        exact ⟨hresult.2, by decide⟩
      · rw [List.length_append, List.length_singleton]
        omega
  | cons x l ih =>
    obtain ⟨a, v⟩ := x
    obtain ⟨rfl, hv, hrest⟩ := hl
    obtain ⟨hkey, hvalue⟩ := hclean _ List.mem_cons_self
    rw [List.map_cons, List.length_cons, Nat.add_right_comm, showLoop, load_eq hv, Except.mapError,
      prints]
    cases ht : v.text with
    | error crash =>
      simp only [bind, Except.bind, ht]
      rw [if_neg Bool.false_ne_true]
      exact ⟨crash, rfl⟩
    | ok t =>
      simp only [bind, Except.bind, ht]
      by_cases hlong : MAXLINE < t.length + result.length + 1
      · rw [if_pos hlong, if_pos (by simp [hlong])]
        exact ⟨_, _, rfl, isLine_of_check (by decide)⟩
      · obtain ⟨hline, hzero⟩ := KvDsa.text_clean ht hkey hvalue
        have hnext : newline ∉ result ++ t ∧ 0 ∉ result ++ t := by
          simp [hresult, hline, hzero]
        have hloop := ih hrest (fun x hx => hclean x (List.mem_cons_of_mem _ hx)) hnext
        rw [List.length_append] at hloop
        simpa only [if_neg hlong, decide_eq_false hlong, Bool.false_or] using hloop

/-! ## The list behind a call -/

section Edits

variable {h h' : Heap KvDsa} {kv a c : ℕ} {l₁ l₂ : List (ℕ × KvDsa)} {u u' v : KvDsa}

theorem newline_notMem_strncpy {s : List UInt8} (hs : newline ∉ s) :
    newline ∉ strncpy MAXBUF s := by
  unfold strncpy
  rw [List.mem_append, not_or]
  refine ⟨fun hmem => hs (List.mem_of_mem_take hmem), fun hmem => ?_⟩
  exact absurd (List.eq_of_mem_replicate hmem) (by decide)

/-- A node that keeps its key. -/
theorem Shaped.update (hs : Shaped kv (l₁ ++ (a, v) :: l₂)) (hkey : u.key = v.key)
    (hvalue : newline ∉ v.value → newline ∉ u.value) : Shaped kv (l₁ ++ (a, u) :: l₂) := by
  obtain ⟨⟨w, l', heq, hw⟩, hclean⟩ := hs
  cases l₁ with
  | nil =>
    obtain ⟨hav, -⟩ := List.cons.inj heq
    obtain ⟨rfl, rfl⟩ := Prod.mk.inj hav
    exact ⟨⟨u, l₂, rfl, by rw [hkey, hw]⟩, hclean⟩
  | cons x l₁ =>
    obtain ⟨rfl, -⟩ := List.cons.inj heq
    refine ⟨⟨w, _, rfl, hw⟩, fun y hy => ?_⟩
    rw [List.cons_append, List.tail_cons] at hclean hy
    obtain hy | hy := List.mem_append.1 hy
    · exact hclean y (List.mem_append_left _ hy)
    · obtain rfl | hy := List.mem_cons.1 hy
      · obtain ⟨hk, hv⟩ := hclean (a, v) (List.mem_append_right _ List.mem_cons_self)
        exact ⟨hkey ▸ hk, hvalue hv⟩
      · exact hclean y (List.mem_append_right _ (List.mem_cons_of_mem _ hy))

theorem Shaped.unlink (hs : Shaped kv (l₁ ++ (c, u) :: (a, v) :: l₂)) :
    Shaped kv (l₁ ++ (c, u) :: l₂) := by
  obtain ⟨⟨w, l', heq, hw⟩, hclean⟩ := hs
  cases l₁ with
  | nil =>
    obtain ⟨hcu, -⟩ := List.cons.inj heq
    exact ⟨⟨w, l₂, by rw [List.nil_append, hcu], hw⟩,
      fun y hy => hclean y (List.mem_cons_of_mem _ hy)⟩
  | cons x l₁ =>
    obtain ⟨rfl, -⟩ := List.cons.inj heq
    refine ⟨⟨w, _, rfl, hw⟩, fun y hy => hclean y ?_⟩
    rw [List.cons_append, List.tail_cons, List.mem_append, List.mem_cons] at hy ⊢
    obtain hy | hy | hy := hy
    · exact .inl hy
    · exact .inr (.inl hy)
    · exact .inr (.inr (List.mem_cons_of_mem _ hy))

theorem Shaped.link (hs : Shaped kv (l₁ ++ [(c, u)])) (hkey : newline ∉ v.key)
    (hvalue : newline ∉ v.value) : Shaped kv (l₁ ++ [(c, u), (a, v)]) := by
  obtain ⟨⟨w, l', heq, hw⟩, hclean⟩ := hs
  have hsplit : l₁ ++ [(c, u), (a, v)] = (kv, w) :: (l' ++ [(a, v)]) := by
    rw [← List.cons_append, ← heq, List.append_assoc]
    rfl
  refine ⟨⟨w, _, hsplit, hw⟩, fun y hy => ?_⟩
  rw [hsplit, List.tail_cons] at hy
  rw [heq, List.tail_cons] at hclean
  obtain hy | hy := List.mem_append.1 hy
  · exact hclean y hy
  · rw [List.mem_singleton.1 hy]
    exact ⟨hkey, hvalue⟩

end Edits

/-- A list of `init_kv`. -/
theorem wellFormed_initKv {malloc : Malloc} {h h' : Heap KvDsa} {kv : ℕ}
    (hinit : initKv malloc h = (some kv, h')) : WellFormed h' kv := by
  unfold initKv at hinit
  cases hmalloc : malloc h with
  | none =>
    rw [hmalloc] at hinit
    cases hinit
  | some x =>
    obtain ⟨a, junk⟩ := x
    rw [hmalloc] at hinit
    obtain ⟨ha, rfl⟩ := Prod.mk.inj hinit
    obtain rfl := Option.some.inj ha
    refine ⟨[(a, junk.emptyHead)], ⟨⟨rfl, Finmap.lookup_insert h, rfl⟩, List.nodup_singleton a⟩,
      ⟨_, [], rfl, ?_⟩, nofun⟩
    obtain ⟨b, bs, hbs⟩ : ∃ b bs, junk.key = b :: bs :=
      List.exists_cons_of_length_pos (by rw [junk.length_key]; decide)
    simp [KvDsa.emptyHead, hbs, cstr]

/-! ## The calls -/

section Calls

variable {h : Heap KvDsa} {kv : ℕ} {key value : List UInt8}

theorem changeKv_returns (hr : WellFormed h kv) (key : List UInt8) (hvalue : newline ∉ value) :
    if compares key (nodesOf h (some kv)) then
      ∃ r h', changeKv h (some kv) key value = .ok (r, h') ∧ WellFormed h' kv
    else changeKv h (some kv) key value = .error .overread := by
  obtain ⟨l, hl, hs⟩ := hr
  obtain ⟨f, hf⟩ := exists_fuelOf_eq hl (le_refl l.length)
  have hloop := changeLoop_returns key value hl.seg f
  rw [nodesOf_eq hl, changeKv, hf]
  split_ifs at hloop ⊢
  · obtain hloop | ⟨⟨a, v⟩, hx, hloop⟩ := hloop
    · exact ⟨_, _, hloop, l, hl, hs⟩
    · obtain ⟨l₁, l₂, rfl⟩ := List.append_of_mem hx
      exact ⟨_, _, hloop, _, hl.update rfl,
        hs.update rfl fun _ => newline_notMem_strncpy hvalue⟩
  · exact hloop

theorem deleteKv_returns (hr : WellFormed h kv) (hkey : ∀ b ∈ key, b ≠ 0) :
    if key ≠ [] && compares key (nodesOf h (some kv)) then
      ∃ r h', deleteKv h (some kv) key = .ok (r, h') ∧ WellFormed h' kv
    else ∃ fault, deleteKv h (some kv) key = .error fault := by
  obtain ⟨l, hl, hs⟩ := hr
  rw [nodesOf_eq hl]
  obtain ⟨w, l', rfl, hw⟩ := hs.head
  obtain ⟨-, hlookup, -⟩ := hl.seg
  have hzero : 0 ∈ w.key := zero_mem_of_length_lt (by rw [hw, w.length_key]; decide)
  obtain ⟨z, hz, hiff⟩ := strcmp_eq (List.mem_append_left w.value hzero) hkey
  rw [cstr_append hzero, hw] at hiff
  have hkeyIs : w.keyIs key = .ok (decide (key = [])) := by
    rw [keyIs_of_some hz, decide_eq_decide.2 (hiff.trans eq_comm)]
  obtain ⟨f, hf⟩ := exists_fuelOf_eq hl (le_refl ((kv, w) :: l').length)
  rw [deleteKv, hf, List.length_cons, Nat.add_right_comm, deleteLoop, load_eq hlookup]
  simp only [bind, Except.bind, hkeyIs]
  by_cases hnil : key = []
  · -- The head node is found, and has no predecessor.
    rw [if_neg (by simp [hnil])]
    simp only [hnil, decide_true, if_true]
    exact ⟨.nullDeref, rfl⟩
  · have hne : ¬ z = 0 := fun h => hnil (hiff.1 h).symm
    have hcompares : compares key (((kv, w) :: l').map Prod.snd) =
        compares key (l'.map Prod.snd) := by
      rw [List.map_cons, compares, hz]
      simp [hne]
    have hloop := deleteLoop_returns key hl.seg f
    simp only [hcompares, hnil, ne_eq, not_false_eq_true, decide_true, Bool.true_and, decide_false,
      Bool.false_eq_true, if_false]
    split_ifs at hloop ⊢
    · obtain hloop | ⟨l₁, c, u, a, v, l₂, heq, hloop⟩ := hloop
      · exact ⟨_, _, hloop, _, hl, hs⟩
      · rw [heq] at hl hs
        refine ⟨_, _, hloop, _, hl.unlink { u with next := v.next } rfl, ?_⟩
        exact Shaped.update hs.unlink rfl id
    · exact ⟨_, hloop⟩

theorem addKv_returns (hr : WellFormed h kv) (hkey : newline ∉ key) (hvalue : newline ∉ value)
    (malloc : Malloc) (hfresh : ∀ a old, malloc h = some (a, old) → a ∉ h) :
    if compares key (nodesOf h (some kv)).tail then
      ∃ r h', addKv malloc h (some kv) key value = .ok (r, h') ∧ WellFormed h' kv
    else addKv malloc h (some kv) key value = .error .overread := by
  obtain ⟨l, hl, hs⟩ := hr
  rw [nodesOf_eq hl]
  obtain ⟨w, l', rfl, -⟩ := hs.head
  obtain ⟨f, hf⟩ := exists_fuelOf_eq hl (show l'.length ≤ _ by simp)
  have hloop := addLoop_returns malloc key value hl.seg f
  rw [List.map_cons, List.tail_cons, addKv, hf]
  split_ifs at hloop ⊢
  · obtain hloop | ⟨l₁, c, u, heq, hnone, hloop⟩ := hloop
    · exact ⟨_, _, hloop, _, hl, hs⟩
    · rw [heq] at hl hs
      cases hmalloc : malloc h with
      | none =>
        rw [hmalloc] at hloop
        exact ⟨_, _, hloop, _, hl.update hnone.symm, hs.update rfl id⟩
      | some x =>
        obtain ⟨a, old⟩ := x
        rw [hmalloc] at hloop
        refine ⟨_, _, hloop, _, hl.link (hfresh a old hmalloc) _ _ rfl rfl, ?_⟩
        refine Shaped.link (hs.update rfl id) ?_ ?_
        · exact newline_notMem_strncpy hkey
        · exact newline_notMem_strncpy hvalue
  · exact hloop

theorem show_returns (hr : WellFormed h kv) :
    ∃ p, load h (some kv) = .ok p ∧
      if prints 0 (nodesOf h (some kv)).tail then
        ∃ r result, showLoop (fuelOf h) h p.next [] = .ok (r, result) ∧ IsLine result
      else ∃ crash, showLoop (fuelOf h) h p.next [] = .error crash := by
  obtain ⟨l, hl, hs⟩ := hr
  rw [nodesOf_eq hl]
  obtain ⟨w, l', rfl, -⟩ := hs.head
  obtain ⟨-, hlookup, hrest⟩ := hl.seg
  obtain ⟨f, hf⟩ := exists_fuelOf_eq hl (show l'.length ≤ _ by simp)
  have hempty : newline ∉ ([] : List UInt8) ∧ 0 ∉ ([] : List UInt8) := by simp
  refine ⟨w, load_eq hlookup, ?_⟩
  rw [hf]
  exact showLoop_returns hrest hs.clean hempty f

/-- The answers of the functions on the list. -/
theorem reply_returns {r : Except Fault (ℤ × Heap KvDsa)} {failed sussessed : String}
    (hr : ∃ z h', r = .ok (z, h') ∧ WellFormed h' kv) (hfailed : IsLine (ascii failed))
    (hsussessed : IsLine (ascii sussessed)) :
    ∃ z result h', reply r failed sussessed = .ok (z, result, h') ∧ IsLine result ∧
      WellFormed h' kv := by
  obtain ⟨z, h', rfl, hr⟩ := hr
  by_cases hz : z = -1
  · exact ⟨_, _, h', by rw [reply, if_pos hz], hfailed, hr⟩
  · exact ⟨_, _, h', by rw [reply, if_neg hz], hsussessed, hr⟩

end Calls

theorem Line.newline_notMem {line : Line} {w : List UInt8} (hw : w ∈ line.words) :
    newline ∉ w := by
  intro hmem
  obtain hmem | hmem := List.mem_append.1 (words_subset hw _ hmem)
  · exact line.notMem hmem
  · exact absurd hmem (by decide)

/-- What `handle_command` does with the words of a line: it returns with one line and a well-formed
list, or crashes, as `Returns` tells of the list and the words. -/
theorem dispatch_returns {h : Heap KvDsa} {kv : ℕ} (hr : WellFormed h kv)
    {block : Option (ℕ × KvDsa)} (hblock : ∀ a old, block = some (a, old) → a ∉ h)
    (ws : List (List UInt8)) (hzero : ∀ w ∈ ws, ∀ b ∈ w, b ≠ 0) (hline : ∀ w ∈ ws, newline ∉ w) :
    if Returns (nodesOf h (some kv)) ws then
      ∃ r result h', dispatch (fun _ => block) h (some kv) ws = .ok (r, result, h') ∧
        IsLine result ∧ WellFormed h' kv
    else ∃ crash, dispatch (fun _ => block) h (some kv) ws = .error crash := by
  have hinvalid : ∃ r result h', invalidCommand h = .ok (r, result, h') ∧ IsLine result ∧
      WellFormed h' kv := ⟨_, _, h, rfl, isLine_of_check (by decide), hr⟩
  rcases ws with _ | ⟨word, _ | ⟨key, _ | ⟨value, _ | ⟨_, _⟩⟩⟩⟩
  · exact hinvalid
  · by_cases hword : word = ascii "show"
    · obtain ⟨p, hload, hloop⟩ := show_returns hr
      simp only [dispatch, Returns, if_pos hword, hload, Except.mapError, bind, Except.bind]
      split_ifs at hloop ⊢
      · obtain ⟨r, result, hloop, hreply⟩ := hloop
        rw [hloop]
        exact ⟨r, result, h, rfl, hreply, hr⟩
      · obtain ⟨crash, hloop⟩ := hloop
        rw [hloop]
        exact ⟨crash, rfl⟩
    · simp only [dispatch, Returns, if_neg hword]
      exact hinvalid
  · by_cases hword : word = ascii "delete"
    · have hdelete := deleteKv_returns hr (hzero key (by simp))
      simp only [dispatch, Returns, if_pos hword]
      split_ifs at hdelete ⊢
      · exact reply_returns hdelete (isLine_of_check (by decide)) (isLine_of_check (by decide))
      · obtain ⟨fault, hdelete⟩ := hdelete
        exact ⟨.kv fault, by rw [hdelete, reply]⟩
    · simp only [dispatch, Returns, if_neg hword]
      exact hinvalid
  · have hkey := hline key (by simp)
    have hvalue := hline value (by simp)
    by_cases hword : word = ascii "add"
    · have hadd := addKv_returns hr hkey hvalue (fun _ => block) fun a old h => hblock a old h
      simp only [dispatch, Returns, if_pos hword]
      split_ifs at hadd ⊢
      · exact reply_returns hadd (isLine_of_check (by decide)) (isLine_of_check (by decide))
      · exact ⟨.kv .overread, by rw [hadd, reply]⟩
    · by_cases hword' : word = ascii "change"
      · have hchange := changeKv_returns hr key hvalue
        simp only [dispatch, Returns, if_neg hword, if_pos hword']
        split_ifs at hchange ⊢
        · exact reply_returns hchange (isLine_of_check (by decide)) (isLine_of_check (by decide))
        · exact ⟨.kv .overread, by rw [hchange, reply]⟩
      · simp only [dispatch, Returns, if_neg hword, if_neg hword']
        exact hinvalid
  · exact hinvalid

/-- **`handle_command` returns** with one line and a well-formed list, or crashes, as `Returns`
tells of the list and the words. -/
theorem handle_command_returns {h : Heap KvDsa} {kv : ℕ} (hr : WellFormed h kv) {req : Request}
    (hfresh : req.Fresh h) :
    if Returns (nodesOf h (some kv)) req.line.words then
      ∃ r result h', handle_command (fun _ => req.block) h (some kv) req.line.command =
        .ok (r, result, h') ∧ IsLine result ∧ WellFormed h' kv
    else ∃ crash, handle_command (fun _ => req.block) h (some kv) req.line.command =
      .error crash := by
  obtain ⟨line, block⟩ := req
  have hblock : ∀ a old, block = some (a, old) → a ∉ h := by
    rintro a old rfl
    exact hfresh
  rw [handle_command_of_split (splitCommand_eq line)]
  exact dispatch_returns hr hblock line.words (fun w hw => Line.nonzero_of_mem hw)
    fun w hw => Line.newline_notMem hw

end TlpiLearn.KeyValue
