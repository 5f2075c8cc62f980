import TlpiLearn.KeyValue.Returns
import TlpiLearn.ReadLine.ReadLine
import Mathlib.Tactic

/-!
# Lines that `handle_command` does not stand

A line that begins with a null byte becomes the empty string: the store at `strlen(temp) - 1` lies
in front of `temp` and no word is set. The empty word is the key of the head node: `delete_kv`
finds it there with no predecessor, and `change_kv` writes the head's value. `Safe` says what is
asked of a call, and `handle_command_safe_iff` that on every store the server can reach these are
all the lines that miss it.
-/

namespace TlpiLearn.KeyValue

/-- What `readLine(confd, command, MAXLINE)` returns on a connection that is not closed: bytes of
any kind, a newline only as the last of them. -/
structure Delivered where
  bytes : List UInt8
  pos : 0 < bytes.length
  fits : bytes.length < MAXLINE
  line : newline ∉ bytes.dropLast

/-- `command` behind `readLine`. -/
def Delivered.command (d : Delivered) : List UInt8 := d.bytes ++ [0]

/-- The words that are cut off a line that is not empty as a string. -/
def Delivered.words (d : Delivered) : List (List UInt8) :=
  KeyValue.words 3 ((cstr d.bytes).dropLast ++ [space])

/-- A line, and the block that `malloc` gives out if it is called. -/
structure Receipt where
  line : Delivered
  block : Option (ℕ × KvDsa)

/-- Blocks in use are not given out. -/
def Receipt.Fresh (h : Heap KvDsa) (r : Receipt) : Prop := ∀ x ∈ r.block, x.1 ∉ h

instance (h : Heap KvDsa) (r : Receipt) : Decidable (r.Fresh h) :=
  inferInstanceAs (Decidable (∀ x ∈ r.block, x.1 ∉ h))

/-- The store of a server: `handle_command` on line after line. -/
def stores (kv : ℕ) (h : Heap KvDsa) : Machine (Heap KvDsa) Receipt where
  init := h
  step h r :=
    if r.Fresh h then
      match handle_command (fun _ => r.block) h (some kv) r.line.command with
      | .ok (_, _, h') => some h'
      | .error _ => none
    else none

/-- The empty head node is in place, and its key and its value are what they were. -/
def HeadKept (h h' : Heap KvDsa) (kv : ℕ) : Prop :=
  ∃ w w', h.lookup kv = some w ∧ h'.lookup kv = some w' ∧ cstr w'.key = [] ∧
    w'.key = w.key ∧ w'.value = w.value

/-- What is asked of a call of `handle_command`: no store in front of `temp`, behind which no word
would be set, no null predecessor, and the head node as it was. -/
def Safe (h : Heap KvDsa) (kv : ℕ) : Except Crash (ℤ × List UInt8 × Heap KvDsa) → Prop
  | .error crash => crash ≠ .underrun ∧ crash ≠ .kv .nullDeref
  | .ok (_, _, h') => HeadKept h h' kv

/-- **The condition** on a line: it does not begin with a null byte, it is no `delete` with an empty
key, and a `change` with an empty key writes what the head node holds. -/
structure Permitted (h : Heap KvDsa) (kv : ℕ) (d : Delivered) : Prop where
  nonempty : d.bytes.head? ≠ some 0
  delete : d.words ≠ [ascii "delete", []]
  change : ∀ value, d.words = [ascii "change", [], value] →
    ∀ w, h.lookup kv = some w → strncpy MAXBUF value = w.value

/-! ## Lines -/

/-- What `readLine` returns before the end of the file is such a line. -/
theorem exists_delivered {reads : List ReadLine.ByteRead} (hok : .failed ∉ reads)
    (hpos : 0 < (ReadLine.readLine MAXLINE reads).1.value) :
    ∃ d : Delivered, (ReadLine.readLine MAXLINE reads).1.Returns d.bytes := by
  obtain ⟨hret, -, -⟩ := ReadLine.readLine_eq (n := MAXLINE) (by decide) hok
  have hlen := hret.1
  refine ⟨⟨_, ?_, ?_, ?_⟩, hret⟩
  · omega
  · have hle := List.length_take_le (MAXLINE - 1)
      (firstLine newline (ReadLine.delivered reads)).1
    exact lt_of_le_of_lt hle (by decide)
  · intro hmem
    refine notMem_dropLast_firstLine newline (ReadLine.delivered reads) ?_
    rw [List.dropLast_eq_take, List.take_take] at hmem
    rw [List.dropLast_eq_take]
    refine (List.take_subset_take_left _ ?_) hmem
    rw [List.length_take]
    omega

theorem splitCommand_delivered (d : Delivered) :
    splitCommand d.command = if d.bytes.head? = some 0 then .error .underrun else .ok d.words := by
  have hcstr : cstr d.command = cstr d.bytes := cstr_append_zero d.bytes
  have hlen : (cstr d.bytes).length < MAXLINE :=
    lt_of_le_of_lt (cstr_prefix_mem d.bytes).length_le d.fits
  have hnil : cstr d.bytes = [] ↔ d.bytes.head? = some 0 :=
    cstr_eq_nil_iff (List.ne_nil_of_length_pos d.pos)
  unfold splitCommand
  simp only [hcstr, hnil]
  rw [if_neg (by omega)]
  rfl

theorem Delivered.nonzero_of_mem {d : Delivered} {w : List UInt8} (hw : w ∈ d.words) :
    ∀ b ∈ w, b ≠ 0 := by
  rintro b hb rfl
  rcases List.mem_append.1 (words_subset hw _ hb) with hmem | hmem
  · exact zero_notMem_cstr d.bytes (List.mem_of_mem_dropLast hmem)
  · exact absurd hmem (by decide)

theorem Delivered.newline_notMem {d : Delivered} {w : List UInt8} (hw : w ∈ d.words) :
    newline ∉ w := by
  intro hmem
  rcases List.mem_append.1 (words_subset hw _ hmem) with hmem | hmem
  · obtain ⟨rest, hrest⟩ := cstr_prefix_mem d.bytes
    refine d.line ?_
    rw [← hrest]
    cases rest with
    | nil => rwa [List.append_nil]
    | cons b rest =>
      rw [List.dropLast_append_of_ne_nil (List.cons_ne_nil b rest)]
      exact List.mem_append_left _ (List.mem_of_mem_dropLast hmem)
  · exact absurd hmem (by decide)

/-! ## The head node -/

/-- The key and the value of the node at `kv`. -/
def fieldsAt (h : Heap KvDsa) (kv : ℕ) : Option (List UInt8 × List UInt8) :=
  (h.lookup kv).map fun v => (v.key, v.value)

section Head

variable {h h' : Heap KvDsa} {kv a : ℕ} {u v : KvDsa} {key value : List UInt8}

theorem fieldsAt_insert_of_ne (hne : a ≠ kv) : fieldsAt (h.insert a v) kv = fieldsAt h kv := by
  rw [fieldsAt, Finmap.lookup_insert_of_ne _ hne.symm, fieldsAt]

theorem fieldsAt_erase_of_ne (hne : a ≠ kv) : fieldsAt (h.erase a) kv = fieldsAt h kv := by
  rw [fieldsAt, Finmap.lookup_erase_ne hne.symm, fieldsAt]

/-- A node that gets another link. -/
theorem fieldsAt_insert_of_lookup (hv : h.lookup a = some v) (hkey : u.key = v.key)
    (hvalue : u.value = v.value) : fieldsAt (h.insert a u) kv = fieldsAt h kv := by
  by_cases ha : a = kv
  · rw [← ha, fieldsAt, fieldsAt, Finmap.lookup_insert, hv, Option.map_some, Option.map_some, hkey,
      hvalue]
  · exact fieldsAt_insert_of_ne ha

/-- A list's head node, and the nodes behind it. -/
theorem WellFormed.exists_head (hr : WellFormed h kv) :
    ∃ w l, SList KvDsa.next h (some kv) ((kv, w) :: l) ∧ h.lookup kv = some w ∧
      cstr w.key = [] ∧ kv ∉ l.map Prod.fst := by
  obtain ⟨l, hl, hs⟩ := hr
  obtain ⟨w, l', rfl, hw⟩ := hs.head
  have hl' : SList KvDsa.next h (some kv) ([] ++ (kv, w) :: l') := hl
  exact ⟨w, l', hl, hl.seg.2.1, hw, hl'.notMem.2⟩

theorem headKept_iff (hr : WellFormed h kv) :
    HeadKept h h' kv ↔ fieldsAt h' kv = fieldsAt h kv := by
  obtain ⟨w, l, -, hlookup, hw, -⟩ := hr.exists_head
  constructor
  · rintro ⟨w, w', hlookup, hlookup', -, hkey, hvalue⟩
    rw [fieldsAt, fieldsAt, hlookup, hlookup', Option.map_some, Option.map_some, hkey, hvalue]
  · intro h
    rw [fieldsAt, fieldsAt, hlookup, Option.map_some, Option.map_eq_some_iff] at h
    obtain ⟨w', hlookup', heq⟩ := h
    obtain ⟨hkey, hvalue⟩ := Prod.mk.inj heq
    exact ⟨w, w', hlookup, hlookup', by rw [hkey, hw], hkey, hvalue⟩

/-- The head node is passed in a search for another word than the empty one. -/
theorem skips_head (hv : cstr v.key = []) (hnil : key ≠ []) : v.Skips key where
  length_lt := by
    rw [KvDsa.entry, hv]
    exact Nat.zero_lt_succ 31
  ne := by
    rw [KvDsa.entry, hv]
    exact hnil.symm

/-- The empty word is found in the head node. -/
theorem keyIs_head (hv : cstr v.key = []) : v.keyIs [] = .ok true := by
  have hentry : v.entry.1 = [] := hv
  rw [KvDsa.keyIs_eq (by rw [hentry]; exact Nat.zero_lt_succ 31) (by simp), decide_eq_true hentry]

/-! ## The calls -/

/-- `delete_kv` with the empty key follows the predecessor of the head node. -/
theorem deleteKv_nil (hr : WellFormed h kv) : deleteKv h (some kv) [] = .error .nullDeref := by
  obtain ⟨w, l, -, hlookup, hw, -⟩ := hr.exists_head
  rw [deleteKv, fuelOf, deleteLoop, load_eq hlookup]
  simp only [bind, Except.bind, keyIs_head hw]
  rfl

/-- `change_kv` with the empty key writes the head's value. -/
theorem changeKv_nil (hr : WellFormed h kv) (value : List UInt8) :
    ∃ w, h.lookup kv = some w ∧
      changeKv h (some kv) [] value = .ok (0, h.insert kv (w.setValue value)) := by
  obtain ⟨w, l, -, hlookup, hw, -⟩ := hr.exists_head
  refine ⟨w, hlookup, ?_⟩
  rw [changeKv, fuelOf, changeLoop, load_eq hlookup]
  simp only [bind, Except.bind, keyIs_head hw]
  rfl

/-- What a call on the list that leaves the head node alone comes to. -/
def KeepsFields (h : Heap KvDsa) (kv : ℕ) (r : Except Fault (ℤ × Heap KvDsa)) : Prop :=
  r = .error .overread ∨ ∃ z h', r = .ok (z, h') ∧ fieldsAt h' kv = fieldsAt h kv

theorem deleteKv_keepsFields (hr : WellFormed h kv) (hzero : ∀ b ∈ key, b ≠ 0) (hnil : key ≠ []) :
    KeepsFields h kv (deleteKv h (some kv) key) := by
  obtain ⟨w, l, hl, hlookup, hw, hnotMem⟩ := hr.exists_head
  obtain ⟨f, hf⟩ := exists_fuelOf_eq hl (le_refl ((kv, w) :: l).length)
  have hhead : Seg KvDsa.next h (some kv) ([] ++ [(kv, w)]) w.next := ⟨rfl, hlookup, rfl⟩
  have hskip := deleteLoop_skip hzero hhead (by
    intro x hx
    rw [List.mem_singleton.1 hx]
    exact skips_head hw hnil) none (l.length + (f + 1))
  have hfuel : fuelOf h = ([] ++ [(kv, w)]).length + (l.length + (f + 1)) := by
    rw [hf, List.nil_append, List.length_cons, List.length_singleton]
    omega
  have hloop := deleteLoop_returns key hl.seg f
  rw [deleteKv, hfuel, hskip]
  split_ifs at hloop with hcompares
  · rcases hloop with hloop | ⟨l₁, c, u, a, v, l₂, heq, hloop⟩
    · exact .inr ⟨_, _, hloop, rfl⟩
    · refine .inr ⟨_, _, hloop, ?_⟩
      have hc : h.lookup c = some u := hl.seg.lookup (x := (c, u)) (by rw [heq]; simp)
      have hne : a ≠ kv := by
        rintro rfl
        cases l₁ with
        | nil =>
          obtain ⟨-, rfl⟩ := List.cons.inj heq
          exact hnotMem (by simp)
        | cons y l₁ =>
          obtain ⟨-, rfl⟩ := List.cons.inj heq
          exact hnotMem (by simp)
      rw [fieldsAt_erase_of_ne hne]
      exact fieldsAt_insert_of_lookup hc rfl rfl
  · exact .inl hloop

theorem changeKv_keepsFields (hr : WellFormed h kv) (hzero : ∀ b ∈ key, b ≠ 0) (hnil : key ≠ [])
    (value : List UInt8) : KeepsFields h kv (changeKv h (some kv) key value) := by
  obtain ⟨w, l, hl, hlookup, hw, hnotMem⟩ := hr.exists_head
  obtain ⟨f, hf⟩ := exists_fuelOf_eq hl (le_refl ((kv, w) :: l).length)
  have hhead : Seg KvDsa.next h (some kv) [(kv, w)] w.next := ⟨rfl, hlookup, rfl⟩
  have hskip := changeLoop_skip value hzero hhead (by
    intro x hx
    rw [List.mem_singleton.1 hx]
    exact skips_head hw hnil) (l.length + (f + 1))
  have hfuel : fuelOf h = [(kv, w)].length + (l.length + (f + 1)) := by
    rw [hf, List.length_cons, List.length_singleton]
    omega
  have hloop := changeLoop_returns key value hl.seg.2.2 f
  rw [changeKv, hfuel, hskip]
  split_ifs at hloop with hcompares
  · rcases hloop with hloop | ⟨x, hx, hloop⟩
    · exact .inr ⟨_, _, hloop, rfl⟩
    · refine .inr ⟨_, _, hloop, fieldsAt_insert_of_ne ?_⟩
      rintro rfl
      exact hnotMem (List.mem_map_of_mem hx)
  · exact .inl hloop

theorem addKv_keepsFields (hr : WellFormed h kv) {malloc : Malloc}
    (hfresh : ∀ a old, malloc h = some (a, old) → a ∉ h) :
    KeepsFields h kv (addKv malloc h (some kv) key value) := by
  obtain ⟨w, l, hl, hlookup, -, -⟩ := hr.exists_head
  obtain ⟨f, hf⟩ := exists_fuelOf_eq hl (show l.length ≤ _ by simp)
  have hloop := addLoop_returns malloc key value hl.seg f
  rw [addKv, hf]
  split_ifs at hloop with hcompares
  · rcases hloop with hloop | ⟨l', c, u, heq, -, hloop⟩
    · exact .inr ⟨_, _, hloop, rfl⟩
    · have hc : h.lookup c = some u := hl.seg.lookup (x := (c, u)) (by rw [heq]; simp)
      cases hmalloc : malloc h with
      | none =>
        rw [hmalloc] at hloop
        exact .inr ⟨_, _, hloop, fieldsAt_insert_of_lookup hc rfl rfl⟩
      | some x =>
        obtain ⟨a, old⟩ := x
        have hne : a ≠ kv := by
          rintro rfl
          exact hfresh a old hmalloc (Finmap.mem_of_lookup_eq_some hlookup)
        rw [hmalloc] at hloop
        refine .inr ⟨_, _, hloop, ?_⟩
        rw [fieldsAt_insert_of_ne hne]
        exact fieldsAt_insert_of_lookup hc rfl rfl
  · exact .inl hloop

/-! ## The dispatch -/

theorem reply_safe {r : Except Fault (ℤ × Heap KvDsa)} (hr : WellFormed h kv)
    (hkept : KeepsFields h kv r) (failed sussessed : String) :
    Safe h kv (reply r failed sussessed) := by
  rcases hkept with rfl | ⟨z, h', rfl, hfields⟩
  · exact ⟨by simp, by simp⟩
  · have hkept : HeadKept h h' kv := (headKept_iff hr).2 hfields
    by_cases hz : z = -1
    · rw [reply, if_pos hz]
      exact hkept
    · rw [reply, if_neg hz]
      exact hkept

theorem headKept_self (hr : WellFormed h kv) : HeadKept h h kv := (headKept_iff hr).2 rfl

/-- `show` runs over a list without a bad pointer. -/
theorem showLoop_error {p : Ptr} {l : List (ℕ × KvDsa)} (hl : Seg KvDsa.next h p l none)
    (result : List UInt8) (fuel : ℕ) {crash : Crash}
    (hcrash : showLoop (l.length + (fuel + 1)) h p result = .error crash) :
    crash = .overread ∨ crash = .overrun := by
  induction l generalizing p result with
  | nil =>
    cases hl
    rw [List.length_nil, Nat.zero_add, showLoop] at hcrash
    split_ifs at hcrash
    exact .inr (Except.error.inj hcrash).symm
  | cons x l ih =>
    obtain ⟨a, v⟩ := x
    obtain ⟨rfl, hv, hrest⟩ := hl
    rw [List.length_cons, Nat.add_right_comm, showLoop, load_eq hv, Except.mapError] at hcrash
    cases ht : v.text with
    | error c =>
      simp only [bind, Except.bind, ht] at hcrash
      unfold KvDsa.text at ht
      split_ifs at ht
      rw [← Except.error.inj hcrash, ← Except.error.inj ht]
      exact .inl rfl
    | ok t =>
      simp only [bind, Except.bind, ht] at hcrash
      split_ifs at hcrash
      · cases hcrash
      · exact ih hrest _ hcrash

theorem show_safe (hr : WellFormed h kv) (malloc : Malloc) :
    Safe h kv (dispatch malloc h (some kv) [ascii "show"]) := by
  obtain ⟨w, l, hl, hlookup, -, -⟩ := hr.exists_head
  obtain ⟨f, hf⟩ := exists_fuelOf_eq hl (show l.length ≤ _ by simp)
  rw [dispatch, if_pos rfl, load_eq hlookup, hf, Except.mapError]
  simp only [bind, Except.bind]
  cases hloop : showLoop (l.length + (f + 1)) h w.next [] with
  | error crash =>
    rcases showLoop_error hl.seg.2.2 [] f hloop with rfl | rfl
    · exact ⟨by simp, by simp⟩
    · exact ⟨by simp, by simp⟩
  | ok r => exact headKept_self hr

/-- **The dispatch** is safe if the words are neither a `delete` with an empty key nor a `change`
with one that alters the head node. -/
theorem dispatch_safe_iff (hr : WellFormed h kv) {malloc : Malloc}
    (hfresh : ∀ a old, malloc h = some (a, old) → a ∉ h) {ws : List (List UInt8)}
    (hzero : ∀ w ∈ ws, ∀ b ∈ w, b ≠ 0) :
    Safe h kv (dispatch malloc h (some kv) ws) ↔ ws ≠ [ascii "delete", []] ∧
      ∀ value, ws = [ascii "change", [], value] →
        ∀ w, h.lookup kv = some w → strncpy MAXBUF value = w.value := by
  have hinvalid : Safe h kv (invalidCommand h) := headKept_self hr
  rcases ws with _ | ⟨word, _ | ⟨key, _ | ⟨value, _ | ⟨_, _⟩⟩⟩⟩
  · exact iff_of_true hinvalid ⟨by simp, by simp⟩
  · refine iff_of_true ?_ ⟨by simp, by simp⟩
    by_cases hword : word = ascii "show"
    · rw [hword]
      exact show_safe hr malloc
    · rw [dispatch, if_neg hword]
      exact hinvalid
  · by_cases hword : word = ascii "delete"
    · rw [dispatch, if_pos hword, hword]
      by_cases hnil : key = []
      · rw [hnil, deleteKv_nil hr]
        exact iff_of_false (fun h => h.2 rfl) fun h => h.1 rfl
      · refine iff_of_true ?_ ⟨by simpa using hnil, by simp⟩
        exact reply_safe hr (deleteKv_keepsFields hr (hzero key (by simp)) hnil) _ _
    · rw [dispatch, if_neg hword]
      exact iff_of_true hinvalid ⟨by simp [hword], by simp⟩
  · by_cases hword : word = ascii "add"
    · have hne : word ≠ ascii "change" := by
        rw [hword]
        decide
      rw [dispatch, if_pos hword]
      refine iff_of_true (reply_safe hr (addKv_keepsFields hr hfresh) _ _) ⟨by simp, ?_⟩
      intro value' heq
      exact absurd (List.cons.inj heq).1 hne
    · by_cases hword' : word = ascii "change"
      · rw [dispatch, if_neg hword, if_pos hword', hword']
        by_cases hnil : key = []
        · obtain ⟨w, hlookup, hchange⟩ := changeKv_nil hr value
          have hkept : HeadKept h (h.insert kv (w.setValue value)) kv ↔
              strncpy MAXBUF value = w.value := by
            rw [headKept_iff hr, fieldsAt, fieldsAt, Finmap.lookup_insert, hlookup]
            simp [KvDsa.setValue]
          rw [hnil, hchange]
          refine hkept.trans ⟨fun h => ⟨by simp, ?_⟩, fun h => h.2 value rfl w hlookup⟩
          intro value' heq w' hlookup'
          obtain rfl : value = value' := by simpa using heq
          rwa [← Option.some.inj (hlookup.symm.trans hlookup')]
        · refine iff_of_true ?_ ⟨by simp, by simp [hnil]⟩
          exact reply_safe hr (changeKv_keepsFields hr (hzero key (by simp)) hnil value) _ _
      · rw [dispatch, if_neg hword, if_neg hword']
        exact iff_of_true hinvalid ⟨by simp, by simp [hword']⟩
  · exact iff_of_true hinvalid ⟨by simp, by simp⟩

end Head

/-! ## Runs -/

/-- A line keeps the list well formed. -/
theorem wellFormed_step {kv : ℕ} {h₀ h h' : Heap KvDsa} {r : Receipt} (hr : WellFormed h kv)
    (hstep : (stores kv h₀).step h r = some h') : WellFormed h' kv := by
  simp only [stores] at hstep
  split_ifs at hstep with hfresh
  have hsplit := splitCommand_delivered r.line
  by_cases hhead : r.line.bytes.head? = some 0
  · rw [if_pos hhead] at hsplit
    unfold handle_command at hstep
    rw [hsplit] at hstep
    cases hstep
  · rw [if_neg hhead] at hsplit
    rw [handle_command_of_split hsplit] at hstep
    have hreturns := dispatch_returns hr (fun a old hblock => hfresh _ hblock) r.line.words
      (fun w hw => Delivered.nonzero_of_mem hw) fun w hw => Delivered.newline_notMem hw
    split_ifs at hreturns
    · obtain ⟨z, result, h'', hdispatch, -, hr'⟩ := hreturns
      rw [hdispatch] at hstep
      exact Option.some.inj hstep ▸ hr'
    · obtain ⟨crash, hdispatch⟩ := hreturns
      rw [hdispatch] at hstep
      cases hstep

/-- **Safe lines**: on every store that a server of `init_kv` reaches, whatever lines it was given,
`handle_command` is safe on the next line if and only if the line is permitted. -/
theorem handle_command_safe_iff {malloc : Malloc} {h₀ h₁ h : Heap KvDsa} {kv : ℕ}
    (hinit : initKv malloc h₀ = (some kv, h₁)) (hs : (stores kv h₁).Reachable h) (r : Receipt)
    (hfresh : r.Fresh h) :
    Safe h kv (handle_command (fun _ => r.block) h (some kv) r.line.command) ↔
      Permitted h kv r.line := by
  have hr : WellFormed h kv := hs.invariant (wellFormed_initKv hinit)
    fun _ _ _ hr _ hstep => wellFormed_step hr hstep
  have hsplit := splitCommand_delivered r.line
  by_cases hhead : r.line.bytes.head? = some 0
  · rw [if_pos hhead] at hsplit
    unfold handle_command
    rw [hsplit]
    exact iff_of_false (fun h => h.1 rfl) fun h => h.nonempty hhead
  · rw [if_neg hhead] at hsplit
    rw [handle_command_of_split hsplit, dispatch_safe_iff hr (fun a old hblock => hfresh _ hblock)
      fun w hw => Delivered.nonzero_of_mem hw]
    exact ⟨fun h => ⟨hhead, h.1, h.2⟩, fun h => ⟨h.delete, h.change⟩⟩

/-- The list behind `init_kv` on an empty heap. -/
def freshList : Heap KvDsa := (initKv (fun _ => some (1, .ofWords [] [])) ∅).2

theorem initKv_freshList : initKv (fun _ => some (1, .ofWords [] [])) ∅ = (some 1, freshList) := rfl

/-- The line `add a b`, and the block that `malloc` gives out for it. -/
def addReceipt : Receipt :=
  ⟨⟨ascii "add a b\n", by decide, by decide, by decide⟩, some (2, .ofWords [] [])⟩

/-- On the list that holds `a`, an `add` of two empty words gets another block and is safe, and a
`delete` of the empty word is not. -/
theorem handle_command_safe_iff_added :
    let add : Delivered := ⟨ascii "add  \n", by decide, by decide, by decide⟩
    let delete : Delivered := ⟨ascii "delete \n", by decide, by decide, by decide⟩
    ∃ h, (stores 1 freshList).step freshList addReceipt = some h ∧ h.keys = {1, 2} ∧
      Safe h 1 (handle_command (fun _ => some (3, .ofWords [] [])) h (some 1) add.command) ∧
      ¬Safe h 1 (handle_command (fun _ => none) h (some 1) delete.command) := by
  intro add delete
  obtain ⟨h, hstep, hkeys⟩ :
      ∃ h, (stores 1 freshList).step freshList addReceipt = some h ∧ h.keys = {1, 2} :=
    ⟨_, rfl, by decide⟩
  have hreach : (stores 1 freshList).Reachable h := .step .init trivial hstep
  refine ⟨h, hstep, hkeys, ?_, ?_⟩
  · refine (handle_command_safe_iff initKv_freshList hreach ⟨add, some (3, .ofWords [] [])⟩ ?_).2 ?_
    · intro x hx
      obtain rfl := Option.some.inj hx
      rw [← Finmap.mem_keys, hkeys]
      decide
    · have hwords : add.words = [ascii "add", [], []] := by decide
      refine ⟨by decide, by rw [hwords]; decide, fun value hvalue => ?_⟩
      rw [hwords] at hvalue
      exact absurd (List.cons.inj hvalue).1 (by decide)
  · intro hsafe
    have hpermitted := (handle_command_safe_iff initKv_freshList hreach ⟨delete, none⟩
      fun x hx => absurd hx (Option.not_mem_none x)).1 hsafe
    exact hpermitted.delete (by decide)

/-- The line `delete ` with an empty key, on an empty list. -/
theorem delete_empty_key_crashes :
    let line : Delivered := ⟨ascii "delete \n", by decide, by decide, by decide⟩
    handle_command (fun _ => none) freshList (some 1) line.command = .error (.kv .nullDeref) ∧
      ¬Safe freshList 1 (handle_command (fun _ => none) freshList (some 1) line.command) := by
  intro line
  have hr : WellFormed freshList 1 := wellFormed_initKv initKv_freshList
  have hwords : line.words = [ascii "delete", []] := by decide
  have hsplit := splitCommand_delivered line
  rw [if_neg (by decide), hwords] at hsplit
  have hcrash : handle_command (fun _ => none) freshList (some 1) line.command =
      .error (.kv .nullDeref) := by
    rw [handle_command_of_split hsplit, dispatch, if_pos rfl, deleteKv_nil hr]
    rfl
  refine ⟨hcrash, ?_⟩
  rw [hcrash]
  exact fun h => h.2 rfl

end TlpiLearn.KeyValue
