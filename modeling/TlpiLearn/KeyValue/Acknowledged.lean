import TlpiLearn.KeyValue.HandleCommand
import TlpiLearn.KeyValue.Refinement
import Mathlib.Tactic

/-!
# The key-value server keeps what it acknowledges

Between the answer `add sussessed` to `add K V` and the next `delete` or `change` of `K`, each
`show` lists `K` once, with the value `V`, a second `add` of `K` is refused and `delete` of `K`
succeeds (`Respects`). `handle_command_eq` is the step: on a list that stores a map the answer is
the one of the map (`answer`). It needs words that are shorter than their fields, a `delete` of
another word than the empty one, which is the key of the head node, and a listing that leaves room
for the newline behind it (`KeepsShort`). In every run of requests that are like this the server
keeps its word (`acknowledged_entries_stand`); a longer key is stored without its end, and is not
found again (`long_key_added_twice`).
-/

namespace TlpiLearn.KeyValue

/-- The text of an entry. -/
def entryText (e : List UInt8 × List UInt8) : List UInt8 :=
  ascii "(" ++ e.1 ++ ascii " : " ++ e.2 ++ ascii "); "

/-- The texts of some entries. -/
def listing (es : List (List UInt8 × List UInt8)) : List UInt8 := es.flatMap entryText

theorem listing_nil : listing [] = [] := rfl

theorem listing_cons (e : List UInt8 × List UInt8) (es : List (List UInt8 × List UInt8)) :
    listing (e :: es) = entryText e ++ listing es :=
  List.flatMap_cons

/-- What a command means for the map; `block` tells whether there is memory. -/
def answer (m : Stored) (block : Bool) : List (List UInt8) → List UInt8 × Stored
  | [word, key, value] =>
    if word = ascii "add" then
      if hk : key ∉ m.keys ∧ block then (ascii "add sussessed\n", m.append key value hk.1)
      else (ascii "add failed\n", m)
    else if word = ascii "change" then
      if key = [] then (ascii "change sussessed\n", m)
      else if key ∈ m.keys then (ascii "change sussessed\n", m.replace key value)
      else (ascii "change failed\n", m)
    else (ascii "invalid command\n", m)
  | [word, key] =>
    if word = ascii "delete" then
      if key ∈ m.keys then (ascii "delete sussessed\n", m.erase key)
      else (ascii "delete failed\n", m)
    else (ascii "invalid command\n", m)
  | [word] =>
    if word = ascii "show" then
      if MAXLINE ≤ (listing m.entries).length then (ascii "too long\n", m)
      else (listing m.entries ++ [newline], m)
    else (ascii "invalid command\n", m)
  | _ => (ascii "invalid command\n", m)

/-- The condition on a command: a word that is to be stored is shorter than its field, the word of a
`delete` is not empty, and the newline behind a listing has room. -/
def Fits (es : List (List UInt8 × List UInt8)) (block : Bool) : List (List UInt8) → Prop
  | [word, key, value] =>
    (word = ascii "add" → block → key ∉ es.map Prod.fst →
      key.length < MAXBUF ∧ value.length < MAXBUF) ∧
    (word = ascii "change" → key ≠ [] → key ∈ es.map Prod.fst → value.length < MAXBUF)
  | [word, key] => word = ascii "delete" → key ≠ []
  | [word] => word = ascii "show" → (listing es).length + 1 ≠ MAXLINE
  | _ => True

section Answers

variable (m : Stored) (block : Bool) (key value : List UInt8)

theorem answer_add :
    answer m block [ascii "add", key, value] =
      if hk : key ∉ m.keys ∧ block then (ascii "add sussessed\n", m.append key value hk.1)
      else (ascii "add failed\n", m) := by
  simp only [answer, if_true]

theorem answer_change :
    answer m block [ascii "change", key, value] =
      if key = [] then (ascii "change sussessed\n", m)
      else if key ∈ m.keys then (ascii "change sussessed\n", m.replace key value)
      else (ascii "change failed\n", m) := by
  have hword : ascii "change" ≠ ascii "add" := by decide
  simp only [answer, if_neg hword, if_true]

theorem answer_delete :
    answer m block [ascii "delete", key] =
      if key ∈ m.keys then (ascii "delete sussessed\n", m.erase key)
      else (ascii "delete failed\n", m) := by
  simp only [answer, if_true]

theorem answer_show :
    answer m block [ascii "show"] =
      if MAXLINE ≤ (listing m.entries).length then (ascii "too long\n", m)
      else (listing m.entries ++ [newline], m) := by
  simp only [answer, if_true]

end Answers

/-! ## The listing -/

theorem KvDsa.text_eq {p : KvDsa} (hkey : p.entry.1.length < MAXBUF)
    (hvalue : p.entry.2.length < MAXBUF) : p.text = .ok (entryText p.entry) := by
  have hkey0 : 0 ∈ p.key := zero_mem_of_length_lt (by rwa [p.length_key])
  have hvalue0 : 0 ∈ p.value := zero_mem_of_length_lt (by rwa [p.length_value])
  unfold KvDsa.text
  rw [if_pos ⟨List.mem_append_left _ hkey0, hvalue0⟩, cstr_append hkey0]
  rfl

/-- What `show` answers. -/
theorem showLoop_eq {h : Heap KvDsa} {p : Ptr} {l : List (ℕ × KvDsa)}
    (hl : Seg KvDsa.next h p l none)
    (hshort : ∀ x ∈ l, x.2.entry.1.length < MAXBUF ∧ x.2.entry.2.length < MAXBUF)
    {result : List UInt8} (hlt : result.length < MAXLINE) (fuel : ℕ)
    (hroom : (result ++ listing (l.map fun x => x.2.entry)).length + 1 ≠ MAXLINE) :
    showLoop (l.length + (fuel + 1)) h p result =
      if MAXLINE ≤ (result ++ listing (l.map fun x => x.2.entry)).length then
        .ok (-1, ascii "too long\n")
      else .ok (0, result ++ listing (l.map fun x => x.2.entry) ++ [newline]) := by
  induction l generalizing p result with
  | nil =>
    cases hl
    simp only [List.map_nil, listing_nil, List.append_nil] at hroom ⊢
    rw [List.length_nil, Nat.zero_add, showLoop, if_neg (by omega), if_neg (by omega)]
  | cons x l ih =>
    obtain ⟨a, v⟩ := x
    obtain ⟨rfl, hv, hrest⟩ := hl
    obtain ⟨hkey, hvalue⟩ := hshort _ List.mem_cons_self
    simp only [List.map_cons, listing_cons, ← List.append_assoc] at hroom ⊢
    rw [List.length_cons, Nat.add_right_comm, showLoop, load_eq hv, Except.mapError]
    simp only [bind, Except.bind, KvDsa.text_eq hkey hvalue]
    by_cases hlong : MAXLINE < (entryText v.entry).length + result.length + 1
    · rw [if_pos hlong, if_pos]
      · rfl
      · rw [List.length_append, List.length_append]
        omega
    · rw [if_neg hlong]
      refine ih hrest (fun x hx => hshort x (List.mem_cons_of_mem _ hx)) ?_ hroom
      rw [List.length_append]
      omega

/-! ## Commands -/

section Commands

variable {h : Heap KvDsa} {kv : ℕ} {m : Stored} {key value : List UInt8}

/-- `add`. -/
theorem add_eq (hr : Nodes h kv m) (hkey : ∀ b ∈ key, b ≠ 0) (hvalue : ∀ b ∈ value, b ≠ 0)
    {line : Line} {block : Option (ℕ × KvDsa)} (hfresh : Request.Fresh h ⟨line, block⟩)
    (hok : block.isSome → key ∉ m.keys → key.length < MAXBUF ∧ value.length < MAXBUF) :
    ∃ r h', reply (addKv (fun _ => block) h (some kv) key value) "add failed\n" "add sussessed\n" =
        .ok (r, (answer m block.isSome [ascii "add", key, value]).1, h') ∧
      Nodes h' kv (answer m block.isSome [ascii "add", key, value]).2 := by
  obtain ⟨l, hl⟩ := hr
  rw [answer_add]
  by_cases hk : key ∈ m.keys
  · rw [dif_neg fun h => h.1 hk, hl.addKv_of_mem hkey hk]
    exact ⟨_, h, reply_failed h .., l, hl⟩
  · cases block with
    | none =>
      obtain ⟨h', hadd, hr'⟩ : ∃ h', addKv (fun _ => none) h (some kv) key value = .ok (-1, h') ∧
          Nodes h' kv m := hl.addKv_of_null hkey hk value rfl
      rw [dif_neg fun h => by simp at h, hadd]
      exact ⟨_, h', reply_failed h' .., hr'⟩
    | some x =>
      obtain ⟨a, old⟩ := x
      obtain ⟨hlt, hlt'⟩ := hok rfl hk
      obtain ⟨h', hadd, hr'⟩ : ∃ h', addKv (fun _ => some (a, old)) h (some kv) key value =
          .ok (0, h') ∧ Nodes h' kv (m.append key value hk) :=
        hl.addKv_of_notMem hkey hk hlt hvalue hlt' rfl hfresh
      rw [dif_pos ⟨hk, rfl⟩, hadd]
      exact ⟨_, h', reply_sussessed h' .., hr'⟩

/-- `change`. -/
theorem change_eq (hr : Nodes h kv m) (hkey : ∀ b ∈ key, b ≠ 0) (hvalue : ∀ b ∈ value, b ≠ 0)
    (block : Bool) (hok : key ≠ [] → key ∈ m.keys → value.length < MAXBUF) :
    ∃ r h', reply (changeKv h (some kv) key value) "change failed\n" "change sussessed\n" =
        .ok (r, (answer m block [ascii "change", key, value]).1, h') ∧
      Nodes h' kv (answer m block [ascii "change", key, value]).2 := by
  obtain ⟨l, hl⟩ := hr
  rw [answer_change]
  by_cases hnil : key = []
  · obtain ⟨h', hchange, hr'⟩ := hl.changeKv_nil value
    rw [if_pos hnil, hnil, hchange]
    exact ⟨_, h', reply_sussessed h' .., hr'⟩
  · rw [if_neg hnil]
    by_cases hk : key ∈ m.keys
    · obtain ⟨h', hchange, hr'⟩ := hl.changeKv_of_mem hkey hnil hk hvalue (hok hnil hk)
      rw [if_pos hk, hchange]
      exact ⟨_, h', reply_sussessed h' .., hr'⟩
    · rw [if_neg hk, hl.changeKv_of_notMem hkey hnil hk]
      exact ⟨_, h, reply_failed h .., l, hl⟩

/-- `delete`. -/
theorem delete_eq (hr : Nodes h kv m) (hkey : ∀ b ∈ key, b ≠ 0) (block : Bool)
    (hnil : key ≠ []) :
    ∃ r h', reply (deleteKv h (some kv) key) "delete failed\n" "delete sussessed\n" =
        .ok (r, (answer m block [ascii "delete", key]).1, h') ∧
      Nodes h' kv (answer m block [ascii "delete", key]).2 := by
  obtain ⟨l, hl⟩ := hr
  rw [answer_delete]
  by_cases hk : key ∈ m.keys
  · obtain ⟨h', hdelete, hr'⟩ := hl.deleteKv_of_mem hkey hnil hk
    rw [if_pos hk, hdelete]
    exact ⟨_, h', reply_sussessed h' .., hr'⟩
  · rw [if_neg hk, hl.deleteKv_of_notMem hkey hnil hk]
    exact ⟨_, h, reply_failed h .., l, hl⟩

/-- `show`. -/
theorem show_eq (hr : Nodes h kv m) (hroom : (listing m.entries).length + 1 ≠ MAXLINE) :
    ∃ p, load h (some kv) = .ok p ∧ showLoop (fuelOf h) h p.next [] =
      if MAXLINE ≤ (listing m.entries).length then .ok (-1, ascii "too long\n")
      else .ok (0, listing m.entries ++ [newline]) := by
  obtain ⟨l, hl⟩ := hr
  obtain ⟨w, l', rfl, -, hl'⟩ := hl.exists_head
  obtain ⟨-, hlookup, hrest⟩ := hl.list.seg
  obtain ⟨f, hf⟩ := exists_fuelOf_eq hl.list (show l'.length ≤ _ by simp)
  have hshort : ∀ x ∈ l', x.2.entry.1.length < MAXBUF ∧ x.2.entry.2.length < MAXBUF :=
    fun x hx => hl.short _ (hl' ▸ List.mem_map_of_mem hx)
  have hempty : ([] : List UInt8).length < MAXLINE := by decide
  have hloop := showLoop_eq hrest hshort hempty f
  rw [hl', List.nil_append] at hloop
  exact ⟨w, load_eq hlookup, by rw [hf, hloop hroom]⟩

end Commands

/-- **A command** on a list that stores a map is answered as the map answers it. -/
theorem handle_command_eq {h : Heap KvDsa} {kv : ℕ} {m : Stored} (hr : Nodes h kv m) {req : Request}
    (hfresh : req.Fresh h) (hok : Fits m.entries req.block.isSome req.line.words) :
    ∃ r h', handle_command (fun _ => req.block) h (some kv) req.line.command =
        .ok (r, (answer m req.block.isSome req.line.words).1, h') ∧
      Nodes h' kv (answer m req.block.isSome req.line.words).2 := by
  obtain ⟨line, block⟩ := req
  have hzero : ∀ w ∈ line.words, ∀ b ∈ w, b ≠ 0 := fun w hw => Line.nonzero_of_mem hw
  rw [handle_command_of_split (splitCommand_eq line)]
  unfold dispatch
  simp only [bind, Except.bind] at hok ⊢
  generalize line.words = ws at hzero hok ⊢
  have hinvalid : ∃ r h', invalidCommand h = .ok (r, ascii "invalid command\n", h') ∧
      Nodes h' kv m := ⟨_, h, rfl, hr⟩
  match ws with
  | [] => exact hinvalid
  | [word] =>
    by_cases hword : word = ascii "show"
    · obtain ⟨p, hload, hloop⟩ := show_eq hr (hok hword)
      rw [hword, answer_show]
      simp only [if_true, hload, Except.mapError, hloop]
      split_ifs
      · exact ⟨_, h, rfl, hr⟩
      · exact ⟨_, h, rfl, hr⟩
    · unfold answer
      simp only [if_neg hword]
      exact hinvalid
  | [word, key] =>
    by_cases hword : word = ascii "delete"
    · simp only [if_pos hword]
      rw [hword]
      exact delete_eq hr (hzero key (by simp)) _ (hok hword)
    · unfold answer
      simp only [if_neg hword]
      exact hinvalid
  | [word, key, value] =>
    obtain ⟨hadd, hchange⟩ := hok
    by_cases hword : word = ascii "add"
    · simp only [if_pos hword]
      rw [hword]
      exact add_eq hr (hzero key (by simp)) (hzero value (by simp)) hfresh (hadd hword)
    · by_cases hword' : word = ascii "change"
      · simp only [if_neg hword, if_pos hword']
        rw [hword']
        exact change_eq hr (hzero key (by simp)) (hzero value (by simp)) _ (hchange hword')
      · unfold answer
        simp only [if_neg hword, if_neg hword']
        exact hinvalid
  | _ :: _ :: _ :: _ :: _ => exact hinvalid

/-! ## Runs -/

/-- The keys and values behind the head node. -/
def Server.entries (s : Server) : List (List UInt8 × List UInt8) :=
  (nodesOf s.heap s.kv).tail.map KvDsa.entry

/-- **The condition** on a request to the server. -/
def KeepsShort (s : Server) (req : Request) : Prop :=
  Fits s.entries req.block.isSome req.line.words

/-- The line is a `delete` or a `change` of the key. -/
def Line.Touches (line : Line) (key : List UInt8) : Prop :=
  line.words = [ascii "delete", key] ∨ ∃ value, line.words = [ascii "change", key, value]

/-- The server has acknowledged the entry, and there was no `delete` or `change` of its key
since. -/
def Stands (log : List Exchange) (key value : List UInt8) : Prop :=
  ∃ before x after, log = before ++ x :: after ∧ x.line.words = [ascii "add", key, value] ∧
    x.result = ascii "add sussessed\n" ∧ ∀ y ∈ after, ¬ y.line.Touches key

/-- The answer lists the key once, with the value. -/
def Lists (result key value : List UInt8) : Prop :=
  ∃ es, result = listing es ++ [newline] ∧ (∀ e ∈ es, space ∉ e.1 ∧ space ∉ e.2) ∧
    es.filter (fun e => e.1 = key) = [(key, value)]

/-- The answer agrees with an entry that stands. -/
def Exchange.Respects (x : Exchange) (key value : List UInt8) : Prop :=
  (x.line.words = [ascii "show"] → x.result = ascii "too long\n" ∨ Lists x.result key value) ∧
    (∀ value', x.line.words = [ascii "add", key, value'] → x.result = ascii "add failed\n") ∧
    (x.line.words = [ascii "delete", key] → x.result = ascii "delete sussessed\n")

/-- Every answer agrees with the entries that stood before it. -/
def Faithful (log : List Exchange) : Prop :=
  ∀ before x after, log = before ++ x :: after →
    ∀ key value, Stands before key value → x.Respects key value

/-- The invariant: the list stores a map with all entries that stand. -/
structure Keeps (s : Server) (m : Stored) : Prop where
  nodes : ∃ kv, s.kv = some kv ∧ Nodes s.heap kv m
  spaces : ∀ e ∈ m.entries, space ∉ e.1 ∧ space ∉ e.2
  crash : s.crash = none
  stands : ∀ key value, Stands s.log key value → (key, value) ∈ m.entries
  faithful : Faithful s.log

variable {s s' : Server} {m : Stored} {req : Request}

/-- What the list stores is read off it. -/
theorem Keeps.entries_eq (hs : Keeps s m) : s.entries = m.entries := by
  obtain ⟨kv, hkv, l, hl⟩ := hs.nodes
  obtain ⟨w, l', rfl, -, hl'⟩ := hl.exists_head
  rw [Server.entries, hkv, nodesOf_eq hl.list, List.map_cons, List.tail_cons, List.map_map, ← hl']
  rfl

theorem stands_append {log : List Exchange} {x : Exchange} {key value : List UInt8}
    (h : Stands (log ++ [x]) key value) :
    (x.line.words = [ascii "add", key, value] ∧ x.result = ascii "add sussessed\n") ∨
      (Stands log key value ∧ ¬ x.line.Touches key) := by
  obtain ⟨before, y, after, heq, hwords, hresult, hafter⟩ := h
  obtain rfl | ⟨after, z, rfl⟩ := after.eq_nil_or_concat'
  · obtain ⟨-, hx⟩ := List.append_inj' heq rfl
    obtain rfl := List.cons.inj hx |>.1
    exact .inl ⟨hwords, hresult⟩
  · rw [← List.cons_append, ← List.append_assoc] at heq
    obtain ⟨hlog, hx⟩ := List.append_inj' heq rfl
    obtain rfl := List.cons.inj hx |>.1
    exact .inr ⟨⟨before, y, after, hlog, hwords, hresult,
      fun w hw => hafter w (List.mem_append_left _ hw)⟩,
      hafter x (List.mem_append_right _ (List.mem_singleton_self _))⟩

/-- A map has one entry for a key. -/
theorem filter_entries {key value : List UInt8} (h : (key, value) ∈ m.entries) :
    m.entries.filter (fun e => e.1 = key) = [(key, value)] := by
  obtain ⟨l₁, l₂, hm⟩ := List.append_of_mem h
  have hother : ∀ e, e ∈ l₁ ∨ e ∈ l₂ → ¬ e.1 = key := fun e he => InsertionMap.ne_of_mem hm he
  have h₁ : l₁.filter (fun e => e.1 = key) = [] :=
    List.filter_eq_nil_iff.2 fun e he => by simpa using hother e (.inl he)
  have h₂ : l₂.filter (fun e => e.1 = key) = [] :=
    List.filter_eq_nil_iff.2 fun e he => by simpa using hother e (.inr he)
  rw [hm, List.filter_append, List.filter_cons_of_pos (by simp), h₁, h₂, List.nil_append]

/-- **The answers of a map** agree with its entries. -/
theorem answer_respects {line : Line} {key value : List UInt8} (block : Bool)
    (hspaces : ∀ e ∈ m.entries, space ∉ e.1 ∧ space ∉ e.2) (h : (key, value) ∈ m.entries) :
    Exchange.Respects ⟨line, (answer m block line.words).1⟩ key value := by
  have hkey : key ∈ m.keys := List.mem_map_of_mem h
  refine ⟨fun hwords => ?_, fun value' hwords => ?_, fun hwords => ?_⟩
  · dsimp only at hwords ⊢
    rw [hwords, answer_show]
    split_ifs
    · exact .inl rfl
    · exact .inr ⟨m.entries, rfl, hspaces, filter_entries h⟩
  · dsimp only at hwords ⊢
    rw [hwords, answer_add, dif_neg fun h => h.1 hkey]
  · dsimp only at hwords ⊢
    rw [hwords, answer_delete, if_pos hkey]

/-- The words of a map stay free of spaces. -/
theorem answer_spaces {ws : List (List UInt8)} (block : Bool)
    (hspaces : ∀ e ∈ m.entries, space ∉ e.1 ∧ space ∉ e.2) (hws : ∀ w ∈ ws, space ∉ w) :
    ∀ e ∈ (answer m block ws).2.entries, space ∉ e.1 ∧ space ∉ e.2 := by
  unfold answer
  split
  · rename_i word key value
    have hkey : space ∉ key := hws key (by simp)
    have hvalue : space ∉ value := hws value (by simp)
    split_ifs
    · intro e he
      obtain he | he := List.mem_append.1 he
      · exact hspaces e he
      · rw [List.mem_singleton.1 he]
        exact ⟨hkey, hvalue⟩
    · exact hspaces
    · exact hspaces
    · intro e he
      obtain ⟨e', he', rfl⟩ := List.mem_map.1 he
      split_ifs
      · exact ⟨hkey, hvalue⟩
      · exact hspaces e' he'
    · exact hspaces
    · exact hspaces
  · split_ifs
    · exact fun e he => hspaces e (List.mem_filter.1 he).1
    · exact hspaces
    · exact hspaces
  · split_ifs <;> exact hspaces
  · exact hspaces

/-- An entry stays in the map until its key is deleted or changed. -/
theorem mem_answer {line : Line} {key value : List UInt8} (block : Bool)
    (h : (key, value) ∈ m.entries) (htouches : ¬ line.Touches key) :
    (key, value) ∈ (answer m block line.words).2.entries := by
  unfold Line.Touches at htouches
  generalize line.words = ws at htouches ⊢
  unfold answer
  split
  · rename_i word key' value'
    split_ifs with hadd hk hchange
    · exact List.mem_append_left _ h
    · exact h
    · exact h
    · refine List.mem_map.2 ⟨_, h, if_neg ?_⟩
      rintro rfl
      exact htouches (.inr ⟨value', by rw [hchange]⟩)
    · exact h
    · exact h
  · rename_i word key'
    split_ifs with hdelete
    · refine List.mem_filter.2 ⟨h, ?_⟩
      simp only [ne_eq, decide_not, Bool.not_eq_eq_eq_not, Bool.not_true, decide_eq_false_iff_not]
      rintro rfl
      exact htouches (.inl (by rw [hdelete]))
    · exact h
    · exact h
  · split_ifs <;> exact h
  · exact h

/-- An acknowledged entry is in the map. -/
theorem mem_answer_of_add {line : Line} {key value : List UInt8} {block : Bool}
    (hwords : line.words = [ascii "add", key, value])
    (hresult : (answer m block line.words).1 = ascii "add sussessed\n") :
    (key, value) ∈ (answer m block line.words).2.entries := by
  rw [hwords, answer_add] at hresult ⊢
  split_ifs at hresult ⊢
  · exact List.mem_append_right _ (List.mem_singleton_self _)
  · exact absurd hresult (show ascii "add failed\n" ≠ ascii "add sussessed\n" by decide)

/-- **A request** that meets the condition keeps the invariant. -/
theorem Keeps.step (hs : Keeps s m) (hok : KeepsShort s req) (h : s.step req = some s') :
    Keeps s' (answer m req.block.isSome req.line.words).2 := by
  unfold KeepsShort at hok
  rw [hs.entries_eq] at hok
  unfold Server.step at h
  rw [Option.ite_none_right_eq_some] at h
  obtain ⟨⟨-, hfresh⟩, h⟩ := h
  obtain ⟨kv, hkv, hr⟩ := hs.nodes
  obtain ⟨r, h', hcommand, hr'⟩ := handle_command_eq hr hfresh hok
  rw [hkv, hcommand] at h
  obtain rfl := Option.some.inj h
  refine ⟨⟨kv, rfl, hr'⟩, ?_, hs.crash, ?_, ?_⟩
  · exact answer_spaces _ hs.spaces fun w hw => space_notMem_words hw
  · intro key value hstands
    obtain ⟨hwords, hresult⟩ | ⟨hstands, htouches⟩ := stands_append hstands
    · exact mem_answer_of_add hwords hresult
    · exact mem_answer _ (hs.stands key value hstands) htouches
  · intro before x after hlog key value hstands
    obtain rfl | ⟨after, z, rfl⟩ := after.eq_nil_or_concat'
    · obtain ⟨hbefore, hx⟩ := List.append_inj' hlog rfl
      obtain rfl := List.cons.inj hx |>.1
      rw [← hbefore] at hstands
      exact answer_respects _ hs.spaces (hs.stands key value hstands)
    · rw [← List.cons_append, ← List.append_assoc] at hlog
      exact hs.faithful before x after (List.append_inj' hlog rfl).1 key value hstands

theorem keeps_init (malloc : FreshMalloc) (h : Heap KvDsa) :
    Keeps (Server.init malloc.run h) .empty := by
  obtain ⟨kv, h', hinit, hr⟩ := represents_initKv malloc h
  have hnil : ∀ {before after : List Exchange} {x : Exchange}, [] ≠ before ++ x :: after := by
    intro before after x heq
    simp at heq
  refine ⟨⟨kv, ?_, ?_⟩, nofun, rfl, ?_, ?_⟩
  · rw [Server.init, hinit]
  · rw [Server.init, hinit]
    exact (represents_iff.1 hr).congr rfl
  · rintro key value ⟨before, x, after, heq, -⟩
    exact absurd heq hnil
  · intro before x after heq
    exact absurd heq hnil

/-- **The server keeps what it acknowledges**, in every run of requests that meet the condition:
every line is answered, and every answer agrees with the entries that stood before it. -/
theorem acknowledged_entries_stand (malloc : FreshMalloc) (h₀ : Heap KvDsa)
    (h : (server malloc.run h₀).ReachableBy KeepsShort s) : s.crash = none ∧ Faithful s.log := by
  obtain ⟨m, hs⟩ : ∃ m, Keeps s m :=
    h.invariant (I := fun s => ∃ m, Keeps s m) ⟨_, keeps_init malloc h₀⟩
      fun s req s' ⟨m, hs⟩ hok hst => ⟨_, hs.step hok hst⟩
  exact ⟨hs.crash, hs.faithful⟩

instance (es : List (List UInt8 × List UInt8)) (block : Bool) (ws : List (List UInt8)) :
    Decidable (Fits es block ws) := by
  unfold Fits
  split <;> infer_instance

instance (s : Server) (req : Request) : Decidable (KeepsShort s req) :=
  inferInstanceAs (Decidable (Fits _ _ _))

/-- Some lines. -/
def lineOf (text : List UInt8) (h : 0 ∉ text ∧ newline ∉ text ∧ text.length + 1 < MAXLINE) : Line :=
  ⟨text, h.1, h.2.1, h.2.2⟩

/-- A word is added twice, listed, and deleted. -/
def shortWords : List Request :=
  [⟨lineOf (ascii "add a b") (by decide), some (7, .ofWords [] [])⟩,
    ⟨lineOf (ascii "add a c") (by decide), none⟩, ⟨lineOf (ascii "show") (by decide), none⟩,
    ⟨lineOf (ascii "delete a") (by decide), none⟩]

theorem acknowledged_entries_stand_shortWords :
    ∃ s, (server (default : FreshMalloc).run ∅).run
        (.init (default : FreshMalloc).run ∅) shortWords = some s ∧
      s.log.map Exchange.result = [ascii "add sussessed\n", ascii "add failed\n",
        ascii "(a : b); \n", ascii "delete sussessed\n"] ∧ s.crash = none ∧ Faithful s.log := by
  obtain ⟨s, hrun, hlog⟩ :
      ∃ s, ((server (default : FreshMalloc).run ∅).restrict KeepsShort).run
          (.init (default : FreshMalloc).run ∅) shortWords = some s ∧
        s.log.map Exchange.result = [ascii "add sussessed\n", ascii "add failed\n",
          ascii "(a : b); \n", ascii "delete sussessed\n"] := ⟨_, rfl, rfl⟩
  have hreach : (server (default : FreshMalloc).run ∅).ReachableBy KeepsShort s :=
    .of_restrict (.run .init shortWords hrun)
  exact ⟨s, Machine.run_of_restrict hrun, hlog, acknowledged_entries_stand default ∅ hreach⟩

/-- A line that adds a key of 33 bytes. -/
def longLine : Line :=
  lineOf (ascii "add " ++ List.replicate 33 107 ++ ascii " v") (by decide)

theorem long_key_added_twice :
    ∃ s, (server (default : FreshMalloc).run ∅).run (.init (default : FreshMalloc).run ∅)
        [⟨longLine, some (7, .ofWords [] [])⟩, ⟨longLine, some (8, .ofWords [] [])⟩] = some s ∧
      s.log = [⟨longLine, ascii "add sussessed\n"⟩, ⟨longLine, ascii "add sussessed\n"⟩] ∧
      ¬ Faithful s.log := by
  refine ⟨_, rfl, rfl, fun h => ?_⟩
  have hwords : longLine.words = [ascii "add", List.replicate 33 107, ascii "v"] := by decide
  have hstands : Stands [⟨longLine, ascii "add sussessed\n"⟩] (List.replicate 33 107) (ascii "v") :=
    ⟨[], _, [], rfl, hwords, rfl, nofun⟩
  have hrespects := h [⟨longLine, ascii "add sussessed\n"⟩] ⟨longLine, ascii "add sussessed\n"⟩ []
    rfl _ _ hstands
  exact absurd (hrespects.2.1 _ hwords) (by decide)

end TlpiLearn.KeyValue
