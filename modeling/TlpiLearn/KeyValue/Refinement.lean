import TlpiLearn.KeyValue.Nodes
import Mathlib.Tactic

/-!
# The key-value list is a map

The nodes behind the head node are the entries of a map in insertion order (`Represents`), whose
keys and values are texts that fit their fields. `exec_represents` is the step, `history_refines`
the result: for every sequence of calls on a list of `init_kv`, with keys of 1 to 31 bytes and
values of up to 31 bytes, the return values and the nodes are those of the map.
-/

namespace TlpiLearn.KeyValue

/-- A string argument of `lo` to `hi` bytes. -/
structure Text (lo hi : ℕ) where
  bytes : List UInt8
  nonzero : ∀ b ∈ bytes, b ≠ 0
  lo_le : lo ≤ bytes.length
  le_hi : bytes.length ≤ hi
  deriving DecidableEq

/-- What a key field holds with its terminator. -/
abbrev Key := Text 1 (MAXBUF - 1)

/-- What a value field holds with its terminator. -/
abbrev Value := Text 0 (MAXBUF - 1)

/-- A `malloc` that succeeds: it returns an address that is not in use. -/
structure FreshMalloc where
  run : Malloc
  fresh : ∀ h, ∃ a junk, run h = some (a, junk) ∧ a ∉ h

/-- A block behind all others. -/
instance : Inhabited FreshMalloc where
  default :=
    { run := fun h => some (h.keys.sup id + 1, .ofWords [] [])
      fresh := by
        intro h
        refine ⟨_, _, rfl, fun hmem => ?_⟩
        have hle : h.keys.sup id + 1 ≤ h.keys.sup id :=
          Finset.le_sup (f := id) (Finmap.mem_keys.2 hmem)
        omega }

/-- A call on the list. -/
inductive Call
  | add (key : Key) (value : Value) (malloc : FreshMalloc)
  | delete (key : Key)
  | change (key : Key) (value : Value)

/-- The code of a call: its return value and the heap afterwards. -/
def Call.exec (kv : Ptr) (h : Heap KvDsa) : Call → Except Fault (ℤ × Heap KvDsa)
  | .add key value malloc => addKv malloc.run h kv key.bytes value.bytes
  | .delete key => deleteKv h kv key.bytes
  | .change key value => changeKv h kv key.bytes value.bytes

/-- The return values of a sequence of calls and the heap afterwards. -/
def execAll (kv : Ptr) : Heap KvDsa → List Call → Except Fault (List ℤ × Heap KvDsa)
  | h, [] => .ok ([], h)
  | h, c :: cs => do
    let (r, h) ← c.exec kv h
    let (rs, h) ← execAll kv h cs
    return (r :: rs, h)

/-- The map behind the list. -/
abbrev KvMap := InsertionMap Key Value

/-- What a call means for the map. -/
def Call.spec (m : KvMap) : Call → ℤ × KvMap
  | .add key value _ => if hk : key ∉ m.keys then (0, m.append key value hk) else (-1, m)
  | .delete key => if key ∈ m.keys then (0, m.erase key) else (-1, m)
  | .change key value => if key ∈ m.keys then (0, m.replace key value) else (-1, m)

/-- What a sequence of calls means for the map. -/
def specAll : KvMap → List Call → List ℤ × KvMap
  | m, [] => ([], m)
  | m, c :: cs => ((c.spec m).1 :: (specAll (c.spec m).2 cs).1, (specAll (c.spec m).2 cs).2)

/-! ## What a node holds -/

/-- The bytes of a text fit a field with its terminator. -/
theorem Text.length_lt {lo : ℕ} (t : Text lo (MAXBUF - 1)) : t.bytes.length < MAXBUF := by
  have hle := t.le_hi
  unfold MAXBUF at hle ⊢
  omega

/-- A key is not the empty string of the head node. -/
theorem Text.bytes_ne_nil (key : Key) : key.bytes ≠ [] := by
  have hle := key.lo_le
  intro h
  rw [h] at hle
  cases hle

theorem Text.bytes_inj {lo hi : ℕ} {t u : Text lo hi} : t.bytes = u.bytes ↔ t = u := by
  cases t
  cases u
  simp

/-- The key and the value of an entry of the map. -/
def bytesOf (e : Key × Value) : List UInt8 × List UInt8 := (e.1.bytes, e.2.bytes)

/-- The nodes `l` from the address `kv` on: the head node with its empty key, and behind it the
entries of the map. -/
structure RepresentsBy (h : Heap KvDsa) (kv : ℕ) (m : KvMap) (l : List (ℕ × KvDsa)) : Prop where
  list : SList KvDsa.next h (some kv) l
  entries : ∃ junk, l.map (fun x => x.2.entry) = ([], junk) :: m.entries.map bytesOf

/-- The nodes behind the head node `kv` are the entries of the map, in its order. -/
def Represents (h : Heap KvDsa) (kv : ℕ) (m : KvMap) : Prop := ∃ l, RepresentsBy h kv m l

/-- `init_kv` returns an empty list. -/
theorem represents_initKv (malloc : FreshMalloc) (h : Heap KvDsa) :
    ∃ kv h', initKv malloc.run h = (some kv, h') ∧ Represents h' kv .empty := by
  obtain ⟨a, junk, hrun, -⟩ := malloc.fresh h
  refine ⟨a, h.insert a junk.emptyHead, ?_, [(a, junk.emptyHead)], ⟨⟨?_, ?_⟩, ?_⟩⟩
  · rw [initKv, hrun]
  · exact ⟨rfl, Finmap.lookup_insert h, rfl⟩
  · exact List.nodup_singleton a
  · refine ⟨cstr junk.value, ?_⟩
    have hlen := junk.length_key
    cases hkey : junk.key with
    | nil => rw [hkey] at hlen; cases hlen
    | cons b bs => simp [KvDsa.emptyHead, KvDsa.entry, cstr, InsertionMap.empty, hkey]

/-! ## The calls -/

/-- The bytes of the map. -/
def stored (m : KvMap) : Stored where
  entries := m.entries.map bytesOf
  nodup := by
    have hkeys : (m.entries.map bytesOf).map Prod.fst = m.keys.map Text.bytes := by
      rw [InsertionMap.keys, List.map_map, List.map_map]
      rfl
    rw [hkeys]
    exact m.nodup.map fun _ _ h => Text.bytes_inj.1 h

theorem bytes_mem_stored {m : KvMap} {key : Key} : key.bytes ∈ (stored m).keys ↔ key ∈ m.keys := by
  have hkeys : (stored m).keys = m.keys.map Text.bytes := by
    rw [InsertionMap.keys, InsertionMap.keys, stored, List.map_map, List.map_map]
    rfl
  rw [hkeys, List.mem_map]
  constructor
  · rintro ⟨key', hkey', heq⟩
    exact Text.bytes_inj.1 heq ▸ hkey'
  · exact fun hkey => ⟨key, hkey, rfl⟩

theorem entries_stored_replace (m : KvMap) (key : Key) (value : Value) :
    ((stored m).replace key.bytes value.bytes).entries =
      (stored (m.replace key value)).entries := by
  simp only [stored, InsertionMap.replace, List.map_map]
  refine List.map_congr_left fun e _ => ?_
  simp only [Function.comp_apply, bytesOf, Text.bytes_inj]
  split <;> rfl

theorem entries_stored_erase (m : KvMap) (key : Key) :
    ((stored m).erase key.bytes).entries = (stored (m.erase key)).entries := by
  simp only [stored, InsertionMap.erase, List.filter_map]
  refine congrArg _ (List.filter_congr fun e _ => ?_)
  simp only [Function.comp_apply, bytesOf, ne_eq, Text.bytes_inj]

/-- A list represents a map if it stores its bytes. -/
theorem represents_iff {h : Heap KvDsa} {kv : ℕ} {m : KvMap} :
    Represents h kv m ↔ Nodes h kv (stored m) := by
  constructor
  · rintro ⟨l, hl⟩
    refine ⟨l, hl.list, hl.entries, ?_⟩
    intro e he
    obtain ⟨e, -, rfl⟩ := List.mem_map.1 he
    exact ⟨e.1.length_lt, e.2.length_lt⟩
  · rintro ⟨l, hl⟩
    exact ⟨l, hl.list, hl.entries⟩

/-- Which map a list stores is a matter of its entries. -/
theorem Nodes.congr {h : Heap KvDsa} {kv : ℕ} {m m' : Stored} (hr : Nodes h kv m)
    (hm : m.entries = m'.entries) : Nodes h kv m' := by
  obtain ⟨l, hl⟩ := hr
  exact ⟨l, hl.list, hm ▸ hl.entries, hm ▸ hl.short⟩

/-- **A call** on a list does to the map what its specification says. -/
theorem exec_represents {h : Heap KvDsa} {kv : ℕ} {m : KvMap} (hr : Represents h kv m) (c : Call) :
    ∃ h', c.exec (some kv) h = .ok ((c.spec m).1, h') ∧ Represents h' kv (c.spec m).2 := by
  obtain ⟨l, hl⟩ := represents_iff.1 hr
  cases c with
  | add key value malloc =>
    by_cases hk : key ∈ m.keys
    · refine ⟨h, ?_, ?_⟩
      · rw [Call.exec, hl.addKv_of_mem key.nonzero (bytes_mem_stored.2 hk), Call.spec,
          dif_neg (not_not.2 hk)]
      · rw [Call.spec, dif_neg (not_not.2 hk)]
        exact hr
    · obtain ⟨a, old, hmalloc, ha⟩ := malloc.fresh h
      obtain ⟨h', hadd, hr'⟩ := hl.addKv_of_notMem key.nonzero (fun h => hk (bytes_mem_stored.1 h))
        key.length_lt value.nonzero value.length_lt hmalloc ha
      simp only [Call.exec, Call.spec, dif_pos hk]
      refine ⟨h', hadd, represents_iff.2 (hr'.congr ?_)⟩
      simp [stored, InsertionMap.append, bytesOf]
  | delete key =>
    by_cases hk : key ∈ m.keys
    · obtain ⟨h', hdelete, hr'⟩ :=
        hl.deleteKv_of_mem key.nonzero key.bytes_ne_nil (bytes_mem_stored.2 hk)
      simp only [Call.exec, Call.spec, if_pos hk]
      exact ⟨h', hdelete, represents_iff.2 (hr'.congr (entries_stored_erase m key))⟩
    · simp only [Call.exec, Call.spec, if_neg hk]
      exact ⟨h, hl.deleteKv_of_notMem key.nonzero key.bytes_ne_nil
        fun h => hk (bytes_mem_stored.1 h), hr⟩
  | change key value =>
    by_cases hk : key ∈ m.keys
    · obtain ⟨h', hchange, hr'⟩ := hl.changeKv_of_mem key.nonzero key.bytes_ne_nil
        (bytes_mem_stored.2 hk) value.nonzero value.length_lt
      simp only [Call.exec, Call.spec, if_pos hk]
      exact ⟨h', hchange, represents_iff.2 (hr'.congr (entries_stored_replace m key value))⟩
    · simp only [Call.exec, Call.spec, if_neg hk]
      exact ⟨h, hl.changeKv_of_notMem key.nonzero key.bytes_ne_nil
        (fun h => hk (bytes_mem_stored.1 h)) value.bytes, hr⟩

theorem execAll_represents {h : Heap KvDsa} {kv : ℕ} {m : KvMap} (hr : Represents h kv m)
    (cs : List Call) :
    ∃ h', execAll (some kv) h cs = .ok ((specAll m cs).1, h') ∧
      Represents h' kv (specAll m cs).2 := by
  induction cs generalizing h m with
  | nil => exact ⟨h, rfl, hr⟩
  | cons c cs ih =>
    obtain ⟨h₁, hexec, hr₁⟩ := exec_represents hr c
    obtain ⟨h₂, hrest, hr₂⟩ := ih hr₁
    refine ⟨h₂, ?_, hr₂⟩
    simp only [execAll, hexec, hrest, bind, Except.bind, specAll]
    rfl

/-- Adding a key twice, changing its value and deleting it twice. -/
example :
    let key : Key := ⟨[97], by simp, by decide, by decide⟩
    let value : Value := ⟨[98], by simp, by decide, by decide⟩
    let list := initKv (default : FreshMalloc).run ∅
    (execAll list.1 list.2 [.add key value default, .add key value default, .change key value,
      .delete key, .delete key]).toOption.map Prod.fst = some [0, -1, 0, 0, -1] := by
  decide

/-- **The list is the map.** After every sequence of calls on a list of `init_kv`, the return
values are those of the map that starts empty, no call goes through a bad pointer or runs off a
string, and the nodes behind the head node are the entries of the map in insertion order. -/
theorem history_refines (malloc : FreshMalloc) (h₀ : Heap KvDsa) (cs : List Call) :
    ∃ kv h h', initKv malloc.run h₀ = (some kv, h) ∧
      execAll (some kv) h cs = .ok ((specAll .empty cs).1, h') ∧
      Represents h' kv (specAll .empty cs).2 := by
  obtain ⟨kv, h, hinit, hr⟩ := represents_initKv malloc h₀
  obtain ⟨h', hexec, hr'⟩ := execAll_represents hr cs
  exact ⟨kv, h, h', hinit, hexec, hr'⟩

end TlpiLearn.KeyValue
