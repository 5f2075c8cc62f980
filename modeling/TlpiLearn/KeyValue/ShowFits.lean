import TlpiLearn.KeyValue.Acknowledged
import TlpiLearn.KeyValue.CommandSafety
import Mathlib.Tactic

/-!
# The answer to `show` and its buffer

The loop of `show` checks before each entry that the entry and a terminator still fit `result`, and
the newline is appended behind the loop. A listing of `MAXLINE - 1` bytes passes all the checks and
has no room for it: `showLoop_overrun`. `show_fits_iff` is the result for every list whose nodes
hold terminated strings.
-/

namespace TlpiLearn.KeyValue

/-- What is asked of the answer to `show`: `too long` or the entries in the order of the list and a
newline, with its terminator within `MAXLINE` bytes. -/
def ShowFits (h : Heap KvDsa) (es : List (List UInt8 × List UInt8))
    (outcome : Except Crash (ℤ × List UInt8 × Heap KvDsa)) : Prop :=
  ∃ r result, outcome = .ok (r, result, h) ∧
    (result = ascii "too long\n" ∨ result = listing es ++ [newline]) ∧ result.length + 1 ≤ MAXLINE

theorem entry_short {v : KvDsa} (hkey : 0 ∈ v.key) (hvalue : 0 ∈ v.value) :
    v.entry.1.length < MAXBUF ∧ v.entry.2.length < MAXBUF := by
  exact ⟨v.length_key ▸ length_cstr_lt hkey, v.length_value ▸ length_cstr_lt hvalue⟩

/-- A listing that leaves no room for the newline passes the checks of the loop. -/
theorem showLoop_overrun {h : Heap KvDsa} {p : Ptr} {l : List (ℕ × KvDsa)}
    (hl : Seg KvDsa.next h p l none)
    (hshort : ∀ x ∈ l, x.2.entry.1.length < MAXBUF ∧ x.2.entry.2.length < MAXBUF)
    {result : List UInt8} (fuel : ℕ)
    (hroom : (result ++ listing (l.map fun x => x.2.entry)).length + 1 = MAXLINE) :
    showLoop (l.length + (fuel + 1)) h p result = .error .overrun := by
  induction l generalizing p result with
  | nil =>
    cases hl
    rw [List.map_nil, listing_nil, List.append_nil] at hroom
    rw [List.length_nil, Nat.zero_add, showLoop, if_pos (by omega)]
  | cons x l ih =>
    obtain ⟨a, v⟩ := x
    obtain ⟨rfl, hv, hrest⟩ := hl
    obtain ⟨hkey, hvalue⟩ := hshort _ List.mem_cons_self
    simp only [List.map_cons, listing_cons, ← List.append_assoc] at hroom
    have hfits : ¬MAXLINE < (entryText v.entry).length + result.length + 1 := by
      rw [List.length_append, List.length_append] at hroom
      omega
    rw [List.length_cons, Nat.add_right_comm, showLoop, load_eq hv, Except.mapError]
    simp only [bind, Except.bind, KvDsa.text_eq hkey hvalue]
    rw [if_neg hfits]
    exact ih hrest (fun x hx => hshort x (List.mem_cons_of_mem _ hx)) hroom

/-- The answer to `show` on a list. -/
theorem dispatch_show_eq {h : Heap KvDsa} {kv : ℕ} {w : KvDsa} {l : List (ℕ × KvDsa)}
    (hl : SList KvDsa.next h (some kv) ((kv, w) :: l)) (malloc : Malloc) :
    ∃ f, dispatch malloc h (some kv) [ascii "show"] =
      (showLoop (l.length + (f + 1)) h w.next []).map fun x => (x.1, x.2, h) := by
  obtain ⟨f, hf⟩ := exists_fuelOf_eq hl (show l.length ≤ _ by simp)
  refine ⟨f, ?_⟩
  rw [dispatch, if_pos rfl, load_eq hl.seg.2.1, hf, Except.mapError]
  cases hloop : showLoop (l.length + (f + 1)) h w.next [] with
  | error crash =>
    simp only [bind, Except.bind, hloop]
    rfl
  | ok x =>
    simp only [bind, Except.bind, hloop]
    rfl

/-- **The answer fits**: on every list whose nodes hold terminated keys and values, the answer to
`show` is complete or `too long`, and within its buffer, if and only if the entries do not add up to
`MAXLINE - 1` bytes. -/
theorem show_fits_iff {h : Heap KvDsa} {kv : ℕ} {l : List (ℕ × KvDsa)}
    (hl : SList KvDsa.next h (some kv) l)
    (hterminated : ∀ x ∈ l.tail, 0 ∈ x.2.key ∧ 0 ∈ x.2.value) (malloc : Malloc) {line : Line}
    (hline : line.text = ascii "show") :
    ShowFits h (l.tail.map fun x => x.2.entry) (handle_command malloc h (some kv) line.command) ↔
      (listing (l.tail.map fun x => x.2.entry)).length + 1 ≠ MAXLINE := by
  have hwords : line.words = [ascii "show"] := by
    rw [Line.words, hline]
    decide
  rw [handle_command_of_split (splitCommand_eq line), hwords]
  cases l with
  | nil => cases hl.seg
  | cons x l =>
    obtain ⟨a, w⟩ := x
    obtain rfl := Option.some.inj hl.seg.1
    obtain ⟨f, hshow⟩ := dispatch_show_eq hl malloc
    rw [List.tail_cons] at hterminated ⊢
    have hshort : ∀ x ∈ l, x.2.entry.1.length < MAXBUF ∧ x.2.entry.2.length < MAXBUF :=
      fun x hx => entry_short (hterminated x hx).1 (hterminated x hx).2
    have hempty : ([] : List UInt8).length < MAXLINE := by decide
    rw [hshow]
    by_cases hroom : (listing (l.map fun x => x.2.entry)).length + 1 = MAXLINE
    · refine iff_of_false ?_ (not_not.2 hroom)
      rw [showLoop_overrun hl.seg.2.2 hshort f (by rwa [List.nil_append])]
      rintro ⟨r, result, houtcome, -⟩
      cases houtcome
    · refine iff_of_true ?_ hroom
      rw [showLoop_eq hl.seg.2.2 hshort hempty f (by rwa [List.nil_append]), List.nil_append]
      by_cases hlong : MAXLINE ≤ (listing (l.map fun x => x.2.entry)).length
      · rw [if_pos hlong]
        exact ⟨_, _, rfl, .inl rfl, by decide⟩
      · rw [if_neg hlong]
        refine ⟨_, _, rfl, .inr rfl, ?_⟩
        rw [List.length_append, List.length_singleton]
        omega

/-- The line `show`. -/
def showLine : Line := ⟨ascii "show", by decide, by decide, by decide⟩

theorem length_listing (es : List (List UInt8 × List UInt8)) :
    (listing es).length = (es.map fun e => e.1.length + e.2.length + 7).sum := by
  induction es with
  | nil => rfl
  | cons e es ih =>
    have hopen : (ascii "(").length = 1 := rfl
    have hcolon : (ascii " : ").length = 3 := rfl
    have hclose : (ascii "); ").length = 3 := rfl
    rw [List.map_cons, List.sum_cons, ← ih, listing_cons, List.length_append, entryText]
    simp only [List.length_append, hopen, hcolon, hclose]
    omega

/-- There is a list with any entries that fit the fields. -/
theorem exists_list (es : List (List UInt8 × List UInt8))
    (hes : ∀ e ∈ es, (∀ b ∈ e.1, b ≠ 0) ∧ (∀ b ∈ e.2, b ≠ 0) ∧ e.1.length < MAXBUF ∧
      e.2.length < MAXBUF) :
    ∃ h l, SList KvDsa.next h (some 1) l ∧ (∀ x ∈ l.tail, 0 ∈ x.2.key ∧ 0 ∈ x.2.value) ∧
      l.tail.map (fun x => x.2.entry) = es := by
  induction es using List.reverseRecOn with
  | nil =>
    exact ⟨freshList, [(1, KvDsa.emptyHead (.ofWords [] []))],
      ⟨⟨rfl, Finmap.lookup_insert _, rfl⟩, List.nodup_singleton 1⟩, by simp, rfl⟩
  | append_singleton es e ih =>
    obtain ⟨key, value⟩ := e
    obtain ⟨h, l, hl, hterminated, hentries⟩ :=
      ih fun e he => hes e (List.mem_append_left _ he)
    obtain ⟨hkey, hvalue, hk, hv⟩ := hes (key, value) (by simp)
    obtain ⟨a, ha⟩ := Infinite.exists_notMem_finset h.keys
    rw [Finmap.mem_keys] at ha
    obtain rfl | ⟨l', ⟨b, w⟩, rfl⟩ := l.eq_nil_or_concat'
    · cases hl.seg
    have hlinked := hl.link ha { w with next := some a } (.ofWords key value) rfl rfl
    have hnew : 0 ∈ (KvDsa.ofWords key value).key ∧ 0 ∈ (KvDsa.ofWords key value).value := by
      constructor
      · exact zero_mem_of_length_lt (by
          rw [KvDsa.ofWords, cstr_strncpy hkey hk, length_strncpy]; exact hk)
      · exact zero_mem_of_length_lt (by
          rw [KvDsa.ofWords, cstr_strncpy hvalue hv, length_strncpy]; exact hv)
    refine ⟨_, _, hlinked, ?_, ?_⟩
    · cases l' with
      | nil => simpa using hnew
      | cons y l' =>
        intro x hx
        rw [List.cons_append, List.tail_cons, List.mem_append, List.mem_cons, List.mem_singleton]
          at hx
        rcases hx with hx | rfl | rfl
        · exact hterminated x (List.mem_append_left _ hx)
        · exact hterminated (b, w) (by simp)
        · exact hnew
    · have hentry := KvDsa.entry_ofWords hkey hvalue hk hv
      cases l' with
      | nil => simp [hentry, ← hentries]
      | cons y l' =>
        rw [← hentries, List.cons_append, List.cons_append, List.tail_cons, List.tail_cons,
          List.map_append, List.map_append, List.map_cons, List.map_singleton, hentry,
          List.append_assoc]
        rfl

/-- Entries that a list can hold, by evaluation. -/
theorem fit_of_all {es : List (List UInt8 × List UInt8)}
    (h : (es.all fun e => e.1.all (· ≠ 0) && (e.2.all (· ≠ 0) &&
      (decide (e.1.length < MAXBUF) && decide (e.2.length < MAXBUF)))) = true) :
    ∀ e ∈ es, (∀ b ∈ e.1, b ≠ 0) ∧ (∀ b ∈ e.2, b ≠ 0) ∧ e.1.length < MAXBUF ∧
      e.2.length < MAXBUF := by
  intro e he
  simpa [List.all_eq_true] using List.all_eq_true.1 h e he

/-- Two entries, one of them with an empty value. -/
def twoEntries : List (List UInt8 × List UInt8) :=
  [(ascii "ab", ascii "c"), (ascii "d", ascii "")]

/-- `show` on a list of two entries. -/
theorem show_fits_iff_two :
    ∃ h l, SList KvDsa.next h (some 1) l ∧ l.tail.map (fun x => x.2.entry) = twoEntries ∧
      ShowFits h twoEntries (handle_command (fun _ => none) h (some 1) showLine.command) := by
  obtain ⟨h, l, hl, hterminated, hentries⟩ := exists_list twoEntries (fit_of_all rfl)
  refine ⟨h, l, hl, hentries, ?_⟩
  have hfits := show_fits_iff hl hterminated (fun _ => none)
    (show showLine.text = ascii "show" from rfl)
  rw [hentries] at hfits
  exact hfits.2 (by decide)

/-- Fifteen entries of 1023 bytes in all. -/
def fullEntries : List (List UInt8 × List UInt8) :=
  (List.range 14).map (fun i => (UInt8.ofNat (97 + i) :: List.replicate 30 97,
    List.replicate 31 98)) ++ [(122 :: List.replicate 30 97, List.replicate 19 98)]

/-- `show` on a list with these entries writes past the end of its buffer. -/
theorem full_listing_overruns : ∃ h l, SList KvDsa.next h (some 1) l ∧
    (∀ x ∈ l.tail, 0 ∈ x.2.key ∧ 0 ∈ x.2.value) ∧
    l.tail.map (fun x => x.2.entry) = fullEntries ∧
    handle_command (fun _ => none) h (some 1) showLine.command = .error .overrun := by
  obtain ⟨h, l, hl, hterminated, hentries⟩ := exists_list fullEntries (fit_of_all rfl)
  refine ⟨h, l, hl, hterminated, hentries, ?_⟩
  have hwords : showLine.words = [ascii "show"] := by decide
  rw [handle_command_of_split (splitCommand_eq showLine), hwords]
  cases l with
  | nil => cases hl.seg
  | cons x l =>
    obtain ⟨a, w⟩ := x
    obtain rfl := Option.some.inj hl.seg.1
    obtain ⟨f, hshow⟩ := dispatch_show_eq hl fun _ => none
    rw [List.tail_cons] at hterminated hentries
    have hroom : (listing fullEntries).length + 1 = MAXLINE := by
      rw [length_listing]
      decide
    rw [hshow, showLoop_overrun hl.seg.2.2
      (fun x hx => entry_short (hterminated x hx).1 (hterminated x hx).2) f
      (by rwa [List.nil_append, hentries])]
    rfl

end TlpiLearn.KeyValue
