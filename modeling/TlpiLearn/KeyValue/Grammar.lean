import TlpiLearn.KeyValue.CommandSafety
import Mathlib.Tactic

/-!
# The grammar of the command lines

The menu of `59/4/cl.c` offers `add <key> <value>`, `delete <key>`, `change <key> <value>` and
`show`. `handle_command` cuts a line at its first three spaces and looks at the first word and at
the number of words: what comes behind a third space is dropped, and a word may be empty.
`cut_words` relates the words to the line, and `handle_command_conforms_iff` tells the lines on
which the code does what the grammar says.
-/

namespace TlpiLearn.KeyValue

/-- A key or a value of the grammar. -/
def IsWord (w : List UInt8) : Prop := w ≠ [] ∧ space ∉ w

/-- The lines of the grammar that may change the store, without their newline. -/
inductive Update : List UInt8 → Prop
  | add {key value : List UInt8} (hkey : IsWord key) (hvalue : IsWord value) :
    Update (ascii "add" ++ space :: (key ++ space :: value))
  | delete {key : List UInt8} (hkey : IsWord key) : Update (ascii "delete" ++ space :: key)
  | change {key value : List UInt8} (hkey : IsWord key) (hvalue : IsWord value) :
    Update (ascii "change" ++ space :: (key ++ space :: value))

/-- The answers to such a line. -/
def updateReplies : List (List UInt8) :=
  [ascii "add failed\n", ascii "add sussessed\n", ascii "delete failed\n",
    ascii "delete sussessed\n", ascii "change failed\n", ascii "change sussessed\n"]

/-- What the grammar asks of the outcome of a line: an update is answered as one, `show` leaves the
store as it is, and so does every other line, which is answered as invalid. -/
structure Conforms (h : Heap KvDsa) (text : List UInt8)
    (outcome : Except Crash (ℤ × List UInt8 × Heap KvDsa)) : Prop where
  update : Update text → ∀ r result h', outcome = .ok (r, result, h') → result ∈ updateReplies
  listing : text = ascii "show" → ∀ r result h', outcome = .ok (r, result, h') → h' = h
  other : ¬Update text → text ≠ ascii "show" → outcome = invalidCommand h

/-- **The lines that the code takes and the grammar does not**: an `add` or a `change` with an empty
key or value or with more behind the value, and a `delete` with an empty key. -/
inductive Lax : List UInt8 → Prop
  | empty {word key value : List UInt8} (hword : word = ascii "add" ∨ word = ascii "change")
    (hkey : space ∉ key) (hvalue : space ∉ value) (hnil : key = [] ∨ value = []) :
    Lax (word ++ space :: (key ++ space :: value))
  | more {word key value rest : List UInt8} (hword : word = ascii "add" ∨ word = ascii "change")
    (hkey : space ∉ key) (hvalue : space ∉ value) :
    Lax (word ++ space :: (key ++ space :: (value ++ space :: rest)))
  | delete : Lax (ascii "delete" ++ [space])

/-! ## The words -/

/-- How a line without its newline is cut. -/
inductive Cut : List UInt8 → List (List UInt8) → Prop
  | one {word : List UInt8} (hword : space ∉ word) : Cut word [word]
  | two {word key : List UInt8} (hword : space ∉ word) (hkey : space ∉ key) :
    Cut (word ++ space :: key) [word, key]
  | three {word key value : List UInt8} (hword : space ∉ word) (hkey : space ∉ key)
    (hvalue : space ∉ value) : Cut (word ++ space :: (key ++ space :: value)) [word, key, value]
  | more {word key value rest : List UInt8} (hword : space ∉ word) (hkey : space ∉ key)
    (hvalue : space ∉ value) :
    Cut (word ++ space :: (key ++ space :: (value ++ space :: rest))) [word, key, value]

@[simp] theorem words_nil (n : ℕ) : words n [] = [] := by
  cases n <;> rfl

/-- The first word is what stands in front of the first space. -/
theorem words_append_cons {w : List UInt8} (hw : space ∉ w) (n : ℕ) (t : List UInt8) :
    words (n + 1) (w ++ space :: t) = w :: words n t := by
  have hne : ∀ b ∈ w, b ≠ space := fun b hb heq => hw (heq ▸ hb)
  have htake : (w ++ space :: t).takeWhile (· ≠ space) = w := by
    rw [List.takeWhile_append_of_pos (by simpa using hne), List.takeWhile_cons_of_neg (by simp),
      List.append_nil]
  have hdrop : (w ++ space :: t).dropWhile (· ≠ space) = space :: t := by
    rw [List.dropWhile_append_of_pos (by simpa using hne), List.dropWhile_cons_of_neg (by simp)]
  rw [words, if_pos (by simp), htake, hdrop, List.tail_cons]

/-- A line is either a word or a word, a space and a rest. -/
theorem exists_first_word (t : List UInt8) :
    space ∉ t ∨ ∃ w rest, space ∉ w ∧ t = w ++ space :: rest := by
  by_cases hmem : space ∈ t
  · obtain ⟨w, rest, rfl, hw⟩ := List.eq_append_cons_of_mem hmem
    exact .inr ⟨w, rest, hw, rfl⟩
  · exact .inl hmem

/-- The words of a cut line. -/
theorem Cut.words_eq {t : List UInt8} {ws : List (List UInt8)} (h : Cut t ws) :
    words 3 (t ++ [space]) = ws := by
  cases h with
  | one hword => rw [words_append_cons hword, words_nil]
  | two hword hkey =>
    rw [List.append_assoc, List.cons_append, words_append_cons hword, words_append_cons hkey,
      words_nil]
  | three hword hkey hvalue =>
    rw [List.append_assoc, List.cons_append, List.append_assoc, List.cons_append,
      words_append_cons hword, words_append_cons hkey, words_append_cons hvalue, words_nil]
  | more hword hkey hvalue =>
    rw [List.append_assoc, List.cons_append, List.append_assoc, List.cons_append,
      List.append_assoc, List.cons_append, words_append_cons hword, words_append_cons hkey,
      words_append_cons hvalue]
    rfl

/-- **Every line is cut** into its words in one of the four ways. -/
theorem cut_words (t : List UInt8) : Cut t (words 3 (t ++ [space])) := by
  rcases exists_first_word t with ht | ⟨word, t, hword, rfl⟩
  · have hcut := Cut.one ht
    rwa [hcut.words_eq]
  rcases exists_first_word t with ht | ⟨key, t, hkey, rfl⟩
  · have hcut := Cut.two hword ht
    rwa [hcut.words_eq]
  rcases exists_first_word t with ht | ⟨value, t, hvalue, rfl⟩
  · have hcut := Cut.three hword hkey ht
    rwa [hcut.words_eq]
  · have hcut : Cut (word ++ space :: (key ++ space :: (value ++ space :: t))) _ :=
      .more hword hkey hvalue
    rwa [hcut.words_eq]

/-! ## The outcomes -/

section Outcomes

variable {malloc : Malloc} {h h' : Heap KvDsa} {kv : Ptr} {word key value result : List UInt8}
  {z : ℤ} {failed sussessed : String}

theorem space_notMem_of_update (hword : word = ascii "add" ∨ word = ascii "change") :
    space ∉ word := by
  rcases hword with rfl | rfl
  · decide
  · decide

theorem eq_or_eq_of_reply {r : Except Fault (ℤ × Heap KvDsa)}
    (hreply : reply r failed sussessed = .ok (z, result, h')) :
    result = ascii failed ∨ result = ascii sussessed := by
  cases r with
  | error fault => cases hreply
  | ok r =>
    obtain ⟨y, h''⟩ := r
    simp only [reply] at hreply
    split_ifs at hreply
    · exact .inl (Prod.mk.inj (Prod.mk.inj (Except.ok.inj hreply)).2).1.symm
    · exact .inr (Prod.mk.inj (Prod.mk.inj (Except.ok.inj hreply)).2).1.symm

theorem reply_ne_invalidCommand {r : Except Fault (ℤ × Heap KvDsa)}
    (hfailed : ascii failed ≠ ascii "invalid command\n")
    (hsussessed : ascii sussessed ≠ ascii "invalid command\n") :
    reply r failed sussessed ≠ invalidCommand h := by
  intro hreply
  rcases eq_or_eq_of_reply hreply with heq | heq
  · exact hfailed heq.symm
  · exact hsussessed heq.symm

theorem dispatch_add : dispatch malloc h kv [ascii "add", key, value] =
    reply (addKv malloc h kv key value) "add failed\n" "add sussessed\n" := by
  rw [dispatch, if_pos rfl]

theorem dispatch_change : dispatch malloc h kv [ascii "change", key, value] =
    reply (changeKv h kv key value) "change failed\n" "change sussessed\n" := by
  rw [dispatch, if_neg (by decide), if_pos rfl]

theorem dispatch_delete : dispatch malloc h kv [ascii "delete", key] =
    reply (deleteKv h kv key) "delete failed\n" "delete sussessed\n" := by
  rw [dispatch, if_pos rfl]

/-- The outcome of an `add` or a `change`. -/
theorem dispatch_update (malloc : Malloc) (h : Heap KvDsa) (kv : Ptr) (key value : List UInt8)
    (hword : word = ascii "add" ∨ word = ascii "change") :
    ∃ r failed sussessed, dispatch malloc h kv [word, key, value] = reply r failed sussessed ∧
      ascii failed ∈ updateReplies ∧ ascii sussessed ∈ updateReplies := by
  rcases hword with rfl | rfl
  · exact ⟨_, _, _, dispatch_add, by simp [updateReplies], by simp [updateReplies]⟩
  · exact ⟨_, _, _, dispatch_change, by simp [updateReplies], by simp [updateReplies]⟩

theorem ne_invalid_of_mem_updateReplies {bs : List UInt8} (hbs : bs ∈ updateReplies) :
    bs ≠ ascii "invalid command\n" := by
  rintro rfl
  revert hbs
  decide

/-- `show` does not write the store. -/
theorem dispatch_show (hshow : dispatch malloc h kv [ascii "show"] = .ok (z, result, h')) :
    h' = h := by
  rw [dispatch, if_pos rfl] at hshow
  cases hload : load h kv with
  | error fault =>
    rw [hload] at hshow
    cases hshow
  | ok p =>
    rw [hload] at hshow
    simp only [Except.mapError, bind, Except.bind] at hshow
    cases hloop : showLoop (fuelOf h) h p.next [] with
    | error crash =>
      rw [hloop] at hshow
      cases hshow
    | ok r =>
      rw [hloop] at hshow
      exact (Prod.mk.inj (Prod.mk.inj (Except.ok.inj hshow)).2).2.symm

/-! ## The grammar -/

/-- A line with three words, two of which are words of the grammar and the last is all that is
left. -/
theorem update_of_three (hword : word = ascii "add" ∨ word = ascii "change") (hkey : IsWord key)
    (hvalue : IsWord value) : Update (word ++ space :: (key ++ space :: value)) := by
  rcases hword with rfl | rfl
  · exact .add hkey hvalue
  · exact .change hkey hvalue

/-- How a line of the grammar that may change the store is cut. -/
theorem Update.cases_cut {t : List UInt8} (ht : Update t) :
    (∃ word key value, (word = ascii "add" ∨ word = ascii "change") ∧ IsWord key ∧ IsWord value ∧
        t = word ++ space :: (key ++ space :: value) ∧
        words 3 (t ++ [space]) = [word, key, value]) ∨
      ∃ key, IsWord key ∧ words 3 (t ++ [space]) = [ascii "delete", key] := by
  cases ht with
  | add hkey hvalue =>
    exact .inl ⟨_, _, _, .inl rfl, hkey, hvalue, rfl,
      (Cut.three (by decide) hkey.2 hvalue.2).words_eq⟩
  | delete hkey => exact .inr ⟨_, hkey, (Cut.two (by decide) hkey.2).words_eq⟩
  | change hkey hvalue =>
    exact .inl ⟨_, _, _, .inr rfl, hkey, hvalue, rfl,
      (Cut.three (by decide) hkey.2 hvalue.2).words_eq⟩

/-- The words of a line that the code takes and the grammar does not. -/
theorem Lax.words_eq {t : List UInt8} (ht : Lax t) :
    (∃ word key value, (word = ascii "add" ∨ word = ascii "change") ∧
        words 3 (t ++ [space]) = [word, key, value]) ∨
      words 3 (t ++ [space]) = [ascii "delete", []] := by
  cases ht with
  | empty hword hkey hvalue hnil =>
    exact .inl ⟨_, _, _, hword, (Cut.three (space_notMem_of_update hword) hkey hvalue).words_eq⟩
  | more hword hkey hvalue =>
    exact .inl ⟨_, _, _, hword, (Cut.more (space_notMem_of_update hword) hkey hvalue).words_eq⟩
  | delete =>
    exact .inr (Cut.two (by decide) List.not_mem_nil).words_eq

theorem Lax.not_update {t : List UInt8} (ht : Lax t) : ¬Update t := by
  intro hupdate
  rcases hupdate.cases_cut with ⟨word, key, value, hword, hkey, hvalue, heq, hws⟩ | ⟨key, hkey, hws⟩
  · cases ht with
    | empty hword' hkey' hvalue' hnil =>
      rw [(Cut.three (space_notMem_of_update hword') hkey' hvalue').words_eq] at hws
      simp only [List.cons.injEq] at hws
      obtain ⟨-, rfl, rfl, -⟩ := hws
      rcases hnil with rfl | rfl
      · exact hkey.1 rfl
      · exact hvalue.1 rfl
    | more hword' hkey' hvalue' =>
      rw [(Cut.more (space_notMem_of_update hword') hkey' hvalue').words_eq] at hws
      simp only [List.cons.injEq] at hws
      obtain ⟨rfl, rfl, rfl, -⟩ := hws
      have hlen := congrArg List.length heq
      simp only [List.length_append, List.length_cons] at hlen
      omega
    | delete =>
      rw [(Cut.two (by decide) List.not_mem_nil).words_eq] at hws
      simp at hws
  · rcases ht.words_eq with ⟨word', key', value', -, hws'⟩ | hws'
    · rw [hws'] at hws
      simp at hws
    · rw [hws'] at hws
      simp only [List.cons.injEq] at hws
      exact hkey.1 hws.2.1.symm

/-- A line that is taken is of the grammar, or one that the grammar does not have. -/
theorem dispatch_of_cut {t : List UInt8} {ws : List (List UInt8)} (hcut : Cut t ws)
    (hlax : ¬Lax t) (hupdate : ¬Update t) (hshow : t ≠ ascii "show") :
    dispatch malloc h kv ws = invalidCommand h := by
  cases hcut with
  | one hword => rw [dispatch, if_neg hshow]
  | @two word key hword hkey =>
    have hne : word ≠ ascii "delete" := by
      rintro rfl
      by_cases hnil : key = []
      · rw [hnil] at hlax
        exact hlax .delete
      · exact hupdate (.delete ⟨hnil, hkey⟩)
    rw [dispatch, if_neg hne]
  | @three word key value hword hkey hvalue =>
    have hne : ¬(word = ascii "add" ∨ word = ascii "change") := by
      intro hword
      by_cases hnil : key = [] ∨ value = []
      · exact hlax (.empty hword hkey hvalue hnil)
      · rw [not_or] at hnil
        exact hupdate (update_of_three hword ⟨hnil.1, hkey⟩ ⟨hnil.2, hvalue⟩)
    rw [not_or] at hne
    rw [dispatch, if_neg hne.1, if_neg hne.2]
  | @more word key value rest hword hkey hvalue =>
    have hne : ¬(word = ascii "add" ∨ word = ascii "change") :=
      fun hword => hlax (.more hword hkey hvalue)
    rw [not_or] at hne
    rw [dispatch, if_neg hne.1, if_neg hne.2]

end Outcomes

/-- **The grammar**: on every store the code does with a line what the grammar says if and only if
the line is not one of those that it takes and the grammar does not. -/
theorem handle_command_conforms_iff (malloc : Malloc) (h : Heap KvDsa) (kv : Ptr) (line : Line) :
    Conforms h line.text (handle_command malloc h kv line.command) ↔ ¬Lax line.text := by
  rw [handle_command_of_split (splitCommand_eq line), Line.words]
  constructor
  · intro hconforms hlax
    have hshow : line.text ≠ ascii "show" := by
      intro hshow
      rcases hlax.words_eq with ⟨word, key, value, -, hws⟩ | hws
      · rw [hshow, (Cut.one (by decide)).words_eq] at hws
        simp at hws
      · rw [hshow, (Cut.one (by decide)).words_eq] at hws
        simp at hws
    have hinvalid := hconforms.other hlax.not_update hshow
    rcases hlax.words_eq with ⟨word, key, value, hword, hws⟩ | hws
    · obtain ⟨r, failed, sussessed, hreply, hfailed, hsussessed⟩ :=
        dispatch_update malloc h kv key value hword
      rw [hws, hreply] at hinvalid
      exact reply_ne_invalidCommand (ne_invalid_of_mem_updateReplies hfailed)
        (ne_invalid_of_mem_updateReplies hsussessed) hinvalid
    · rw [hws, dispatch_delete] at hinvalid
      exact reply_ne_invalidCommand (by decide) (by decide) hinvalid
  · intro hlax
    constructor
    · intro hupdate r result h' houtcome
      rcases hupdate.cases_cut with ⟨word, key, value, hword, -, -, -, hws⟩ | ⟨key, -, hws⟩
      · obtain ⟨r, failed, sussessed, hreply, hfailed, hsussessed⟩ :=
          dispatch_update malloc h kv key value hword
        rw [hws, hreply] at houtcome
        rcases eq_or_eq_of_reply houtcome with rfl | rfl
        · exact hfailed
        · exact hsussessed
      · rw [hws, dispatch_delete] at houtcome
        rcases eq_or_eq_of_reply houtcome with rfl | rfl
        · simp [updateReplies]
        · simp [updateReplies]
    · intro hshow r result h' houtcome
      rw [hshow, (Cut.one (by decide)).words_eq] at houtcome
      exact dispatch_show houtcome
    · exact fun hupdate hshow => dispatch_of_cut (cut_words line.text) hlax hupdate hshow

/-- The line `add a b c` on an empty list: `a` is added with the value `b`. -/
theorem extra_word_added :
    let line : Line := ⟨ascii "add a b c", by decide, by decide, by decide⟩
    let outcome :=
      handle_command (fun _ => some (2, .ofWords [] [])) freshList (some 1) line.command
    outcome.toOption.map (fun r => (r.1, r.2.1, (nodesOf r.2.2 (some 1)).tail.map KvDsa.entry)) =
        some (0, ascii "add sussessed\n", [(ascii "a", ascii "b")]) ∧
      ¬Conforms freshList line.text outcome := by
  intro line outcome
  have hanswer : outcome.toOption.map
      (fun r => (r.1, r.2.1, (nodesOf r.2.2 (some 1)).tail.map KvDsa.entry)) =
        some (0, ascii "add sussessed\n", [(ascii "a", ascii "b")]) := by
    decide
  refine ⟨hanswer, fun hconforms => ?_⟩
  have hlax :
      Lax (ascii "add" ++ space :: (ascii "a" ++ space :: (ascii "b" ++ space :: ascii "c"))) :=
    .more (.inl rfl) (by decide) (by decide)
  rw [hconforms.other hlax.not_update (by decide)] at hanswer
  revert hanswer
  decide

end TlpiLearn.KeyValue
