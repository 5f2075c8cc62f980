import TlpiLearn.Foundations.Outcome
import TlpiLearn.Terminal.ScriptTime
import Mathlib.Tactic

/-!
# The replayer of recorded commands

`64/4/script_replay.c` splits the file `replay` into lines in `buf2`, passes the lines through a
pipe, and a child reads them back with `readline`, decodes the elapsed time in front of the first
space and issues the rest of the line to a shell. Both loops store a line and its terminator in
`BUF_SIZE` bytes; the recorder allows 20 more.

`scriptReplay_texts` replays the records that `Record.Fits` and `fits_of_scriptReplay` says that
nothing else is ever issued. Together they decide when a recorded session is replayed as it was
typed (`replays_iff`).
-/

namespace TlpiLearn.Script

/-- The ways in which the replayer goes wrong. -/
inductive Fault
  /-- An index past `buf2`, or past `buffer` or `command` of the child. -/
  | overrun
  /-- `errExit("format wrong")`. -/
  | formatWrong
  /-- `errExit("sscanf")`. -/
  | sscanf
  | diverges
  deriving DecidableEq, Repr

/-- `buf[index++] = b` in a buffer of `BUF_SIZE` bytes that is filled up to `index`. -/
def store (buf : List UInt8) (b : UInt8) : Except Fault (List UInt8) :=
  if buf.length < BUF_SIZE then .ok (buf ++ [b]) else .error .overrun

/-! ## The splitter -/

/-- The parent: `buf2` up to `index` and what it wrote to the pipe. -/
structure Splitter where
  buf2 : List UInt8
  pipe : List UInt8

/-- The body of the loop over the bytes of the file. -/
def splitByte (s : Splitter) (b : UInt8) : Except Fault Splitter := do
  let buf2 ← store s.buf2 b
  if b = newline then
    let line ← store buf2 0
    return ⟨[], s.pipe ++ cstr line⟩
  else return ⟨buf2, s.pipe⟩

/-- What the parent writes to the pipe until the end of the file. -/
def split (reads : List Chunk) : Except Fault (List UInt8) := do
  let s ← reads.foldlM (fun s c => c.1.foldlM splitByte s) ⟨[], []⟩
  return s.pipe

/-! ## The child -/

/-- The loop of `readline` with the bytes `buffer` read so far: `command`, the returned length and
the rest of the pipe, or `none` at the end of the pipe. -/
def readlineLoop : List UInt8 → List UInt8 → Except Fault (Option (List UInt8 × ℕ × List UInt8))
  | _, [] => .ok none
  | buffer, ch :: pipe => do
    let buffer ← store buffer ch
    if ch = newline then
      let line ← store buffer 0
      return some (strncpy BUF_SIZE (cstr line), buffer.length, pipe)
    else readlineLoop buffer pipe

/-- `readline(pfd[0], command, BUF_SIZE)`. -/
def readline (pipe : List UInt8) : Except Fault (Option (List UInt8 × ℕ × List UInt8)) :=
  readlineLoop [] pipe

/-- `sscanf(command, "%ld", &cts)`. -/
def scanLong (command : List UInt8) : Option ℤ := scanInt (-2 ^ 63) (2 ^ 63 - 1) command

/-- The string `command` is cut at its first space into the time and the command to issue. -/
def decodeString (command : List UInt8) : Except Fault Record :=
  if space ∈ command then
    match scanLong (command.takeWhile (· ≠ space)) with
    | some cts => .ok ⟨cts, (command.dropWhile (· ≠ space)).tail⟩
    | none => .error .sscanf
  else .error .formatWrong

/-- The body of the loop of the child behind `readline`. -/
def decode (command : List UInt8) (readn : ℕ) : Except Fault Record :=
  if readn < BUF_SIZE then decodeString (cstr (command.set readn 0)) else .error .overrun

/-- The records that the child issues. -/
def issue : ℕ → List UInt8 → Except Fault (List Record)
  | 0, _ => .error .diverges
  | fuel + 1, pipe => do
    match ← readline pipe with
    | none => return []
    | some (command, readn, pipe) =>
      let r ← decode command readn
      let rs ← issue fuel pipe
      return r :: rs

/-- The records that `script_replay` issues when the file is read as `reads`. -/
def scriptReplay (reads : List Chunk) : Except Fault (List Record) := do
  let pipe ← split reads
  issue (pipe.length + 1) pipe

/-! ## Lines that fit -/

theorem store_of_lt {buf : List UInt8} (h : buf.length < BUF_SIZE) (b : UInt8) :
    store buf b = .ok (buf ++ [b]) := if_pos h

theorem store_eq_ok_iff {buf out : List UInt8} {b : UInt8} :
    store buf b = .ok out ↔ buf.length < BUF_SIZE ∧ out = buf ++ [b] := by
  unfold store
  split
  · rename_i h
    rw [Except.ok.injEq]
    exact ⟨fun hout => ⟨h, hout.symm⟩, fun hout => hout.2.symm⟩
  · rename_i h
    exact iff_of_false (fun h => by cases h) fun hout => h hout.1

theorem length_append_newline_lt {p : List UInt8} (h : p.length + 1 < BUF_SIZE) :
    (p ++ [newline]).length < BUF_SIZE := by
  rw [List.length_append, List.length_singleton]
  exact h

theorem splitByte_of_ne {s : Splitter} (h : s.buf2.length < BUF_SIZE) {b : UInt8}
    (hb : b ≠ newline) : splitByte s b = .ok ⟨s.buf2 ++ [b], s.pipe⟩ := by
  rw [splitByte, store_of_lt h]
  exact if_neg hb

theorem splitByte_newline {s : Splitter} (h : s.buf2.length + 1 < BUF_SIZE) :
    splitByte s newline = .ok ⟨[], s.pipe ++ cstr (s.buf2 ++ [newline])⟩ := by
  have hfull := length_append_newline_lt h
  rw [splitByte, store_of_lt (by omega)]
  simp only [ok_bind, if_true, store_of_lt hfull, cstr_append_zero]
  rfl

theorem readlineLoop_of_ne {buffer : List UInt8} (h : buffer.length < BUF_SIZE) {ch : UInt8}
    (hch : ch ≠ newline) (pipe : List UInt8) :
    readlineLoop buffer (ch :: pipe) = readlineLoop (buffer ++ [ch]) pipe := by
  rw [readlineLoop, store_of_lt h]
  exact if_neg hch

theorem readlineLoop_newline {buffer : List UInt8} (h : buffer.length + 1 < BUF_SIZE)
    (pipe : List UInt8) :
    readlineLoop buffer (newline :: pipe)
      = .ok (some (strncpy BUF_SIZE (cstr (buffer ++ [newline])), (buffer ++ [newline]).length,
          pipe)) := by
  have hfull := length_append_newline_lt h
  rw [readlineLoop, store_of_lt (by omega)]
  simp only [ok_bind, if_true, store_of_lt hfull, cstr_append_zero]
  rfl

/-- The splitter collects bytes in front of a newline. -/
theorem foldlM_splitByte_collect {p : List UInt8} (hp : newline ∉ p) {s : Splitter}
    (hlen : s.buf2.length + p.length ≤ BUF_SIZE) :
    p.foldlM splitByte s = .ok ⟨s.buf2 ++ p, s.pipe⟩ := by
  induction p generalizing s with
  | nil => rw [List.append_nil]; rfl
  | cons b p ih =>
    have hb : b ≠ newline := fun h => hp (h ▸ List.mem_cons_self)
    have hp' : newline ∉ p := fun h => hp (List.mem_cons_of_mem _ h)
    rw [List.length_cons] at hlen
    have hrest : (s.buf2 ++ [b]).length + p.length ≤ BUF_SIZE := by
      rw [List.length_append, List.length_singleton]
      omega
    have ih' := ih hp' (s := ⟨s.buf2 ++ [b], s.pipe⟩) hrest
    rw [List.foldlM_cons, splitByte_of_ne (by omega) hb]
    simpa only [ok_bind, List.append_assoc, List.singleton_append] using ih'

/-- The splitter passes a line on. -/
theorem foldlM_splitByte_line {p : List UInt8} (hp : newline ∉ p) (hzero : 0 ∉ p)
    (hlen : p.length + 1 < BUF_SIZE) (pipe : List UInt8) :
    (p ++ [newline]).foldlM splitByte ⟨[], pipe⟩ = .ok ⟨[], pipe ++ (p ++ [newline])⟩ := by
  have hcollect : p.foldlM splitByte ⟨[], pipe⟩ = .ok ⟨p, pipe⟩ :=
    foldlM_splitByte_collect hp (by simpa using by omega)
  have hzero' : 0 ∉ p ++ [newline] := by
    intro h
    exact (List.mem_append.1 h).elim hzero (by decide)
  have hlast : splitByte ⟨p, pipe⟩ newline = .ok ⟨[], pipe ++ (p ++ [newline])⟩ := by
    rw [splitByte_newline hlen, cstr_eq_self hzero']
  rw [List.foldlM_append, hcollect, ok_bind, List.foldlM_cons, hlast]
  rfl

/-- `readline` takes a line off the pipe. -/
theorem readlineLoop_line {p : List UInt8} (hp : newline ∉ p) {buffer : List UInt8}
    (hlen : buffer.length + p.length + 1 < BUF_SIZE) (rest : List UInt8) :
    readlineLoop buffer (p ++ newline :: rest)
      = .ok (some (strncpy BUF_SIZE (cstr (buffer ++ p ++ [newline])),
          (buffer ++ p ++ [newline]).length, rest)) := by
  induction p generalizing buffer with
  | nil =>
    rw [List.length_nil] at hlen
    rw [List.nil_append, List.append_nil, readlineLoop_newline hlen]
  | cons b p ih =>
    have hb : b ≠ newline := fun h => hp (h ▸ List.mem_cons_self)
    have hp' : newline ∉ p := fun h => hp (List.mem_cons_of_mem _ h)
    rw [List.length_cons] at hlen
    have hrest : (buffer ++ [b]).length + p.length + 1 < BUF_SIZE := by
      rw [List.length_append, List.length_singleton]
      omega
    have happ : buffer ++ b :: p = buffer ++ [b] ++ p := by
      rw [List.append_assoc, List.singleton_append]
    rw [List.cons_append, readlineLoop_of_ne (by omega) hb, happ, ih hp' hrest]

/-- The child decodes the string of its line. -/
theorem decode_line {l : List UInt8} (hlen : l.length < BUF_SIZE) :
    decode (strncpy BUF_SIZE (cstr l)) l.length = decodeString (cstr l) := by
  have hstr : (cstr l).length ≤ l.length := (cstr_prefix_mem l).length_le
  have hcopy : cstr (strncpy BUF_SIZE (cstr l)) = cstr l :=
    cstr_strncpy (fun b hb hb0 => zero_notMem_cstr l (hb0 ▸ hb)) (by omega)
  rw [decode, if_pos hlen, cstr_set_zero (by rw [hcopy]; exact hstr), hcopy]

/-! ## Records that fit are replayed -/

/-- The command has neither a null byte nor an inner newline, and the text of the record leaves
room for a terminator in `BUF_SIZE` bytes. -/
def Record.Fits (r : Record) : Prop :=
  0 ∉ r.command ∧ newline ∉ r.command.dropLast ∧
    (decimalInt r.elapsed).length + 1 + r.command.length < BUF_SIZE

instance : DecidablePred Record.Fits := fun _ => inferInstanceAs (Decidable (_ ∧ _ ∧ _))

/-- The text of a record that fits is a single line. -/
theorem Record.Fits.text_eq {r : Record} (htyped : r.Typed) (hfits : r.Fits) :
    ∃ p, r.text = p ++ [newline] ∧ newline ∉ p ∧ 0 ∉ p ∧ p.length + 1 < BUF_SIZE := by
  obtain ⟨-, -, command, hcommand⟩ := htyped
  obtain ⟨hzero, hnewline, hlen⟩ := hfits
  have hstr : cstr r.command = command ++ [newline] := by
    rw [cstr_eq_self hzero, hcommand]
  rw [hcommand, List.dropLast_concat] at hnewline
  rw [hcommand, List.length_append, List.length_singleton] at hlen
  have hnotMem : ∀ b : UInt8, isDigit b = false → b ≠ 45 → b ≠ space → b ∉ command →
      b ∉ decimalInt r.elapsed ++ space :: command := by
    intro b hdigit hminus hspace hb hmem
    cases List.mem_append.1 hmem with
    | inl h => exact notMem_decimalInt hdigit hminus _ h
    | inr h => exact (List.mem_cons.1 h).elim hspace hb
  refine ⟨decimalInt r.elapsed ++ space :: command, ?_, ?_, ?_, ?_⟩
  · rw [Record.text, formatRecord, hstr, List.append_assoc, List.cons_append]
  · exact hnotMem newline (by decide) (by decide) (by decide) hnewline
  · refine hnotMem 0 (by decide) (by decide) (by decide) fun h => hzero ?_
    rw [hcommand]
    exact List.mem_append_left _ h
  · rw [List.length_append, List.length_cons]
    omega

/-- The child decodes the text of a record without null bytes. -/
theorem decodeString_text {r : Record} (htyped : r.Typed) (hzero : 0 ∉ r.command) :
    decodeString r.text = .ok r := by
  obtain ⟨hpos, hlt, -⟩ := htyped
  have htext : r.text = decimalInt r.elapsed ++ space :: r.command := by
    rw [Record.text, formatRecord, cstr_eq_self hzero]
  have hspace : ∀ b ∈ decimalInt r.elapsed, decide (b ≠ space) = true := by
    intro b hb
    refine decide_eq_true fun h => ?_
    rw [h] at hb
    exact notMem_decimalInt (by decide) (by decide) _ hb
  have htime : (decimalInt r.elapsed ++ space :: r.command).takeWhile (· ≠ space)
      = decimalInt r.elapsed := by
    rw [List.takeWhile_append_of_pos hspace, List.takeWhile_cons_of_neg (by simp), List.append_nil]
  have hrest : (decimalInt r.elapsed ++ space :: r.command).dropWhile (· ≠ space)
      = space :: r.command := by
    rw [List.dropWhile_append_of_pos hspace, List.dropWhile_cons_of_neg (by simp)]
  have hscan : scanLong (decimalInt r.elapsed) = some r.elapsed :=
    scanInt_decimalInt (by omega) (by omega)
  rw [htext, decodeString, if_pos (by simp), htime, hscan, hrest]
  rfl

/-- The splitter passes the texts of records that fit on. -/
theorem foldlM_splitByte_texts {rs : List Record} (hrs : ∀ r ∈ rs, r.Typed ∧ r.Fits)
    (pipe : List UInt8) :
    (rs.flatMap Record.text).foldlM splitByte ⟨[], pipe⟩
      = .ok ⟨[], pipe ++ rs.flatMap Record.text⟩ := by
  induction rs generalizing pipe with
  | nil => rw [List.flatMap_nil, List.append_nil]; rfl
  | cons r rs ih =>
    obtain ⟨htyped, hfits⟩ := hrs r List.mem_cons_self
    obtain ⟨p, htext, hnewline, hzero, hlen⟩ := hfits.text_eq htyped
    have hline := foldlM_splitByte_line hnewline hzero hlen pipe
    rw [List.flatMap_cons, List.foldlM_append, htext, hline, ok_bind,
      ih (fun r hr => hrs r (List.mem_cons_of_mem _ hr)), List.append_assoc]

/-- The child issues the records whose texts are in the pipe. -/
theorem issue_texts {rs : List Record} (hrs : ∀ r ∈ rs, r.Typed ∧ r.Fits) {fuel : ℕ}
    (hfuel : (rs.flatMap Record.text).length < fuel) :
    issue fuel (rs.flatMap Record.text) = .ok rs := by
  induction rs generalizing fuel with
  | nil =>
    obtain ⟨fuel, rfl⟩ : ∃ m, fuel = m + 1 := ⟨fuel - 1, by omega⟩
    rfl
  | cons r rs ih =>
    obtain ⟨fuel, rfl⟩ : ∃ m, fuel = m + 1 := ⟨fuel - 1, by omega⟩
    obtain ⟨htyped, hfits⟩ := hrs r List.mem_cons_self
    obtain ⟨p, htext, hnewline, hzero, hlen⟩ := hfits.text_eq htyped
    have hpipe : (r :: rs).flatMap Record.text
        = p ++ newline :: rs.flatMap Record.text := by
      rw [List.flatMap_cons, htext, List.append_assoc, List.singleton_append]
    have hread : readline (p ++ newline :: rs.flatMap Record.text)
        = .ok (some (strncpy BUF_SIZE (cstr r.text), r.text.length, rs.flatMap Record.text)) := by
      rw [readline, readlineLoop_line hnewline (by simpa using hlen), List.nil_append, htext]
    have htextLen : r.text.length < BUF_SIZE := htext ▸ length_append_newline_lt hlen
    have hstr : cstr r.text = r.text := by
      refine cstr_eq_self ?_
      rw [htext]
      intro h
      exact (List.mem_append.1 h).elim hzero (by decide)
    have hdecode : decode (strncpy BUF_SIZE (cstr r.text)) r.text.length = .ok r := by
      rw [decode_line htextLen, hstr, decodeString_text htyped hfits.1]
    have hrest : issue fuel (rs.flatMap Record.text) = .ok rs := by
      refine ih (fun r hr => hrs r (List.mem_cons_of_mem _ hr)) ?_
      rw [hpipe, List.length_append, List.length_cons] at hfuel
      omega
    rw [hpipe, issue, hread]
    simp only [ok_bind, hdecode, hrest]
    rfl

/-- **Records that fit are replayed**, however the reads cut the file. -/
theorem scriptReplay_texts {rs : List Record} (hrs : ∀ r ∈ rs, r.Typed ∧ r.Fits)
    {reads : List Chunk} (hreads : reads.flatMap Subtype.val = rs.flatMap Record.text) :
    scriptReplay reads = .ok rs := by
  have hsplit : split reads = .ok (rs.flatMap Record.text) := by
    rw [split, foldlM_flatMap Subtype.val splitByte, hreads, foldlM_splitByte_texts hrs]
    rfl
  rw [scriptReplay, hsplit]
  exact issue_texts hrs (Nat.lt_succ_self _)

/-! ## Nothing else is issued -/

/-- `readline` returns a line that left room for its terminator. -/
theorem readlineLoop_eq_some {pipe buffer command rest : List UInt8} {readn : ℕ}
    (h : readlineLoop buffer pipe = .ok (some (command, readn, rest))) :
    ∃ p, newline ∉ p ∧ pipe = p ++ newline :: rest ∧ buffer.length + p.length + 1 < BUF_SIZE := by
  induction pipe generalizing buffer with
  | nil => cases h
  | cons ch pipe ih =>
    rw [readlineLoop, bind_eq_ok_iff] at h
    obtain ⟨buffer', hstore, h⟩ := h
    obtain ⟨hlt, rfl⟩ := store_eq_ok_iff.1 hstore
    by_cases hch : ch = newline
    · rw [if_pos hch, bind_eq_ok_iff] at h
      obtain ⟨line, hstore, h⟩ := h
      obtain ⟨hfull, -⟩ := store_eq_ok_iff.1 hstore
      rw [List.length_append, List.length_singleton] at hfull
      cases h
      exact ⟨[], List.not_mem_nil, by rw [hch, List.nil_append], by simpa using hfull⟩
    · rw [if_neg hch] at h
      obtain ⟨p, hp, rfl, hlen⟩ := ih h
      refine ⟨ch :: p, ?_, rfl, ?_⟩
      · intro hmem
        exact (List.mem_cons.1 hmem).elim (fun h => hch h.symm) hp
      · rw [List.length_append, List.length_singleton] at hlen
        rw [List.length_cons]
        omega

/-- What the child decodes is a time, a space and a command, and the numeral of the time is no
longer than its text. -/
theorem decodeString_eq_ok {s : List UInt8} {r : Record} (h : decodeString s = .ok r) :
    ∃ time, s = time ++ space :: r.command ∧ (decimalInt r.elapsed).length ≤ time.length := by
  unfold decodeString at h
  split at h
  · rename_i hspace
    split at h
    · rename_i cts hscan
      cases h
      have hne : s.dropWhile (· ≠ space) ≠ [] := by
        intro hnil
        simpa using List.dropWhile_eq_nil_iff.1 hnil space hspace
      obtain ⟨b, rest, hrest⟩ := List.exists_cons_of_ne_nil hne
      have hb : b = space := by
        have hhead := List.head_dropWhile_not (· ≠ space) hne
        simp only [hrest, List.head_cons] at hhead
        simpa using hhead
      refine ⟨s.takeWhile (· ≠ space), ?_, ?_⟩
      · have hsplit := List.takeWhile_append_dropWhile (p := (· ≠ space)) (l := s)
        rw [hrest, hb] at hsplit
        simp only [hrest, List.tail_cons]
        exact hsplit.symm
      · exact length_decimalInt_of_scanInt (by omega) (by omega) hscan
    · cases h
  · cases h

/-- What the child decodes from a line fits. -/
theorem fits_of_decode {p : List UInt8} (hp : newline ∉ p) (hlen : p.length + 1 < BUF_SIZE)
    {r : Record} (h : decodeString (cstr (p ++ [newline])) = .ok r) : r.Fits := by
  obtain ⟨time, hstr, htime⟩ := decodeString_eq_ok h
  obtain ⟨rest, hrest⟩ := cstr_prefix_mem (p ++ [newline])
  rw [hstr, List.append_assoc, List.cons_append] at hrest
  refine ⟨?_, ?_, ?_⟩
  · intro hzero
    refine zero_notMem_cstr (p ++ [newline]) ?_
    rw [hstr]
    exact List.mem_append_right _ (List.mem_cons_of_mem _ hzero)
  · intro hmem
    have hne : r.command ≠ [] := by
      intro hnil
      rw [hnil] at hmem
      cases hmem
    rw [← List.dropLast_concat_getLast hne, List.append_assoc, List.singleton_append,
      ← List.cons_append, ← List.append_assoc] at hrest
    have hdrop := congrArg List.dropLast hrest
    rw [List.dropLast_concat, List.dropLast_append_cons] at hdrop
    refine hp ?_
    rw [← hdrop]
    exact List.mem_append_left _ (List.mem_append_right _ (List.mem_cons_of_mem _ hmem))
  · have hlen' := congrArg List.length hrest
    simp only [List.length_append, List.length_cons, List.length_nil] at hlen'
    omega

/-- The child issues only records that fit. -/
theorem fits_of_issue {fuel : ℕ} {pipe : List UInt8} {rs : List Record}
    (h : issue fuel pipe = .ok rs) : ∀ r ∈ rs, r.Fits := by
  induction fuel generalizing pipe rs with
  | zero => cases h
  | succ fuel ih =>
    rw [issue, bind_eq_ok_iff] at h
    obtain ⟨line, hread, h⟩ := h
    cases line with
    | none =>
      cases h
      intro r hr
      cases hr
    | some line =>
      obtain ⟨command, readn, rest⟩ := line
      obtain ⟨p, hp, rfl, hlen⟩ := readlineLoop_eq_some hread
      rw [readline, readlineLoop_line hp hlen, List.nil_append] at hread
      rw [List.length_nil, Nat.zero_add] at hlen
      cases hread
      simp only [bind_eq_ok_iff] at h
      obtain ⟨r, hdecode, rs', hrest, h⟩ := h
      cases h
      rw [decode_line (length_append_newline_lt hlen)] at hdecode
      intro r' hr'
      cases hr' with
      | head => exact fits_of_decode hp hlen hdecode
      | tail _ hr' => exact ih hrest r' hr'

/-- **Only records that fit are issued**, from any file. -/
theorem fits_of_scriptReplay {reads : List Chunk} {rs : List Record}
    (h : scriptReplay reads = .ok rs) : ∀ r ∈ rs, r.Fits := by
  rw [scriptReplay, bind_eq_ok_iff] at h
  obtain ⟨pipe, -, h⟩ := h
  exact fits_of_issue h

/-! ## The two programs -/

/-- **When a session is replayed as it was typed**: the recorder overflows or writes a file without
an index past a buffer, and from that file, however the reads cut it, the replayer issues the
records of the session exactly when all of them fit. -/
theorem replays_iff (clock : Clock) (typed : List Chunk)
    (h : scriptTime clock typed ≠ .error .overflow) :
    ∃ file, scriptTime clock typed = .ok file ∧
      ∀ reads : List Chunk, reads.flatMap Subtype.val = file →
        (scriptReplay reads = .ok (typedRecords clock typed) ↔
          ∀ r ∈ typedRecords clock typed, r.Fits) := by
  refine ⟨_, (scriptTime_cases clock typed).resolve_left h, fun reads hreads => ?_⟩
  constructor
  · exact fits_of_scriptReplay
  · intro hfits
    refine scriptReplay_texts (fun r hr => ?_) hreads
    exact ⟨typed_of_mem_recordsFrom hr, hfits r hr⟩

/-- Each command is finished 5 microseconds after the start. -/
def clockFive : Clock where
  start := ⟨0, 0⟩
  now _ := ⟨0, 5⟩
  nonneg _ := by decide
  lt _ := by decide

/-- Typing `ls` and return. -/
def lsReads : List Chunk := [⟨[108, 115], by decide⟩, ⟨[13], by decide⟩]

/-- The session `ls` is replayed. -/
theorem replays_ls : ∃ file, scriptTime clockFive lsReads = .ok file ∧
    ∀ reads : List Chunk, reads.flatMap Subtype.val = file →
      scriptReplay reads = .ok [⟨5, [108, 115, 10]⟩] := by
  obtain ⟨file, hfile, hreplay⟩ := replays_iff clockFive lsReads (by decide)
  refine ⟨file, hfile, fun reads hreads => ?_⟩
  exact (hreplay reads hreads).2 (by decide)

/-- Typing a command of 254 bytes and return in one read. -/
def longReads : List Chunk :=
  [⟨List.replicate 254 97 ++ [13], List.concat_ne_nil _ _, by
    rw [List.length_append, List.length_replicate]
    decide⟩]

/-- The file with the long command in blocks of `BUF_SIZE` bytes. -/
def longFileReads : List Chunk :=
  [⟨53 :: 32 :: List.replicate 254 97, List.cons_ne_nil _ _, by
    rw [List.length_cons, List.length_cons, List.length_replicate]
    decide⟩, ⟨[10], by decide⟩]

/-- The recorder accepts a command of 254 bytes and the replayer runs past `buf2` on it. -/
theorem long_command_overruns :
    scriptTime clockFive longReads = .ok (longFileReads.flatMap Subtype.val) ∧
      scriptReplay longFileReads = .error .overrun := by
  constructor
  · decide +kernel
  · decide +kernel

end TlpiLearn.Script
