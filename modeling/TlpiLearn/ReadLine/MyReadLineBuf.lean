import TlpiLearn.ReadLine.ReadLine
import Mathlib.Tactic

/-!
# The buffered line reader

`59/1/my_read_line_buf.c`: `myreadLineBuf` fills a buffer of `MAX_RLBUF` bytes with one `read` and
hands out its bytes line by line, keeping what is left for the next call. The loop of the source
has no bound; the model's takes fuel and reports `unfinished` when it runs out.

`loop_eq` is the loop invariant, over the bytes that are still `unread`: those left in the buffer
and then those still to be read. `calls_eq_lines` is the result: when every line fits the caller's
buffer, successive calls return the lines of the stream, however `read` cuts it, and so what
`readLine` returns.
-/

namespace TlpiLearn.ReadLine

/-- `MAX_RLBUF`. -/
def MAX_RLBUF : ℕ := 8192

/-- `struct rlbuf`. -/
structure Rlbuf where
  len : ℤ
  next : ℕ
  fd : ℤ
  buf : List UInt8
  size : buf.length = MAX_RLBUF

/-- What a successful `read(fd, buf, MAX_RLBUF)` delivers before the end of the file. -/
structure Chunk where
  bytes : List UInt8
  pos : 0 < bytes.length
  le : bytes.length ≤ MAX_RLBUF

/-- The outcomes of the coming reads: a chunk, or `none` for `-1`. Behind the end of the list
every `read` finds the end of the file. -/
abbrev Reads := List (Option Chunk)

/-- What a call can run into besides returning. -/
inductive Fault
  /-- An index outside `buffer` or `rlbuf->buf`. -/
  | outOfBounds
  /-- The fuel is used up in the loop. -/
  | unfinished
  deriving DecidableEq, Repr

/-- `myreadLineBufInit`. -/
def myreadLineBufInit (fd : ℤ) (rlbuf : Rlbuf) : Rlbuf := { rlbuf with fd, len := 0, next := 0 }

/-- The buffer after a successful `read`. -/
def Rlbuf.fill (rlbuf : Rlbuf) (chunk : Chunk) : Rlbuf where
  len := chunk.bytes.length
  next := 0
  fd := rlbuf.fd
  buf := chunk.bytes ++ rlbuf.buf.drop chunk.bytes.length
  size := by
    have hle := chunk.le
    have hsize := rlbuf.size
    rw [List.length_append, List.length_drop]
    omega

/-- Between two passes of the loop: `buffer` holds the `totread` bytes stored so far. -/
structure State where
  rlbuf : Rlbuf
  reads : Reads
  buffer : List UInt8

/-- How a pass of the loop ends. -/
inductive Pass
  | again (s : State)
  | leave (r : Returned) (rlbuf : Rlbuf) (reads : Reads)

/-- `if (buffer[totread - 1] == '\n') break;` -/
def State.testNewline (s : State) : Except Fault Pass :=
  match s.buffer.getLast? with
  | none => .error .outOfBounds
  | some ch =>
    if ch = newline then .ok (.leave (.terminated s.buffer) s.rlbuf s.reads) else .ok (.again s)

/-- Store a byte if there is room, and test for the newline. -/
def State.store (n : ℕ) (s : State) : Except Fault Pass :=
  if s.buffer.length < n - 1 then
    match s.rlbuf.buf[s.rlbuf.next]? with
    | none => .error .outOfBounds
    | some ch =>
      { s with
        rlbuf := { s.rlbuf with next := s.rlbuf.next + 1 }
        buffer := s.buffer ++ [ch] : State }.testNewline
  else s.testNewline

/-- One pass of the loop. -/
def State.pass (n : ℕ) (s : State) : Except Fault Pass :=
  if s.rlbuf.len ≤ s.rlbuf.next then
    match s.reads with
    | [] => .ok (.leave (.terminated s.buffer) { s.rlbuf with len := 0 } [])
    | none :: reads => .ok (.leave ⟨-1, s.buffer⟩ { s.rlbuf with len := -1 } reads)
    | some chunk :: reads => { s with rlbuf := s.rlbuf.fill chunk, reads : State }.store n
  else s.store n

/-- The loop of `myreadLineBuf`. -/
def loop (n : ℕ) : ℕ → State → Except Fault (Returned × Rlbuf × Reads)
  | 0, _ => .error .unfinished
  | fuel + 1, s =>
    match s.pass n with
    | .error e => .error e
    | .ok (.again s) => loop n fuel s
    | .ok (.leave r rlbuf reads) => .ok (r, rlbuf, reads)

/-- `myreadLineBuf(rlbuf, buffer, n)`. -/
def myreadLineBuf (fuel n : ℕ) (rlbuf : Rlbuf) (reads : Reads) :
    Except Fault (Returned × Rlbuf × Reads) :=
  if n ≤ 0 then .ok (⟨-1, []⟩, rlbuf, reads) else loop n fuel ⟨rlbuf, reads, []⟩

/-- `k` successive calls. -/
def calls (fuel n : ℕ) : ℕ → Rlbuf → Reads → Except Fault (List Returned)
  | 0, _, _ => .ok []
  | k + 1, rlbuf, reads =>
    match myreadLineBuf fuel n rlbuf reads with
    | .error e => .error e
    | .ok (r, rlbuf, reads) => (calls fuel n k rlbuf reads).map (r :: ·)

/-! ## The bytes that are still unread -/

/-- The bytes that a list of chunks delivers. -/
def stream (chunks : List Chunk) : List UInt8 := (chunks.map Chunk.bytes).flatten

/-- The bytes left in the buffer. -/
def Rlbuf.rest (rlbuf : Rlbuf) : List UInt8 :=
  (rlbuf.buf.drop rlbuf.next).take (rlbuf.len.toNat - rlbuf.next)

/-- The filled part lies inside the buffer. -/
def Rlbuf.Ready (rlbuf : Rlbuf) : Prop := rlbuf.len ≤ MAX_RLBUF

theorem ready_init (fd : ℤ) (rlbuf : Rlbuf) : (myreadLineBufInit fd rlbuf).Ready := by
  simp [Rlbuf.Ready, myreadLineBufInit]

@[simp] theorem rest_init (fd : ℤ) (rlbuf : Rlbuf) : (myreadLineBufInit fd rlbuf).rest = [] := by
  simp [Rlbuf.rest, myreadLineBufInit]

theorem ready_fill (rlbuf : Rlbuf) (chunk : Chunk) : (rlbuf.fill chunk).Ready := by
  have hle := chunk.le
  simp only [Rlbuf.Ready, Rlbuf.fill]
  omega

@[simp] theorem rest_fill (rlbuf : Rlbuf) (chunk : Chunk) :
    (rlbuf.fill chunk).rest = chunk.bytes := by
  simp [Rlbuf.rest, Rlbuf.fill]

/-- A used-up buffer has no bytes left. -/
theorem Rlbuf.rest_of_le {rlbuf : Rlbuf} (h : rlbuf.len ≤ rlbuf.next) : rlbuf.rest = [] := by
  have hzero : rlbuf.len.toNat - rlbuf.next = 0 := by omega
  rw [Rlbuf.rest, hzero, List.take_zero]

/-- A buffer that is not used up has the byte at `next` and what follows it. -/
theorem Rlbuf.rest_of_lt {rlbuf : Rlbuf} (hr : rlbuf.Ready) (h : rlbuf.next < rlbuf.len) :
    ∃ ch, rlbuf.buf[rlbuf.next]? = some ch ∧
      rlbuf.rest = ch :: { rlbuf with next := rlbuf.next + 1 : Rlbuf }.rest := by
  have hlt : rlbuf.next < rlbuf.buf.length := by
    have hsize := rlbuf.size
    unfold Rlbuf.Ready at hr
    omega
  have hsucc : rlbuf.len.toNat - rlbuf.next = rlbuf.len.toNat - (rlbuf.next + 1) + 1 := by omega
  refine ⟨rlbuf.buf[rlbuf.next], List.getElem?_eq_getElem hlt, ?_⟩
  rw [Rlbuf.rest, List.drop_eq_getElem_cons hlt, hsucc, List.take_succ_cons]
  rfl

/-! ## One call -/

variable {n : ℕ}

/-- A pass that has a byte to take and room for it stores the byte. -/
theorem store_eq {s : State} (hr : s.rlbuf.Ready) (hlt : s.rlbuf.next < s.rlbuf.len)
    (hroom : s.buffer.length < n - 1) :
    ∃ ch rlbuf, rlbuf.Ready ∧ s.rlbuf.rest = ch :: rlbuf.rest ∧
      s.store n = .ok (if ch = newline then .leave (.terminated (s.buffer ++ [ch])) rlbuf s.reads
        else .again ⟨rlbuf, s.reads, s.buffer ++ [ch]⟩) := by
  obtain ⟨ch, hch, hrest⟩ := Rlbuf.rest_of_lt hr hlt
  refine ⟨ch, { s.rlbuf with next := s.rlbuf.next + 1 }, hr, hrest, ?_⟩
  rw [State.store, if_pos hroom, hch]
  simp only [State.testNewline, List.getLast?_append, List.getLast?_singleton, Option.some_or]
  split <;> rfl

/-- One pass, over the unread bytes: it stores the first of them. Other reads may follow. -/
theorem pass_cons_append {rlbuf : Rlbuf} {chunks : List Chunk} (reads : Reads)
    (buffer : List UInt8) {ch : UInt8} {u : List UInt8} (hr : rlbuf.Ready)
    (hu : rlbuf.rest ++ stream chunks = ch :: u) (hroom : buffer.length < n - 1) :
    ∃ rlbuf' chunks', rlbuf'.Ready ∧ rlbuf'.rest ++ stream chunks' = u ∧
      State.pass n ⟨rlbuf, chunks.map some ++ reads, buffer⟩ =
        .ok (if ch = newline then
            .leave (.terminated (buffer ++ [ch])) rlbuf' (chunks'.map some ++ reads)
          else .again ⟨rlbuf', chunks'.map some ++ reads, buffer ++ [ch]⟩) := by
  by_cases hlt : rlbuf.next < rlbuf.len
  · obtain ⟨c, rlbuf', hr', hrest, hstore⟩ :=
      store_eq (s := ⟨rlbuf, chunks.map some ++ reads, buffer⟩) hr hlt hroom
    rw [hrest, List.cons_append, List.cons.injEq] at hu
    obtain ⟨rfl, hu⟩ := hu
    refine ⟨rlbuf', chunks, hr', hu, ?_⟩
    rw [State.pass, if_neg (not_le.2 hlt)]
    exact hstore
  · -- the buffer is used up: the first chunk of the coming reads goes into it
    rw [Rlbuf.rest_of_le (not_lt.1 hlt), List.nil_append] at hu
    cases chunks with
    | nil => cases hu
    | cons chunk chunks =>
      have hpos : (rlbuf.fill chunk).next < (rlbuf.fill chunk).len := by
        have := chunk.pos
        simp only [Rlbuf.fill]
        omega
      obtain ⟨c, rlbuf', hr', hrest, hstore⟩ :=
        store_eq (s := ⟨rlbuf.fill chunk, chunks.map some ++ reads, buffer⟩)
          (ready_fill rlbuf chunk) hpos hroom
      have hstream : stream (chunk :: chunks) = chunk.bytes ++ stream chunks := rfl
      rw [hstream, ← rest_fill rlbuf chunk, hrest, List.cons_append, List.cons.injEq] at hu
      obtain ⟨rfl, hu⟩ := hu
      refine ⟨rlbuf', chunks, hr', hu, ?_⟩
      rw [State.pass, if_pos (not_lt.1 hlt), List.map_cons, List.cons_append]
      exact hstore

theorem pass_cons {rlbuf : Rlbuf} {chunks : List Chunk} (buffer : List UInt8) {ch : UInt8}
    {u : List UInt8} (hr : rlbuf.Ready) (hu : rlbuf.rest ++ stream chunks = ch :: u)
    (hroom : buffer.length < n - 1) :
    ∃ rlbuf' chunks', rlbuf'.Ready ∧ rlbuf'.rest ++ stream chunks' = u ∧
      State.pass n ⟨rlbuf, chunks.map some, buffer⟩ =
        .ok (if ch = newline then
            .leave (.terminated (buffer ++ [ch])) rlbuf' (chunks'.map some)
          else .again ⟨rlbuf', chunks'.map some, buffer ++ [ch]⟩) := by
  simpa only [List.append_nil] using pass_cons_append [] buffer hr hu hroom

/-- Nothing unread, and no read that delivers anything. -/
theorem unread_eq_nil {rlbuf : Rlbuf} {chunks : List Chunk} (hr : rlbuf.Ready)
    (hu : rlbuf.rest ++ stream chunks = []) : rlbuf.len ≤ rlbuf.next ∧ chunks = [] := by
  obtain ⟨hrest, hstream⟩ := List.append_eq_nil_iff.1 hu
  constructor
  · by_contra hlt
    obtain ⟨ch, -, hcons⟩ := Rlbuf.rest_of_lt hr (not_le.1 hlt)
    rw [hrest] at hcons
    cases hcons
  · cases chunks with
    | nil => rfl
    | cons chunk chunks =>
      have hpos := chunk.pos
      have hnil : chunk.bytes = [] := (List.append_eq_nil_iff.1 hstream).1
      rw [hnil] at hpos
      cases hpos

/-- A pass with nothing unread finds the end of the file. -/
theorem pass_nil {rlbuf : Rlbuf} {chunks : List Chunk} {buffer : List UInt8}
    (hr : rlbuf.Ready) (hu : rlbuf.rest ++ stream chunks = []) :
    State.pass n ⟨rlbuf, chunks.map some, buffer⟩ =
      .ok (.leave (.terminated buffer) { rlbuf with len := 0 } []) := by
  obtain ⟨hlen, hchunks⟩ := unread_eq_nil hr hu
  rw [State.pass, if_pos hlen, hchunks]
  rfl

/-- **The loop** stores the first line of the unread bytes and leaves the rest of them unread. -/
theorem loop_eq (u : List UInt8) {rlbuf : Rlbuf} {chunks : List Chunk} (buffer : List UInt8)
    (hr : rlbuf.Ready) (hu : rlbuf.rest ++ stream chunks = u)
    (hroom : buffer.length + (firstLine newline u).1.length ≤ n - 1) (fuel : ℕ)
    (hfuel : (firstLine newline u).1.length < fuel) :
    ∃ rlbuf' chunks', rlbuf'.Ready ∧ rlbuf'.rest ++ stream chunks' = (firstLine newline u).2 ∧
      loop n fuel ⟨rlbuf, chunks.map some, buffer⟩ =
        .ok (.terminated (buffer ++ (firstLine newline u).1), rlbuf', chunks'.map some) := by
  induction u generalizing rlbuf chunks buffer fuel with
  | nil =>
    obtain ⟨fuel, rfl⟩ := Nat.exists_eq_add_of_lt hfuel
    refine ⟨{ rlbuf with len := 0 }, [], ?_, ?_, ?_⟩
    · simp [Rlbuf.Ready]
    · simp [Rlbuf.rest, stream]
    · rw [loop, pass_nil hr hu]
      simp
  | cons ch u ih =>
    obtain ⟨fuel, rfl⟩ : ∃ f, fuel = f + 1 := Nat.exists_eq_succ_of_ne_zero (by omega)
    unfold firstLine at hroom hfuel ⊢
    by_cases hch : ch = newline
    · rw [if_pos hch] at hroom ⊢
      obtain ⟨rlbuf', chunks', hr', hu', hpass⟩ := pass_cons buffer hr hu
        (by simpa using hroom)
      refine ⟨rlbuf', chunks', hr', hu', ?_⟩
      rw [loop, hpass, if_pos hch]
    · rw [if_neg hch] at hroom hfuel ⊢
      simp only [List.length_cons] at hroom hfuel
      obtain ⟨rlbuf', chunks', hr', hu', hpass⟩ := pass_cons (n := n) buffer hr hu
        (by omega)
      obtain ⟨rlbuf'', chunks'', hr'', hu'', hloop⟩ := ih (buffer ++ [ch]) hr' hu'
        (by rw [List.length_append, List.length_singleton]; omega) fuel (by omega)
      refine ⟨rlbuf'', chunks'', hr'', hu'', ?_⟩
      rw [loop, hpass, if_neg hch]
      simp only
      rw [hloop, List.append_assoc, List.singleton_append]

/-! ## Successive calls -/

/-- A stream whose lines are short has a short first line, and short lines after it. -/
theorem firstLine_length_le {m : ℕ} {u : List UInt8}
    (h : ∀ l ∈ lines newline u, l.length ≤ m) :
    (firstLine newline u).1.length ≤ m ∧
      ∀ l ∈ lines newline (firstLine newline u).2, l.length ≤ m := by
  by_cases hu : u = []
  · rw [hu]
    exact ⟨Nat.zero_le m, fun l hl => absurd hl List.not_mem_nil⟩
  · rw [lines_eq_cons hu] at h
    exact ⟨h _ List.mem_cons_self, fun l hl => h l (List.mem_cons_of_mem _ hl)⟩

theorem calls_eq_nextLines (hn : 2 ≤ n) {fuel : ℕ} (hfuel : n ≤ fuel) (k : ℕ) {rlbuf : Rlbuf}
    (chunks : List Chunk) (hr : rlbuf.Ready)
    (hlines : ∀ l ∈ lines newline (rlbuf.rest ++ stream chunks), l.length ≤ n - 1) :
    calls fuel n k rlbuf (chunks.map some) =
      .ok ((nextLines newline k (rlbuf.rest ++ stream chunks)).map Returned.terminated) := by
  induction k generalizing rlbuf chunks with
  | zero => rfl
  | succ k ih =>
    obtain ⟨hfirst, hrest⟩ := firstLine_length_le hlines
    obtain ⟨rlbuf', chunks', hr', hu', hloop⟩ := loop_eq _ [] hr rfl
      (by rwa [List.length_nil, Nat.zero_add]) fuel (by omega)
    rw [← hu'] at hrest
    have hcalls := ih chunks' hr' hrest
    rw [hu'] at hcalls
    rw [calls, myreadLineBuf, if_neg (by omega), hloop]
    simp only [hcalls, nextLines, Except.map, List.map_cons, List.nil_append]

/-- **Successive calls return the lines.** When every line of the stream, newline included, has at
most `n - 1` bytes, the calls that follow one `myreadLineBufInit` return the lines of the stream,
the last of them without a newline if the stream does not end with one, and then nothing for
ever. Each result is terminated in the caller's buffer, how the reads cut the stream does not
matter, and `readLine` on the same stream returns the same. -/
theorem calls_eq_lines (hn : 2 ≤ n) (chunks : List Chunk)
    (hlines : ∀ l ∈ lines newline (stream chunks), l.length ≤ n - 1) (fd : ℤ) (rlbuf : Rlbuf)
    (k fuel : ℕ) (hfuel : n ≤ fuel) :
    let results := (lines newline (stream chunks) ++ List.replicate k []).take k
    calls fuel n k (myreadLineBufInit fd rlbuf) (chunks.map some) =
        .ok (results.map Returned.terminated) ∧
      ∀ reads : List ByteRead, .failed ∉ reads → delivered reads = stream chunks →
        List.Forall₂ Returned.Returns (readLineCalls n k reads) results := by
  intro results
  have hresults : nextLines newline k (stream chunks) = results :=
    nextLines_eq k (stream chunks)
  constructor
  · have hcalls := calls_eq_nextLines hn hfuel k chunks (ready_init fd rlbuf)
      (by rwa [rest_init, List.nil_append])
    rw [rest_init, List.nil_append, hresults] at hcalls
    exact hcalls
  · intro reads hok hd
    have hcalls := readLineCalls_returns (n := n) (by omega) k hok
    have hkept : results.map (List.take (n - 1)) = results := by
      refine (List.map_congr_left fun l hl => ?_).trans (List.map_id results)
      refine List.take_of_length_le ?_
      obtain hl | hl := List.mem_append.1 (List.mem_of_mem_take hl)
      · exact hlines l hl
      · rw [List.eq_of_mem_replicate hl]
        exact Nat.zero_le _
    rw [hd, hresults, hkept] at hcalls
    exact hcalls

/-- A reader behind `myreadLineBufInit`. -/
def freshRlbuf : Rlbuf :=
  myreadLineBufInit 0 ⟨0, 0, 0, List.replicate MAX_RLBUF 0, List.length_replicate⟩

theorem ready_freshRlbuf : freshRlbuf.Ready := ready_init 0 _

theorem rest_freshRlbuf : freshRlbuf.rest = [] := rest_init 0 _

/-- Two chunks, `ab\nc` and `d`, read with a buffer of four bytes. -/
theorem calls_eq_lines_straddling :
    calls 4 4 3 (myreadLineBufInit 0 ⟨0, 0, 0, List.replicate MAX_RLBUF 0, List.length_replicate⟩)
        (([⟨[97, 98, 10, 99], by decide, by decide⟩, ⟨[100], by decide, by decide⟩] :
          List Chunk).map some) =
      .ok ([[97, 98, 10], [99, 100], []].map Returned.terminated) :=
  (calls_eq_lines (n := 4) (by decide)
    [⟨[97, 98, 10, 99], by decide, by decide⟩, ⟨[100], by decide, by decide⟩] (by decide) 0
    ⟨0, 0, 0, List.replicate MAX_RLBUF 0, List.length_replicate⟩ 3 4 (by decide)).1

end TlpiLearn.ReadLine
