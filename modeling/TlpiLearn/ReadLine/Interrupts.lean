import TlpiLearn.ReadLine.MyReadLineBuf
import Mathlib.Tactic

/-!
# Interrupted reads in the buffered reader

When `read` fails inside `myreadLineBuf`, the call returns `-1` and the bytes it has stored so far
are gone: the next call starts with an empty buffer. What a caller that goes on after each `-1` gets
is `kept`: of the bytes up to a failed read the complete lines, and all bytes behind the last one
(`calls_kept`). Nothing is lost if and only if every failed read comes between two lines
(`lossless_iff`).
-/

namespace TlpiLearn.ReadLine

variable {n : ℕ}

/-- The bytes that the coming reads deliver, whatever fails in between. -/
def delivers : Reads → List UInt8
  | [] => []
  | none :: reads => delivers reads
  | some chunk :: reads => chunk.bytes ++ delivers reads

/-- The bytes that a call has returned, if it has not returned `-1`. -/
def Returned.bytes (r : Returned) : List UInt8 :=
  if r.value = -1 then [] else r.buffer.take r.value.toNat

/-- Enough calls return, and the bytes of those that did not return `-1` are the stream. -/
def Lossless (fuel n : ℕ) (rlbuf : Rlbuf) (reads : Reads) : Prop :=
  ∃ enough, ∀ k ≥ enough, ∃ results, calls fuel n k rlbuf reads = .ok results ∧
    results.flatMap Returned.bytes = delivers reads

/-- **The condition**: what has been delivered before a failed read ends with a newline, if there is
any of it. -/
def BetweenLines (reads : Reads) : Prop :=
  ∀ pre post, reads = pre ++ none :: post → ∀ ch ∈ (delivers pre).getLast?, ch = newline

/-- What the calls return of the bytes `u` in the buffer and those of the reads. -/
def kept (u : List UInt8) : Reads → List UInt8
  | [] => u
  | none :: reads => completeLines newline u ++ kept [] reads
  | some chunk :: reads => kept (u ++ chunk.bytes) reads

/-! ## Reads -/

@[simp] theorem bytes_terminated (bs : List UInt8) : (Returned.terminated bs).bytes = bs := by
  have hne : ¬(bs.length : ℤ) = -1 := by omega
  rw [Returned.bytes, Returned.terminated, if_neg hne, Int.toNat_natCast, List.take_left']
  rfl

@[simp] theorem bytes_failed (buffer : List UInt8) : Returned.bytes ⟨-1, buffer⟩ = [] := if_pos rfl

theorem delivers_append (pre post : Reads) :
    delivers (pre ++ post) = delivers pre ++ delivers post := by
  induction pre with
  | nil => rfl
  | cons r pre ih =>
    cases r with
    | none => exact ih
    | some chunk => rw [List.cons_append, delivers, delivers, ih, List.append_assoc]

theorem delivers_map_some (chunks : List Chunk) : delivers (chunks.map some) = stream chunks := by
  induction chunks with
  | nil => rfl
  | cons chunk chunks ih =>
    rw [List.map_cons, delivers, ih]
    rfl

/-- The reads up to the first failed one. -/
theorem exists_chunks (reads : Reads) : ∃ (chunks : List Chunk) (tail : Reads),
    reads = chunks.map some ++ tail ∧ (tail = [] ∨ ∃ post, tail = none :: post) := by
  induction reads with
  | nil => exact ⟨[], [], rfl, .inl rfl⟩
  | cons r reads ih =>
    cases r with
    | none => exact ⟨[], none :: reads, rfl, .inr ⟨reads, rfl⟩⟩
    | some chunk =>
      obtain ⟨chunks, tail, rfl, htail⟩ := ih
      exact ⟨chunk :: chunks, tail, rfl, htail⟩

theorem kept_map_some (u : List UInt8) (chunks : List Chunk) (reads : Reads) :
    kept u (chunks.map some ++ reads) = kept (u ++ stream chunks) reads := by
  induction chunks generalizing u with
  | nil =>
    rw [List.map_nil, List.nil_append, stream, List.map_nil, List.flatten_nil, List.append_nil]
  | cons chunk chunks ih =>
    rw [List.map_cons, List.cons_append, kept, ih, List.append_assoc]
    rfl

/-- A line that is complete is kept. -/
theorem kept_line (w u : List UInt8) (reads : Reads) :
    kept (w ++ newline :: u) reads = w ++ newline :: kept u reads := by
  induction reads generalizing u with
  | nil => rfl
  | cons r reads ih =>
    cases r with
    | none => rw [kept, kept, completeLines_append_cons, List.append_assoc, List.cons_append]
    | some chunk => rw [kept, kept, List.append_assoc, List.cons_append, ih]

/-! ## What is lost -/

theorem length_kept_le (u : List UInt8) (reads : Reads) :
    (kept u reads).length ≤ (u ++ delivers reads).length := by
  induction reads generalizing u with
  | nil => rw [kept, delivers, List.append_nil]
  | cons r reads ih =>
    cases r with
    | none =>
      have hlen := ih []
      have hle := (completeLines_isPrefix newline u).length_le
      rw [List.nil_append] at hlen
      rw [kept, delivers, List.length_append, List.length_append]
      omega
    | some chunk =>
      rw [kept, delivers, ← List.append_assoc]
      exact ih _

/-- Each failed read comes behind complete lines, when `u` has been delivered before. -/
def EndsLines (u : List UInt8) (reads : Reads) : Prop :=
  ∀ pre post, reads = pre ++ none :: post → ∀ ch ∈ (u ++ delivers pre).getLast?, ch = newline

theorem endsLines_nil (u : List UInt8) : EndsLines u [] := by
  intro pre post h
  cases pre <;> cases h

theorem endsLines_chunk (u : List UInt8) (chunk : Chunk) (reads : Reads) :
    EndsLines u (some chunk :: reads) ↔ EndsLines (u ++ chunk.bytes) reads := by
  constructor
  · intro h pre post hreads
    have hsome := h (some chunk :: pre) post (by rw [hreads, List.cons_append])
    rwa [delivers, ← List.append_assoc] at hsome
  · intro h pre post heq
    cases pre with
    | nil => cases heq
    | cons r pre =>
      obtain ⟨rfl, hreads⟩ := List.cons.inj heq
      rw [delivers, ← List.append_assoc]
      exact h pre post hreads

/-- Behind a failed read only what is delivered from there on counts. -/
theorem endsLines_failed (u : List UInt8) (reads : Reads) :
    EndsLines u (none :: reads) ↔ (∀ ch ∈ u.getLast?, ch = newline) ∧ EndsLines [] reads := by
  constructor
  · intro h
    constructor
    · intro ch hch
      refine h [] reads rfl ch ?_
      rwa [delivers, List.append_nil]
    · intro pre post hreads ch hch
      rw [List.nil_append] at hch
      have hne : delivers pre ≠ [] := by
        intro hnil
        rw [hnil] at hch
        cases hch
      refine h (none :: pre) post (by rw [hreads, List.cons_append]) ch ?_
      rwa [delivers, List.getLast?_append_of_ne_nil _ hne]
  · rintro ⟨hu, hrest⟩ pre post h ch hch
    cases pre with
    | nil =>
      rw [delivers, List.append_nil] at hch
      exact hu ch hch
    | cons r pre =>
      obtain ⟨rfl, hreads⟩ := List.cons.inj h
      rw [delivers] at hch
      by_cases hnil : delivers pre = []
      · rw [hnil, List.append_nil] at hch
        exact hu ch hch
      · rw [List.getLast?_append_of_ne_nil _ hnil] at hch
        exact hrest pre post hreads ch hch

/-- A failed read keeps everything if it loses nothing and nothing is lost behind it. -/
theorem kept_failed_eq_iff (u : List UInt8) (reads : Reads) :
    kept u (none :: reads) = u ++ delivers (none :: reads) ↔
      completeLines newline u = u ∧ kept [] reads = delivers reads := by
  have hle := (completeLines_isPrefix newline u).length_le
  have hlen := length_kept_le [] reads
  rw [List.nil_append] at hlen
  rw [kept, delivers]
  constructor
  · intro h
    have hlens := congrArg List.length h
    rw [List.length_append, List.length_append] at hlens
    exact List.append_inj h (by omega)
  · rintro ⟨hu, hrest⟩
    rw [hu, hrest]

/-- What is kept is everything if each failed read comes behind complete lines. -/
theorem kept_eq_iff (u : List UInt8) (reads : Reads) :
    kept u reads = u ++ delivers reads ↔ EndsLines u reads := by
  induction reads generalizing u with
  | nil => exact iff_of_true (by rw [kept, delivers, List.append_nil]) (endsLines_nil u)
  | cons r reads ih =>
    cases r with
    | none =>
      have hrest := ih []
      rw [List.nil_append] at hrest
      rw [kept_failed_eq_iff, hrest, completeLines_eq_self_iff, endsLines_failed]
    | some chunk => rw [kept, delivers, ← List.append_assoc, ih, endsLines_chunk]

/-! ## One call -/

section Call

variable {rlbuf : Rlbuf} {chunks : List Chunk} {reads : Reads}

/-- The loop stores bytes up to the next newline. -/
theorem loop_walk (reads : Reads) (w u buffer : List UInt8) (hr : rlbuf.Ready) (hw : newline ∉ w)
    (hu : rlbuf.rest ++ stream chunks = w ++ u) (hroom : buffer.length + w.length ≤ n - 1)
    (fuel : ℕ) :
    ∃ rlbuf' chunks', rlbuf'.Ready ∧ rlbuf'.rest ++ stream chunks' = u ∧
      loop n (w.length + fuel) ⟨rlbuf, chunks.map some ++ reads, buffer⟩ =
        loop n fuel ⟨rlbuf', chunks'.map some ++ reads, buffer ++ w⟩ := by
  induction w generalizing rlbuf chunks buffer with
  | nil =>
    refine ⟨rlbuf, chunks, hr, hu, ?_⟩
    rw [List.length_nil, Nat.zero_add, List.append_nil]
  | cons ch w ih =>
    rw [List.mem_cons, not_or] at hw
    rw [List.length_cons] at hroom
    obtain ⟨rlbuf', chunks', hr', hu', hpass⟩ := pass_cons_append (n := n) reads buffer hr hu
      (by omega)
    rw [if_neg (Ne.symm hw.1)] at hpass
    obtain ⟨rlbuf'', chunks'', hr'', hu'', hloop⟩ := ih (buffer ++ [ch]) hr' hw.2 hu'
      (by rw [List.length_append, List.length_singleton]; omega)
    refine ⟨rlbuf'', chunks'', hr'', hu'', ?_⟩
    rw [List.length_cons, Nat.add_right_comm, loop, hpass]
    simp only
    rw [hloop, List.append_assoc, List.singleton_append]

/-- A call whose line is complete returns it. -/
theorem myreadLineBuf_line {fuel : ℕ} (reads : Reads) {w u : List UInt8} (hr : rlbuf.Ready)
    (hw : newline ∉ w) (hu : rlbuf.rest ++ stream chunks = w ++ newline :: u)
    (hlen : w.length + 1 ≤ n - 1) (hfuel : n ≤ fuel) :
    ∃ rlbuf' chunks', rlbuf'.Ready ∧ rlbuf'.rest ++ stream chunks' = u ∧
      myreadLineBuf fuel n rlbuf (chunks.map some ++ reads) =
        .ok (.terminated (w ++ [newline]), rlbuf', chunks'.map some ++ reads) := by
  obtain ⟨f, rfl⟩ : ∃ f, fuel = w.length + (f + 1) := ⟨fuel - w.length - 1, by omega⟩
  obtain ⟨rlbuf', chunks', hr', hu', hloop⟩ := loop_walk (n := n) reads w (newline :: u) [] hr hw hu
    (by rw [List.length_nil]; omega) (f + 1)
  obtain ⟨rlbuf'', chunks'', hr'', hu'', hpass⟩ := pass_cons_append (n := n) reads w hr' hu'
    (by omega)
  refine ⟨rlbuf'', chunks'', hr'', hu'', ?_⟩
  rw [myreadLineBuf, if_neg (by omega), hloop, List.nil_append, loop, hpass, if_pos rfl]

/-- A call that meets a failed read returns `-1`, and what it has stored is lost. -/
theorem myreadLineBuf_failed {fuel : ℕ} (post : Reads) (hr : rlbuf.Ready)
    (hw : newline ∉ rlbuf.rest ++ stream chunks)
    (hlen : (rlbuf.rest ++ stream chunks).length ≤ n - 1) (hn : 0 < n) (hfuel : n ≤ fuel) :
    ∃ rlbuf', rlbuf'.Ready ∧ rlbuf'.rest = [] ∧
      myreadLineBuf fuel n rlbuf (chunks.map some ++ none :: post) =
        .ok (⟨-1, rlbuf.rest ++ stream chunks⟩, rlbuf', post) := by
  obtain ⟨f, rfl⟩ : ∃ f, fuel = (rlbuf.rest ++ stream chunks).length + (f + 1) :=
    ⟨fuel - (rlbuf.rest ++ stream chunks).length - 1, by omega⟩
  obtain ⟨rlbuf', chunks', hr', hu', hloop⟩ := loop_walk (n := n) (none :: post)
    (rlbuf.rest ++ stream chunks) [] [] hr hw (List.append_nil _).symm
    (by rw [List.length_nil]; omega) (f + 1)
  obtain ⟨hused, rfl⟩ := unread_eq_nil hr' hu'
  refine ⟨{ rlbuf' with len := -1 }, ?_, Rlbuf.rest_of_le ?_, ?_⟩
  · simp [Rlbuf.Ready]
  · simp only
    omega
  · rw [myreadLineBuf, if_neg (by omega), hloop, List.nil_append, loop, State.pass, if_pos hused]
    rfl

/-- A call that meets the end of the file returns what is left. -/
theorem myreadLineBuf_eof {fuel : ℕ} (hr : rlbuf.Ready)
    (hw : newline ∉ rlbuf.rest ++ stream chunks)
    (hlen : (rlbuf.rest ++ stream chunks).length ≤ n - 1) (hn : 0 < n) (hfuel : n ≤ fuel) :
    ∃ rlbuf', rlbuf'.Ready ∧ rlbuf'.rest = [] ∧
      myreadLineBuf fuel n rlbuf (chunks.map some) =
        .ok (.terminated (rlbuf.rest ++ stream chunks), rlbuf', []) := by
  obtain ⟨f, rfl⟩ : ∃ f, fuel = (rlbuf.rest ++ stream chunks).length + (f + 1) :=
    ⟨fuel - (rlbuf.rest ++ stream chunks).length - 1, by omega⟩
  obtain ⟨rlbuf', chunks', hr', hu', hloop⟩ := loop_walk (n := n) [] (rlbuf.rest ++ stream chunks)
    [] [] hr hw (List.append_nil _).symm (by rw [List.length_nil]; omega) (f + 1)
  rw [List.append_nil, List.append_nil, List.nil_append] at hloop
  refine ⟨{ rlbuf' with len := 0 }, ?_, Rlbuf.rest_of_le ?_, ?_⟩
  · simp [Rlbuf.Ready]
  · simp only
    omega
  · rw [myreadLineBuf, if_neg (by omega), hloop, loop, pass_nil hr' hu']

/-- What is still to come: bytes and failed reads. -/
def pending (rlbuf : Rlbuf) (reads : Reads) : ℕ :=
  (rlbuf.rest ++ delivers reads).length + reads.countP Option.isNone

/-- **A call** returns, with what is kept of the bytes it has taken, and there is less to come,
unless nothing was. -/
theorem myreadLineBuf_kept (hn : 0 < n) {fuel : ℕ} (hfuel : n ≤ fuel) (hr : rlbuf.Ready)
    (hlines : ∀ l ∈ lines newline (rlbuf.rest ++ delivers reads), l.length ≤ n - 1) :
    ∃ r rlbuf' reads', myreadLineBuf fuel n rlbuf reads = .ok (r, rlbuf', reads') ∧ rlbuf'.Ready ∧
      (∃ w, rlbuf.rest ++ delivers reads = w ++ (rlbuf'.rest ++ delivers reads')) ∧
      kept rlbuf.rest reads = r.bytes ++ kept rlbuf'.rest reads' ∧
      (pending rlbuf' reads' < pending rlbuf reads ∨ pending rlbuf' reads' = 0) := by
  obtain ⟨chunks, tail, rfl, htail⟩ := exists_chunks reads
  have hcount : ∀ cs : List Chunk,
      (cs.map some ++ tail).countP Option.isNone = tail.countP Option.isNone := by
    intro cs
    rw [List.countP_append, List.countP_map]
    simp
  have hbytes : ∀ (rlbuf : Rlbuf) (cs : List Chunk),
      rlbuf.rest ++ delivers (cs.map some ++ tail) = rlbuf.rest ++ stream cs ++ delivers tail := by
    intro rlbuf cs
    rw [delivers_append, delivers_map_some, List.append_assoc]
  have hfirst := (firstLine_length_le hlines).1
  rw [hbytes] at hfirst
  by_cases hmem : newline ∈ rlbuf.rest ++ stream chunks
  · -- the next line is complete
    obtain ⟨w, u, hu, hw⟩ := List.eq_append_cons_of_mem hmem
    rw [hu, List.append_assoc, List.cons_append, firstLine_append_cons hw, List.length_append,
      List.length_singleton] at hfirst
    obtain ⟨rlbuf', chunks', hr', hu', hcall⟩ := myreadLineBuf_line tail hr hw hu hfirst hfuel
    refine ⟨_, rlbuf', _, hcall, hr', ⟨w ++ [newline], ?_⟩, ?_, .inl ?_⟩
    · rw [hbytes, hbytes, hu, hu']
      simp
    · rw [kept_map_some, kept_map_some, hu, hu', kept_line, bytes_terminated, List.append_assoc,
        List.singleton_append]
    · simp only [pending, hcount, hbytes, hu, hu', List.length_append, List.length_cons]
      omega
  · have hlen : (rlbuf.rest ++ stream chunks).length ≤ n - 1 :=
      (length_le_firstLine hmem (delivers tail)).trans hfirst
    rcases htail with rfl | ⟨post, rfl⟩
    · obtain ⟨rlbuf', hr', hrest, hcall⟩ := myreadLineBuf_eof hr hmem hlen (by omega) hfuel
      rw [List.append_nil]
      refine ⟨_, rlbuf', _, hcall, hr', ⟨rlbuf.rest ++ stream chunks, ?_⟩, ?_, .inr ?_⟩
      · rw [delivers_map_some, hrest]
        simp [delivers]
      · have hkept := kept_map_some rlbuf.rest chunks []
        rw [List.append_nil] at hkept
        rw [hkept, bytes_terminated, hrest, kept, kept, List.append_nil]
      · simp [pending, hrest, delivers]
    · obtain ⟨rlbuf', hr', hrest, hcall⟩ := myreadLineBuf_failed post hr hmem hlen (by omega) hfuel
      refine ⟨_, rlbuf', _, hcall, hr', ⟨rlbuf.rest ++ stream chunks, ?_⟩, ?_, .inl ?_⟩
      · rw [hbytes, hrest, List.nil_append]
        rfl
      · rw [kept_map_some, kept, completeLines_of_notMem hmem, bytes_failed, hrest]
      · simp only [pending, hcount, hbytes, hrest, List.nil_append, List.length_append, delivers]
        simp
        omega

end Call

/-! ## Successive calls -/

/-- **Enough calls** return what is kept. -/
theorem calls_kept (hn : 0 < n) {fuel : ℕ} (hfuel : n ≤ fuel) (k : ℕ) {rlbuf : Rlbuf}
    {reads : Reads} (hr : rlbuf.Ready)
    (hlines : ∀ l ∈ lines newline (rlbuf.rest ++ delivers reads), l.length ≤ n - 1)
    (hk : pending rlbuf reads ≤ k) :
    ∃ results, calls fuel n k rlbuf reads = .ok results ∧
      results.flatMap Returned.bytes = kept rlbuf.rest reads := by
  induction k generalizing rlbuf reads with
  | zero =>
    refine ⟨[], rfl, ?_⟩
    have hlen := length_kept_le rlbuf.rest reads
    rw [pending] at hk
    rw [List.flatMap_nil,
      List.eq_nil_of_length_eq_zero (by omega : (kept rlbuf.rest reads).length = 0)]
  | succ k ih =>
    obtain ⟨r, rlbuf', reads', hcall, hr', ⟨w, hw⟩, hkept, hless⟩ :=
      myreadLineBuf_kept hn hfuel hr hlines
    rw [hw] at hlines
    obtain ⟨results, hcalls, hresults⟩ := ih hr' (length_lines_of_append hlines) (by omega)
    refine ⟨r :: results, ?_, ?_⟩
    · rw [calls, hcall]
      simp only [hcalls]
      rfl
    · rw [List.flatMap_cons, hresults, hkept]

theorem lossless_iff_kept (hn : 0 < n) {reads : Reads}
    (hlines : ∀ l ∈ lines newline (delivers reads), l.length ≤ n - 1) (fd : ℤ) (rlbuf : Rlbuf)
    {fuel : ℕ} (hfuel : n ≤ fuel) :
    Lossless fuel n (myreadLineBufInit fd rlbuf) reads ↔ kept [] reads = delivers reads := by
  have hcalls : ∀ k, pending (myreadLineBufInit fd rlbuf) reads ≤ k →
      ∃ results, calls fuel n k (myreadLineBufInit fd rlbuf) reads = .ok results ∧
        results.flatMap Returned.bytes = kept [] reads := by
    intro k hk
    obtain ⟨results, hresults, hkept⟩ := calls_kept hn hfuel k (ready_init fd rlbuf)
      (by rwa [rest_init, List.nil_append]) hk
    rw [rest_init] at hkept
    exact ⟨results, hresults, hkept⟩
  constructor
  · rintro ⟨enough, h⟩
    obtain ⟨results, hresults, hstream⟩ := h (max enough (pending _ reads)) (le_max_left _ _)
    obtain ⟨results', hresults', hkept⟩ := hcalls _ (le_max_right enough _)
    obtain rfl := Except.ok.inj (hresults.symm.trans hresults')
    rw [← hkept, hstream]
  · intro h
    refine ⟨pending (myreadLineBufInit fd rlbuf) reads, fun k hk => ?_⟩
    obtain ⟨results, hresults, hkept⟩ := hcalls k hk
    exact ⟨results, hresults, hkept.trans h⟩

/-- **Interrupted reads**: when every line fits the caller's buffer, a caller that goes on after
each `-1` gets the whole stream if and only if every failed read comes between two lines. -/
theorem lossless_iff (hn : 0 < n) (reads : Reads)
    (hlines : ∀ l ∈ lines newline (delivers reads), l.length ≤ n - 1) (fd : ℤ) (rlbuf : Rlbuf)
    (fuel : ℕ) (hfuel : n ≤ fuel) :
    Lossless fuel n (myreadLineBufInit fd rlbuf) reads ↔ BetweenLines reads := by
  have hkept := kept_eq_iff [] reads
  simp only [EndsLines, List.nil_append] at hkept
  rw [lossless_iff_kept hn hlines fd rlbuf hfuel, hkept, BetweenLines]

/-- `a` and a newline, a failed read, and `b`. -/
theorem lossless_iff_between :
    let reads : Reads :=
      [some ⟨[97, 10], by decide, by decide⟩, none, some ⟨[98], by decide, by decide⟩]
    Lossless 4 4 freshRlbuf reads ↔ BetweenLines reads :=
  lossless_iff (by decide)
    [some ⟨[97, 10], by decide, by decide⟩, none, some ⟨[98], by decide, by decide⟩] (by decide) 0 _
    4 (by decide)

/-- `ab`, a failed read, and `c` and a newline: `ab` is lost. -/
theorem interrupted_line_lost :
    let reads : Reads :=
      [some ⟨[97, 98], by decide, by decide⟩, none, some ⟨[99, 10], by decide, by decide⟩]
    (∃ results, calls 5 5 5 freshRlbuf reads = .ok results ∧
        results.flatMap Returned.bytes = [99, 10]) ∧
      delivers reads = [97, 98, 99, 10] ∧ ¬Lossless 5 5 freshRlbuf reads := by
  intro reads
  have hlines : ∀ l ∈ lines newline (delivers reads), l.length ≤ 5 - 1 := by decide
  constructor
  · have hpending : pending freshRlbuf reads ≤ 5 := by
      rw [pending, rest_freshRlbuf]
      decide
    obtain ⟨results, hresults, hkept⟩ := calls_kept (n := 5) (by decide) le_rfl 5 ready_freshRlbuf
      (by rwa [rest_freshRlbuf, List.nil_append]) hpending
    rw [rest_freshRlbuf] at hkept
    exact ⟨results, hresults, hkept⟩
  · refine ⟨rfl, ?_⟩
    rw [freshRlbuf, lossless_iff_kept (by decide) hlines 0 _ le_rfl]
    decide

end TlpiLearn.ReadLine
