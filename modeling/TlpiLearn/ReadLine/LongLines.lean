import TlpiLearn.ReadLine.MyReadLineBuf
import Mathlib.Tactic

/-!
# Long lines in the buffered reader

When the caller's buffer is full and its last byte is no newline, a pass of `myreadLineBuf` neither
stores nor skips the next byte, and the loop goes on for ever (`loop_full`); with a buffer of one
byte the test for the newline reads in front of it. `readLine` skips what does not fit. A call
does what `readLine` does if and only if the next line is shorter than the buffer
(`reads_line_iff`).
-/

namespace TlpiLearn.ReadLine

variable {n : ℕ}

/-- A call returns, with the first `n - 1` bytes of the next line and a terminator in the buffer,
and leaves what follows the line unread. -/
def ReadsLine (n : ℕ) (rlbuf : Rlbuf) (chunks : List Chunk) : Prop :=
  let u := rlbuf.rest ++ stream chunks
  ∃ fuel rlbuf' chunks', rlbuf'.Ready ∧ rlbuf'.rest ++ stream chunks' = (firstLine newline u).2 ∧
    myreadLineBuf fuel n rlbuf (chunks.map some) =
      .ok (.terminated ((firstLine newline u).1.take (n - 1)), rlbuf', chunks'.map some)

/-! ## A full buffer -/

/-- A loop that never leaves the states `I` does not end. -/
theorem loop_unfinished {I : State → Prop}
    (hI : ∀ s, I s → ∃ s', s.pass n = .ok (.again s') ∧ I s') (fuel : ℕ) {s : State} (hs : I s) :
    loop n fuel s = .error .unfinished := by
  induction fuel generalizing s with
  | zero => rfl
  | succ fuel ih =>
    obtain ⟨s', hpass, hs'⟩ := hI s hs
    rw [loop, hpass]
    exact ih hs'

/-- Nothing fits the buffer any more, it does not end with a newline, and there are bytes to
come. -/
structure State.Full (n : ℕ) (s : State) : Prop where
  ready : s.rlbuf.Ready
  length : s.buffer.length = n - 1
  last : ∃ ch, s.buffer.getLast? = some ch ∧ ch ≠ newline
  unread : ∃ chunks, s.reads = chunks.map some ∧ s.rlbuf.rest ++ stream chunks ≠ []

/-- Without room a pass only tests for the newline. -/
theorem store_full {s : State} (hlen : s.buffer.length = n - 1) {ch : UInt8}
    (hch : s.buffer.getLast? = some ch) (hne : ch ≠ newline) : s.store n = .ok (.again s) := by
  rw [State.store, if_neg (by omega), State.testNewline, hch]
  exact if_neg hne

/-- **A pass with a full buffer** at most fetches the next chunk. -/
theorem pass_full {s : State} (hs : s.Full n) : ∃ s', s.pass n = .ok (.again s') ∧ s'.Full n := by
  obtain ⟨ch, hch, hne⟩ := hs.last
  obtain ⟨chunks, hreads, hunread⟩ := hs.unread
  by_cases hlt : s.rlbuf.next < s.rlbuf.len
  · refine ⟨s, ?_, hs⟩
    rw [State.pass, if_neg (not_le.2 hlt), store_full hs.length hch hne]
  · rw [Rlbuf.rest_of_le (not_lt.1 hlt), List.nil_append] at hunread
    cases chunks with
    | nil => exact absurd rfl hunread
    | cons chunk chunks =>
      refine ⟨{ s with rlbuf := s.rlbuf.fill chunk, reads := chunks.map some }, ?_, ?_⟩
      · rw [State.pass, if_pos (not_lt.1 hlt), hreads, List.map_cons]
        exact store_full hs.length hch hne
      · refine ⟨ready_fill _ _, hs.length, hs.last, chunks, rfl, ?_⟩
        rw [rest_fill]
        exact fun h => List.ne_nil_of_length_pos chunk.pos (List.append_eq_nil_iff.1 h).1

theorem loop_full (fuel : ℕ) {s : State} (hs : s.Full n) : loop n fuel s = .error .unfinished :=
  loop_unfinished (fun _ hs => pass_full hs) fuel hs

/-! ## A long line -/

/-- **The loop** on a line that does not fit: it fills the buffer, and does not end. -/
theorem loop_long (u : List UInt8) {rlbuf : Rlbuf} {chunks : List Chunk} (buffer : List UInt8)
    (hr : rlbuf.Ready) (hu : rlbuf.rest ++ stream chunks = u) (hn : 1 < n)
    (hlast : ∀ ch, buffer.getLast? = some ch → ch ≠ newline) (hbuffer : buffer.length ≤ n - 1)
    (hlong : n - 1 < buffer.length + (firstLine newline u).1.length) (fuel : ℕ) :
    loop n fuel ⟨rlbuf, chunks.map some, buffer⟩ = .error .unfinished := by
  induction u generalizing rlbuf chunks buffer fuel with
  | nil =>
    rw [firstLine_nil, List.length_nil] at hlong
    omega
  | cons ch u ih =>
    by_cases hfull : buffer.length = n - 1
    · refine loop_full fuel ⟨hr, hfull, ?_, chunks, rfl, by rw [hu]; exact List.cons_ne_nil ch u⟩
      obtain ⟨init, b, rfl⟩ := (List.eq_nil_or_concat' buffer).resolve_left (by
        rintro rfl
        rw [List.length_nil] at hfull
        omega)
      exact ⟨b, List.getLast?_concat, hlast b List.getLast?_concat⟩
    · cases fuel with
      | zero => rfl
      | succ fuel =>
        have hch : ch ≠ newline := by
          rintro rfl
          rw [firstLine, if_pos rfl, List.length_singleton] at hlong
          omega
        obtain ⟨rlbuf', chunks', hr', hu', hpass⟩ := pass_cons (n := n) buffer hr hu (by omega)
        rw [if_neg hch] at hpass
        rw [firstLine, if_neg hch, List.length_cons] at hlong
        have hlen : (buffer ++ [ch]).length = buffer.length + 1 := by simp
        rw [loop, hpass]
        refine ih (buffer ++ [ch]) hr' hu' ?_ (by omega) (by omega) fuel
        intro c hc
        rw [List.getLast?_concat, Option.some.injEq] at hc
        exact hc ▸ hch

/-- With a buffer of one byte the first pass reads in front of it. -/
theorem loop_one {rlbuf : Rlbuf} {chunks : List Chunk}
    (hu : rlbuf.rest ++ stream chunks ≠ []) (fuel : ℕ) :
    loop 1 (fuel + 1) ⟨rlbuf, chunks.map some, []⟩ = .error .outOfBounds := by
  have hstore : ∀ rlbuf reads, State.store 1 ⟨rlbuf, reads, []⟩ = .error .outOfBounds :=
    fun _ _ => rfl
  have hpass : State.pass 1 ⟨rlbuf, chunks.map some, []⟩ = .error .outOfBounds := by
    by_cases hlt : rlbuf.next < rlbuf.len
    · rw [State.pass, if_neg (not_le.2 hlt), hstore]
    · rw [Rlbuf.rest_of_le (not_lt.1 hlt), List.nil_append] at hu
      cases chunks with
      | nil => exact absurd rfl hu
      | cons chunk chunks =>
        rw [State.pass, if_pos (not_lt.1 hlt), List.map_cons]
        exact hstore _ _
  rw [loop, hpass]

/-- A call that does not fit its line does not return. -/
theorem myreadLineBuf_long {rlbuf : Rlbuf} (hr : rlbuf.Ready) (hn : 0 < n) {chunks : List Chunk}
    (hlong : n ≤ (firstLine newline (rlbuf.rest ++ stream chunks)).1.length) (fuel : ℕ) :
    ∃ fault, myreadLineBuf fuel n rlbuf (chunks.map some) = .error fault := by
  rw [myreadLineBuf, if_neg (by omega)]
  by_cases hone : n = 1
  · subst hone
    have hu : rlbuf.rest ++ stream chunks ≠ [] := by
      intro hu
      rw [hu, firstLine_nil, List.length_nil] at hlong
      omega
    cases fuel with
    | zero => exact ⟨.unfinished, rfl⟩
    | succ fuel => exact ⟨.outOfBounds, loop_one hu fuel⟩
  · refine ⟨.unfinished, loop_long _ [] hr rfl (by omega) ?_ (Nat.zero_le _) ?_ fuel⟩
    · intro ch hch
      cases hch
    · rw [List.length_nil]
      omega

/-- **A call** with a buffer of `n` bytes, whatever is left in the reader and however the reads cut
the rest, returns the next line as `readLine` does if and only if the line, newline included, has
fewer than `n` bytes. -/
theorem reads_line_iff (hn : 0 < n) {rlbuf : Rlbuf} (hr : rlbuf.Ready) (chunks : List Chunk) :
    ReadsLine n rlbuf chunks ↔
      (firstLine newline (rlbuf.rest ++ stream chunks)).1.length < n := by
  constructor
  · rintro ⟨fuel, rlbuf', chunks', -, -, hcall⟩
    by_contra hlong
    obtain ⟨fault, hfault⟩ := myreadLineBuf_long hr hn (not_lt.1 hlong) fuel
    rw [hfault] at hcall
    cases hcall
  · intro hshort
    obtain ⟨rlbuf', chunks', hr', hu', hloop⟩ := loop_eq (n := n) _ [] hr rfl
      (show _ + (firstLine newline (rlbuf.rest ++ stream chunks)).1.length ≤ _ by
        rw [List.length_nil]; omega)
      ((firstLine newline (rlbuf.rest ++ stream chunks)).1.length + 1) (Nat.lt_succ_self _)
    refine ⟨(firstLine newline (rlbuf.rest ++ stream chunks)).1.length + 1, rlbuf', chunks', hr',
      hu', ?_⟩
    rw [myreadLineBuf, if_neg (by omega), hloop, List.nil_append,
      List.take_of_length_le (by omega)]

/-- The line `ab` with a buffer of four bytes. -/
theorem reads_line_iff_short :
    let chunks : List Chunk := [⟨[97, 98, 10], by decide, by decide⟩]
    ReadsLine 4 freshRlbuf chunks ↔
      (firstLine newline (freshRlbuf.rest ++ stream chunks)).1.length < 4 :=
  reads_line_iff (by decide) ready_freshRlbuf [⟨[97, 98, 10], by decide, by decide⟩]

/-- The line `abcd` with a buffer of four bytes: the call does not end. -/
theorem long_line_not_read :
    let chunks : List Chunk := [⟨[97, 98, 99, 100, 10], by decide, by decide⟩]
    (∀ fuel, myreadLineBuf fuel 4 freshRlbuf (chunks.map some) = .error .unfinished) ∧
      ¬ReadsLine 4 freshRlbuf chunks := by
  intro chunks
  have hlong : 4 - 1 < ([] : List UInt8).length +
      (firstLine newline (freshRlbuf.rest ++ stream chunks)).1.length := by
    rw [rest_freshRlbuf]
    decide
  have hspins : ∀ fuel, myreadLineBuf fuel 4 freshRlbuf (chunks.map some) = .error .unfinished := by
    intro fuel
    rw [myreadLineBuf, if_neg (by decide)]
    refine loop_long _ [] ready_freshRlbuf rfl (by decide) ?_ (Nat.zero_le _) hlong fuel
    intro ch hch
    cases hch
  refine ⟨hspins, ?_⟩
  rintro ⟨fuel, rlbuf', chunks', -, -, hcall⟩
  rw [hspins fuel] at hcall
  cases hcall

end TlpiLearn.ReadLine
