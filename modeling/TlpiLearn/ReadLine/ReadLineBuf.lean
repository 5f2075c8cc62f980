import TlpiLearn.ReadLine.MyReadLineBuf
import Mathlib.Tactic

/-!
# The buffered line reader of the book

`tlpi-dist/sockets/read_line_buf.c`: `readLineBuf` reads blocks of `RL_MAX_BUF` bytes and hands
out lines of at most `n` bytes, without a terminator. `readLineBufCalls_refine` compares it with
the unbuffered `readLine`: on any outcomes of the reads, failed ones included, and for calls of
any sizes, each call returns what a `readLine` that has room for one more byte returns on the
single bytes of the blocks. The relation between the two states is `ReadLineBuf.byteReads`: the
bytes that are left in the buffer, then those of the coming reads.

An interrupted `read` is left out of this: `readLine` makes it again, and `readLineBuf` returns -1
as for any other failure (`readLineBuf_of_interrupted`).
-/

namespace TlpiLearn.BufferedLines

open ReadLine (ByteRead Returned Fault readLine readLineLoop)

/-- `RL_MAX_BUF`. -/
def RL_MAX_BUF : ℕ := 10

/-- `struct ReadLineBuf`. -/
structure ReadLineBuf where
  fd : ℤ
  buf : List UInt8
  next : ℕ
  len : ℤ
  size : buf.length = RL_MAX_BUF

/-- What a `read(fd, buf, RL_MAX_BUF)` delivers before the end of the file. -/
structure Block where
  bytes : List UInt8
  pos : 0 < bytes.length
  le : bytes.length ≤ RL_MAX_BUF

/-- An outcome of such a `read`. -/
inductive BlockRead
  | block (b : Block)
  /-- `-1` with `errno == EINTR`. -/
  | interrupted
  /-- `-1` with another error. -/
  | failed

/-- The outcomes of the coming reads. Behind the end of the list every `read` finds the end of the
file. -/
abbrev BlockReads := List BlockRead

/-- `readLineBufInit`. -/
def readLineBufInit (fd : ℤ) (rlbuf : ReadLineBuf) : ReadLineBuf :=
  { rlbuf with fd, len := 0, next := 0 }

/-- The buffer after a `read` that delivers a block. -/
def ReadLineBuf.fill (rlbuf : ReadLineBuf) (block : Block) : ReadLineBuf where
  fd := rlbuf.fd
  buf := block.bytes ++ rlbuf.buf.drop block.bytes.length
  next := 0
  len := block.bytes.length
  size := by
    have hle := block.le
    have hsize := rlbuf.size
    rw [List.length_append, List.length_drop]
    omega

/-- Between two passes of the loop: `buffer` holds the `cnt` bytes stored so far. -/
structure State where
  rlbuf : ReadLineBuf
  reads : BlockReads
  buffer : List UInt8

/-- How a pass of the loop ends. -/
inductive Pass
  | again (s : State)
  | leave (r : Returned) (rlbuf : ReadLineBuf) (reads : BlockReads)

/-- `return cnt;` -/
def State.done (s : State) (rlbuf : ReadLineBuf) : Pass :=
  .leave ⟨s.buffer.length, s.buffer⟩ rlbuf s.reads

/-- The part of a pass behind the `read`: take a byte, store it if there is room, and stop at a
newline. -/
def State.take (n : ℕ) (s : State) : Except Fault Pass :=
  match s.rlbuf.buf[s.rlbuf.next]? with
  | none => .error .outOfBounds
  | some c =>
    let rlbuf := { s.rlbuf with next := s.rlbuf.next + 1 }
    let s := { s with rlbuf, buffer := if s.buffer.length < n then s.buffer ++ [c] else s.buffer }
    if c = newline then .ok (s.done rlbuf) else .ok (.again s)

/-- One pass of the loop. -/
def State.pass (n : ℕ) (s : State) : Except Fault Pass :=
  if s.rlbuf.len ≤ s.rlbuf.next then
    match s.reads with
    | [] => .ok (s.done { s.rlbuf with len := 0 })
    | .interrupted :: reads | .failed :: reads =>
      .ok (.leave ⟨-1, s.buffer⟩ { s.rlbuf with len := -1 } reads)
    | .block b :: reads => { s with rlbuf := s.rlbuf.fill b, reads : State }.take n
  else s.take n

/-- The `for (;;)` loop, with fuel. -/
def loop (n : ℕ) : ℕ → State → Except Fault (Returned × ReadLineBuf × BlockReads)
  | 0, _ => .error .unfinished
  | fuel + 1, s =>
    match s.pass n with
    | .error e => .error e
    | .ok (.again s) => loop n fuel s
    | .ok (.leave r rlbuf reads) => .ok (r, rlbuf, reads)

/-- `readLineBuf(rlbuf, buffer, n)`. -/
def readLineBuf (fuel n : ℕ) (rlbuf : ReadLineBuf) (reads : BlockReads) :
    Except Fault (Returned × ReadLineBuf × BlockReads) :=
  if n ≤ 0 then .ok (⟨-1, []⟩, rlbuf, reads) else loop n fuel ⟨rlbuf, reads, []⟩

/-- Successive calls, each with a buffer of its own size. -/
def readLineBufCalls (fuel : ℕ) :
    List ℕ → ReadLineBuf → BlockReads → Except Fault (List Returned)
  | [], _, _ => .ok []
  | n :: sizes, rlbuf, reads =>
    match readLineBuf fuel n rlbuf reads with
    | .error e => .error e
    | .ok (r, rlbuf, reads) => (readLineBufCalls fuel sizes rlbuf reads).map (r :: ·)

/-! ## The reads of single bytes -/

/-- What a `readLine` in the place of the blocks reads, byte by byte. -/
def blockByteReads : BlockRead → List ByteRead
  | .block b => b.bytes.map .byte
  | .interrupted => [.interrupted]
  | .failed => [.failed]

/-- No `read` is interrupted. -/
def Uninterrupted (reads : BlockReads) : Prop := ∀ x ∈ reads, x ≠ .interrupted

/-- The bytes left in the buffer. -/
def ReadLineBuf.unread (rlbuf : ReadLineBuf) : List UInt8 :=
  (rlbuf.buf.drop rlbuf.next).take (rlbuf.len.toNat - rlbuf.next)

/-- The bytes left in the buffer, then those of the coming reads. -/
def ReadLineBuf.byteReads (rlbuf : ReadLineBuf) (reads : BlockReads) : List ByteRead :=
  rlbuf.unread.map .byte ++ reads.flatMap blockByteReads

/-- The filled part lies inside the buffer. -/
def ReadLineBuf.Ready (rlbuf : ReadLineBuf) : Prop := rlbuf.len ≤ RL_MAX_BUF

/-- The size of a buffer for the same bytes and a terminator. -/
def terminatedSize (n : ℕ) : ℕ := if n = 0 then 0 else n + 1

/-- Successive calls of `readLine`, each with a buffer of its own size. -/
def readLineCalls : List ℕ → List ByteRead → List Returned
  | [], _ => []
  | n :: sizes, reads => (readLine n reads).1 :: readLineCalls sizes (readLine n reads).2

/-- The same value, and the same bytes but for a terminator that the second call may add. -/
def Unterminated (r s : Returned) : Prop :=
  r.value = s.value ∧ (s.buffer = r.buffer ∨ s.buffer = r.buffer ++ [0])

theorem ready_init (fd : ℤ) (rlbuf : ReadLineBuf) : (readLineBufInit fd rlbuf).Ready :=
  Int.natCast_nonneg _

theorem ready_fill (rlbuf : ReadLineBuf) (block : Block) : (rlbuf.fill block).Ready :=
  Int.ofNat_le.2 block.le

theorem byteReads_init (fd : ℤ) (rlbuf : ReadLineBuf) (reads : BlockReads) :
    (readLineBufInit fd rlbuf).byteReads reads = reads.flatMap blockByteReads := by
  simp [ReadLineBuf.byteReads, ReadLineBuf.unread, readLineBufInit]

theorem unread_fill (rlbuf : ReadLineBuf) (block : Block) :
    (rlbuf.fill block).unread = block.bytes := by
  simp [ReadLineBuf.unread, ReadLineBuf.fill]

/-- A used-up buffer has no bytes left. -/
theorem ReadLineBuf.unread_of_le {rlbuf : ReadLineBuf} (h : rlbuf.len ≤ rlbuf.next) :
    rlbuf.unread = [] := by
  have hzero : rlbuf.len.toNat - rlbuf.next = 0 := by omega
  rw [ReadLineBuf.unread, hzero, List.take_zero]

/-- The reads that are left once the buffer is used up. -/
theorem ReadLineBuf.byteReads_of_le {rlbuf : ReadLineBuf} (h : rlbuf.len ≤ rlbuf.next)
    (reads : BlockReads) : rlbuf.byteReads reads = reads.flatMap blockByteReads := by
  rw [ReadLineBuf.byteReads, ReadLineBuf.unread_of_le h, List.map_nil, List.nil_append]

/-- A buffer that is not used up has the byte at `next` and what follows it. -/
theorem ReadLineBuf.unread_of_lt {rlbuf : ReadLineBuf} (hr : rlbuf.Ready)
    (h : rlbuf.next < rlbuf.len) :
    ∃ c, rlbuf.buf[rlbuf.next]? = some c ∧
      rlbuf.unread = c :: { rlbuf with next := rlbuf.next + 1 : ReadLineBuf }.unread := by
  have hlt : rlbuf.next < rlbuf.buf.length := by
    have hsize := rlbuf.size
    unfold ReadLineBuf.Ready at hr
    omega
  have hsucc : rlbuf.len.toNat - rlbuf.next = rlbuf.len.toNat - (rlbuf.next + 1) + 1 := by omega
  refine ⟨rlbuf.buf[rlbuf.next], List.getElem?_eq_getElem hlt, ?_⟩
  rw [ReadLineBuf.unread, List.drop_eq_getElem_cons hlt, hsucc, List.take_succ_cons]
  rfl

/-! ## One call -/

/-- A call's result and rest, against those of a `readLine`. -/
def Agrees (x : Returned × ReadLineBuf × BlockReads) (y : Returned × List ByteRead) : Prop :=
  Unterminated x.1 y.1 ∧ x.2.1.Ready ∧ Uninterrupted x.2.2 ∧ x.2.1.byteReads x.2.2 = y.2

/-- A pass against the loop of `readLine` on the single bytes: it leaves with an agreeing result,
or goes on with fewer reads and the same end. -/
def Simulates (n : ℕ) (s : State) : Pass → Prop
  | .leave r rlbuf reads =>
    Agrees (r, rlbuf, reads) (readLineLoop (n + 1) (s.rlbuf.byteReads s.reads) s.buffer)
  | .again t =>
    t.rlbuf.Ready ∧ Uninterrupted t.reads ∧
      (t.rlbuf.byteReads t.reads).length < (s.rlbuf.byteReads s.reads).length ∧
      readLineLoop (n + 1) (t.rlbuf.byteReads t.reads) t.buffer
        = readLineLoop (n + 1) (s.rlbuf.byteReads s.reads) s.buffer

variable {n : ℕ}

/-- What is stored is what `readLine` returns, apart from the terminator. -/
theorem unterminated_terminated (bs : List UInt8) :
    Unterminated ⟨bs.length, bs⟩ (.terminated bs) :=
  ⟨rfl, .inr rfl⟩

/-- With no reads left, `readLine` returns what it has stored. -/
theorem agrees_done_nil {s : State} (hreads : s.reads = []) (hok : Uninterrupted s.reads) :
    Agrees (⟨s.buffer.length, s.buffer⟩, { s.rlbuf with len := 0 }, s.reads)
      (readLineLoop (n + 1) [] s.buffer) := by
  have hrest : ({ s.rlbuf with len := 0 } : ReadLineBuf).byteReads s.reads = [] := by
    rw [ReadLineBuf.byteReads_of_le (Int.natCast_nonneg _), hreads, List.flatMap_nil]
  refine ⟨?_, Int.natCast_nonneg _, hok, ?_⟩
  · unfold readLineLoop
    split
    · rename_i hempty
      rw [List.length_eq_zero_iff.1 hempty]
      exact ⟨rfl, .inl rfl⟩
    · exact unterminated_terminated s.buffer
  · rw [hrest]
    rfl

/-- The part of a pass behind the `read`, with a byte at `next`. -/
theorem take_simulates {s : State} (hr : s.rlbuf.Ready) (hok : Uninterrupted s.reads)
    (hlt : s.rlbuf.next < s.rlbuf.len) :
    ∃ p, s.take n = .ok p ∧ Simulates n s p := by
  obtain ⟨c, hc, hunread⟩ := ReadLineBuf.unread_of_lt hr hlt
  have hbytes : s.rlbuf.byteReads s.reads
      = .byte c :: { s.rlbuf with next := s.rlbuf.next + 1 : ReadLineBuf }.byteReads s.reads := by
    rw [ReadLineBuf.byteReads, hunread]
    rfl
  unfold State.take
  rw [hc]
  by_cases hch : c = newline
  · refine ⟨_, if_pos hch, ?_⟩
    unfold State.done Simulates
    rw [hbytes, readLineLoop]
    simp only [Nat.add_sub_cancel, if_pos hch]
    exact ⟨unterminated_terminated _, hr, hok, rfl⟩
  · refine ⟨_, if_neg hch, hr, hok, ?_, ?_⟩
    · rw [hbytes]
      exact Nat.lt_succ_self _
    · rw [hbytes, readLineLoop]
      simp only [Nat.add_sub_cancel, if_neg hch]

/-- **One pass** of the loop, on any outcome of a `read` that is not interrupted. -/
theorem pass_simulates {s : State} (hr : s.rlbuf.Ready) (hok : Uninterrupted s.reads) :
    ∃ p, s.pass n = .ok p ∧ Simulates n s p := by
  obtain ⟨rlbuf, reads, buffer⟩ := s
  by_cases hle : rlbuf.len ≤ rlbuf.next
  · have hbytes := ReadLineBuf.byteReads_of_le hle reads
    cases reads with
    | nil =>
      refine ⟨_, if_pos hle, ?_⟩
      unfold State.done Simulates
      rw [hbytes]
      exact agrees_done_nil (s := ⟨rlbuf, [], buffer⟩) rfl hok
    | cons x reads =>
      have hrest : Uninterrupted reads := fun y hy => hok y (List.mem_cons_of_mem _ hy)
      cases x with
      | interrupted => exact absurd rfl (hok .interrupted List.mem_cons_self)
      | failed =>
        refine ⟨_, if_pos hle, ?_⟩
        unfold Simulates
        rw [hbytes]
        refine ⟨⟨rfl, .inl rfl⟩, by simp [ReadLineBuf.Ready], hrest, ?_⟩
        exact ReadLineBuf.byteReads_of_le (by simp only; omega) reads
      | block b =>
        -- the refill leaves the coming bytes as they were
        have hfill : (rlbuf.fill b).byteReads reads = rlbuf.byteReads (.block b :: reads) := by
          rw [hbytes, ReadLineBuf.byteReads, unread_fill]
          rfl
        have hpos : (rlbuf.fill b).next < (rlbuf.fill b).len :=
          Int.ofNat_lt.2 b.pos
        obtain ⟨p, hp, hsim⟩ := take_simulates (n := n)
          (s := ⟨rlbuf.fill b, reads, buffer⟩) (ready_fill rlbuf b) hrest hpos
        refine ⟨p, (if_pos hle).trans hp, ?_⟩
        unfold Simulates at hsim ⊢
        rw [← hfill]
        exact hsim
  · obtain ⟨p, hp, hsim⟩ :=
      take_simulates (n := n) (s := ⟨rlbuf, reads, buffer⟩) hr hok (not_le.1 hle)
    exact ⟨p, (if_neg hle).trans hp, hsim⟩

/-- **The loop** ends as the loop of `readLine` on the single bytes does. -/
theorem loop_agrees (fuel : ℕ) {s : State} (hr : s.rlbuf.Ready) (hok : Uninterrupted s.reads)
    (hfuel : (s.rlbuf.byteReads s.reads).length < fuel) :
    ∃ x, loop n fuel s = .ok x ∧
      Agrees x (readLineLoop (n + 1) (s.rlbuf.byteReads s.reads) s.buffer) := by
  induction fuel generalizing s with
  | zero => exact absurd hfuel (Nat.not_lt_zero _)
  | succ fuel ih =>
    obtain ⟨p, hp, hsim⟩ := pass_simulates (n := n) hr hok
    unfold loop
    rw [hp]
    cases p with
    | leave r rlbuf reads => exact ⟨_, rfl, hsim⟩
    | again t =>
      obtain ⟨hr', hok', hlt, heq⟩ := hsim
      rw [← heq]
      exact ih hr' hok' (by omega)

/-! ## Successive calls -/

/-- The reads that a `readLine` leaves are not more than it found. -/
theorem readLineLoop_length_le (reads : List ByteRead) (buf : List UInt8) :
    (readLineLoop n reads buf).2.length ≤ reads.length := by
  induction reads generalizing buf with
  | nil => exact le_rfl
  | cons x reads ih =>
    cases x with
    | byte ch =>
      rw [readLineLoop]
      split
      · exact Nat.le_succ _
      · exact (ih _).trans (Nat.le_succ _)
    | interrupted => exact (ih buf).trans (Nat.le_succ _)
    | failed => exact Nat.le_succ _

/-- **One call** agrees with a `readLine` that has room for a terminator. -/
theorem readLineBuf_agrees {fuel : ℕ} {rlbuf : ReadLineBuf} {reads : BlockReads}
    (hr : rlbuf.Ready) (hok : Uninterrupted reads)
    (hfuel : (rlbuf.byteReads reads).length < fuel) :
    ∃ x, readLineBuf fuel n rlbuf reads = .ok x ∧
      Agrees x (readLine (terminatedSize n) (rlbuf.byteReads reads)) := by
  unfold readLineBuf readLine terminatedSize
  by_cases hn : n = 0
  · refine ⟨_, if_pos hn.le, ?_⟩
    rw [if_pos hn, if_pos le_rfl]
    exact ⟨⟨rfl, .inl rfl⟩, hr, hok, rfl⟩
  · rw [if_neg (by omega), if_neg hn, if_neg (by omega)]
    exact loop_agrees fuel hr hok hfuel

/-- A call that has to read and is interrupted returns -1, where `readLine` goes on as if nothing
had happened. -/
theorem readLineBuf_of_interrupted {fuel : ℕ} {rlbuf : ReadLineBuf} (hn : 0 < n)
    (hempty : rlbuf.len ≤ rlbuf.next) (reads : BlockReads) (bytes : List ByteRead) :
    readLineBuf (fuel + 1) n rlbuf (.interrupted :: reads)
        = .ok (⟨-1, []⟩, { rlbuf with len := -1 }, reads) ∧
      readLine n (.interrupted :: bytes) = readLine n bytes := by
  constructor
  · rw [readLineBuf, if_neg hn.not_ge, loop, State.pass, if_pos hempty]
  · rw [readLine, readLine, if_neg hn.not_ge, if_neg hn.not_ge, readLineLoop]

theorem readLineBufCalls_agree {fuel : ℕ} (sizes : List ℕ) {rlbuf : ReadLineBuf}
    {reads : BlockReads} (hr : rlbuf.Ready) (hok : Uninterrupted reads)
    (hfuel : (rlbuf.byteReads reads).length < fuel) :
    ∃ rs, readLineBufCalls fuel sizes rlbuf reads = .ok rs ∧
      List.Forall₂ Unterminated rs
        (readLineCalls (sizes.map terminatedSize) (rlbuf.byteReads reads)) := by
  induction sizes generalizing rlbuf reads with
  | nil => exact ⟨[], rfl, .nil⟩
  | cons n sizes ih =>
    obtain ⟨⟨r, rlbuf', reads'⟩, hcall, hret, hr', hok', hrest⟩ :=
      readLineBuf_agrees (n := n) hr hok hfuel
    simp only at hret hr' hok' hrest
    have hle : (rlbuf'.byteReads reads').length ≤ (rlbuf.byteReads reads).length := by
      rw [hrest, readLine]
      split
      · exact le_rfl
      · exact readLineLoop_length_le _ _
    obtain ⟨rs, hcalls, hrets⟩ := ih hr' hok' (hle.trans_lt hfuel)
    rw [hrest] at hrets
    refine ⟨r :: rs, ?_, .cons hret hrets⟩
    rw [readLineBufCalls, hcall]
    simp only [hcalls]
    rfl

/-- **The buffered reader refines the unbuffered one.** Whatever blocks the reads deliver, and
wherever they fail or end, but for interruptions, the calls that follow `readLineBufInit` return,
for buffers of any sizes, what successive calls of `readLine` return that read the same bytes one at
a time into buffers with room for one more byte: the same values and the same bytes, without the
terminator. No call leaves the array or runs for ever. -/
theorem readLineBufCalls_refine (fd : ℤ) (rlbuf : ReadLineBuf) {reads : BlockReads}
    (hok : Uninterrupted reads) (sizes : List ℕ) {fuel : ℕ}
    (hfuel : (reads.flatMap blockByteReads).length < fuel) :
    ∃ rs, readLineBufCalls fuel sizes (readLineBufInit fd rlbuf) reads = .ok rs ∧
      List.Forall₂ Unterminated rs
        (readLineCalls (sizes.map terminatedSize) (reads.flatMap blockByteReads)) := by
  have hlen : ((readLineBufInit fd rlbuf).byteReads reads).length < fuel := by
    rwa [byteReads_init]
  have hcalls := readLineBufCalls_agree sizes (ready_init fd rlbuf) hok hlen
  rwa [byteReads_init] at hcalls

/-- A block that ends in the middle of a line, a `read` that fails, and one more block. -/
theorem readLineBufCalls_refine_three :
    let rlbuf : ReadLineBuf := ⟨0, List.replicate 10 0, 0, 0, rfl⟩
    let reads : BlockReads := [.block ⟨[97, 98, 10, 99], by decide, by decide⟩, .failed,
      .block ⟨[100, 10], by decide, by decide⟩]
    ∃ rs, readLineBufCalls 10 [1, 5, 5] (readLineBufInit 3 rlbuf) reads = .ok rs ∧
      List.Forall₂ Unterminated rs
        (readLineCalls ([1, 5, 5].map terminatedSize) (reads.flatMap blockByteReads)) := by
  refine readLineBufCalls_refine 3 _ (fun x hx => ?_) [1, 5, 5] (by decide)
  simp only [List.mem_cons, List.not_mem_nil, or_false] at hx
  obtain rfl | rfl | rfl := hx <;> simp

end TlpiLearn.BufferedLines
