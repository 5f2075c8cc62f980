import TlpiLearn.Foundations.Constants
import TlpiLearn.Foundations.Lines
import Mathlib.Tactic

/-!
# The unbuffered line reader

`sockets/read_line.c`: `readLine` reads one byte at a time until a newline or the end of the file,
keeps the first `n - 1` bytes of the line and discards the others. The reads are a list of
outcomes; behind its end every `read` finds the end of the file. `readLine_eq` gives the returned
bytes and `readLineCalls_returns` those of successive calls.
-/

namespace TlpiLearn.ReadLine

/-- An outcome of `read(fd, &ch, 1)`. -/
inductive ByteRead
  | byte (ch : UInt8)
  /-- `-1` with `errno == EINTR`. -/
  | interrupted
  /-- `-1` with another error. -/
  | failed
  deriving DecidableEq, Repr

/-- The value a call returns and what it wrote to the caller's buffer. -/
structure Returned where
  value : ℤ
  buffer : List UInt8
  deriving DecidableEq, Repr

/-- A call that returns with the bytes `bs` and a terminator. -/
def Returned.terminated (bs : List UInt8) : Returned := ⟨bs.length, bs ++ [0]⟩

/-- The call returns the number of the bytes `bs` and leaves them at the start of the buffer. -/
def Returned.Returns (r : Returned) (bs : List UInt8) : Prop :=
  r.value = bs.length ∧ bs <+: r.buffer

theorem Returned.returns_terminated (bs : List UInt8) : (Returned.terminated bs).Returns bs :=
  ⟨rfl, List.prefix_append bs [0]⟩

/-- The loop of `readLine` with the bytes `buf` stored so far; also the reads that are left. -/
def readLineLoop (n : ℕ) : List ByteRead → List UInt8 → Returned × List ByteRead
  | [], buf => (if buf.length = 0 then ⟨0, []⟩ else .terminated buf, [])
  | .interrupted :: reads, buf => readLineLoop n reads buf
  | .failed :: reads, buf => (⟨-1, buf⟩, reads)
  | .byte ch :: reads, buf =>
    let buf := if buf.length < n - 1 then buf ++ [ch] else buf
    if ch = newline then (.terminated buf, reads) else readLineLoop n reads buf

/-- `readLine(fd, buffer, n)`. -/
def readLine (n : ℕ) (reads : List ByteRead) : Returned × List ByteRead :=
  if n ≤ 0 then (⟨-1, []⟩, reads) else readLineLoop n reads []

/-- `k` successive calls. -/
def readLineCalls (n : ℕ) : ℕ → List ByteRead → List Returned
  | 0, _ => []
  | k + 1, reads => (readLine n reads).1 :: readLineCalls n k (readLine n reads).2

/-- The bytes that the reads deliver. -/
def delivered (reads : List ByteRead) : List UInt8 :=
  reads.filterMap fun
    | .byte ch => some ch
    | _ => none

variable {n : ℕ}

/-- What the loop stores and what it leaves, when no `read` fails. -/
theorem readLineLoop_eq {reads : List ByteRead} (hok : .failed ∉ reads) (buf : List UInt8)
    (hbuf : buf.length ≤ n - 1) :
    (readLineLoop n reads buf).1.Returns
        ((buf ++ (firstLine newline (delivered reads)).1).take (n - 1)) ∧
      delivered (readLineLoop n reads buf).2 = (firstLine newline (delivered reads)).2 ∧
      .failed ∉ (readLineLoop n reads buf).2 := by
  induction reads generalizing buf with
  | nil =>
    refine ⟨?_, rfl, List.not_mem_nil⟩
    have hret : (readLineLoop n [] buf).1.Returns buf := by
      unfold readLineLoop
      split
      · rename_i hb
        rw [List.length_eq_zero_iff.1 hb]
        exact ⟨rfl, List.nil_prefix⟩
      · exact Returned.returns_terminated buf
    have hkept : (buf ++ (firstLine newline (delivered [])).1).take (n - 1) = buf := by
      simp [delivered, List.take_of_length_le hbuf]
    rw [hkept]
    exact hret
  | cons x reads ih =>
    have hok' : .failed ∉ reads := fun h => hok (List.mem_cons_of_mem _ h)
    cases x with
    | interrupted => exact ih hok' buf hbuf
    | failed => exact absurd List.mem_cons_self hok
    | byte ch =>
      have hd : delivered (.byte ch :: reads) = ch :: delivered reads := rfl
      have hstore : ∀ s : List UInt8,
          ((if buf.length < n - 1 then buf ++ [ch] else buf) ++ s).take (n - 1)
            = (buf ++ ch :: s).take (n - 1) := by
        intro s
        split
        · rw [List.append_assoc, List.singleton_append]
        · have hlen : buf.length = n - 1 := by omega
          rw [List.take_append_of_le_length hlen.ge, List.take_append_of_le_length hlen.ge]
      have hlen : (if buf.length < n - 1 then buf ++ [ch] else buf).length ≤ n - 1 := by
        split
        · rw [List.length_append, List.length_singleton]; omega
        · exact hbuf
      rw [hd]
      unfold readLineLoop firstLine
      by_cases hch : ch = newline
      · simp only [if_pos hch]
        refine ⟨?_, trivial, hok'⟩
        rw [← hstore [], List.append_nil, List.take_of_length_le hlen]
        exact Returned.returns_terminated _
      · simp only [if_neg hch]
        obtain ⟨hret, hrest⟩ := ih hok' _ hlen
        rw [hstore] at hret
        exact ⟨hret, hrest⟩

/-- `readLine` returns the first `n - 1` bytes of the line and leaves the rest of the stream. -/
theorem readLine_eq (hn : 0 < n) {reads : List ByteRead} (hok : .failed ∉ reads) :
    (readLine n reads).1.Returns ((firstLine newline (delivered reads)).1.take (n - 1)) ∧
      delivered (readLine n reads).2 = (firstLine newline (delivered reads)).2 ∧
      .failed ∉ (readLine n reads).2 := by
  rw [readLine, if_neg (by omega)]
  exact readLineLoop_eq hok [] (Nat.zero_le _)

/-- **Successive calls** of `readLine` return the lines, each cut to its first `n - 1` bytes, and
then nothing for ever. -/
theorem readLineCalls_returns (hn : 0 < n) (k : ℕ) {reads : List ByteRead}
    (hok : .failed ∉ reads) :
    List.Forall₂ Returned.Returns (readLineCalls n k reads)
      ((nextLines newline k (delivered reads)).map (List.take (n - 1))) := by
  induction k generalizing reads with
  | zero => exact .nil
  | succ k ih =>
    obtain ⟨hret, hrest, hok'⟩ := readLine_eq hn hok
    have hcalls := ih hok'
    rw [hrest] at hcalls
    exact .cons hret hcalls

end TlpiLearn.ReadLine
