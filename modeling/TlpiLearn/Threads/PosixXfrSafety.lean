import TlpiLearn.Threads.PosixXfr
import Mathlib.Tactic

/-!
# The transfer between the threads is correct

The right to use the buffer and `num` is in one of four places (`Turn`): in `write_sem`, with the
writer, in `read_sem`, or with the reader. After the end of the input it stays with the reader, and
`read_sem` is posted once more by a writer that has reported. `WriterInv` and `ReaderInv` say where
each thread can be and how far its counts have come, in terms of the chunks that have been read and
of the size of the block that is under way. Each step keeps the invariant (`Inv.step`), some thread
can move until both have finished (`Inv.not_stuck`), and every step lowers a measure (`step_left`).
The result is `threads_transfer`.
-/

namespace TlpiLearn.PosixXfr

open EventFlagXfr (Chunk)

/-- Where the right to use the buffer is. -/
inductive Turn
  | writeSem
  | writer
  | readSem
  | reader
  deriving DecidableEq

/-- The statements the writer can be at; `eof` tells whether it has handed over the end of its
input. -/
def Turn.WriterAt (t : Turn) (eof : Bool) (num : ℕ) : WriterPc → Prop
  | .wait => t ≠ .writer ∧ eof = false
  | .read | .storeNum _ | .post => t = .writer ∧ eof = false
  | .testNum => t ≠ .writer ∧ (num = 0 ↔ eof = true)
  | .advance => t ≠ .writer ∧ num ≠ 0 ∧ eof = false
  | .report | .postLast | .finished => t ≠ .writer ∧ eof = true

/-- The statements the reader can be at. -/
def Turn.ReaderAt (t : Turn) (eof : Bool) (num : ℕ) : ReaderPc → Prop
  | .wait => t ≠ .reader ∧ (eof = true → t = .readSem)
  | .testNum => t = .reader
  | .addBytes | .write | .post => t = .reader ∧ eof = false
  | .checkNum n => t = .reader ∧ eof = false ∧ n = num
  | .waitLast | .report | .finished => t = .reader ∧ eof = true
  | .failed => False

/-- The posts of `read_sem` behind the loop of the writer. -/
def WriterPc.lastPosts : WriterPc → ℕ
  | .finished => 1
  | _ => 0

/-- The waits for `read_sem` behind the loop of the reader. -/
def ReaderPc.lastWaits : ReaderPc → ℕ
  | .report | .finished => 1
  | _ => 0

/-- The bytes of the block that the writer has read and not handed over. -/
def inHand (num : ℕ) : WriterPc → ℕ
  | .storeNum n => n
  | .post => num
  | _ => 0

/-- The bytes of the block that the writer has read and not counted. -/
def uncounted (num : ℕ) : WriterPc → ℕ
  | .storeNum n => n
  | .post | .testNum | .advance => num
  | _ => 0

/-- The bytes of the block that was read and not handed back. -/
def Turn.underWay (t : Turn) (num : ℕ) (w : WriterPc) : ℕ :=
  match t with
  | .writeSem => 0
  | .writer => inHand num w
  | .readSem | .reader => num

/-- The number of blocks that `n` bytes make: the end of the input is no block. -/
def blocks (n : ℕ) : ℕ := if n = 0 then 0 else 1

/-- The reader has written its block. -/
def ReaderPc.written : ReaderPc → Bool
  | .checkNum _ | .post => true
  | _ => false

/-- The reader has added up its block. -/
def ReaderPc.added : ReaderPc → Bool
  | .write | .checkNum _ | .post => true
  | _ => false

variable {BUFFER_SIZE : ℕ}

/-- The bytes of the chunks. -/
abbrev bytesOf (cs : List (Chunk BUFFER_SIZE)) : List UInt8 := cs.flatMap Chunk.bytes

/-- What holds of the writer when the chunks `read` have been read. -/
structure WriterInv (input : List (Chunk BUFFER_SIZE)) (t : Turn) (eof : Bool)
    (read : List (Chunk BUFFER_SIZE)) (s : State BUFFER_SIZE) : Prop where
  pc : t.WriterAt eof s.num s.writer
  input : input = read ++ s.stdin
  eof : eof = true ∨ s.writer = .storeNum 0 ∨ s.writer = .post ∧ s.num = 0 → s.stdin = []
  xfrs : s.writerCounts.xfrs + blocks (uncounted s.num s.writer) = read.length
  bytes : s.writerCounts.bytes + uncounted s.num s.writer = (bytesOf read).length
  report : s.writer = .postLast ∨ s.writer = .finished → s.writerReport = some s.writerCounts

/-- What holds of the reader when a block of `n` bytes is under way. -/
structure ReaderInv (t : Turn) (eof : Bool) (read : List (Chunk BUFFER_SIZE)) (n : ℕ)
    (s : State BUFFER_SIZE) : Prop where
  pc : t.ReaderAt eof s.num s.reader
  stdout : s.stdout ++ s.buffer.take (if s.reader.written then 0 else n) = bytesOf read
  xfrs : s.readerCounts.xfrs + blocks n = read.length
  bytes : s.readerCounts.bytes + (if s.reader.added then 0 else n) = (bytesOf read).length
  report : s.reader = .finished → s.readerReport = some s.readerCounts

/-- The invariant of the transfer. -/
structure Inv (input : List (Chunk BUFFER_SIZE)) (t : Turn) (eof : Bool)
    (read : List (Chunk BUFFER_SIZE)) (s : State BUFFER_SIZE) : Prop where
  write_sem : s.write_sem = if t = .writeSem then 1 else 0
  read_sem : s.read_sem + s.reader.lastWaits =
    (if t = .readSem then 1 else 0) + s.writer.lastPosts
  num : t = .readSem ∨ t = .reader → (s.num = 0 ↔ eof = true)
  writer : WriterInv input t eof read s
  reader : ReaderInv t eof read (t.underWay s.num s.writer) s

variable {input read : List (Chunk BUFFER_SIZE)} {t : Turn} {eof : Bool}
  {s s' : State BUFFER_SIZE} {sem : ℕ}

theorem sem_wait_eq_some {sem sem' : ℕ} (h : sem_wait sem = some sem') :
    0 < sem ∧ sem' = sem - 1 := by
  unfold sem_wait at h
  split_ifs at h with hpos
  exact ⟨hpos, (Option.some.inj h).symm⟩

theorem Inv.start : Inv input .writeSem false [] (start input) where
  write_sem := rfl
  read_sem := rfl
  num := by simp
  writer := ⟨⟨nofun, rfl⟩, rfl, by simp [PosixXfr.start], rfl, rfl, by simp [PosixXfr.start]⟩
  reader := ⟨⟨nofun, nofun⟩, rfl, rfl, rfl, by simp [PosixXfr.start]⟩

/-! ## Interference -/

/-- The writer stays where it is while the turn moves between the others. -/
theorem Turn.WriterAt.pass {t' : Turn} {num : ℕ} {w : WriterPc} (h : t.WriterAt eof num w)
    (ht : t ≠ .writer) (ht' : t' ≠ .writer) : t'.WriterAt eof num w := by
  cases w with
  | wait => exact ⟨ht', h.2⟩
  | read | storeNum n | post => exact absurd h.1 ht
  | testNum | advance | report | postLast | finished => exact ⟨ht', h.2⟩

/-- While the reader does not have the turn and the end of the input is not handed over, the reader
waits. -/
theorem Turn.ReaderAt.waits {num : ℕ} {r : ReaderPc} (h : t.ReaderAt false num r)
    (ht : t ≠ .reader) : r = .wait := by
  cases r with
  | wait => rfl
  | testNum => exact absurd h ht
  | addBytes | write | post | checkNum n | waitLast | report | finished => exact absurd h.1 ht
  | failed => exact h.elim

/-- What the writer keeps in a step that counts nothing. -/
theorem WriterInv.move (hw : WriterInv input t eof read s) {t' : Turn} {eof' : Bool}
    (hpc : t'.WriterAt eof' s'.num s'.writer) (hstdin : s'.stdin = s.stdin)
    (hcounts : s'.writerCounts = s.writerCounts)
    (huncounted : uncounted s'.num s'.writer = uncounted s.num s.writer)
    (heof : eof' = true ∨ s'.writer = .storeNum 0 ∨ s'.writer = .post ∧ s'.num = 0 → s.stdin = [])
    (hreport : s'.writer = .postLast ∨ s'.writer = .finished →
      s'.writerReport = some s.writerCounts) : WriterInv input t' eof' read s' where
  pc := hpc
  input := by
    rw [hstdin]
    exact hw.input
  eof := by
    rw [hstdin]
    exact heof
  xfrs := by
    rw [hcounts, huncounted]
    exact hw.xfrs
  bytes := by
    rw [hcounts, huncounted]
    exact hw.bytes
  report := by
    rw [hcounts]
    exact hreport

/-- What the reader keeps in a step of the writer. -/
theorem ReaderInv.move {n : ℕ} (hr : ReaderInv t eof read n s) {t' : Turn} {eof' : Bool} {n' : ℕ}
    (hpc : t'.ReaderAt eof' s'.num s'.reader) (hreader : s'.reader = s.reader) (hn : n' = n)
    (hstdout : s'.stdout = s.stdout) (hbuffer : s'.buffer = s.buffer)
    (hcounts : s'.readerCounts = s.readerCounts) (hreport : s'.readerReport = s.readerReport) :
    ReaderInv t' eof' read n' s' where
  pc := hpc
  stdout := by
    rw [hreader, hstdout, hbuffer, hn]
    exact hr.stdout
  xfrs := by
    rw [hcounts, hn]
    exact hr.xfrs
  bytes := by
    rw [hcounts, hreader, hn]
    exact hr.bytes
  report := by
    rw [hcounts, hreader, hreport]
    exact hr.report

/-! ## Steps of the writer -/

theorem Inv.writer_wait (hs : Inv input t eof read s) (hpc : s.writer = .wait)
    (h : sem_wait s.write_sem = some sem) :
    Inv input .writer false read { s with writer := .read, write_sem := sem } := by
  obtain ⟨hpos, rfl⟩ := sem_wait_eq_some h
  have ht : t = .writeSem := by
    by_contra hne
    rw [hs.write_sem, if_neg hne] at hpos
    omega
  subst ht
  have hw := hs.writer
  have hr := hs.reader
  have hsem := hs.read_sem
  obtain ⟨-, rfl⟩ := hpc ▸ hw.pc
  have hwait := hr.pc.waits nofun
  rw [hpc] at hsem
  refine ⟨?_, hsem, nofun, ?_, ?_⟩
  · change s.write_sem - 1 = 0
    rw [hs.write_sem]
    rfl
  · refine hw.move ⟨rfl, rfl⟩ rfl rfl ?_ (by simp) (by simp)
    rw [hpc]
    rfl
  · refine hr.move ?_ rfl rfl rfl rfl rfl rfl
    rw [hwait]
    exact ⟨nofun, nofun⟩

theorem Inv.writer_read_eof (hs : Inv input t eof read s) (hpc : s.writer = .read)
    (hin : s.stdin = []) : Inv input t eof read { s with writer := .storeNum 0 } := by
  have hw := hs.writer
  have hr := hs.reader
  have hsem := hs.read_sem
  obtain ⟨rfl, rfl⟩ := hpc ▸ hw.pc
  rw [hpc] at hsem
  refine ⟨hs.write_sem, hsem, hs.num, ?_, ?_⟩
  · refine hw.move ⟨rfl, rfl⟩ rfl rfl ?_ (fun _ => hin) (by simp)
    rw [hpc]
    rfl
  · refine hr.move hr.pc rfl ?_ rfl rfl rfl rfl
    rw [hpc]
    rfl

theorem Inv.writer_read_chunk (hs : Inv input t eof read s) (hpc : s.writer = .read)
    {c : Chunk BUFFER_SIZE} {stdin : List (Chunk BUFFER_SIZE)} (hin : s.stdin = c :: stdin) :
    Inv input t eof (read ++ [c])
      { s with
        writer := .storeNum c.bytes.length
        buffer := c.bytes ++ s.buffer.drop c.bytes.length
        stdin } := by
  have hw := hs.writer
  have hr := hs.reader
  have hsem := hs.read_sem
  obtain ⟨rfl, rfl⟩ := hpc ▸ hw.pc
  have hwait := hr.pc.waits nofun
  have hblock : blocks c.bytes.length = 1 := if_neg c.pos.ne'
  have hbytes : bytesOf (read ++ [c]) = bytesOf read ++ c.bytes := by simp [bytesOf]
  have hx := hw.xfrs
  have hb := hw.bytes
  have hrx := hr.xfrs
  have hrb := hr.bytes
  have hout := hr.stdout
  rw [hpc] at hsem hx hb hrx hrb hout
  rw [hwait] at hrb hout
  refine ⟨hs.write_sem, hsem, hs.num, ⟨⟨rfl, rfl⟩, ?_, ?_, ?_, ?_, by simp⟩, ?_⟩
  · rw [hw.input, hin, List.append_assoc, List.singleton_append]
  · rintro (h | h | ⟨h, -⟩)
    · cases h
    · exact absurd (WriterPc.storeNum.inj h) c.pos.ne'
    · cases h
  · change s.writerCounts.xfrs + blocks c.bytes.length = _
    rw [hblock, List.length_append, ← hx]
    rfl
  · rw [hbytes, List.length_append, ← hb]
    rfl
  · refine ⟨hr.pc, ?_, ?_, ?_, hr.report⟩
    · rw [hwait, hbytes, ← hout]
      change s.stdout ++ (c.bytes ++ _).take c.bytes.length = s.stdout ++ s.buffer.take 0 ++ c.bytes
      rw [List.take_left, List.take_zero, List.append_nil]
    · change s.readerCounts.xfrs + blocks c.bytes.length = _
      rw [hblock, List.length_append, ← hrx]
      rfl
    · rw [hwait, hbytes, List.length_append, ← hrb]
      rfl

theorem Inv.writer_storeNum (hs : Inv input t eof read s) {n : ℕ} (hpc : s.writer = .storeNum n) :
    Inv input t eof read { s with writer := .post, num := n } := by
  have hw := hs.writer
  have hr := hs.reader
  have hsem := hs.read_sem
  obtain ⟨rfl, rfl⟩ := hpc ▸ hw.pc
  have hwait := hr.pc.waits nofun
  rw [hpc] at hsem
  refine ⟨hs.write_sem, hsem, by simp, ?_, ?_⟩
  · refine hw.move ⟨rfl, rfl⟩ rfl rfl ?_ ?_ (by simp)
    · rw [hpc]
      rfl
    · rintro (h | h | ⟨-, h⟩)
      · cases h
      · cases h
      · exact hw.eof (.inr (.inl (hpc.trans (congrArg _ h))))
  · refine hr.move ?_ rfl ?_ rfl rfl rfl rfl
    · rw [hwait]
      exact ⟨nofun, nofun⟩
    · rw [hpc]
      rfl

theorem Inv.writer_post (hs : Inv input t eof read s) (hpc : s.writer = .post) :
    Inv input .readSem (s.num = 0) read
      { s with writer := .testNum, read_sem := sem_post s.read_sem } := by
  have hw := hs.writer
  have hr := hs.reader
  have hsem := hs.read_sem
  obtain ⟨rfl, rfl⟩ := hpc ▸ hw.pc
  have hwait := hr.pc.waits nofun
  rw [hpc, hwait] at hsem
  refine ⟨hs.write_sem, ?_, by simp, ?_, ?_⟩
  · change s.read_sem + 1 + s.reader.lastWaits = 1
    rw [hwait, Nat.add_right_comm]
    exact congrArg (· + 1) hsem
  · refine hw.move ⟨nofun, by simp⟩ rfl rfl ?_ ?_ (by simp)
    · rw [hpc]
      rfl
    · rintro (h | h | ⟨h, -⟩)
      · exact hw.eof (.inr (.inr ⟨hpc, of_decide_eq_true h⟩))
      · cases h
      · cases h
  · refine hr.move ?_ rfl ?_ rfl rfl rfl rfl
    · rw [hwait]
      exact ⟨nofun, fun _ => rfl⟩
    · rw [hpc]
      rfl

/-- The size of the block under way does not depend on a writer without the turn. -/
theorem underWay_of_ne (ht : t ≠ .writer) (num : ℕ) (w w' : WriterPc) :
    t.underWay num w = t.underWay num w' := by
  cases t with
  | writer => exact absurd rfl ht
  | writeSem | readSem | reader => rfl

/-- The statements of the writer behind its post touch neither the buffer nor `num` nor the turn. -/
theorem Inv.writer_behind (hs : Inv input t eof read s) (ht : t ≠ .writer) {pc : WriterPc}
    {counts : Counts} {report : Option Counts} (hpc : t.WriterAt eof s.num pc)
    (hsem : sem + s.reader.lastWaits = (if t = .readSem then 1 else 0) + pc.lastPosts)
    (hxfrs : counts.xfrs + blocks (uncounted s.num pc) =
      s.writerCounts.xfrs + blocks (uncounted s.num s.writer))
    (hbytes : counts.bytes + uncounted s.num pc =
      s.writerCounts.bytes + uncounted s.num s.writer)
    (hreport : pc = .postLast ∨ pc = .finished → report = some counts) :
    Inv input t eof read
      { s with writer := pc, read_sem := sem, writerCounts := counts, writerReport := report } := by
  have hw := hs.writer
  refine ⟨hs.write_sem, hsem, hs.num, ⟨hpc, hw.input, ?_, ?_, ?_, hreport⟩, ?_⟩
  · rintro (h | h | ⟨h, -⟩)
    · exact hw.eof (.inl h)
    · change pc = _ at h
      rw [h] at hpc
      exact absurd hpc.1 ht
    · change pc = _ at h
      rw [h] at hpc
      exact absurd hpc.1 ht
  · exact hxfrs.trans hw.xfrs
  · exact hbytes.trans hw.bytes
  · exact hs.reader.move hs.reader.pc rfl (underWay_of_ne ht _ _ _) rfl rfl rfl rfl

theorem Inv.writer_testNum (hs : Inv input t eof read s) (hpc : s.writer = .testNum) :
    Inv input t eof read { s with writer := if s.num = 0 then .report else .advance } := by
  obtain ⟨ht, hnum⟩ := hpc ▸ hs.writer.pc
  have hsem := hs.read_sem
  rw [hpc] at hsem
  by_cases h : s.num = 0
  · rw [if_pos h]
    refine hs.writer_behind ht ⟨ht, hnum.1 h⟩ hsem ?_ ?_ (by simp)
    · rw [hpc, h]
      rfl
    · rw [hpc, h]
      rfl
  · rw [if_neg h]
    have heof : eof = false := by
      rw [← Bool.not_eq_true]
      exact fun he => h (hnum.2 he)
    refine hs.writer_behind ht ⟨ht, h, heof⟩ hsem ?_ ?_ (by simp)
    · rw [hpc]
      rfl
    · rw [hpc]
      rfl

theorem Inv.writer_advance (hs : Inv input t eof read s) (hpc : s.writer = .advance) :
    Inv input t eof read
      { s with
        writer := .wait
        writerCounts := ⟨s.writerCounts.xfrs + 1, s.writerCounts.bytes + s.num⟩ } := by
  obtain ⟨ht, hnum, heof⟩ := hpc ▸ hs.writer.pc
  have hsem := hs.read_sem
  rw [hpc] at hsem
  refine hs.writer_behind ht ⟨ht, heof⟩ hsem ?_ ?_ (by simp)
  · have hblock : blocks s.num = 1 := if_neg hnum
    rw [hpc]
    change _ = s.writerCounts.xfrs + blocks s.num
    rw [hblock]
    rfl
  · rw [hpc]
    rfl

theorem Inv.writer_report (hs : Inv input t eof read s) (hpc : s.writer = .report) :
    Inv input t eof read { s with writer := .postLast, writerReport := some s.writerCounts } := by
  obtain ⟨ht, heof⟩ := hpc ▸ hs.writer.pc
  have hsem := hs.read_sem
  rw [hpc] at hsem
  refine hs.writer_behind ht ⟨ht, heof⟩ hsem ?_ ?_ (fun _ => rfl)
  · rw [hpc]
    rfl
  · rw [hpc]
    rfl

theorem Inv.writer_postLast (hs : Inv input t eof read s) (hpc : s.writer = .postLast) :
    Inv input t eof read { s with writer := .finished, read_sem := sem_post s.read_sem } := by
  obtain ⟨ht, heof⟩ := hpc ▸ hs.writer.pc
  have hsem := hs.read_sem
  rw [hpc] at hsem
  refine hs.writer_behind ht ⟨ht, heof⟩ ?_ ?_ ?_ (fun _ => hs.writer.report (.inl hpc))
  · rw [sem_post, Nat.add_right_comm, hsem]
    rfl
  · rw [hpc]
    rfl
  · rw [hpc]
    rfl

/-- Every step of the writer keeps the invariant. -/
theorem Inv.writerStep (hs : Inv input t eof read s) (h : writerStep s = some s') :
    ∃ t eof read, Inv input t eof read s' := by
  unfold PosixXfr.writerStep at h
  cases hpc : s.writer <;> rw [hpc] at h
  case wait =>
    obtain ⟨sem, hsem, rfl⟩ := Option.map_eq_some_iff.1 h
    exact ⟨_, _, _, hs.writer_wait hpc hsem⟩
  case finished => cases h
  all_goals obtain rfl := Option.some.inj h
  case read =>
    split
    · rename_i hin
      exact ⟨_, _, _, hs.writer_read_eof hpc hin⟩
    · rename_i hin
      exact ⟨_, _, _, hs.writer_read_chunk hpc hin⟩
  case storeNum n => exact ⟨_, _, _, hs.writer_storeNum hpc⟩
  case post => exact ⟨_, _, _, hs.writer_post hpc⟩
  case testNum => exact ⟨_, _, _, hs.writer_testNum hpc⟩
  case advance => exact ⟨_, _, _, hs.writer_advance hpc⟩
  case report => exact ⟨_, _, _, hs.writer_report hpc⟩
  case postLast => exact ⟨_, _, _, hs.writer_postLast hpc⟩

/-! ## Steps of the reader -/

/-- What the writer keeps in a step of the reader. -/
theorem WriterInv.pass (hw : WriterInv input t eof read s) {t' : Turn} (ht : t ≠ .writer)
    (ht' : t' ≠ .writer) (hwriter : s'.writer = s.writer) (hnum : s'.num = s.num)
    (hstdin : s'.stdin = s.stdin) (hcounts : s'.writerCounts = s.writerCounts)
    (hreport : s'.writerReport = s.writerReport) : WriterInv input t' eof read s' := by
  refine hw.move ?_ hstdin hcounts ?_ ?_ ?_
  · rw [hwriter, hnum]
    exact hw.pc.pass ht ht'
  · rw [hwriter, hnum]
  · rw [hwriter, hnum]
    exact hw.eof
  · rw [hwriter, hreport]
    exact hw.report

theorem Inv.reader_wait (hs : Inv input t eof read s) (hpc : s.reader = .wait)
    (h : sem_wait s.read_sem = some sem) :
    Inv input .reader eof read { s with reader := .testNum, read_sem := sem } := by
  obtain ⟨hpos, rfl⟩ := sem_wait_eq_some h
  have hr := hs.reader
  have hsem := hs.read_sem
  rw [hpc] at hsem
  obtain ⟨-, heof⟩ := hpc ▸ hr.pc
  -- A last post alone in the semaphore would mean that the turn has left it at the end of the
  -- input.
  have ht : t = .readSem := by
    by_contra hne
    rw [if_neg hne] at hsem
    have hlast : 0 < s.writer.lastPosts := by
      have hzero : ReaderPc.wait.lastWaits = 0 := rfl
      omega
    have hw := hs.writer.pc
    cases hwpc : s.writer with
    | finished =>
      rw [hwpc] at hw
      exact hne (heof hw.2)
    | wait | read | storeNum | post | testNum | advance | report | postLast =>
      rw [hwpc] at hlast
      cases hlast
  subst ht
  refine ⟨hs.write_sem, ?_, fun _ => hs.num (.inl rfl), ?_, ?_⟩
  · change s.read_sem - 1 + 0 = 0 + s.writer.lastPosts
    change s.read_sem + 0 = 1 + s.writer.lastPosts at hsem
    omega
  · exact hs.writer.pass nofun nofun rfl rfl rfl rfl rfl
  · have hout := hr.stdout
    have hbytes := hr.bytes
    rw [hpc] at hout hbytes
    exact ⟨rfl, hout, hr.xfrs, hbytes, nofun⟩

/-- The statements of the reader between its wait and its post touch neither the buffer nor `num`
nor the turn. -/
theorem Inv.reader_inside (hs : Inv input t eof read s) (ht : t = .reader) {pc : ReaderPc}
    {stdout : List UInt8} {counts : Counts} {report : Option Counts}
    (hpc : t.ReaderAt eof s.num pc)
    (hsem : sem + pc.lastWaits = s.writer.lastPosts)
    (hstdout : stdout ++ s.buffer.take (if pc.written then 0 else s.num) = bytesOf read)
    (hxfrs : counts.xfrs = s.readerCounts.xfrs)
    (hbytes : counts.bytes + (if pc.added then 0 else s.num) = (bytesOf read).length)
    (hreport : pc = .finished → report = some counts) :
    Inv input t eof read
      { s with
        reader := pc, read_sem := sem, stdout, readerCounts := counts,
        readerReport := report } := by
  subst ht
  refine ⟨hs.write_sem, ?_, hs.num, hs.writer.pass nofun nofun rfl rfl rfl rfl rfl, ?_⟩
  · rw [if_neg nofun, Nat.zero_add]
    exact hsem
  · refine ⟨hpc, hstdout, ?_, hbytes, hreport⟩
    rw [hxfrs]
    exact hs.reader.xfrs

/-- What the invariant says while the reader has the turn. -/
theorem Inv.at_reader (hs : Inv input .reader eof read s) :
    s.read_sem + s.reader.lastWaits = s.writer.lastPosts ∧
      s.stdout ++ s.buffer.take (if s.reader.written then 0 else s.num) = bytesOf read ∧
      s.readerCounts.bytes + (if s.reader.added then 0 else s.num) = (bytesOf read).length := by
  have hsem := hs.read_sem
  rw [if_neg nofun, Nat.zero_add] at hsem
  exact ⟨hsem, hs.reader.stdout, hs.reader.bytes⟩

theorem Inv.reader_testNum (hs : Inv input t eof read s) (hpc : s.reader = .testNum) :
    Inv input t eof read { s with reader := if s.num = 0 then .waitLast else .addBytes } := by
  obtain rfl := hpc ▸ hs.reader.pc
  obtain ⟨hsem, hout, hbytes⟩ := hs.at_reader
  rw [hpc] at hsem hout hbytes
  have hnum := hs.num (.inr rfl)
  by_cases h : s.num = 0
  · rw [if_pos h]
    exact hs.reader_inside rfl ⟨rfl, hnum.1 h⟩ hsem hout rfl hbytes nofun
  · rw [if_neg h]
    have heof : eof = false := by
      rw [← Bool.not_eq_true]
      exact fun he => h (hnum.2 he)
    exact hs.reader_inside rfl ⟨rfl, heof⟩ hsem hout rfl hbytes nofun

theorem Inv.reader_addBytes (hs : Inv input t eof read s) (hpc : s.reader = .addBytes) :
    Inv input t eof read
      { s with
        reader := .write
        readerCounts := { s.readerCounts with bytes := s.readerCounts.bytes + s.num } } := by
  obtain ⟨rfl, heof⟩ := hpc ▸ hs.reader.pc
  obtain ⟨hsem, hout, hbytes⟩ := hs.at_reader
  rw [hpc] at hsem hout hbytes
  exact hs.reader_inside rfl ⟨rfl, heof⟩ hsem hout rfl hbytes nofun

theorem Inv.reader_write (hs : Inv input t eof read s) (hpc : s.reader = .write) :
    Inv input t eof read
      { s with reader := .checkNum s.num, stdout := s.stdout ++ s.buffer.take s.num } := by
  obtain ⟨rfl, heof⟩ := hpc ▸ hs.reader.pc
  obtain ⟨hsem, hout, hbytes⟩ := hs.at_reader
  rw [hpc] at hsem hout hbytes
  refine hs.reader_inside rfl ⟨rfl, heof, rfl⟩ hsem ?_ rfl hbytes nofun
  rw [← hout]
  change s.stdout ++ s.buffer.take s.num ++ s.buffer.take 0 = s.stdout ++ s.buffer.take s.num
  rw [List.take_zero, List.append_nil]

theorem Inv.reader_checkNum (hs : Inv input t eof read s) {n : ℕ} (hpc : s.reader = .checkNum n) :
    Inv input t eof read { s with reader := if n = s.num then .post else .failed } := by
  obtain ⟨rfl, heof, hn⟩ := hpc ▸ hs.reader.pc
  obtain ⟨hsem, hout, hbytes⟩ := hs.at_reader
  rw [hpc] at hsem hout hbytes
  rw [if_pos hn]
  exact hs.reader_inside rfl ⟨rfl, heof⟩ hsem hout rfl hbytes nofun

theorem Inv.reader_post (hs : Inv input t eof read s) (hpc : s.reader = .post) :
    Inv input .writeSem eof read
      { s with
        reader := .wait
        write_sem := sem_post s.write_sem
        readerCounts := { s.readerCounts with xfrs := s.readerCounts.xfrs + 1 } } := by
  obtain ⟨rfl, heof⟩ := hpc ▸ hs.reader.pc
  obtain ⟨hsem, hout, hbytes⟩ := hs.at_reader
  rw [hpc] at hsem hout hbytes
  have hblock : blocks s.num = 1 := by
    refine if_neg fun h => ?_
    have htrue := (hs.num (.inr rfl)).1 h
    rw [heof] at htrue
    cases htrue
  have hxfrs := hs.reader.xfrs
  change s.readerCounts.xfrs + blocks s.num = read.length at hxfrs
  refine ⟨?_, ?_, by simp, hs.writer.pass nofun nofun rfl rfl rfl rfl rfl, ?_⟩
  · rw [sem_post, hs.write_sem]
    rfl
  · rw [if_neg nofun, Nat.zero_add]
    exact hsem
  · refine ⟨⟨nofun, fun h => ?_⟩, hout, ?_, hbytes, nofun⟩
    · rw [heof] at h
      cases h
    · rw [hblock] at hxfrs
      exact hxfrs

theorem Inv.reader_waitLast (hs : Inv input t eof read s) (hpc : s.reader = .waitLast)
    (h : sem_wait s.read_sem = some sem) :
    Inv input t eof read { s with reader := .report, read_sem := sem } := by
  obtain ⟨hpos, rfl⟩ := sem_wait_eq_some h
  obtain ⟨rfl, heof⟩ := hpc ▸ hs.reader.pc
  obtain ⟨hsem, hout, hbytes⟩ := hs.at_reader
  rw [hpc] at hsem hout hbytes
  refine hs.reader_inside rfl ⟨rfl, heof⟩ ?_ hout rfl hbytes nofun
  rw [← hsem]
  exact Nat.sub_add_cancel hpos

theorem Inv.reader_report (hs : Inv input t eof read s) (hpc : s.reader = .report) :
    Inv input t eof read { s with reader := .finished, readerReport := some s.readerCounts } := by
  obtain ⟨rfl, heof⟩ := hpc ▸ hs.reader.pc
  obtain ⟨hsem, hout, hbytes⟩ := hs.at_reader
  rw [hpc] at hsem hout hbytes
  exact hs.reader_inside rfl ⟨rfl, heof⟩ hsem hout rfl hbytes fun _ => rfl

/-- Every step of the reader keeps the invariant. -/
theorem Inv.readerStep (hs : Inv input t eof read s) (h : readerStep s = some s') :
    ∃ t eof read, Inv input t eof read s' := by
  unfold PosixXfr.readerStep at h
  cases hpc : s.reader <;> rw [hpc] at h
  case wait =>
    obtain ⟨sem, hsem, rfl⟩ := Option.map_eq_some_iff.1 h
    exact ⟨_, _, _, hs.reader_wait hpc hsem⟩
  case waitLast =>
    obtain ⟨sem, hsem, rfl⟩ := Option.map_eq_some_iff.1 h
    exact ⟨_, _, _, hs.reader_waitLast hpc hsem⟩
  case finished | failed => cases h
  all_goals obtain rfl := Option.some.inj h
  case testNum => exact ⟨_, _, _, hs.reader_testNum hpc⟩
  case addBytes => exact ⟨_, _, _, hs.reader_addBytes hpc⟩
  case write => exact ⟨_, _, _, hs.reader_write hpc⟩
  case checkNum n => exact ⟨_, _, _, hs.reader_checkNum hpc⟩
  case post => exact ⟨_, _, _, hs.reader_post hpc⟩
  case report => exact ⟨_, _, _, hs.reader_report hpc⟩

/-- **Every step** keeps the invariant. -/
theorem Inv.step (hs : Inv input t eof read s) {l : Label}
    (h : (machine input).step s l = some s') : ∃ t eof read, Inv input t eof read s' := by
  cases l with
  | writer => exact hs.writerStep h
  | reader => exact hs.readerStep h

theorem inv_reachable (h : (machine input).Reachable s) :
    ∃ t eof read, Inv input t eof read s := by
  refine h.invariant (I := fun s => ∃ t eof read, Inv input t eof read s) ⟨_, _, _, .start⟩ ?_
  rintro s l s' ⟨t, eof, read, hs⟩ - hst
  exact hs.step hst

/-! ## Runs end -/

/-- The steps that the writer has left, at most. -/
def State.writerLeft (s : State BUFFER_SIZE) : ℕ :=
  match s.writer with
  | .wait => 7 + 6 * s.stdin.length
  | .read => 6 + 6 * s.stdin.length
  | .storeNum n => 5 + 6 * s.stdin.length + 6 * blocks n
  | .post => 4 + 6 * s.stdin.length + 6 * blocks s.num
  | .testNum => 3 + 6 * s.stdin.length + 6 * blocks s.num
  | .advance => 8 + 6 * s.stdin.length
  | .report => 2
  | .postLast => 1
  | .finished => 0

/-- The steps that the reader has left, at most, when `k` blocks are still to be handed back. -/
def ReaderPc.left (k : ℕ) : ReaderPc → ℕ
  | .wait => 5 + 6 * k
  | .testNum => 4 + 6 * k
  | .addBytes => 3 + 6 * k
  | .write => 2 + 6 * k
  | .checkNum _ => 1 + 6 * k
  | .post => 6 * k
  | .waitLast => 2
  | .report => 1
  | .finished | .failed => 0

/-- The steps that both have left, at most. -/
def State.left (input : List (Chunk BUFFER_SIZE)) (s : State BUFFER_SIZE) : ℕ :=
  s.writerLeft + s.reader.left (input.length - s.readerCounts.xfrs)

theorem writerStep_left (h : writerStep s = some s') :
    s'.writerLeft < s.writerLeft ∧ s'.reader = s.reader ∧ s'.readerCounts = s.readerCounts := by
  unfold writerStep at h
  cases hpc : s.writer <;> rw [hpc] at h
  case wait =>
    obtain ⟨sem, -, rfl⟩ := Option.map_eq_some_iff.1 h
    simp [State.writerLeft, hpc]
  case finished => cases h
  all_goals obtain rfl := Option.some.inj h
  case read =>
    split
    · rename_i hin
      simp [State.writerLeft, hpc, hin, blocks]
    · rename_i c stdin hin
      have hblock : blocks c.bytes.length = 1 := if_neg c.pos.ne'
      simp only [State.writerLeft, hpc, hin, hblock, List.length_cons, and_self, and_true]
      omega
  case storeNum n => simp [State.writerLeft, hpc]
  case testNum =>
    by_cases hnum : s.num = 0
    · simp [State.writerLeft, hpc, hnum]
      omega
    · have hblock : blocks s.num = 1 := if_neg hnum
      simp [State.writerLeft, hpc, hnum, hblock]
      omega
  case post | advance | report | postLast => simp [State.writerLeft, hpc]

/-- At its post the reader has a block of the input in front of it. -/
theorem Inv.xfrs_lt (hs : Inv input t eof read s) (hpc : s.reader = .post) :
    s.readerCounts.xfrs < input.length := by
  obtain ⟨rfl, heof⟩ := hpc ▸ hs.reader.pc
  have hnum : s.num ≠ 0 := by
    intro h
    have htrue := (hs.num (.inr rfl)).1 h
    rw [heof] at htrue
    cases htrue
  have hxfrs := hs.reader.xfrs
  have hblock : blocks s.num = 1 := if_neg hnum
  change s.readerCounts.xfrs + blocks s.num = read.length at hxfrs
  rw [hs.writer.input, List.length_append]
  omega

theorem readerStep_left (hlt : s.reader = .post → s.readerCounts.xfrs < input.length)
    (h : readerStep s = some s') :
    s'.reader.left (input.length - s'.readerCounts.xfrs) <
        s.reader.left (input.length - s.readerCounts.xfrs) ∧ s'.writerLeft = s.writerLeft := by
  unfold readerStep at h
  cases hpc : s.reader <;> rw [hpc] at h
  case wait | waitLast =>
    obtain ⟨sem, -, rfl⟩ := Option.map_eq_some_iff.1 h
    simp [ReaderPc.left, State.writerLeft]
  case finished | failed => cases h
  all_goals obtain rfl := Option.some.inj h
  case post =>
    have hlt := hlt hpc
    refine ⟨?_, rfl⟩
    simp only [ReaderPc.left]
    omega
  case testNum | checkNum =>
    refine ⟨?_, rfl⟩
    dsimp only
    split <;> simp only [ReaderPc.left] <;> omega
  case addBytes | write | report => simp [ReaderPc.left, State.writerLeft]

theorem step_left (hs : Inv input t eof read s) {l : Label}
    (h : (machine input).step s l = some s') : s'.left input < s.left input := by
  unfold State.left
  cases l with
  | writer =>
    obtain ⟨hlt, hreader, hcounts⟩ := writerStep_left h
    rw [hreader, hcounts]
    omega
  | reader =>
    obtain ⟨hlt, hwriter⟩ := readerStep_left hs.xfrs_lt h
    rw [hwriter]
    omega

/-- A run has at most `12 + 12 n` steps on an input of `n` chunks. -/
theorem run_length_le (ls : List Label) (h : (machine input).run (start input) ls = some s) :
    ls.length ≤ 12 + 12 * input.length := by
  have hle := Machine.Reachable.length_le (M := machine input) (μ := State.left input) (by
    intro s l s' hs hst
    obtain ⟨t, eof, read, hs⟩ := inv_reachable hs
    exact step_left hs hst) .init ls h
  have hstart : (start input).left input = 12 + 12 * input.length := by
    simp only [State.left, State.writerLeft, ReaderPc.left, start, Nat.sub_zero]
    omega
  change ls.length + s.left input ≤ (start input).left input at hle
  omega

/-! ## The transfer -/

/-- The writer writes the buffer or `num`. -/
def WriterPc.Fills : WriterPc → Prop
  | .read | .storeNum _ => True
  | _ => False

/-- The reader uses the buffer or `num`. -/
def ReaderPc.Uses : ReaderPc → Prop
  | .testNum | .addBytes | .write | .checkNum _ | .post => True
  | _ => False

/-- Both threads have come to their end. -/
def State.Finished (s : State BUFFER_SIZE) : Prop := s.writer = .finished ∧ s.reader = .finished

theorem Inv.exclusive (hs : Inv input t eof read s) : ¬ (s.writer.Fills ∧ s.reader.Uses) := by
  rintro ⟨hfills, huses⟩
  have hw := hs.writer.pc
  have hturn : t = .writer ∧ eof = false := by
    cases hpc : s.writer <;> rw [hpc] at hw hfills <;> first | exact hw | exact hfills.elim
  obtain ⟨rfl, rfl⟩ := hturn
  rw [hs.reader.pc.waits nofun] at huses
  exact huses

theorem Inv.stdout_prefix (hs : Inv input t eof read s) : s.stdout <+: bytesOf input := by
  rw [hs.writer.input, bytesOf, List.flatMap_append, ← bytesOf, ← hs.reader.stdout,
    List.append_assoc]
  exact List.prefix_append _ _

/-- What the threads have done and reported when both have finished. -/
theorem Inv.finished (hs : Inv input t eof read s) (hfin : s.Finished) :
    s.stdout = bytesOf input ∧
      s.writerReport = some ⟨input.length, (bytesOf input).length⟩ ∧
      s.readerReport = some ⟨input.length, (bytesOf input).length⟩ := by
  obtain ⟨hw, hr⟩ := hfin
  obtain ⟨-, heof⟩ := hw ▸ hs.writer.pc
  obtain ⟨rfl, -⟩ := hr ▸ hs.reader.pc
  have hread : input = read := by
    rw [hs.writer.input, hs.writer.eof (.inl heof), List.append_nil]
  subst hread
  have hnum : s.num = 0 := (hs.num (.inr rfl)).2 heof
  have hwx := hs.writer.xfrs
  have hwb := hs.writer.bytes
  have hrx := hs.reader.xfrs
  have hrb := hs.reader.bytes
  have hout := hs.reader.stdout
  rw [hw] at hwx hwb
  change s.readerCounts.xfrs + blocks s.num = _ at hrx
  change s.readerCounts.bytes + (if s.reader.added then 0 else s.num) = _ at hrb
  change s.stdout ++ s.buffer.take (if s.reader.written then 0 else s.num) = _ at hout
  rw [hnum] at hrx
  rw [hnum, ite_self] at hrb hout
  refine ⟨?_, ?_, ?_⟩
  · rw [← hout, List.take_zero, List.append_nil]
  · rw [hs.writer.report (.inr hw), ← hwx, ← hwb]
    rfl
  · rw [hs.reader.report hr, ← hrx, ← hrb]
    rfl

theorem sem_wait_eq_none (h : sem_wait sem = none) : sem = 0 := by
  unfold sem_wait at h
  split_ifs at h with hpos
  omega

/-- Where the writer does not move. -/
theorem writerStep_eq_none (h : writerStep s = none) :
    s.writer = .wait ∧ s.write_sem = 0 ∨ s.writer = .finished := by
  unfold writerStep at h
  cases hpc : s.writer <;> rw [hpc] at h
  case wait => exact .inl ⟨rfl, sem_wait_eq_none (Option.map_eq_none_iff.1 h)⟩
  case finished => exact .inr rfl
  all_goals cases h

/-- Where the reader does not move. -/
theorem readerStep_eq_none (h : readerStep s = none) :
    (s.reader = .wait ∨ s.reader = .waitLast) ∧ s.read_sem = 0 ∨ s.reader = .finished ∨
      s.reader = .failed := by
  unfold readerStep at h
  cases hpc : s.reader <;> rw [hpc] at h
  case wait => exact .inl ⟨.inl rfl, sem_wait_eq_none (Option.map_eq_none_iff.1 h)⟩
  case waitLast => exact .inl ⟨.inr rfl, sem_wait_eq_none (Option.map_eq_none_iff.1 h)⟩
  case finished => exact .inr (.inl rfl)
  case failed => exact .inr (.inr rfl)
  all_goals cases h

/-- **Nothing gets stuck** before both threads have finished. -/
theorem Inv.not_stuck (hs : Inv input t eof read s) (hfin : ¬ s.Finished) :
    ¬ (machine input).Stuck s := by
  intro hstuck
  have hw := hs.writer.pc
  have hr := hs.reader.pc
  have hrsem := hs.read_sem
  obtain ⟨hwait, hzero⟩ | hwfin := writerStep_eq_none (hstuck .writer)
  · -- The turn is in `read_sem` or with the reader, and the end of the input is not handed over.
    obtain ⟨htw, rfl⟩ := hwait ▸ hw
    have hts : t ≠ .writeSem := by
      rintro rfl
      rw [hs.write_sem] at hzero
      cases hzero
    obtain ⟨h | h, hrzero⟩ | h | h := readerStep_eq_none (hstuck .reader) <;> rw [h] at hr
    · have ht : t = .readSem := by cases t <;> simp_all [Turn.ReaderAt]
      rw [h, hrzero, if_pos ht, hwait] at hrsem
      cases hrsem
    · exact absurd hr.2 nofun
    · exact absurd hr.2 nofun
    · exact hr
  · -- The writer has handed over the end of the input and posted `read_sem` once more.
    obtain ⟨-, rfl⟩ := hwfin ▸ hw
    obtain ⟨h | h, hrzero⟩ | h | h := readerStep_eq_none (hstuck .reader) <;> rw [h] at hr
    · rw [h, hrzero, if_pos (hr.2 rfl), hwfin] at hrsem
      cases hrsem
    · rw [h, hrzero, hwfin, hr.1] at hrsem
      cases hrsem
    · exact hfin ⟨hwfin, h⟩
    · exact hr

/-- **The transfer is correct.** In every reachable state of the two threads on an input, the
buffer and `num` are not written while the reader uses them, what the reader has written is a prefix
of the input, and its `write` is not taken for a failure. No state is stuck before both threads have
finished, and every run ends; when both have finished, the bytes written are the input, and both
have reported its size and its number of chunks. -/
theorem threads_transfer (h : (machine input).Reachable s) :
    ¬ (s.writer.Fills ∧ s.reader.Uses) ∧
      s.stdout <+: bytesOf input ∧
      s.reader ≠ .failed ∧
      (s.Finished → s.stdout = bytesOf input ∧
        s.writerReport = some ⟨input.length, (bytesOf input).length⟩ ∧
        s.readerReport = some ⟨input.length, (bytesOf input).length⟩) ∧
      (¬ s.Finished → ¬ (machine input).Stuck s) ∧
      ∀ ls s', (machine input).run (start input) ls = some s' →
        ls.length ≤ 12 + 12 * input.length := by
  obtain ⟨t, eof, read, hs⟩ := inv_reachable h
  refine ⟨hs.exclusive, hs.stdout_prefix, ?_, hs.finished, hs.not_stuck,
    fun ls s' hrun => run_length_le ls hrun⟩
  intro hfailed
  have hr := hs.reader.pc
  rw [hfailed] at hr
  exact hr

/-- An input of three bytes in two chunks. -/
def twoChunks : List (Chunk 2) := [⟨[7], by decide, by decide⟩, ⟨[8, 9], by decide, by decide⟩]

/-- The interleaving in which the reader moves whenever it can. -/
def twoChunksRun : List Label :=
  List.replicate 4 Label.writer ++ List.replicate 6 Label.reader ++
    List.replicate 6 Label.writer ++ List.replicate 6 Label.reader ++
    List.replicate 6 Label.writer ++ List.replicate 2 Label.reader ++
    List.replicate 3 Label.writer ++ List.replicate 2 Label.reader

theorem threads_transfer_twoChunks :
    ∃ s, (machine twoChunks).run (start twoChunks) twoChunksRun = some s ∧
      s.stdout = bytesOf twoChunks ∧ s.writerReport = s.readerReport := by
  obtain ⟨s, hrun, hfinished⟩ :
      ∃ s, (machine twoChunks).run (start twoChunks) twoChunksRun = some s ∧ s.Finished :=
    ⟨_, rfl, rfl, rfl⟩
  have hreach : (machine twoChunks).Reachable s := .run .init twoChunksRun hrun
  have hdone := (threads_transfer hreach).2.2.2.1 hfinished
  exact ⟨s, hrun, hdone.1, hdone.2.1.trans hdone.2.2.symm⟩

end TlpiLearn.PosixXfr
