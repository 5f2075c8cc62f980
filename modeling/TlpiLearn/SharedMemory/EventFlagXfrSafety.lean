import TlpiLearn.SharedMemory.EventFlagXfr
import Mathlib.Tactic

/-!
# The event-flag transfer is correct

Once the segment exists, the right to use it is in one of four places (`Turn`): in the flag
`WRITE_SEM`, with the writer, in the flag `READ_SEM`, or with the reader. `Running` says which
statements each process can be at for each place, and how far the data has come; `Starting` and
`Closed` are the states before and after. Each step keeps the invariant (`Inv.step`).

A reader that is started before the writer has created the objects ends with an error, and the
writer then waits for ever (`early_reader_strands_writer`). `transfer_correct` is about every
interleaving: the exclusion and the order of the blocks hold without a condition, nothing gets
stuck once the reader has found the objects, and every run ends.
-/

namespace TlpiLearn.EventFlagXfr

open EventFlag

/-- Where the right to use the segment is. -/
inductive Turn
  | writeFlag
  | writer
  | readFlag
  | reader
  deriving DecidableEq

/-- The semaphores: a flag is set while it holds the turn. -/
def Turn.flags : Turn → SemSet 2
  | .writeFlag => ![0, 1]
  | .readFlag => ![1, 0]
  | .writer | .reader => ![1, 1]

/-- The statements the writer can be at; `eof` tells whether it has handed over the end of its
input. -/
def Turn.WriterAt (t : Turn) (eof : Bool) (g : Shmseg) : WriterPc → Prop
  | .shmat | .clearWrite => t = .writeFlag ∧ eof = false
  | .waitWrite => t ≠ .writer ∧ eof = false
  | .read | .storeCnt _ | .setRead => t = .writer ∧ eof = false
  | .testCnt => t ≠ .writer ∧ (g.cnt = 0 ↔ eof = true)
  | .advance => t ≠ .writer ∧ g.cnt ≠ 0 ∧ eof = false
  | .waitLast => t ≠ .writer ∧ eof = true
  | .clearLast => t = .writeFlag ∧ eof = true
  | .removeSem => t = .writer ∧ eof = true
  | _ => False

/-- The statements the reader can be at. -/
def Turn.ReaderAt (t : Turn) (eof : Bool) : ReaderPc → Prop
  | .semget | .shmget | .shmat | .waitRead | .notFound => t ≠ .reader ∧ (eof = true → t = .readFlag)
  | .clearRead => t = .readFlag
  | .testCnt => t = .reader
  | .addBytes | .write | .setWrite => t = .reader ∧ eof = false
  | .shmdt | .setLast => t = .reader ∧ eof = true
  | .finished => eof = true ∧ (t = .writeFlag ∨ t = .writer)
  | .failed => False

/-- The block that a count and a buffer stand for; the end of the input is no block. -/
def blockOf (n : ℕ) (buf : List UInt8) : List (List UInt8) := if n = 0 then [] else [buf.take n]

/-- The block in the segment. -/
def Shmseg.block (g : Shmseg) : List (List UInt8) := blockOf g.cnt g.buf

/-- The block that the writer has read and not handed over. -/
def held (g : Shmseg) : WriterPc → List (List UInt8)
  | .storeCnt n => blockOf n g.buf
  | .setRead => g.block
  | _ => []

/-- The block that was read and not written. -/
def Turn.pending (t : Turn) (g : Shmseg) (w : WriterPc) : ReaderPc → List (List UInt8)
  | .testCnt | .addBytes | .write => g.block
  | _ =>
    match t with
    | .readFlag => g.block
    | .writer => held g w
    | _ => []

/-- The block that the writer has read and not counted. -/
def uncounted (g : Shmseg) : WriterPc → List (List UInt8)
  | .storeCnt n => blockOf n g.buf
  | .setRead | .testCnt | .advance => g.block
  | _ => []

/-- The number of bytes of the blocks. -/
def total (bs : List (List UInt8)) : ℕ := (bs.map List.length).sum

variable {BUF_SIZE : ℕ}

/-- The writer's counts are those of the blocks `bs`. -/
def State.WriterCounted (s : State BUF_SIZE) (bs : List (List UInt8)) : Prop :=
  s.writerXfrs = bs.length ∧ s.writerBytes = total bs

/-- The reader's counts are those of the blocks `bs`, but for a block under way. -/
def State.ReaderCounted (s : State BUF_SIZE) (g : Shmseg) : Prop :=
  s.readerXfrs + (if s.reader = .setWrite then 1 else 0) = s.stdout.length ∧
    s.readerBytes = total s.stdout + if s.reader = .write then g.cnt else 0

/-- Before the segment exists. -/
structure Starting (input : List (Chunk BUF_SIZE)) (s : State BUF_SIZE) : Prop where
  writer : s.writer = .semget ∧ s.sem = none ∨ s.writer = .initWrite ∧ s.sem.isSome ∨
    (∃ f, s.writer = .initRead ∧ s.sem = some f ∧ f WRITE_SEM = 0) ∨
    s.writer = .shmget ∧ s.sem = some Turn.writeFlag.flags
  reader : s.reader = .semget ∨ s.reader = .shmget ∨ s.reader = .notFound
  shm : s.shm = none
  stdin : s.stdin = input
  stdout : s.stdout = []
  counts : s.writerXfrs = 0 ∧ s.writerBytes = 0 ∧ s.readerXfrs = 0 ∧ s.readerBytes = 0

/-- While both objects exist. `read` are the blocks that the writer has read. -/
structure Running (input : List (Chunk BUF_SIZE)) (s : State BUF_SIZE) (t : Turn) (eof : Bool)
    (g : Shmseg) (read : List (List UInt8)) : Prop where
  sem : s.sem = some t.flags
  shm : s.shm = some g
  writer : t.WriterAt eof g s.writer
  reader : t.ReaderAt eof s.reader
  cnt : t = .readFlag ∨ t = .reader → (g.cnt = 0 ↔ eof = true)
  full : g.cnt ≤ g.buf.length ∧ ∀ n, s.writer = .storeCnt n → n ≤ g.buf.length
  input : input.map Chunk.bytes = read ++ s.stdin.map Chunk.bytes
  eof : eof = true ∨ s.writer = .storeCnt 0 ∨ s.writer = .setRead ∧ g.cnt = 0 → s.stdin = []
  stdout : read = s.stdout ++ t.pending g s.writer s.reader
  writerCounted : ∃ counted, read = counted ++ uncounted g s.writer ∧ s.WriterCounted counted
  readerCounted : s.ReaderCounted g

/-- After the writer has removed the semaphore set. -/
structure Closed (input : List (Chunk BUF_SIZE)) (s : State BUF_SIZE) : Prop where
  writer : s.writer = .shmdt ∧ s.shm.isSome ∨ s.writer = .removeShm ∧ s.shm.isSome ∨
    s.writer = .finished
  reader : s.reader = .finished
  stdout : s.stdout = input.map Chunk.bytes
  writerCounted : s.WriterCounted s.stdout
  readerCounted : s.readerXfrs = s.stdout.length ∧ s.readerBytes = total s.stdout

/-- The invariant of the transfer. -/
def Inv (input : List (Chunk BUF_SIZE)) (s : State BUF_SIZE) : Prop :=
  Starting input s ∨ (∃ t eof g read, Running input s t eof g read) ∨ Closed input s

/-! ## The flags -/

theorem setEventFlag_write : setEventFlag Turn.reader.flags WRITE_SEM = Turn.writeFlag.flags := by
  funext i
  fin_cases i <;> rfl

theorem clearEventFlag_write :
    clearEventFlag Turn.writeFlag.flags WRITE_SEM = Turn.writer.flags := by
  funext i
  fin_cases i <;> rfl

theorem setEventFlag_read : setEventFlag Turn.writer.flags READ_SEM = Turn.readFlag.flags := by
  funext i
  fin_cases i <;> rfl

theorem clearEventFlag_read : clearEventFlag Turn.readFlag.flags READ_SEM = Turn.reader.flags := by
  funext i
  fin_cases i <;> rfl

theorem waitForEventFlag_write (t : Turn) :
    waitForEventFlag t.flags WRITE_SEM = if t = .writeFlag then some t.flags else none := by
  cases t <;> rfl

theorem waitForEventFlag_read (t : Turn) :
    waitForEventFlag t.flags READ_SEM = if t = .readFlag then some t.flags else none := by
  cases t <;> rfl

/-! ## The invariant at a statement -/

variable {input : List (Chunk BUF_SIZE)} {fresh : SemSet 2} {s s' : State BUF_SIZE} {t : Turn}
  {eof : Bool} {g : Shmseg} {read : List (List UInt8)}

theorem Running.writer_at (hr : Running input s t eof g read) {pc : WriterPc}
    (hpc : s.writer = pc) : t.WriterAt eof g pc :=
  hpc ▸ hr.writer

theorem Running.reader_at (hr : Running input s t eof g read) {pc : ReaderPc}
    (hpc : s.reader = pc) : t.ReaderAt eof pc :=
  hpc ▸ hr.reader

theorem Running.stdout_at (hr : Running input s t eof g read) {pc : ReaderPc}
    (hpc : s.reader = pc) : read = s.stdout ++ t.pending g s.writer pc :=
  hpc ▸ hr.stdout

theorem Running.readerCounted_at (hr : Running input s t eof g read) {pc : ReaderPc}
    (hpc : s.reader = pc) :
    s.readerXfrs + (if pc = .setWrite then 1 else 0) = s.stdout.length ∧
      s.readerBytes = total s.stdout + if pc = .write then g.cnt else 0 :=
  hpc ▸ hr.readerCounted

/-! ## Steps that only move a process -/

/-- The writer goes on to a statement at which the data stands as before. -/
theorem Running.moveWriter (hr : Running input s t eof g read) {pc : WriterPc}
    (hpc : t.WriterAt eof g pc) (hheld : held g pc = held g s.writer)
    (hcounted : uncounted g pc = uncounted g s.writer) (hcnt : ∀ n, pc ≠ .storeCnt n)
    (hset : pc ≠ .setRead) : Running input { s with writer := pc } t eof g read :=
  { hr with
    writer := hpc
    full := ⟨hr.full.1, fun n h => absurd h (hcnt n)⟩
    eof := by
      rintro (h | h | ⟨h, -⟩)
      · exact hr.eof (.inl h)
      · exact absurd h (hcnt 0)
      · exact absurd h hset
    stdout := by
      have hout := hr.stdout
      unfold Turn.pending at hout ⊢
      rw [← hheld] at hout
      exact hout
    writerCounted := by
      rw [hcounted]
      exact hr.writerCounted }

/-- The reader goes on to a statement at which the data stands as before. -/
theorem Running.moveReader (hr : Running input s t eof g read) (pc : ReaderPc)
    (hpc : t.ReaderAt eof pc)
    (hpending : t.pending g s.writer pc = t.pending g s.writer s.reader)
    (hset : pc = .setWrite ↔ s.reader = .setWrite) (hwrite : pc = .write ↔ s.reader = .write) :
    Running input { s with reader := pc } t eof g read :=
  { hr with
    reader := hpc
    stdout := by
      rw [hpending]
      exact hr.stdout
    readerCounted := by
      have hcounted := hr.readerCounted
      unfold State.ReaderCounted at hcounted ⊢
      simp only [hset, hwrite]
      exact hcounted }

/-! ## Steps of the writer -/

/-- The writer stays where it is while the reader passes the turn on. -/
theorem Turn.WriterAt.pass {t' : Turn} {w : WriterPc} (h : t.WriterAt eof g w)
    (ht : t = .readFlag ∨ t = .reader) (ht' : t' ≠ .writer) : t'.WriterAt eof g w := by
  have hne : t ≠ .writeFlag ∧ t ≠ .writer := by
    obtain rfl | rfl := ht <;> exact ⟨nofun, nofun⟩
  cases w <;> simp_all [Turn.WriterAt]

/-- Nothing is pending while the reader does not have the turn and the writer holds nothing. -/
theorem pending_eq_nil {w : WriterPc} {r : ReaderPc} (h : t.ReaderAt eof r)
    (ht : t = .writeFlag ∨ t = .writer) (hheld : held g w = []) : t.pending g w r = [] := by
  cases r <;> obtain rfl | rfl := ht <;> simp_all [Turn.pending, Turn.ReaderAt]

/-- What is pending while the writer has the turn. -/
theorem pending_writer {w : WriterPc} {r : ReaderPc} (h : Turn.writer.ReaderAt eof r) :
    Turn.writer.pending g w r = held g w := by
  cases r <;> simp_all [Turn.pending, Turn.ReaderAt]

theorem Running.clearWrite (hr : Running input s .writeFlag false g read)
    (hw : s.writer = .clearWrite) :
    Running input { s with sem := some Turn.writer.flags, writer := .read } .writer false g
      read where
  sem := rfl
  shm := hr.shm
  writer := ⟨rfl, rfl⟩
  reader := by
    have hreader := hr.reader
    cases hpc : s.reader <;> simp_all [Turn.ReaderAt]
  cnt := by simp
  full := ⟨hr.full.1, by simp⟩
  input := hr.input
  eof := by simp
  stdout := by
    have hreader := hr.reader
    have hout := hr.stdout
    rw [pending_eq_nil hreader (.inl rfl) (by rw [hw]; rfl)] at hout
    cases hpc : s.reader <;> simp_all [Turn.ReaderAt, Turn.pending, held]
  writerCounted := by
    have hcounted := hr.writerCounted
    rw [hw] at hcounted
    exact hcounted
  readerCounted := hr.readerCounted

theorem Running.readEof (hr : Running input s .writer false g read) (hw : s.writer = .read)
    (hin : s.stdin = []) :
    Running input { s with writer := .storeCnt 0 } .writer false g read :=
  { hr with
    writer := ⟨rfl, rfl⟩
    full := ⟨hr.full.1, fun n h => by rw [← WriterPc.storeCnt.inj h]; exact Nat.zero_le _⟩
    eof := fun _ => hin
    stdout := by
      have hout := hr.stdout
      rw [pending_writer hr.reader, hw] at hout
      rw [pending_writer hr.reader]
      exact hout
    writerCounted := by
      have hcounted := hr.writerCounted
      rw [hw] at hcounted
      exact hcounted }

theorem Running.readChunk (hr : Running input s .writer false g read) (hw : s.writer = .read)
    {c : Chunk BUF_SIZE} {stdin : List (Chunk BUF_SIZE)} (hin : s.stdin = c :: stdin) :
    Running input { s with writer := .storeCnt c.bytes.length, shm := some (g.fill c.bytes), stdin }
      .writer false (g.fill c.bytes) (read ++ [c.bytes]) := by
  have hblock : blockOf c.bytes.length (g.fill c.bytes).buf = [c.bytes] := by
    rw [blockOf, if_neg c.pos.ne', Shmseg.fill, List.take_left]
  exact { hr with
    shm := rfl
    writer := ⟨rfl, rfl⟩
    cnt := by simp
    full := by
      have hfull := hr.full.1
      have hlen : (g.fill c.bytes).buf.length
          = c.bytes.length + (g.buf.length - c.bytes.length) := by
        rw [Shmseg.fill, List.length_append, List.length_drop]
      have hcnt : (g.fill c.bytes).cnt = g.cnt := rfl
      refine ⟨by omega, fun n h => ?_⟩
      rw [← WriterPc.storeCnt.inj h]
      omega
    input := by
      rw [hr.input, hin, List.map_cons, List.append_assoc, List.singleton_append]
    eof := by
      rintro (h | h | ⟨h, -⟩)
      · cases h
      · exact absurd (WriterPc.storeCnt.inj h) c.pos.ne'
      · cases h
    stdout := by
      have hout := hr.stdout
      rw [pending_writer hr.reader, hw] at hout
      have hheld : held g .read = [] := rfl
      rw [pending_writer hr.reader, held, hblock, hout, hheld, List.append_nil]
    writerCounted := by
      obtain ⟨counted, hread, hcounts⟩ := hr.writerCounted
      have hnone : uncounted g .read = [] := rfl
      rw [hw, hnone, List.append_nil] at hread
      refine ⟨counted, ?_, hcounts⟩
      rw [uncounted, hblock, hread]
    readerCounted := by
      have hreader := hr.reader
      have hcounted := hr.readerCounted
      cases hpc : s.reader <;> simp_all [Turn.ReaderAt, State.ReaderCounted] }

theorem Running.storeCnt (hr : Running input s .writer false g read) {n : ℕ}
    (hw : s.writer = .storeCnt n) :
    Running input { s with writer := .setRead, shm := some { g with cnt := n } } .writer false
      { g with cnt := n } read :=
  { hr with
    shm := rfl
    writer := ⟨rfl, rfl⟩
    cnt := by simp
    full := ⟨hr.full.2 n hw, by simp⟩
    eof := by
      rintro (h | h | ⟨-, h⟩)
      · cases h
      · cases h
      · refine hr.eof (.inr (.inl ?_))
        rw [hw, show n = 0 from h]
    stdout := by
      have hout := hr.stdout
      rw [pending_writer hr.reader, hw] at hout
      rw [pending_writer hr.reader]
      exact hout
    writerCounted := by
      have hcounted := hr.writerCounted
      rw [hw] at hcounted
      exact hcounted
    readerCounted := by
      have hreader := hr.reader
      have hcounted := hr.readerCounted
      cases hpc : s.reader <;> simp_all [Turn.ReaderAt, State.ReaderCounted] }

theorem Running.setRead (hr : Running input s .writer false g read) (hw : s.writer = .setRead) :
    Running input { s with sem := some Turn.readFlag.flags, writer := .testCnt } .readFlag
      (g.cnt = 0) g read :=
  { hr with
    sem := rfl
    writer := ⟨nofun, by simp⟩
    reader := by
      have hreader := hr.reader
      cases hpc : s.reader <;> simp_all [Turn.ReaderAt]
    cnt := by simp
    full := ⟨hr.full.1, by simp⟩
    eof := by
      rintro (h | h | ⟨h, -⟩)
      · exact hr.eof (.inr (.inr ⟨hw, of_decide_eq_true h⟩))
      · cases h
      · cases h
    stdout := by
      have hout := hr.stdout
      have hreader := hr.reader
      rw [pending_writer hr.reader, hw] at hout
      cases hpc : s.reader <;> simp_all [Turn.ReaderAt, Turn.pending, held]
    writerCounted := by
      have hcounted := hr.writerCounted
      rw [hw] at hcounted
      exact hcounted }

/-- A count that is not 0 stands for one block. -/
theorem block_of_ne {g : Shmseg} (h : g.cnt ≠ 0) : g.block = [g.buf.take g.cnt] := if_neg h

theorem block_of_eq {g : Shmseg} (h : g.cnt = 0) : g.block = [] := if_pos h

@[simp] theorem total_append (bs cs : List (List UInt8)) :
    total (bs ++ cs) = total bs + total cs := by
  rw [total, List.map_append, List.sum_append]
  rfl

/-- The block in the segment has as many bytes as the count says. -/
theorem Running.total_block (hr : Running input s t eof g read) : total g.block = g.cnt := by
  by_cases hcnt : g.cnt = 0
  · rw [block_of_eq hcnt, hcnt]
    rfl
  · rw [block_of_ne hcnt, total, List.map_singleton, List.sum_singleton, List.length_take,
      min_eq_left hr.full.1]

theorem Running.advance (hr : Running input s t eof g read) (hw : s.writer = .advance) :
    Running input
      { s with
        writer := .waitWrite
        writerXfrs := s.writerXfrs + 1
        writerBytes := s.writerBytes + g.cnt } t eof g read := by
  have hwriter := hr.writer_at hw
  obtain ⟨ht, hcnt, heof⟩ := hwriter
  exact { hr with
    writer := ⟨ht, heof⟩
    full := ⟨hr.full.1, by simp⟩
    eof := by
      rintro (h | h | ⟨h, -⟩)
      · exact hr.eof (.inl h)
      · cases h
      · cases h
    stdout := by
      have hout := hr.stdout
      cases t
      · exact hout
      · exact absurd rfl ht
      · exact hout
      · exact hout
    writerCounted := by
      obtain ⟨counted, hread, hxfrs, hbytes⟩ := hr.writerCounted
      have hnone : uncounted g .waitWrite = [] := rfl
      have hone : uncounted g .advance = g.block := rfl
      rw [hw, hone] at hread
      refine ⟨read, by rw [hnone, List.append_nil], ?_, ?_⟩
      · rw [hread, block_of_ne hcnt, List.length_append, List.length_singleton, hxfrs]
      · rw [hread, total_append, hr.total_block, hbytes] }

theorem Running.clearLast (hr : Running input s t eof g read) (hw : s.writer = .clearLast) :
    Running input { s with sem := some Turn.writer.flags, writer := .removeSem } .writer true g
      read := by
  have hwriter := hr.writer_at hw
  obtain ⟨rfl, rfl⟩ := hwriter
  have hreader : s.reader = .finished := by
    have hreader := hr.reader
    cases hpc : s.reader <;> simp_all [Turn.ReaderAt]
  exact { hr with
    sem := rfl
    writer := ⟨rfl, rfl⟩
    reader := by
      rw [hreader]
      exact ⟨rfl, .inr rfl⟩
    cnt := by simp
    full := ⟨hr.full.1, by simp⟩
    eof := fun _ => hr.eof (.inl rfl)
    stdout := by
      have hout := hr.stdout
      rw [hreader] at hout ⊢
      exact hout
    writerCounted := by
      have hcounted := hr.writerCounted
      rw [hw] at hcounted
      exact hcounted }

theorem Running.removeSem (hr : Running input s t eof g read) (hw : s.writer = .removeSem) :
    Closed input { s with sem := none, writer := .shmdt } := by
  have hwriter := hr.writer_at hw
  obtain ⟨rfl, rfl⟩ := hwriter
  have hreader : s.reader = .finished := by
    have hreader := hr.reader
    cases hpc : s.reader <;> simp_all [Turn.ReaderAt]
  have hread : read = s.stdout := by
    have hout := hr.stdout
    have hnone : held g .removeSem = [] := rfl
    rwa [pending_writer hr.reader, hw, hnone, List.append_nil] at hout
  obtain ⟨counted, hcounted, hcounts⟩ := hr.writerCounted
  have hnone : uncounted g .removeSem = [] := rfl
  rw [hw, hnone, List.append_nil, hread] at hcounted
  have hreaderCounted := hr.readerCounted
  rw [State.ReaderCounted, hreader] at hreaderCounted
  exact {
    writer := .inl ⟨rfl, by rw [hr.shm]; rfl⟩
    reader := hreader
    stdout := by
      have hinput := hr.input
      rw [hr.eof (.inl rfl), List.map_nil, List.append_nil, hread] at hinput
      exact hinput.symm
    writerCounted := hcounted ▸ hcounts
    readerCounted := hreaderCounted }

/-! ## Steps of the reader -/

theorem Running.clearRead (hr : Running input s t eof g read) (hpc : s.reader = .clearRead) :
    Running input { s with sem := some Turn.reader.flags, reader := .testCnt } .reader eof g
      read := by
  have hreader := hr.reader_at hpc
  obtain rfl : t = .readFlag := hreader
  exact { hr with
    sem := rfl
    writer := hr.writer.pass (.inl rfl) nofun
    reader := rfl
    cnt := fun _ => hr.cnt (.inl rfl)
    stdout := (hr.stdout_at hpc :)
    readerCounted := (hr.readerCounted_at hpc :) }

theorem Running.addBytes (hr : Running input s t eof g read) (hpc : s.reader = .addBytes) :
    Running input { s with reader := .write, readerBytes := s.readerBytes + g.cnt } t eof g
      read := by
  have hreader := hr.reader_at hpc
  exact { hr with
    reader := hreader
    stdout := (hr.stdout_at hpc :)
    readerCounted := by
      obtain ⟨hxfrs, hbytes⟩ := hr.readerCounted_at hpc
      refine ⟨hxfrs, ?_⟩
      simp only [if_pos, hbytes]
      rfl }

theorem Running.write (hr : Running input s t eof g read) (hpc : s.reader = .write) :
    Running input { s with reader := .setWrite, stdout := s.stdout ++ [g.buf.take g.cnt] } t eof g
      read := by
  obtain ⟨rfl, rfl⟩ := hr.reader_at hpc
  have hcnt : g.cnt ≠ 0 := by
    have hiff := hr.cnt (.inr rfl)
    simpa using hiff
  have hblock : g.block = [g.buf.take g.cnt] := block_of_ne hcnt
  exact { hr with
    reader := ⟨rfl, rfl⟩
    stdout := by
      have hout := hr.stdout_at hpc
      change read = s.stdout ++ g.block at hout
      change read = s.stdout ++ [g.buf.take g.cnt] ++ []
      rw [hout, hblock, List.append_nil]
    readerCounted := by
      obtain ⟨hxfrs, hbytes⟩ := hr.readerCounted_at hpc
      have htotal := hr.total_block
      rw [hblock] at htotal
      refine ⟨?_, ?_⟩
      · change s.readerXfrs + 1 = (s.stdout ++ [g.buf.take g.cnt]).length
        rw [List.length_append, List.length_singleton, ← hxfrs]
        rfl
      · change s.readerBytes = total (s.stdout ++ [g.buf.take g.cnt]) + 0
        rw [total_append, htotal, hbytes]
        rfl }

theorem Running.setWrite (hr : Running input s t eof g read) (hpc : s.reader = .setWrite) :
    Running input
      { s with
        sem := some Turn.writeFlag.flags
        reader := .waitRead
        readerXfrs := s.readerXfrs + 1 } .writeFlag eof g read := by
  obtain ⟨rfl, rfl⟩ := hr.reader_at hpc
  exact { hr with
    sem := rfl
    writer := hr.writer.pass (.inr rfl) nofun
    reader := ⟨nofun, nofun⟩
    cnt := by simp
    stdout := (hr.stdout_at hpc :)
    readerCounted := (hr.readerCounted_at hpc :) }

theorem Running.setLast (hr : Running input s t eof g read) (hpc : s.reader = .setLast) :
    Running input { s with sem := some Turn.writeFlag.flags, reader := .finished } .writeFlag eof g
      read := by
  obtain ⟨rfl, rfl⟩ := hr.reader_at hpc
  exact { hr with
    sem := rfl
    writer := hr.writer.pass (.inr rfl) nofun
    reader := ⟨rfl, .inl rfl⟩
    cnt := by simp
    stdout := (hr.stdout_at hpc :)
    readerCounted := (hr.readerCounted_at hpc :) }

/-! ## The invariant -/

theorem inv_start (input : List (Chunk BUF_SIZE)) : Inv input (start input) :=
  .inl ⟨.inl ⟨rfl, rfl⟩, .inl rfl, rfl, rfl, rfl, rfl, rfl, rfl, rfl⟩

/-- The writer's steps up to the one that creates the segment. -/
theorem Starting.writerStep (hs : Starting input s) (h : writerStep fresh s = some s') :
    Inv input s' := by
  have hr := hs.reader
  unfold EventFlagXfr.writerStep at h
  obtain ⟨hw, hsem⟩ | ⟨hw, hsem⟩ | ⟨f, hw, hsem, hf⟩ | ⟨hw, hsem⟩ := hs.writer
  · rw [hw] at h
    obtain rfl := Option.some.inj h
    exact .inl { hs with writer := .inr (.inl ⟨rfl, rfl⟩) }
  · obtain ⟨f, hf⟩ := Option.isSome_iff_exists.1 hsem
    simp only [hw, State.writerSem, hf, Option.map_some] at h
    obtain rfl := Option.some.inj h
    exact .inl { hs with writer := .inr (.inr (.inl ⟨_, rfl, rfl, Function.update_self ..⟩)) }
  · simp only [hw, State.writerSem, hsem, Option.map_some] at h
    obtain rfl := Option.some.inj h
    have hflags : clearEventFlag f READ_SEM = Turn.writeFlag.flags := by
      funext i
      fin_cases i
      · exact hf
      · rfl
    exact .inl { hs with writer := .inr (.inr (.inr ⟨rfl, congrArg some hflags⟩)) }
  · rw [hw] at h
    obtain rfl := Option.some.inj h
    refine .inr (.inl ⟨.writeFlag, false, ⟨0, List.replicate BUF_SIZE 0⟩, [], ?_⟩)
    obtain ⟨hwx, hwb, hrx, hrb⟩ := hs.counts
    constructor
    · exact hsem
    · rw [hs.shm]
      rfl
    · exact ⟨rfl, rfl⟩
    · obtain hr | hr | hr := hr <;> rw [hr] <;> exact ⟨nofun, nofun⟩
    · simp
    · exact ⟨Nat.zero_le _, by simp⟩
    · rw [hs.stdin]
      rfl
    · simp
    · obtain hr | hr | hr := hr <;> rw [hr, hs.stdout] <;> rfl
    · exact ⟨[], rfl, hwx, hwb⟩
    · obtain hr | hr | hr := hr <;> simp [State.ReaderCounted, hr, hs.stdout, hrx, hrb, total]

/-- Until the segment exists, the reader can only look for the objects. -/
theorem Starting.readerStep (hs : Starting input s) (h : readerStep s = some s') :
    Inv input s' := by
  unfold EventFlagXfr.readerStep at h
  obtain hr | hr | hr := hs.reader
  · rw [hr] at h
    obtain rfl := Option.some.inj h
    refine .inl { hs with reader := ?_ }
    simp only
    split
    · exact .inr (.inl rfl)
    · exact .inr (.inr rfl)
  · rw [hr] at h
    obtain rfl := Option.some.inj h
    refine .inl { hs with reader := .inr (.inr ?_) }
    simp [hs.shm]
  · rw [hr] at h
    cases h

/-- An operation of the writer on the set that does not block. -/
theorem Running.writerSem (hr : Running input s t eof g read) (op : SemSet 2 → SemSet 2)
    (pc : WriterPc) :
    s.writerSem (fun f => some (op f)) pc
      = some { s with sem := some (op t.flags), writer := pc } := by
  simp only [State.writerSem, hr.sem, Option.map_some]

/-- A wait of the writer passes while the turn is in its flag. -/
theorem Running.writerWait (hr : Running input s t eof g read) {pc : WriterPc}
    (h : s.writerSem (waitForEventFlag · WRITE_SEM) pc = some s') :
    t = .writeFlag ∧ s' = { s with writer := pc } := by
  have hsem := hr.sem
  rw [State.writerSem, hsem] at h
  simp only [waitForEventFlag_write] at h
  split at h
  · rename_i ht
    refine ⟨ht, ?_⟩
    rw [Option.map_some, ← hsem] at h
    exact (Option.some.inj h).symm
  · cases h

theorem Running.writerShm (hr : Running input s t eof g read) (act : Shmseg → State BUF_SIZE) :
    s.writerShm act = act g := by
  simp only [State.writerShm, hr.shm]

/-- **A step of the writer** while both objects exist. -/
theorem Running.writerStep (hr : Running input s t eof g read)
    (h : writerStep fresh s = some s') : Inv input s' := by
  have hw := hr.writer
  unfold EventFlagXfr.writerStep at h
  cases hpc : s.writer <;> rw [hpc] at h hw <;>
    simp only [Turn.WriterAt, hr.writerSem, hr.writerShm] at h hw
  case shmat =>
    obtain rfl := Option.some.inj h
    obtain ⟨rfl, rfl⟩ := hw
    have hwait : Turn.writeFlag.WriterAt false g .waitWrite := ⟨nofun, rfl⟩
    exact .inr (.inl ⟨_, _, _, _, hr.moveWriter hwait (by rw [hpc]; rfl) (by rw [hpc]; rfl)
      nofun nofun⟩)
  case waitWrite =>
    obtain ⟨rfl, rfl⟩ := hr.writerWait h
    exact .inr (.inl ⟨_, _, _, _, hr.moveWriter ⟨rfl, hw.2⟩ (by rw [hpc]; rfl)
      (by rw [hpc]; rfl) nofun nofun⟩)
  case clearWrite =>
    obtain ⟨rfl, rfl⟩ := hw
    rw [clearEventFlag_write] at h
    obtain rfl := Option.some.inj h
    exact .inr (.inl ⟨_, _, _, _, hr.clearWrite hpc⟩)
  case read =>
    obtain ⟨rfl, rfl⟩ := hw
    obtain rfl := Option.some.inj h
    refine .inr (.inl ?_)
    split
    · rename_i hin
      exact ⟨_, _, _, _, hr.readEof hpc hin⟩
    · rename_i hin
      exact ⟨_, _, _, _, hr.readChunk hpc hin⟩
  case storeCnt n =>
    obtain ⟨rfl, rfl⟩ := hw
    obtain rfl := Option.some.inj h
    exact .inr (.inl ⟨_, _, _, _, hr.storeCnt hpc⟩)
  case setRead =>
    obtain ⟨rfl, rfl⟩ := hw
    rw [setEventFlag_read] at h
    obtain rfl := Option.some.inj h
    exact .inr (.inl ⟨_, _, _, _, hr.setRead hpc⟩)
  case testCnt =>
    obtain rfl := Option.some.inj h
    obtain ⟨ht, hiff⟩ := hw
    refine .inr (.inl ?_)
    split
    · rename_i hcnt
      refine ⟨_, _, _, _, hr.moveWriter ⟨ht, hiff.1 hcnt⟩ (by rw [hpc]; rfl) ?_ nofun nofun⟩
      rw [hpc]
      exact (block_of_eq hcnt).symm
    · rename_i hcnt
      have heof : eof = false := by simpa [hcnt] using hiff
      exact ⟨_, _, _, _, hr.moveWriter ⟨ht, hcnt, heof⟩ (by rw [hpc]; rfl) (by rw [hpc]; rfl)
        nofun nofun⟩
  case advance =>
    obtain rfl := Option.some.inj h
    exact .inr (.inl ⟨_, _, _, _, hr.advance hpc⟩)
  case waitLast =>
    obtain ⟨rfl, rfl⟩ := hr.writerWait h
    exact .inr (.inl ⟨_, _, _, _, hr.moveWriter ⟨rfl, hw.2⟩ (by rw [hpc]; rfl)
      (by rw [hpc]; rfl) nofun nofun⟩)
  case clearLast =>
    obtain ⟨rfl, rfl⟩ := hw
    rw [clearEventFlag_write] at h
    obtain rfl := Option.some.inj h
    exact .inr (.inl ⟨_, _, _, _, hr.clearLast hpc⟩)
  case removeSem =>
    rw [hr.sem] at h
    obtain rfl := Option.some.inj h
    exact .inr (.inr (hr.removeSem hpc))

/-- An operation of the reader on the set that does not block. -/
theorem Running.readerSem (hr : Running input s t eof g read) (op : SemSet 2 → SemSet 2)
    (pc : ReaderPc) :
    s.readerSem (fun f => some (op f)) pc
      = some { s with sem := some (op t.flags), reader := pc } := by
  simp only [State.readerSem, hr.sem, Option.map_some]

/-- The wait of the reader passes while the turn is in its flag. -/
theorem Running.readerWait (hr : Running input s t eof g read) {pc : ReaderPc}
    (h : s.readerSem (waitForEventFlag · READ_SEM) pc = some s') :
    t = .readFlag ∧ s' = { s with reader := pc } := by
  have hsem := hr.sem
  rw [State.readerSem, hsem] at h
  simp only [waitForEventFlag_read] at h
  split at h
  · rename_i ht
    refine ⟨ht, ?_⟩
    rw [Option.map_some, ← hsem] at h
    exact (Option.some.inj h).symm
  · cases h

theorem Running.readerShm (hr : Running input s t eof g read) (act : Shmseg → State BUF_SIZE) :
    s.readerShm act = act g := by
  simp only [State.readerShm, hr.shm]

/-- A reader that has the objects goes on to look for the next one, or to its wait. -/
theorem Running.attach (hr : Running input s t eof g read) {pc : ReaderPc}
    (hpc : s.reader = .semget ∨ s.reader = .shmget ∨ s.reader = .shmat)
    (hnext : pc = .shmget ∨ pc = .shmat ∨ pc = .waitRead) :
    Running input { s with reader := pc } t eof g read := by
  have hreader := hr.reader
  refine hr.moveReader pc ?_ ?_ ?_ ?_
  · obtain h | h | h := hpc <;> rw [h] at hreader <;>
      obtain rfl | rfl | rfl := hnext <;> exact hreader
  · obtain h | h | h := hpc <;> rw [h] <;> obtain rfl | rfl | rfl := hnext <;> rfl
  · obtain h | h | h := hpc <;> rw [h] <;> obtain rfl | rfl | rfl := hnext <;> simp
  · obtain h | h | h := hpc <;> rw [h] <;> obtain rfl | rfl | rfl := hnext <;> simp

/-- **A step of the reader** while both objects exist. -/
theorem Running.readerStep (hr : Running input s t eof g read) (h : readerStep s = some s') :
    ∃ t eof g read, Running input s' t eof g read := by
  have hreader := hr.reader
  unfold EventFlagXfr.readerStep at h
  cases hpc : s.reader <;> rw [hpc] at h hreader <;>
    simp only [Turn.ReaderAt, hr.readerSem, hr.readerShm, Option.map_some] at h hreader
  case semget =>
    rw [if_pos (by rw [hr.sem]; rfl)] at h
    obtain rfl := Option.some.inj h
    exact ⟨_, _, _, _, hr.attach (.inl hpc) (.inl rfl)⟩
  case shmget =>
    rw [if_pos (by rw [hr.shm]; rfl)] at h
    obtain rfl := Option.some.inj h
    exact ⟨_, _, _, _, hr.attach (.inr (.inl hpc)) (.inr (.inl rfl))⟩
  case shmat =>
    rw [if_pos (by rw [hr.shm]; rfl)] at h
    obtain rfl := Option.some.inj h
    exact ⟨_, _, _, _, hr.attach (.inr (.inr hpc)) (.inr (.inr rfl))⟩
  case waitRead =>
    obtain ⟨rfl, rfl⟩ := hr.readerWait h
    exact ⟨_, _, _, _, hr.moveReader .clearRead rfl (by rw [hpc]; rfl) (by simp [hpc])
      (by simp [hpc])⟩
  case clearRead =>
    obtain rfl := hreader
    rw [clearEventFlag_read] at h
    obtain rfl := Option.some.inj h
    exact ⟨_, _, _, _, hr.clearRead hpc⟩
  case testCnt =>
    obtain rfl := Option.some.inj h
    subst hreader
    have hiff := hr.cnt (.inr rfl)
    split
    · rename_i hcnt
      refine ⟨_, _, _, _, hr.moveReader .shmdt ⟨rfl, hiff.1 hcnt⟩ ?_ (by simp [hpc])
        (by simp [hpc])⟩
      rw [hpc]
      exact (block_of_eq hcnt).symm
    · rename_i hcnt
      have heof : eof = false := by simpa [hcnt] using hiff
      exact ⟨_, _, _, _, hr.moveReader .addBytes ⟨rfl, heof⟩ (by rw [hpc]; rfl) (by simp [hpc])
        (by simp [hpc])⟩
  case addBytes =>
    obtain rfl := Option.some.inj h
    exact ⟨_, _, _, _, hr.addBytes hpc⟩
  case write =>
    obtain rfl := Option.some.inj h
    exact ⟨_, _, _, _, hr.write hpc⟩
  case setWrite =>
    obtain ⟨rfl, rfl⟩ := hreader
    rw [setEventFlag_write] at h
    obtain rfl := Option.some.inj h
    exact ⟨_, _, _, _, hr.setWrite hpc⟩
  case shmdt =>
    obtain rfl := Option.some.inj h
    exact ⟨_, _, _, _, hr.moveReader .setLast hreader (by rw [hpc]; rfl) (by simp [hpc])
      (by simp [hpc])⟩
  case setLast =>
    obtain ⟨rfl, rfl⟩ := hreader
    rw [setEventFlag_write] at h
    obtain rfl := Option.some.inj h
    exact ⟨_, _, _, _, hr.setLast hpc⟩
  case finished => cases h
  case notFound => cases h

/-- The writer's last steps; the reader has none left. -/
theorem Closed.step (hs : Closed input s) {l : Label}
    (h : (machine input fresh).step s l = some s') : Closed input s' := by
  cases l with
  | reader =>
    simp only [machine, readerStep, hs.reader] at h
    cases h
  | writer =>
    simp only [machine, EventFlagXfr.writerStep] at h
    obtain ⟨hw, hshm⟩ | ⟨hw, hshm⟩ | hw := hs.writer
    · rw [hw] at h
      obtain rfl := Option.some.inj h
      exact { hs with writer := .inr (.inl ⟨rfl, hshm⟩) }
    · rw [hw] at h
      simp only [if_pos hshm] at h
      obtain rfl := Option.some.inj h
      exact { hs with writer := .inr (.inr rfl) }
    · rw [hw] at h
      cases h

theorem Inv.step (hs : Inv input s) {l : Label} (h : (machine input fresh).step s l = some s') :
    Inv input s' := by
  obtain hs | ⟨t, eof, g, read, hr⟩ | hs := hs
  · cases l with
    | writer => exact hs.writerStep h
    | reader => exact hs.readerStep h
  · cases l with
    | writer => exact hr.writerStep h
    | reader => exact .inr (.inl (hr.readerStep h))
  · exact .inr (.inr (hs.step h))

theorem inv_reachable (h : (machine input fresh).Reachable s) : Inv input s :=
  h.invariant (inv_start input) fun _ _ _ hs _ hstep => hs.step hstep

/-! ## Runs end -/

/-- The steps that the writer has left, at most. -/
def State.writerLeft (s : State BUF_SIZE) : ℕ :=
  match s.writer with
  | .semget => 16 + 7 * s.stdin.length
  | .initWrite => 15 + 7 * s.stdin.length
  | .initRead => 14 + 7 * s.stdin.length
  | .shmget => 13 + 7 * s.stdin.length
  | .shmat => 12 + 7 * s.stdin.length
  | .waitWrite => 11 + 7 * s.stdin.length
  | .clearWrite => 10 + 7 * s.stdin.length
  | .read => 9 + 7 * s.stdin.length
  | .storeCnt n => if n = 0 then 8 else 15 + 7 * s.stdin.length
  | .setRead => if s.shm.elim 0 Shmseg.cnt = 0 then 7 else 14 + 7 * s.stdin.length
  | .testCnt => if s.shm.elim 0 Shmseg.cnt = 0 then 6 else 13 + 7 * s.stdin.length
  | .advance => 12 + 7 * s.stdin.length
  | .waitLast => 5
  | .clearLast => 4
  | .removeSem => 3
  | .shmdt => 2
  | .removeShm => 1
  | .finished | .failed => 0

/-- The steps that the reader has left, at most, when `n` blocks are still to be written. -/
def ReaderPc.left (n : ℕ) : ReaderPc → ℕ
  | .semget => 8 + 6 * n
  | .shmget => 7 + 6 * n
  | .shmat => 6 + 6 * n
  | .waitRead => 5 + 6 * n
  | .clearRead => 4 + 6 * n
  | .testCnt => 3 + 6 * n
  | .addBytes => 2 + 6 * n
  | .write => 1 + 6 * n
  | .setWrite => 6 + 6 * n
  | .shmdt => 2
  | .setLast => 1
  | .finished | .notFound | .failed => 0

/-- The steps that both have left, at most. -/
def State.left (input : List (Chunk BUF_SIZE)) (s : State BUF_SIZE) : ℕ :=
  s.writerLeft + s.reader.left (input.length - s.stdout.length)

/-- An operation of the writer on the set moves only the writer and the semaphores. -/
theorem writerSem_cases {op : SemSet 2 → Option (SemSet 2)} {pc : WriterPc}
    (h : s.writerSem op pc = some s') :
    s' = { s with writer := .failed } ∨ ∃ f, s' = { s with sem := some f, writer := pc } := by
  unfold State.writerSem at h
  split at h
  · exact .inl (Option.some.inj h).symm
  · obtain ⟨f, -, rfl⟩ := Option.map_eq_some_iff.1 h
    exact .inr ⟨f, rfl⟩

theorem writerStep_left (h : writerStep fresh s = some s') :
    s'.writerLeft < s.writerLeft ∧ s'.reader = s.reader ∧ s'.stdout = s.stdout := by
  unfold writerStep at h
  cases hpc : s.writer <;> rw [hpc] at h
  case initWrite | initRead | waitWrite | clearWrite | waitLast | clearLast =>
    obtain rfl | ⟨f, rfl⟩ := writerSem_cases h <;> simp [State.writerLeft, hpc]
  case setRead =>
    obtain rfl | ⟨f, rfl⟩ := writerSem_cases h <;> simp [State.writerLeft, hpc]
    all_goals split <;> omega
  case semget | shmget | shmdt =>
    obtain rfl := Option.some.inj h
    simp [State.writerLeft, hpc]
  case removeSem | removeShm =>
    obtain rfl := Option.some.inj h
    split <;> simp [State.writerLeft, hpc]
  case finished | failed => cases h
  case shmat | advance =>
    obtain rfl := Option.some.inj h
    unfold State.writerShm
    split <;> simp [State.writerLeft, hpc]
  case read =>
    obtain rfl := Option.some.inj h
    clear h
    unfold State.writerShm
    split
    · simp [State.writerLeft, hpc]
    · cases hin : s.stdin with
      | nil => simp [State.writerLeft, hpc, hin]
      | cons c stdin =>
        have hne : c.bytes.length ≠ 0 := c.pos.ne'
        simp only [State.writerLeft, hpc, hin, if_neg hne, List.length_cons, and_self, and_true]
        omega
  case storeCnt n =>
    obtain rfl := Option.some.inj h
    unfold State.writerShm
    by_cases hn : n = 0
    · split <;> simp [State.writerLeft, hpc, hn]
    · split <;> simp [State.writerLeft, hpc, hn]
  case testCnt =>
    obtain rfl := Option.some.inj h
    unfold State.writerShm
    split
    · simp only [State.writerLeft, hpc, and_self, and_true]
      split <;> omega
    · rename_i g hshm
      by_cases hcnt : g.cnt = 0
      · simp [State.writerLeft, hpc, hshm, hcnt]
      · simp [State.writerLeft, hpc, hshm, hcnt]

/-- An operation of the reader on the set moves only the reader and the semaphores. -/
theorem readerSem_cases {op : SemSet 2 → Option (SemSet 2)} {pc : ReaderPc}
    (h : s.readerSem op pc = some s') :
    s' = { s with reader := .failed } ∨ ∃ f, s' = { s with sem := some f, reader := pc } := by
  unfold State.readerSem at h
  split at h
  · exact .inl (Option.some.inj h).symm
  · obtain ⟨f, -, rfl⟩ := Option.map_eq_some_iff.1 h
    exact .inr ⟨f, rfl⟩

/-- A step of the reader, when at its `write` there is a block of the input left. -/
theorem readerStep_left (hleft : s.reader = .write → s.stdout.length < input.length)
    (h : readerStep s = some s') :
    s'.reader.left (input.length - s'.stdout.length)
        < s.reader.left (input.length - s.stdout.length) ∧ s'.writerLeft = s.writerLeft := by
  unfold readerStep at h
  cases hpc : s.reader <;> rw [hpc] at h
  case semget | shmget | shmat =>
    obtain rfl := Option.some.inj h
    split <;> simp [ReaderPc.left, State.writerLeft]
  case shmdt =>
    obtain rfl := Option.some.inj h
    simp [ReaderPc.left, State.writerLeft]
  case waitRead | clearRead | setLast =>
    obtain rfl | ⟨f, rfl⟩ := readerSem_cases h <;> simp [ReaderPc.left, State.writerLeft]
  case setWrite =>
    obtain ⟨u, hu, rfl⟩ := Option.map_eq_some_iff.1 h
    obtain rfl | ⟨f, rfl⟩ := readerSem_cases hu <;> simp [ReaderPc.left, State.writerLeft]
  case testCnt =>
    obtain rfl := Option.some.inj h
    unfold State.readerShm
    split
    · simp [ReaderPc.left, State.writerLeft]
    · simp only [State.writerLeft, and_true]
      split <;> simp only [ReaderPc.left] <;> omega
  case addBytes =>
    obtain rfl := Option.some.inj h
    unfold State.readerShm
    split <;> simp [ReaderPc.left, State.writerLeft]
  case write =>
    have hlt := hleft hpc
    obtain rfl := Option.some.inj h
    unfold State.readerShm
    split
    · simp [ReaderPc.left, State.writerLeft]
    · refine ⟨?_, rfl⟩
      simp only [ReaderPc.left, List.length_append, List.length_singleton]
      omega
  case finished | notFound | failed => cases h

/-- What is written is part of the input. -/
theorem Inv.stdout_prefix (hs : Inv input s) : s.stdout <+: input.map Chunk.bytes := by
  obtain hs | ⟨t, eof, g, read, hr⟩ | hs := hs
  · rw [hs.stdout]
    exact List.nil_prefix
  · rw [hr.input, hr.stdout, List.append_assoc]
    exact List.prefix_append _ _
  · rw [hs.stdout]

/-- At its `write` the reader has a block of the input in front of it. -/
theorem Inv.length_stdout_lt (hs : Inv input s) (hpc : s.reader = .write) :
    s.stdout.length < input.length := by
  obtain hs | ⟨t, eof, g, read, hr⟩ | hs := hs
  · obtain h | h | h := hs.reader <;> rw [hpc] at h <;> cases h
  · obtain ⟨rfl, rfl⟩ := hr.reader_at hpc
    have hcnt : g.cnt ≠ 0 := by simpa using hr.cnt (.inr rfl)
    have hout := hr.stdout_at hpc
    have hlen := congrArg List.length hr.input
    have hblock : read.length = s.stdout.length + 1 := by
      change read = s.stdout ++ g.block at hout
      rw [hout, block_of_ne hcnt, List.length_append, List.length_singleton]
    rw [List.length_map, List.length_append, List.length_map] at hlen
    omega
  · rw [hs.reader] at hpc
    cases hpc

theorem step_left (hs : Inv input s) {l : Label} (h : (machine input fresh).step s l = some s') :
    s'.left input < s.left input := by
  unfold State.left
  cases l with
  | writer =>
    obtain ⟨hlt, hreader, hstdout⟩ := writerStep_left h
    rw [hreader, hstdout]
    omega
  | reader =>
    obtain ⟨hlt, hwriter⟩ := readerStep_left hs.length_stdout_lt h
    rw [hwriter]
    omega

theorem left_start (input : List (Chunk BUF_SIZE)) :
    (start input).left input = 24 + 13 * input.length := by
  simp only [State.left, State.writerLeft, ReaderPc.left, start, List.length_nil, Nat.sub_zero]
  omega

/-- A run has at most `24 + 13 n` steps on an input of `n` chunks. -/
theorem run_length_le (ls : List Label) (h : (machine input fresh).run (start input) ls = some s) :
    ls.length ≤ 24 + 13 * input.length := by
  have hle := Machine.Reachable.length_le (M := machine input fresh)
    (fun s l s' hs hstep => step_left (inv_reachable hs) hstep) .init ls h
  have hinit : (machine input fresh).init = start input := rfl
  rw [hinit, left_start] at hle
  omega

/-! ## The transfer -/

/-- The writer has taken the segment to fill it and not yet handed it over. -/
def WriterPc.Fills : WriterPc → Prop
  | .read | .storeCnt _ | .setRead => True
  | _ => False

/-- The reader has taken the segment and not yet handed it back. -/
def ReaderPc.Uses : ReaderPc → Prop
  | .testCnt | .addBytes | .write | .setWrite | .shmdt | .setLast => True
  | _ => False

/-- The writer has removed the semaphore set, and maybe the segment. -/
def WriterPc.Removed : WriterPc → Prop
  | .shmdt | .removeShm | .finished => True
  | _ => False

/-- Both processes have come to their end. -/
def State.Finished (s : State BUF_SIZE) : Prop := s.writer = .finished ∧ s.reader = .finished

theorem Inv.exclusive (hs : Inv input s) : ¬ (s.writer.Fills ∧ s.reader.Uses) := by
  rintro ⟨hfills, huses⟩
  obtain hs | ⟨t, eof, g, read, hr⟩ | hs := hs
  · obtain h | h | h := hs.reader <;> rw [h] at huses <;> exact huses
  · have hw := hr.writer
    have hreader := hr.reader
    have ht : t = .writer := by
      cases hpc : s.writer <;> rw [hpc] at hw hfills <;> first | exact hfills.elim | exact hw.1
    subst ht
    cases hpc : s.reader <;> rw [hpc] at hreader huses <;>
      simp_all [ReaderPc.Uses, Turn.ReaderAt]
  · rw [hs.reader] at huses
    exact huses

theorem Inv.removed (hs : Inv input s) (h : s.writer.Removed) : Closed input s := by
  obtain hs | ⟨t, eof, g, read, hr⟩ | hs := hs
  · obtain ⟨hw, -⟩ | ⟨hw, -⟩ | ⟨f, hw, -⟩ | ⟨hw, -⟩ := hs.writer <;> rw [hw] at h <;> exact h.elim
  · have hw := hr.writer
    cases hpc : s.writer <;> rw [hpc] at hw h <;> first | exact h.elim | exact hw.elim
  · exact hs

theorem Inv.not_failed (hs : Inv input s) : s.writer ≠ .failed ∧ s.reader ≠ .failed := by
  obtain hs | ⟨t, eof, g, read, hr⟩ | hs := hs
  · constructor
    · obtain ⟨hw, -⟩ | ⟨hw, -⟩ | ⟨f, hw, -⟩ | ⟨hw, -⟩ := hs.writer <;> rw [hw] <;> nofun
    · obtain h | h | h := hs.reader <;> rw [h] <;> nofun
  · constructor
    · intro h
      have hw := hr.writer
      rw [h] at hw
      exact hw
    · intro h
      have hreader := hr.reader
      rw [h] at hreader
      exact hreader
  · constructor
    · obtain ⟨hw, -⟩ | ⟨hw, -⟩ | hw := hs.writer <;> rw [hw] <;> nofun
    · rw [hs.reader]
      nofun

/-- The writer can move while it has the turn or its flag has it. -/
theorem Running.writer_moves (hr : Running input s t eof g read) (fresh : SemSet 2)
    (ht : t = .writeFlag ∨ t = .writer) : (EventFlagXfr.writerStep fresh s).isSome := by
  have hw := hr.writer
  unfold EventFlagXfr.writerStep
  cases hpc : s.writer <;> rw [hpc] at hw <;>
    simp only [Turn.WriterAt, hr.writerSem, hr.writerShm, Option.isSome_some] at hw ⊢
  case waitWrite | waitLast =>
    obtain rfl := ht.resolve_right hw.1
    simp [State.writerSem, hr.sem, waitForEventFlag_write]

/-- A reader that found the objects can move while it has the turn or its flag has it. -/
theorem Running.reader_moves (hr : Running input s t eof g read)
    (ht : t = .readFlag ∨ t = .reader) (hfound : s.reader ≠ .notFound) :
    (EventFlagXfr.readerStep s).isSome := by
  have hreader := hr.reader
  unfold EventFlagXfr.readerStep
  cases hpc : s.reader <;> rw [hpc] at hreader <;>
    simp only [Turn.ReaderAt, hr.readerSem, hr.readerShm, Option.map_some,
      Option.isSome_some] at hreader ⊢
  case waitRead =>
    obtain rfl := ht.resolve_right hreader.1
    simp [State.readerSem, hr.sem, waitForEventFlag_read]
  case finished =>
    obtain ⟨-, rfl | rfl⟩ := hreader <;> simp at ht
  case notFound => exact absurd hpc hfound

/-- **Nothing gets stuck** once the reader has found the objects. -/
theorem Inv.not_stuck (hs : Inv input s) (hfound : s.reader ≠ .notFound) (hfin : ¬ s.Finished) :
    ¬ (machine input fresh).Stuck s := by
  intro hstuck
  have hwriter : writerStep fresh s = none := hstuck .writer
  have hreader : readerStep s = none := hstuck .reader
  obtain hs | ⟨t, eof, g, read, hr⟩ | hs := hs
  · unfold readerStep at hreader
    obtain h | h | h := hs.reader
    · rw [h] at hreader
      cases hreader
    · rw [h] at hreader
      cases hreader
    · exact hfound h
  · by_cases ht : t = .writeFlag ∨ t = .writer
    · have hmoves := hr.writer_moves fresh ht
      rw [hwriter] at hmoves
      cases hmoves
    · have ht' : t = .readFlag ∨ t = .reader := by cases t <;> simp_all
      have hmoves := hr.reader_moves ht' hfound
      rw [hreader] at hmoves
      cases hmoves
  · unfold writerStep at hwriter
    obtain ⟨hw, -⟩ | ⟨hw, -⟩ | hw := hs.writer
    · rw [hw] at hwriter
      cases hwriter
    · rw [hw] at hwriter
      cases hwriter
    · exact hfin ⟨hw, hs.reader⟩

/-- **The transfer is correct.** In every reachable state of the writer and a reader on an input,
the writer's fill and the reader's use of the segment do not overlap, what the reader has written
is a prefix of the input, the objects are removed only after the reader has finished, and no call
on them fails. When both have finished, the reader has written the input, block by block, and both
counts agree. If the reader found the objects when it was started, no state before that is stuck;
and no run goes on for ever. -/
theorem transfer_correct (h : (machine input fresh).Reachable s) :
    ¬ (s.writer.Fills ∧ s.reader.Uses) ∧
      s.stdout <+: input.map Chunk.bytes ∧
      (s.writer.Removed → s.reader = .finished) ∧
      s.writer ≠ .failed ∧ s.reader ≠ .failed ∧
      (s.Finished → s.stdout = input.map Chunk.bytes ∧ s.writerXfrs = s.readerXfrs ∧
        s.writerBytes = s.readerBytes ∧ s.readerBytes = total (input.map Chunk.bytes)) ∧
      (s.reader ≠ .notFound → ¬ s.Finished → ¬ (machine input fresh).Stuck s) ∧
      ∀ ls s', (machine input fresh).run (start input) ls = some s' →
        ls.length ≤ 24 + 13 * input.length := by
  have hs := inv_reachable h
  obtain ⟨hwf, hrf⟩ := hs.not_failed
  refine ⟨hs.exclusive, hs.stdout_prefix, fun hrem => (hs.removed hrem).reader, hwf, hrf, ?_, ?_,
    fun ls s' hrun => run_length_le ls hrun⟩
  · rintro ⟨hw, -⟩
    have hc := hs.removed (by rw [hw]; trivial)
    obtain ⟨hwx, hwb⟩ := hc.writerCounted
    obtain ⟨hrx, hrb⟩ := hc.readerCounted
    exact ⟨hc.stdout, hwx.trans hrx.symm, hwb.trans hrb.symm, hc.stdout ▸ hrb⟩
  · exact hs.not_stuck

/-- Both processes after the transfer of one block of one byte. -/
def oneBlockDone : State 1 where
  writer := .finished
  reader := .finished
  sem := none
  shm := none
  stdin := []
  stdout := [[7]]
  writerXfrs := 1
  writerBytes := 1
  readerXfrs := 1
  readerBytes := 1

/-- An interleaving of that transfer in which the reader is started after the writer has created
the objects. -/
def oneBlockRun : List Label :=
  List.replicate 5 Label.writer ++ List.replicate 3 Label.reader ++
    List.replicate 5 Label.writer ++ List.replicate 6 Label.reader ++
    List.replicate 8 Label.writer ++ List.replicate 5 Label.reader ++
    List.replicate 5 Label.writer

theorem oneBlock_reachable :
    (machine [(⟨[7], by decide, by decide⟩ : Chunk 1)] ![0, 0]).Reachable oneBlockDone :=
  Machine.Reachable.run .init oneBlockRun rfl

theorem transfer_correct_oneBlock :
    oneBlockDone.stdout = [[7]] ∧ oneBlockDone.writerXfrs = oneBlockDone.readerXfrs :=
  have hdone := (transfer_correct oneBlock_reachable).2.2.2.2.2.1 ⟨rfl, rfl⟩
  ⟨hdone.1, hdone.2.1⟩

/-- **A reader that comes too early** strands the writer: it ends because there are no objects, and
after its first block the writer waits for a flag that nobody sets. -/
theorem early_reader_strands_writer :
    ∃ s, (machine [(⟨[7], by decide, by decide⟩ : Chunk 1)] ![0, 0]).Reachable s ∧ ¬ s.Finished ∧
      (machine [(⟨[7], by decide, by decide⟩ : Chunk 1)] ![0, 0]).Stuck s := by
  refine ⟨_, Machine.Reachable.run .init (.reader :: List.replicate 12 .writer) rfl, ?_, ?_⟩
  · rintro ⟨hw, -⟩
    cases hw
  · intro l
    cases l <;> rfl

end TlpiLearn.EventFlagXfr
