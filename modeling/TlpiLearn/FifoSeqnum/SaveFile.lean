import TlpiLearn.Foundations.File
import Mathlib.Tactic

/-!
# The save file of the sequence-number server

`44_3456/fifo_seqnum_server.c` (and its first version `44_3.c`) keeps its counter in a save file:
it loads or creates the file when it starts, and after each answered request writes the counter
and seeks back to the start. The model follows the offset of `save_fd` through the start-up
branches and the loop.

When the file existed, the `read` of the start-up leaves the offset behind the number and nothing
seeks back, so the first save of such a lifetime goes to the wrong place and only the second one
repairs it. `saves_agree_iff` says for which histories of lifetimes every restart finds the
counter that was in memory.
-/

namespace TlpiLearn.FifoSeqnum

/-- The outcome of `open(clientFifo, O_WRONLY)` or of its nonblocking variant. -/
inductive OpenOutcome
  | opened
  /-- `-1` with `errno == ENXIO`. -/
  | enxio
  /-- `-1` with another error. -/
  | failed
  deriving DecidableEq, Repr

/-- One pass of the request loop. -/
inductive Event
  /-- `read` of the server FIFO gives something else than a whole request. -/
  | discarded
  /-- A request for `seqLen` numbers; `opens i` is the outcome of the `i`-th `open`. -/
  | request (seqLen : BitVec 32) (opens : ℕ → OpenOutcome)

/-- The polling of `fifo_seqnum_server.c`, with `n` attempts left before the `i`-th. -/
def pollOpen (opens : ℕ → OpenOutcome) : ℕ → ℕ → Bool
  | 0, _ => false
  | n + 1, i =>
    match opens i with
    | .enxio => pollOpen opens n (i + 1)
    | .opened => true
    | .failed => false

/-- How `fifo_seqnum_server.c` opens the client FIFO: up to 20000 nonblocking attempts. -/
def openPolling (opens : ℕ → OpenOutcome) : Bool := pollOpen opens 20000 0

/-- How `44_3.c` and `44_4.c` open it: one blocking attempt. -/
def openBlocking (opens : ℕ → OpenOutcome) : Bool := opens 0 == .opened

/-- The counter in memory and the open save file. -/
structure Server where
  seqNum : BitVec 32
  saveFile : OpenFile
  deriving DecidableEq, Repr

/-- Load or create the save file; `none` is the `errExit("read")` on a file that is too short. -/
def startUp : Option (List UInt8) → Option Server
  | none => some ⟨0, (OpenFile.write ⟨[], 0⟩ (encodeInt 0)).lseekSet 0⟩
  | some contents =>
    let r := OpenFile.read ⟨contents, 0⟩ 4
    if r.1.length = 4 then some ⟨decodeInt r.1, r.2⟩ else none

/-- The part of the loop after the response: advance, save, seek back. -/
def Server.advance (s : Server) (seqLen : BitVec 32) : Server :=
  let seqNum := s.seqNum + seqLen
  ⟨seqNum, (s.saveFile.write (encodeInt seqNum)).lseekSet 0⟩

variable (openClient : (ℕ → OpenOutcome) → Bool)

/-- One pass of the request loop. Errors of the `write` to the client are only reported. -/
def loopBody (s : Server) : Event → Server
  | .discarded => s
  | .request seqLen opens => if openClient opens then s.advance seqLen else s

/-- The requests of a lifetime, served one after the other. -/
def serve (s : Server) (evs : List Event) : Server := evs.foldl (loopBody openClient) s

/-- The lengths of the requests that are answered. -/
def answered (evs : List Event) : List (BitVec 32) :=
  evs.filterMap fun
    | .discarded => none
    | .request seqLen opens => if openClient opens then some seqLen else none

/-- Every restart of the history finds in the file what the previous lifetime had in memory. -/
def SavesAgree : Option (List UInt8) → List (List Event) → Prop
  | _, [] => True
  | disk, evs :: rest =>
    ∃ s ∈ startUp disk,
      (startUp (serve openClient s evs).saveFile.contents).map Server.seqNum =
        some (serve openClient s evs).seqNum ∧
      SavesAgree (serve openClient s evs).saveFile.contents rest

/-- The lifetimes of a history that find a save file when they start. -/
def startedOnExisting (disk : Option (List UInt8)) (lifetimes : List (List Event)) :
    List (List Event) :=
  if disk.isNone then lifetimes.tail else lifetimes

/-- A lifetime answers exactly one request, and that request moves the counter. -/
def AnswersOnce (evs : List Event) : Prop := ∃ n ≠ 0, answered openClient evs = [n]

/-! ## One lifetime -/

/-- The file starts with a number. -/
def Server.stored (s : Server) : BitVec 32 := decodeInt (s.saveFile.contents.take 4)

/-- What a lifetime keeps about its file: it holds a number at its start, and the next save goes
to the start or right behind that number. -/
structure Server.FileOk (s : Server) : Prop where
  length : 4 ≤ s.saveFile.contents.length
  offset : s.saveFile.offset = 0 ∨ s.saveFile.offset = 4

variable {openClient}

theorem serve_eq_foldl (s : Server) (evs : List Event) :
    serve openClient s evs = (answered openClient evs).foldl Server.advance s := by
  induction evs generalizing s with
  | nil => rfl
  | cons ev evs ih =>
    rw [serve, List.foldl_cons]
    refine (ih _).trans ?_
    cases ev with
    | discarded => rfl
    | request n opens =>
      by_cases h : openClient opens = true
      · simp [answered, loopBody, h]
      · simp [answered, loopBody, h]

/-- Restarting on the file of a server. -/
theorem startUp_contents {s : Server} (h : s.FileOk) :
    startUp s.saveFile.contents = some ⟨s.stored, ⟨s.saveFile.contents, 4⟩⟩ := by
  have hlen : (s.saveFile.contents.take 4).length = 4 := by
    rw [List.length_take, min_eq_left h.length]
  simp [startUp, OpenFile.read, Server.stored, hlen]

theorem FileOk.advance {s : Server} (h : s.FileOk) (n : BitVec 32) : (s.advance n).FileOk :=
  ⟨h.length.trans (OpenFile.length_write_le _ _), .inl rfl⟩

theorem FileOk.foldl {s : Server} (h : s.FileOk) (ns : List (BitVec 32)) :
    (ns.foldl Server.advance s).FileOk := by
  induction ns generalizing s with
  | nil => exact h
  | cons n ns ih => exact ih (FileOk.advance h n)

/-- A save at the start of the file is what a restart finds. -/
theorem stored_advance_zero {s : Server} (h : s.saveFile.offset = 0) (n : BitVec 32) :
    (s.advance n).stored = (s.advance n).seqNum := by
  have htake := OpenFile.take_write_zero s.saveFile (encodeInt (s.seqNum + n)) h
  rw [length_encodeInt] at htake
  simp [Server.stored, Server.advance, htake]

/-- A save behind the number leaves the old number to be found. -/
theorem stored_advance_four {s : Server} (hs : s.FileOk) (h : s.saveFile.offset = 4)
    (n : BitVec 32) : (s.advance n).stored = s.stored := by
  have htake := OpenFile.take_write s.saveFile (encodeInt (s.seqNum + n)) (n := 4) (by omega)
    hs.length
  simp [Server.stored, Server.advance, htake]

/-- Once the offset is back at the start, file and memory agree for good. -/
theorem stored_foldl {s : Server} (hoff : s.saveFile.offset = 0) (hs : s.stored = s.seqNum)
    (ns : List (BitVec 32)) :
    (ns.foldl Server.advance s).stored = (ns.foldl Server.advance s).seqNum := by
  induction ns generalizing s with
  | nil => exact hs
  | cons n ns ih => exact ih rfl (stored_advance_zero hoff n)

variable (openClient) in
/-- **A lifetime on an existing file** leaves file and memory in agreement unless it answers
exactly one request that moves the counter. -/
theorem stored_serve_existing {s : Server} (hok : s.FileOk) (hoff : s.saveFile.offset = 4)
    (hs : s.stored = s.seqNum) (evs : List Event) :
    (serve openClient s evs).stored = (serve openClient s evs).seqNum ↔
      ¬ AnswersOnce openClient evs := by
  rw [serve_eq_foldl, AnswersOnce]
  rcases answered openClient evs with _ | ⟨n, _ | ⟨m, ns⟩⟩
  · simpa using hs
  · -- one answer: its save went behind the number
    have hstale : (s.advance n).stored = (s.advance n).seqNum ↔ n = 0 := by
      rw [stored_advance_four hok hoff, hs]
      exact BitVec.self_eq_add_right
    simpa [not_imp_not] using hstale
  · -- the second save repairs the file
    have hrepair : ((s.advance n).advance m).stored = ((s.advance n).advance m).seqNum :=
      stored_advance_zero rfl m
    simpa using stored_foldl rfl hrepair ns

/-! ## Histories of lifetimes -/

/-- On an existing file with a number, a history agrees exactly when no lifetime answers just one
request that moves the counter. -/
theorem savesAgree_existing {contents : List UInt8} (hlen : 4 ≤ contents.length)
    (lifetimes : List (List Event)) :
    SavesAgree openClient contents lifetimes ↔
      ∀ evs ∈ lifetimes, ¬ AnswersOnce openClient evs := by
  induction lifetimes generalizing contents with
  | nil => simp [SavesAgree]
  | cons evs rest ih =>
    set s : Server := ⟨decodeInt (contents.take 4), ⟨contents, 4⟩⟩ with hs
    have hok : s.FileOk := ⟨hlen, .inr rfl⟩
    have hstart : startUp contents = some s := startUp_contents hok
    have hok' : (serve openClient s evs).FileOk := by
      rw [serve_eq_foldl]
      exact FileOk.foldl hok _
    have hlife := stored_serve_existing openClient hok rfl rfl evs
    simp only [SavesAgree, hstart, Option.mem_def, Option.some.injEq, exists_eq_left',
      startUp_contents hok', Option.map_some, hlife, ih hok'.length, List.mem_cons,
      forall_eq_or_imp]

/-- Without a file, the first lifetime creates it and starts with the offset at its start. -/
theorem savesAgree_none (evs : List Event) (rest : List (List Event)) :
    SavesAgree openClient none (evs :: rest) ↔ ∀ evs ∈ rest, ¬ AnswersOnce openClient evs := by
  set s : Server := ⟨0, (OpenFile.write ⟨[], 0⟩ (encodeInt 0)).lseekSet 0⟩ with hs
  have hstart : startUp none = some s := rfl
  have hok : (serve openClient s evs).FileOk := by
    rw [serve_eq_foldl]
    exact FileOk.foldl ⟨by decide, .inl rfl⟩ _
  have hfresh : s.stored = s.seqNum := decodeInt_encodeInt 0
  have hagree : (serve openClient s evs).stored = (serve openClient s evs).seqNum := by
    rw [serve_eq_foldl]
    exact stored_foldl rfl hfresh _
  simp only [SavesAgree, hstart, Option.mem_def, Option.some.injEq, exists_eq_left',
    startUp_contents hok, Option.map_some, hagree, true_and, savesAgree_existing hok.length rest]

/-- **The save file**: over every history of lifetimes that starts without a save file or with one
that holds a number, every restart finds the number that was in memory exactly when no lifetime
that started on an existing file has answered just one request that moves the counter. -/
theorem saves_agree_iff (openClient : (ℕ → OpenOutcome) → Bool) (disk : Option (List UInt8))
    (hdisk : ∀ contents ∈ disk, 4 ≤ contents.length) (lifetimes : List (List Event)) :
    SavesAgree openClient disk lifetimes ↔
      ∀ evs ∈ startedOnExisting disk lifetimes, ¬ AnswersOnce openClient evs := by
  cases disk with
  | some contents => exact savesAgree_existing (hdisk contents rfl) lifetimes
  | none =>
    cases lifetimes with
    | nil => simp [SavesAgree, startedOnExisting]
    | cons evs rest => exact savesAgree_none evs rest

theorem openPolling_opened : openPolling (fun _ => .opened) = true := rfl

/-- A first lifetime with one request, a restart that serves nobody, one that serves two. -/
theorem saves_agree_iff_served :
    SavesAgree openPolling none [[.request 3 fun _ => .opened], [.discarded],
      [.request 2 fun _ => .opened, .request 4 fun _ => .opened]] := by
  refine (saves_agree_iff openPolling none (by simp) _).mpr ?_
  simp [startedOnExisting, AnswersOnce, answered, openPolling_opened]

/-- The lengths of the requests for which the first `open` of the client's FIFO succeeds. -/
def opensFirst (evs : List Event) : List (BitVec 32) :=
  evs.filterMap fun
    | .discarded => none
    | .request seqLen opens => if opens 0 = .opened then some seqLen else none

/-- **The first version**, `44_3.c`, which makes one attempt: it starts without a save file, and a
lifetime behind the first must not answer just one client, unless that asks for no numbers. -/
theorem savesAgree_openBlocking_iff (evs : List Event) (rest : List (List Event)) :
    SavesAgree openBlocking none (evs :: rest) ↔
      ∀ evs ∈ rest, ∀ n ≠ 0, opensFirst evs ≠ [n] := by
  have hanswered : answered openBlocking = opensFirst := by
    funext evs
    refine congrArg (List.filterMap · evs) (funext fun ev => ?_)
    cases ev with
    | discarded => rfl
    | request seqLen opens => simp [openBlocking]
  rw [savesAgree_none]
  simp only [AnswersOnce, hanswered, not_exists, not_and]

/-- A server that is restarted and answers one request loses the numbers it handed out. -/
theorem restart_reads_stale :
    ¬ SavesAgree openPolling none [[], [.request 5 fun _ => .opened]] := by
  rintro ⟨s, hs, -, t, ht, hagree, -⟩
  obtain rfl := Option.some.inj hs
  obtain rfl := Option.some.inj ht
  revert hagree
  decide

end TlpiLearn.FifoSeqnum
