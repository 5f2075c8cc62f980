import TlpiLearn.Foundations.Machine
import Mathlib.Data.Finset.Basic
import Mathlib.Tactic

/-!
# A binary semaphore made of a FIFO

`47/47_6/binary_fifo.c`: a token is a byte in a FIFO, `reserve` reads one and `release` writes one.
The processes get the two descriptors by `fork`, so that they share one open file description for
reading and its flag `O_NONBLOCK`; `reserveNB` sets the flag, reads and clears it again. A label is
one system call of one process, a `fork`, a `close`, or a signal that interrupts a blocked call.
-/

namespace TlpiLearn.BinaryFifo

/-- The functions of the module. -/
inductive Call
  | reserve
  | reserveNB
  | release
  deriving DecidableEq, Repr

/-- Why a system call failed. -/
inductive Errno
  | EAGAIN
  | EINTR
  | EBADF
  | EPIPE
  deriving DecidableEq, Repr

/-- What `read(rfd, &x, 1)` returns: 1, 0 or -1. -/
inductive ReadResult
  | byte
  | eof
  | error (errno : Errno)
  deriving DecidableEq, Repr

/-- What a function returns: 0, or -1 with the error if there was one. -/
inductive Result
  | zero
  | minusOne (errno : Option Errno)
  deriving DecidableEq, Repr

/-- `reserve` succeeds when `read` returned 1. -/
def reserveResult : ReadResult → Result
  | .byte => .zero
  | .eof => .minusOne none
  | .error e => .minusOne (some e)

/-- `reserveNB` succeeds when `read` did not return -1. -/
def reserveNBResult : ReadResult → Result
  | .byte | .eof => .zero
  | .error e => .minusOne (some e)

/-- The next system call of a process; `flags` is its copy of `O_NONBLOCK` and `n` what its `read`
returned. -/
inductive Pc
  | idle
  | reserveRead
  /-- `fcntl(rfd, F_GETFL)` and `fcntl(rfd, F_SETFL, flags | O_NONBLOCK)` of `reserveNB`. -/
  | getNonblock
  | setNonblock (flags : Bool)
  | readNonblock
  /-- `fcntl(rfd, F_GETFL)` and `fcntl(rfd, F_SETFL, flags & ~O_NONBLOCK)`. -/
  | getBlock (n : ReadResult)
  | setBlock (n : ReadResult) (flags : Bool)
  | releaseWrite
  deriving DecidableEq, Repr

/-- Where a call starts. -/
def Call.entry : Call → Pc
  | .reserve => .reserveRead
  | .reserveNB => .getNonblock
  | .release => .releaseWrite

/-- The processes, who has which descriptor open, the flag `O_NONBLOCK` of the shared description
for reading, the bytes in the FIFO, and the calls that have returned. -/
structure State (ι : Type*) where
  procs : Finset ι
  pc : ι → Pc
  rfd : Finset ι
  wfd : Finset ι
  nonblock : Bool
  tokens : ℕ
  returned : List (Call × Result)

/-- The steps. -/
inductive Label (ι : Type*)
  | fork (p q : ι)
  | closeRead (p : ι)
  | closeWrite (p : ι)
  | call (p : ι) (c : Call)
  | sysCall (p : ι)
  /-- A signal handler interrupts a call that blocks. -/
  | interrupt (p : ι)

variable {ι : Type*} [DecidableEq ι]

/-- The process `p` after `init` on a new FIFO: `open(fifo, O_RDONLY | O_NONBLOCK)`,
`open(fifo, O_WRONLY)`, and the flag is cleared again. -/
def init (p : ι) : State ι where
  procs := {p}
  pc _ := .idle
  rfd := {p}
  wfd := {p}
  nonblock :=
    let flags := true
    flags && false
  tokens := 0
  returned := []

/-- `p` goes on to `pc`. -/
def State.goto (s : State ι) (p : ι) (pc : Pc) : State ι :=
  { s with pc := Function.update s.pc p pc }

/-- The call `c` of `p` returns `r`. -/
def State.ret (s : State ι) (p : ι) (c : Call) (r : Result) : State ι :=
  { s with pc := Function.update s.pc p .idle, returned := s.returned ++ [(c, r)] }

/-- `fcntl(rfd, F_SETFL, flags)` by `p`. -/
def State.setfl (s : State ι) (p : ι) (flags : Bool) : State ι :=
  if p ∈ s.rfd then { s with nonblock := flags } else s

/-- `read(rfd, &x, 1)` by `p`, or `none` while it blocks. -/
def State.read (s : State ι) (p : ι) : Option (ReadResult × State ι) :=
  if p ∈ s.rfd then
    if 0 < s.tokens then some (.byte, { s with tokens := s.tokens - 1 })
    else if s.wfd = ∅ then some (.eof, s)
    else if s.nonblock then some (.error .EAGAIN, s)
    else none
  else some (.error .EBADF, s)

/-- `write(wfd, "a", 1)` by `p` to a FIFO of `capacity` bytes, or `none` while it blocks. -/
def State.write (capacity : ℕ) (s : State ι) (p : ι) : Option (Result × State ι) :=
  if p ∈ s.wfd then
    if s.rfd = ∅ then some (.minusOne (some .EPIPE), s)
    else if s.tokens < capacity then some (.zero, { s with tokens := s.tokens + 1 })
    else none
  else some (.minusOne (some .EBADF), s)

/-- The next system call of `p`. -/
def sysCall (capacity : ℕ) (s : State ι) (p : ι) : Option (State ι) :=
  match s.pc p with
  | .idle => none
  | .reserveRead => (s.read p).map fun r => r.2.ret p .reserve (reserveResult r.1)
  | .getNonblock => some (s.goto p (.setNonblock s.nonblock))
  | .setNonblock flags => some ((s.setfl p (flags || true)).goto p .readNonblock)
  | .readNonblock => (s.read p).map fun r => r.2.goto p (.getBlock r.1)
  | .getBlock n => some (s.goto p (.setBlock n s.nonblock))
  | .setBlock n flags => some ((s.setfl p (flags && false)).ret p .reserveNB (reserveNBResult n))
  | .releaseWrite => (s.write capacity p).map fun r => r.2.ret p .release r.1

/-- The blocked system call of `p` fails with `EINTR`. -/
def interrupt (s : State ι) (p : ι) : Option (State ι) :=
  match s.pc p with
  | .reserveRead => some (s.ret p .reserve (reserveResult (.error .EINTR)))
  | .readNonblock => some (s.goto p (.getBlock (.error .EINTR)))
  | .releaseWrite => some (s.ret p .release (.minusOne (some .EINTR)))
  | _ => none

/-- The step function. -/
def step (capacity : ℕ) (s : State ι) : Label ι → Option (State ι)
  | .fork p q =>
    if p ∈ s.procs ∧ s.pc p = .idle ∧ q ∉ s.procs then
      some { s with
        procs := insert q s.procs
        rfd := if p ∈ s.rfd then insert q s.rfd else s.rfd
        wfd := if p ∈ s.wfd then insert q s.wfd else s.wfd }
    else none
  | .closeRead p =>
    if p ∈ s.procs ∧ s.pc p = .idle then some { s with rfd := s.rfd.erase p } else none
  | .closeWrite p =>
    if p ∈ s.procs ∧ s.pc p = .idle then some { s with wfd := s.wfd.erase p } else none
  | .call p c =>
    if p ∈ s.procs ∧ s.pc p = .idle then some (s.goto p c.entry) else none
  | .sysCall p => sysCall capacity s p
  | .interrupt p => if sysCall capacity s p = none then interrupt s p else none

/-- The processes that share the descriptors of `p`. -/
def machine (capacity : ℕ) (p : ι) : Machine (State ι) (Label ι) := ⟨init p, step capacity⟩

/-! ## What the calls do -/

variable {s t : State ι} {p : ι}

@[simp] theorem goto_pc_self (c : Pc) : (s.goto p c).pc p = c := Function.update_self ..

@[simp] theorem ret_pc_self (c : Call) (r : Result) : (s.ret p c r).pc p = .idle :=
  Function.update_self ..

theorem goto_pc_of_ne {q : ι} (hq : q ≠ p) (c : Pc) : (s.goto p c).pc q = s.pc q :=
  Function.update_of_ne hq ..

theorem ret_pc_of_ne {q : ι} (hq : q ≠ p) (c : Call) (r : Result) :
    (s.ret p c r).pc q = s.pc q :=
  Function.update_of_ne hq ..

theorem setfl_of_mem (hp : p ∈ s.rfd) (flags : Bool) :
    s.setfl p flags = { s with nonblock := flags } := if_pos hp

theorem setfl_of_notMem (hp : p ∉ s.rfd) (flags : Bool) : s.setfl p flags = s := if_neg hp

/-- `F_SETFL` changes nothing but the flag. -/
theorem setfl_eq (s : State ι) (p : ι) (flags : Bool) :
    ∃ nonblock, s.setfl p flags = { s with nonblock } := by
  by_cases hp : p ∈ s.rfd
  · exact ⟨flags, setfl_of_mem hp flags⟩
  · exact ⟨s.nonblock, setfl_of_notMem hp flags⟩

/-- What a `read` that does not block returns. -/
theorem read_eq_some {r : ReadResult} (h : s.read p = some (r, t)) :
    (p ∉ s.rfd ∧ r = .error .EBADF ∧ t = s) ∨
      (p ∈ s.rfd ∧ 0 < s.tokens ∧ r = .byte ∧ t = { s with tokens := s.tokens - 1 }) ∨
      (p ∈ s.rfd ∧ s.tokens = 0 ∧ s.wfd = ∅ ∧ r = .eof ∧ t = s) ∨
      (p ∈ s.rfd ∧ s.tokens = 0 ∧ s.wfd ≠ ∅ ∧ s.nonblock = true ∧ r = .error .EAGAIN ∧ t = s) := by
  unfold State.read at h
  split_ifs at h with hp htokens hwfd hnb <;> cases h
  · exact .inr (.inl ⟨hp, htokens, rfl, rfl⟩)
  · exact .inr (.inr (.inl ⟨hp, by omega, hwfd, rfl, rfl⟩))
  · exact .inr (.inr (.inr ⟨hp, by omega, hwfd, hnb, rfl, rfl⟩))
  · exact .inl ⟨hp, rfl, rfl⟩

/-- When a `read` blocks. -/
theorem read_eq_none (h : s.read p = none) :
    p ∈ s.rfd ∧ s.tokens = 0 ∧ s.wfd ≠ ∅ ∧ s.nonblock = false := by
  unfold State.read at h
  split_ifs at h with hp htokens hwfd hnb
  exact ⟨hp, by omega, hwfd, by simpa using hnb⟩

/-- What a `write` that does not block returns. -/
theorem write_eq_some {capacity : ℕ} {r : Result} (h : s.write capacity p = some (r, t)) :
    (r ≠ .zero ∧ t = s) ∨ (r = .zero ∧ t = { s with tokens := s.tokens + 1 }) := by
  unfold State.write at h
  split_ifs at h <;> cases h
  · exact .inl ⟨nofun, rfl⟩
  · exact .inr ⟨rfl, rfl⟩
  · exact .inl ⟨nofun, rfl⟩

/-- What can happen in a step. -/
inductive Happens (capacity : ℕ) (s : State ι) : Label ι → State ι → Prop
  | fork {p q : ι} (hp : p ∈ s.procs) (hidle : s.pc p = .idle) (hq : q ∉ s.procs) :
      Happens capacity s (.fork p q) { s with
        procs := insert q s.procs
        rfd := if p ∈ s.rfd then insert q s.rfd else s.rfd
        wfd := if p ∈ s.wfd then insert q s.wfd else s.wfd }
  | closeRead {p : ι} (hidle : s.pc p = .idle) :
      Happens capacity s (.closeRead p) { s with rfd := s.rfd.erase p }
  | closeWrite {p : ι} (hidle : s.pc p = .idle) :
      Happens capacity s (.closeWrite p) { s with wfd := s.wfd.erase p }
  | call {p : ι} {c : Call} (hp : p ∈ s.procs) (hidle : s.pc p = .idle) :
      Happens capacity s (.call p c) (s.goto p c.entry)
  | reserveRead {p : ι} {r : ReadResult} {t : State ι} (hpc : s.pc p = .reserveRead)
      (hread : s.read p = some (r, t)) :
      Happens capacity s (.sysCall p) (t.ret p .reserve (reserveResult r))
  | getNonblock {p : ι} (hpc : s.pc p = .getNonblock) :
      Happens capacity s (.sysCall p) (s.goto p (.setNonblock s.nonblock))
  | setNonblock {p : ι} {flags : Bool} (hpc : s.pc p = .setNonblock flags) :
      Happens capacity s (.sysCall p) ((s.setfl p (flags || true)).goto p .readNonblock)
  | readNonblock {p : ι} {r : ReadResult} {t : State ι} (hpc : s.pc p = .readNonblock)
      (hread : s.read p = some (r, t)) : Happens capacity s (.sysCall p) (t.goto p (.getBlock r))
  | getBlock {p : ι} {n : ReadResult} (hpc : s.pc p = .getBlock n) :
      Happens capacity s (.sysCall p) (s.goto p (.setBlock n s.nonblock))
  | setBlock {p : ι} {n : ReadResult} {flags : Bool} (hpc : s.pc p = .setBlock n flags) :
      Happens capacity s (.sysCall p)
        ((s.setfl p (flags && false)).ret p .reserveNB (reserveNBResult n))
  | releaseWrite {p : ι} {r : Result} {t : State ι} (hpc : s.pc p = .releaseWrite)
      (hwrite : s.write capacity p = some (r, t)) :
      Happens capacity s (.sysCall p) (t.ret p .release r)
  | reserveInterrupted {p : ι} (hpc : s.pc p = .reserveRead) :
      Happens capacity s (.interrupt p) (s.ret p .reserve (reserveResult (.error .EINTR)))
  | reserveNBInterrupted {p : ι} (hpc : s.pc p = .readNonblock) :
      Happens capacity s (.interrupt p) (s.goto p (.getBlock (.error .EINTR)))
  | releaseInterrupted {p : ι} (hpc : s.pc p = .releaseWrite) :
      Happens capacity s (.interrupt p) (s.ret p .release (.minusOne (some .EINTR)))

theorem happens_of_sysCall {capacity : ℕ} (h : sysCall capacity s p = some t) :
    Happens capacity s (.sysCall p) t := by
  unfold sysCall at h
  split at h
  · cases h
  · rename_i hpc
    obtain ⟨⟨r, t⟩, hread, rfl⟩ := Option.map_eq_some_iff.1 h
    exact .reserveRead hpc hread
  · rename_i hpc
    exact Option.some.inj h ▸ .getNonblock hpc
  · rename_i hpc
    exact Option.some.inj h ▸ .setNonblock hpc
  · rename_i hpc
    obtain ⟨⟨r, t⟩, hread, rfl⟩ := Option.map_eq_some_iff.1 h
    exact .readNonblock hpc hread
  · rename_i hpc
    exact Option.some.inj h ▸ .getBlock hpc
  · rename_i hpc
    exact Option.some.inj h ▸ .setBlock hpc
  · rename_i hpc
    obtain ⟨⟨r, t⟩, hwrite, rfl⟩ := Option.map_eq_some_iff.1 h
    exact .releaseWrite hpc hwrite

theorem happens_of_step {capacity : ℕ} {l : Label ι} (h : step capacity s l = some t) :
    Happens capacity s l t := by
  cases l with
  | fork p q =>
    simp only [step, Option.ite_none_right_eq_some, Option.some.injEq] at h
    obtain ⟨⟨hp, hidle, hq⟩, rfl⟩ := h
    exact .fork hp hidle hq
  | closeRead p =>
    simp only [step, Option.ite_none_right_eq_some, Option.some.injEq] at h
    obtain ⟨⟨-, hidle⟩, rfl⟩ := h
    exact .closeRead hidle
  | closeWrite p =>
    simp only [step, Option.ite_none_right_eq_some, Option.some.injEq] at h
    obtain ⟨⟨-, hidle⟩, rfl⟩ := h
    exact .closeWrite hidle
  | call p c =>
    simp only [step, Option.ite_none_right_eq_some, Option.some.injEq] at h
    obtain ⟨⟨hp, hidle⟩, rfl⟩ := h
    exact .call hp hidle
  | sysCall p => exact happens_of_sysCall h
  | interrupt p =>
    simp only [step, Option.ite_none_right_eq_some] at h
    obtain ⟨-, h⟩ := h
    unfold interrupt at h
    split at h <;> cases h
    · rename_i hpc
      exact .reserveInterrupted hpc
    · rename_i hpc
      exact .reserveNBInterrupted hpc
    · rename_i hpc
      exact .releaseInterrupted hpc

end TlpiLearn.BinaryFifo
