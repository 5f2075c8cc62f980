import TlpiLearn.Foundations.CString
import TlpiLearn.Foundations.Overlay
import Mathlib.Tactic

/-!
# The remote shell server

`serve_func` of `61/5/shell_sv.c` reads into `buf` until the client has shut down its side, copies
`buf` into `command` with `strncpy` after each `read`, and runs `command`. No `read` writes a null
byte behind its bytes, and each starts at the beginning of `buf`.

`readLoop_sent` says what the loop leaves in the buffers, and `serve_func_eq_iff` that the command
is executed if `buf` ends up with the command and a terminator. `executes_command_iff` reads this
off the chunks that the reads deliver and the first contents of `buf` (`Undisturbed`).
-/

namespace TlpiLearn.ShellServer

/-- `MAXLINE` of `shell_h.h`. -/
def MAXLINE : ℕ := 1024

/-- What a successful `read(connfd, buf, MAXLINE)` delivers before the end of the file. -/
structure Chunk where
  bytes : List UInt8
  pos : 0 < bytes.length
  le : bytes.length ≤ MAXLINE

/-- The results of the calls of `serve_func`. -/
structure Calls where
  dup2Stdout : Bool
  dup2Stderr : Bool
  /-- A chunk, or `none` for `-1`; behind the end of the list `read` returns 0. -/
  reads : List (Option Chunk)
  /-- `write` has written all of `buf2`. -/
  write : Bool

/-- The local variables `buf` and `command`. -/
structure Locals where
  buf : List UInt8
  command : List UInt8
  length_buf : buf.length = MAXLINE
  length_command : command.length = MAXLINE

/-- How `serve_func` ends. -/
inductive Outcome
  /-- In `_exit_write(msg)`. -/
  | exited (msg : String)
  /-- `command` has no end in its array. -/
  | overread
  /-- After `write(STDOUT_FILENO, buf2, ...)` and `system(command)`. -/
  | returned (buf2 command : List UInt8)
  deriving DecidableEq, Repr

/-- One pass of the loop: `read` into `buf`, and `strncpy(command, buf, MAXLINE)`. -/
def Locals.receive (l : Locals) (chunk : Chunk) : Locals where
  buf := overlay l.buf chunk.bytes
  command := strncpy MAXLINE (cstr (overlay l.buf chunk.bytes))
  length_buf := by
    rw [length_overlay (by rw [l.length_buf]; exact chunk.le), l.length_buf]
  length_command := length_strncpy _ _

/-- `command[0] = '\0'`. -/
def Locals.clear (l : Locals) : Locals :=
  { l with command := l.command.set 0 0, length_command := by simp [l.length_command] }

/-- The loop over `read`; `none` when it has returned `-1`. -/
def readLoop : List (Option Chunk) → Locals → Option Locals
  | [], l => some l
  | none :: _, _ => none
  | some chunk :: reads, l => readLoop reads (l.receive chunk)

/-- `snprintf(buf2, MAXLINE + 100, "Excute \"%s\" command:\n", command)`. -/
def announcement (command : List UInt8) : List UInt8 :=
  (ascii "Excute \"" ++ command ++ ascii "\" command:\n").take (MAXLINE + 99)

/-- `serve_func`. -/
def serve_func (calls : Calls) (l : Locals) : Outcome :=
  if ¬calls.dup2Stdout then .exited "dup2"
  else if ¬calls.dup2Stderr then .exited "dup2"
  else
    match readLoop calls.reads l.clear with
    | none => .exited "read"
    | some l =>
      if 0 ∉ l.command then .overread
      else if ¬calls.write then .exited "write"
      else .returned (announcement (cstr l.command)) (cstr l.command)

/-- The calls of a session in which none fails and the command arrives in these chunks. -/
def Calls.sent (chunks : List Chunk) : Calls := ⟨true, true, chunks.map some, true⟩

/-- **The condition** on the first contents of `buf` and the chunks of the command: where a chunk
is not overwritten by a later one it agrees with the command at the same position, and at the
positions that no chunk has, up to that of the terminator, `buf` held the command's bytes and the
terminator from the first. -/
structure Undisturbed (buf command : List UInt8) (chunks : List (List UInt8)) : Prop where
  written : ∀ w i, LastAt chunks w i → w[i]? = command[i]?
  leftover : ∀ i ≤ command.length, (∀ c ∈ chunks, c.length ≤ i) → buf[i]? = (command ++ [0])[i]?

/-! ## The loop -/

/-- What the loop leaves in `buf`, and in `command` if there was something to read. -/
theorem readLoop_sent (chunks : List Chunk) (l : Locals) :
    ∃ l', readLoop (chunks.map some) l = some l' ∧
      l'.buf = overlays l.buf (chunks.map Chunk.bytes) ∧
      (chunks ≠ [] → l'.command = strncpy MAXLINE (cstr l'.buf)) := by
  induction chunks generalizing l with
  | nil => exact ⟨l, rfl, rfl, fun h => absurd rfl h⟩
  | cons chunk chunks ih =>
    obtain ⟨l', hloop, hbuf, hcommand⟩ := ih (l.receive chunk)
    refine ⟨l', hloop, hbuf, fun _ => ?_⟩
    cases chunks with
    | nil =>
      rw [List.map_nil, readLoop] at hloop
      rw [← Option.some.inj hloop]
      rfl
    | cons c cs => exact hcommand (List.cons_ne_nil c cs)

/-! ## The command -/

/-- `serve_func` executes the command if the reads leave it, with a terminator, in `buf`. -/
theorem serve_func_eq_iff {command : List UInt8} {chunks : List Chunk} (l : Locals)
    (hne : chunks ≠ []) (hnul : 0 ∉ command) :
    serve_func (.sent chunks) l = .returned (announcement command) command ↔
      command ++ [0] <+: overlays l.buf (chunks.map Chunk.bytes) := by
  obtain ⟨l', hloop, hbuf, hcommand⟩ := readLoop_sent chunks l.clear
  have hclear : l.clear.buf = l.buf := rfl
  rw [← hclear, ← hbuf, ← prefix_strncpy_iff hnul l'.length_buf, ← hcommand hne,
    ← cstr_eq_iff hnul]
  unfold serve_func Calls.sent
  simp only [hloop, not_true_eq_false, if_false]
  by_cases hzero : 0 ∈ l'.command
  · rw [if_neg (not_not.2 hzero), Outcome.returned.injEq]
    constructor
    · rintro ⟨-, hcstr⟩
      exact ⟨hzero, hcstr⟩
    · rintro ⟨-, hcstr⟩
      exact ⟨by rw [hcstr], hcstr⟩
  · rw [if_pos hzero]
    exact iff_of_false (by simp) fun h => hzero h.1

theorem prefix_overlays_iff_undisturbed {buf command : List UInt8} {chunks : List (List UInt8)}
    (h : chunks.flatten = command) :
    command ++ [0] <+: overlays buf chunks ↔ Undisturbed buf command chunks := by
  rw [prefix_overlays_iff]
  have hlen : (command ++ [0]).length = command.length + 1 := by simp
  have hinside : ∀ c i, LastAt chunks c i → i < command.length := by
    rintro c i ⟨pre, post, rfl, hi, -⟩
    rw [← h]
    simp only [List.flatten_append, List.flatten_cons, List.length_append]
    omega
  constructor
  · rintro ⟨hlast, hkept⟩
    constructor
    · intro c i hc
      have hi := hinside c i hc
      rw [hlast c i hc (by omega), List.getElem?_append_left hi]
    · intro i hi hle
      exact hkept i (by omega) hle
  · rintro ⟨hwritten, hleft⟩
    constructor
    · intro c i hc _
      rw [hwritten c i hc, List.getElem?_append_left (hinside c i hc)]
    · intro i hi hle
      exact hleft i (by omega) hle

/-- For a command that comes in one chunk only the byte behind it counts. -/
theorem undisturbed_singleton {buf command : List UInt8} :
    Undisturbed buf command [command] ↔ buf[command.length]? = some 0 := by
  constructor
  · rintro ⟨-, hleft⟩
    rw [hleft command.length le_rfl (by simp)]
    simp
  · intro h
    constructor
    · rintro c i ⟨pre, post, heq, -, -⟩
      have hmem : c ∈ [command] := heq ▸ List.mem_append_right pre List.mem_cons_self
      rw [List.mem_singleton.1 hmem]
    · intro i hi hle
      have hlen : command.length = i := le_antisymm (hle command List.mem_cons_self) hi
      rw [← hlen, h]
      simp

/-- **The command that is executed**: for a command without a null byte, however the reads cut
it and whatever the buffers contain, `serve_func` passes the command to `system` if and only if
neither the chunks nor the first contents of `buf` disturb it. -/
theorem executes_command_iff (command : List UInt8) (hpos : 0 < command.length)
    (hnul : 0 ∉ command) (chunks : List Chunk)
    (hchunks : (chunks.map Chunk.bytes).flatten = command) (l : Locals) :
    serve_func (.sent chunks) l = .returned (announcement command) command ↔
      Undisturbed l.buf command (chunks.map Chunk.bytes) := by
  have hne : chunks ≠ [] := by
    rintro rfl
    rw [← hchunks] at hpos
    exact absurd hpos (by simp)
  rw [serve_func_eq_iff l hne hnul, prefix_overlays_iff_undisturbed hchunks]

/-- Buffers of null bytes. -/
def Locals.zeroed : Locals :=
  ⟨List.replicate MAXLINE 0, List.replicate MAXLINE 0, List.length_replicate,
    List.length_replicate⟩

/-- Buffers with bytes of earlier calls, among them `'a'` and a terminator. -/
def Locals.stale : Locals :=
  ⟨[7, 97, 0] ++ List.replicate 1021 7, List.replicate MAXLINE 7,
    by rw [List.length_append, List.length_replicate]; rfl, List.length_replicate⟩

/-- The command `aa` in two chunks: what the second chunk does not overwrite, and what no chunk
reaches, is right by chance. -/
theorem executes_command_iff_twoChunks :
    let chunks : List Chunk := [⟨[97], by decide, by decide⟩, ⟨[97], by decide, by decide⟩]
    serve_func (.sent chunks) .stale = .returned (announcement [97, 97]) [97, 97] := by
  intro chunks
  refine (executes_command_iff [97, 97] (by decide) (by decide) chunks rfl .stale).2 ?_
  have hflatten : (chunks.map Chunk.bytes).flatten = [97, 97] := rfl
  exact (prefix_overlays_iff_undisturbed hflatten).1 ⟨List.replicate 1021 7, rfl⟩

/-- The command `id` in two chunks: `d` is executed. -/
theorem executes_last_chunk :
    let chunks : List Chunk := [⟨[105], by decide, by decide⟩, ⟨[100], by decide, by decide⟩]
    (chunks.map Chunk.bytes).flatten = [105, 100] ∧
      serve_func (.sent chunks) .zeroed = .returned (announcement [100]) [100] := by
  intro chunks
  refine ⟨rfl, ?_⟩
  rw [serve_func_eq_iff _ (List.cons_ne_nil _ _) (by decide)]
  refine ⟨List.replicate 1022 0, ?_⟩
  simp only [List.map_cons, List.map_nil, overlays_cons, overlays_nil, overlay,
    Locals.zeroed, List.drop_replicate, List.length_singleton]
  rfl

end TlpiLearn.ShellServer
