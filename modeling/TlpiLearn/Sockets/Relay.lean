import TlpiLearn.Foundations.Machine
import TlpiLearn.Foundations.Merge
import Mathlib.Data.Finset.Basic
import Mathlib.Tactic

/-!
# The server with a priority connection

`61/6/sv.c`, `serve_func` from the set-up of its loop on: the server copies what arrives on a normal
and on a priority connection to its standard output. A step is one pass of the loop, with what the
kernel answers in it: which sides `select` reports, and how much each `read` returns. Both peers
close at some time, and `write` is complete.

`rfdset` is used in every pass again and only ever added to; it never holds a side that has come to
its end, because the branch that reads the end takes it out (`Inv.rfdset_open`).
-/

namespace TlpiLearn.Relay

/-- `MAXLINE`. -/
def MAXLINE : ℕ := 1024

/-- The two connections. -/
inductive Fd
  | connfd
  | prior_connfd
  deriving DecidableEq, Repr

/-- What a pass does. -/
inductive Act
  | read (fd : Fd) (chunk : List UInt8)
  | write (chunk : List UInt8)
  deriving DecidableEq, Repr

/-- A pass of the loop: the set that was handed to `select`, what came back, and what was done. -/
structure Pass where
  asked : Finset Fd
  ready : Finset Fd
  acts : List Act

structure State where
  /-- `close_connfd` and `close_prior_connfd`. -/
  close : Fd → Bool
  rfdset : Finset Fd
  buf : List UInt8
  /-- What the peers have not delivered yet. -/
  incoming : Fd → List UInt8
  stdout : List UInt8
  /-- What the current pass has done. -/
  acts : List Act
  passes : List Pass
  /-- The loop is left. -/
  ended : Bool

/-- The set-up of the loop. `buf` is not initialised, and nobody reads what was in it. -/
def start (streams : Fd → List UInt8) : State where
  close _ := false
  rfdset := ∅
  buf := []
  incoming := streams
  stdout := []
  acts := []
  passes := []
  ended := false

/-- `FD_SET` of the sides that are open, on the set as it is. -/
def State.fdSets (s : State) : Finset Fd :=
  let set := if s.close .connfd then s.rfdset else insert .connfd s.rfdset
  if s.close .prior_connfd then set else insert .prior_connfd set

/-- The `read` of a side and the `write` of what it has returned. -/
def State.branch (s : State) (fd : Fd) (readn : ℕ) : State :=
  let chunk := (s.incoming fd).take readn
  let s := { s with
    buf := chunk ++ s.buf.drop readn
    incoming := Function.update s.incoming fd ((s.incoming fd).drop readn)
    acts := s.acts ++ [Act.read fd chunk] }
  let s :=
    if readn = 0 then
      { s with close := Function.update s.close fd true, rfdset := s.rfdset.erase fd }
    else s
  { s with
    stdout := s.stdout ++ s.buf.take readn
    acts := s.acts ++ [Act.write (s.buf.take readn)] }

/-- `if (FD_ISSET(fd, &rfdset))` -/
def State.serve (s : State) (fd : Fd) (readn : ℕ) : State :=
  if fd ∈ s.rfdset then s.branch fd readn else s

/-- The pass is over. -/
def State.endPass (s : State) (asked ready : Finset Fd) : State :=
  { s with acts := [], passes := s.passes ++ [⟨asked, ready, s.acts⟩] }

/-- One pass: the priority side comes first. -/
def State.pass (s : State) (ready : Finset Fd) (readn : Fd → ℕ) : State :=
  let selected := { s with rfdset := ready }
  let prior := selected.serve .prior_connfd (readn .prior_connfd)
  (prior.serve .connfd (readn .connfd)).endPass s.fdSets ready

/-- What `read` may return of a side that is ready: some bytes, or 0 at the end of the stream. -/
def Delivers (incoming : List UInt8) (readn : ℕ) : Prop :=
  readn ≤ MAXLINE ∧ readn ≤ incoming.length ∧ (readn = 0 ↔ incoming = [])

instance (incoming : List UInt8) (readn : ℕ) : Decidable (Delivers incoming readn) :=
  inferInstanceAs (Decidable (_ ∧ _ ∧ _))

/-- A step of the server. -/
inductive Label
  | pass (ready : Finset Fd) (readn : Fd → ℕ)
  /-- `break`. -/
  | leave

/-- `close_connfd && close_prior_connfd` -/
def State.bothClosed (s : State) : Bool := s.close .connfd && s.close .prior_connfd

def step (s : State) : Label → Option State
  | .pass ready readn =>
    if s.ended = false ∧ s.bothClosed = false ∧ ready.Nonempty ∧ ready ⊆ s.fdSets ∧
        ∀ fd ∈ ready, Delivers (s.incoming fd) (readn fd) then
      some (s.pass ready readn)
    else none
  | .leave => if s.ended = false ∧ s.bothClosed = true then some { s with ended := true } else none

/-- The server, with the two streams that its peers send. -/
def machine (streams : Fd → List UInt8) : Machine State Label where
  init := start streams
  step := step

/-! ## What was done -/

/-- The bytes that an act takes from a side. -/
def Act.taken (fd : Fd) : Act → List UInt8
  | .read fd' chunk => if fd' = fd then chunk else []
  | .write _ => []

/-- Everything that was done, in order. -/
def State.log (s : State) : List Act := s.passes.flatMap Pass.acts ++ s.acts

/-- What was read from a side. -/
def State.received (s : State) (fd : Fd) : List UInt8 := s.log.flatMap (Act.taken fd)

/-- The end of a side was read. -/
def State.AtEof (s : State) (fd : Fd) : Prop := .read fd [] ∈ s.log

/-- What holds between the statements of the loop. -/
structure Inv (streams : Fd → List UInt8) (s : State) : Prop where
  rfdset_open : ∀ fd ∈ s.rfdset, s.close fd = false
  delivered : ∀ fd, s.received fd ++ s.incoming fd = streams fd
  merged : Merge (s.received .connfd) (s.received .prior_connfd) s.stdout
  closed_iff : ∀ fd, s.close fd = true ↔ s.AtEof fd
  at_end : ∀ fd, s.close fd = true → s.incoming fd = []

variable {streams : Fd → List UInt8} {s s' : State} {fd fd' : Fd} {n : ℕ} {ready : Finset Fd}
  {readn : Fd → ℕ}

/-- The buffer holds what was read last. -/
theorem take_buf {l : List UInt8} (h : n ≤ l.length) (buf : List UInt8) :
    (l.take n ++ buf.drop n).take n = l.take n := by
  rw [List.take_append_of_le_length (by rw [List.length_take]; omega), List.take_take, min_self]

theorem branch_eq (h : n ≤ (s.incoming fd).length) :
    s.branch fd n = { s with
      close := if n = 0 then Function.update s.close fd true else s.close
      rfdset := if n = 0 then s.rfdset.erase fd else s.rfdset
      buf := (s.incoming fd).take n ++ s.buf.drop n
      incoming := Function.update s.incoming fd ((s.incoming fd).drop n)
      stdout := s.stdout ++ (s.incoming fd).take n
      acts := s.acts ++
        [Act.read fd ((s.incoming fd).take n), Act.write ((s.incoming fd).take n)] } := by
  rw [State.branch]
  split_ifs <;> simp only [take_buf h, List.append_assoc, List.cons_append, List.nil_append]

theorem rfdset_branch (h : n ≤ (s.incoming fd).length) :
    (s.branch fd n).rfdset = if n = 0 then s.rfdset.erase fd else s.rfdset := by
  rw [branch_eq h]

theorem incoming_branch (h : n ≤ (s.incoming fd).length) :
    (s.branch fd n).incoming =
      Function.update s.incoming fd ((s.incoming fd).drop n) := by
  rw [branch_eq h]

theorem stdout_branch (h : n ≤ (s.incoming fd).length) :
    (s.branch fd n).stdout = s.stdout ++ (s.incoming fd).take n := by
  rw [branch_eq h]

theorem log_branch (h : n ≤ (s.incoming fd).length) :
    (s.branch fd n).log = s.log ++
      [Act.read fd ((s.incoming fd).take n), Act.write ((s.incoming fd).take n)] := by
  rw [branch_eq h]
  exact (List.append_assoc ..).symm

theorem received_branch (h : n ≤ (s.incoming fd).length) (fd' : Fd) :
    (s.branch fd n).received fd' =
      s.received fd' ++ if fd = fd' then (s.incoming fd).take n else [] := by
  rw [State.received, log_branch h, List.flatMap_append]
  simp only [List.flatMap_cons, List.flatMap_nil, Act.taken, List.append_nil]
  rfl

theorem close_branch (h : n ≤ (s.incoming fd).length) (fd' : Fd) :
    (s.branch fd n).close fd' = true ↔ n = 0 ∧ fd' = fd ∨ s.close fd' = true := by
  rw [branch_eq h]
  by_cases hn : n = 0
  · rcases eq_or_ne fd' fd with rfl | hne
    · simp [hn]
    · simp [hn, hne]
  · simp [hn]

theorem atEof_branch (hd : Delivers (s.incoming fd) n) (fd' : Fd) :
    (s.branch fd n).AtEof fd' ↔ n = 0 ∧ fd' = fd ∨ s.AtEof fd' := by
  have htake : (s.incoming fd).take n = [] ↔ n = 0 := by
    rw [List.take_eq_nil_iff, ← hd.2.2, or_self]
  rw [State.AtEof, log_branch hd.2.1, List.mem_append, State.AtEof, or_comm]
  simp only [List.mem_cons, Act.read.injEq, reduceCtorEq, List.not_mem_nil, or_false,
    eq_comm (a := []), htake, and_comm (a := fd' = fd)]

/-- **One branch**: what is read of a side goes to the standard output, and the end of a side takes
it out of the set. -/
theorem Inv.branch (h : Inv streams s) (hd : Delivers (s.incoming fd) n) :
    Inv streams (s.branch fd n) := by
  have hle := hd.2.1
  constructor
  · intro fd' hmem
    rw [← Bool.not_eq_true, close_branch hle]
    rw [rfdset_branch hle] at hmem
    rintro (⟨rfl, rfl⟩ | hclose)
    · rw [if_pos rfl] at hmem
      exact Finset.notMem_erase _ _ hmem
    · have hset : fd' ∈ s.rfdset := by
        by_cases hn : n = 0
        · rw [if_pos hn] at hmem
          exact Finset.mem_of_mem_erase hmem
        · rwa [if_neg hn] at hmem
      rw [h.rfdset_open fd' hset] at hclose
      cases hclose
  · intro fd'
    rw [received_branch hle, incoming_branch hle, ← h.delivered fd']
    rcases eq_or_ne fd fd' with rfl | hne
    · rw [if_pos rfl, Function.update_self, List.append_assoc, List.take_append_drop]
    · rw [if_neg hne, Function.update_of_ne hne.symm, List.append_nil]
  · rw [received_branch hle, received_branch hle, stdout_branch hle]
    cases fd with
    | connfd =>
      rw [if_pos rfl, if_neg (by decide), List.append_nil]
      exact h.merged.append_left _
    | prior_connfd =>
      rw [if_pos rfl, if_neg (by decide), List.append_nil]
      exact h.merged.append_right _
  · intro fd'
    rw [close_branch hle, atEof_branch hd, h.closed_iff]
  · intro fd' hclose
    rw [close_branch hle] at hclose
    rw [incoming_branch hle]
    rcases eq_or_ne fd' fd with rfl | hne
    · rw [Function.update_self]
      rcases hclose with ⟨hn, -⟩ | hclose
      · rw [hd.2.2.1 hn, List.drop_nil]
      · rw [h.at_end _ hclose, List.drop_nil]
    · rw [Function.update_of_ne hne]
      exact h.at_end fd' (hclose.resolve_left fun hn => hne hn.2)

theorem Inv.serve (h : Inv streams s) (hd : fd ∈ s.rfdset → Delivers (s.incoming fd) n) :
    Inv streams (s.serve fd n) := by
  rw [State.serve]
  split
  case isTrue hmem => exact h.branch (hd hmem)
  case isFalse => exact h

/-- Serving one side leaves the other as it was. -/
theorem serve_other (hd : fd ∈ s.rfdset → Delivers (s.incoming fd) n) (hne : fd' ≠ fd) :
    (fd' ∈ (s.serve fd n).rfdset ↔ fd' ∈ s.rfdset) ∧
      (s.serve fd n).incoming fd' = s.incoming fd' := by
  rw [State.serve]
  split
  case isTrue hmem =>
    rw [rfdset_branch (hd hmem).2.1, incoming_branch (hd hmem).2.1]
    refine ⟨?_, Function.update_of_ne hne _ _⟩
    split
    · exact Finset.mem_erase.trans (and_iff_right hne)
    · exact Iff.rfl
  case isFalse => exact ⟨Iff.rfl, rfl⟩

/-- Only open sides are handed to `select`. -/
theorem Inv.close_of_mem_fdSets (h : Inv streams s) (hmem : fd ∈ s.fdSets) :
    s.close fd = false := by
  rw [State.fdSets] at hmem
  rw [← Bool.not_eq_true]
  intro hclose
  have hnot : fd ∉ s.rfdset := by
    intro hset
    rw [h.rfdset_open fd hset] at hclose
    cases hclose
  cases fd with
  | connfd =>
    rw [hclose, if_pos rfl] at hmem
    split at hmem
    · exact hnot hmem
    · exact hnot (Finset.mem_of_mem_insert_of_ne hmem (by decide))
  | prior_connfd =>
    rw [hclose, if_pos rfl] at hmem
    split at hmem
    · exact hnot hmem
    · exact hnot (Finset.mem_of_mem_insert_of_ne hmem (by decide))

theorem Inv.select (h : Inv streams s) (hready : ready ⊆ s.fdSets) :
    Inv streams { s with rfdset := ready } :=
  { h with rfdset_open := fun _ hmem => h.close_of_mem_fdSets (hready hmem) }

theorem log_endPass (asked : Finset Fd) : (s.endPass asked ready).log = s.log := by
  simp only [State.log, State.endPass, List.flatMap_append, List.flatMap_singleton,
    List.append_nil]

theorem Inv.endPass (h : Inv streams s) (asked : Finset Fd) :
    Inv streams (s.endPass asked ready) where
  rfdset_open := h.rfdset_open
  delivered fd := by
    rw [State.received, log_endPass]
    exact h.delivered fd
  merged := by
    rw [State.received, State.received, log_endPass]
    exact h.merged
  closed_iff fd := by
    rw [State.AtEof, log_endPass]
    exact h.closed_iff fd
  at_end := h.at_end

end TlpiLearn.Relay
