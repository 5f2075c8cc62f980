import TlpiLearn.Foundations.Constants
import TlpiLearn.Foundations.DescriptorTable
import Mathlib.Tactic

/-!
# A copy of `dup2`

`my_dup2` of `5_4.c`, with `fcntl` and `close` on the descriptors of the process and its `errno`.
The descriptor `fd2` is closed in front of the `fcntl` that finds out whether `fd` is open, so that
a call with a closed `fd` loses `fd2`.
-/

namespace TlpiLearn.Dup

/-- `EMFILE`. -/
def EMFILE : ℕ := 24

/-- The descriptors of a process, and its `errno`. -/
structure Process (φ : Type*) (limit : ℕ) where
  table : DescriptorTable φ limit
  errno : ℕ

variable {φ : Type*} {limit : ℕ}

/-- `fcntl(fd, F_GETFL)`; `flags` are the flags of an open file. -/
def fcntlGetFl (flags : φ → ℕ) (fd : ℕ) (s : Process φ limit) : ℤ × Process φ limit :=
  match s.table.entry fd with
  | none => (-1, { s with errno := EBADF })
  | some d => (flags d.file, s)

/-- `fcntl(fd, F_DUPFD, arg)`. -/
def fcntlDupFd (fd arg : ℕ) (s : Process φ limit) : ℤ × Process φ limit :=
  match s.table.entry fd with
  | none => (-1, { s with errno := EBADF })
  | some d =>
    if harg : limit ≤ arg then (-1, { s with errno := EINVAL })
    else
      match h : s.table.freeFrom (limit - arg) arg with
      | none => (-1, { s with errno := EMFILE })
      | some k =>
        have hk : k < limit := by
          have hbound := (DescriptorTable.freeFrom_eq_some h).2.1
          omega
        (k, { s with table := s.table.set k hk { file := d.file, cloexec := false } })

/-- `close`. -/
def close (fd : ℕ) (s : Process φ limit) : ℤ × Process φ limit :=
  if s.table.IsOpen fd then (0, { s with table := s.table.close fd })
  else (-1, { s with errno := EBADF })

/-- `my_dup2` behind its first case. -/
def closeAndDup (fd fd2 : ℕ) (s : Process φ limit) : ℤ × Process φ limit :=
  let s := (close fd2 s).2
  let r := fcntlDupFd fd fd2 s
  if r.1 < 0 then (-1, r.2) else (fd2, r.2)

/-- `my_dup2`. -/
def my_dup2 (flags : φ → ℕ) (fd fd2 : ℕ) (s : Process φ limit) : ℤ × Process φ limit :=
  if fd = fd2 then
    let r := fcntlGetFl flags fd s
    if r.1 ≠ -1 ∨ r.2.errno ≠ EBADF then (fd, r.2) else closeAndDup fd fd2 r.2
  else closeAndDup fd fd2 s

/-- **What `dup2` does**: an open `fd` is duplicated to `fd2`, and nothing changes if they are the
same; with a closed `fd` the call fails and nothing changes. -/
def Dups (fd fd2 : ℕ) (t : DescriptorTable φ limit) (r : ℤ × Process φ limit) : Prop :=
  (t.IsOpen fd → r.1 = fd2 ∧ (fd = fd2 → r.2.table = t) ∧
    (r.2.table.entry fd2).map Descriptor.file = (t.entry fd).map Descriptor.file ∧
    ∀ k, k ≠ fd2 → r.2.table.entry k = t.entry k) ∧
  (¬ t.IsOpen fd → r.1 = -1 ∧ r.2.table = t)

variable {fd fd2 : ℕ} {s : Process φ limit}

/-! ## The calls -/

theorem fcntlGetFl_of_isOpen (flags : φ → ℕ) (h : s.table.IsOpen fd) :
    ∃ n : ℕ, fcntlGetFl flags fd s = ((n : ℤ), s) := by
  obtain ⟨d, hd⟩ := Option.ne_none_iff_exists'.1 h
  exact ⟨flags d.file, by rw [fcntlGetFl, hd]⟩

theorem fcntlGetFl_of_not_isOpen (flags : φ → ℕ) (h : ¬ s.table.IsOpen fd) :
    fcntlGetFl flags fd s = (-1, { s with errno := EBADF }) := by
  rw [fcntlGetFl, not_not.1 h]

theorem fcntlDupFd_of_not_isOpen (h : ¬ s.table.IsOpen fd) (arg : ℕ) :
    fcntlDupFd fd arg s = (-1, { s with errno := EBADF }) := by
  rw [fcntlDupFd, not_not.1 h]

/-- A duplicate goes to a free descriptor that was asked for. -/
theorem fcntlDupFd_of_free {d : Descriptor φ} (hd : s.table.entry fd = some d)
    (hfd2 : fd2 < limit) (hfree : ¬ s.table.IsOpen fd2) :
    fcntlDupFd fd fd2 s =
      ((fd2 : ℤ),
        { s with table := s.table.set fd2 hfd2 { file := d.file, cloexec := false } }) := by
  have hfrom : s.table.freeFrom (limit - fd2) fd2 = some fd2 :=
    DescriptorTable.freeFrom_self (by omega) hfree
  rw [fcntlDupFd, hd]
  simp only [dif_neg (not_le.2 hfd2)]
  split
  next h =>
    rw [hfrom] at h
    cases h
  next k h =>
    rw [hfrom] at h
    cases h
    rfl

theorem table_close (fd : ℕ) (s : Process φ limit) : (close fd s).2.table = s.table.close fd := by
  rw [close]
  split_ifs with hopen
  · rfl
  · exact (DescriptorTable.close_of_not_isOpen hopen).symm

/-! ## The whole call -/

/-- With a closed `fd` the descriptor `fd2` is closed, and no more. -/
theorem closeAndDup_of_not_isOpen (h : ¬ s.table.IsOpen fd) (fd2 : ℕ) :
    (closeAndDup fd fd2 s).1 = -1 ∧ (closeAndDup fd fd2 s).2.table = s.table.close fd2 := by
  have hclosed : ¬ (close fd2 s).2.table.IsOpen fd := by
    rw [table_close]
    obtain rfl | hne := eq_or_ne fd fd2
    · exact DescriptorTable.not_isOpen_close fd
    · rwa [DescriptorTable.isOpen_close_iff hne]
  rw [closeAndDup, fcntlDupFd_of_not_isOpen hclosed]
  exact ⟨rfl, table_close fd2 s⟩

/-- With another open `fd` the descriptor `fd2` becomes its duplicate. -/
theorem closeAndDup_of_isOpen {d : Descriptor φ} (hd : s.table.entry fd = some d) (hne : fd ≠ fd2)
    (hfd2 : fd2 < limit) :
    (closeAndDup fd fd2 s).1 = fd2 ∧ (closeAndDup fd fd2 s).2.table =
      (s.table.close fd2).set fd2 hfd2 { file := d.file, cloexec := false } := by
  have hentry : (close fd2 s).2.table.entry fd = some d := by
    rw [table_close, DescriptorTable.entry_close_of_ne hne, hd]
  have hfree : ¬ (close fd2 s).2.table.IsOpen fd2 := by
    rw [table_close]
    exact DescriptorTable.not_isOpen_close fd2
  have hpos : ¬ (fd2 : ℤ) < 0 := by omega
  rw [closeAndDup, fcntlDupFd_of_free hentry hfd2 hfree]
  simp only [if_neg hpos, table_close, and_self]

/-- A closed `fd` that is also `fd2`, or not: the call fails with `fd2` closed. -/
theorem my_dup2_of_not_isOpen (flags : φ → ℕ) (h : ¬ s.table.IsOpen fd) (fd2 : ℕ) :
    (my_dup2 flags fd fd2 s).1 = -1 ∧ (my_dup2 flags fd fd2 s).2.table = s.table.close fd2 := by
  obtain rfl | hne := eq_or_ne fd fd2
  · have hflags : ¬ ((-1 : ℤ) ≠ -1 ∨ EBADF ≠ EBADF) := by simp
    rw [my_dup2, if_pos rfl, fcntlGetFl_of_not_isOpen flags h]
    dsimp only
    rw [if_neg hflags]
    exact closeAndDup_of_not_isOpen (s := { s with errno := EBADF }) h fd
  · rw [my_dup2, if_neg hne]
    exact closeAndDup_of_not_isOpen h fd2

/-- **`my_dup2` does what `dup2` does exactly if** `fd` is open or `fd2` is not. -/
theorem my_dup2_dups_iff (flags : φ → ℕ) (s : Process φ limit) (fd : ℕ) (hfd2 : fd2 < limit) :
    Dups fd fd2 s.table (my_dup2 flags fd fd2 s) ↔ s.table.IsOpen fd ∨ ¬ s.table.IsOpen fd2 := by
  by_cases hopen : s.table.IsOpen fd
  · refine iff_of_true ⟨fun _ => ?_, fun h => absurd hopen h⟩ (Or.inl hopen)
    obtain rfl | hne := eq_or_ne fd fd2
    · obtain ⟨n, hn⟩ := fcntlGetFl_of_isOpen flags hopen
      have hflags : (n : ℤ) ≠ -1 ∨ s.errno ≠ EBADF := Or.inl (by omega)
      rw [my_dup2, if_pos rfl, hn]
      dsimp only
      rw [if_pos hflags]
      exact ⟨rfl, fun _ => rfl, rfl, fun _ _ => rfl⟩
    · obtain ⟨d, hd⟩ := Option.ne_none_iff_exists'.1 hopen
      obtain ⟨hret, htable⟩ := closeAndDup_of_isOpen hd hne hfd2
      rw [my_dup2, if_neg hne, hret, htable, hd, DescriptorTable.entry_set_self]
      refine ⟨rfl, fun h => absurd h hne, rfl, fun k hk => ?_⟩
      rw [DescriptorTable.entry_set_of_ne hfd2 _ hk, DescriptorTable.entry_close_of_ne hk]
  · obtain ⟨hret, htable⟩ := my_dup2_of_not_isOpen flags hopen fd2
    rw [Dups, hret, htable, or_iff_right hopen]
    constructor
    · rintro ⟨-, hfails⟩ hfd2open
      have hclose := (hfails hopen).2
      rw [← hclose] at hfd2open
      exact DescriptorTable.not_isOpen_close fd2 hfd2open
    · intro hfree
      refine ⟨fun h => absurd h hopen, fun _ => ⟨rfl, ?_⟩⟩
      exact DescriptorTable.close_of_not_isOpen hfree

/-- A process with the descriptor 0 of four. -/
def oneOpen : Process ℕ 4 where
  table :=
    { entry := fun fd => if fd = 0 then some { file := 7, cloexec := false } else none
      entry_eq_none := fun fd hfd => if_neg (by omega) }
  errno := 0

/-- The open descriptor is duplicated, and it is lost to the duplication of a closed one. -/
theorem my_dup2_dups_iff_oneOpen :
    Dups 0 1 oneOpen.table (my_dup2 (fun _ => 0) 0 1 oneOpen) ∧
      ¬ Dups 3 0 oneOpen.table (my_dup2 (fun _ => 0) 3 0 oneOpen) := by
  have hgood := my_dup2_dups_iff (fun _ => 0) oneOpen 0 (by decide : 1 < 4)
  have hlost := my_dup2_dups_iff (fun _ => 0) oneOpen 3 (by decide : 0 < 4)
  exact ⟨hgood.2 (by decide), fun h => absurd (hlost.1 h) (by decide)⟩

/-- The duplication of a closed descriptor closes the descriptor that it was meant for. -/
theorem not_dups_closed :
    ((my_dup2 (fun _ => 0) 3 0 oneOpen).2.table.entry 0) = none ∧
      ¬ Dups 3 0 oneOpen.table (my_dup2 (fun _ => 0) 3 0 oneOpen) := by
  have hlost : ((my_dup2 (fun _ => 0) 3 0 oneOpen).2.table.entry 0) = none := rfl
  have hopen : oneOpen.table.entry 0 ≠ none := by decide
  refine ⟨hlost, fun h => ?_⟩
  have htable := (h.2 (by decide)).2
  rw [htable] at hlost
  exact hopen hlost

end TlpiLearn.Dup
