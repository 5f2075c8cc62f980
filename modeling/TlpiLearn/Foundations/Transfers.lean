import Mathlib.Tactic

/-!
# Short transfers

A `read` or a `write` may transfer less than it was asked for, and it may fail. `readUpTo` and
`writeUpTo` are single calls, whose `outcome` is given: `none` for a failure, and otherwise the
number of elements that the system would like to transfer. A `read` returns nothing only where
nothing was asked for or nothing is left (`readUpTo_eq_nil_iff`).
-/

namespace TlpiLearn

variable {α : Type*}

/-- A `read` of at most `n` of the elements that are left. -/
def readUpTo (outcome : Option ℕ) (n : ℕ) (left : List α) : Option (List α) :=
  outcome.map fun w => left.take (min (max 1 w) n)

/-- A `write` of `buf`: its value and what it transfers. -/
def writeUpTo (outcome : Option ℕ) (buf : List α) : ℤ × List α :=
  match outcome with
  | none => (-1, [])
  | some k => ((buf.take k).length, buf.take k)

/-- A `write` transfers everything. -/
def Complete (outcome : Option ℕ) (buf : List α) : Prop := (writeUpTo outcome buf).1 = buf.length

instance (outcome : Option ℕ) (buf : List α) : Decidable (Complete outcome buf) :=
  inferInstanceAs (Decidable (_ = _))

variable {outcome : Option ℕ} {n : ℕ} {left buf bs : List α}

/-- What a `read` returns is what comes next. -/
theorem isPrefix_of_readUpTo (h : readUpTo outcome n left = some bs) : bs <+: left := by
  obtain ⟨w, -, rfl⟩ := Option.map_eq_some_iff.1 h
  exact List.take_prefix _ left

/-- A `read` returns no more than it was asked for. -/
theorem length_le_of_readUpTo (h : readUpTo outcome n left = some bs) : bs.length ≤ n := by
  obtain ⟨w, -, rfl⟩ := Option.map_eq_some_iff.1 h
  exact (List.length_take_le _ _).trans (min_le_right _ _)

/-- **The end of the input** is where a `read` of something returns nothing. -/
theorem readUpTo_eq_nil_iff (h : readUpTo outcome n left = some bs) :
    bs = [] ↔ n = 0 ∨ left = [] := by
  obtain ⟨w, -, rfl⟩ := Option.map_eq_some_iff.1 h
  have hmin : min (max 1 w) n = 0 ↔ n = 0 := by omega
  rw [List.take_eq_nil_iff, hmin]

/-- What a `write` transfers is the start of what it was given. -/
theorem snd_writeUpTo_isPrefix (outcome : Option ℕ) (buf : List α) :
    (writeUpTo outcome buf).2 <+: buf := by
  cases outcome with
  | none => exact List.nil_prefix
  | some k => exact List.take_prefix k buf

theorem Complete.snd_writeUpTo (h : Complete outcome buf) : (writeUpTo outcome buf).2 = buf := by
  cases outcome with
  | none =>
    have hneg : (-1 : ℤ) = buf.length := h
    omega
  | some k =>
    have hlen : ((buf.take k).length : ℤ) = buf.length := h
    exact (List.take_sublist k buf).eq_of_length (by exact_mod_cast hlen)

theorem complete_of_length_le {k : ℕ} (h : buf.length ≤ k) : Complete (some k) buf := by
  rw [Complete, writeUpTo, List.take_of_length_le h]

end TlpiLearn
