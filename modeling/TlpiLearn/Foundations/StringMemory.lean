import TlpiLearn.Foundations.CString
import Mathlib.Tactic

/-!
# Strings in memory

The memory is one block of bytes, an address is a place in it, and `strAt mem p` is the string at an
address. `strchrAt` gives the address of a byte and `cutAt` ends a string there; the lemmas say what
they do in a memory that is written as the parts in front of a string and behind it.
-/

namespace TlpiLearn

/-- The string at an address. -/
def strAt (mem : List UInt8) (p : ℕ) : List UInt8 := cstr (mem.drop p)

/-- `strchr(p, c)`, for a `c` that is not the null byte. -/
def strchrAt (mem : List UInt8) (p : ℕ) (c : UInt8) : Option ℕ :=
  if c ∈ strAt mem p then some (p + (strAt mem p).idxOf c) else none

/-- `strdup(p)`: the copy goes behind the memory in use. -/
def strdup (mem : List UInt8) (p : ℕ) : List UInt8 := mem ++ strAt mem p ++ [0]

/-- A null byte is stored at the address, unless it is a null pointer. -/
def cutAt (mem : List UInt8) (p : Option ℕ) : List UInt8 := p.elim mem fun p => mem.set p 0

variable {front s back : List UInt8} {c : UInt8}

theorem strAt_append (front : List UInt8) (hs : 0 ∉ s) (back : List UInt8) :
    strAt (front ++ s ++ 0 :: back) front.length = s := by
  rw [strAt, List.append_assoc, List.drop_left, cstr_append_cons_zero hs]

/-- The address behind a string and its null byte. -/
theorem strAt_append_succ (front t : List UInt8) (hs : 0 ∉ s) (back : List UInt8) :
    strAt (front ++ t ++ 0 :: (s ++ 0 :: back)) (front.length + t.length + 1) = s := by
  have h := strAt_append (front ++ t ++ [0]) hs back
  simpa [Nat.add_assoc] using h

/-- The first byte `c` of a string. -/
theorem strchrAt_append (front : List UInt8) (hs : 0 ∉ s) (hc : c ∉ s) (hzero : c ≠ 0)
    (back : List UInt8) :
    strchrAt (front ++ s ++ c :: back) front.length c = some (front.length + s.length) := by
  have hstr : strAt (front ++ s ++ c :: back) front.length = s ++ c :: cstr back := by
    rw [strAt, List.append_assoc, List.drop_left, cstr, List.takeWhile_append_of_pos,
      List.takeWhile_cons_of_pos (by simpa using hzero), cstr]
    intro b hb
    have hne : b ≠ 0 := fun heq => hs (heq ▸ hb)
    simpa using hne
  rw [strchrAt, hstr, if_pos (by simp), List.idxOf_append_of_notMem hc, List.idxOf_cons_self,
    Nat.add_zero]

theorem strchrAt_eq_none (front : List UInt8) (hs : 0 ∉ s) (hc : c ∉ s) (back : List UInt8) :
    strchrAt (front ++ s ++ 0 :: back) front.length c = none := by
  rw [strchrAt, strAt_append front hs, if_neg hc]

/-- A byte behind a string is overwritten. -/
theorem cutAt_append (front s : List UInt8) (c : UInt8) (back : List UInt8) :
    cutAt (front ++ s ++ c :: back) (some (front.length + s.length)) =
      front ++ s ++ 0 :: back := by
  have hset := List.set_append_right (s := front ++ s) (t := c :: back)
    (front.length + s.length) 0 (by simp)
  rw [cutAt, Option.elim_some, hset, List.length_append, Nat.sub_self, List.set_cons_zero]

end TlpiLearn
