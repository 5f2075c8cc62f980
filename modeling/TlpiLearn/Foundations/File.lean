import Mathlib.Tactic

/-!
# Open files

An open file is a sequence of bytes and the offset of its description. `read` and `write` move the
offset by the bytes they transfer; a `write` beyond the end fills the gap with zeros. The lemmas
say what a `write` leaves in front of the offset (`take_write`) and where it writes
(`take_write_zero`). `encodeInt` and `decodeInt` are the four bytes of an `int`.
-/

namespace TlpiLearn

/-- An open file and the offset of its description. -/
structure OpenFile where
  contents : List UInt8
  offset : ℕ
  deriving DecidableEq, Repr

namespace OpenFile

/-- `read(fd, buf, n)`: the bytes transferred and the file afterwards. -/
def read (f : OpenFile) (n : ℕ) : List UInt8 × OpenFile :=
  let bs := (f.contents.drop f.offset).take n
  (bs, { f with offset := f.offset + bs.length })

/-- A `write` of all the bytes. -/
def write (f : OpenFile) (bs : List UInt8) : OpenFile where
  contents := f.contents.take f.offset ++ List.replicate (f.offset - f.contents.length) 0 ++ bs ++
    f.contents.drop (f.offset + bs.length)
  offset := f.offset + bs.length

/-- `lseek(fd, n, SEEK_SET)`. -/
def lseekSet (f : OpenFile) (n : ℕ) : OpenFile := { f with offset := n }

/-- `lseek(fd, n, SEEK_CUR)`, which fails in front of the start of the file. -/
def lseekCur (f : OpenFile) (n : ℤ) : Option OpenFile :=
  if 0 ≤ f.offset + n then some { f with offset := (f.offset + n).toNat } else none

variable (f : OpenFile) (bs : List UInt8) (n : ℕ)

@[simp] theorem contents_read : (f.read n).2.contents = f.contents := rfl

/-- A `read` of what is there. -/
theorem read_of_le {n : ℕ} (h : f.offset + n ≤ f.contents.length) :
    f.read n = ((f.contents.drop f.offset).take n, { f with offset := f.offset + n }) := by
  have hlen : ((f.contents.drop f.offset).take n).length = n := by
    rw [List.length_take, List.length_drop]
    omega
  rw [read, hlen]

/-- A step forward. -/
theorem lseekCur_natCast : f.lseekCur n = some { f with offset := f.offset + n } := by
  rw [lseekCur, if_pos (by omega)]
  rfl

/-- A step back inside of the file. -/
theorem lseekCur_neg {n : ℕ} (h : n ≤ f.offset) :
    f.lseekCur (-n) = some { f with offset := f.offset - n } := by
  have hcast : (f.offset : ℤ) + -n = ((f.offset - n : ℕ) : ℤ) := by omega
  rw [lseekCur, hcast, if_pos (Int.natCast_nonneg _), Int.toNat_natCast]

@[simp] theorem offset_write : (f.write bs).offset = f.offset + bs.length := rfl

@[simp] theorem contents_lseekSet : (f.lseekSet n).contents = f.contents := rfl

@[simp] theorem offset_lseekSet : (f.lseekSet n).offset = n := rfl

/-- A `write` never shortens the file. -/
theorem length_write_le : f.contents.length ≤ (f.write bs).contents.length := by
  simp only [write, List.length_append, List.length_take, List.length_replicate, List.length_drop]
  omega

/-- What lies in front of the offset stays. -/
theorem take_write {n : ℕ} (hn : n ≤ f.offset) (hlen : n ≤ f.contents.length) :
    (f.write bs).contents.take n = f.contents.take n := by
  have hmin : n ≤ (f.contents.take f.offset).length := by rw [List.length_take]; omega
  rw [write, List.append_assoc, List.append_assoc, List.take_append_of_le_length hmin,
    List.take_take, min_eq_left hn]

/-- A `write` at the start of the file is found there. -/
theorem take_write_zero (h : f.offset = 0) : (f.write bs).contents.take bs.length = bs := by
  simp [write, h]

end OpenFile

/-! ## The bytes of an `int` -/

/-- The four bytes of an `int`, least significant first. -/
def encodeInt (v : BitVec 32) : List UInt8 :=
  [UInt8.ofNat (v.toNat % 256), UInt8.ofNat (v.toNat / 256 % 256),
    UInt8.ofNat (v.toNat / 65536 % 256), UInt8.ofNat (v.toNat / 16777216 % 256)]

/-- The `int` that four bytes hold. -/
def decodeInt : List UInt8 → BitVec 32
  | [a, b, c, d] =>
    BitVec.ofNat 32 (a.toNat + 256 * b.toNat + 65536 * c.toNat + 16777216 * d.toNat)
  | _ => 0

@[simp] theorem length_encodeInt (v : BitVec 32) : (encodeInt v).length = 4 := rfl

@[simp] theorem decodeInt_encodeInt (v : BitVec 32) : decodeInt (encodeInt v) = v := by
  have hv := v.isLt
  apply BitVec.eq_of_toNat_eq
  simp only [encodeInt, decodeInt, UInt8.toNat_ofNat', BitVec.toNat_ofNat]
  omega

end TlpiLearn
