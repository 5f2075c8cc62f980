import Mathlib.Data.Nat.Notation

/-!
# Characters and constants of the C library

The characters that separate lines, words and names, the numbers of some errors, and the length of
the longest pathname.
-/

namespace TlpiLearn

/-- `'\t'`. -/
def tab : UInt8 := 9

/-- `'\n'`. -/
def newline : UInt8 := 10

/-- `' '`. -/
def space : UInt8 := 32

/-- `','`. -/
def comma : UInt8 := 44

/-- `'.'`. -/
def dot : UInt8 := 46

/-- `'/'`. -/
def slash : UInt8 := 47

/-- `':'`. -/
def colon : UInt8 := 58

/-- `'='`. -/
def equals : UInt8 := 61

/-- `EINTR`. -/
def EINTR : ℕ := 4

/-- `EBADF`. -/
def EBADF : ℕ := 9

/-- `EINVAL`. -/
def EINVAL : ℕ := 22

/-- `PATH_MAX`. -/
def PATH_MAX : ℕ := 4096

end TlpiLearn
