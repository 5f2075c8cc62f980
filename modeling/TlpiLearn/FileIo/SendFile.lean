import TlpiLearn.Foundations.Transfers
import Mathlib.Tactic

/-!
# A copy of `sendfile`

`my_sendfile` of `61/3/my_sendfile.c` on a file with given contents. The results of the system calls
are parameters: `lseek` and every `read` and `write` may fail, and the reads and writes may be
short. What has been read and written and the lengths given to `read` are logged.

`count` is kept in an `int`. Up to `INT_MAX` this is the count itself, and the loop copies the
slice that was asked for (`copyLoop_natCast`); from there on it is another number, which may be
negative and is then a length for `read` beyond the size of the buffer. An explicit offset moves the
offset of `in_fd`, and the bytes that were read move it further.
-/

namespace TlpiLearn.SendFile

/-- `MAXLINE`. -/
def MAXLINE : ℕ := 1024

/-- The file behind `in_fd`; its size is an `off_t`. -/
structure InFile where
  contents : List UInt8
  size_lt : contents.length < 2 ^ 63

/-- What the calls return: whether `in_fd` can be positioned, and how much each `read` and each
`write` transfers at most. -/
structure Calls where
  lseek : Bool
  read : ℕ → Option ℕ
  write : ℕ → Option ℕ

/-- The offset of `in_fd`, and what has been done since the call of `my_sendfile`. -/
structure Sys where
  position : ℕ
  /-- What the reads have returned. -/
  taken : List UInt8
  /-- What has been written to `out_fd`. -/
  out : List UInt8
  /-- The lengths given to `read`. -/
  lengths : List ℕ
  deriving DecidableEq, Repr

/-- What a call can run into besides returning. -/
inductive Fault
  /-- A `read` that stores behind the end of `buf`. -/
  | overrun
  | diverges
  deriving DecidableEq, Repr

/-- How the loop ends. -/
inductive Exit
  /-- `return -1` behind an incomplete `write`. -/
  | gaveUp
  | left (readn rest : ℤ)
  deriving DecidableEq, Repr

/-- The value of an `int`. -/
def toInt (z : ℤ) : ℤ := z.bmod (2 ^ 32)

/-- `(rest > MAXLINE) ? MAXLINE : rest` as a `size_t`. -/
def readLength (rest : ℤ) : ℕ := (BitVec.ofInt 64 (if MAXLINE < rest then MAXLINE else rest)).toNat

/-- Before the first call. -/
def Sys.start (position : ℕ) : Sys where
  position := position
  taken := []
  out := []
  lengths := []

/-- A `read` of `n` bytes that returns `bs`. -/
def Sys.readn (s : Sys) (n : ℕ) (bs : List UInt8) : Sys where
  position := s.position + bs.length
  taken := s.taken ++ bs
  out := s.out
  lengths := s.lengths ++ [n]

/-- A `write` that transfers `bs`. -/
def Sys.wrote (s : Sys) (bs : List UInt8) : Sys := { s with out := s.out ++ bs }

/-- The loop of `my_sendfile`. -/
def copyLoop (env : Calls) (contents : List UInt8) : ℕ → ℕ → Sys → ℤ → Except Fault (Exit × Sys)
  | 0, _, _, _ => .error .diverges
  | fuel + 1, i, s, rest =>
    match readUpTo (env.read i) (readLength rest) (contents.drop s.position) with
    | none => .ok (.left (-1) rest, s.readn (readLength rest) [])
    | some bs =>
      let s := s.readn (readLength rest) bs
      if bs = [] then .ok (.left 0 rest, s)
      else if MAXLINE < bs.length then .error .overrun
      else
        let rest := toInt (rest - bs.length)
        let r := writeUpTo (env.write i) bs
        let s := s.wrote r.2
        if r.1 ≠ bs.length then .ok (.gaveUp, s)
        else if rest = 0 then .ok (.left bs.length rest, s)
        else copyLoop env contents fuel (i + 1) s rest

/-- What `my_sendfile` returns, `*offset` behind it, and what it has done. -/
structure Result where
  ret : ℤ
  offset : Option (BitVec 64)
  sys : Sys
  deriving DecidableEq, Repr

/-- `my_sendfile` behind its loop. -/
def finish (offset : Option (BitVec 64)) (count : BitVec 64) : Exit × Sys → Result
  | (.gaveUp, s) => { ret := -1, offset := offset, sys := s }
  | (.left readn rest, s) =>
    if readn = -1 then { ret := -1, offset := offset, sys := s }
    else
      let moved := count - BitVec.ofInt 64 rest
      { ret := moved.toInt, offset := offset.map fun off => off + moved, sys := s }

/-- The offset of `in_fd` at the start of the loop, unless `lseek` fails. -/
def seek (env : Calls) (position : ℕ) : Option (BitVec 64) → Option ℕ
  | none => some position
  | some off => if env.lseek ∧ 0 ≤ off.toInt then some off.toNat else none

/-- `my_sendfile`, where `in_fd` has the offset `position`. -/
def my_sendfile (env : Calls) (infile : InFile) (position : ℕ) (offset : Option (BitVec 64))
    (count : BitVec 64) : Except Fault Result :=
  match seek env position offset with
  | none => .ok { ret := -1, offset := offset, sys := .start position }
  | some position =>
    (copyLoop env infile.contents (infile.contents.length + 1) 0 (.start position)
      (count.setWidth 32).toInt).map (finish offset count)

/-- No call fails, and the writes are complete. -/
structure Calls.Works (env : Calls) : Prop where
  lseek : env.lseek = true
  read : ∀ i, env.read i ≠ none
  write : ∀ i (bs : List UInt8), bs.length ≤ MAXLINE → Complete (env.write i) bs

variable {env : Calls} {contents : List UInt8} {fuel i : ℕ} {s s' : Sys} {rest : ℤ}

/-! ## The loop -/

/-- The lengths of the reads for a rest that is not negative. -/
theorem readLength_natCast (rest : ℕ) : readLength rest = min rest MAXLINE := by
  rw [readLength, BitVec.toNat_ofInt]
  unfold MAXLINE
  split_ifs with h
  · have hmin : min rest 1024 = 1024 := min_eq_right (by omega)
    rw [hmin]
    rfl
  · have hmin : min rest 1024 = rest := min_eq_left (by omega)
    rw [hmin]
    omega

/-- The length of a read for a negative rest. -/
theorem lt_readLength_of_neg (hneg : rest < 0) (hlow : -2 ^ 31 ≤ rest) :
    MAXLINE < readLength rest := by
  rw [readLength, BitVec.toNat_ofInt]
  unfold MAXLINE
  rw [if_neg (by omega)]
  omega

/-- **One pass of the loop**: a failing or empty `read`, an incomplete `write`, the end of the
rest, or the next pass. -/
theorem copyLoop_succ {e : Exit} (h : copyLoop env contents (fuel + 1) i s rest = .ok (e, s')) :
    (e = .left (-1) rest ∧ env.read i = none ∧ s' = s.readn (readLength rest) []) ∨
    (e = .left 0 rest ∧ (readLength rest = 0 ∨ contents.drop s.position = []) ∧
      s' = s.readn (readLength rest) []) ∨
    ∃ bs, bs ≠ [] ∧ bs <+: contents.drop s.position ∧ bs.length ≤ readLength rest ∧
      bs.length ≤ MAXLINE ∧
      ((e = .gaveUp ∧ ¬ Complete (env.write i) bs ∧
          s' = (s.readn (readLength rest) bs).wrote (writeUpTo (env.write i) bs).2) ∨
        (e = .left bs.length 0 ∧ toInt (rest - bs.length) = 0 ∧
          s' = (s.readn (readLength rest) bs).wrote bs) ∨
        (toInt (rest - bs.length) ≠ 0 ∧
          copyLoop env contents fuel (i + 1) ((s.readn (readLength rest) bs).wrote bs)
            (toInt (rest - bs.length)) = .ok (e, s'))) := by
  rw [copyLoop] at h
  cases hread : readUpTo (env.read i) (readLength rest) (contents.drop s.position) with
  | none =>
    rw [hread] at h
    cases h
    exact Or.inl ⟨rfl, Option.map_eq_none_iff.1 hread, rfl⟩
  | some bs =>
    have hbs := isPrefix_of_readUpTo hread
    have hle := length_le_of_readUpTo hread
    simp only [hread] at h
    split_ifs at h with hnil hover hshort hzero
    · cases h
      exact Or.inr (Or.inl ⟨rfl, (readUpTo_eq_nil_iff hread).1 hnil, by rw [hnil]⟩)
    all_goals refine Or.inr (Or.inr ⟨bs, hnil, hbs, hle, not_lt.1 hover, ?_⟩)
    · cases h
      exact Or.inl ⟨rfl, hshort, rfl⟩
    · have hcomplete : Complete (env.write i) bs := not_not.1 hshort
      rw [hcomplete.snd_writeUpTo] at h
      cases h
      exact Or.inr (Or.inl ⟨by rw [hzero], hzero, rfl⟩)
    · have hcomplete : Complete (env.write i) bs := not_not.1 hshort
      rw [hcomplete.snd_writeUpTo] at h
      exact Or.inr (Or.inr ⟨hzero, h⟩)

/-- Two slices, one behind the other. -/
theorem append_prefix_drop {bs bs' : List UInt8} {n : ℕ} (h : bs <+: contents.drop n)
    (h' : bs' <+: contents.drop (n + bs.length)) : bs ++ bs' <+: contents.drop n := by
  obtain ⟨t, ht⟩ := h
  rw [← List.drop_drop, ← ht, List.drop_left] at h'
  rw [← ht]
  exact (List.prefix_append_right_inj bs).2 h'

/-- Between two states of a run: the bytes `bs` behind the offset have been read, and `w` has been
written. -/
structure Copied (contents : List UInt8) (s s' : Sys) (bs w : List UInt8) : Prop where
  slice : bs <+: contents.drop s.position
  position : s'.position = s.position + bs.length
  taken : s'.taken = s.taken ++ bs
  out : s'.out = s.out ++ w
  lengths : s.lengths ⊆ s'.lengths

namespace Copied

/-- One `read` and one `write`. -/
theorem pass {bs : List UInt8} (hbs : bs <+: contents.drop s.position) (n : ℕ) (w : List UInt8) :
    Copied contents s ((s.readn n bs).wrote w) bs w where
  slice := hbs
  position := rfl
  taken := rfl
  out := rfl
  lengths := List.subset_append_left _ _

/-- A `read` that fails or returns nothing. -/
theorem nothing (contents : List UInt8) (s : Sys) (n : ℕ) :
    Copied contents s (s.readn n []) [] [] where
  slice := List.nil_prefix
  position := rfl
  taken := rfl
  out := (List.append_nil _).symm
  lengths := List.subset_append_left _ _

theorem trans {s₁ : Sys} {bs bs' w w' : List UInt8} (h : Copied contents s s₁ bs w)
    (h' : Copied contents s₁ s' bs' w') : Copied contents s s' (bs ++ bs') (w ++ w') where
  slice := append_prefix_drop h.slice (h.position ▸ h'.slice)
  position := by rw [h'.position, h.position, List.length_append, add_assoc]
  taken := by rw [h'.taken, h.taken, List.append_assoc]
  out := by rw [h'.out, h.out, List.append_assoc]
  lengths := List.Subset.trans h.lengths h'.lengths

end Copied

/-- **What any run of the loop does**: it reads a part of the contents from the offset on, and
writes the start of that part, and all of it if the loop comes to its end. -/
theorem copyLoop_copied {e : Exit} (h : copyLoop env contents fuel i s rest = .ok (e, s')) :
    ∃ bs w, Copied contents s s' bs w ∧ w <+: bs ∧ (e ≠ .gaveUp → w = bs) := by
  induction fuel generalizing i s rest with
  | zero => cases h
  | succ fuel ih =>
    obtain ⟨-, -, rfl⟩ | ⟨-, -, rfl⟩ | ⟨bs, -, hbs, -, -, hpass⟩ := copyLoop_succ h
    · exact ⟨[], [], .nothing _ _ _, List.prefix_rfl, fun _ => rfl⟩
    · exact ⟨[], [], .nothing _ _ _, List.prefix_rfl, fun _ => rfl⟩
    · obtain ⟨rfl, -, rfl⟩ | ⟨-, -, rfl⟩ | ⟨-, hrest⟩ := hpass
      · exact ⟨bs, _, .pass hbs _ _, snd_writeUpTo_isPrefix _ _, fun hne => absurd rfl hne⟩
      · exact ⟨bs, bs, .pass hbs _ _, List.prefix_rfl, fun _ => rfl⟩
      · obtain ⟨bs', w, hcopied, hw, heq⟩ := ih hrest
        refine ⟨bs ++ bs', bs ++ w, (Copied.pass hbs _ _).trans hcopied, ?_, fun hne => ?_⟩
        · exact (List.prefix_append_right_inj bs).2 hw
        · rw [heq hne]

/-- The first `read` of a run is logged. -/
theorem readLength_mem_of_copyLoop {e : Exit}
    (h : copyLoop env contents fuel i s rest = .ok (e, s')) : readLength rest ∈ s'.lengths := by
  have hmem (bs w : List UInt8) :
      readLength rest ∈ ((s.readn (readLength rest) bs).wrote w).lengths :=
    List.mem_append_right _ List.mem_cons_self
  cases fuel with
  | zero => cases h
  | succ fuel =>
    obtain ⟨-, -, rfl⟩ | ⟨-, -, rfl⟩ | ⟨bs, -, hbs, -, -, hpass⟩ := copyLoop_succ h
    · exact List.mem_append_right _ List.mem_cons_self
    · exact List.mem_append_right _ List.mem_cons_self
    · obtain ⟨-, -, rfl⟩ | ⟨-, -, rfl⟩ | ⟨-, hrest⟩ := hpass
      · exact hmem bs _
      · exact hmem bs bs
      · obtain ⟨bs', w, hcopied, -⟩ := copyLoop_copied hrest
        exact hcopied.lengths (hmem bs bs)

/-- An `int` that does not overflow. -/
theorem toInt_of_lt {z : ℤ} (hz : 0 ≤ z) (hlt : z < 2 ^ 31) : toInt z = z :=
  Int.bmod_eq_of_le (by omega) (by omega)

/-- **A run of the loop from a rest that is not negative**: `rest` goes down with the offset of
`in_fd` up to its end, the lengths are bounded, and if nothing fails the loop is left when the rest
or the contents are used up. -/
theorem copyLoop_natCast {e : Exit} {rest : ℕ} (hrest : rest < 2 ^ 31)
    (h : copyLoop env contents fuel i s rest = .ok (e, s')) :
    ∃ k ≤ rest, s'.position = s.position + k ∧
      (∀ n ∈ s'.lengths, n ∈ s.lengths ∨ n ≤ MAXLINE) ∧
      (∀ readn rest', e = .left readn rest' → rest' = rest - k) ∧
      (env.Works → k = min rest (contents.drop s.position).length ∧
        ∃ readn rest', e = .left readn rest' ∧ readn ≠ -1) := by
  have hlengths (rest : ℕ) (s : Sys) (bs : List UInt8) :
      ∀ n ∈ (s.readn (readLength rest) bs).lengths, n ∈ s.lengths ∨ n ≤ MAXLINE := by
    intro n hn
    refine (List.mem_append.1 hn).imp_right fun hn => ?_
    rw [List.mem_singleton.1 hn, readLength_natCast]
    exact min_le_right _ _
  induction fuel generalizing i s rest with
  | zero => cases h
  | succ fuel ih =>
    obtain ⟨rfl, hfail, rfl⟩ | ⟨rfl, hnothing, rfl⟩ | ⟨bs, hne, hbs, hle, -, hpass⟩ :=
      copyLoop_succ h
    · refine ⟨0, Nat.zero_le _, rfl, hlengths rest s [], fun readn rest' heq => ?_,
        fun hworks => ?_⟩
      · cases heq
        omega
      · exact absurd hfail (hworks.read i)
    · refine ⟨0, Nat.zero_le _, rfl, hlengths rest s [], fun readn rest' heq => ?_,
        fun hworks => ?_⟩
      · cases heq
        omega
      · refine ⟨?_, 0, rest, rfl, by decide⟩
        rw [readLength_natCast] at hnothing
        unfold MAXLINE at hnothing
        obtain hzero | hnil := hnothing
        · omega
        · rw [hnil, List.length_nil, Nat.min_zero]
    · rw [readLength_natCast, le_min_iff] at hle
      have hlen : 0 < bs.length := List.length_pos_of_ne_nil hne
      have hcast : ((rest - bs.length : ℕ) : ℤ) = rest - bs.length := by omega
      have htoInt : toInt (rest - bs.length) = ((rest - bs.length : ℕ) : ℤ) := by
        rw [toInt_of_lt (by omega) (by omega), hcast]
      have hdrop := hbs.length_le
      rw [htoInt] at hpass
      obtain ⟨rfl, hshort, rfl⟩ | ⟨rfl, hzero, rfl⟩ | ⟨hpos, hrun⟩ := hpass
      · refine ⟨bs.length, hle.1, rfl, hlengths rest s bs, fun readn rest' heq => ?_,
          fun hworks => ?_⟩
        · cases heq
        · exact absurd (hworks.write i bs hle.2) hshort
      · refine ⟨bs.length, hle.1, rfl, hlengths rest s bs, fun readn rest' heq => ?_,
          fun hworks => ?_⟩
        · cases heq
          omega
        · exact ⟨by omega, bs.length, 0, rfl, by omega⟩
      · obtain ⟨k, hk, hposition, hlen', hleft, hworks'⟩ := ih (by omega) hrun
        have hposition₁ : ((s.readn (readLength rest) bs).wrote bs).position =
          s.position + bs.length := rfl
        rw [hposition₁] at hposition hworks'
        refine ⟨bs.length + k, by omega, by omega, fun n hn => ?_, fun readn rest' heq => ?_,
          fun hworks => ?_⟩
        · obtain hn | hn := hlen' n hn
          · exact hlengths rest s bs n hn
          · exact Or.inr hn
        · have hend := hleft readn rest' heq
          omega
        · obtain ⟨hkeq, hexit⟩ := hworks' hworks
          refine ⟨?_, hexit⟩
          rw [← List.drop_drop, List.length_drop] at hkeq
          omega

/-- **The loop ends** where no `read` gets more space than there is. -/
theorem copyLoop_returns {rest : ℕ} (hrest : rest < 2 ^ 31)
    (hfuel : (contents.drop s.position).length < fuel) :
    ∃ e s', copyLoop env contents fuel i s rest = .ok (e, s') := by
  induction fuel generalizing i s rest with
  | zero => exact absurd hfuel (Nat.not_lt_zero _)
  | succ fuel ih =>
    rw [copyLoop]
    cases hread : readUpTo (env.read i) (readLength rest) (contents.drop s.position) with
    | none => exact ⟨_, _, rfl⟩
    | some bs =>
      have hle := length_le_of_readUpTo hread
      have havail := (isPrefix_of_readUpTo hread).length_le
      rw [readLength_natCast, le_min_iff] at hle
      simp only [hle.2.not_gt, if_false]
      split_ifs with hnil hshort hzero
      · exact ⟨_, _, rfl⟩
      · exact ⟨_, _, rfl⟩
      · exact ⟨_, _, rfl⟩
      · have hlen : 0 < bs.length := List.length_pos_of_ne_nil hnil
        have hcast : ((rest - bs.length : ℕ) : ℤ) = rest - bs.length := by omega
        rw [toInt_of_lt (by omega) (by omega), ← hcast]
        have hposition : ((s.readn (readLength rest) bs).wrote
          (writeUpTo (env.write i) bs).2).position = s.position + bs.length := rfl
        refine ih (by omega) ?_
        rw [List.length_drop] at hfuel havail
        rw [hposition, List.length_drop]
        omega

/-! ## The whole call -/

variable {infile : InFile} {position : ℕ} {offset : Option (BitVec 64)} {count : BitVec 64}

/-- The `int` of a count up to `INT_MAX` is the count. -/
theorem toInt_setWidth_of_lt (hcount : count.toNat < 2 ^ 31) :
    (count.setWidth 32).toInt = (count.toNat : ℤ) := by
  rw [BitVec.toInt_eq_toNat_of_lt, BitVec.toNat_setWidth, Nat.mod_eq_of_lt (by omega)]
  rw [BitVec.toNat_setWidth, Nat.mod_eq_of_lt (by omega)]
  omega

@[simp] theorem finish_sys (offset : Option (BitVec 64)) (count : BitVec 64) (e : Exit) (s : Sys) :
    (finish offset count (e, s)).sys = s := by
  cases e with
  | gaveUp => rfl
  | left readn rest =>
    rw [finish]
    split_ifs <;> rfl

/-- A value other than −1 is returned behind the loop. -/
theorem finish_of_ret_ne {e : Exit} (h : (finish offset count (e, s)).ret ≠ -1) :
    ∃ readn rest', e = .left readn rest' ∧ (finish offset count (e, s)).offset =
      offset.map fun off => off + (count - BitVec.ofInt 64 rest') := by
  cases e with
  | gaveUp => exact absurd rfl h
  | left readn rest' =>
    refine ⟨readn, rest', rfl, ?_⟩
    rw [finish] at h ⊢
    split_ifs at h ⊢
    · exact absurd rfl h
    · rfl

/-- The run behind the `lseek`. -/
theorem my_sendfile_of_seek {start : ℕ} (hseek : seek env position offset = some start) :
    my_sendfile env infile position offset count =
      (copyLoop env infile.contents (infile.contents.length + 1) 0 (.start start)
        (count.setWidth 32).toInt).map (finish offset count) := by
  rw [my_sendfile, hseek]

/-- A call that returns has come through the loop. -/
theorem copyLoop_of_my_sendfile {start : ℕ} (hseek : seek env position offset = some start)
    {r : Result} (hrun : my_sendfile env infile position offset count = .ok r) :
    ∃ e s, copyLoop env infile.contents (infile.contents.length + 1) 0 (.start start)
      (count.setWidth 32).toInt = .ok (e, s) ∧ r = finish offset count (e, s) := by
  rw [my_sendfile_of_seek hseek] at hrun
  cases hloop : copyLoop env infile.contents (infile.contents.length + 1) 0 (.start start)
      (count.setWidth 32).toInt with
  | error fault =>
    rw [hloop] at hrun
    cases hrun
  | ok x =>
    rw [hloop] at hrun
    cases hrun
    exact ⟨x.1, x.2, rfl, rfl⟩

/-- The runs of the loop from the start. -/
theorem copyLoop_start (env : Calls) (contents : List UInt8) (start : ℕ) {rest : ℕ}
    (hrest : rest < 2 ^ 31) :
    ∃ e s, copyLoop env contents (contents.length + 1) 0 (.start start) rest = .ok (e, s) := by
  refine copyLoop_returns hrest ?_
  rw [List.length_drop]
  omega

/-- The value of an `int`, if it is not negative. -/
theorem lt_of_toInt_setWidth {rest : ℕ} (hrest : (count.setWidth 32).toInt = rest) :
    rest < 2 ^ 31 := by
  have hbound := BitVec.toInt_lt (x := count.setWidth 32)
  omega

/-- **A call without failures whose `int` is not negative** copies as much as the `int` says, and
what it returns is the whole count without the rest. -/
theorem my_sendfile_of_works (hworks : env.Works) {start rest : ℕ}
    (hseek : seek env position offset = some start) (hrest : (count.setWidth 32).toInt = rest) :
    ∃ s, my_sendfile env infile position offset count = .ok
        { ret := (count - BitVec.ofInt 64 (rest - s.out.length)).toInt
          offset := offset.map fun off => off + (count - BitVec.ofInt 64 (rest - s.out.length))
          sys := s } ∧
      s.out = (infile.contents.drop start).take rest ∧ s.position = start + s.out.length := by
  have hlt := lt_of_toInt_setWidth hrest
  obtain ⟨e, s, hrun⟩ := copyLoop_start env infile.contents start hlt
  obtain ⟨bs, w, hcopied, -, hall⟩ := copyLoop_copied hrun
  obtain ⟨k, -, hk, -, hrest', hexit⟩ := copyLoop_natCast hlt hrun
  obtain ⟨hkeq, readn, rest', rfl, hreadn⟩ := hexit hworks
  have hbk : bs.length = k := Nat.add_left_cancel (hcopied.position.symm.trans hk)
  have hout : s.out = bs := by
    rw [hcopied.out, hall Exit.noConfusion]
    rfl
  have hbs : bs = (infile.contents.drop start).take rest := by
    have htake := List.prefix_iff_eq_take.1 hcopied.slice
    rw [hbk, hkeq, ← List.take_eq_take_min] at htake
    exact htake
  refine ⟨s, ?_, hout.trans hbs, ?_⟩
  · rw [my_sendfile_of_seek hseek, hrest, hrun, hout, hbk, ← hrest' readn rest' rfl]
    simp only [Except.map, finish, if_neg hreadn]
  · rw [hout, hcopied.position]
    rfl

/-- The count without what is left of it. -/
theorem sub_ofInt_sub {k : ℕ} (hk : k ≤ count.toNat) :
    count - BitVec.ofInt 64 (count.toNat - k) = BitVec.ofNat 64 k := by
  have hcast : (count.toNat : ℤ) - k = ((count.toNat - k : ℕ) : ℤ) := by omega
  apply BitVec.eq_of_toNat_eq
  rw [hcast, BitVec.ofInt_natCast, BitVec.toNat_sub, BitVec.toNat_ofNat, BitVec.toNat_ofNat]
  omega

/-- A sum of offsets without an overflow. -/
theorem toNat_add_ofNat {off : BitVec 64} {k : ℕ} (h : off.toNat + k < 2 ^ 64) :
    (off + BitVec.ofNat 64 k).toNat = off.toNat + k := by
  rw [BitVec.toNat_add, BitVec.toNat_ofNat]
  omega

theorem toInt_add_ofNat {off : BitVec 64} {k : ℕ} (h : off.toNat + k < 2 ^ 63) :
    (off + BitVec.ofNat 64 k).toInt = (off.toNat : ℤ) + k := by
  have hnat := toNat_add_ofNat (h.trans (by norm_num))
  rw [BitVec.toInt_eq_toNat_of_lt, hnat, Nat.cast_add]
  omega

/-- **A call without failures with a count up to `INT_MAX`.** -/
theorem my_sendfile_of_count (hworks : env.Works) {start : ℕ}
    (hseek : seek env position offset = some start) (hcount : count.toNat < 2 ^ 31) :
    ∃ s, my_sendfile env infile position offset count = .ok
        { ret := s.out.length
          offset := offset.map fun off => off + BitVec.ofNat 64 s.out.length
          sys := s } ∧
      s.out = (infile.contents.drop start).take count.toNat ∧
        s.position = start + s.out.length := by
  obtain ⟨s, hrun, hout, hposition⟩ : ∃ s, my_sendfile env infile position offset count = _ ∧ _ :=
    my_sendfile_of_works hworks hseek (toInt_setWidth_of_lt hcount)
  have hlen : s.out.length ≤ count.toNat := by
    rw [hout]
    exact List.length_take_le _ _
  have hzero : (0#64 + BitVec.ofNat 64 s.out.length).toInt = _ := toInt_add_ofNat (by simp; omega)
  rw [sub_ofInt_sub hlen] at hrun
  refine ⟨s, ?_, hout, hposition⟩
  rw [hrun]
  simpa using hzero

/-- **`my_sendfile` copies the slice** from the start on, however the reads are split. -/
theorem my_sendfile_copies (hworks : env.Works) (hcount : count.toNat < 2 ^ 31)
    (hoffset : ∀ off ∈ offset, 0 ≤ off.toInt) :
    ∃ r, my_sendfile env infile position offset count = .ok r ∧
      r.sys.out = (infile.contents.drop (offset.elim position BitVec.toNat)).take count.toNat ∧
      r.ret = r.sys.out.length ∧
      r.offset.map BitVec.toInt = offset.map fun off => off.toInt + (r.sys.out.length : ℤ) := by
  have hseek : seek env position offset = some (offset.elim position BitVec.toNat) := by
    cases offset with
    | none => rfl
    | some off => exact if_pos ⟨hworks.lseek, hoffset off rfl⟩
  obtain ⟨s, hrun, hout, -⟩ := my_sendfile_of_count hworks hseek hcount
  refine ⟨_, hrun, hout, rfl, ?_⟩
  cases offset with
  | none => rfl
  | some off =>
    have hsize := infile.size_lt
    have hoff : 2 * off.toNat < 2 ^ 64 := BitVec.toInt_pos_iff.1 (hoffset off rfl)
    have hlen : s.out.length = min count.toNat (infile.contents.length - off.toNat) := by
      rw [hout, List.length_take, List.length_drop]
      rfl
    refine congrArg some ((toInt_add_ofNat (by omega)).trans ?_)
    exact congrArg (· + (s.out.length : ℤ)) (BitVec.toInt_eq_toNat_of_lt hoff).symm

/-- A file of three bytes. -/
def abc : InFile := ⟨[97, 98, 99], by decide⟩

/-- Reads of at most the given lengths, and complete writes. -/
def goodCalls (read : ℕ → ℕ) : Calls where
  lseek := true
  read i := some (read i)
  write _ := some MAXLINE

theorem goodCalls_works (read : ℕ → ℕ) : (goodCalls read).Works where
  lseek := rfl
  read _ := Option.some_ne_none _
  write _ _ := complete_of_length_le

/-- Two bytes from the second one on, in two short reads. -/
theorem my_sendfile_copies_abc :
    ∃ r, my_sendfile (goodCalls fun _ => 1) abc 0 (some 1) 2 = .ok r ∧ r.sys.out = [98, 99] ∧
      r.ret = 2 ∧ r.offset.map BitVec.toInt = some 3 := by
  have hoffset (off : BitVec 64) (hoff : off ∈ some (1 : BitVec 64)) : 0 ≤ off.toInt := by
    cases hoff
    decide
  have hcount : (2 : BitVec 64).toNat < 2 ^ 31 := by decide
  obtain ⟨r, hrun, hout, hret, hnew⟩ :
      ∃ r, my_sendfile (goodCalls fun _ => 1) abc 0 (some 1) 2 = .ok r ∧ _ :=
    my_sendfile_copies (goodCalls_works fun _ => 1) hcount hoffset
  have htwo : r.sys.out = [98, 99] := hout
  rw [htwo] at hret hnew
  exact ⟨r, hrun, htwo, hret, hnew⟩

/-! ## The count -/

/-- The lengths given to `read` are bounded, and a value other than `-1` is the number of the bytes
that were written. -/
def Counts (env : Calls) (infile : InFile) (position : ℕ) (offset : Option (BitVec 64))
    (count : BitVec 64) : Prop :=
  ∃ r, my_sendfile env infile position offset count = .ok r ∧
    (∀ n ∈ r.sys.lengths, n ≤ MAXLINE) ∧ (r.ret ≠ -1 → r.ret = r.sys.out.length)

/-- A call fails among those that move `rest` bytes from `position` on, of which the next are the
`i`-th `read` and the `i`-th `write`: a `read`, or a `write` of what was read. -/
inductive Fails (env : Calls) (contents : List UInt8) : ℕ → ℕ → ℕ → Prop
  | read {i position rest : ℕ} (h : env.read i = none) : Fails env contents i position rest
  | write {i position rest : ℕ} {bs : List UInt8} (hne : bs ≠ [])
      (hread : readUpTo (env.read i) (min rest MAXLINE) (contents.drop position) = some bs)
      (hwrite : ¬ Complete (env.write i) bs) : Fails env contents i position rest
  | next {i position rest : ℕ} {bs : List UInt8} (hne : bs ≠ [])
      (hread : readUpTo (env.read i) (min rest MAXLINE) (contents.drop position) = some bs)
      (hwrite : Complete (env.write i) bs) (hlt : bs.length < rest)
      (h : Fails env contents (i + 1) (position + bs.length) (rest - bs.length)) :
      Fails env contents i position rest

/-- Behind a `read` of `bs` a call fails if there is something to write, and either the `write` is
not complete or one of the calls behind it fails. -/
theorem fails_of_read_iff {position rest : ℕ} {bs : List UInt8}
    (hread : readUpTo (env.read i) (min rest MAXLINE) (contents.drop position) = some bs) :
    Fails env contents i position rest ↔ bs ≠ [] ∧ (Complete (env.write i) bs →
      bs.length < rest ∧ Fails env contents (i + 1) (position + bs.length) (rest - bs.length)) := by
  constructor
  · intro hfails
    cases hfails with
    | read h =>
      rw [h] at hread
      cases hread
    | write hne hread' hwrite =>
      obtain rfl := Option.some.inj (hread.symm.trans hread')
      exact ⟨hne, fun hcomplete => absurd hcomplete hwrite⟩
    | next hne hread' hwrite hlt hfails =>
      obtain rfl := Option.some.inj (hread.symm.trans hread')
      exact ⟨hne, fun _ => ⟨hlt, hfails⟩⟩
  · rintro ⟨hne, hnext⟩
    by_cases hwrite : Complete (env.write i) bs
    · obtain ⟨hlt, hfails⟩ := hnext hwrite
      exact .next hne hread hwrite hlt hfails
    · exact .write hne hread hwrite

/-- **The loop gives up**, or leaves with `-1`, exactly when a call fails that it makes. -/
theorem fails_iff {e : Exit} {rest : ℕ} (hrest : rest < 2 ^ 31)
    (h : copyLoop env contents fuel i s rest = .ok (e, s')) :
    Fails env contents i s.position rest ↔ e = .gaveUp ∨ ∃ rest', e = .left (-1) rest' := by
  induction fuel generalizing i s rest with
  | zero => cases h
  | succ fuel ih =>
    rw [copyLoop, readLength_natCast] at h
    cases hread : readUpTo (env.read i) (min rest MAXLINE) (contents.drop s.position) with
    | none =>
      rw [hread] at h
      cases h
      exact iff_of_true (.read (Option.map_eq_none_iff.1 hread)) (.inr ⟨_, rfl⟩)
    | some bs =>
      have hle := (length_le_of_readUpTo hread).trans (min_le_left _ _)
      rw [fails_of_read_iff hread]
      simp only [hread] at h
      split_ifs at h with hnil hover hshort hzero
      · cases h
        exact iff_of_false (fun hfails => hfails.1 hnil) (by simp)
      · cases h
        exact iff_of_true ⟨hnil, fun hcomplete => absurd hcomplete hshort⟩ (.inl rfl)
      all_goals
        have hpos : 0 < bs.length := List.length_pos_of_ne_nil hnil
        have hcomplete : Complete (env.write i) bs := not_not.1 hshort
        have hcast : toInt (rest - bs.length) = ((rest - bs.length : ℕ) : ℤ) := by
          rw [toInt_of_lt (by omega) (by omega)]
          omega
        rw [hcast] at hzero h
      · cases h
        refine iff_of_false (fun hfails => ?_) ?_
        · have hlt := (hfails.2 hcomplete).1
          omega
        · rintro (h | ⟨rest', h⟩)
          · cases h
          · have hlen := (Exit.left.inj h).1
            omega
      · rw [← ih (by omega) h]
        constructor
        · exact fun hfails => (hfails.2 hcomplete).2
        · exact fun hfails => ⟨hnil, fun _ => ⟨by omega, hfails⟩⟩

/-- The count without what is left of its low half, which is not negative. -/
theorem toNat_sub_ofInt {rest k : ℕ} (hrest : (count.setWidth 32).toInt = rest) (hk : k ≤ rest) :
    (count - BitVec.ofInt 64 (rest - k)).toNat + rest = count.toNat + k ∧
      count.toNat % 2 ^ 32 = rest := by
  have hlt := lt_of_toInt_setWidth hrest
  have hmod : count.toNat % 2 ^ 32 = rest := by
    have hnat : (count.setWidth 32).toNat = count.toNat % 2 ^ 32 := BitVec.toNat_setWidth 32 count
    have hbound := (count.setWidth 32).isLt
    rw [BitVec.toInt_eq_toNat_cond] at hrest
    split_ifs at hrest <;> omega
  have hcast : (rest : ℤ) - k = ((rest - k : ℕ) : ℤ) := by omega
  have hle := Nat.mod_le count.toNat (2 ^ 32)
  have hcount := count.isLt
  rw [hcast, BitVec.ofInt_natCast, BitVec.toNat_sub, BitVec.toNat_ofNat]
  omega

/-- Behind a loop that was left without a failure neither `-1` nor, from `2 ^ 31` on, the number of
the bytes written is returned. -/
theorem ret_ne {rest k : ℕ} (hrest : (count.setWidth 32).toInt = rest) (hk : k ≤ rest) :
    (count - BitVec.ofInt 64 (rest - k)).toInt ≠ -1 ∧
      (2 ^ 31 ≤ count.toNat → (count - BitVec.ofInt 64 (rest - k)).toInt ≠ k) := by
  obtain ⟨hsum, hmod⟩ := toNat_sub_ofInt hrest hk
  have hlt := lt_of_toInt_setWidth hrest
  have hbound := (count - BitVec.ofInt 64 (rest - k)).isLt
  rw [BitVec.toInt_eq_toNat_cond]
  constructor
  · split_ifs <;> omega
  · intro hcount
    split_ifs <;> omega

/-- The calls whose `int` is not negative are bounded in their reads, so that only the return value
counts. -/
theorem counts_iff_ret {start rest k : ℕ} {e : Exit}
    (hseek : seek env position offset = some start) (hrest : (count.setWidth 32).toInt = rest)
    (hrun : copyLoop env infile.contents (infile.contents.length + 1) 0 (.start start) rest
      = .ok (e, s)) (hout : s.out.length = k) :
    Counts env infile position offset count ↔
      ((finish offset count (e, s)).ret ≠ -1 → (finish offset count (e, s)).ret = k) := by
  have hlt := lt_of_toInt_setWidth hrest
  obtain ⟨-, -, -, hlengths, -⟩ := copyLoop_natCast hlt hrun
  have hcall : my_sendfile env infile position offset count
      = .ok (finish offset count (e, s)) := by
    rw [my_sendfile_of_seek hseek, hrest, hrun]
    rfl
  constructor
  · rintro ⟨r, hr, -, hret⟩
    obtain rfl := Except.ok.inj (hcall.symm.trans hr)
    rwa [finish_sys, hout] at hret
  · refine fun hret => ⟨_, hcall, fun n hn => ?_, by rwa [finish_sys, hout]⟩
    rw [finish_sys] at hn
    exact (hlengths n hn).resolve_left List.not_mem_nil

/-- A call whose `int` is not negative: the return value is right if the `int` is the count, or if a
call fails. -/
theorem counts_iff_of_natCast {start rest : ℕ} (hseek : seek env position offset = some start)
    (hrest : (count.setWidth 32).toInt = rest) :
    Counts env infile position offset count ↔
      count.toNat < 2 ^ 31 ∨ Fails env infile.contents 0 start rest := by
  have hlt := lt_of_toInt_setWidth hrest
  obtain ⟨e, s, hrun⟩ := copyLoop_start env infile.contents start hlt
  have hposition₀ : (Sys.start start).position = start := rfl
  rw [← hposition₀, fails_iff hlt hrun]
  by_cases hfails : e = .gaveUp ∨ ∃ rest', e = .left (-1) rest'
  · rw [counts_iff_ret hseek hrest hrun rfl]
    refine iff_of_true (fun hret => absurd ?_ hret) (.inr hfails)
    obtain rfl | ⟨rest', rfl⟩ := hfails
    · rfl
    · rw [finish, if_pos rfl]
  · -- the loop was left at the end of the rest or of the contents
    obtain ⟨bs, w, hcopied, -, hall⟩ := copyLoop_copied hrun
    obtain ⟨k, hk, hposition, -, hleft, -⟩ := copyLoop_natCast hlt hrun
    obtain ⟨readn, rest', rfl⟩ : ∃ readn rest', e = .left readn rest' := by
      cases e with
      | gaveUp => exact absurd (.inl rfl) hfails
      | left readn rest' => exact ⟨readn, rest', rfl⟩
    have hreadn : readn ≠ -1 := fun h => hfails (.inr ⟨rest', by rw [h]⟩)
    have hbk : bs.length = k := Nat.add_left_cancel (hcopied.position.symm.trans hposition)
    have hout : s.out.length = k := by
      rw [hcopied.out, hall Exit.noConfusion]
      exact hbk
    obtain rfl := hleft readn rest' rfl
    obtain ⟨hminus, hlarge⟩ := ret_ne hrest hk
    rw [counts_iff_ret hseek hrest hrun hout, or_iff_left hfails, finish, if_neg hreadn]
    constructor
    · intro hret
      by_contra hcount
      exact hlarge (not_lt.1 hcount) (hret hminus)
    · intro hcount _
      obtain rfl : rest = count.toNat := by
        rw [toInt_setWidth_of_lt hcount] at hrest
        omega
      have hzero : (0#64 + BitVec.ofNat 64 k).toInt = _ := toInt_add_ofNat (by simp; omega)
      rw [sub_ofInt_sub hk]
      simpa using hzero

/-- **The count is right exactly up to `INT_MAX`**, apart from calls that fail: from there on the
first `read` gets a length beyond the buffer, or, unless one of the calls fails that move the low
half of the count, the return value is too large. -/
theorem my_sendfile_counts_iff (env : Calls) (infile : InFile) (position : ℕ)
    (offset : Option (BitVec 64)) (count : BitVec 64) :
    Counts env infile position offset count ↔
      count.toNat < 2 ^ 31 ∨ seek env position offset = none ∨
        ∃ start rest : ℕ, seek env position offset = some start ∧
          (count.setWidth 32).toInt = rest ∧ Fails env infile.contents 0 start rest := by
  cases hseek : seek env position offset with
  | none =>
    refine iff_of_true ⟨_, by rw [my_sendfile, hseek], fun n hn => ?_, fun h => absurd rfl h⟩
      (.inr (.inl rfl))
    cases hn
  | some start =>
    by_cases hneg : (count.setWidth 32).toInt < 0
    · -- the first `read` is too long
      refine iff_of_false ?_ ?_
      · rintro ⟨r, hrun, hlengths, -⟩
        obtain ⟨e, s, hloop, rfl⟩ := copyLoop_of_my_sendfile hseek hrun
        have hmem := readLength_mem_of_copyLoop hloop
        rw [finish_sys] at hlengths
        exact (lt_readLength_of_neg hneg (BitVec.le_toInt _)).not_ge (hlengths _ hmem)
      · rintro (hcount | hnone | ⟨_, rest, -, hrest, -⟩)
        · rw [toInt_setWidth_of_lt hcount] at hneg
          omega
        · cases hnone
        · omega
    · obtain ⟨rest, hrest⟩ := Int.eq_ofNat_of_zero_le (not_lt.1 hneg)
      rw [counts_iff_of_natCast hseek hrest]
      refine or_congr_right ⟨fun hfails => .inr ⟨start, rest, rfl, hrest, hfails⟩, ?_⟩
      rintro (hnone | ⟨start', rest', hstart, hrest', hfails⟩)
      · cases hnone
      · obtain rfl := Option.some.inj hstart
        obtain rfl : rest = rest' := by omega
        exact hfails

/-- A count of `2 ^ 31` is a negative `int`. -/
theorem not_counts_two_pow :
    ¬ Counts (goodCalls fun _ => 1) abc 0 none (BitVec.ofNat 64 (2 ^ 31)) := by
  rintro ⟨r, hrun, hlengths, -⟩
  obtain ⟨e, s, hloop, rfl⟩ := copyLoop_of_my_sendfile rfl hrun
  have hmem := readLength_mem_of_copyLoop hloop
  rw [finish_sys] at hlengths
  exact absurd (hlengths _ hmem) (by decide)

/-! ## The offset of `in_fd` -/

/-- **Where a call with an explicit offset leaves `in_fd`**: where it was if `lseek` fails, and
otherwise behind the bytes that were read from `*offset` on, on every return. On success this is
the new `*offset`. A call without an offset goes on from there. -/
theorem my_sendfile_moves {off : BitVec 64} {r : Result}
    (hrun : my_sendfile env infile position (some off) count = .ok r) :
    (seek env position (some off) = none → r.ret = -1 ∧ r.sys.position = position) ∧
    (seek env position (some off) ≠ none →
      r.sys.position = off.toNat + r.sys.taken.length ∧
      (r.ret ≠ -1 → count.toNat < 2 ^ 31 →
        r.sys.out = r.sys.taken ∧ r.offset.map BitVec.toNat = some r.sys.position) ∧
      ∀ env' count' r', my_sendfile env' infile r.sys.position none count' = .ok r' →
        r.sys.taken ++ r'.sys.taken <+: infile.contents.drop off.toNat) := by
  cases hseek : seek env position (some off) with
  | none =>
    rw [my_sendfile, hseek] at hrun
    cases hrun
    exact ⟨fun _ => ⟨rfl, rfl⟩, fun hne => absurd rfl hne⟩
  | some start =>
    have hstart : start = off.toNat := by
      rw [seek] at hseek
      split_ifs at hseek
      exact (Option.some.inj hseek).symm
    obtain ⟨e, s, hloop, rfl⟩ := copyLoop_of_my_sendfile hseek hrun
    obtain ⟨bs, w, hcopied, -, hall⟩ := copyLoop_copied hloop
    have hposition : s.position = off.toNat + bs.length := hstart ▸ hcopied.position
    have hslice : bs <+: infile.contents.drop off.toNat := hstart ▸ hcopied.slice
    have htaken : s.taken = bs := hcopied.taken
    rw [finish_sys, htaken]
    refine ⟨fun hnone => absurd hnone (Option.some_ne_none _), fun _ => ⟨hposition, ?_, ?_⟩⟩
    · intro hret hcount
      obtain ⟨readn, rest', rfl, hoffset⟩ := finish_of_ret_ne hret
      have hout : s.out = w := hcopied.out
      refine ⟨by rw [hout, hall Exit.noConfusion], ?_⟩
      rw [toInt_setWidth_of_lt hcount] at hloop
      obtain ⟨k, hk, hpos, -, hrest, -⟩ := copyLoop_natCast hcount hloop
      have hbk : bs.length = k := Nat.add_left_cancel (hcopied.position.symm.trans hpos)
      have hsize := infile.size_lt
      have hlen := hslice.length_le
      rw [List.length_drop] at hlen
      have hoff := off.isLt
      rw [hoffset, hrest readn rest' rfl, sub_ofInt_sub hk, hposition, hbk]
      exact congrArg some (toNat_add_ofNat (by omega))
    · intro env' count' r' hrun'
      obtain ⟨e', s', hloop', rfl⟩ := copyLoop_of_my_sendfile rfl hrun'
      obtain ⟨bs', w', hcopied', -, -⟩ := copyLoop_copied hloop'
      have htaken' : s'.taken = bs' := hcopied'.taken
      have hslice' : bs' <+: infile.contents.drop (off.toNat + bs.length) :=
        hposition ▸ hcopied'.slice
      rw [finish_sys, htaken']
      exact append_prefix_drop hslice hslice'

/-- One byte from the second one on, and then the next byte without an offset. -/
theorem my_sendfile_moves_abc :
    ∃ r r', my_sendfile (goodCalls fun _ => 1) abc 0 (some 1) 1 = .ok r ∧
      my_sendfile (goodCalls fun _ => 1) abc r.sys.position none 1 = .ok r' ∧
      r.sys.position = 2 ∧ r.sys.taken ++ r'.sys.taken <+: [98, 99] := by
  obtain ⟨r, hrun, htaken, hposition⟩ : ∃ r,
      my_sendfile (goodCalls fun _ => 1) abc 0 (some 1) 1 = .ok r ∧ r.sys.taken = [98] ∧
        r.sys.position = 2 := ⟨_, rfl, rfl, rfl⟩
  obtain ⟨r', hrun'⟩ : ∃ r', my_sendfile (goodCalls fun _ => 1) abc 2 none 1 = .ok r' :=
    ⟨_, rfl⟩
  rw [← hposition] at hrun'
  obtain ⟨-, hmoves⟩ := my_sendfile_moves hrun
  obtain ⟨-, -, hnext⟩ := hmoves (by decide)
  exact ⟨r, r', hrun, hrun', hposition, hnext _ _ _ hrun'⟩

/-- An explicit offset moves the offset of `in_fd`. -/
theorem not_position_kept :
    ¬ ∀ r, my_sendfile (goodCalls fun _ => 1) abc 0 (some 1) 1 = .ok r → r.sys.position = 0 := by
  intro h
  exact absurd (h _ rfl) (by decide)

end TlpiLearn.SendFile
