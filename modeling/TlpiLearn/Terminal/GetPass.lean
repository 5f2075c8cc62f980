import TlpiLearn.Foundations.CString
import TlpiLearn.Foundations.Constants
import TlpiLearn.Foundations.Machine
import TlpiLearn.Foundations.Outcome
import Mathlib.Tactic

/-!
# `mygetpass`

`62/3/mygetpass.c` switches the echo of the terminal off, reads a line into an array that stays from
call to call, puts a null byte in the place of the last byte of the string that is in the array
then, and restores the terminal. The string may be longer than the line: `read` leaves what stands
behind its bytes, and behind the array there is other memory. A store outside the array is a
`Fault`.

`mygetpass_right_iff` says for every sequence of calls when each one that succeeds returns the line
typed for it, and `mygetpass_restores_iff` when a call that switched the echo off leaves the
terminal as it was.
-/

namespace TlpiLearn.GetPass

/-- `MAXPASSWORD`. -/
def MAXPASSWORD : ℕ := 256

/-- `ECHO`. -/
def ECHO : BitVec 32 := 8

/-- `struct termios`. -/
structure Termios where
  c_iflag : BitVec 32
  c_oflag : BitVec 32
  c_cflag : BitVec 32
  c_lflag : BitVec 32
  c_cc : List UInt8
  deriving DecidableEq

/-- `tp.c_lflag &= ~ECHO`. -/
def Termios.echoOff (tp : Termios) : Termios := { tp with c_lflag := tp.c_lflag &&& ~~~ECHO }

/-- The array `password`. -/
abbrev Password := {p : List UInt8 // p.length = MAXPASSWORD}

/-- What a `read` of `MAXPASSWORD` bytes delivers; nothing at the end of the file. -/
abbrev Block := {bs : List UInt8 // bs.length ≤ MAXPASSWORD}

/-- How the system calls of `mygetpass` come out; `ρ` is what `read` returns. -/
structure Answers (ρ : Type) where
  /-- The prompt is written. -/
  prompt : Bool
  tcgetattr : Bool
  /-- The `tcsetattr` that switches the echo off. -/
  tcsetattr : Bool
  read : ρ
  /-- The newline is written. -/
  newline : Bool
  /-- The `tcsetattr` that restores the attributes. -/
  restore : Bool

/-- What stays from call to call: the array and the terminal. -/
structure State where
  password : Password
  tty : Termios
  deriving DecidableEq

/-- A store outside the array. -/
inductive Fault
  | before
  | past
  deriving DecidableEq, Repr

/-- `read(STDIN_FILENO, password, MAXPASSWORD)`. -/
def fill (password : Password) (bs : Block) : Password :=
  ⟨bs.1 ++ password.1.drop bs.1.length, by
    rw [List.length_append, List.length_drop, password.2]
    exact Nat.add_sub_of_le bs.2⟩

/-- `password[i] = '\0'`. -/
def clear (password : Password) (i : ℕ) : Password :=
  ⟨password.1.set i 0, by rw [List.length_set, password.2]⟩

/-- `password[strlen(password) - 1] = '\0'`, with the memory `behind` the array. -/
def terminate (behind : List UInt8) (password : Password) : Except Fault Password :=
  if 0 ∉ password.1 ++ behind then .error .past
  else
    match (cstr (password.1 ++ behind)).length with
    | 0 => .error .before
    | i + 1 => if i < MAXPASSWORD then .ok (clear password i) else .error .past

/-- `mygetpass`: the returned string, `none` for `NULL`, and what stays. -/
def mygetpass (behind : List UInt8) (s : State) (a : Answers (Option Block)) :
    Except Fault (Option (List UInt8) × State) :=
  if !a.prompt then .ok (none, s)
  else if !a.tcgetattr then .ok (none, s)
  else
    let prev := s.tty
    if !a.tcsetattr then .ok (none, s)
    else
      let tty := prev.echoOff
      match a.read with
      | none => .ok (none, ⟨s.password, tty⟩)
      | some bs => do
        let password ← terminate behind (fill s.password bs)
        if !a.newline then return (none, ⟨password, tty⟩)
        else if !a.restore then return (none, ⟨password, tty⟩)
        else return (some (cstr (password.1 ++ behind)), ⟨password, prev⟩)

/-- The call gets to the `read`. -/
def Answers.Reads {ρ : Type} (a : Answers ρ) : Prop := a.prompt ∧ a.tcgetattr ∧ a.tcsetattr

/-- The calls behind the `read` succeed. -/
def Answers.Finishes {ρ : Type} (a : Answers ρ) : Prop := a.newline ∧ a.restore

instance {ρ : Type} (a : Answers ρ) : Decidable a.Reads := inferInstanceAs (Decidable (_ ∧ _ ∧ _))

instance {ρ : Type} (a : Answers ρ) : Decidable a.Finishes := inferInstanceAs (Decidable (_ ∧ _))

variable {behind : List UInt8} {s : State} {a : Answers (Option Block)}

theorem mygetpass_of_not_reads (h : ¬ a.Reads) : mygetpass behind s a = .ok (none, s) := by
  by_cases hprompt : a.prompt
  · by_cases hget : a.tcgetattr
    · have hset : a.tcsetattr = false := by
        by_contra hset
        exact h ⟨hprompt, hget, Bool.eq_true_of_not_eq_false hset⟩
      simp [mygetpass, hprompt, hget, hset]
    · simp [mygetpass, hprompt, hget]
  · simp [mygetpass, hprompt]

theorem mygetpass_none (h : a.Reads) (hread : a.read = none) :
    mygetpass behind s a = .ok (none, ⟨s.password, s.tty.echoOff⟩) := by
  obtain ⟨hprompt, hget, hset⟩ := h
  simp [mygetpass, hprompt, hget, hset, hread]

theorem mygetpass_some (h : a.Reads) {bs : Block} (hread : a.read = some bs) :
    mygetpass behind s a = (do
      let password ← terminate behind (fill s.password bs)
      return if a.Finishes then (some (cstr (password.1 ++ behind)), ⟨password, s.tty⟩)
        else (none, ⟨password, s.tty.echoOff⟩)) := by
  obtain ⟨hprompt, hget, hset⟩ := h
  cases hterm : terminate behind (fill s.password bs) with
  | error e => simp [mygetpass, hprompt, hget, hset, hread, hterm]
  | ok password =>
    cases hnewline : a.newline <;> cases hrestore : a.restore <;>
      simp [mygetpass, hprompt, hget, hset, hread, hterm, Answers.Finishes, hnewline, hrestore]

/-! ## The terminal -/

/-- A mask takes nothing away from flags that have none of its bits. -/
theorem and_not_eq_self_iff {w : ℕ} {x m : BitVec w} : x &&& ~~~m = x ↔ x &&& m = 0 := by
  constructor
  · intro h
    rw [← h, BitVec.and_assoc, BitVec.not_and_self]
    exact BitVec.and_zero
  · intro h
    have hsplit : x &&& (m ||| ~~~m) = x := by
      rw [BitVec.or_not_self, BitVec.and_allOnes]
    rw [BitVec.and_or_distrib_left, h] at hsplit
    simpa using hsplit

theorem echoOff_eq_self_iff {tp : Termios} : tp.echoOff = tp ↔ tp.c_lflag &&& ECHO = 0 := by
  rw [← and_not_eq_self_iff]
  constructor
  · exact congrArg Termios.c_lflag
  · intro h
    rw [Termios.echoOff, h]

/-- **When the terminal is restored**: a call that has switched the echo off and returns, and whose
restoring `tcsetattr` succeeds, leaves the attributes as it found them if and only if the line was
read and the newline written, or the echo was off at the call. -/
theorem mygetpass_restores_iff {r : Option (List UInt8)} {s' : State}
    (h : mygetpass behind s a = .ok (r, s')) (hreads : a.Reads) (hrestore : a.restore) :
    s'.tty = s.tty ↔ (a.read.isSome ∧ a.newline) ∨ s.tty.c_lflag &&& ECHO = 0 := by
  rw [← echoOff_eq_self_iff]
  cases hread : a.read with
  | none =>
    rw [mygetpass_none hreads hread] at h
    cases h
    simp
  | some bs =>
    rw [mygetpass_some hreads hread, bind_eq_ok_iff] at h
    obtain ⟨password, -, h⟩ := h
    by_cases hnewline : a.newline
    · rw [if_pos ⟨hnewline, hrestore⟩] at h
      cases h
      simp [hnewline]
    · rw [if_neg fun hfin => hnewline hfin.1] at h
      cases h
      simp [hnewline]

/-- A terminal that echoes. -/
def echoing : Termios := ⟨0, 0, 0, ECHO, []⟩

/-- The array as the program starts with it. -/
def init (tty : Termios) : State := ⟨⟨List.replicate MAXPASSWORD 0, List.length_replicate⟩, tty⟩

/-- A call whose `read` fails. -/
def readFails : Answers (Option Block) := ⟨true, true, true, none, true, true⟩

/-- A call whose `read` fails leaves the terminal as it was if the echo was off. -/
theorem mygetpass_restores_iff_readFails :
    echoing.echoOff = (init echoing).tty ↔
      (readFails.read.isSome ∧ readFails.newline) ∨ echoing.c_lflag &&& ECHO = 0 := by
  have h : mygetpass [] (init echoing) readFails
      = .ok (none, ⟨(init echoing).password, echoing.echoOff⟩) := rfl
  exact mygetpass_restores_iff h ⟨rfl, rfl, rfl⟩ rfl

/-- A failed `read` leaves the echo off. -/
theorem mygetpass_leaves_echo_off :
    ∃ s', mygetpass [] (init echoing) readFails = .ok (none, s') ∧ readFails.Reads ∧
      readFails.restore ∧ s'.tty ≠ (init echoing).tty :=
  ⟨⟨(init echoing).password, echoing.echoOff⟩, rfl, by decide, rfl, by decide⟩

/-! ## Sequences of calls -/

/-- A line without its newline. -/
abbrev Line := {l : List UInt8 // 0 ∉ l ∧ newline ∉ l ∧ l.length < MAXPASSWORD}

/-- What is typed for a call. -/
inductive Typed
  | line (l : Line)
  | endOfFile
  /-- The `read` fails. -/
  | error

/-- A line with its newline. -/
def Line.block (l : Line) : Block :=
  ⟨l.1 ++ [newline], by
    rw [List.length_append, List.length_singleton]
    exact l.2.2.2⟩

/-- What `read` delivers of it. -/
def Typed.read : Typed → Option Block
  | .line l => some l.block
  | .endOfFile => some ⟨[], Nat.zero_le _⟩
  | .error => none

/-- The line without its newline. -/
def Typed.text : Typed → List UInt8
  | .line l => l.1
  | .endOfFile | .error => []

/-- The answers to a call for which a line is typed. -/
def Answers.answers (c : Answers Typed) : Answers (Option Block) := { c with read := c.read.read }

/-- A process that calls `mygetpass`. -/
def machine (behind : List UInt8) (tty : Termios) : Machine State (Answers Typed) where
  init := init tty
  step s c := (mygetpass behind s c.answers).toOption.map Prod.snd

/-- The call stores nothing outside the array, and if it succeeds it returns the line typed for
it. -/
def Right (behind : List UInt8) (s : State) (c : Answers Typed) : Prop :=
  ∃ r s', mygetpass behind s c.answers = .ok (r, s') ∧ ∀ line ∈ r, line = c.read.text

/-- The condition on the array: behind the newline stands a null byte, and at the end of the file
the string of the call before has one byte. A call that fails behind its `read` needs less. -/
def Fits (behind : List UInt8) (s : State) (c : Answers Typed) : Prop :=
  c.Reads →
    match c.read with
    | .line l => (s.password.1 ++ behind)[l.1.length + 1]? = some 0 ∨
        ¬ c.Finishes ∧ l.1.length + 1 < MAXPASSWORD
    | .endOfFile => if c.Finishes then (cstr s.password.1).length = 1
        else cstr s.password.1 ≠ []
    | .error => True

/-- The last byte of the array is a null byte. -/
def Ends (s : State) : Prop := s.password.1[MAXPASSWORD - 1]? = some 0

/-! ## The string in the array -/

variable {p q : Password}

theorem terminate_eq_ok_iff :
    terminate behind p = .ok q ↔ 0 ∈ p.1 ++ behind ∧
      ∃ i < MAXPASSWORD, (cstr (p.1 ++ behind)).length = i + 1 ∧ q = clear p i := by
  unfold terminate
  split_ifs with hzero
  · split
    · rename_i hlen
      refine iff_of_false nofun fun h => ?_
      obtain ⟨-, i, -, hi, -⟩ := h
      omega
    · rename_i i hlen
      split_ifs with hi
      · rw [Except.ok.injEq]
        constructor
        · rintro rfl
          exact ⟨hzero, i, hi, hlen, rfl⟩
        · rintro ⟨-, j, -, hj, rfl⟩
          obtain rfl : i = j := by omega
          rfl
      · refine iff_of_false nofun fun h => ?_
        obtain ⟨-, j, hj, hlen', -⟩ := h
        omega
  · exact iff_of_false nofun fun h => hzero h.1

/-- The store takes the last byte off the string. -/
theorem cstr_of_terminate (h : terminate behind p = .ok q) :
    cstr (q.1 ++ behind) = (cstr (p.1 ++ behind)).dropLast := by
  obtain ⟨-, i, hi, hlen, rfl⟩ := terminate_eq_ok_iff.1 h
  have hset : (clear p i).1 ++ behind = (p.1 ++ behind).set i 0 := by
    rw [clear, List.set_append_left _ _ (by rw [p.2]; exact hi)]
  rw [hset, cstr_set, List.dropLast_eq_take, hlen, Nat.add_sub_cancel]

theorem exists_terminate_iff :
    (∃ q, terminate behind p = .ok q) ↔ 0 ∈ p.1 ++ behind ∧ cstr (p.1 ++ behind) ≠ [] ∧
      (cstr (p.1 ++ behind)).length ≤ MAXPASSWORD := by
  simp only [terminate_eq_ok_iff, ← List.length_pos_iff]
  constructor
  · rintro ⟨q, hzero, i, hi, hlen, -⟩
    exact ⟨hzero, by omega, by omega⟩
  · rintro ⟨hzero, hpos, hle⟩
    exact ⟨clear p _, hzero, (cstr (p.1 ++ behind)).length - 1, by omega, by omega, rfl⟩

/-- A string ends at a null byte. -/
theorem length_cstr_le {mem : List UInt8} {k : ℕ} (h : mem[k]? = some 0) :
    (cstr mem).length ≤ k := by
  by_contra hlt
  have hk : k < (cstr mem).length := not_le.1 hlt
  refine zero_notMem_cstr mem (List.mem_of_getElem? (i := k) ?_)
  obtain ⟨rest, hrest⟩ := cstr_prefix_mem mem
  rw [← hrest, List.getElem?_append_left hk] at h
  exact h

/-- The string behind the `read` of a line. -/
theorem cstr_fill_line (behind : List UInt8) (p : Password) (l : Line) :
    (fill p l.block).1 ++ behind = l.1 ++ newline :: (p.1 ++ behind).drop (l.1.length + 1) ∧
      cstr ((fill p l.block).1 ++ behind)
        = l.1 ++ newline :: cstr ((p.1 ++ behind).drop (l.1.length + 1)) := by
  have hlen : l.1.length + 1 ≤ p.1.length := by
    rw [p.2]
    exact l.2.2.2
  have hmem : (fill p l.block).1 ++ behind
      = l.1 ++ newline :: (p.1 ++ behind).drop (l.1.length + 1) := by
    change l.1 ++ [newline] ++ p.1.drop (l.1 ++ [newline]).length ++ behind = _
    rw [List.length_append, List.length_singleton, List.append_assoc, List.append_assoc,
      List.singleton_append, List.drop_append_of_le_length hlen]
  refine ⟨hmem, ?_⟩
  have hline : ∀ b ∈ l.1, decide (b ≠ 0) = true := by
    intro b hb
    exact decide_eq_true fun hb0 => l.2.1 (hb0 ▸ hb)
  rw [hmem, cstr, List.takeWhile_append_of_pos hline, List.takeWhile_cons_of_pos (by decide), cstr]

/-! ## One call -/

/-- What a call that gets to its `read` is right about. -/
theorem right_iff_of_read {c : Answers Typed} (hreads : c.Reads) {bs : Block}
    (hread : c.read.read = some bs) :
    Right behind s c ↔ 0 ∈ (fill s.password bs).1 ++ behind ∧
      cstr ((fill s.password bs).1 ++ behind) ≠ [] ∧
      (cstr ((fill s.password bs).1 ++ behind)).length ≤ MAXPASSWORD ∧
      (c.Finishes → (cstr ((fill s.password bs).1 ++ behind)).dropLast = c.read.text) := by
  have hcall : mygetpass behind s c.answers = _ := mygetpass_some hreads hread
  have hright : Right behind s c ↔ ∃ q, terminate behind (fill s.password bs) = .ok q ∧
      (c.Finishes → (cstr ((fill s.password bs).1 ++ behind)).dropLast = c.read.text) := by
    constructor
    · rintro ⟨r, s', h, hline⟩
      rw [hcall, bind_eq_ok_iff] at h
      obtain ⟨q, hterm, h⟩ := h
      refine ⟨q, hterm, fun hfin => ?_⟩
      rw [if_pos (show c.answers.Finishes from hfin)] at h
      cases h
      rw [← cstr_of_terminate hterm]
      exact hline _ rfl
    · rintro ⟨q, hterm, hline⟩
      rw [Right, hcall, hterm, ok_bind]
      by_cases hfin : c.Finishes
      · rw [if_pos (show c.answers.Finishes from hfin)]
        refine ⟨_, _, rfl, fun line h => ?_⟩
        obtain rfl := Option.some.inj h
        rw [cstr_of_terminate hterm]
        exact hline hfin
      · rw [if_neg (show ¬ c.answers.Finishes from hfin)]
        exact ⟨_, _, rfl, nofun⟩
  rw [hright, exists_and_right, exists_terminate_iff, and_assoc, and_assoc]

/-- Behind a line the string ends if the next byte is a null byte. -/
theorem getElem?_eq_zero_iff {mem : List UInt8} {k : ℕ} :
    mem[k]? = some 0 ↔ 0 ∈ mem.drop k ∧ cstr (mem.drop k) = [] := by
  rw [← List.head?_drop]
  constructor
  · intro h
    have hne : mem.drop k ≠ [] := by
      intro hnil
      rw [hnil] at h
      cases h
    exact ⟨List.mem_of_mem_head? h, (cstr_eq_nil_iff hne).2 h⟩
  · rintro ⟨hmem, hnil⟩
    exact (cstr_eq_nil_iff (List.ne_nil_of_mem hmem)).1 hnil

/-- The null byte at the end of the array is behind any place in it. -/
theorem Ends.getElem?_drop (hs : Ends s) (behind : List UInt8) {n : ℕ} (hn : n < MAXPASSWORD) :
    ((s.password.1 ++ behind).drop n)[MAXPASSWORD - 1 - n]? = some 0 := by
  have hlast : MAXPASSWORD - 1 < s.password.1.length := by
    rw [s.password.2]
    decide
  rw [List.getElem?_drop, Nat.add_sub_of_le (by omega), List.getElem?_append_left hlast]
  exact hs

theorem right_line_iff {c : Answers Typed} (hs : Ends s) (hreads : c.Reads) {l : Line}
    (hread : c.read = .line l) :
    Right behind s c ↔ (s.password.1 ++ behind)[l.1.length + 1]? = some 0 ∨
      ¬ c.Finishes ∧ l.1.length + 1 < MAXPASSWORD := by
  have hbs : c.read.read = some l.block := by
    rw [hread]
    rfl
  obtain ⟨hmem, hstr⟩ := cstr_fill_line behind s.password l
  rw [right_iff_of_read hreads hbs, hstr, hmem, getElem?_eq_zero_iff, hread]
  have hlen : l.1.length < MAXPASSWORD := l.2.2.2
  -- the null byte at the end of the array is behind a short line
  have hend := hs.getElem?_drop behind (n := l.1.length + 1)
  generalize (s.password.1 ++ behind).drop (l.1.length + 1) = rest at hend
  have hzero : 0 ∈ l.1 ++ newline :: rest ↔ 0 ∈ rest := by
    rw [List.mem_append, List.mem_cons, or_iff_right l.2.1, or_iff_right (by decide)]
  have hdrop : (l.1 ++ newline :: cstr rest).dropLast = l.1 ↔ cstr rest = [] := by
    rw [List.dropLast_append_cons, List.append_right_eq_self]
    cases cstr rest <;> simp
  have hsize : (l.1 ++ newline :: cstr rest).length = l.1.length + 1 + (cstr rest).length := by
    rw [List.length_append, List.length_cons]
    omega
  rw [hzero, hsize, Typed.text, hdrop]
  by_cases hfin : c.Finishes
  · rw [forall_prop_of_true hfin]
    constructor
    · rintro ⟨hrest, -, -, hnil⟩
      exact .inl ⟨hrest, hnil⟩
    · rintro (⟨hrest, hnil⟩ | ⟨hnot, -⟩)
      · refine ⟨hrest, by simp, ?_, hnil⟩
        rw [hnil, List.length_nil]
        omega
      · exact absurd hfin hnot
  · constructor
    · rintro ⟨hrest, -, hle, -⟩
      by_cases hlt : l.1.length + 1 < MAXPASSWORD
      · exact .inr ⟨hfin, hlt⟩
      · exact .inl ⟨hrest, List.length_eq_zero_iff.1 (by omega)⟩
    · rintro (⟨hrest, hnil⟩ | ⟨-, hlt⟩)
      · refine ⟨hrest, by simp, ?_, fun h => absurd h hfin⟩
        rw [hnil, List.length_nil]
        omega
      · have hle := length_cstr_le (hend hlt)
        exact ⟨List.mem_of_getElem? (hend hlt), by simp, by omega, fun h => absurd h hfin⟩

theorem right_endOfFile_iff {c : Answers Typed} (hs : Ends s) (hreads : c.Reads)
    (hread : c.read = .endOfFile) :
    Right behind s c ↔ if c.Finishes then (cstr s.password.1).length = 1
      else cstr s.password.1 ≠ [] := by
  have hbs : c.read.read = some ⟨[], Nat.zero_le _⟩ := by
    rw [hread]
    rfl
  have hzero : 0 ∈ s.password.1 := List.mem_of_getElem? hs
  have hle : (cstr s.password.1).length ≤ MAXPASSWORD - 1 := length_cstr_le hs
  have hfill : (fill s.password ⟨[], Nat.zero_le _⟩).1 = s.password.1 := rfl
  rw [right_iff_of_read hreads hbs, hfill, cstr_append hzero, hread, Typed.text,
    ← List.length_eq_zero_iff, List.length_dropLast, ← List.length_pos_iff]
  have hmem : 0 ∈ s.password.1 ++ behind := List.mem_append_left _ hzero
  split_ifs with hfin
  · rw [forall_prop_of_true hfin]
    constructor
    · rintro ⟨-, hpos, -, hone⟩
      omega
    · intro hone
      exact ⟨hmem, by omega, by omega, by omega⟩
  · constructor
    · exact fun h => h.2.1
    · exact fun hpos => ⟨hmem, hpos, by omega, fun h => absurd h hfin⟩

/-- **When a call is right.** -/
theorem right_iff_fits (hs : Ends s) (c : Answers Typed) : Right behind s c ↔ Fits behind s c := by
  by_cases hreads : c.Reads
  · rw [Fits, forall_prop_of_true hreads]
    cases hread : c.read with
    | line l => exact right_line_iff hs hreads hread
    | endOfFile => exact right_endOfFile_iff hs hreads hread
    | error =>
      refine iff_of_true ⟨_, _, mygetpass_none hreads ?_, nofun⟩ trivial
      rw [Answers.answers, hread]
      rfl
  · refine iff_of_true ⟨_, _, mygetpass_of_not_reads hreads, nofun⟩ ?_
    exact fun h => absurd h hreads

/-- The store keeps the null byte at the end of the array, or puts one there behind a line that
fills the array. -/
theorem getElem?_of_terminate {typed : Typed} (hs : Ends s) {bs : Block}
    (hread : typed.read = some bs) (h : terminate behind (fill s.password bs) = .ok q) :
    q.1[MAXPASSWORD - 1]? = some 0 := by
  obtain ⟨-, i, hi, hlen, rfl⟩ := terminate_eq_ok_iff.1 h
  have hlast : MAXPASSWORD - 1 < (fill s.password bs).1.length := by
    rw [(fill s.password bs).2]
    decide
  by_cases hilast : i = MAXPASSWORD - 1
  · rw [clear, hilast]
    exact List.getElem?_set_self hlast
  · have hshort : bs.1.length ≤ MAXPASSWORD - 1 := by
      cases typed with
      | line l =>
        obtain rfl := Option.some.inj hread
        rw [(cstr_fill_line behind s.password l).2, List.length_append, List.length_cons] at hlen
        have hbs : l.block.1.length = l.1.length + 1 := by simp [Line.block]
        omega
      | endOfFile =>
        obtain rfl := Option.some.inj hread
        exact Nat.zero_le _
      | error => cases hread
    change ((bs.1 ++ s.password.1.drop bs.1.length).set i 0)[MAXPASSWORD - 1]? = some 0
    rw [List.getElem?_set_ne hilast, List.getElem?_append_right hshort, List.getElem?_drop,
      Nat.add_sub_of_le hshort]
    exact hs

/-- The last byte stays a null byte. -/
theorem ends_of_step {s' : State} {c : Answers Typed} {tty : Termios} (hs : Ends s)
    (h : (machine behind tty).step s c = some s') : Ends s' := by
  simp only [machine, Option.map_eq_some_iff, Prod.exists, exists_eq_right] at h
  obtain ⟨r, h⟩ := h
  have hcall : mygetpass behind s c.answers = .ok (r, s') := by
    cases hcall : mygetpass behind s c.answers with
    | error e =>
      rw [hcall] at h
      cases h
    | ok result =>
      rw [hcall] at h
      exact congrArg Except.ok (Option.some.inj h)
  by_cases hreads : c.Reads
  · cases hread : c.read.read with
    | none =>
      rw [mygetpass_none hreads hread] at hcall
      cases hcall
      exact hs
    | some bs =>
      rw [mygetpass_some hreads hread, bind_eq_ok_iff] at hcall
      obtain ⟨q, hterm, hcall⟩ := hcall
      have hq : s'.password = q := by
        split_ifs at hcall <;> cases hcall <;> rfl
      rw [Ends, hq]
      exact getElem?_of_terminate hs hread hterm
  · rw [mygetpass_of_not_reads hreads] at hcall
    cases hcall
    exact hs

/-! ## Every sequence -/

theorem ends_init (tty : Termios) : Ends (init tty) :=
  List.getElem?_replicate_of_lt (by decide)

/-- **When every call of a process is right**: each of its calls meets the condition on the array as
the calls in front of it have left it. -/
theorem mygetpass_right_iff (behind : List UInt8) (tty : Termios) (calls : List (Answers Typed)) :
    (machine behind tty).Meets (Right behind) (init tty) calls ↔
      (machine behind tty).Meets (Fits behind) (init tty) calls :=
  Machine.meets_congr (fun _ _ _ => ends_of_step) (fun _ c hs => right_iff_fits hs c)
    (ends_init tty) calls

/-- A call that succeeds. -/
def succeeds (l : Line) : Answers Typed := ⟨true, true, true, .line l, true, true⟩

/-- The line `abc`. -/
def abc : Line := ⟨[97, 98, 99], by decide⟩

/-- The line `x`. -/
def x : Line := ⟨[120], by decide⟩

/-- The array behind the call for `abc`. -/
def behindAbc : State :=
  ⟨clear (fill (init echoing).password abc.block) 3, echoing⟩

/-- The password `x` behind `abc` is returned with its newline. -/
theorem not_right_shorter :
    ¬ (machine [] echoing).Meets (Right []) (init echoing) [succeeds abc, succeeds x] := by
  rintro ⟨-, h⟩
  have hstep : (machine [] echoing).step (init echoing) (succeeds abc) = some behindAbc := by
    decide +kernel
  obtain ⟨⟨r, s', hcall, hline⟩, -⟩ := h _ hstep
  have hnewline : (mygetpass [] behindAbc (succeeds x).answers).toOption.map Prod.fst
      = some (some [120, 10]) := by
    decide +kernel
  rw [hcall] at hnewline
  obtain rfl := Option.some.inj hnewline
  exact absurd (hline _ rfl) (by decide)

end TlpiLearn.GetPass
