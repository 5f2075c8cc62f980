import TlpiLearn.Foundations.CString
import TlpiLearn.Foundations.Constants
import TlpiLearn.Foundations.Overlay
import Mathlib.Tactic

/-!
# The user name of the remote login server

`64/5/ssh_sv.c`: `readline` collects the bytes of a line in its array `buffer` and copies them to
the caller; `do_ssh` takes the newline off and hands the name to `login`. Neither checks the
length of the line, and the last byte that is taken off is that in front of the first null byte.

`readline_eq` says what `readline` returns on each stream and `do_ssh_login` what the name is;
`meets_iff` tells the streams on which `do_ssh` either gives up or runs `login` on the line.
-/

namespace TlpiLearn.SshLogin

/-- `MAXLINE`. -/
def MAXLINE : ℕ := 1024

/-- `'-'`. -/
def minus : UInt8 := 45

/-- What the client sends, and what the calls of the server return. -/
structure Session where
  /-- The bytes that `read(fd, &ch, 1)` returns. -/
  stream : List UInt8
  /-- The `read` behind the stream returns `-1`, and not 0. -/
  failed : Bool
  tcgetattr : Bool
  ioctl : Bool
  ptyFork : Bool

/-- The arrays `user` of `do_ssh` and `buffer` of `readline`. -/
structure Locals where
  user : List UInt8
  buffer : List UInt8
  length_user : user.length = MAXLINE
  length_buffer : buffer.length = MAXLINE

/-- A store outside an array. -/
inductive Fault
  | overrun
  | underrun
  deriving DecidableEq, Repr

/-- The loop of `readline`: its return value and the contents of `buf`. -/
def readlineLoop (last : ℤ) (buf : List UInt8) :
    List UInt8 → List UInt8 → ℕ → Except Fault (ℤ × List UInt8)
  | [], _, _ => .ok (last, buf)
  | ch :: stream, buffer, index =>
    if buffer.length ≤ index then .error .overrun
    else if ch = newline then
      if buffer.length ≤ index + 1 then .error .overrun
      else
        .ok (index + 1,
          strncpy MAXLINE (cstr (((buffer.set index ch).set (index + 1) 0))))
    else readlineLoop last buf stream (buffer.set index ch) (index + 1)

/-- `readline(connfd, user, MAXLINE)`. -/
def readline (s : Session) (l : Locals) : Except Fault (ℤ × List UInt8) :=
  readlineLoop (if s.failed then -1 else 0) l.user s.stream l.buffer 0

/-- How `do_ssh` ends in the server or in the child of `ptyFork`. -/
inductive Outcome
  /-- `return -1`. -/
  | gaveUp
  /-- In `errExit(msg)`. -/
  | exited (msg : String)
  /-- In `execlp("login", "login", user, NULL)`. -/
  | login (user : List UInt8)
  deriving DecidableEq, Repr

/-- `do_ssh` up to the `execlp` in the child. -/
def do_ssh (s : Session) (l : Locals) : Except Fault Outcome :=
  match readline s l with
  | .error fault => .error fault
  | .ok (r, user) =>
    if r ≤ 0 then .ok .gaveUp
    else if cstr user = [] then .error .underrun
    else
      let user := user.set ((cstr user).length - 1) 0
      if ¬s.tcgetattr then .ok (.exited "tcgetattr")
      else if ¬s.ioctl then .ok (.exited "ioctl-TIOCGWINSZ")
      else if ¬s.ptyFork then .ok (.exited "ptyFork")
      else .ok (.login (cstr user))

/-- The bytes in front of the first newline. -/
def line (stream : List UInt8) : List UInt8 := stream.takeWhile (· ≠ newline)

/-- What a run of `do_ssh` has to do with the stream: no store outside an array, and a name for
`login` that is the line of the stream, fits the arrays and is no option. -/
def Meets (s : Session) : Except Fault Outcome → Prop
  | .error _ => False
  | .ok .gaveUp => True
  | .ok (.exited _) => True
  | .ok (.login user) =>
    newline ∈ s.stream ∧ user = line s.stream ∧ user.length < MAXLINE ∧ user.head? ≠ some minus

/-- The server gets as far as `execlp`. -/
def Session.Forks (s : Session) : Prop := s.tcgetattr ∧ s.ioctl ∧ s.ptyFork

/-- **The condition** on the stream: a stream without a newline fits `buffer`. A line fits with its
newline and a null byte, does not begin with a null byte, and if it comes to the `execlp` has no
null byte at all and does not begin with `-`. -/
def Acceptable (s : Session) : Prop :=
  if newline ∈ s.stream then
    (line s.stream).length + 2 ≤ MAXLINE ∧ (line s.stream).head? ≠ some 0 ∧
      (s.Forks → 0 ∉ line s.stream ∧ (line s.stream).head? ≠ some minus)
  else s.stream.length ≤ MAXLINE

/-! ## `readline` -/

theorem line_cons_of_ne {ch : UInt8} (h : ch ≠ newline) (stream : List UInt8) :
    line (ch :: stream) = ch :: line stream := by
  simp [line, h]

theorem line_cons_newline (stream : List UInt8) : line (newline :: stream) = [] := by
  simp [line]

/-- The loop behind the bytes `pre` of the line. -/
theorem readlineLoop_eq (last : ℤ) (buf : List UInt8) {junk : List UInt8}
    (hjunk : junk.length = MAXLINE) (stream pre : List UInt8) (hpre : pre.length ≤ MAXLINE) :
    readlineLoop last buf stream (overlay junk pre) pre.length =
      if newline ∈ stream then
        if (pre ++ line stream).length + 2 ≤ MAXLINE then
          .ok ((pre ++ line stream).length + 1,
            strncpy MAXLINE (cstr (pre ++ line stream ++ [newline])))
        else .error .overrun
      else if (pre ++ stream).length ≤ MAXLINE then .ok (last, buf) else .error .overrun := by
  have hlen : (overlay junk pre).length = MAXLINE := by
    rw [length_overlay (by omega), hjunk]
  induction stream generalizing pre with
  | nil =>
    rw [readlineLoop, if_neg List.not_mem_nil, List.append_nil, if_pos hpre]
  | cons ch stream ih =>
    rw [readlineLoop, hlen]
    by_cases hfull : MAXLINE ≤ pre.length
    · have hline : ¬(pre ++ line (ch :: stream)).length + 2 ≤ MAXLINE := by
        rw [List.length_append]
        omega
      have hlong : ¬(pre ++ ch :: stream).length ≤ MAXLINE := by
        rw [List.length_append, List.length_cons]
        omega
      rw [if_pos hfull, if_neg hline, if_neg hlong, ite_self]
    · have hstore : (overlay junk pre).set pre.length ch = overlay junk (pre ++ [ch]) :=
        set_overlay (by omega) ch
      rw [if_neg hfull, hstore]
      by_cases hch : ch = newline
      · rw [hch, line_cons_newline, List.append_nil, if_pos rfl, if_pos List.mem_cons_self]
        by_cases hroom : MAXLINE ≤ pre.length + 1
        · rw [if_pos hroom, if_neg (by omega)]
        · have hnull : (overlay junk (pre ++ [newline])).set (pre.length + 1) 0 =
              overlay junk (pre ++ [newline] ++ [0]) := by
            have hset := set_overlay (w := pre ++ [newline]) (show _ < junk.length by
              rw [List.length_append, List.length_singleton]; omega) 0
            rwa [List.length_append, List.length_singleton] at hset
          rw [if_neg hroom, if_pos (by omega), hnull, overlay, cstr_append (by simp),
            cstr_append_zero]
      · have hmem : newline ∈ ch :: stream ↔ newline ∈ stream := by
          rw [List.mem_cons, or_iff_right (Ne.symm hch)]
        have hcons (t : List UInt8) : pre ++ [ch] ++ t = pre ++ ch :: t := by
          rw [List.append_assoc, List.singleton_append]
        have hloop := ih (pre ++ [ch]) (by rw [List.length_append, List.length_singleton]; omega)
          (by rw [← hstore, List.length_set, hlen])
        rw [hcons, hcons, List.length_append, List.length_singleton] at hloop
        rw [if_neg hch, hloop, line_cons_of_ne hch]
        simp only [hmem]

/-- **`readline`** on a session. -/
theorem readline_eq (s : Session) (l : Locals) :
    readline s l =
      if newline ∈ s.stream then
        if (line s.stream).length + 2 ≤ MAXLINE then
          .ok ((line s.stream).length + 1, strncpy MAXLINE (cstr (line s.stream ++ [newline])))
        else .error .overrun
      else if s.stream.length ≤ MAXLINE then .ok (if s.failed then -1 else 0, l.user)
      else .error .overrun :=
  readlineLoop_eq _ _ l.length_buffer s.stream [] (Nat.zero_le _)

/-! ## The name -/

/-- The line as `user` holds it is empty when it begins with a null byte. -/
theorem cstr_concat_eq_nil_iff {t : List UInt8} :
    cstr (t ++ [newline]) = [] ↔ t.head? = some 0 := by
  cases t with
  | nil => exact iff_of_false (by decide) (by simp)
  | cons a t =>
    rw [List.cons_append, cstr_eq_nil_iff (List.cons_ne_nil _ _)]
    rfl

/-- The line without its newline is `user` without its last byte, when it has no null byte. -/
theorem dropLast_cstr_concat_iff {t : List UInt8} :
    (cstr (t ++ [newline])).dropLast = t ↔ 0 ∉ t := by
  constructor
  · intro h hzero
    rw [← h] at hzero
    exact zero_notMem_cstr _ (List.mem_of_mem_dropLast hzero)
  · intro hzero
    have hself : 0 ∉ t ++ [newline] := by
      rw [List.mem_append, not_or]
      exact ⟨hzero, by decide⟩
    rw [cstr_eq_self hself, List.dropLast_concat]

section DoSsh

variable {s : Session} {l : Locals}

/-- `user` after the newline has been taken off. -/
theorem cstr_user {t : List UInt8} (hlen : t.length + 2 ≤ MAXLINE)
    (hhead : t.head? ≠ some 0) :
    let user := strncpy MAXLINE (cstr (t ++ [newline]))
    cstr user ≠ [] ∧
      cstr (user.set ((cstr user).length - 1) 0) = (cstr (t ++ [newline])).dropLast := by
  intro user
  have hshort : (cstr (t ++ [newline])).length < MAXLINE := by
    have hle := (cstr_prefix_mem (t ++ [newline])).length_le
    rw [List.length_append, List.length_singleton] at hle
    omega
  have huser : cstr user = cstr (t ++ [newline]) :=
    cstr_strncpy (fun b hb hb0 => zero_notMem_cstr _ (hb0 ▸ hb)) hshort
  have hne : cstr user ≠ [] := by
    rw [huser]
    exact fun h => hhead (cstr_concat_eq_nil_iff.1 h)
  exact ⟨hne, by rw [cstr_set_pred, huser]⟩

theorem do_ssh_overrun (hmem : newline ∈ s.stream) (hlen : ¬(line s.stream).length + 2 ≤ MAXLINE) :
    do_ssh s l = .error .overrun := by
  rw [do_ssh, readline_eq, if_pos hmem, if_neg hlen]

/-- Without a newline `do_ssh` gives up, if it has room for what was sent. -/
theorem do_ssh_of_notMem (hmem : newline ∉ s.stream) :
    do_ssh s l = if s.stream.length ≤ MAXLINE then .ok .gaveUp else .error .overrun := by
  rw [do_ssh, readline_eq, if_neg hmem]
  by_cases hlen : s.stream.length ≤ MAXLINE
  · rw [if_pos hlen, if_pos hlen]
    cases s.failed <;> rfl
  · rw [if_neg hlen, if_neg hlen]

theorem do_ssh_underrun (hmem : newline ∈ s.stream) (hlen : (line s.stream).length + 2 ≤ MAXLINE)
    (hhead : (line s.stream).head? = some 0) : do_ssh s l = .error .underrun := by
  have hnil : cstr (strncpy MAXLINE (cstr (line s.stream ++ [newline]))) = [] := by
    rw [cstr_concat_eq_nil_iff.2 hhead]
    exact cstr_strncpy (fun b hb => absurd hb List.not_mem_nil) (by decide)
  rw [do_ssh, readline_eq, if_pos hmem, if_pos hlen]
  simp only [hnil]
  rw [if_neg (by omega), if_pos trivial]

/-- **The name** that `login` gets. -/
theorem do_ssh_login (hmem : newline ∈ s.stream) (hlen : (line s.stream).length + 2 ≤ MAXLINE)
    (hhead : (line s.stream).head? ≠ some 0) (hforks : s.Forks) :
    do_ssh s l = .ok (.login (cstr (line s.stream ++ [newline])).dropLast) := by
  obtain ⟨hne, hname⟩ := cstr_user hlen hhead
  obtain ⟨htcgetattr, hioctl, hptyFork⟩ := hforks
  rw [do_ssh, readline_eq, if_pos hmem, if_pos hlen]
  simp only [hname]
  rw [if_neg (by omega), if_neg hne, if_neg (not_not.2 htcgetattr), if_neg (not_not.2 hioctl),
    if_neg (not_not.2 hptyFork)]

theorem do_ssh_exited (hmem : newline ∈ s.stream) (hlen : (line s.stream).length + 2 ≤ MAXLINE)
    (hhead : (line s.stream).head? ≠ some 0) (hforks : ¬s.Forks) :
    ∃ msg, do_ssh s l = .ok (.exited msg) := by
  obtain ⟨hne, -⟩ := cstr_user hlen hhead
  rw [do_ssh, readline_eq, if_pos hmem, if_pos hlen]
  simp only
  rw [if_neg (by omega), if_neg hne]
  by_cases htcgetattr : s.tcgetattr
  · by_cases hioctl : s.ioctl
    · have hptyFork : ¬s.ptyFork := fun h => hforks ⟨htcgetattr, hioctl, h⟩
      exact ⟨_, by rw [if_neg (not_not.2 htcgetattr), if_neg (not_not.2 hioctl),
        if_pos hptyFork]⟩
    · exact ⟨_, by rw [if_neg (not_not.2 htcgetattr), if_pos hioctl]⟩
  · exact ⟨_, by rw [if_pos htcgetattr]⟩

end DoSsh

/-- **The user name**: whatever the client sends, `do_ssh` gives up or runs `login` on the line that
was sent, without a store outside its arrays and without an option, if and only if the stream is
acceptable. -/
theorem meets_iff (s : Session) (l : Locals) : Meets s (do_ssh s l) ↔ Acceptable s := by
  unfold Acceptable
  by_cases hmem : newline ∈ s.stream
  · rw [if_pos hmem]
    by_cases hlen : (line s.stream).length + 2 ≤ MAXLINE
    · by_cases hhead : (line s.stream).head? = some 0
      · rw [do_ssh_underrun hmem hlen hhead]
        exact iff_of_false id fun h => h.2.1 hhead
      · by_cases hforks : s.Forks
        · rw [do_ssh_login hmem hlen hhead hforks]
          constructor
          · rintro ⟨-, hname, -, hminus⟩
            rw [hname] at hminus
            exact ⟨hlen, hhead, fun _ => ⟨dropLast_cstr_concat_iff.1 hname, hminus⟩⟩
          · rintro ⟨-, -, h⟩
            obtain ⟨hzero, hminus⟩ := h hforks
            have hname := dropLast_cstr_concat_iff.2 hzero
            refine ⟨hmem, hname, ?_, ?_⟩
            · rw [hname]
              omega
            · rwa [hname]
        · obtain ⟨msg, hexited⟩ := do_ssh_exited (l := l) hmem hlen hhead hforks
          rw [hexited]
          exact iff_of_true trivial ⟨hlen, hhead, fun h => absurd h hforks⟩
    · rw [do_ssh_overrun hmem hlen]
      exact iff_of_false id fun h => hlen h.1
  · rw [if_neg hmem, do_ssh_of_notMem hmem]
    by_cases hlen : s.stream.length ≤ MAXLINE
    · rw [if_pos hlen]
      exact iff_of_true trivial hlen
    · rw [if_neg hlen]
      exact iff_of_false id hlen

/-- The line `-froot` of a client is an option of `login`. -/
theorem runs_login_with_option :
    let s : Session := ⟨[45, 102, 114, 111, 111, 116, 10], false, true, true, true⟩
    let l : Locals := ⟨List.replicate MAXLINE 0, List.replicate MAXLINE 0, List.length_replicate,
      List.length_replicate⟩
    do_ssh s l = .ok (.login [45, 102, 114, 111, 111, 116]) ∧ ¬Meets s (do_ssh s l) := by
  intro s l
  have hlogin : do_ssh s l = .ok (.login [45, 102, 114, 111, 111, 116]) :=
    do_ssh_login (by decide) (by decide) (by decide) ⟨rfl, rfl, rfl⟩
  refine ⟨hlogin, ?_⟩
  rw [hlogin]
  rintro ⟨-, -, -, hminus⟩
  exact hminus rfl

end TlpiLearn.SshLogin
