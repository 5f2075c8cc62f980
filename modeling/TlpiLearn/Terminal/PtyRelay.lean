import TlpiLearn.Foundations.CString
import TlpiLearn.Foundations.Constants
import TlpiLearn.Foundations.Machine
import Mathlib.Tactic

/-!
# Relays to a pseudoterminal

The loop of `64/2/script.c` and that of `do_ssh` in `64/5/ssh_sv.c`. Both wait in `select` for the
user, who sits at the terminal or at the other end of a connection, and for the pseudoterminal, and
copy the bytes of each side to the other one; `script.c` writes those of the pseudoterminal to a
file as well.

What is read is passed on in every run. Behind a failed `select` an assignment stands in the place
of a comparison, so that the loop goes on whatever the error is (`select_spins`): it is left when it
should be exactly in the runs whose failed calls of `select` were interrupted (`relay_right_iff`).
-/

namespace TlpiLearn.PtyRelay

/-- `MAXTIMELEN`. -/
def MAXTIMELEN : ℕ := 128

/-- The program runs, has ended with `exit(EXIT_SUCCESS)`, or with `errExit` or `fatal`. -/
inductive Status
  | running
  | exited
  | failed
  deriving DecidableEq, Repr

/-- The bytes that were read from the user and from the pseudoterminal, those that were written to
either of them and to the file, and the text behind them on the terminal and in the file. -/
structure Relay where
  fromUser : List UInt8
  toMaster : List UInt8
  fromMaster : List UInt8
  toUser : List UInt8
  script : List UInt8
  farewell : List UInt8
  scriptFarewell : List UInt8
  errno : ℕ
  status : Status

/-- What `read` returns: at least one byte, the end of the file, or an error. -/
inductive Read
  | chunk (c : {bs : List UInt8 // bs ≠ []})
  | endOfFile
  | error

/-- What `write` returns: a number of bytes, or `none` for -1. -/
abbrev Write := Option ℕ

/-- The calls for the user: the `read`, and the `write` to the pseudoterminal. -/
structure UserReady where
  read : Read
  master : Write

/-- The calls for the pseudoterminal: the `read`, the `write` to the user and that to the file; at
the end `time`, the text of `ctime`, and the last `write` to the file. -/
structure MasterReady where
  read : Read
  user : Write
  script : Write
  time : Bool
  pctime : Option (List UInt8)
  scriptFarewell : Write

/-- A turn of the loop: `select` fails, or finds some of the descriptors ready. -/
inductive Turn
  | selectFails (errno : ℕ)
  | ready (user : Option UserReady) (master : Option MasterReady)

/-- The bytes that a `write` has written. -/
def Write.bytes (w : Write) (bs : List UInt8) : List UInt8 := w.elim [] fun k => bs.take k

/-- `write(fd, buf, n) == n`. -/
def Write.Complete (w : Write) (bs : List UInt8) : Prop := w = some bs.length

instance (w : Write) (bs : List UInt8) : Decidable (w.Complete bs) :=
  inferInstanceAs (Decidable (_ = _))

/-- The lines behind a failed `select`; the condition of the `if` assigns to `errno`. -/
def selectFailed (s : Relay) : Relay :=
  let s := { s with errno := EINTR }
  if s.errno ≠ 0 then s else { s with status := .failed }

/-- The user is ready. -/
def userReady (s : Relay) (u : UserReady) : Relay :=
  match u.read with
  | .chunk c =>
    { s with
      fromUser := s.fromUser ++ c.1
      toMaster := s.toMaster ++ u.master.bytes c.1
      status := if u.master.Complete c.1 then s.status else .failed }
  | .endOfFile => { s with status := .exited }
  | .error => { s with status := .exited }

/-- `script.c` at the end of the pseudoterminal. -/
def sayFarewell (s : Relay) (m : MasterReady) : Relay :=
  if m.time then
    let pctime := m.pctime.getD (ascii "can't get time")
    let time_str := (ascii "Script ended on " ++ pctime ++ [newline]).take (MAXTIMELEN - 1)
    { s with
      farewell := time_str ++ [newline]
      scriptFarewell := m.scriptFarewell.bytes time_str
      status := if m.scriptFarewell.Complete time_str then .exited else .failed }
  else { s with status := .failed }

/-- `script.c` writes to its file what it has written to the terminal. -/
def writeScript (s : Relay) (m : MasterReady) (bs : List UInt8) : Relay :=
  { s with
    script := s.script ++ m.script.bytes bs
    status := if m.script.Complete bs then s.status else .failed }

/-- The pseudoterminal is ready; `typescript` tells whether there is a file. -/
def masterReady (typescript : Bool) (s : Relay) (m : MasterReady) : Relay :=
  match m.read with
  | .chunk c =>
    let s := { s with
      fromMaster := s.fromMaster ++ c.1
      toUser := s.toUser ++ m.user.bytes c.1 }
    if ¬ m.user.Complete c.1 then { s with status := .failed }
    else if typescript then writeScript s m c.1 else s
  | .endOfFile => if typescript then sayFarewell s m else { s with status := .exited }
  | .error => if typescript then sayFarewell s m else { s with status := .exited }

/-- A branch of the loop, if its descriptor is ready and the program has not ended. -/
def branch {ρ : Type} (f : Relay → ρ → Relay) (r : Option ρ) (s : Relay) : Relay :=
  match r with
  | some r => if s.status = .running then f s r else s
  | none => s

/-- A turn of the loop. -/
def turn (typescript : Bool) (s : Relay) : Turn → Option Relay
  | .selectFails errno =>
    if s.status = .running then some (selectFailed { s with errno := errno }) else none
  | .ready user master =>
    if s.status = .running then
      some (branch (masterReady typescript) master (branch userReady user s))
    else none

/-- The program in front of the loop. -/
def Relay.init : Relay := ⟨[], [], [], [], [], [], [], 0, .running⟩

/-- The loop. -/
def relayLoop (typescript : Bool) : Machine Relay Turn := ⟨Relay.init, turn typescript⟩

/-- The loop of `64/2/script.c`. -/
def script : Machine Relay Turn := relayLoop true

/-- The loop of `do_ssh`. -/
def do_ssh : Machine Relay Turn := relayLoop false

/-! ## What the loop should do -/

/-- What was read was passed on in its order, all of it unless a call has failed. -/
structure Forwards (typescript : Bool) (s : Relay) : Prop where
  master : s.toMaster <+: s.fromUser
  user : s.toUser <+: s.fromMaster
  script : s.script <+: s.fromMaster
  complete : s.status ≠ .failed →
    s.toMaster = s.fromUser ∧ s.toUser = s.fromMaster ∧ (typescript → s.script = s.fromMaster)

/-- The calls for the user succeed. -/
def UserReady.Succeeds (u : UserReady) : Prop := ∃ c, u.read = .chunk c ∧ u.master.Complete c.1

/-- The calls for the pseudoterminal succeed. -/
def MasterReady.Succeeds (typescript : Bool) (m : MasterReady) : Prop :=
  ∃ c, m.read = .chunk c ∧ m.user.Complete c.1 ∧ (typescript → m.script.Complete c.1)

/-- The loop is not due to end: all calls succeed, or `select` was interrupted. -/
def Turn.GoesOn (typescript : Bool) : Turn → Prop
  | .selectFails errno => errno = EINTR
  | .ready user master => (∀ u ∈ user, u.Succeeds) ∧ ∀ m ∈ master, m.Succeeds typescript

/-- **A turn**: what is read is passed on, and the loop ends where it should. -/
def Right (typescript : Bool) (s : Relay) (t : Turn) : Prop :=
  ∀ s', turn typescript s t = some s' →
    Forwards typescript s' ∧ (s'.status = .running ↔ t.GoesOn typescript)

/-- If `select` fails, it was interrupted. -/
def Interrupted (s : Relay) (t : Turn) : Prop :=
  s.status = .running → ∀ errno, t = .selectFails errno → errno = EINTR

variable {typescript : Bool} {s : Relay}

/-! ## Each branch -/

theorem bytes_prefix (w : Write) (bs : List UInt8) : w.bytes bs <+: bs := by
  cases w with
  | none => exact List.nil_prefix
  | some k => exact List.take_prefix k bs

theorem bytes_of_complete {w : Write} {bs : List UInt8} (h : w.Complete bs) : w.bytes bs = bs := by
  rw [show w = some bs.length from h]
  exact List.take_length

/-- A `write` behind complete ones. -/
theorem append_bytes_of_eq {out inp : List UInt8} (h : out = inp) (w : Write) (bs : List UInt8) :
    out ++ w.bytes bs <+: inp ++ bs := by
  rw [h, List.prefix_append_right_inj]
  exact bytes_prefix w bs

theorem forwards_init (typescript : Bool) : Forwards typescript Relay.init :=
  ⟨List.prefix_rfl, List.prefix_rfl, List.prefix_rfl, fun _ => ⟨rfl, rfl, fun _ => rfl⟩⟩

/-- The program ends, with or without a text. -/
theorem Forwards.exit (h : Forwards typescript s) (hrun : s.status = .running)
    (farewell scriptFarewell : List UInt8) (status : Status) :
    Forwards typescript { s with
      farewell := farewell
      scriptFarewell := scriptFarewell
      status := status } :=
  ⟨h.master, h.user, h.script, fun _ => h.complete (by simp [hrun])⟩

/-- Behind a call the program goes on if the call was complete. -/
theorem status_running_iff {p : Prop} [Decidable p] {status : Status}
    (hrun : status = .running) : (if p then status else .failed) = .running ↔ p := by
  split_ifs with hp <;> simp [hrun, hp]

theorem of_status_ne_failed {p : Prop} [Decidable p] {status : Status}
    (h : (if p then status else .failed) ≠ .failed) : p := by
  by_contra hnot
  exact h (if_neg hnot)

/-- The user's bytes are passed on, and the loop goes on if they all are. -/
theorem userReady_spec (h : Forwards typescript s) (hrun : s.status = .running) (u : UserReady) :
    Forwards typescript (userReady s u) ∧
      ((userReady s u).status = .running ↔ u.Succeeds) := by
  obtain ⟨hmaster, huser, hscript⟩ := h.complete (by simp [hrun])
  rw [userReady]
  cases hread : u.read with
  | chunk c =>
    have hsucceeds : u.Succeeds ↔ u.master.Complete c.1 := by
      simp [UserReady.Succeeds, hread]
    rw [hsucceeds]
    refine ⟨⟨append_bytes_of_eq hmaster _ _, h.user, h.script, fun hstatus => ?_⟩,
      status_running_iff hrun⟩
    have hcomplete : u.master.Complete c.1 := of_status_ne_failed hstatus
    exact ⟨congrArg₂ _ hmaster (bytes_of_complete hcomplete), huser, hscript⟩
  | endOfFile => exact ⟨h.exit hrun _ _ _, by simp [UserReady.Succeeds, hread]⟩
  | error => exact ⟨h.exit hrun _ _ _, by simp [UserReady.Succeeds, hread]⟩

theorem sayFarewell_spec (h : Forwards typescript s) (hrun : s.status = .running)
    (m : MasterReady) :
    Forwards typescript (sayFarewell s m) ∧ (sayFarewell s m).status ≠ .running := by
  rw [sayFarewell]
  split_ifs
  · refine ⟨h.exit hrun _ _ _, ?_⟩
    simp only
    split_ifs <;> simp
  · exact ⟨h.exit hrun _ _ _, by simp⟩

/-- The pseudoterminal has ended, and so does the program. -/
theorem masterReady_of_end (h : Forwards typescript s) (hrun : s.status = .running)
    {m : MasterReady} (hend : ∀ c, m.read ≠ .chunk c) :
    Forwards typescript (masterReady typescript s m) ∧
      ((masterReady typescript s m).status = .running ↔ m.Succeeds typescript) := by
  have hfails : ¬ m.Succeeds typescript := fun ⟨c, hread, _⟩ => hend c hread
  have heq : masterReady typescript s m =
      if typescript then sayFarewell s m else { s with status := .exited } := by
    rw [masterReady]
    cases hread : m.read with
    | chunk c => exact absurd hread (hend c)
    | endOfFile => rfl
    | error => rfl
  rw [heq]
  split_ifs
  · obtain ⟨hforwards, hstatus⟩ := sayFarewell_spec h hrun m
    exact ⟨hforwards, iff_of_false hstatus hfails⟩
  · exact ⟨h.exit hrun _ _ _, iff_of_false (by simp) hfails⟩

/-- The bytes of the pseudoterminal are passed on, and the loop goes on if they all are. -/
theorem masterReady_spec (h : Forwards typescript s) (hrun : s.status = .running)
    (m : MasterReady) :
    Forwards typescript (masterReady typescript s m) ∧
      ((masterReady typescript s m).status = .running ↔ m.Succeeds typescript) := by
  obtain ⟨hmaster, huser, hscript⟩ := h.complete (by simp [hrun])
  cases hread : m.read with
  | endOfFile => exact masterReady_of_end h hrun (by simp [hread])
  | error => exact masterReady_of_end h hrun (by simp [hread])
  | chunk c =>
    have hsucceeds : m.Succeeds typescript ↔
        m.user.Complete c.1 ∧ (typescript → m.script.Complete c.1) := by
      simp [MasterReady.Succeeds, hread]
    have hprefix : s.script <+: s.fromMaster ++ c.1 := h.script.trans (List.prefix_append _ _)
    rw [hsucceeds, masterReady, hread]
    by_cases hcomplete : m.user.Complete c.1
    · have hall : s.toUser ++ m.user.bytes c.1 = s.fromMaster ++ c.1 :=
        congrArg₂ _ huser (bytes_of_complete hcomplete)
      simp only [if_neg (not_not.2 hcomplete), and_iff_right hcomplete]
      cases typescript with
      | false =>
        exact ⟨⟨h.master, hall ▸ List.prefix_rfl, hprefix, fun _ => ⟨hmaster, hall, by simp⟩⟩,
          by simp [hrun]⟩
      | true =>
        rw [if_pos rfl, writeScript]
        refine ⟨⟨h.master, hall ▸ List.prefix_rfl, append_bytes_of_eq (hscript rfl) _ _,
          fun hstatus => ⟨hmaster, hall, fun _ => ?_⟩⟩,
          (status_running_iff hrun).trans (by simp)⟩
        have hwritten : m.script.Complete c.1 := of_status_ne_failed hstatus
        exact congrArg₂ _ (hscript rfl) (bytes_of_complete hwritten)
    · simp only [if_pos hcomplete]
      exact ⟨⟨h.master, append_bytes_of_eq huser _ _, hprefix, fun hstatus => absurd rfl hstatus⟩,
        by simp [hcomplete]⟩

/-- A branch is taken if its descriptor is ready. -/
theorem branch_spec {ρ : Type} {f : Relay → ρ → Relay} {P : ρ → Prop}
    (hf : ∀ s, Forwards typescript s → s.status = .running → ∀ r,
      Forwards typescript (f s r) ∧ ((f s r).status = .running ↔ P r))
    (h : Forwards typescript s) (r : Option ρ) :
    Forwards typescript (branch f r s) ∧
      ((branch f r s).status = .running ↔ s.status = .running ∧ ∀ x ∈ r, P x) := by
  cases r with
  | none => exact ⟨h, by simp [branch]⟩
  | some r =>
    rw [branch]
    split_ifs with hrun
    · obtain ⟨hforwards, hstatus⟩ := hf s h hrun r
      exact ⟨hforwards, by simp [hstatus, hrun]⟩
    · exact ⟨h, by simp [hrun]⟩

/-- **A turn in which `select` succeeds** is right. -/
theorem ready_spec (h : Forwards typescript s) (hrun : s.status = .running)
    (user : Option UserReady) (master : Option MasterReady) :
    Right typescript s (.ready user master) := by
  intro s' hs'
  rw [turn, if_pos hrun, Option.some.injEq] at hs'
  subst hs'
  obtain ⟨huser, hstatus⟩ := branch_spec (fun _ h hrun => userReady_spec h hrun) h user
  obtain ⟨hmaster, hstatus'⟩ :=
    branch_spec (fun _ h hrun => masterReady_spec h hrun) huser master
  refine ⟨hmaster, ?_⟩
  rw [hstatus', hstatus, Turn.GoesOn, and_iff_right hrun]

/-- Behind a failed `select` the loop goes on. -/
theorem turn_selectFails (hrun : s.status = .running) (errno : ℕ) :
    turn typescript s (.selectFails errno) = some { s with errno := EINTR } := by
  rw [turn, if_pos hrun]
  rfl

/-- **When a turn is right.** -/
theorem right_iff (h : Forwards typescript s) (t : Turn) :
    Right typescript s t ↔ Interrupted s t := by
  by_cases hrun : s.status = .running
  · cases t with
    | ready user master =>
      exact iff_of_true (ready_spec h hrun user master) fun _ errno ht => by cases ht
    | selectFails errno =>
      have hforwards : Forwards typescript { s with errno := EINTR } :=
        ⟨h.master, h.user, h.script, h.complete⟩
      have hright : Right typescript s (.selectFails errno) ↔ errno = EINTR := by
        simp only [Right, turn_selectFails hrun, Option.some.injEq, forall_eq', Turn.GoesOn, hrun,
          true_iff]
        exact and_iff_right (by rwa [hrun] at hforwards)
      rw [hright]
      simp [Interrupted, hrun]
  · refine iff_of_true (fun s' hs' => ?_) fun hrun' => absurd hrun' hrun
    cases t with
    | ready user master => simp [turn, hrun] at hs'
    | selectFails errno => simp [turn, hrun] at hs'

/-- Bytes are passed on in every run. -/
theorem forwards_turn (h : Forwards typescript s) {t : Turn} {s' : Relay}
    (hs' : turn typescript s t = some s') : Forwards typescript s' := by
  have hrun : s.status = .running := by
    by_contra hnot
    cases t <;> simp [turn, hnot] at hs'
  cases t with
  | ready user master => exact (ready_spec h hrun user master s' hs').1
  | selectFails errno =>
    rw [turn_selectFails hrun, Option.some.injEq] at hs'
    subst hs'
    exact ⟨h.master, h.user, h.script, h.complete⟩

/-! ## Every run -/

/-- **Errors of `select` do not end the loop.** -/
theorem select_spins (typescript : Bool) (errnos : List ℕ) :
    ∃ s, (relayLoop typescript).run Relay.init (errnos.map .selectFails) = some s ∧
      s.status = .running := by
  have hrun : Relay.init.status = .running := rfl
  generalize Relay.init = s at hrun
  induction errnos generalizing s with
  | nil => exact ⟨s, rfl, hrun⟩
  | cons errno errnos ih =>
    have hstep : (relayLoop typescript).step s (.selectFails errno) =
        some { s with errno := EINTR } := @turn_selectFails typescript s hrun errno
    rw [List.map_cons, Machine.run_cons, hstep, Option.bind_some]
    exact ih _ hrun

theorem relayLoop_right_iff (typescript : Bool) (turns : List Turn) :
    (relayLoop typescript).Meets (Right typescript) Relay.init turns ↔
      (relayLoop typescript).Meets Interrupted Relay.init turns := by
  have hinv : ∀ s t s', Forwards typescript s → (relayLoop typescript).step s t = some s' →
      Forwards typescript s' := fun _ _ _ h hstep => forwards_turn h hstep
  have hright : ∀ s t, Forwards typescript s → (Right typescript s t ↔ Interrupted s t) :=
    fun _ t h => right_iff h t
  exact Machine.meets_congr hinv hright (forwards_init typescript) turns

/-- **When the relays are right**: in all runs, and only in those, in which `select` fails because
it was interrupted, if it fails. -/
theorem relay_right_iff (turns : List Turn) :
    (script.Meets (Right true) Relay.init turns ↔ script.Meets Interrupted Relay.init turns) ∧
      (do_ssh.Meets (Right false) Relay.init turns ↔
        do_ssh.Meets Interrupted Relay.init turns) :=
  ⟨relayLoop_right_iff true turns, relayLoop_right_iff false turns⟩

/-- `select` finds a bad descriptor: the loop goes on, as often as it is tried again. -/
theorem bad_descriptor_spins :
    (¬ script.Meets (Right true) Relay.init [.selectFails EBADF] ∧
        ¬ do_ssh.Meets (Right false) Relay.init [.selectFails EBADF]) ∧
      ∀ n, (∃ s, script.run Relay.init (List.replicate n (.selectFails EBADF)) = some s ∧
          s.status = .running) ∧
        ∃ s, do_ssh.run Relay.init (List.replicate n (.selectFails EBADF)) = some s ∧
          s.status = .running := by
  have hbad : ¬ Interrupted Relay.init (.selectFails EBADF) :=
    fun h => absurd (h rfl EBADF rfl) (by decide)
  have hspin (n : ℕ) (typescript : Bool) :
      ∃ s, (relayLoop typescript).run Relay.init (List.replicate n (.selectFails EBADF)) = some s ∧
        s.status = .running := by
    have h := select_spins typescript (List.replicate n EBADF)
    rwa [List.map_replicate] at h
  refine ⟨⟨?_, ?_⟩, fun n => ⟨hspin n true, hspin n false⟩⟩
  · exact fun h => hbad ((relayLoop_right_iff true _).1 h).1
  · exact fun h => hbad ((relayLoop_right_iff false _).1 h).1

end TlpiLearn.PtyRelay
