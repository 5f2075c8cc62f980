import TlpiLearn.Foundations.Constants
import TlpiLearn.Foundations.Machine
import Mathlib.Tactic

/-!
# Sleeping up to an absolute time

`23_2.c` adds its arguments to the time of the clock and sleeps up to there with `clock_nanosleep`,
again after each signal. The nanoseconds are added without a carry, and the test behind the call is
that of `nanosleep`, so that no error ends the loop (`sleeping_of_errors`). `sleep_right_iff` says
which arguments and results hide both.
-/

namespace TlpiLearn.AbsoluteSleep

/-- `struct timespec`. -/
structure Timespec where
  tv_sec : Int64
  tv_nsec : Int64

/-- The lines behind `clock_gettime`, with the numbers of the command line. -/
def buildRequest (request : Timespec) (secs nanosecs : Int64) : Timespec :=
  ⟨request.tv_sec + secs, request.tv_nsec + nanosecs⟩

/-- The lines that compute what is printed as the remaining time. -/
def remaining (request curr : Timespec) : Timespec :=
  let sec := request.tv_sec - curr.tv_sec
  let nsec := request.tv_nsec - curr.tv_nsec
  if nsec < 0 then ⟨sec - 1, nsec + 1000000000⟩ else ⟨sec, nsec⟩

/-- The program sleeps, has left the loop, or has ended with `errExit`. -/
inductive Status where
  | sleeping
  | complete
  | errExit
  deriving DecidableEq

/-- The loop, with the remaining times printed so far. -/
structure Loop where
  status : Status
  printed : List Timespec

/-- A turn: the result of `clock_nanosleep`, which is 0 or an error number, the `errno` of the
program, and the time of the clock. -/
structure Wake where
  s : ℕ
  errno : ℕ
  curr : Timespec

/-- The body of the loop. -/
def turn (request : Timespec) (l : Loop) (w : Wake) : Option Loop :=
  if l.status ≠ .sleeping then none
  else if (w.s : ℤ) = -1 ∧ w.errno ≠ EINTR then some { l with status := .errExit }
  else if w.s = 0 then some { l with status := .complete }
  else some { l with printed := l.printed ++ [remaining request w.curr] }

/-- The loop for a request. -/
def sleepLoop (request : Timespec) : Machine Loop Wake := ⟨⟨.sleeping, []⟩, turn request⟩

/-- The nanoseconds are less than a second. -/
def Timespec.Normal (t : Timespec) : Prop := 0 ≤ t.tv_nsec.toInt ∧ t.tv_nsec.toInt < 1000000000

/-- The time in nanoseconds. -/
def Timespec.nanoseconds (t : Timespec) : ℤ := t.tv_sec.toInt * 1000000000 + t.tv_nsec.toInt

/-- **The request**: a valid time, so far behind the reading of the clock. -/
def Denotes (reading : Timespec) (secs nanosecs : Int64) (request : Timespec) : Prop :=
  request.Normal ∧
    request.nanoseconds = reading.nanoseconds + secs.toInt * 1000000000 + nanosecs.toInt

/-- **A turn**: the loop goes on behind a signal, and only there. -/
def Retries (request : Timespec) (l : Loop) (w : Wake) : Prop :=
  ∀ l', turn request l w = some l' → (l'.status = .sleeping ↔ w.s = EINTR)

/-- **What the program does**: it asks for the right time, and its loop is over when it should
be. -/
def SleepsRight (reading : Timespec) (secs nanosecs : Int64) (ws : List Wake) : Prop :=
  Denotes reading secs nanosecs (buildRequest reading secs nanosecs) ∧
    (sleepLoop (buildRequest reading secs nanosecs)).Meets
      (Retries (buildRequest reading secs nanosecs)) ⟨.sleeping, []⟩ ws

/-- The first result other than `EINTR`, if there is one, is 0. -/
def EndsWithZero (ws : List Wake) : Prop :=
  ∀ s ∈ ((ws.map Wake.s).dropWhile (· = EINTR)).head?, s = 0

variable {request reading : Timespec} {secs nanosecs : Int64} {l : Loop} {w : Wake}

/-! ## The request -/

/-- The sum of two numbers that are not negative is wrong where it does not fit. -/
theorem toInt_add_eq_iff {a b : Int64} (hb : 0 ≤ b.toInt) :
    (a + b).toInt = a.toInt + b.toInt ↔ a.toInt + b.toInt < 2 ^ 63 := by
  have ha := a.le_toInt
  constructor
  · intro h
    rw [← h]
    exact (a + b).toInt_lt
  · intro h
    rw [Int64.toInt_add]
    exact Int.bmod_eq_of_le (by omega) (by omega)

/-- **When the request is right**: no carry is due, and the seconds fit. -/
theorem denotes_buildRequest_iff (hreading : reading.Normal) (hsecs : 0 ≤ secs.toInt)
    (hnanosecs : 0 ≤ nanosecs.toInt ∧ nanosecs.toInt < 1000000000) :
    Denotes reading secs nanosecs (buildRequest reading secs nanosecs) ↔
      reading.tv_nsec.toInt + nanosecs.toInt < 1000000000 ∧
        reading.tv_sec.toInt + secs.toInt < 2 ^ 63 := by
  obtain ⟨hlo, hhi⟩ := hreading
  obtain ⟨hlo', hhi'⟩ := hnanosecs
  have hnsec : (reading.tv_nsec + nanosecs).toInt = reading.tv_nsec.toInt + nanosecs.toInt :=
    (toInt_add_eq_iff hlo').2 (by omega)
  rw [← toInt_add_eq_iff hsecs]
  simp only [Denotes, Timespec.Normal, Timespec.nanoseconds, buildRequest, hnsec]
  omega

/-! ## The loop -/

/-- A turn ends the loop at 0, and goes on at every error number. -/
theorem turn_sleeping (hl : l.status = .sleeping) :
    turn request l w = some (if w.s = 0 then { l with status := .complete }
      else { l with printed := l.printed ++ [remaining request w.curr] }) := by
  have hs : ¬ ((w.s : ℤ) = -1 ∧ w.errno ≠ EINTR) := by omega
  rw [turn, if_neg (not_not.2 hl), if_neg hs]
  split_ifs <;> rfl

theorem step_sleeping (hl : l.status = .sleeping) :
    (sleepLoop request).step l w = some (if w.s = 0 then { l with status := .complete }
      else { l with printed := l.printed ++ [remaining request w.curr] }) := turn_sleeping hl

theorem retries_iff (hl : l.status = .sleeping) :
    Retries request l w ↔ w.s = EINTR ∨ w.s = 0 := by
  rw [Retries, turn_sleeping hl]
  simp only [Option.some.injEq, forall_eq']
  split_ifs with hs
  · simp [hs, EINTR]
  · simp [hs, hl]

theorem endsWithZero_cons (ws : List Wake) :
    EndsWithZero (w :: ws) ↔ (w.s = EINTR ∨ w.s = 0) ∧ (w.s = EINTR → EndsWithZero ws) := by
  rw [EndsWithZero, List.map_cons, List.dropWhile_cons]
  by_cases hs : w.s = EINTR
  · simp [hs, EndsWithZero]
  · simp [hs]

/-- Behind its end the loop makes no turn. -/
theorem meets_of_ended (hl : l.status ≠ .sleeping) (ws : List Wake) :
    (sleepLoop request).Meets (Retries request) l ws := by
  have hstep (w : Wake) : turn request l w = none := if_pos hl
  cases ws with
  | nil => trivial
  | cons w ws =>
    refine ⟨fun l' h => ?_, fun l' h => ?_⟩
    · cases (hstep w).symm.trans h
    · cases (hstep w).symm.trans h

/-- **When the loop is right**: the first result other than `EINTR` is 0. -/
theorem meets_retries_iff (hl : l.status = .sleeping) (ws : List Wake) :
    (sleepLoop request).Meets (Retries request) l ws ↔ EndsWithZero ws := by
  induction ws generalizing l with
  | nil => exact iff_of_true trivial (by simp [EndsWithZero])
  | cons w ws ih =>
    rw [Machine.Meets, retries_iff hl, endsWithZero_cons]
    refine and_congr_right fun hs => ?_
    rw [step_sleeping hl]
    simp only [Option.some.injEq, forall_eq']
    obtain hs | hs := hs
    · have hne : w.s ≠ 0 := by simp [hs, EINTR]
      rw [if_neg hne, ih (by exact hl)]
      simp [hs]
    · have hne : w.s ≠ EINTR := by simp [hs, EINTR]
      rw [if_pos hs]
      exact iff_of_true (meets_of_ended (by simp) ws) fun h => absurd h hne

/-- **Errors do not end the loop**: it goes on at each of them. -/
theorem sleeping_of_errors (request : Timespec) {ws : List Wake} (h : ∀ w ∈ ws, w.s ≠ 0) :
    ∃ l, (sleepLoop request).run ⟨.sleeping, []⟩ ws = some l ∧ l.status = .sleeping := by
  generalize ([] : List Timespec) = printed
  induction ws generalizing printed with
  | nil => exact ⟨⟨.sleeping, printed⟩, rfl, rfl⟩
  | cons w ws ih =>
    rw [Machine.run_cons, step_sleeping (by rfl), if_neg (h w List.mem_cons_self),
      Option.bind_some]
    exact ih (fun v hv => h v (List.mem_cons_of_mem _ hv)) _

/-- **When `23_2.c` is right**: the request needs no carry and no larger number of seconds, and no
error comes before the sleep is over. -/
theorem sleep_right_iff (hreading : reading.Normal) (hsecs : 0 ≤ secs.toInt)
    (hnanosecs : 0 ≤ nanosecs.toInt ∧ nanosecs.toInt < 1000000000) (ws : List Wake) :
    SleepsRight reading secs nanosecs ws ↔
      (reading.tv_nsec.toInt + nanosecs.toInt < 1000000000 ∧
        reading.tv_sec.toInt + secs.toInt < 2 ^ 63) ∧ EndsWithZero ws := by
  rw [SleepsRight, denotes_buildRequest_iff hreading hsecs hnanosecs, meets_retries_iff rfl]

/-- A second from 0.1 seconds past, with a signal in between. -/
theorem sleep_right_second :
    SleepsRight ⟨1700000000, 100000000⟩ 1 0
        [⟨EINTR, 0, ⟨1700000000, 600000000⟩⟩, ⟨0, 0, ⟨1700000001, 100000000⟩⟩] ↔
      ((⟨1700000000, 100000000⟩ : Timespec).tv_nsec.toInt + (0 : Int64).toInt < 1000000000 ∧
        (⟨1700000000, 100000000⟩ : Timespec).tv_sec.toInt + (1 : Int64).toInt < 2 ^ 63) ∧
        EndsWithZero
          [⟨EINTR, 0, ⟨1700000000, 600000000⟩⟩, ⟨0, 0, ⟨1700000001, 100000000⟩⟩] :=
  sleep_right_iff ⟨by decide, by decide⟩ (by decide) ⟨by decide, by decide⟩ _

/-- Half a second from 0.6 seconds past: the request has too many nanoseconds, and the loop does not
end when that is an error. -/
theorem not_sleep_right_half :
    ¬ Denotes ⟨1700000000, 600000000⟩ 0 500000000
        (buildRequest ⟨1700000000, 600000000⟩ 0 500000000) ∧
      ¬ (sleepLoop (buildRequest ⟨1700000000, 600000000⟩ 0 500000000)).Meets
        (Retries (buildRequest ⟨1700000000, 600000000⟩ 0 500000000)) ⟨.sleeping, []⟩
        [⟨EINVAL, 0, ⟨1700000000, 600000000⟩⟩] := by
  constructor
  · rintro ⟨⟨-, hnsec⟩, -⟩
    exact absurd hnsec (by decide)
  · rw [meets_retries_iff rfl]
    intro h
    exact absurd (h EINVAL (by simp [EINTR, EINVAL])) (by decide)

end TlpiLearn.AbsoluteSleep
