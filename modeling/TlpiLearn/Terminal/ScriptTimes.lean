import TlpiLearn.Terminal.ScriptTime
import Mathlib.Tactic

/-!
# The times of the recorder and of the replayer

`passtime` of `64/4/script_time.c` stamps a command with the microseconds since the start, as an
`int`. `64/4/script_replay.c` reads the clock again and again until that time has passed, and
subtracts a field of the reading from itself where it means the start.

`passtime_faithful_iff` says for which sessions the stamps are the elapsed times, and
`waitLoop_onTime_iff` for which readings of the clock the wait ends when it should.
-/

namespace TlpiLearn.Script

/-- A time of the clock. -/
abbrev ClockTime := {tv : Timeval // 0 ≤ tv.usec ∧ tv.usec < 1000000}

/-- The microseconds of a time. -/
def Timeval.instant (tv : Timeval) : ℤ := tv.sec * 1000000 + tv.usec

theorem microseconds_eq (start tv : Timeval) :
    microseconds start tv = tv.instant - start.instant := by
  rw [microseconds, Timeval.instant, Timeval.instant]
  ring

/-! ## Stamps -/

/-- `passtime(start)`, where `gettimeofday` gives the time `tv` or fails. -/
def passtimeCall (start tv : Option ClockTime) : ℤ :=
  match start, tv with
  | some start, some tv => passtime start.1 tv.1
  | _, _ => -1

/-- A session: the time at its start, and what `gettimeofday` gives at each finished command. The
clock does not go back. -/
structure Session where
  start : ClockTime
  now : ℕ → Option ClockTime
  start_le : ∀ k, ∀ tv ∈ now k, start.1.instant ≤ tv.1.instant
  mono : ∀ j k, j ≤ k → ∀ tv ∈ now j, ∀ tv' ∈ now k, tv.1.instant ≤ tv'.1.instant

/-- The stamp of the `k`-th command. -/
def Session.stamp (session : Session) (k : ℕ) : ℤ :=
  passtimeCall (some session.start) (session.now k)

/-- The stamps are the elapsed times, they are -1 only if `gettimeofday` fails, and they do not
decrease. -/
structure Session.Faithful (session : Session) : Prop where
  elapsed : ∀ k, ∀ tv ∈ session.now k, session.stamp k = microseconds session.start.1 tv.1
  fails : ∀ k, session.stamp k = -1 ↔ session.now k = none
  mono : ∀ j k, j ≤ k → session.now j ≠ none → session.now k ≠ none →
    session.stamp j ≤ session.stamp k

/-- The stamp is the elapsed time if that is an `int`. -/
theorem passtime_eq_iff {start tv : Timeval} (h : 0 ≤ microseconds start tv) :
    passtime start tv = microseconds start tv ↔ microseconds start tv < 2 ^ 31 := by
  rw [passtime]
  constructor
  · intro heq
    have hlt : (microseconds start tv).bmod (2 ^ 32) < (2 ^ 32 + 1) / 2 := Int.bmod_lt (by decide)
    omega
  · intro hlt
    exact Int.bmod_eq_of_le (by omega) (by omega)

/-- **When the stamps are faithful**: every command is finished less than `2 ^ 31` microseconds
after the start. -/
theorem passtime_faithful_iff (session : Session) :
    session.Faithful ↔
      ∀ k, ∀ tv ∈ session.now k, microseconds session.start.1 tv.1 < 2 ^ 31 := by
  have hnonneg : ∀ k, ∀ tv ∈ session.now k, 0 ≤ microseconds session.start.1 tv.1 := by
    intro k tv htv
    rw [microseconds_eq]
    exact sub_nonneg.2 (session.start_le k tv htv)
  have hstamp : ∀ {k tv}, session.now k = some tv →
      session.stamp k = passtime session.start.1 tv.1 := by
    intro k tv htv
    rw [Session.stamp, htv, passtimeCall]
  constructor
  · intro h k tv htv
    refine (passtime_eq_iff (hnonneg k tv htv)).1 ?_
    rw [← hstamp htv]
    exact h.elapsed k tv htv
  · intro h
    have helapsed : ∀ k, ∀ tv ∈ session.now k,
        session.stamp k = microseconds session.start.1 tv.1 := by
      intro k tv htv
      rw [hstamp htv]
      exact (passtime_eq_iff (hnonneg k tv htv)).2 (h k tv htv)
    refine ⟨helapsed, fun k => ?_, fun j k hjk hj hk => ?_⟩
    · constructor
      · intro hminus
        refine Option.eq_none_iff_forall_ne_some.2 fun tv htv => ?_
        have := helapsed k tv htv
        have := hnonneg k tv htv
        omega
      · intro hnone
        rw [Session.stamp, hnone]
        rfl
    · obtain ⟨tv, htv⟩ := Option.ne_none_iff_exists'.1 hj
      obtain ⟨tv', htv'⟩ := Option.ne_none_iff_exists'.1 hk
      have hle := session.mono j k hjk tv htv tv' htv'
      rw [helapsed j tv htv, helapsed k tv' htv', microseconds_eq, microseconds_eq]
      omega

/-- A command 2147 seconds and 483648 microseconds after the start. -/
def longSession : Session where
  start := ⟨⟨0, 0⟩, by decide⟩
  now _ := some ⟨⟨2147, 483648⟩, by decide⟩
  start_le := by
    intro k tv htv
    obtain rfl := Option.some.inj htv
    decide
  mono := by
    intro j k _ tv htv tv' htv'
    obtain rfl := Option.some.inj htv
    obtain rfl := Option.some.inj htv'
    exact le_rfl

/-- Its stamp is negative. -/
theorem stamp_longSession :
    longSession.stamp 0 = -2147483648 ∧ ¬ longSession.Faithful := by
  have hstamp : longSession.stamp 0 = -2147483648 := by decide
  refine ⟨hstamp, fun h => ?_⟩
  have helapsed := h.elapsed 0 ⟨⟨2147, 483648⟩, by decide⟩ rfl
  rw [hstamp] at helapsed
  revert helapsed
  decide

/-! ## The wait -/

/-- The condition of the loop: it reads the clock again. -/
def Waits (start curr : Timeval) (cts : ℤ) : Prop :=
  (curr.sec - start.sec) * 1000000 + (curr.usec - curr.usec) < cts

instance (start curr : Timeval) (cts : ℤ) : Decidable (Waits start curr cts) :=
  inferInstanceAs (Decidable (_ < _))

/-- The loop over readings of the clock: which one it ends at, `none` while it goes on. -/
def waitLoop (start : Timeval) (cts : ℤ) : List ClockTime → Option ℕ
  | [] => none
  | curr :: readings =>
    if Waits start curr.1 cts then (waitLoop start cts readings).map (· + 1) else some 0

/-- The loop ends at the first reading at which `cts` microseconds have passed since the start. -/
def OnTime (start : Timeval) (cts : ℤ) (readings : List ClockTime) : Prop :=
  waitLoop start cts readings
    = readings.findIdx? fun curr => decide (cts ≤ microseconds start curr.1)

instance (start : Timeval) (cts : ℤ) (readings : List ClockTime) :
    Decidable (OnTime start cts readings) :=
  inferInstanceAs (Decidable (_ = _))

/-- The instant at which the command is due. -/
def due (start : Timeval) (cts : ℤ) : ℤ := start.instant + cts

/-- The instant at which the seconds since the second of the start make up `cts`, rounded up. -/
def wholeSecond (start : Timeval) (cts : ℤ) : ℤ :=
  (start.sec + (cts + 999999) / 1000000) * 1000000

/-- The loop waits for a whole second. -/
theorem waits_iff {start : Timeval} {curr : ClockTime} {cts : ℤ} :
    Waits start curr.1 cts ↔ curr.1.instant < wholeSecond start cts := by
  obtain ⟨curr, hpos, hlt⟩ := curr
  rw [Waits, Timeval.instant, wholeSecond]
  dsimp only at hpos hlt ⊢
  omega

theorem waitLoop_eq (start : Timeval) (cts : ℤ) (readings : List ClockTime) :
    waitLoop start cts readings
      = readings.findIdx? fun curr => decide (wholeSecond start cts ≤ curr.1.instant) := by
  induction readings with
  | nil => rfl
  | cons curr readings ih =>
    rw [waitLoop, List.findIdx?_cons, ih]
    by_cases hwaits : Waits start curr.1 cts
    · rw [if_pos hwaits, if_neg (by simpa using waits_iff.1 hwaits)]
    · rw [if_neg hwaits, if_pos (by simpa using not_lt.1 (mt waits_iff.2 hwaits))]

/-- In a non-decreasing sequence the first members from `a` and from `b` on are the same if nothing
is between `a` and `b`. -/
theorem findIdx?_le_eq_iff {ι α : Type*} [LinearOrder α] {f : ι → α} {a b : α} {l : List ι}
    (hl : l.Pairwise fun x y => f x ≤ f y) :
    (l.findIdx? fun x => decide (a ≤ f x)) = (l.findIdx? fun x => decide (b ≤ f x)) ↔
      ∀ x ∈ l, f x < min a b ∨ max a b ≤ f x := by
  induction l with
  | nil => simp
  | cons x l ih =>
    obtain ⟨hx, hl⟩ := List.pairwise_cons.1 hl
    rw [List.findIdx?_cons, List.findIdx?_cons, List.forall_mem_cons, lt_min_iff, max_le_iff]
    by_cases ha : a ≤ f x
    · by_cases hb : b ≤ f x
      · rw [if_pos (by simpa using ha), if_pos (by simpa using hb)]
        refine iff_of_true rfl ⟨.inr ⟨ha, hb⟩, fun y hy => .inr ?_⟩
        exact max_le (ha.trans (hx y hy)) (hb.trans (hx y hy))
      · rw [if_pos (by simpa using ha), if_neg (by simpa using hb)]
        refine iff_of_false ?_ fun h => ?_
        · cases l.findIdx? fun x => decide (b ≤ f x) <;> nofun
        · exact h.1.elim (fun h => absurd ha (not_le.2 h.1)) fun h => hb h.2
    · by_cases hb : b ≤ f x
      · rw [if_neg (by simpa using ha), if_pos (by simpa using hb)]
        refine iff_of_false ?_ fun h => ?_
        · cases l.findIdx? fun x => decide (a ≤ f x) <;> nofun
        · exact h.1.elim (fun h => absurd hb (not_le.2 h.2)) fun h => ha h.1
      · rw [if_neg (by simpa using ha), if_neg (by simpa using hb),
          (Option.map_injective (add_left_injective 1)).eq_iff, ih hl]
        exact (and_iff_right (.inl ⟨not_le.1 ha, not_le.1 hb⟩)).symm

/-- **When the wait is on time**: no reading of the clock lies between the instant at which the
command is due and the whole second. -/
theorem waitLoop_onTime_iff (start : ClockTime) (cts : ℤ) {readings : List ClockTime}
    (hreadings : readings.Pairwise fun tv tv' => tv.1.instant ≤ tv'.1.instant) :
    OnTime start.1 cts readings ↔ ∀ curr ∈ readings,
      curr.1.instant < min (wholeSecond start.1 cts) (due start.1 cts) ∨
        max (wholeSecond start.1 cts) (due start.1 cts) ≤ curr.1.instant := by
  have hdue : (fun curr : ClockTime => decide (cts ≤ microseconds start.1 curr.1))
      = fun curr => decide (due start.1 cts ≤ curr.1.instant) := by
    funext curr
    rw [microseconds_eq, due, decide_eq_decide]
    omega
  rw [OnTime, waitLoop_eq, hdue]
  exact findIdx?_le_eq_iff hreadings

/-- A start 900000 microseconds behind its second. -/
def lateStart : ClockTime := ⟨⟨0, 900000⟩, by decide⟩

/-- A reading 100000 microseconds later. -/
def nextSecond : ClockTime := ⟨⟨1, 0⟩, by decide⟩

/-- A reading in front of both instants. -/
def earlyReading : ClockTime := ⟨⟨0, 950000⟩, by decide⟩

/-- Readings in front of both instants and behind both of them. -/
def spreadReadings : List ClockTime :=
  [earlyReading, earlyReading, ⟨⟨2, 0⟩, by decide⟩, ⟨⟨2, 500000⟩, by decide⟩]

/-- A command that is due after a second is on time when the clock is read in front of both instants
and then past both, and not when it is read between them. -/
theorem waitLoop_onTime_iff_twoSeconds :
    OnTime lateStart.1 1000000 spreadReadings ∧
      ¬ OnTime lateStart.1 1000000 [earlyReading, nextSecond, ⟨⟨2, 0⟩, by decide⟩] := by
  have hspread : spreadReadings.Pairwise fun tv tv' => tv.1.instant ≤ tv'.1.instant := by decide
  have hbetween : ([earlyReading, nextSecond, ⟨⟨2, 0⟩, by decide⟩] : List ClockTime).Pairwise
      fun tv tv' => tv.1.instant ≤ tv'.1.instant := by
    decide
  constructor
  · rw [waitLoop_onTime_iff lateStart 1000000 hspread]
    decide
  · rw [waitLoop_onTime_iff lateStart 1000000 hbetween]
    decide

/-- A command that is due after a second is issued after a tenth of it. -/
theorem waitLoop_early :
    waitLoop lateStart.1 1000000 [nextSecond] = some 0 ∧
      microseconds lateStart.1 nextSecond.1 = 100000 ∧
      ¬ OnTime lateStart.1 1000000 [nextSecond] := by
  decide

end TlpiLearn.Script
