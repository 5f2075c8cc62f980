import Mathlib.Data.Fintype.Pi
import Mathlib.Tactic

/-!
# Event flags on a semaphore set

`47/47_5/event_flag.c`: a flag is a semaphore of the set, and it is set while the semaphore is 0.
Each function is one `semctl` or `semop`, so one atomic step on the set; a wait that has to block
is `none`.
-/

namespace TlpiLearn.EventFlag

/-- The values of the semaphores of a set. -/
abbrev SemSet (n : ℕ) := Fin n → ℕ

variable {n : ℕ}

/-- `setEventFlag`: `semctl(semId, semNum, SETVAL, 0)`. -/
def setEventFlag (semId : SemSet n) (semNum : Fin n) : SemSet n := Function.update semId semNum 0

/-- `clearEventFlag`: `semctl(semId, semNum, SETVAL, 1)`. -/
def clearEventFlag (semId : SemSet n) (semNum : Fin n) : SemSet n := Function.update semId semNum 1

/-- `waitForEventFlag`: a `semop` with `sem_op = 0`. -/
def waitForEventFlag (semId : SemSet n) (semNum : Fin n) : Option (SemSet n) :=
  if semId semNum = 0 then some semId else none

/-- `getFlagState`: `semctl(semId, 0, GETVAL)`. The member asked for is not used. -/
def getFlagState (semId : SemSet n) (semNum : Fin n) : ℕ := semId ⟨0, semNum.pos⟩

end TlpiLearn.EventFlag
