import TlpiLearn.Foundations.Constants
import TlpiLearn.Foundations.Pathname
import TlpiLearn.Foundations.StringMemory
import TlpiLearn.Processes.ProcessTree
import Mathlib.Tactic

/-!
# Timer specifications

`itimerspecFromStr` of `23_3.c` and `23_4.c` reads `secs[/nsecs][:int-secs[/int-nsecs]]`. It takes a
copy of the argument apart with null bytes: at the colon, and then each half at its own slash. Every
specification is read as it is meant, and the argument is there as before for the prints of `main`
(`itimerspecFromStr_render`, `createTimers_render`).
-/

namespace TlpiLearn.TimerSpec

open ProcessTree (atoi atoi_decimalInt)

/-- `struct timespec`. -/
structure Timespec where
  tv_sec : ℤ
  tv_nsec : ℤ
  deriving DecidableEq

/-- `struct itimerspec`. -/
structure Itimerspec where
  it_value : Timespec
  it_interval : Timespec
  deriving DecidableEq

/-- The lines for one half of the specification, at the address `p`. -/
def parseHalf (mem : List UInt8) (p : ℕ) : Timespec × List UInt8 :=
  let sptr := strchrAt mem p slash
  let mem := cutAt mem sptr
  let tv_sec := (atoi (strAt mem p)).toInt
  let tv_nsec := sptr.elim 0 fun sptr => (atoi (strAt mem (sptr + 1))).toInt
  (⟨tv_sec, tv_nsec⟩, mem)

/-- `itimerspecFromStr` for the string at `str`: the specification, and the memory. -/
def itimerspecFromStr (mem : List UInt8) (str : ℕ) : Itimerspec × List UInt8 :=
  let dupstr := mem.length
  let mem := strdup mem str
  let cptr := strchrAt mem dupstr colon
  let mem := cutAt mem cptr
  let (it_value, mem) := parseHalf mem dupstr
  let (it_interval, mem) := cptr.elim (⟨0, 0⟩, mem) fun cptr => parseHalf mem (cptr + 1)
  -- `free` gives the copy back
  (⟨it_value, it_interval⟩, mem.take dupstr)

/-- The loop of `main` over the arguments, as far as they are looked at: the specification that a
timer is set to, and the text that is printed for it. -/
def createTimers : List UInt8 → List ℕ → List (Itimerspec × List UInt8)
  | _, [] => []
  | mem, str :: argv =>
    let (ts, mem) := itimerspecFromStr mem str
    (ts, strAt mem str) :: createTimers mem argv

/-- A non-negative `int`. -/
abbrev NonNeg := {k : ℕ // k < 2 ^ 31}

/-- One half of a specification. -/
structure Half where
  secs : NonNeg
  nsecs : Option NonNeg

/-- A specification. -/
structure Spec where
  value : Half
  interval : Option Half

/-- `secs[/nsecs]`. -/
def Half.render (h : Half) : List UInt8 :=
  decimal h.secs.val ++ h.nsecs.elim [] fun nsecs => slash :: decimal nsecs.val

/-- `secs[/nsecs][:int-secs[/int-nsecs]]`. -/
def Spec.render (spec : Spec) : List UInt8 :=
  spec.value.render ++ spec.interval.elim [] fun h => colon :: h.render

def Half.timespec (h : Half) : Timespec := ⟨h.secs.val, h.nsecs.elim 0 fun nsecs => nsecs.val⟩

/-- What the specification says. -/
def Spec.itimerspec (spec : Spec) : Itimerspec :=
  ⟨spec.value.timespec, spec.interval.elim ⟨0, 0⟩ Half.timespec⟩

/-- A half behind its cut. -/
def Half.cut (h : Half) : List UInt8 :=
  decimal h.secs.val ++ h.nsecs.elim [] fun nsecs => 0 :: decimal nsecs.val

variable {mem : List UInt8} {str : ℕ}

/-! ## A half -/

theorem toInt_atoi_decimal (k : NonNeg) : (atoi (decimal k.val)).toInt = k.val := by
  have hk := k.property
  have hint : (Int32.ofInt k.val).toInt = k.val :=
    Int32.toInt_ofInt_of_le (by omega) (by omega)
  have hdec : decimal k.val = decimalInt (Int32.ofInt k.val).toInt := by
    rw [hint, decimalInt, if_neg (by omega), Int.natAbs_natCast]
  rw [hdec, atoi_decimalInt, hint]

theorem notMem_render {b : UInt8} (hb : isDigit b = false) (hslash : b ≠ slash) (h : Half) :
    b ∉ h.render := by
  obtain ⟨secs, nsecs⟩ := h
  cases nsecs <;> simp [Half.render, notMem_decimal hb, hslash]

theorem length_cut (h : Half) : h.cut.length = h.render.length := by
  obtain ⟨secs, nsecs⟩ := h
  cases nsecs <;> simp [Half.cut, Half.render]

/-- **One half** is read up to its null byte, whatever stands behind it. -/
theorem parseHalf_render (front back : List UInt8) (h : Half) :
    parseHalf (front ++ h.render ++ 0 :: back) front.length =
      (h.timespec, front ++ h.cut ++ 0 :: back) := by
  have hzero (k : ℕ) : 0 ∉ decimal k := notMem_decimal (by decide) k
  have hslash (k : ℕ) : slash ∉ decimal k := notMem_decimal (by decide) k
  obtain ⟨secs, nsecs⟩ := h
  cases nsecs with
  | none =>
    simp only [parseHalf, Half.render, Half.cut, Half.timespec, Option.elim_none, List.append_nil,
      strchrAt_eq_none front (hzero _) (hslash _), cutAt, strAt_append front (hzero _),
      toInt_atoi_decimal]
  | some nsecs =>
    have hassoc : front ++ (decimal secs.val ++ slash :: decimal nsecs.val) ++ 0 :: back =
        front ++ decimal secs.val ++ slash :: (decimal nsecs.val ++ 0 :: back) := by simp
    simp only [parseHalf, Half.render, Half.cut, Half.timespec, Option.elim_some, hassoc,
      strchrAt_append front (hzero _) (hslash _) (by decide : slash ≠ 0), cutAt_append,
      strAt_append front (hzero _), strAt_append_succ front _ (hzero _), toInt_atoi_decimal]
    simp

/-! ## The whole specification -/

/-- **A specification is read** as it is meant, and the memory is as before. -/
theorem itimerspecFromStr_render {spec : Spec} (h : strAt mem str = spec.render) :
    itimerspecFromStr mem str = (spec.itimerspec, mem) := by
  have hcolon (h : Half) : colon ∉ h.render := notMem_render (by decide) (by decide) h
  have hzero (h : Half) : 0 ∉ h.render := notMem_render (by decide) (by decide) h
  obtain ⟨value, interval⟩ := spec
  rw [itimerspecFromStr, strdup, h]
  cases interval with
  | none =>
    simp only [Spec.render, Spec.itimerspec, Option.elim_none, List.append_nil,
      strchrAt_eq_none mem (hzero _) (hcolon _), cutAt, parseHalf_render]
    simp
  | some interval =>
    have hassoc : mem ++ (value.render ++ colon :: interval.render) ++ [0] =
        mem ++ value.render ++ colon :: (interval.render ++ [0]) := by simp
    have hfront : (mem ++ value.cut ++ [0]).length = mem.length + value.render.length + 1 := by
      rw [List.length_append, List.length_append, length_cut, List.length_singleton]
    have hsecond := parseHalf_render (mem ++ value.cut ++ [0]) [] interval
    rw [hfront] at hsecond
    have hassoc' : mem ++ value.cut ++ 0 :: (interval.render ++ [0]) =
        mem ++ value.cut ++ [0] ++ interval.render ++ [0] := by simp
    simp only [Spec.render, Spec.itimerspec, Option.elim_some, hassoc,
      strchrAt_append mem (hzero _) (hcolon _) (by decide : colon ≠ 0), cutAt_append,
      parseHalf_render, hassoc', hsecond]
    simp

/-- **The arguments.** Each of them is read as it is meant, whichever of its parts are left out, and
it is printed as a whole behind that. -/
theorem createTimers_render {argv : List (ℕ × Spec)}
    (h : ∀ arg ∈ argv, strAt mem arg.1 = arg.2.render) :
    (∀ arg ∈ argv, itimerspecFromStr mem arg.1 = (arg.2.itimerspec, mem)) ∧
      createTimers mem (argv.map Prod.fst) =
        argv.map fun arg => (arg.2.itimerspec, arg.2.render) := by
  have hread : ∀ arg ∈ argv, itimerspecFromStr mem arg.1 = (arg.2.itimerspec, mem) :=
    fun arg harg => itimerspecFromStr_render (h arg harg)
  refine ⟨hread, ?_⟩
  induction argv with
  | nil => rfl
  | cons arg argv ih =>
    have hcons := hread arg List.mem_cons_self
    rw [List.map_cons, List.map_cons, createTimers, hcons]
    simp only [h arg List.mem_cons_self]
    rw [ih (fun a ha => h a (List.mem_cons_of_mem _ ha))
      fun a ha => hread a (List.mem_cons_of_mem _ ha)]

/-- The specification `2:5/7`. -/
def shortSpec : Spec :=
  ⟨⟨⟨2, by omega⟩, none⟩, some ⟨⟨5, by omega⟩, some ⟨7, by omega⟩⟩⟩

/-- `2:5/7` as an argument: the slash is one of the second half. -/
theorem createTimers_short :
    (∀ arg ∈ [(1, shortSpec)], itimerspecFromStr (0 :: ascii "2:5/7" ++ [0]) arg.1 =
        (arg.2.itimerspec, 0 :: ascii "2:5/7" ++ [0])) ∧
      createTimers (0 :: ascii "2:5/7" ++ [0]) ([(1, shortSpec)].map Prod.fst) =
        [(1, shortSpec)].map fun arg => (arg.2.itimerspec, arg.2.render) :=
  createTimers_render (by decide +kernel)

end TlpiLearn.TimerSpec
