import TlpiLearn.Foundations.Strtol
import TlpiLearn.Foundations.CString

/-!
# Numbers on the command line

`getInt` and `getLong` of `tlpi-dist/lib/get_num.c` convert an argument with `strtol` and then check
it, by the flags of their caller. What they accept is said by the grammar of numerals
(`getInt_correct`): the whole argument is a numeral of the base that the flags choose, its value
fits the type, and it has the sign that the flags ask for.
-/

namespace TlpiLearn.GetNum

/-! ## `get_num.h` -/

def GN_NONNEG : BitVec 32 := 0o01
def GN_GT_0 : BitVec 32 := 0o02
def GN_ANY_BASE : BitVec 32 := 0o0100
def GN_BASE_8 : BitVec 32 := 0o0200
def GN_BASE_16 : BitVec 32 := 0o0400

/-- `flags & flag`, as a condition. -/
def Has (flags flag : BitVec 32) : Prop := flags &&& flag ≠ 0

instance (flags flag : BitVec 32) : Decidable (Has flags flag) :=
  inferInstanceAs (Decidable (_ ≠ _))

/-! ## `get_num.c` -/

/-- Why an argument is refused. -/
inductive Refusal
  | nullOrEmpty
  | strtolFailed
  | nonnumeric
  | negative
  | notPositive
  | outOfRange
  deriving DecidableEq, Repr

/-- The message for `gnFail`. -/
def Refusal.msg : Refusal → List UInt8
  | nullOrEmpty => ascii "null or empty string"
  | strtolFailed => ascii "strtol() failed"
  | nonnumeric => ascii "nonnumeric characters"
  | negative => ascii "negative value not allowed"
  | notPositive => ascii "value must be > 0"
  | outOfRange => ascii "integer out of range"

/-- What `gnFail` writes before it exits. -/
def gnFail (fname : List UInt8) (refusal : Refusal) (arg name : Option (List UInt8)) :
    List UInt8 :=
  fname ++ ascii " error" ++ name.elim [] (fun n => ascii " (in " ++ n ++ ascii ")") ++
    ascii ": " ++ refusal.msg ++ ascii "\n" ++
    arg.elim [] fun a =>
      if a = [] then [] else ascii "        offending text: " ++ a ++ ascii "\n"

def LONG_MIN : ℤ := -9223372036854775808
def LONG_MAX : ℤ := 9223372036854775807
def INT_MIN : ℤ := -2147483648
def INT_MAX : ℤ := 2147483647

/-- The base for `strtol`. -/
def base (flags : BitVec 32) : ℕ :=
  if Has flags GN_ANY_BASE then 0
  else if Has flags GN_BASE_8 then 8
  else if Has flags GN_BASE_16 then 16
  else 10

/-- `getNum`; the argument is `none` for a null pointer. -/
def getNum (arg : Option (List UInt8)) (flags : BitVec 32) : Except Refusal ℤ :=
  match arg with
  | none => .error .nullOrEmpty
  | some [] => .error .nullOrEmpty
  | some s =>
    let r := strtol LONG_MIN LONG_MAX (base flags) s
    if r.erange then .error .strtolFailed
    else if r.rest ≠ [] then .error .nonnumeric
    else if Has flags GN_NONNEG ∧ r.value < 0 then .error .negative
    else if Has flags GN_GT_0 ∧ r.value ≤ 0 then .error .notPositive
    else .ok r.value

def getLong (arg : Option (List UInt8)) (flags : BitVec 32) : Except Refusal ℤ := getNum arg flags

def getInt (arg : Option (List UInt8)) (flags : BitVec 32) : Except Refusal ℤ := do
  let res ← getNum arg flags
  if res > INT_MAX ∨ res < INT_MIN then .error .outOfRange else .ok res

/-! ## What is accepted -/

/-- The value has the sign that the flags ask for. -/
def SignAllowed (flags : BitVec 32) (z : ℤ) : Prop :=
  (Has flags GN_NONNEG → 0 ≤ z) ∧ (Has flags GN_GT_0 → 0 < z)

variable {arg : Option (List UInt8)} {flags : BitVec 32} {s : List UInt8} {z : ℤ}

theorem base_le (flags : BitVec 32) : base flags ≤ 16 := by
  unfold base
  split_ifs <;> omega

/-- What becomes of a numeral. -/
theorem getNum_of_numeral (h : Numeral (base flags) s z) :
    getNum (some s) flags =
      if z < LONG_MIN ∨ LONG_MAX < z then .error .strtolFailed
      else if Has flags GN_NONNEG ∧ z < 0 then .error .negative
      else if Has flags GN_GT_0 ∧ z ≤ 0 then .error .notPositive
      else .ok z := by
  obtain ⟨c, r, rfl⟩ := List.exists_cons_of_ne_nil h.ne_nil
  simp only [getNum, strtol_of_numeral (base_le flags) h]
  by_cases hlong : z < LONG_MIN ∨ LONG_MAX < z
  · simp [hlong]
  · have hclamp : max LONG_MIN (min LONG_MAX z) = z := by omega
    simp [hlong, hclamp]

/-- What becomes of another text. -/
theorem getNum_of_not_numeral (hs : s ≠ []) (h : ∀ z, ¬ Numeral (base flags) s z) :
    getNum (some s) flags = .error .strtolFailed ∨ getNum (some s) flags = .error .nonnumeric := by
  obtain ⟨c, r, rfl⟩ := List.exists_cons_of_ne_nil hs
  simp only [getNum]
  by_cases herange : (strtol LONG_MIN LONG_MAX (base flags) (c :: r)).erange = true
  · exact .inl (if_pos herange)
  · have hrest : (strtol LONG_MIN LONG_MAX (base flags) (c :: r)).rest ≠ [] := fun hnil => by
      obtain ⟨z, hz⟩ := numeral_of_rest_eq_nil hs hnil
      exact h z hz
    rw [if_neg herange, if_pos hrest]
    exact .inr rfl

/-- **What `getNum` accepts.** -/
theorem getNum_eq_ok_iff :
    getNum arg flags = .ok z ↔ ∃ s, arg = some s ∧ Numeral (base flags) s z ∧
      SignAllowed flags z ∧ LONG_MIN ≤ z ∧ z ≤ LONG_MAX := by
  constructor
  · intro h
    obtain - | s := arg
    · cases h
    · have hs : s ≠ [] := by
        rintro rfl
        cases h
      by_cases hnum : ∃ z, Numeral (base flags) s z
      · obtain ⟨w, hw⟩ := hnum
        rw [getNum_of_numeral hw] at h
        split_ifs at h with hlong hneg hpos
        obtain rfl := Except.ok.inj h
        refine ⟨s, rfl, hw, ⟨fun hf => ?_, fun hf => ?_⟩, ?_, ?_⟩
        · by_contra hlt
          exact hneg ⟨hf, by omega⟩
        · by_contra hle
          exact hpos ⟨hf, by omega⟩
        · omega
        · omega
      · rcases getNum_of_not_numeral hs (not_exists.1 hnum) with he | he <;>
          exact absurd (he.symm.trans h) (by simp)
  · rintro ⟨s, rfl, hnum, ⟨hneg, hpos⟩, hlo, hhi⟩
    rw [getNum_of_numeral hnum, if_neg (by omega), if_neg, if_neg]
    · rintro ⟨hf, hz⟩
      have := hpos hf
      omega
    · rintro ⟨hf, hz⟩
      have := hneg hf
      omega

theorem getInt_eq_ok_iff_getNum :
    getInt arg flags = .ok z ↔ getNum arg flags = .ok z ∧ INT_MIN ≤ z ∧ z ≤ INT_MAX := by
  unfold getInt
  cases getNum arg flags with
  | error e => simp [bind, Except.bind]
  | ok w =>
    simp only [bind, Except.bind]
    constructor
    · intro h
      split_ifs at h with hw
      obtain rfl := Except.ok.inj h
      exact ⟨rfl, by omega, by omega⟩
    · rintro ⟨hw, hlo, hhi⟩
      obtain rfl := Except.ok.inj hw
      exact if_neg (by omega)

/-- **What `getInt` accepts**: an argument that is a numeral of the base of the flags, whose value
fits an `int` and has the sign that the flags ask for; the value is returned. Another text is
refused as nonnumeric, or because `strtol` fails on a number in front of other characters. What is
printed in base 10 is read back. -/
theorem getInt_correct (flags : BitVec 32) :
    (∀ arg z, getInt arg flags = .ok z ↔ ∃ s, arg = some s ∧ Numeral (base flags) s z ∧
      SignAllowed flags z ∧ INT_MIN ≤ z ∧ z ≤ INT_MAX) ∧
    (∀ s, s ≠ [] → (∀ z, ¬ Numeral (base flags) s z) →
      getInt (some s) flags = .error .strtolFailed ∨
        getInt (some s) flags = .error .nonnumeric) ∧
    (∀ arg z w, getLong arg flags = .ok z → getInt arg flags = .ok w → z = w) ∧
    (∀ z, base flags = 10 → SignAllowed flags z → INT_MIN ≤ z → z ≤ INT_MAX →
      getInt (some (decimalInt z)) flags = .ok z) := by
  have hiff : ∀ arg z, getInt arg flags = .ok z ↔ ∃ s, arg = some s ∧
      Numeral (base flags) s z ∧ SignAllowed flags z ∧ INT_MIN ≤ z ∧ z ≤ INT_MAX := by
    intro arg z
    rw [getInt_eq_ok_iff_getNum, getNum_eq_ok_iff]
    refine ⟨fun ⟨⟨s, harg, hnum, hsign, _⟩, hint⟩ => ⟨s, harg, hnum, hsign, hint⟩, ?_⟩
    rintro ⟨s, harg, hnum, hsign, hlo, hhi⟩
    have hlong : LONG_MIN ≤ z ∧ z ≤ LONG_MAX := by
      unfold INT_MIN at hlo
      unfold INT_MAX at hhi
      unfold LONG_MIN LONG_MAX
      omega
    exact ⟨⟨s, harg, hnum, hsign, hlong⟩, hlo, hhi⟩
  refine ⟨hiff, fun s hs hnum => ?_, fun arg z w hz hw => ?_, fun z hbase hsign hlo hhi => ?_⟩
  · rcases getNum_of_not_numeral hs hnum with he | he
    · exact .inl (by rw [getInt, he]; rfl)
    · exact .inr (by rw [getInt, he]; rfl)
  · have hw' := (getInt_eq_ok_iff_getNum.1 hw).1
    exact Except.ok.inj (hz.symm.trans hw')
  · exact (hiff _ _).2 ⟨_, rfl, hbase ▸ numeral_decimalInt z, hsign, hlo, hhi⟩

end TlpiLearn.GetNum
