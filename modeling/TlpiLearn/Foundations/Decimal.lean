import Mathlib.Data.List.TakeWhile
import Mathlib.Data.Nat.Digits.Lemmas
import Mathlib.Tactic

/-!
# Decimal numerals

`decimalInt z` is what `printf("%d")` prints and `scanInt lo hi` is the conversion of `scanf`:
white space, a sign, digits, and a value clamped to the range of the type. `scanInt_decimalInt`
reads a numeral back and `length_decimalInt_of_scanInt` says that no shorter text is read as the
same number.
-/

namespace TlpiLearn

/-- The character of a digit. -/
def digitChar (d : ℕ) : UInt8 := UInt8.ofNat (48 + d)

/-- `isdigit`. -/
def isDigit (b : UInt8) : Bool := 48 ≤ b.toNat ∧ b.toNat ≤ 57

/-- `isspace`. -/
def isSpace (b : UInt8) : Bool := b.toNat = 32 ∨ 9 ≤ b.toNat ∧ b.toNat ≤ 13

/-- The decimal numeral of a natural number. -/
def decimal (n : ℕ) : List UInt8 :=
  if n = 0 then [digitChar 0] else (Nat.digits 10 n).reverse.map digitChar

/-- The numeral of an integer. -/
def decimalInt (z : ℤ) : List UInt8 :=
  if z < 0 then 45 :: decimal z.natAbs else decimal z.natAbs

/-- What `printf` prints for `%0` with a width: zeros in front of the numeral up to the width. -/
def zeroPadded (width n : ℕ) : List UInt8 :=
  List.replicate (width - (decimal n).length) (digitChar 0) ++ decimal n

/-- The value of a string of digits. -/
def decimalValue (s : List UInt8) : ℕ := s.foldl (fun v b => 10 * v + (b.toNat - 48)) 0

/-- An optional sign: whether it is a minus, and the rest of the text. -/
def scanSign (s : List UInt8) : Bool × List UInt8 :=
  if s.head? = some 45 then (true, s.tail)
  else if s.head? = some 43 then (false, s.tail)
  else (false, s)

/-- The conversion of the text `s` to an integer between `lo` and `hi`, or `none` when there is no
digit. -/
def scanInt (lo hi : ℤ) (s : List UInt8) : Option ℤ :=
  let (neg, s) := scanSign (s.dropWhile isSpace)
  let ds := s.takeWhile isDigit
  if ds = [] then none
  else some (max lo (min hi (if neg then -(decimalValue ds : ℤ) else decimalValue ds)))

/-! ## Digits -/

theorem toNat_digitChar {d : ℕ} (hd : d < 10) : (digitChar d).toNat = 48 + d := by
  rw [digitChar, UInt8.toNat_ofNat']
  omega

theorem isDigit_digitChar {d : ℕ} (hd : d < 10) : isDigit (digitChar d) = true := by
  unfold isDigit
  rw [toNat_digitChar hd]
  simp
  omega

theorem isSpace_eq_false_of_isDigit {b : UInt8} (hb : isDigit b = true) : isSpace b = false := by
  unfold isDigit at hb
  unfold isSpace
  simp at hb ⊢
  omega

/-- The numeral of a number consists of digits. -/
theorem isDigit_of_mem_decimal {n : ℕ} {b : UInt8} (hb : b ∈ decimal n) : isDigit b = true := by
  unfold decimal at hb
  split at hb
  · rw [List.mem_singleton.1 hb]
    exact isDigit_digitChar (by omega)
  · obtain ⟨d, hd, rfl⟩ := List.mem_map.1 hb
    exact isDigit_digitChar (Nat.digits_lt_base (by omega) (List.mem_reverse.1 hd))

/-- A byte that is no digit does not occur in a numeral. -/
theorem notMem_decimal {b : UInt8} (hb : isDigit b = false) (n : ℕ) : b ∉ decimal n := by
  intro hmem
  rw [isDigit_of_mem_decimal hmem] at hb
  cases hb

/-- A byte that is neither a digit nor the minus sign does not occur in a numeral. -/
theorem notMem_decimalInt {b : UInt8} (hb : isDigit b = false) (hminus : b ≠ 45) (z : ℤ) :
    b ∉ decimalInt z := by
  unfold decimalInt
  split
  · intro hmem
    exact (List.mem_cons.1 hmem).elim hminus (notMem_decimal hb _)
  · exact notMem_decimal hb _

theorem decimal_ne_nil (n : ℕ) : decimal n ≠ [] := by
  unfold decimal
  split
  · exact List.cons_ne_nil _ _
  · rename_i hn
    simpa [Nat.digits_ne_nil_iff_ne_zero] using hn

/-! ## The value of a numeral -/

theorem decimalValue_append_singleton (s : List UInt8) (b : UInt8) :
    decimalValue (s ++ [b]) = 10 * decimalValue s + (b.toNat - 48) := by
  rw [decimalValue, decimalValue, List.foldl_append]
  rfl

theorem decimalValue_map_digitChar {ds : List ℕ} (hds : ∀ d ∈ ds, d < 10) :
    decimalValue (ds.reverse.map digitChar) = Nat.ofDigits 10 ds := by
  induction ds with
  | nil => rfl
  | cons d ds ih =>
    have hd : d < 10 := hds d List.mem_cons_self
    rw [List.reverse_cons, List.map_append, List.map_singleton, decimalValue_append_singleton,
      ih fun e he => hds e (List.mem_cons_of_mem _ he), toNat_digitChar hd, Nat.ofDigits_cons]
    omega

/-- **The value of the numeral of a number** is the number. -/
theorem decimalValue_decimal (n : ℕ) : decimalValue (decimal n) = n := by
  unfold decimal
  split
  · rename_i hn
    rw [hn]
    rfl
  · rw [decimalValue_map_digitChar fun d hd => Nat.digits_lt_base (by omega) hd,
      Nat.ofDigits_digits]

theorem decimalValue_lt {s : List UInt8} (hs : ∀ b ∈ s, isDigit b = true) :
    decimalValue s < 10 ^ s.length := by
  induction s using List.reverseRecOn with
  | nil => exact Nat.one_pos
  | append_singleton s b ih =>
    have ih' := ih fun c hc => hs c (List.mem_append_left _ hc)
    have hb : isDigit b = true := hs b (by simp)
    have hb9 : b.toNat - 48 ≤ 9 := by
      unfold isDigit at hb
      simp at hb
      omega
    rw [decimalValue_append_singleton, List.length_append, List.length_singleton, pow_succ]
    omega

/-- A numeral has at most `k` digits exactly when its number is below `10 ^ k`. -/
theorem length_decimal_le_iff {n k : ℕ} (hk : 0 < k) :
    (decimal n).length ≤ k ↔ n < 10 ^ k := by
  unfold decimal
  split
  · rename_i hn
    rw [hn, List.length_singleton]
    exact iff_of_true hk (Nat.pow_pos (by omega))
  · rw [List.length_map, List.length_reverse]
    exact Nat.digits_length_le_iff (by omega) n

/-- The numeral of an integer has at most one character more than that of its absolute value. -/
theorem length_decimalInt_le {z : ℤ} {k : ℕ} (hk : 0 < k) (hz : z.natAbs < 10 ^ k) :
    (decimalInt z).length ≤ k + 1 := by
  have hlen : (decimal z.natAbs).length ≤ k := (length_decimal_le_iff hk).2 hz
  unfold decimalInt
  split
  · rw [List.length_cons]; omega
  · omega

/-! ## Scanning -/

theorem scanSign_decimal (n : ℕ) : scanSign (decimal n) = (false, decimal n) := by
  have hne : ∀ c : UInt8, isDigit c = false → (decimal n).head? ≠ some c := by
    intro c hc h
    exact notMem_decimal hc n (List.mem_of_mem_head? h)
  rw [scanSign, if_neg (hne 45 (by decide)), if_neg (hne 43 (by decide))]

theorem scanSign_decimalInt (z : ℤ) :
    scanSign (decimalInt z) = (decide (z < 0), decimal z.natAbs) := by
  unfold decimalInt
  split
  · rename_i hz
    simp [scanSign, hz]
  · rename_i hz
    simp [scanSign_decimal, hz]

theorem dropWhile_isSpace_decimalInt (z : ℤ) :
    (decimalInt z).dropWhile isSpace = decimalInt z := by
  have hcons : ∀ (b : UInt8) (s : List UInt8), isSpace b = false →
      (b :: s).dropWhile isSpace = b :: s := by
    intro b s hb
    exact List.dropWhile_cons_of_neg (by rw [hb]; simp)
  unfold decimalInt
  split
  · exact hcons _ _ (by decide)
  · obtain ⟨b, s, hbs⟩ := List.exists_cons_of_ne_nil (decimal_ne_nil z.natAbs)
    have hb : isDigit b = true :=
      isDigit_of_mem_decimal (n := z.natAbs) (hbs ▸ List.mem_cons_self)
    rw [hbs]
    exact hcons b s (isSpace_eq_false_of_isDigit hb)

/-- **A numeral is scanned back** when its number is in range. -/
theorem scanInt_decimalInt {lo hi z : ℤ} (hlo : lo ≤ z) (hhi : z ≤ hi) :
    scanInt lo hi (decimalInt z) = some z := by
  have hdigits : (decimal z.natAbs).takeWhile isDigit = decimal z.natAbs :=
    List.takeWhile_eq_self_iff.2 fun _ => isDigit_of_mem_decimal
  have hvalue : (if z < 0 then -(z.natAbs : ℤ) else z.natAbs) = z := by
    split <;> omega
  simp only [scanInt, dropWhile_isSpace_decimalInt, scanSign_decimalInt, hdigits,
    if_neg (decimal_ne_nil _), decimalValue_decimal, decide_eq_true_eq, hvalue]
  congr 1
  omega

/-- What the sign leaves. -/
theorem length_scanSign (s : List UInt8) :
    (scanSign s).2.length ≤ s.length ∧
      ((scanSign s).1 = true → (scanSign s).2.length + 1 = s.length) := by
  unfold scanSign
  cases s with
  | nil => simp
  | cons b s => split_ifs <;> simp

/-- **No text is shorter than the numeral** of the integer that is scanned from it. -/
theorem length_decimalInt_of_scanInt {lo hi z : ℤ} (hlo : lo ≤ 0) (hhi : 0 ≤ hi)
    {s : List UInt8} (h : scanInt lo hi s = some z) : (decimalInt z).length ≤ s.length := by
  have hspace : (s.dropWhile isSpace).length ≤ s.length := (List.dropWhile_sublist _).length_le
  obtain ⟨hsign, hminus⟩ := length_scanSign (s.dropWhile isSpace)
  simp only [scanInt] at h
  generalize scanSign (s.dropWhile isSpace) = r at h hsign hminus
  obtain ⟨neg, t⟩ := r
  have hdigits : (t.takeWhile isDigit).length ≤ t.length := (List.takeWhile_sublist _).length_le
  have hvalue := decimalValue_lt (s := t.takeWhile isDigit) fun b hb => List.mem_takeWhile_imp hb
  simp only at h hsign hminus
  generalize t.takeWhile isDigit = ds at h hdigits hvalue
  split at h
  · cases h
  · rename_i hne
    have hpos : 0 < ds.length := List.length_pos_of_ne_nil hne
    obtain rfl := Option.some.inj h
    generalize hz : max lo (min hi (if neg then -(decimalValue ds : ℤ) else decimalValue ds)) = z
    have habs : z.natAbs ≤ decimalValue ds := by
      split at hz <;> omega
    have hneg : z < 0 → neg = true := by
      intro hz0
      by_contra hneg
      rw [if_neg hneg] at hz
      omega
    have hlen : (decimal z.natAbs).length ≤ ds.length :=
      (length_decimal_le_iff hpos).2 (lt_of_le_of_lt habs hvalue)
    unfold decimalInt
    split
    · rename_i hz0
      have htail := hminus (hneg hz0)
      rw [List.length_cons]
      omega
    · omega

end TlpiLearn
