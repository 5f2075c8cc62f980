import TlpiLearn.Foundations.Decimal

/-!
# `strtol`

The conversion of `strtol` in a base, or in the base that the text itself shows (`base = 0`), with
the rest of the text at `*endptr` and with `ERANGE`. `Numeral base s z` is the grammar: white space,
a sign, and a magnitude, which may have a prefix. A text is converted to its end if and only if it
is a numeral (`strtol_of_numeral`, `numeral_of_rest_eq_nil`), and then to its value, clamped to the
range of the type.
-/

namespace TlpiLearn

/-- The value of a digit or of a letter. -/
def digitValue (b : UInt8) : ℕ :=
  if 48 ≤ b.toNat ∧ b.toNat ≤ 57 then b.toNat - 48
  else if 65 ≤ b.toNat ∧ b.toNat ≤ 90 then b.toNat - 55
  else if 97 ≤ b.toNat ∧ b.toNat ≤ 122 then b.toNat - 87
  else 36

/-- The digits of a base are those with a smaller value; no other character has a value below 36. -/
def isDigitIn (base : ℕ) (b : UInt8) : Bool := digitValue b < min base 36

/-- The value of a string of digits. -/
def numeralValue (base : ℕ) (ds : List UInt8) : ℕ :=
  ds.foldl (fun v b => base * v + digitValue b) 0

/-- `0x` or `0X` is in front of the text. -/
def hexPrefixed (s : List UInt8) : Bool :=
  s.head? = some 48 ∧ (s.tail.head? = some 120 ∨ s.tail.head? = some 88)

/-- The base of a text behind its sign, and the text behind the prefix of the base. -/
def strtolBase (base : ℕ) (s : List UInt8) : ℕ × List UInt8 :=
  if (base = 0 ∨ base = 16) ∧ hexPrefixed s then (16, s.drop 2)
  else if base = 0 then (if s.head? = some 48 then 8 else 10, s)
  else (base, s)

/-- What `strtol` returns, the text at `*endptr`, and whether `errno` is `ERANGE`. -/
structure Converted where
  value : ℤ
  rest : List UInt8
  erange : Bool
  deriving DecidableEq, Repr

/-- The magnitude with its sign. -/
def signed (neg : Bool) (n : ℕ) : ℤ := if neg then -(n : ℤ) else n

/-- `strtol` for a type with the range from `lo` to `hi`. -/
def strtol (lo hi : ℤ) (base : ℕ) (s : List UInt8) : Converted :=
  let (neg, t) := scanSign (s.dropWhile isSpace)
  let (b, u) := strtolBase base t
  let ds := u.takeWhile (isDigitIn b)
  if ds = [] then
    -- of a prefix without a digit the `0` is converted; otherwise nothing is
    if u ≠ t then ⟨0, t.tail, false⟩ else ⟨0, s, false⟩
  else
    let z := signed neg (numeralValue b ds)
    ⟨max lo (min hi z), u.dropWhile (isDigitIn b), z < lo ∨ hi < z⟩

/-! ## The grammar -/

/-- The digits of a number, with the prefix of its base. -/
inductive Magnitude : ℕ → List UInt8 → ℕ → Prop
  | plain {base ds} (hbase : base ≠ 0) (hne : ds ≠ []) (hds : ∀ b ∈ ds, isDigitIn base b) :
      Magnitude base ds (numeralValue base ds)
  | hex {base x ds} (hbase : base = 0 ∨ base = 16) (hx : x = 120 ∨ x = 88) (hne : ds ≠ [])
      (hds : ∀ b ∈ ds, isDigitIn 16 b) : Magnitude base (48 :: x :: ds) (numeralValue 16 ds)
  | octal {ds} (hds : ∀ b ∈ ds, isDigitIn 8 b) : Magnitude 0 (48 :: ds) (numeralValue 8 ds)
  | decimal {b ds} (hb : b ≠ 48) (hds : ∀ c ∈ b :: ds, isDigitIn 10 c) :
      Magnitude 0 (b :: ds) (numeralValue 10 (b :: ds))

/-- A sign, and whether it is a minus. -/
inductive SignText : List UInt8 → Bool → Prop
  | none : SignText [] false
  | plus : SignText [43] false
  | minus : SignText [45] true

/-- **The numerals of a base**, or of any base for 0, with their values. -/
inductive Numeral (base : ℕ) : List UInt8 → ℤ → Prop
  | intro {ws sign body neg n} (hws : ∀ b ∈ ws, isSpace b) (hsign : SignText sign neg)
      (hbody : Magnitude base body n) : Numeral base (ws ++ (sign ++ body)) (signed neg n)

/-! ## Characters -/

/-- A digit of a base is no white space and no sign. -/
theorem not_space_of_isDigitIn {base : ℕ} {b : UInt8} (h : isDigitIn base b) :
    isSpace b = false ∧ b ≠ 43 ∧ b ≠ 45 := by
  have hlt : digitValue b < 36 := by
    simp only [isDigitIn, decide_eq_true_eq, lt_min_iff] at h
    exact h.2
  have hnat : b.toNat ≠ 43 ∧ b.toNat ≠ 45 ∧ 48 ≤ b.toNat := by
    unfold digitValue at hlt
    split_ifs at hlt <;> omega
  refine ⟨?_, fun e => hnat.1 (e ▸ rfl), fun e => hnat.2.1 (e ▸ rfl)⟩
  simp only [isSpace, decide_eq_false_iff_not]
  omega

/-- The `x` of a prefix is no digit of base 8, 10 or 16. -/
theorem not_isDigitIn_x {base : ℕ} (hbase : base ≤ 16) {x : UInt8} (hx : x = 120 ∨ x = 88) :
    ¬ isDigitIn base x := by
  have h33 : digitValue x = 33 := by rcases hx with rfl | rfl <;> rfl
  simp only [isDigitIn, h33, decide_eq_true_eq]
  omega

theorem isDigitIn_ten (b : UInt8) : isDigitIn 10 b = isDigit b := by
  rw [Bool.eq_iff_iff]
  simp only [isDigitIn, isDigit, digitValue, decide_eq_true_eq]
  split_ifs <;> simp only [decide_eq_true_eq] <;> omega

theorem hexPrefixed_cons_cons {c x : UInt8} {s : List UInt8} :
    hexPrefixed (c :: x :: s) ↔ c = 48 ∧ (x = 120 ∨ x = 88) := by
  simp [hexPrefixed]

theorem exists_of_hexPrefixed {t : List UInt8} (h : hexPrefixed t) :
    ∃ x ds, t = 48 :: x :: ds ∧ (x = 120 ∨ x = 88) := by
  match t with
  | [] => simp [hexPrefixed] at h
  | [c] => simp [hexPrefixed] at h
  | c :: x :: ds =>
    obtain ⟨rfl, hx⟩ := hexPrefixed_cons_cons.1 h
    exact ⟨x, ds, rfl, hx⟩

/-- Digits of a base up to 16 do not look like a prefix of base 16. -/
theorem not_hexPrefixed {base : ℕ} (hbase : base ≤ 16) {ds : List UInt8}
    (hds : ∀ b ∈ ds, isDigitIn base b) : ¬ hexPrefixed ds := by
  cases ds with
  | nil => simp [hexPrefixed]
  | cons c ds =>
    cases ds with
    | nil => simp [hexPrefixed]
    | cons x ds =>
      rw [hexPrefixed_cons_cons]
      rintro ⟨-, hx⟩
      exact not_isDigitIn_x hbase hx (hds x (by simp))

/-! ## A numeral is converted to its end -/

/-- The base and the digits of a magnitude. -/
theorem strtolBase_of_magnitude {base n : ℕ} {body : List UInt8} (hbase : base ≤ 16)
    (h : Magnitude base body n) : ∃ b ds, strtolBase base body = (b, ds) ∧ ds ≠ [] ∧
      (∀ d ∈ ds, isDigitIn b d) ∧ numeralValue b ds = n := by
  cases h with
  | plain hne0 hne hds =>
    refine ⟨base, body, ?_, hne, hds, rfl⟩
    rw [strtolBase, if_neg fun h => not_hexPrefixed hbase hds h.2, if_neg hne0]
  | @hex _ x ds hbase' hx hne hds =>
    refine ⟨16, ds, ?_, hne, hds, rfl⟩
    rw [strtolBase, if_pos ⟨hbase', hexPrefixed_cons_cons.2 ⟨rfl, hx⟩⟩]
    rfl
  | @octal ds hds =>
    have hds' : ∀ d ∈ 48 :: ds, isDigitIn 8 d := fun d hd => by
      rcases List.mem_cons.1 hd with rfl | hd
      · rfl
      · exact hds d hd
    refine ⟨8, 48 :: ds, ?_, List.cons_ne_nil _ _, hds', rfl⟩
    rw [strtolBase, if_neg fun h => not_hexPrefixed (by omega) hds' h.2]
    rfl
  | @decimal b ds hb hds =>
    refine ⟨10, b :: ds, ?_, List.cons_ne_nil _ _, hds, rfl⟩
    rw [strtolBase, if_neg fun h => not_hexPrefixed (by omega) hds h.2, if_pos rfl]
    simp [hb]

/-- A magnitude starts with a digit. -/
theorem Magnitude.exists_cons {base n : ℕ} {body : List UInt8} (h : Magnitude base body n) :
    ∃ c r, body = c :: r ∧ isSpace c = false ∧ c ≠ 43 ∧ c ≠ 45 := by
  cases h with
  | plain _ hne hds =>
    obtain ⟨c, r, rfl⟩ := List.exists_cons_of_ne_nil hne
    exact ⟨c, r, rfl, not_space_of_isDigitIn (hds c List.mem_cons_self)⟩
  | hex => exact ⟨48, _, rfl, by decide⟩
  | octal => exact ⟨48, _, rfl, by decide⟩
  | @decimal b ds _ hds => exact ⟨b, ds, rfl, not_space_of_isDigitIn (hds b List.mem_cons_self)⟩

theorem scanSign_append {sign : List UInt8} {neg : Bool} (h : SignText sign neg) {c : UInt8}
    (hc : c ≠ 43 ∧ c ≠ 45) (r : List UInt8) : scanSign (sign ++ c :: r) = (neg, c :: r) := by
  cases h with
  | none => simp [scanSign, hc]
  | plus => rfl
  | minus => rfl

/-- **A numeral is converted to its end**, and its value is clamped. -/
theorem strtol_of_numeral {base : ℕ} (hbase : base ≤ 16) {s : List UInt8} {z : ℤ}
    (h : Numeral base s z) (lo hi : ℤ) :
    strtol lo hi base s = ⟨max lo (min hi z), [], z < lo ∨ hi < z⟩ := by
  obtain @⟨ws, sign, body, neg, n, hws, hsign, hbody⟩ := h
  obtain ⟨c, r, hcr, hspace, hc⟩ := hbody.exists_cons
  obtain ⟨b, ds, hb, hne, hds, hn⟩ := strtolBase_of_magnitude hbase hbody
  have hdrop : (ws ++ (sign ++ body)).dropWhile isSpace = sign ++ body := by
    rw [List.dropWhile_append_of_pos hws, hcr]
    cases hsign <;> simp [hspace, List.dropWhile_cons] <;> decide
  have htake : ds.takeWhile (isDigitIn b) = ds := List.takeWhile_eq_self_iff.2 hds
  have hrest : ds.dropWhile (isDigitIn b) = [] := List.dropWhile_eq_nil_iff.2 hds
  have hsgn : scanSign (sign ++ body) = (neg, body) := hcr ▸ scanSign_append hsign hc r
  simp only [strtol, hdrop, hsgn, hb, htake, if_neg hne, hrest, hn]

theorem Numeral.ne_nil {base : ℕ} {s : List UInt8} {z : ℤ} (h : Numeral base s z) : s ≠ [] := by
  obtain @⟨ws, sign, body, neg, n, -, -, hbody⟩ := h
  obtain ⟨c, r, rfl, -⟩ := hbody.exists_cons
  simp

/-! ## What is converted to its end is a numeral -/

theorem exists_signText (s : List UInt8) :
    ∃ sign, SignText sign (scanSign s).1 ∧ s = sign ++ (scanSign s).2 := by
  unfold scanSign
  cases s with
  | nil => exact ⟨[], .none, rfl⟩
  | cons c s =>
    by_cases hminus : c = 45
    · subst hminus
      exact ⟨[45], .minus, rfl⟩
    · by_cases hplus : c = 43
      · subst hplus
        exact ⟨[43], .plus, rfl⟩
      · simp only [List.head?_cons, Option.some.injEq, if_neg hminus, if_neg hplus]
        exact ⟨[], .none, rfl⟩

/-- The digits that are found make a magnitude, when they are all of the text. -/
theorem magnitude_of_strtolBase {base : ℕ} {t : List UInt8}
    (hne : (strtolBase base t).2 ≠ [])
    (hds : ∀ d ∈ (strtolBase base t).2, isDigitIn (strtolBase base t).1 d) :
    Magnitude base t (numeralValue (strtolBase base t).1 (strtolBase base t).2) := by
  unfold strtolBase at hne hds ⊢
  by_cases hhex : (base = 0 ∨ base = 16) ∧ hexPrefixed t = true
  · rw [if_pos hhex] at hne hds ⊢
    obtain ⟨x, ds, rfl, hx⟩ := exists_of_hexPrefixed hhex.2
    exact .hex hhex.1 hx hne hds
  · rw [if_neg hhex] at hne hds ⊢
    by_cases hbase : base = 0
    · rw [if_pos hbase] at hne hds ⊢
      obtain ⟨c, ds, rfl⟩ := List.exists_cons_of_ne_nil hne
      subst hbase
      by_cases hc : c = 48
      · subst hc
        exact .octal fun d hd => hds d (List.mem_cons_of_mem _ hd)
      · simp only [List.head?_cons, Option.some.injEq, if_neg hc] at hds ⊢
        exact .decimal hc hds
    · rw [if_neg hbase] at hne hds ⊢
      exact .plain hbase hne hds

/-- A prefix without a digit leaves its `x`. -/
theorem tail_ne_nil_of_strtolBase {base : ℕ} {t : List UInt8} (h : (strtolBase base t).2 ≠ t) :
    t.tail ≠ [] := by
  unfold strtolBase at h
  split_ifs at h with hhex
  · obtain ⟨x, ds, rfl, -⟩ := exists_of_hexPrefixed hhex.2
    exact List.cons_ne_nil _ _
  all_goals exact absurd rfl h

/-- **A text that is converted to its end** is a numeral. -/
theorem numeral_of_rest_eq_nil {lo hi : ℤ} {base : ℕ} {s : List UInt8} (hs : s ≠ [])
    (h : (strtol lo hi base s).rest = []) : ∃ z, Numeral base s z := by
  obtain ⟨sign, hsign, hsplit⟩ := exists_signText (s.dropWhile isSpace)
  generalize hneg : (scanSign (s.dropWhile isSpace)).1 = neg at hsign
  generalize ht : (scanSign (s.dropWhile isSpace)).2 = t at hsplit
  have hrest : (strtol lo hi base s).rest =
      if (strtolBase base t).2.takeWhile (isDigitIn (strtolBase base t).1) = [] then
        if (strtolBase base t).2 ≠ t then t.tail else s
      else (strtolBase base t).2.dropWhile (isDigitIn (strtolBase base t).1) := by
    simp only [strtol, ← ht]
    split_ifs <;> rfl
  rw [hrest] at h
  split_ifs at h with hnil hx
  · exact absurd h (tail_ne_nil_of_strtolBase hx)
  · exact absurd h hs
  · have hds := List.dropWhile_eq_nil_iff.1 h
    have hne : (strtolBase base t).2 ≠ [] := fun e => hnil (by rw [e]; rfl)
    have hws : ∀ b ∈ s.takeWhile isSpace, isSpace b := fun b hb => List.mem_takeWhile_imp hb
    have hnumeral := Numeral.intro hws hsign (magnitude_of_strtolBase hne hds)
    rw [← hsplit, List.takeWhile_append_dropWhile] at hnumeral
    exact ⟨_, hnumeral⟩

/-! ## Decimal numerals -/

theorem numeralValue_ten {ds : List UInt8} (hds : ∀ b ∈ ds, isDigit b) :
    numeralValue 10 ds = decimalValue ds := by
  induction ds using List.reverseRecOn with
  | nil => rfl
  | append_singleton ds b ih =>
    have hb : isDigit b := hds b (by simp)
    have hvalue : digitValue b = b.toNat - 48 := by
      simp only [isDigit, decide_eq_true_eq] at hb
      rw [digitValue, if_pos hb]
    have ih' := ih fun c hc => hds c (List.mem_append_left _ hc)
    rw [decimalValue_append_singleton, ← ih', ← hvalue, numeralValue, List.foldl_append]
    rfl

/-- What `printf("%d")` writes is a numeral of base 10. -/
theorem numeral_decimalInt (z : ℤ) : Numeral 10 (decimalInt z) z := by
  have hdigits : ∀ b ∈ decimal z.natAbs, isDigitIn 10 b := fun b hb => by
    rw [isDigitIn_ten]
    exact isDigit_of_mem_decimal hb
  have hbody : Magnitude 10 (decimal z.natAbs) z.natAbs := by
    have hplain := Magnitude.plain (by omega) (decimal_ne_nil z.natAbs) hdigits
    rwa [numeralValue_ten fun b hb => isDigit_of_mem_decimal hb, decimalValue_decimal] at hplain
  have hspaces : ∀ b ∈ ([] : List UInt8), isSpace b := by simp
  unfold decimalInt
  split_ifs with hz
  · have hnum := Numeral.intro hspaces .minus hbody
    have hvalue : signed true z.natAbs = z := by
      rw [signed, if_pos rfl]
      omega
    rwa [hvalue] at hnum
  · have hnum := Numeral.intro hspaces .none hbody
    have hvalue : signed false z.natAbs = z := by
      rw [signed, if_neg Bool.false_ne_true]
      omega
    rwa [hvalue] at hnum

/-- A text is the numeral of one integer. -/
theorem Numeral.unique {base : ℕ} (hbase : base ≤ 16) {s : List UInt8} {z w : ℤ}
    (hz : Numeral base s z) (hw : Numeral base s w) : z = w := by
  have hconv := (strtol_of_numeral hbase hz (min z w) (max z w)).symm.trans
    (strtol_of_numeral hbase hw (min z w) (max z w))
  have hvalue := congrArg Converted.value hconv
  simp only at hvalue
  omega

end TlpiLearn
