import TlpiLearn.Foundations.CString
import TlpiLearn.Foundations.Constants
import TlpiLearn.Foundations.Decimal
import TlpiLearn.Foundations.Tokens
import Mathlib.Tactic

/-!
# The status file of a process

`Exercise/12_1.c` and `Exercise/12_2.c` read `/proc/PID/status` in one way: a line at a time into
`str`, the key and the value cut off at colons with `strtok`, the blanks in front of the value
skipped. They differ in what they do with a key and a value.

`Status` is a well-formed file. It holds the lines that the programs look for and any others, and
`readStatus_text` says which values the loop meets there.
-/

namespace TlpiLearn.StatusFile

/-- `MAXLINE`. -/
def MAXLINE : ℕ := 4096

/-- The bytes that the loop skips in front of a value. -/
def isBlank (b : UInt8) : Bool := b = 32 ∨ b = tab

/-- The delimiters of `strtok`. -/
def isColon (b : UInt8) : Bool := b = colon

/-- A turn of the loop: `field` says what is done with a key and a value. -/
def takeLine {σ : Type*} (field : σ → List UInt8 → List UInt8 → σ) (v : σ) (str : List UInt8) : σ :=
  match (strtok isColon (cstr str)).1, (strtok isColon (strtok isColon (cstr str)).2).1 with
  | some key, some value => field v key (value.dropWhile isBlank)
  | _, _ => v

/-- The loop over the file. -/
def readStatus {σ : Type*} (field : σ → List UInt8 → List UInt8 → σ) (v : σ)
    (text : List UInt8) : σ :=
  (fgetsPieces newline (MAXLINE - 1) [] text).foldl (takeLine field) v

/-- What ends a program otherwise than by returning. -/
inductive Fault
  /-- The length of a text that was never written. -/
  | uninitialized
  /-- A store in front of the buffer. -/
  | storeBefore
  /-- A store behind the buffer. -/
  | overflow
  deriving DecidableEq, Repr

/-- `s[strlen(s) - 1] = '\0'`, the text of a buffer being unknown before it is written. -/
def cutLast : Option (List UInt8) → Except Fault (List UInt8)
  | none => .error .uninitialized
  | some [] => .error .storeBefore
  | some (b :: s) => .ok (b :: s).dropLast

/-! ## Well-formed files -/

/-- A line of the file. -/
def line (key value : List UInt8) : List UInt8 := key ++ colon :: (value ++ [newline])

/-- A line that the programs do not look for. It fits into `str`, or it holds one colon only, which
does. -/
structure Other where
  key : List UInt8
  value : List UInt8
  key_ne_nil : key ≠ []
  key_plain : ∀ b ∈ key, b ≠ colon ∧ b ≠ newline ∧ b ≠ 0
  value_plain : ∀ b ∈ value, b ≠ newline ∧ b ≠ 0
  fits : (line key value).length < MAXLINE ∨ colon ∉ value ∧ key.length + 2 < MAXLINE
  notMem : key ∉ [ascii "Name", ascii "Pid", ascii "PPid", ascii "Uid"]

theorem Other.key_ne (o : Other) : o.key ≠ ascii "Name" ∧ o.key ≠ ascii "Pid" ∧
    o.key ≠ ascii "PPid" ∧ o.key ≠ ascii "Uid" := by
  simpa only [List.mem_cons, List.not_mem_nil, or_false, not_or] using o.notMem

/-- The lines of a list. -/
def Other.lines (others : List Other) : List UInt8 := others.flatMap fun o => line o.key o.value

/-- The user ids of a process: the real, the effective, the saved and the file system one. -/
structure Uids where
  real : UInt32
  effective : UInt32
  saved : UInt32
  fs : UInt32

/-- The four user ids. -/
def Uids.all (u : Uids) : List UInt32 := [u.real, u.effective, u.saved, u.fs]

/-- A status file: the name of a process, its number and the one of its parent, and
the user ids. Names are much shorter than `str`. -/
structure Status where
  name : List UInt8
  name_plain : ∀ b ∈ name, b ≠ newline ∧ b ≠ 0
  name_fits : (line (ascii "Name") (tab :: name)).length < MAXLINE
  afterName : List Other
  pid : Int32
  afterPid : List Other
  ppid : Int32
  afterPPid : List Other
  uids : Uids
  afterUid : List Other

/-- The numbers on the line of the user ids. -/
def Status.uidText (s : Status) : List UInt8 :=
  decimal s.uids.real.toNat ++ tab :: (decimal s.uids.effective.toNat ++
    tab :: (decimal s.uids.saved.toNat ++ tab :: decimal s.uids.fs.toNat))

/-- The file as it stands under `/proc`. -/
def Status.text (s : Status) : List UInt8 :=
  line (ascii "Name") (tab :: s.name) ++ (Other.lines s.afterName ++
    (line (ascii "Pid") (tab :: decimalInt s.pid.toInt) ++ (Other.lines s.afterPid ++
      (line (ascii "PPid") (tab :: decimalInt s.ppid.toInt) ++ (Other.lines s.afterPPid ++
        (line (ascii "Uid") (tab :: s.uidText) ++ Other.lines s.afterUid))))))

/-- What the loop takes for the name: no blanks in front, and nothing from a colon on. -/
def Status.taken (s : Status) : List UInt8 :=
  ((s.name ++ [newline]).takeWhile fun b => !isColon b).dropWhile isBlank

/-! ## The turns of the loop -/

variable {s : Status} {σ : Type*} {field : σ → List UInt8 → List UInt8 → σ} {v : σ}
  {key value w : List UInt8}

theorem isLine_line (hkey : newline ∉ key) (hvalue : newline ∉ value) :
    IsLine newline (line key value) := by
  refine ⟨key ++ colon :: value, by simp [line], ?_⟩
  rw [List.mem_append, List.mem_cons, not_or, not_or]
  exact ⟨hkey, by decide, hvalue⟩

/-- The loop over a line that fits. -/
theorem readStatus_line (hkey : newline ∉ key) (hvalue : newline ∉ value)
    (hfits : (line key value).length < MAXLINE) (s : List UInt8) :
    readStatus field v (line key value ++ s) =
      readStatus field (takeLine field v (line key value)) s := by
  have hmax : (line key value).length ≤ MAXLINE - 1 := by omega
  rw [readStatus, fgetsPieces_line (isLine_line hkey hvalue) hmax, List.foldl_cons, readStatus]

theorem zero_notMem_line (hkey : 0 ∉ key) (hvalue : 0 ∉ value) : 0 ∉ line key value := by
  rw [line, List.mem_append, List.mem_cons, List.mem_append, List.mem_singleton]
  rintro (h | h | h | h)
  · exact hkey h
  · exact absurd h (by decide)
  · exact hvalue h
  · exact absurd h (by decide)

theorem isColon_eq_false {s : List UInt8} (hs : colon ∉ s) : ∀ b ∈ s, isColon b = false := by
  intro b hb
  rw [isColon, decide_eq_false_iff_not]
  rintro rfl
  exact hs hb

/-- What the loop finds in a line: the value up to a second colon. -/
theorem takeLine_line (hne : key ≠ []) (hkey : colon ∉ key) (hzero : 0 ∉ line key (tab :: w)) :
    takeLine field v (line key (tab :: w)) =
      field v key (((w ++ [newline]).takeWhile fun b => !isColon b).dropWhile isBlank) := by
  have htab : isColon tab = false := by decide
  have htake : (!isColon tab) = true := by decide
  have hskip : isBlank tab = true := by decide
  rw [takeLine, cstr_eq_self hzero, line,
    strtok_append_cons hne (isColon_eq_false hkey) (by decide), List.cons_append, strtok_cons htab,
    List.takeWhile_cons_of_pos (p := fun b => !isColon b) htake]
  dsimp only
  rw [List.dropWhile_cons_of_pos hskip]

/-- Nothing is done for a piece without a colon. -/
theorem takeLine_of_notMem {str : List UInt8} (hstr : colon ∉ str) : takeLine field v str = v := by
  have hplain : ∀ b ∈ cstr str, isColon b = false := fun b hb =>
    isColon_eq_false hstr b ((cstr_prefix_mem str).subset hb)
  rw [takeLine, strtok_strtok_plain hplain]
  cases (strtok isColon (cstr str)).1 <;> rfl

/-- Nothing is done for the beginning of another line, with its colon. -/
theorem takeLine_other (hother : ∀ (o : Other) v value, field v o.key value = v) (o : Other)
    {a : List UInt8} (ha : 0 ∉ a) : takeLine field v (o.key ++ colon :: a) = v := by
  have hkey : colon ∉ o.key := fun h => (o.key_plain _ h).1 rfl
  have hzero : 0 ∉ o.key ++ colon :: a := by
    rw [List.mem_append, List.mem_cons, not_or, not_or]
    exact ⟨fun h => (o.key_plain _ h).2.2 rfl, by decide, ha⟩
  rw [takeLine, cstr_eq_self hzero,
    strtok_append_cons o.key_ne_nil (isColon_eq_false hkey) (by decide)]
  cases (strtok isColon a).1 with
  | none => rfl
  | some value => exact hother o v _

theorem foldl_takeLine_of_notMem {pieces : List (List UInt8)} (h : ∀ p ∈ pieces, colon ∉ p) :
    pieces.foldl (takeLine field) v = v := by
  induction pieces with
  | nil => rfl
  | cons p pieces ih =>
    rw [List.foldl_cons, takeLine_of_notMem (h p List.mem_cons_self)]
    exact ih fun q hq => h q (List.mem_cons_of_mem p hq)

/-- Nothing is done for a line with another key, in however many pieces it comes. -/
theorem readStatus_other (hother : ∀ (o : Other) v value, field v o.key value = v) (o : Other)
    (s : List UInt8) : readStatus field v (line o.key o.value ++ s) = readStatus field v s := by
  have hkey : newline ∉ o.key := fun h => (o.key_plain _ h).2.1 rfl
  have hvalue : newline ∉ o.value := fun h => (o.value_plain _ h).1 rfl
  have hzero : 0 ∉ o.value ++ [newline] := by
    rw [List.mem_append, List.mem_singleton, not_or]
    exact ⟨fun h => (o.value_plain _ h).2 rfl, by decide⟩
  obtain hfits | ⟨hcolon, hfits⟩ := o.fits
  · rw [readStatus_line hkey hvalue hfits, line, takeLine_other hother o hzero]
  · -- the key and the colon are in the first piece, and no piece behind it has a colon
    have hisLine : IsLine newline (o.value ++ [newline]) := ⟨o.value, rfl, hvalue⟩
    obtain ⟨a, ps, hps, hpieces⟩ := fgetsPieces_isLine hisLine (MAXLINE - 1) (o.key ++ [colon])
    have hfront : newline ∉ o.key ++ [colon] := by
      rw [List.mem_append, List.mem_singleton, not_or]
      exact ⟨hkey, by decide⟩
    have hroom : ([] : List UInt8).length + (o.key ++ [colon]).length < MAXLINE - 1 := by
      simp only [List.length_nil, List.length_append, List.length_singleton]
      omega
    have hline : line o.key o.value ++ s = (o.key ++ [colon]) ++ ((o.value ++ [newline]) ++ s) := by
      simp [line]
    have ha : 0 ∉ a := fun h => hzero (hps ▸ List.mem_append_left _ h)
    have hrest : ∀ p ∈ ps, colon ∉ p := by
      intro p hp hmem
      have hin : colon ∈ o.value ++ [newline] :=
        hps ▸ List.mem_append_right _ (List.mem_flatten.2 ⟨p, hp, hmem⟩)
      obtain hin | hin := List.mem_append.1 hin
      · exact hcolon hin
      · exact absurd (List.mem_singleton.1 hin) (by decide)
    rw [readStatus, hline, fgetsPieces_append hfront hroom, List.nil_append, hpieces,
      List.foldl_cons, List.append_assoc, List.singleton_append, takeLine_other hother o ha,
      List.foldl_append, foldl_takeLine_of_notMem hrest, readStatus]

theorem readStatus_others (hother : ∀ (o : Other) v value, field v o.key value = v)
    (others : List Other) (s : List UInt8) :
    readStatus field v (Other.lines others ++ s) = readStatus field v s := by
  induction others with
  | nil => rfl
  | cons o others ih =>
    rw [Other.lines, List.flatMap_cons, List.append_assoc, readStatus_other hother]
    exact ih

/-! ## The whole file -/

/-- The bytes that may stand in a key and in a number. -/
def Plain (s : List UInt8) : Prop := ∀ b ∈ s, b ≠ colon ∧ b ≠ newline ∧ b ≠ 0

/-- What the loop finds in a line whose value has neither a colon nor a blank in front. -/
theorem readStatus_plain (hne : key ≠ []) (hkey : Plain key) (hw : Plain w)
    (hblank : ∀ b ∈ w.head?, isBlank b = false)
    (hfits : (line key (tab :: w)).length < MAXLINE) (s : List UInt8) :
    readStatus field v (line key (tab :: w) ++ s) =
      readStatus field (field v key (w ++ [newline])) s := by
  have hvalue : newline ∉ tab :: w := by
    rw [List.mem_cons, not_or]
    exact ⟨by decide, fun h => (hw _ h).2.1 rfl⟩
  have hzero : 0 ∉ line key (tab :: w) := by
    refine zero_notMem_line (fun h => (hkey _ h).2.2 rfl) ?_
    rw [List.mem_cons, not_or]
    exact ⟨by decide, fun h => (hw _ h).2.2 rfl⟩
  have hcolon : ∀ b ∈ w ++ [newline], (!isColon b) = true := by
    intro b hb
    rw [Bool.not_eq_true', isColon, decide_eq_false_iff_not]
    obtain hb | hb := List.mem_append.1 hb
    · exact (hw b hb).1
    · rw [List.mem_singleton.1 hb]
      decide
  have hskip : (w ++ [newline]).dropWhile isBlank = w ++ [newline] := by
    cases w with
    | nil => rfl
    | cons b t =>
      have hb : ¬ isBlank b = true := by
        rw [hblank b rfl]
        exact Bool.false_ne_true
      rw [List.cons_append, List.dropWhile_cons_of_neg hb]
  rw [readStatus_line (fun h => (hkey _ h).2.1 rfl) hvalue hfits,
    takeLine_line hne (fun h => (hkey _ h).1 rfl) hzero, List.takeWhile_eq_self_iff.2 hcolon, hskip]

theorem isDigit_plain {b : UInt8} (hb : isDigit b = true) : b ≠ colon ∧ b ≠ newline ∧ b ≠ 0 := by
  refine ⟨?_, ?_, ?_⟩ <;> rintro rfl <;> exact absurd hb (by decide)

theorem isBlank_of_isDigit {b : UInt8} (hb : isDigit b = true) : isBlank b = false := by
  rw [isBlank, decide_eq_false_iff_not]
  rintro (rfl | rfl) <;> exact absurd hb (by decide)

theorem plain_decimalInt (z : ℤ) : Plain (decimalInt z) := by
  have hnot : ∀ c : UInt8, isDigit c = false → c ≠ 45 → c ∉ decimalInt z := fun c hc hminus =>
    notMem_decimalInt hc hminus z
  intro b hb
  refine ⟨?_, ?_, ?_⟩ <;> rintro rfl <;> exact hnot _ (by decide) (by decide) hb

theorem head_decimalInt (z : ℤ) : ∀ b ∈ (decimalInt z).head?, isBlank b = false := by
  intro b hb
  rw [isBlank, decide_eq_false_iff_not]
  rintro (rfl | rfl) <;>
    exact notMem_decimalInt (by decide) (by decide) z (List.mem_of_mem_head? hb)

/-- The line of a number fits. -/
theorem length_line_decimalInt (z : Int32) (hkey : key.length ≤ 4) :
    (line key (tab :: decimalInt z.toInt)).length < MAXLINE := by
  have hz : z.toInt.natAbs < 10 ^ 10 := by
    have hlo := z.le_toInt
    have hhi := z.toInt_lt
    omega
  have hlen := length_decimalInt_le (by decide : 0 < 10) hz
  simp only [line, List.length_append, List.length_cons, List.length_nil, MAXLINE]
  omega

theorem Status.plain_uidText (s : Status) : Plain s.uidText := by
  intro b hb
  simp only [Status.uidText, List.mem_append, List.mem_cons] at hb
  have htab : tab ≠ colon ∧ tab ≠ newline ∧ tab ≠ 0 := by decide
  obtain hb | rfl | hb | rfl | hb | rfl | hb := hb
  · exact isDigit_plain (isDigit_of_mem_decimal hb)
  · exact htab
  · exact isDigit_plain (isDigit_of_mem_decimal hb)
  · exact htab
  · exact isDigit_plain (isDigit_of_mem_decimal hb)
  · exact htab
  · exact isDigit_plain (isDigit_of_mem_decimal hb)

theorem Status.head_uidText (s : Status) : ∀ b ∈ s.uidText.head?, isBlank b = false := by
  intro b hb
  rw [Status.uidText, List.head?_append_of_ne_nil _ (decimal_ne_nil _)] at hb
  exact isBlank_of_isDigit (isDigit_of_mem_decimal (List.mem_of_mem_head? hb))

theorem Status.length_line_uidText (s : Status) :
    (line (ascii "Uid") (tab :: s.uidText)).length < MAXLINE := by
  have hlen : ∀ u : UInt32, (decimal u.toNat).length ≤ 10 := fun u => by
    have := u.toNat_lt
    exact (length_decimal_le_iff (by decide)).2 (by omega)
  have hreal := hlen s.uids.real
  have heffective := hlen s.uids.effective
  have hsaved := hlen s.uids.saved
  have hfs := hlen s.uids.fs
  have hkey : (ascii "Uid").length = 3 := rfl
  simp only [line, Status.uidText, List.length_append, List.length_cons, List.length_nil, MAXLINE,
    hkey]
  omega

theorem readStatus_name (s : Status) (rest : List UInt8) :
    readStatus field v (line (ascii "Name") (tab :: s.name) ++ rest) =
      readStatus field (field v (ascii "Name") s.taken) rest := by
  have hvalue : newline ∉ tab :: s.name := by
    rw [List.mem_cons, not_or]
    exact ⟨by decide, fun h => (s.name_plain _ h).1 rfl⟩
  have hzero : 0 ∉ line (ascii "Name") (tab :: s.name) := by
    refine zero_notMem_line (by decide) ?_
    rw [List.mem_cons, not_or]
    exact ⟨by decide, fun h => (s.name_plain _ h).2 rfl⟩
  rw [readStatus_line (by decide) hvalue s.name_fits, takeLine_line (by decide) (by decide) hzero,
    Status.taken]

/-- **The loop over a file** meets the values of the lines that it looks for, in their order. -/
theorem readStatus_text (hother : ∀ (o : Other) v value, field v o.key value = v) (s : Status) :
    readStatus field v s.text =
      field (field (field (field v (ascii "Name") s.taken)
        (ascii "Pid") (decimalInt s.pid.toInt ++ [newline]))
        (ascii "PPid") (decimalInt s.ppid.toInt ++ [newline]))
        (ascii "Uid") (s.uidText ++ [newline]) := by
  have hend : ∀ v, readStatus field v (Other.lines s.afterUid) = v := fun v => by
    rw [← List.append_nil (Other.lines s.afterUid), readStatus_others hother]
    rfl
  have hpid : Plain (ascii "Pid") := by unfold Plain; decide +kernel
  have hppid : Plain (ascii "PPid") := by unfold Plain; decide +kernel
  have huid : Plain (ascii "Uid") := by unfold Plain; decide +kernel
  rw [Status.text, readStatus_name, readStatus_others hother,
    readStatus_plain (by decide) hpid (plain_decimalInt _) (head_decimalInt _)
      (length_line_decimalInt _ (by decide)), readStatus_others hother,
    readStatus_plain (by decide) hppid (plain_decimalInt _) (head_decimalInt _)
      (length_line_decimalInt _ (by decide)), readStatus_others hother,
    readStatus_plain (by decide) huid s.plain_uidText s.head_uidText s.length_line_uidText, hend]

/-! ## The newline is cut off -/

theorem cutLast_append (w : List UInt8) (b : UInt8) : cutLast (some (w ++ [b])) = .ok w := by
  cases w with
  | nil => rfl
  | cons c w =>
    rw [List.cons_append, cutLast, ← List.cons_append, List.dropLast_concat]

theorem dropWhile_isBlank_iff {w : List UInt8} :
    (w ++ [newline]).dropWhile isBlank = w ++ [newline] ↔ ∀ b ∈ w.head?, isBlank b = false := by
  cases w with
  | nil => exact iff_of_true rfl fun b hb => absurd hb (Option.not_mem_none b)
  | cons c w => simp [List.dropWhile_eq_self_iff]

/-- The whole name is taken exactly if it has no colon and no blank in front. -/
theorem taken_eq_iff : s.taken = s.name ++ [newline] ↔
    colon ∉ s.name ∧ ∀ b ∈ s.name.head?, isBlank b = false := by
  have hpre := List.takeWhile_prefix (fun b => !isColon b) (l := s.name ++ [newline])
  have hsuf := List.dropWhile_suffix isBlank
    (l := (s.name ++ [newline]).takeWhile fun b => !isColon b)
  rw [← dropWhile_isBlank_iff]
  constructor
  · intro h
    have hle : s.taken.length ≤ _ := hsuf.length_le
    rw [h] at hle
    have htake := hpre.eq_of_length_le hle
    refine ⟨fun hmem => ?_, by rwa [Status.taken, htake] at h⟩
    have := List.takeWhile_eq_self_iff.1 htake colon (List.mem_append_left _ hmem)
    exact absurd this (by decide)
  · rintro ⟨hcolon, hblank⟩
    have htake : ∀ b ∈ s.name ++ [newline], (!isColon b) = true := by
      intro b hb
      obtain hb | hb := List.mem_append.1 hb
      · rw [isColon_eq_false hcolon b hb]
        rfl
      · rw [List.mem_singleton.1 hb]
        decide
    rw [Status.taken, List.takeWhile_eq_self_iff.2 htake, hblank]

/-- The name is right only if all of it and the newline was taken. -/
theorem cutLast_taken_iff :
    cutLast (some s.taken) = .ok s.name ↔ s.taken = s.name ++ [newline] := by
  refine ⟨fun h => ?_, fun h => by rw [h, cutLast_append]⟩
  have hlen : (s.name ++ [newline]).length ≤ s.taken.length := by
    cases htaken : s.taken with
    | nil => rw [htaken] at h; cases h
    | cons b t =>
      rw [htaken] at h
      rw [← Except.ok.inj h]
      simp
  have hpre := List.takeWhile_prefix (fun b => !isColon b) (l := s.name ++ [newline])
  have hsuf := List.dropWhile_suffix isBlank
    (l := (s.name ++ [newline]).takeWhile fun b => !isColon b)
  have htake := hpre.eq_of_length_le (hlen.trans hsuf.length_le)
  rw [htake] at hsuf
  rw [Status.taken, htake] at hlen ⊢
  exact hsuf.eq_of_length_le hlen

end TlpiLearn.StatusFile
