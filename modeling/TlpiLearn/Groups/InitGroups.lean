import TlpiLearn.Foundations.CString
import TlpiLearn.Foundations.Constants
import TlpiLearn.Foundations.Decimal
import TlpiLearn.Foundations.Tokens
import Mathlib.Tactic

/-!
# The groups of a user

`9_3.c`, `my_initgroups`: the function reads `/etc/group` with `fgets` and hands a list to
`setgroups`. A line of the file has a name, a password, a number and the names of the members.

The function does not look for the user among the members. It looks for the first line whose name
is that of the user, and takes its members for numbers; the third field is not read at all, and a
name that is not a number gives the group 0. `my_initgroups_iff` says when the list is right all
the same.
-/

namespace TlpiLearn.InitGroups

/-- `MAXLINE`. -/
def MAXLINE : ℕ := 4096

/-! ## The file -/

/-- The bytes of a field. -/
def IsField (s : List UInt8) : Prop := ∀ b ∈ s, b ≠ 0 ∧ b ≠ colon ∧ b ≠ newline

instance (s : List UInt8) : Decidable (IsField s) :=
  List.decidableBAll (fun b => b ≠ 0 ∧ b ≠ colon ∧ b ≠ newline) s

/-- The name of a user. -/
structure User where
  bytes : List UInt8
  nonempty : bytes ≠ []
  isField : IsField bytes
  no_comma : comma ∉ bytes

/-- A line `name:password:gid:member,member,...` -/
structure GroupLine where
  name : List UInt8
  password : List UInt8
  /-- The third field, a numeral. -/
  number : List UInt8
  members : List User
  name_isField : IsField name
  password_isField : IsField password
  number_ne_nil : number ≠ []
  number_isDigit : ∀ b ∈ number, isDigit b = true
  number_lt : decimalValue number < 4294967296

/-- The group of a line. -/
def GroupLine.gid (line : GroupLine) : ℕ := decimalValue line.number

/-- The line lists the user among its members. -/
def GroupLine.Lists (line : GroupLine) (user : User) : Prop :=
  ∃ m ∈ line.members, m.bytes = user.bytes

/-- The fourth field. -/
def GroupLine.memberField (line : GroupLine) : List UInt8 :=
  List.intercalate [comma] (line.members.map User.bytes)

/-- The line as it stands in the file. -/
def GroupLine.text (line : GroupLine) : List UInt8 :=
  line.name ++ [colon] ++ line.password ++ [colon] ++ line.number ++ [colon] ++
    line.memberField ++ [newline]

/-- The file. -/
def fileText (lines : List GroupLine) : List UInt8 := lines.flatMap GroupLine.text

/-! ## The function -/

/-- `strchr(s, c)`: what stands before and behind the first `c`, or `none` for a null pointer. -/
def strchr (c : UInt8) : List UInt8 → Option (List UInt8 × List UInt8)
  | [] => none
  | b :: s => if b = c then some ([], s) else (strchr c s).map fun r => (b :: r.1, r.2)

/-- `atoi`, a `long` that is cut to 32 bits, as a `gid_t`. -/
def atoi (s : List UInt8) : ℕ :=
  (BitVec.ofInt 32 ((scanInt (-9223372036854775808) 9223372036854775807 s).getD 0)).toNat

/-- The numbers of the fourth field. -/
def numbers (field : List UInt8) : List ℕ :=
  if field = [] then [] else (field.splitOn comma).map atoi

/-- The fourth field, from the second one on; `none` when a null pointer is used. -/
def fourthField (p1 : List UInt8) : Option (List UInt8) :=
  (strchr colon p1).bind fun r => (strchr colon r.2).map Prod.snd

/-- The loop over the file; `none` when a null pointer is used. A piece has room in `grouplist`,
which is longer than `line`. -/
def readGroups (user : List UInt8) : List (List UInt8) → Option (List ℕ)
  | [] => some []
  | line :: rest =>
    match strchr colon (cstr line) with
    | none => none
    | some (name, p1) =>
      if name = user then (fourthField p1).map numbers else readGroups user rest

/-- What comes of a call. -/
inductive Call
  /-- It returns -1. -/
  | failed
  /-- It uses a null pointer. -/
  | fault
  /-- It hands a list to `setgroups` and returns 0. -/
  | setgroups (grouplist : List ℕ)
  deriving DecidableEq, Repr

/-- `my_initgroups`, with what `getpwnam` returns and what `fopen` finds. -/
def my_initgroups (passwd : Option ℕ) (etcGroup : Option (List UInt8)) (user : List UInt8)
    (group : ℕ) : Call :=
  match passwd with
  | none => .failed
  | some _ =>
    match etcGroup with
    | none => .failed
    | some file =>
      match readGroups user (fgetsPieces newline (MAXLINE - 1) [] file) with
      | none => .fault
      | some grouplist => .setgroups (grouplist ++ [group])

/-! ## What is wanted -/

/-- The groups of the user: the given one, and those of the lines that list the user. -/
def IsGroup (lines : List GroupLine) (user : User) (group g : ℕ) : Prop :=
  g = group ∨ ∃ line ∈ lines, line.Lists user ∧ line.gid = g

/-- The list that is handed to `setgroups` holds the groups of the user. -/
def Correct (lines : List GroupLine) (user : User) (group : ℕ) (c : Call) : Prop :=
  ∃ grouplist, c = .setgroups grouplist ∧ ∀ g, g ∈ grouplist ↔ IsGroup lines user group g

/-- A piece that the loop passes over. -/
def PassedOver (user : User) (piece : List UInt8) : Prop :=
  ∃ name rest, piece = name ++ colon :: rest ∧ colon ∉ name ∧ name ≠ user.bytes

/-- A piece that the loop stops at, and its fourth field. -/
def OwnPiece (user : User) (piece field : List UInt8) : Prop :=
  ∃ password number, piece =
      user.bytes ++ colon :: (password ++ colon :: (number ++ colon :: field)) ∧
    colon ∉ password ∧ colon ∉ number

/-- The pieces of the file are passed over, and only the given group is wanted; or the first piece
that is named like the user has a fourth field, and its numbers are the groups that are wanted
beside the given one. -/
def NumbersAreGroups (lines : List GroupLine) (user : User) (group : ℕ)
    (ps : List (List UInt8)) : Prop :=
  (∀ p ∈ ps, PassedOver user p) ∧
      (∀ line ∈ lines, line.Lists user → line.gid = group) ∨
    ∃ before own after field, ps = before ++ own :: after ∧ (∀ p ∈ before, PassedOver user p) ∧
      OwnPiece user own field ∧
      (∀ n ∈ numbers field, n = group ∨ ∃ line ∈ lines, line.Lists user ∧ line.gid = n) ∧
      ∀ line ∈ lines, line.Lists user → line.gid = group ∨ line.gid ∈ numbers field

variable {user : User} {group : ℕ} {lines : List GroupLine}

theorem strchr_eq_some {c : UInt8} {s a b : List UInt8} :
    strchr c s = some (a, b) ↔ s = a ++ c :: b ∧ c ∉ a := by
  induction s generalizing a with
  | nil => simp [strchr]
  | cons x s ih =>
    rw [strchr]
    split
    case isTrue hx =>
      subst hx
      rw [Option.some.injEq, Prod.mk.injEq]
      constructor
      · rintro ⟨rfl, rfl⟩
        exact ⟨rfl, List.not_mem_nil⟩
      · rintro ⟨heq, hnot⟩
        cases a with
        | nil => exact ⟨rfl, (List.cons.inj heq).2⟩
        | cons y a =>
          obtain rfl := (List.cons.inj heq).1
          exact absurd List.mem_cons_self hnot
    case isFalse hx =>
      rw [Option.map_eq_some_iff]
      constructor
      · rintro ⟨⟨a', b'⟩, hr, heq⟩
        obtain ⟨rfl, rfl⟩ := Prod.mk.inj heq
        rcases ih.1 hr with ⟨rfl, hnot⟩
        exact ⟨rfl, fun hmem => (List.mem_cons.1 hmem).elim (fun h => hx h.symm) hnot⟩
      · rintro ⟨heq, hnot⟩
        cases a with
        | nil => exact absurd (List.cons.inj heq).1 hx
        | cons y a =>
          obtain ⟨rfl, rfl⟩ := List.cons.inj heq
          exact ⟨(a, b), ih.2 ⟨rfl, fun hmem => hnot (List.mem_cons_of_mem _ hmem)⟩, rfl⟩

theorem fourthField_eq_some {p1 field : List UInt8} :
    fourthField p1 = some field ↔ ∃ password number,
      p1 = password ++ colon :: (number ++ colon :: field) ∧ colon ∉ password ∧ colon ∉ number := by
  rw [fourthField, Option.bind_eq_some_iff]
  constructor
  · rintro ⟨⟨password, p⟩, hp, hr⟩
    rcases Option.map_eq_some_iff.1 hr with ⟨⟨number, f⟩, hf, rfl⟩
    rcases strchr_eq_some.1 hp with ⟨rfl, hpassword⟩
    rcases strchr_eq_some.1 hf with ⟨rfl, hnumber⟩
    exact ⟨password, number, rfl, hpassword, hnumber⟩
  · rintro ⟨password, number, rfl, hpassword, hnumber⟩
    refine ⟨(password, number ++ colon :: field), strchr_eq_some.2 ⟨rfl, hpassword⟩, ?_⟩
    exact Option.map_eq_some_iff.2 ⟨(number, field), strchr_eq_some.2 ⟨rfl, hnumber⟩, rfl⟩

/-! ## The loop -/

theorem passedOver_iff {p : List UInt8} :
    PassedOver user p ↔ ∃ name rest, strchr colon p = some (name, rest) ∧ name ≠ user.bytes := by
  constructor
  · rintro ⟨name, rest, hp, hname, hne⟩
    exact ⟨name, rest, strchr_eq_some.2 ⟨hp, hname⟩, hne⟩
  · rintro ⟨name, rest, hcut, hne⟩
    rcases strchr_eq_some.1 hcut with ⟨hp, hname⟩
    exact ⟨name, rest, hp, hname, hne⟩

theorem ownPiece_iff {p field : List UInt8} :
    OwnPiece user p field ↔
      ∃ rest, strchr colon p = some (user.bytes, rest) ∧ fourthField rest = some field := by
  constructor
  · rintro ⟨password, number, hp, hpassword, hnumber⟩
    have huser : colon ∉ user.bytes := fun hmem => (user.isField colon hmem).2.1 rfl
    exact ⟨_, strchr_eq_some.2 ⟨hp, huser⟩,
      fourthField_eq_some.2 ⟨password, number, rfl, hpassword, hnumber⟩⟩
  · rintro ⟨rest, hcut, hfield⟩
    rcases fourthField_eq_some.1 hfield with ⟨password, number, rfl, hpassword, hnumber⟩
    exact ⟨password, number, (strchr_eq_some.1 hcut).1, hpassword, hnumber⟩

/-- The loop passes over all pieces, or it stops at one and takes the numbers `l` from it. -/
def Finds (user : User) (ps : List (List UInt8)) (l : List ℕ) : Prop :=
  (∀ p ∈ ps, PassedOver user p) ∧ l = [] ∨
    ∃ before own after field, ps = before ++ own :: after ∧
      (∀ p ∈ before, PassedOver user p) ∧ OwnPiece user own field ∧ l = numbers field

theorem finds_nil {l : List ℕ} : Finds user [] l ↔ l = [] := by
  constructor
  · rintro (⟨-, hl⟩ | ⟨before, own, after, field, heq, -⟩)
    · exact hl
    · exact absurd heq.symm (List.append_ne_nil_of_right_ne_nil _ (List.cons_ne_nil _ _))
  · exact fun hl => .inl ⟨fun _ hp => absurd hp List.not_mem_nil, hl⟩

theorem finds_cons_of_passedOver {p : List UInt8} {ps : List (List UInt8)} {l : List ℕ}
    (hp : PassedOver user p) : Finds user (p :: ps) l ↔ Finds user ps l := by
  constructor
  · rintro (⟨hall, hl⟩ | ⟨before, own, after, field, heq, hbefore, hown, hl⟩)
    · exact .inl ⟨(List.forall_mem_cons.1 hall).2, hl⟩
    · cases before with
      | nil =>
        -- a piece is named in one way
        obtain rfl := (List.cons.inj heq).1
        rcases passedOver_iff.1 hp with ⟨name, rest, hcut, hne⟩
        rcases ownPiece_iff.1 hown with ⟨rest', hcut', -⟩
        exact absurd (Prod.mk.inj (Option.some.inj (hcut.symm.trans hcut'))).1 hne
      | cons b before =>
        exact .inr ⟨before, own, after, field, (List.cons.inj heq).2,
          fun q hq => hbefore q (List.mem_cons_of_mem _ hq), hown, hl⟩
  · rintro (⟨hall, hl⟩ | ⟨before, own, after, field, rfl, hbefore, hown, hl⟩)
    · exact .inl ⟨List.forall_mem_cons.2 ⟨hp, hall⟩, hl⟩
    · exact .inr ⟨p :: before, own, after, field, rfl, List.forall_mem_cons.2 ⟨hp, hbefore⟩,
        hown, hl⟩

theorem finds_cons_of_not {p : List UInt8} {ps : List (List UInt8)} {l : List ℕ}
    (hp : ¬ PassedOver user p) :
    Finds user (p :: ps) l ↔ ∃ field, OwnPiece user p field ∧ l = numbers field := by
  constructor
  · rintro (⟨hall, -⟩ | ⟨before, own, after, field, heq, hbefore, hown, hl⟩)
    · exact absurd (hall p List.mem_cons_self) hp
    · cases before with
      | nil =>
        obtain rfl := (List.cons.inj heq).1
        exact ⟨field, hown, hl⟩
      | cons b before =>
        obtain rfl := (List.cons.inj heq).1
        exact absurd (hbefore _ List.mem_cons_self) hp
  · rintro ⟨field, hown, hl⟩
    exact .inr ⟨[], p, ps, field, rfl, fun _ hq => absurd hq List.not_mem_nil, hown, hl⟩

/-- **The loop** stops at the first piece that is named like the user. -/
theorem readGroups_eq_some {ps : List (List UInt8)} (hps : ∀ p ∈ ps, 0 ∉ p) {l : List ℕ} :
    readGroups user.bytes ps = some l ↔ Finds user ps l := by
  induction ps with
  | nil => rw [readGroups, Option.some.injEq, finds_nil, eq_comm]
  | cons p ps ih =>
    rw [readGroups, cstr_eq_self (hps p List.mem_cons_self)]
    cases hcut : strchr colon p with
    | none =>
      have hnot : ¬ PassedOver user p := by
        rw [passedOver_iff, hcut]
        rintro ⟨name, rest, h, -⟩
        cases h
      rw [finds_cons_of_not hnot]
      refine iff_of_false (fun h => by cases h) ?_
      rintro ⟨field, hown, -⟩
      rcases ownPiece_iff.1 hown with ⟨rest, h, -⟩
      rw [hcut] at h
      cases h
    | some r =>
      rcases r with ⟨name, rest⟩
      dsimp only
      split
      case isTrue huser =>
        -- the loop stops here
        subst huser
        have hnot : ¬ PassedOver user p := by
          rw [passedOver_iff, hcut]
          rintro ⟨name, rest', h, hne⟩
          exact hne (Prod.mk.inj (Option.some.inj h)).1.symm
        rw [finds_cons_of_not hnot, Option.map_eq_some_iff]
        refine exists_congr fun field => and_congr ?_ eq_comm
        rw [ownPiece_iff, hcut]
        constructor
        · exact fun h => ⟨rest, rfl, h⟩
        · rintro ⟨rest', h, hfield⟩
          rwa [(Prod.mk.inj (Option.some.inj h)).2]
      case isFalse huser =>
        rw [finds_cons_of_passedOver (passedOver_iff.2 ⟨name, rest, hcut, huser⟩)]
        exact ih fun q hq => hps q (List.mem_cons_of_mem _ hq)

/-! ## The pieces of a file -/

theorem mem_of_mem_fgetsPieces {max : ℕ} {cur s p : List UInt8} {b : UInt8}
    (hp : p ∈ fgetsPieces newline max cur s) (hb : b ∈ p) : b ∈ cur ∨ b ∈ s := by
  rw [← List.mem_append, ← flatten_fgetsPieces newline max cur s]
  exact List.mem_flatten.2 ⟨p, hp, hb⟩

theorem mem_of_mem_intercalate {sep : List UInt8} {ls : List (List UInt8)} {b : UInt8}
    (h : b ∈ List.intercalate sep ls) : b ∈ sep ∨ ∃ l ∈ ls, b ∈ l := by
  induction ls with
  | nil => cases h
  | cons l ls ih =>
    cases ls with
    | nil =>
      rw [List.intercalate_singleton] at h
      exact .inr ⟨l, List.mem_cons_self, h⟩
    | cons l' ls =>
      rw [List.intercalate_cons_cons, List.mem_append, List.mem_append] at h
      rcases h with (h | h) | h
      · exact .inr ⟨l, List.mem_cons_self, h⟩
      · exact .inl h
      · rcases ih h with h | ⟨x, hx, hb⟩
        · exact .inl h
        · exact .inr ⟨x, List.mem_cons_of_mem _ hx, hb⟩

/-- A line holds neither a null byte nor, before its end, a newline. -/
theorem GroupLine.clean (line : GroupLine) : ∃ body, line.text = body ++ [newline] ∧
    ∀ b ∈ body, b ≠ 0 ∧ b ≠ newline := by
  refine ⟨_, rfl, ?_⟩
  intro b hb
  simp only [List.mem_append, List.mem_singleton] at hb
  rcases hb with (((((hb | rfl) | hb) | rfl) | hb) | rfl) | hb
  · exact ⟨(line.name_isField b hb).1, (line.name_isField b hb).2.2⟩
  · decide
  · exact ⟨(line.password_isField b hb).1, (line.password_isField b hb).2.2⟩
  · decide
  · have hdigit := line.number_isDigit b hb
    constructor
    · rintro rfl
      cases hdigit
    · rintro rfl
      cases hdigit
  · decide
  · rcases mem_of_mem_intercalate hb with hb | ⟨m, hm, hb⟩
    · rw [List.mem_singleton.1 hb]
      decide
    · rcases List.mem_map.1 hm with ⟨user, -, rfl⟩
      exact ⟨(user.isField b hb).1, (user.isField b hb).2.2⟩

theorem zero_notMem_fileText (lines : List GroupLine) : 0 ∉ fileText lines := by
  intro hmem
  rcases List.mem_flatMap.1 hmem with ⟨line, -, hline⟩
  rcases line.clean with ⟨body, htext, hbody⟩
  rw [htext] at hline
  rcases List.mem_append.1 hline with hline | hline
  · exact (hbody 0 hline).1 rfl
  · exact absurd (List.mem_singleton.1 hline) (by decide)

/-! ## The list -/

theorem correct_iff (passwd : ℕ) (file : List UInt8) :
    Correct lines user group (my_initgroups (some passwd) (some file) user.bytes group) ↔
      ∃ l, readGroups user.bytes (fgetsPieces newline (MAXLINE - 1) [] file) = some l ∧
        ∀ g, g ∈ l ++ [group] ↔ IsGroup lines user group g := by
  rw [Correct, my_initgroups]
  cases hread : readGroups user.bytes (fgetsPieces newline (MAXLINE - 1) [] file) with
  | none => simp only [reduceCtorEq, false_and, exists_const]
  | some l =>
    simp only [Call.setgroups.injEq, Option.some.injEq]
    constructor
    · rintro ⟨_, rfl, h⟩
      exact ⟨l, rfl, h⟩
    · rintro ⟨_, rfl, h⟩
      exact ⟨_, rfl, h⟩

/-- A list of numbers and the given group are the groups of the user. -/
theorem isGroup_iff (l : List ℕ) :
    (∀ g, g ∈ l ++ [group] ↔ IsGroup lines user group g) ↔
      (∀ n ∈ l, n = group ∨ ∃ line ∈ lines, line.Lists user ∧ line.gid = n) ∧
        ∀ line ∈ lines, line.Lists user → line.gid = group ∨ line.gid ∈ l := by
  constructor
  · intro h
    constructor
    · intro n hn
      exact (h n).1 (List.mem_append_left _ hn)
    · intro line hline hlists
      have hmem := (h line.gid).2 (.inr ⟨line, hline, hlists, rfl⟩)
      rcases List.mem_append.1 hmem with hmem | hmem
      · exact .inr hmem
      · exact .inl (List.mem_singleton.1 hmem)
  · rintro ⟨hsub, hsup⟩ g
    rw [List.mem_append, List.mem_singleton, IsGroup]
    constructor
    · rintro (hg | rfl)
      · exact hsub g hg
      · exact .inl rfl
    · rintro (rfl | ⟨line, hline, hlists, rfl⟩)
      · exact .inr rfl
      · exact (hsup line hline hlists).symm

/-- **The list** is that of the user's groups exactly when the numbers of the fourth field of the
user's own line happen to be those groups. -/
theorem my_initgroups_iff (passwd : ℕ) (lines : List GroupLine) (user : User) (group : ℕ) :
    Correct lines user group
        (my_initgroups (some passwd) (some (fileText lines)) user.bytes group) ↔
      NumbersAreGroups lines user group
        (fgetsPieces newline (MAXLINE - 1) [] (fileText lines)) := by
  have hclean : ∀ p ∈ fgetsPieces newline (MAXLINE - 1) [] (fileText lines), 0 ∉ p := by
    intro p hp hzero
    rcases mem_of_mem_fgetsPieces hp hzero with hmem | hmem
    · cases hmem
    · exact zero_notMem_fileText lines hmem
  rw [correct_iff, NumbersAreGroups]
  constructor
  · rintro ⟨l, hread, hl⟩
    rw [isGroup_iff] at hl
    rcases (readGroups_eq_some hclean).1 hread with
      ⟨hall, rfl⟩ | ⟨before, own, after, field, hps, hbefore, hown, rfl⟩
    · refine .inl ⟨hall, fun line hline hlists => ?_⟩
      exact (hl.2 line hline hlists).resolve_right List.not_mem_nil
    · exact .inr ⟨before, own, after, field, hps, hbefore, hown, hl⟩
  · rintro (⟨hall, hgid⟩ | ⟨before, own, after, field, hps, hbefore, hown, hl⟩)
    · refine ⟨[], (readGroups_eq_some hclean).2 (.inl ⟨hall, rfl⟩), (isGroup_iff []).2 ⟨?_, ?_⟩⟩
      · exact fun _ hn => absurd hn List.not_mem_nil
      · exact fun line hline hlists => .inl (hgid line hline hlists)
    · exact ⟨numbers field,
        (readGroups_eq_some hclean).2 (.inr ⟨before, own, after, field, hps, hbefore, hown, rfl⟩),
        (isGroup_iff _).2 hl⟩

/-- `water` -/
def water : User where
  bytes := [119, 97, 116, 101, 114]
  nonempty := by decide
  isField := by decide
  no_comma := by decide

/-- `alice` -/
def alice : User where
  bytes := [97, 108, 105, 99, 101]
  nonempty := by decide
  isField := by decide
  no_comma := by decide

/-- `water:x:1000:alice` -/
def waterLine : GroupLine where
  name := [119, 97, 116, 101, 114]
  password := [120]
  number := [49, 48, 48, 48]
  members := [alice]
  name_isField := by decide
  password_isField := by decide
  number_ne_nil := by decide
  number_isDigit := List.all_eq_true.1 (by decide)
  number_lt := by decide

/-- The user `water` gets the group 0, because `alice` is not a number. -/
theorem root_group_granted :
    ¬ ∀ (passwd : ℕ) (lines : List GroupLine) (user : User) (group : ℕ), Correct lines user group
      (my_initgroups (some passwd) (some (fileText lines)) user.bytes group) := by
  intro h
  have hcall : my_initgroups (some 1000) (some (fileText [waterLine])) water.bytes 1000 =
      .setgroups [0, 1000] := by decide
  rcases h 1000 [waterLine] water 1000 with ⟨l, hl, hgroups⟩
  rw [hcall] at hl
  obtain rfl := Call.setgroups.inj hl
  rcases (hgroups 0).1 List.mem_cons_self with hzero | ⟨line, hline, ⟨m, hm, hbytes⟩, -⟩
  · cases hzero
  · rw [List.mem_singleton.1 hline, waterLine, List.mem_singleton] at hm
    rw [hm] at hbytes
    exact absurd hbytes (by decide)

/-! ## Files of short lines -/

/-- Lines that fit into the buffer are read one by one. -/
theorem fgetsPieces_fileText {max : ℕ} (hfit : ∀ line ∈ lines, line.text.length ≤ max) :
    fgetsPieces newline max [] (fileText lines) = lines.map GroupLine.text := by
  rw [fileText, List.flatMap]
  refine fgetsPieces_flatten fun l hl => ?_
  obtain ⟨line, hline, rfl⟩ := List.mem_map.1 hl
  obtain ⟨body, htext, hbody⟩ := line.clean
  exact ⟨⟨body, htext, fun h => (hbody _ h).2 rfl⟩, hfit line hline⟩

theorem GroupLine.passedOver {line : GroupLine} (h : line.name ≠ user.bytes) :
    PassedOver user line.text := by
  refine ⟨line.name, line.password ++ [colon] ++ line.number ++ [colon] ++ line.memberField ++
    [newline], ?_, fun hmem => (line.name_isField colon hmem).2.1 rfl, h⟩
  simp only [GroupLine.text, List.append_assoc, List.cons_append, List.nil_append]

theorem GroupLine.ownPiece {line : GroupLine} (h : line.name = user.bytes) :
    OwnPiece user line.text (line.memberField ++ [newline]) := by
  refine ⟨line.password, line.number, ?_, fun hmem => (line.password_isField colon hmem).2.1 rfl,
    fun hmem => ?_⟩
  · simp only [GroupLine.text, h, List.append_assoc, List.cons_append, List.nil_append]
  · have hdigit := line.number_isDigit colon hmem
    cases hdigit

/-- **A user with a group of the same name and without members**, as most users have one, gets the
group 0. -/
theorem my_initgroups_private (passwd : ℕ) {before after : List GroupLine} {own : GroupLine}
    (hlines : lines = before ++ own :: after)
    (hfit : ∀ line ∈ lines, line.text.length ≤ MAXLINE - 1)
    (hbefore : ∀ line ∈ before, line.name ≠ user.bytes) (hown : own.name = user.bytes)
    (hmembers : own.members = []) :
    my_initgroups (some passwd) (some (fileText lines)) user.bytes group =
      .setgroups [0, group] := by
  have hclean : ∀ p ∈ lines.map GroupLine.text, 0 ∉ p := by
    intro p hp hzero
    rcases List.mem_map.1 hp with ⟨line, hline, rfl⟩
    exact zero_notMem_fileText lines (List.mem_flatMap.2 ⟨line, hline, hzero⟩)
  have hread : readGroups user.bytes (lines.map GroupLine.text) = some [0] := by
    rw [readGroups_eq_some hclean]
    refine .inr ⟨before.map GroupLine.text, own.text, after.map GroupLine.text, [newline], ?_, ?_,
      ?_, by decide⟩
    · rw [hlines, List.map_append, List.map_cons]
    · intro p hp
      rcases List.mem_map.1 hp with ⟨line, hline, rfl⟩
      exact line.passedOver (hbefore line hline)
    · have hfield := own.ownPiece hown
      rwa [GroupLine.memberField, hmembers] at hfield
  simp only [my_initgroups, fgetsPieces_fileText hfit, hread, List.singleton_append]

end TlpiLearn.InitGroups
