import TlpiLearn.Foundations.CString
import TlpiLearn.Foundations.Decimal
import Mathlib.Tactic

/-!
# The permissions of a user or a group in an ACL

`17/17.c` goes through the entries of the ACL of a file and prints what a user or a group may do. It
compares names, gives up at an entry for an account without a name, and leaves the loop at the entry
with the queried name, which comes in front of the mask.

An account is its id, and a name or a numeral is a way to speak of it (`account`). `Acl.effective`
says what is due to an account and `aclQuery_effective_iff` when the program prints it.
`exact_user_iff` and `exact_group_iff` say what is left of the condition where each name belongs to
one id and each id has one name.
-/

namespace TlpiLearn.AclQuery

/-- The name of an account, which `char[256]` holds with its terminator. -/
abbrev Name := {s : List UInt8 // 0 ∉ s ∧ s.length < 256}

/-- `acl_permset_t`. -/
structure Perms where
  read : Bool
  write : Bool
  execute : Bool
  deriving DecidableEq, Repr

/-- `acl_tag_t` and the qualifier. -/
inductive Tag
  | ACL_USER_OBJ
  | ACL_USER (uid : UInt32)
  | ACL_GROUP_OBJ
  | ACL_GROUP (gid : UInt32)
  | ACL_MASK
  | ACL_OTHER
  deriving DecidableEq, Repr

/-- An entry of an ACL. -/
structure Entry where
  tag : Tag
  perms : Perms
  deriving DecidableEq, Repr

/-- The databases of users and groups: the name of an id and the id of a name. Several names may
have the same id. -/
structure Accounts where
  getpwuid : UInt32 → Option Name
  getpwnam : List UInt8 → Option UInt32
  getgrgid : UInt32 → Option Name
  getgrnam : List UInt8 → Option UInt32

/-- What `stat` tells of the file. -/
structure Stat where
  st_uid : UInt32
  st_gid : UInt32

/-- The error that ends the program. -/
structure Abort where
  errExit : String
  deriving DecidableEq, Repr

/-- The variables of the loop. -/
structure Vars where
  perms : List UInt8
  obj_perms : List UInt8
  other_perms : List UInt8
  mask : List UInt8
  is_find : Bool
  is_holder : Bool
  need_mask : Bool

/-- `get_perms(str, …)`: the three letters go behind the string. -/
def get_perms (str : List UInt8) (p : Perms) : List UInt8 :=
  str ++ [if p.read then 114 else 45] ++ [if p.write then 119 else 45]
    ++ [if p.execute then 120 else 45]

/-- `use_mask`: characters that differ become `'-'`, up to the end of the shorter string. -/
def use_mask : List UInt8 → List UInt8 → List UInt8
  | c :: str, m :: mask => (if c ≠ m then 45 else c) :: use_mask str mask
  | str, [] => str
  | [], _ :: _ => []

/-- `(uid_t)atoi(s)` of a string of digits. -/
def atoi (s : List UInt8) : UInt32 := UInt32.ofNat (min (decimalValue s) (2 ^ 63 - 1))

/-- The string that is copied to `name`: the name of the account if the argument is its number. -/
def queried (lookup : UInt32 → Option Name) (arg : CString) : List UInt8 :=
  if arg.1.all isDigit then
    match lookup (atoi arg.1) with
    | some n => n.1
    | none => arg.1
  else arg.1

/-- `strcmp(n, name) == 0` with the array `name`. -/
def isName (name : List UInt8) (n : Name) : Bool := strcmp name n.1 = some 0

/-- The entry is one for the queried account. -/
def named (db : Accounts) (is_user : Bool) (name : List UInt8) (e : Entry) : Except Abort Bool :=
  match is_user, e.tag with
  | true, .ACL_USER uid =>
    match db.getpwuid uid with
    | some n => .ok (isName name n)
    | none => .error ⟨"getpwuid errno or can't find that user"⟩
  | false, .ACL_GROUP gid =>
    match db.getgrgid gid with
    | some n => .ok (isName name n)
    | none => .error ⟨"getpwuid errno or can't find that user"⟩
  | _, _ => .ok false

/-- The other entries. `user` and `group` are the names that were copied for the owner and the
owning group. -/
def collect (is_user : Bool) (name : List UInt8) (user group : Name) (v : Vars) (e : Entry) :
    Vars :=
  match e.tag with
  | .ACL_USER_OBJ =>
    if is_user && isName name user then
      { v with obj_perms := get_perms v.obj_perms e.perms, is_holder := true }
    else v
  | .ACL_GROUP_OBJ =>
    if !is_user && isName name group then
      { v with
        obj_perms := get_perms v.obj_perms e.perms
        need_mask := true
        is_holder := true }
    else v
  | .ACL_OTHER => { v with other_perms := get_perms v.other_perms e.perms }
  | .ACL_MASK => { v with mask := get_perms v.mask e.perms }
  | .ACL_USER _ | .ACL_GROUP _ => v

/-- The loop over the entries. -/
def entryLoop (db : Accounts) (is_user : Bool) (name : List UInt8) (user group : Name) :
    Vars → List Entry → Except Abort Vars
  | v, [] => .ok v
  | v, e :: entries => do
    if ← named db is_user name e then
      return { v with perms := get_perms v.perms e.perms, need_mask := true, is_find := true }
    else entryLoop db is_user name user group (collect is_user name user group v e) entries

/-- What is printed behind the loop, without its newline. -/
def result (v : Vars) : List UInt8 :=
  if v.is_find then if v.need_mask then use_mask v.perms v.mask else v.perms
  else if v.is_holder then if v.need_mask then use_mask v.obj_perms v.mask else v.obj_perms
  else v.other_perms

/-- The program for the argument `arg`, a user or a group. -/
def aclQuery (db : Accounts) (sbuf : Stat) (is_user : Bool) (arg : CString) (entries : List Entry) :
    Except Abort (List UInt8) :=
  match db.getpwuid sbuf.st_uid with
  | none => .error ⟨"getpwuid fail or can't find"⟩
  | some pw_name =>
    match db.getgrgid sbuf.st_gid with
    | none => .error ⟨"getpwuid fail or can't find"⟩
    | some _ =>
      let user := pw_name
      -- the name of the owner is copied for the group as well
      let group := pw_name
      let name := strncpy 256 (queried (if is_user then db.getpwuid else db.getgrgid) arg)
      (entryLoop db is_user name user group ⟨[], [], [], [], false, false, false⟩
        entries).map result

/-! ## What is due -/

/-- An ACL whose entries come in the usual order. -/
structure Acl where
  userObj : Perms
  users : List (UInt32 × Perms)
  groupObj : Perms
  groups : List (UInt32 × Perms)
  mask : Option Perms
  other : Perms

/-- The entries. -/
def Acl.entries (acl : Acl) : List Entry :=
  ⟨.ACL_USER_OBJ, acl.userObj⟩ :: (acl.users.map fun e => ⟨.ACL_USER e.1, e.2⟩) ++
    ⟨.ACL_GROUP_OBJ, acl.groupObj⟩ :: (acl.groups.map fun e => ⟨.ACL_GROUP e.1, e.2⟩) ++
    (acl.mask.toList.map fun p => ⟨.ACL_MASK, p⟩) ++ [⟨.ACL_OTHER, acl.other⟩]

/-- Permissions AND-ed with the mask; a missing mask restricts nothing. -/
def Acl.masked (acl : Acl) (p : Perms) : Perms :=
  match acl.mask with
  | some m => ⟨p.read && m.read, p.write && m.write, p.execute && m.execute⟩
  | none => p

/-- The id that a numeral stands for. -/
def numeral (arg : List UInt8) : Option UInt32 :=
  if arg ≠ [] ∧ arg.all isDigit ∧ decimalValue arg < 2 ^ 32 then
    some (UInt32.ofNat (decimalValue arg))
  else none

/-- The account that an argument speaks of: the one with the number, or else the one with the name.
A number need not be that of an account with a name. -/
def account (lookup : UInt32 → Option Name) (byName : List UInt8 → Option UInt32) (arg : CString) :
    Option UInt32 :=
  match numeral arg.1 with
  | some id => if lookup id = none then some ((byName arg.1).getD id) else some id
  | none => byName arg.1

/-- The permissions of an account: those of its own entry, of the entry `obj` for the owner `id`, or
of all others. -/
def Acl.permsOf (acl : Acl) (account : Option UInt32) (entries : List (UInt32 × Perms))
    (id : UInt32) (obj : Perms) : Perms :=
  match entries.find? fun e => account = some e.1 with
  | some e => acl.masked e.2
  | none => if account = some id then obj else acl.other

/-- What the queried user or group may do. -/
def Acl.effective (acl : Acl) (db : Accounts) (sbuf : Stat) (is_user : Bool) (arg : CString) :
    Perms :=
  if is_user then
    acl.permsOf (account db.getpwuid db.getpwnam arg) acl.users sbuf.st_uid acl.userObj
  else
    acl.permsOf (account db.getgrgid db.getgrnam arg) acl.groups sbuf.st_gid
      (acl.masked acl.groupObj)

/-- The three letters. -/
def Perms.text (p : Perms) : List UInt8 := get_perms [] p

/-- The account `id` has this name. -/
def HasName (lookup : UInt32 → Option Name) (name : List UInt8) (id : UInt32) : Prop :=
  (lookup id).map Subtype.val = some name

instance (lookup : UInt32 → Option Name) (name : List UInt8) :
    DecidablePred (HasName lookup name) :=
  fun _ => inferInstanceAs (Decidable (_ = _))

/-- The accounts that the loop looks up have names. -/
def KnownUpTo (lookup : UInt32 → Option Name) (name : List UInt8)
    (entries : List (UInt32 × Perms)) : Prop :=
  ∀ e ∈ entries.takeWhile fun e => ¬ HasName lookup name e.1, lookup e.1 ≠ none

instance (lookup : UInt32 → Option Name) (name : List UInt8) (entries : List (UInt32 × Perms)) :
    Decidable (KnownUpTo lookup name entries) :=
  inferInstanceAs (Decidable (∀ e ∈ _, _))

/-- The entry with the queried name and the entry of the queried account, where there are such, give
the same permissions, with the mask for the latter; `holder` says whether the name is that of the
holder of the entry `obj`, and `owner` whether the account is. -/
def Acl.Agrees (acl : Acl) (obj : Perms) (holder owner : Prop) [Decidable holder]
    [Decidable owner] : Option (UInt32 × Perms) → Option (UInt32 × Perms) → Prop
  | some e, some e' => e.2 = acl.masked e'.2
  | some e, none => e.2 = if owner then obj else acl.other
  | none, some e' => (if holder then obj else acl.other) = acl.masked e'.2
  | none, none => (holder ↔ owner) ∨ obj = acl.other

/-- When the program prints what is due. The name of the file's owner is taken for that of its group
as well. -/
def Acl.Exact (acl : Acl) (db : Accounts) (sbuf : Stat) (is_user : Bool) (arg : CString) : Prop :=
  db.getpwuid sbuf.st_uid ≠ none ∧ db.getgrgid sbuf.st_gid ≠ none ∧
    if is_user then
      let name := queried db.getpwuid arg
      let account := account db.getpwuid db.getpwnam arg
      KnownUpTo db.getpwuid name acl.users ∧
        acl.Agrees acl.userObj (HasName db.getpwuid name sbuf.st_uid)
          (account = some sbuf.st_uid)
          (acl.users.find? fun e => HasName db.getpwuid name e.1)
          (acl.users.find? fun e => account = some e.1)
    else
      let name := queried db.getgrgid arg
      let account := account db.getgrgid db.getgrnam arg
      KnownUpTo db.getgrgid name acl.groups ∧
        acl.Agrees (acl.masked acl.groupObj) (HasName db.getpwuid name sbuf.st_uid)
          (account = some sbuf.st_gid)
          (acl.groups.find? fun e => HasName db.getgrgid name e.1)
          (acl.groups.find? fun e => account = some e.1)

/-! ## Names and letters -/

theorem text_injective : Function.Injective Perms.text := by
  have h : ∀ a b c a' b' c' : Bool, Perms.text ⟨a, b, c⟩ = Perms.text ⟨a', b', c'⟩ →
      a = a' ∧ b = b' ∧ c = c' := by
    decide
  rintro ⟨a, b, c⟩ ⟨a', b', c'⟩ heq
  obtain ⟨rfl, rfl, rfl⟩ := h a b c a' b' c' heq
  rfl

@[simp] theorem use_mask_nil (str : List UInt8) : use_mask str [] = str := by
  cases str <;> rfl

/-- **Masking the letters** is AND-ing the permissions. -/
theorem use_mask_text (p m : Perms) :
    use_mask p.text m.text
      = (⟨p.read && m.read, p.write && m.write, p.execute && m.execute⟩ : Perms).text := by
  have h : ∀ a b c a' b' c' : Bool, use_mask (Perms.text ⟨a, b, c⟩) (Perms.text ⟨a', b', c'⟩)
      = Perms.text ⟨a && a', b && b', c && c'⟩ := by
    decide
  exact h _ _ _ _ _ _

/-- A copied argument is compared as it is. -/
theorem isName_strncpy {s : List UInt8} (hs : 0 ∉ s) (n : Name) :
    isName (strncpy 256 s) n = true ↔ n.1 = s := by
  rw [isName, decide_eq_true_eq, strcmp_eq_zero_iff n.2.1]
  by_cases hlen : s.length < 256
  · have hcopy : cstr (strncpy 256 s) = s := cstr_strncpy (fun b hb hb0 => hs (hb0 ▸ hb)) hlen
    have hzero : 0 ∈ strncpy 256 s :=
      zero_mem_of_length_lt (by rw [hcopy, length_strncpy]; exact hlen)
    rw [← cstr_eq_iff n.2.1, hcopy, and_iff_right hzero, eq_comm]
  · refine iff_of_false (fun hprefix => ?_) fun heq => ?_
    · have hcopy : strncpy 256 s = s.take 256 := by
        rw [strncpy, Nat.sub_eq_zero_of_le (not_lt.1 hlen), List.replicate_zero, List.append_nil]
      have hmem : 0 ∈ s.take 256 := hcopy ▸ hprefix.subset (by simp)
      exact hs (List.mem_of_mem_take hmem)
    · have hlt := n.2.2
      rw [heq] at hlt
      exact hlen hlt

theorem zero_notMem_queried (lookup : UInt32 → Option Name) (arg : CString) :
    0 ∉ queried lookup arg := by
  rw [queried]
  split_ifs
  · split
    · rename_i n _
      exact n.2.1
    · exact arg.2
  · exact arg.2

theorem hasName_iff {lookup : UInt32 → Option Name} {name : List UInt8} {id : UInt32} {n : Name}
    (h : lookup id = some n) : HasName lookup name id ↔ n.1 = name := by
  rw [HasName, h, Option.map_some, Option.some.injEq]

/-! ## The loop -/

variable {db : Accounts} {is_user : Bool} {name : List UInt8} {user group : Name} {v : Vars}
  {e : Entry} {rest : List Entry}

theorem entryLoop_of_not_named (h : named db is_user name e = .ok false) :
    entryLoop db is_user name user group v (e :: rest)
      = entryLoop db is_user name user group (collect is_user name user group v e) rest := by
  rw [entryLoop, h]
  rfl

/-- Only the entry of the mask sets the mask, and no entry that is passed sets the permissions of
the queried account. -/
theorem collect_unmasked (htag : e.tag ≠ .ACL_MASK) :
    (collect is_user name user group v e).perms = v.perms ∧
      (collect is_user name user group v e).mask = v.mask := by
  unfold collect
  cases h : e.tag with
  | ACL_USER_OBJ | ACL_GROUP_OBJ =>
    dsimp only
    split_ifs <;> exact ⟨rfl, rfl⟩
  | ACL_MASK => exact absurd h htag
  | ACL_USER | ACL_GROUP | ACL_OTHER => exact ⟨rfl, rfl⟩

/-- The entries for accounts of the other kind are not looked at. -/
theorem entryLoop_others {tag : UInt32 → Tag}
    (hnamed : ∀ id p, named db is_user name ⟨tag id, p⟩ = .ok false)
    (hcollect : ∀ v id p, collect is_user name user group v ⟨tag id, p⟩ = v)
    (l : List (UInt32 × Perms)) :
    entryLoop db is_user name user group v ((l.map fun e => ⟨tag e.1, e.2⟩) ++ rest)
      = entryLoop db is_user name user group v rest := by
  induction l with
  | nil => rfl
  | cons e l ih =>
    rw [List.map_cons, List.cons_append, entryLoop_of_not_named (hnamed e.1 e.2), hcollect]
    exact ih

theorem knownUpTo_cons_of_hasName {lookup : UInt32 → Option Name} {name : List UInt8}
    {e : UInt32 × Perms} {l : List (UInt32 × Perms)} (h : HasName lookup name e.1) :
    KnownUpTo lookup name (e :: l) := by
  unfold KnownUpTo
  rw [List.takeWhile_cons_of_neg (by simpa using h)]
  exact fun _ he => absurd he List.not_mem_nil

theorem knownUpTo_cons_of_not {lookup : UInt32 → Option Name} {name : List UInt8}
    {e : UInt32 × Perms} {l : List (UInt32 × Perms)} (h : ¬ HasName lookup name e.1) :
    KnownUpTo lookup name (e :: l) ↔ lookup e.1 ≠ none ∧ KnownUpTo lookup name l := by
  unfold KnownUpTo
  rw [List.takeWhile_cons_of_pos (by simpa using h), List.forall_mem_cons]

/-- What the loop comes to at the entries `l` for accounts of the queried kind: the entry with the
name, one without a name, or what comes behind them. -/
def atNamed (lookup : UInt32 → Option Name) (name : List UInt8) (l : List (UInt32 × Perms))
    (v : Vars) (rest : Except Abort Vars) : Except Abort Vars :=
  if KnownUpTo lookup name l then
    match l.find? fun e => HasName lookup name e.1 with
    | some e => .ok { v with perms := get_perms v.perms e.2, need_mask := true, is_find := true }
    | none => rest
  else .error ⟨"getpwuid errno or can't find that user"⟩

/-- **The entries for accounts** of the queried kind. -/
theorem entryLoop_named {lookup : UInt32 → Option Name} {queriedName : List UInt8}
    (hname : ∀ n, isName name n = true ↔ n.1 = queriedName) {tag : UInt32 → Tag}
    (hnamed : ∀ id p, named db is_user name ⟨tag id, p⟩ =
      match lookup id with
      | some n => .ok (isName name n)
      | none => .error ⟨"getpwuid errno or can't find that user"⟩)
    (hcollect : ∀ v id p, collect is_user name user group v ⟨tag id, p⟩ = v)
    (l : List (UInt32 × Perms)) :
    entryLoop db is_user name user group v ((l.map fun e => ⟨tag e.1, e.2⟩) ++ rest)
      = atNamed lookup queriedName l v (entryLoop db is_user name user group v rest) := by
  induction l with
  | nil => rfl
  | cons e l ih =>
    rw [List.map_cons, List.cons_append]
    by_cases hn : HasName lookup queriedName e.1
    · obtain ⟨n, hlookup, heq⟩ := Option.map_eq_some_iff.1 hn
      rw [entryLoop, hnamed, hlookup, atNamed, if_pos (knownUpTo_cons_of_hasName hn),
        List.find?_cons_of_pos (by simpa using hn)]
      simp only [(hname n).2 heq]
      rfl
    · have hfind : (e :: l).find? (fun e => HasName lookup queriedName e.1)
          = l.find? fun e => HasName lookup queriedName e.1 :=
        List.find?_cons_of_neg (by simpa using hn)
      cases hlookup : lookup e.1 with
      | none =>
        rw [entryLoop, hnamed, hlookup, atNamed,
          if_neg fun h => ((knownUpTo_cons_of_not hn).1 h).1 hlookup]
        rfl
      | some n =>
        have hfalse : named db is_user name ⟨tag e.1, e.2⟩ = .ok false := by
          rw [hnamed, hlookup]
          refine congrArg Except.ok (Bool.eq_false_of_not_eq_true fun h => hn ?_)
          exact (hasName_iff hlookup).2 ((hname n).1 h)
        rw [entryLoop_of_not_named hfalse, hcollect, ih, atNamed, atNamed, hfind]
        refine if_congr ?_ rfl rfl
        rw [knownUpTo_cons_of_not hn, hlookup]
        exact (and_iff_right nofun).symm

theorem entryLoop_users {name : List UInt8} (hname : 0 ∉ name) (user group : Name) (v : Vars)
    (l : List (UInt32 × Perms)) (rest : List Entry) :
    entryLoop db true (strncpy 256 name) user group v
        ((l.map fun e => ⟨.ACL_USER e.1, e.2⟩) ++ rest)
      = atNamed db.getpwuid name l v
          (entryLoop db true (strncpy 256 name) user group v rest) :=
  entryLoop_named (isName_strncpy hname) (fun _ _ => rfl) (fun _ _ _ => rfl) l

theorem entryLoop_groups {name : List UInt8} (hname : 0 ∉ name) (user group : Name) (v : Vars)
    (l : List (UInt32 × Perms)) (rest : List Entry) :
    entryLoop db false (strncpy 256 name) user group v
        ((l.map fun e => ⟨.ACL_GROUP e.1, e.2⟩) ++ rest)
      = atNamed db.getgrgid name l v
          (entryLoop db false (strncpy 256 name) user group v rest) :=
  entryLoop_named (isName_strncpy hname) (fun _ _ => rfl) (fun _ _ _ => rfl) l

/-- The mask and the entry for all others. -/
theorem entryLoop_mask_other (v : Vars) (mask : Option Perms) (other : Perms) :
    entryLoop db is_user name user group v
        ((mask.toList.map fun p => ⟨.ACL_MASK, p⟩) ++ [⟨.ACL_OTHER, other⟩])
      = .ok { v with
          mask := mask.elim v.mask (get_perms v.mask)
          other_perms := get_perms v.other_perms other } := by
  cases mask <;> cases is_user <;> rfl

/-! ## The program -/

theorem ok_text_eq_iff {p q : Perms} :
    (.ok p.text : Except Abort (List UInt8)) = .ok q.text ↔ q = p := by
  rw [Except.ok.injEq, text_injective.eq_iff, eq_comm]

/-- The printed permissions of a named entry are not masked. -/
theorem atNamed_result_iff {lookup : UInt32 → Option Name} {name : List UInt8}
    {l : List (UInt32 × Perms)} {rest : Except Abort Vars} {otherwise due : Perms}
    (hperms : v.perms = []) (hmask : v.mask = []) (hrest : rest.map result = .ok otherwise.text) :
    (atNamed lookup name l v rest).map result = .ok due.text ↔ KnownUpTo lookup name l ∧
      ((l.find? fun e => HasName lookup name e.1).map Prod.snd).getD otherwise = due := by
  rw [atNamed]
  by_cases hknown : KnownUpTo lookup name l
  · rw [if_pos hknown, and_iff_right hknown]
    cases l.find? fun e => HasName lookup name e.1 with
    | none =>
      rw [hrest, ok_text_eq_iff, eq_comm]
      rfl
    | some e =>
      have hresult : result { v with
          perms := get_perms v.perms e.2, need_mask := true, is_find := true } = e.2.text := by
        rw [result]
        simp only [hperms, hmask, if_true, use_mask_nil]
        rfl
      simp only [Except.map, hresult]
      rw [ok_text_eq_iff, eq_comm]
      rfl
  · rw [if_neg hknown]
    exact iff_of_false nofun fun h => hknown h.1

/-- What is found by the name is what is due. -/
theorem agrees_iff (acl : Acl) (obj : Perms) (holder : Prop) [Decidable holder]
    (account : Option UInt32) (id : UInt32) (l : List (UInt32 × Perms))
    (found : Option (UInt32 × Perms)) :
    (found.map Prod.snd).getD (if holder then obj else acl.other) = acl.permsOf account l id obj ↔
      acl.Agrees obj holder (account = some id) found
        (l.find? fun e => account = some e.1) := by
  rw [Acl.permsOf]
  cases found with
  | some e => cases l.find? fun e => account = some e.1 <;> exact Iff.rfl
  | none =>
    cases l.find? fun e => account = some e.1 with
    | some e' => exact Iff.rfl
    | none =>
      change (if holder then obj else acl.other) = (if account = some id then obj else acl.other) ↔
        (holder ↔ account = some id) ∨ obj = acl.other
      by_cases hholder : holder <;> by_cases howner : account = some id <;>
        simp [hholder, howner, eq_comm]

theorem entries_eq (acl : Acl) :
    acl.entries = ⟨.ACL_USER_OBJ, acl.userObj⟩ :: ((acl.users.map fun e => ⟨.ACL_USER e.1, e.2⟩) ++
      (⟨.ACL_GROUP_OBJ, acl.groupObj⟩ :: ((acl.groups.map fun e => ⟨.ACL_GROUP e.1, e.2⟩) ++
        ((acl.mask.toList.map fun p => ⟨.ACL_MASK, p⟩) ++ [⟨.ACL_OTHER, acl.other⟩])))) := by
  simp [Acl.entries]

/-- The variables in front of the loop. -/
def start : Vars := ⟨[], [], [], [], false, false, false⟩

/-- A user without an entry. -/
theorem userLoop_rest (db : Accounts) (acl : Acl) (name : List UInt8) (user group : Name) :
    (entryLoop db true name user group
        (collect true name user group start ⟨.ACL_USER_OBJ, acl.userObj⟩)
        (⟨.ACL_GROUP_OBJ, acl.groupObj⟩ :: ((acl.groups.map fun e => ⟨.ACL_GROUP e.1, e.2⟩) ++
          ((acl.mask.toList.map fun p => ⟨.ACL_MASK, p⟩) ++ [⟨.ACL_OTHER, acl.other⟩])))).map result
      = .ok (if isName name user then acl.userObj else acl.other).text := by
  rw [entryLoop_of_not_named rfl, entryLoop_others (fun _ _ => rfl) (fun _ _ _ => rfl),
    entryLoop_mask_other]
  cases hname : isName name user <;> simp [collect, hname, start, result, Except.map, Perms.text]

/-- A group without an entry. The owner's name `user` stands for the group's as well. -/
theorem groupLoop_rest (db : Accounts) (acl : Acl) (name : List UInt8) (user : Name) :
    (entryLoop db false name user user
        (collect false name user user start ⟨.ACL_GROUP_OBJ, acl.groupObj⟩)
        ((acl.mask.toList.map fun p => ⟨.ACL_MASK, p⟩) ++ [⟨.ACL_OTHER, acl.other⟩])).map result
      = .ok (if isName name user then acl.masked acl.groupObj else acl.other).text := by
  have hmasked : (acl.masked acl.groupObj).text
      = use_mask acl.groupObj.text (acl.mask.elim [] Perms.text) := by
    rw [Acl.masked]
    cases acl.mask with
    | none => exact (use_mask_nil _).symm
    | some m => exact (use_mask_text _ m).symm
  rw [entryLoop_mask_other]
  cases hname : isName name user with
  | false => simp [collect, hname, start, result, Except.map, Perms.text]
  | true =>
    rw [if_pos rfl, hmasked]
    cases acl.mask <;> simp [collect, hname, start, result, Except.map, Perms.text]

theorem isName_iff_hasName {lookup : UInt32 → Option Name} {name : List UInt8} {id : UInt32}
    {n : Name} (hname : 0 ∉ name) (h : lookup id = some n) :
    isName (strncpy 256 name) n = true ↔ HasName lookup name id := by
  rw [isName_strncpy hname, hasName_iff h]

/-- **For a user** the entries are found by the name of the user. -/
theorem userLoop_iff {acl : Acl} {sbuf : Stat} {user : Name} {name : List UInt8} {due : Perms}
    (hname : 0 ∉ name) (huser : db.getpwuid sbuf.st_uid = some user) :
    (entryLoop db true (strncpy 256 name) user user start acl.entries).map result
        = .ok due.text ↔
      KnownUpTo db.getpwuid name acl.users ∧
        ((acl.users.find? fun e => HasName db.getpwuid name e.1).map Prod.snd).getD
          (if HasName db.getpwuid name sbuf.st_uid then acl.userObj else acl.other) = due := by
  have htag : (⟨.ACL_USER_OBJ, acl.userObj⟩ : Entry).tag ≠ .ACL_MASK := Tag.noConfusion
  obtain ⟨hperms, hmask⟩ := collect_unmasked htag
  rw [entries_eq, entryLoop_of_not_named rfl, entryLoop_users hname]
  refine atNamed_result_iff hperms hmask ?_
  rw [userLoop_rest]
  simp only [isName_iff_hasName hname huser]

/-- **For a group** they are found by the name of the group, and the owning group by the name of the
owner. -/
theorem groupLoop_iff {acl : Acl} {sbuf : Stat} {user : Name} {name : List UInt8} {due : Perms}
    (hname : 0 ∉ name) (huser : db.getpwuid sbuf.st_uid = some user) :
    (entryLoop db false (strncpy 256 name) user user start acl.entries).map result
        = .ok due.text ↔
      KnownUpTo db.getgrgid name acl.groups ∧
        ((acl.groups.find? fun e => HasName db.getgrgid name e.1).map Prod.snd).getD
          (if HasName db.getpwuid name sbuf.st_uid then acl.masked acl.groupObj else acl.other)
            = due := by
  have hobj : collect false (strncpy 256 name) user user start ⟨.ACL_USER_OBJ, acl.userObj⟩
      = start := rfl
  have htag : (⟨.ACL_GROUP_OBJ, acl.groupObj⟩ : Entry).tag ≠ .ACL_MASK := Tag.noConfusion
  obtain ⟨hperms, hmask⟩ := collect_unmasked htag
  rw [entries_eq, entryLoop_of_not_named rfl, hobj,
    entryLoop_others (fun _ _ => rfl) (fun _ _ _ => rfl), entryLoop_of_not_named rfl,
    entryLoop_groups hname]
  refine atNamed_result_iff hperms hmask ?_
  rw [groupLoop_rest]
  simp only [isName_iff_hasName hname huser]

/-- **When the program prints what is due**: the accounts that it looks up have names, and what it
finds by the queried name, without the mask, is what the entry of the queried account gives with the
mask; without entries of either kind, the name is that of the file's owner if and only if the
account is the owner, or the owning group. -/
theorem aclQuery_effective_iff (db : Accounts) (sbuf : Stat) (is_user : Bool) (arg : CString)
    (acl : Acl) :
    aclQuery db sbuf is_user arg acl.entries = .ok (acl.effective db sbuf is_user arg).text ↔
      acl.Exact db sbuf is_user arg := by
  rw [aclQuery, Acl.Exact]
  cases huser : db.getpwuid sbuf.st_uid with
  | none => exact iff_of_false nofun fun h => h.1 rfl
  | some user =>
    cases hgroup : db.getgrgid sbuf.st_gid with
    | none => exact iff_of_false nofun fun h => h.2.1 rfl
    | some group =>
      rw [and_iff_right nofun, and_iff_right nofun]
      cases is_user with
      | true =>
        refine (userLoop_iff (zero_notMem_queried _ _) huser).trans ?_
        exact and_congr_right fun _ => agrees_iff acl _ _ _ _ _ _
      | false =>
        refine (groupLoop_iff (zero_notMem_queried _ _) huser).trans ?_
        exact and_congr_right fun _ => agrees_iff acl _ _ _ _ _ _

/-! ## Databases without aliases -/

/-- Each name belongs to one id and each id has one name. -/
def Coherent (lookup : UInt32 → Option Name) (byName : List UInt8 → Option UInt32) : Prop :=
  ∀ name id, byName name = some id ↔ HasName lookup name id

/-- A string of digits is the numeral of an id. -/
def InRange (arg : CString) : Prop := arg.1.all isDigit → numeral arg.1 ≠ none

section Coherent

variable {lookup : UInt32 → Option Name} {byName : List UInt8 → Option UInt32} {arg : CString}

theorem numeral_eq_some {s : List UInt8} {id : UInt32} (h : numeral s = some id) :
    s.all isDigit ∧ atoi s = id := by
  rw [numeral] at h
  split_ifs at h with hdigits
  refine ⟨hdigits.2.1, ?_⟩
  have hmin : min (decimalValue s) (2 ^ 63 - 1) = decimalValue s :=
    min_eq_left (by have := hdigits.2.2; omega)
  rw [atoi, hmin]
  exact Option.some.inj h

/-- **The queried name** is that of the account that the argument speaks of. -/
theorem hasName_queried_iff (hcoherent : Coherent lookup byName) (harg : InRange arg)
    (id : UInt32) :
    HasName lookup (queried lookup arg) id ↔
      account lookup byName arg = some id ∧ lookup id ≠ none := by
  have hknown : ∀ {name}, HasName lookup name id → lookup id ≠ none := by
    intro name h hnone
    rw [HasName, hnone] at h
    simp at h
  cases hnumeral : numeral arg.1 with
  | none =>
    have hdigits : ¬ arg.1.all isDigit := fun h => harg h hnumeral
    rw [queried, if_neg hdigits, account, hnumeral]
    change _ ↔ byName arg.1 = some id ∧ _
    rw [hcoherent]
    exact ⟨fun h => ⟨h, hknown h⟩, fun h => h.1⟩
  | some n =>
    obtain ⟨hdigits, hatoi⟩ := numeral_eq_some hnumeral
    rw [queried, if_pos hdigits, hatoi, account, hnumeral]
    dsimp only
    cases hlookup : lookup n with
    | some nm =>
      rw [if_neg (by simp), Option.some.injEq]
      have hn : byName nm.1 = some n :=
        (hcoherent _ _).2 (by rw [HasName, hlookup, Option.map_some])
      rw [← hcoherent, hn, Option.some.injEq]
      refine ⟨fun h => ⟨h, ?_⟩, fun h => h.1⟩
      rw [← h, hlookup]
      exact Option.some_ne_none nm
    | none =>
      rw [if_pos rfl, Option.some.injEq, ← hcoherent]
      cases hname : byName arg.1 with
      | some m =>
        rw [Option.some.injEq, Option.getD_some]
        exact ⟨fun h => ⟨h, hknown ((hcoherent _ _).1 (h ▸ hname))⟩, fun h => h.1⟩
      | none =>
        refine iff_of_false (Option.some_ne_none id).symm fun h => h.2 ?_
        rw [← h.1, Option.getD_none, hlookup]

/-- Behind entries with names the queried name finds the account's own entry. -/
theorem find?_hasName_eq (hcoherent : Coherent lookup byName) (harg : InRange arg)
    {l : List (UInt32 × Perms)} (hknown : KnownUpTo lookup (queried lookup arg) l) :
    (l.find? fun e => HasName lookup (queried lookup arg) e.1)
      = l.find? fun e => account lookup byName arg = some e.1 := by
  induction l with
  | nil => rfl
  | cons e l ih =>
    have hiff := hasName_queried_iff hcoherent harg e.1
    by_cases hname : HasName lookup (queried lookup arg) e.1
    · rw [List.find?_cons_of_pos (by simpa using hname),
        List.find?_cons_of_pos (by simpa using (hiff.1 hname).1)]
    · obtain ⟨hnamed, hrest⟩ := (knownUpTo_cons_of_not hname).1 hknown
      have haccount : account lookup byName arg ≠ some e.1 := fun h => hname (hiff.2 ⟨h, hnamed⟩)
      rw [List.find?_cons_of_neg (by simpa using hname),
        List.find?_cons_of_neg (by simpa using haccount)]
      exact ih hrest

end Coherent

/-- **A user** in a database without aliases: what is printed is right if and only if the accounts
that are looked up have names and the mask takes nothing from the user's own entry. -/
theorem exact_user_iff {db : Accounts} {sbuf : Stat} {arg : CString} (acl : Acl)
    (hcoherent : Coherent db.getpwuid db.getpwnam) (harg : InRange arg) :
    acl.Exact db sbuf true arg ↔
      db.getpwuid sbuf.st_uid ≠ none ∧ db.getgrgid sbuf.st_gid ≠ none ∧
        KnownUpTo db.getpwuid (queried db.getpwuid arg) acl.users ∧
        ∀ e ∈ acl.users.find? fun e => account db.getpwuid db.getpwnam arg = some e.1,
          e.2 = acl.masked e.2 := by
  rw [Acl.Exact]
  refine and_congr_right fun howner => and_congr_right fun _ => ?_
  rw [if_pos rfl]
  refine and_congr_right fun hknown => ?_
  rw [find?_hasName_eq hcoherent harg hknown]
  cases acl.users.find? fun e => account db.getpwuid db.getpwnam arg = some e.1 with
  | some e => exact ⟨fun h e' he' => Option.some.inj he' ▸ h, fun h => h e rfl⟩
  | none =>
    refine iff_of_true (Or.inl ?_) fun e he => absurd he (Option.not_mem_none e)
    rw [hasName_queried_iff hcoherent harg]
    exact and_iff_left howner

/-- **A group** in a database without aliases: there is also the name of the file's owner, which has
to be that of the group if and only if the group is the owning one. -/
theorem exact_group_iff {db : Accounts} {sbuf : Stat} {arg : CString} (acl : Acl)
    (hcoherent : Coherent db.getgrgid db.getgrnam) (harg : InRange arg) :
    acl.Exact db sbuf false arg ↔
      db.getpwuid sbuf.st_uid ≠ none ∧ db.getgrgid sbuf.st_gid ≠ none ∧
        KnownUpTo db.getgrgid (queried db.getgrgid arg) acl.groups ∧
        match acl.groups.find? fun e => account db.getgrgid db.getgrnam arg = some e.1 with
        | some e => e.2 = acl.masked e.2
        | none =>
          (HasName db.getpwuid (queried db.getgrgid arg) sbuf.st_uid ↔
            account db.getgrgid db.getgrnam arg = some sbuf.st_gid) ∨
          acl.masked acl.groupObj = acl.other := by
  rw [Acl.Exact]
  refine and_congr_right fun _ => and_congr_right fun _ => ?_
  rw [if_neg Bool.false_ne_true]
  refine and_congr_right fun hknown => ?_
  rw [find?_hasName_eq hcoherent harg hknown]
  cases acl.groups.find? fun e => account db.getgrgid db.getgrnam arg = some e.1 <;> exact Iff.rfl

/-- The users `root` and `bob` and the group `staff`. -/
def twoUsers : Accounts where
  getpwuid uid :=
    if uid = 0 then some ⟨[114, 111, 111, 116], by decide⟩
    else if uid = 1 then some ⟨[98, 111, 98], by decide⟩
    else none
  getpwnam name :=
    if name = [114, 111, 111, 116] then some 0 else if name = [98, 111, 98] then some 1 else none
  getgrgid gid := if gid = 5 then some ⟨[115, 116, 97, 102, 102], by decide⟩ else none
  getgrnam name := if name = [115, 116, 97, 102, 102] then some 5 else none

/-- `user::rwx`, `user:bob:rw-`, `group::r-x`, `mask::r--`, `other::---`. -/
def bobAcl : Acl where
  userObj := ⟨true, true, true⟩
  users := [(1, ⟨true, true, false⟩)]
  groupObj := ⟨true, false, true⟩
  groups := []
  mask := some ⟨true, false, false⟩
  other := ⟨false, false, false⟩

/-- For `bob` the mask is left out, and for the owning group `staff` the permissions of all others
are printed. -/
theorem not_effective_bob :
    aclQuery twoUsers ⟨0, 5⟩ true ⟨[98, 111, 98], by decide⟩ bobAcl.entries
        = .ok [114, 119, 45] ∧
      (bobAcl.effective twoUsers ⟨0, 5⟩ true ⟨[98, 111, 98], by decide⟩).text = [114, 45, 45] ∧
      aclQuery twoUsers ⟨0, 5⟩ false ⟨[115, 116, 97, 102, 102], by decide⟩ bobAcl.entries
        = .ok [45, 45, 45] ∧
      (bobAcl.effective twoUsers ⟨0, 5⟩ false ⟨[115, 116, 97, 102, 102], by decide⟩).text
        = [114, 45, 45] := by
  decide +kernel

end TlpiLearn.AclQuery
