import TlpiLearn.Foundations.Environ
import Mathlib.Tactic

/-!
# A copy of `setenv`

`my_setenv` of `6_3.c`. The entry is put together with `strcat` in memory from `malloc`, that is
behind the string which happens to be there, and a variable that is defined is only set for
`replace` equal to one. `my_setenv_sets_iff` says when the call sets its variable all the same.
-/

namespace TlpiLearn.SetEnv

/-- `MAXLINE`. -/
def MAXLINE : ℕ := 4096

/-- `environ`, a null pointer or a list. -/
abbrev Environ := Option (List CString)

/-- `getenv` of a variable of the process; there are none behind a null pointer. -/
def lookup (environ : Environ) (name : CString) : Option (List UInt8) :=
  getenv name (environ.getD [])

/-- The memory of an entry, with the content that `malloc` leaves in it. -/
structure Block where
  mem : List UInt8
  length_mem : mem.length = MAXLINE

/-- The `strcat` calls of `my_setenv`. -/
def assemble (mem : List UInt8) (name value : CString) : Option (List UInt8) := do
  let env ← strcat mem name
  let env ← strcat env [equals]
  strcat env value

/-- `my_setenv` with its string put together. -/
def put (room : Bool) (name : CString) (replace : ℤ) (env : CString) :
    Environ → Option (ℤ × Environ)
  | none => if room then some (0, some [env]) else none
  | some es =>
    if getenv name es = none ∨ replace = 1 then some (0, some (putenv room env es))
    else some (0, some es)

/-- `my_setenv`. A null `block` is a failed first `malloc`, and `room` says whether there is memory
for a list of entries. The call faults (`none`) where it leaves the block. -/
def my_setenv (block : Option Block) (room : Bool) (name value : CString) (replace : ℤ)
    (environ : Environ) : Option (ℤ × Environ) :=
  match block with
  | none => some (-1, environ)
  | some env =>
    -- `printf` of the block
    if 0 ∉ env.mem then none
    else
      (assemble env.mem name value).bind fun mem =>
        put room name replace ⟨cstr mem, zero_notMem_cstr mem⟩ environ

/-- **What `setenv` does** to the variables. -/
def Sets (name value : CString) (replace : ℤ) (environ environ' : Environ) : Prop :=
  ∀ m : CString, equals ∉ m.val → lookup environ' m =
    if m = name ∧ (lookup environ name = none ∨ replace ≠ 0) then some value.val
    else lookup environ m

/-- The string that is put together in a block. -/
def entry (mem : List UInt8) (name value : CString) : CString :=
  ⟨cstr mem ++ name ++ equals :: value.val, by
    have hmem := zero_notMem_cstr mem
    have hname := name.property
    have hvalue := value.property
    have heq : (0 : UInt8) ≠ equals := by decide
    simp [hmem, hname, hvalue, heq]⟩

/-- The variable that a string sets. -/
def key (s : CString) : CString :=
  ⟨nameOf s, fun h => s.property ((List.takeWhile_prefix _).subset h)⟩

/-- `my_setenv` hands its string to `putenv`, or makes a list of it. -/
def Puts (name : CString) (replace : ℤ) (environ : Environ) : Prop :=
  lookup environ name = none ∨ replace = 1

instance (name : CString) (replace : ℤ) (environ : Environ) :
    Decidable (Puts name replace environ) :=
  inferInstanceAs (Decidable (_ ∨ _))

/-- The string `s` can be set: it has a name, and there is room for it or a definition of its
variable to replace. -/
def Settable (room : Bool) (s : CString) (environ : Environ) : Prop :=
  (key s).val ≠ [] ∧ (room = true ∨ lookup environ (key s) ≠ none)

instance (room : Bool) (s : CString) (environ : Environ) : Decidable (Settable room s environ) :=
  inferInstanceAs (Decidable (_ ∧ _))

/-- The calls that set the variable: the strings fit behind the one in the memory, and if the
variable is to be set, the memory starts with a null byte, or there is nothing to do and nothing
happens. -/
structure SetsWhen (mem : List UInt8) (room : Bool) (name value : CString) (replace : ℤ)
    (environ : Environ) : Prop where
  fits : (cstr mem).length + (name.val.length + value.val.length + 1) < MAXLINE
  puts : Puts name replace environ →
    cstr mem = [] ∧ Settable room (entry mem name value) environ ∨
      lookup environ name = some value.val ∧
        (Settable room (entry mem name value) environ →
          lookup environ (key (entry mem name value)) =
            valueOf (nameOf (entry mem name value)) (entry mem name value))
  skips : ¬ Puts name replace environ → replace = 0 ∨ lookup environ name = some value.val

variable {mem : List UInt8} {room : Bool} {name value : CString} {replace : ℤ} {environ : Environ}

/-! ## The string -/

theorem assemble_of_fits
    (h : (cstr mem).length + (name.val.length + value.val.length + 1) < mem.length) :
    ∃ mem', assemble mem name value = some mem' ∧ 0 ∈ mem ∧
      cstr mem' = entry mem name value := by
  have hfits₁ : (cstr mem).length + name.val.length < mem.length := by omega
  obtain ⟨mem₁, h₁, -, hlen₁, hstr₁⟩ := exists_strcat name.property hfits₁
  have hfits₂ : (cstr mem₁).length + [equals].length < mem₁.length := by
    rw [hstr₁, hlen₁, List.length_append, List.length_singleton]
    omega
  obtain ⟨mem₂, h₂, -, hlen₂, hstr₂⟩ := exists_strcat (by decide) hfits₂
  have hfits₃ : (cstr mem₂).length + value.val.length < mem₂.length := by
    rw [hstr₂, hstr₁, hlen₂, hlen₁, List.length_append, List.length_append,
      List.length_singleton]
    omega
  obtain ⟨mem₃, h₃, -, -, hstr₃⟩ := exists_strcat value.property hfits₃
  refine ⟨mem₃, ?_, zero_mem_of_length_lt (by omega), ?_⟩
  · simp only [assemble, h₁, h₂, h₃, Option.bind_eq_bind, Option.bind_some]
  · rw [hstr₃, hstr₂, hstr₁, entry]
    simp

/-- Strings that do not fit run off the block. -/
theorem fits_of_assemble {mem' : List UInt8} (h : assemble mem name value = some mem') :
    (cstr mem).length + (name.val.length + value.val.length + 1) < mem.length := by
  simp only [assemble, Option.bind_eq_bind, Option.bind_eq_some_iff] at h
  obtain ⟨mem₁, h₁, mem₂, h₂, h₃⟩ := h
  obtain ⟨-, hlen₁, hstr₁⟩ := strcat_eq_some name.property h₁
  obtain ⟨-, hlen₂, hstr₂⟩ := strcat_eq_some (by decide) h₂
  have hfits : strcat mem₂ value ≠ none := by simp [h₃]
  rw [ne_eq, strcat_eq_none_iff, hlen₂, hlen₁, hstr₂, hstr₁, List.length_append,
    List.length_append, List.length_singleton] at hfits
  omega

/-- `my_setenv` of strings that fit. -/
theorem my_setenv_of_fits (block : Block)
    (h : (cstr block.mem).length + (name.val.length + value.val.length + 1) < MAXLINE) :
    my_setenv (some block) room name value replace environ =
      put room name replace (entry block.mem name value) environ := by
  obtain ⟨mem', hmem', hzero, hstr⟩ := assemble_of_fits (h.trans_eq block.length_mem.symm)
  have hentry : (⟨cstr mem', zero_notMem_cstr mem'⟩ : CString) = entry block.mem name value :=
    Subtype.ext hstr
  rw [my_setenv, if_neg (not_not.2 hzero), hmem', Option.bind_some, hentry]

theorem fits_of_my_setenv {block : Block} {r : ℤ × Environ}
    (h : my_setenv (some block) room name value replace environ = some r) :
    (cstr block.mem).length + (name.val.length + value.val.length + 1) < MAXLINE := by
  rw [my_setenv] at h
  split_ifs at h
  obtain ⟨mem', hmem', -⟩ := Option.bind_eq_some_iff.1 h
  exact (fits_of_assemble hmem').trans_eq block.length_mem

/-! ## The variables -/

@[simp] theorem lookup_none (name : CString) : lookup none name = none := by
  simp [lookup, getenv]

theorem equals_notMem_key (s : CString) : equals ∉ (key s).val := equals_notMem_nameOf s

/-- The variables with a string put into the environment. -/
theorem lookup_put {s m : CString} {r : ℤ × Environ} (hs : equals ∈ s.val)
    (hputs : Puts name replace environ) (hm : equals ∉ m.val)
    (h : put room name replace s environ = some r) :
    lookup r.2 m =
      if m = key s ∧ Settable room s environ then valueOf (nameOf s) s else lookup environ m := by
  obtain ⟨v, hv⟩ := exists_value hs
  have hvalue : valueOf (nameOf s) s = some v := valueOf_eq_some_iff.2 hv
  have hcond (P : CString → Prop) : (m.val = nameOf s ∧ m.val ≠ [] ∧ P m) ↔
      m = key s ∧ (key s).val ≠ [] ∧ P (key s) := by
    constructor
    · rintro ⟨heq, hrest⟩
      obtain rfl : m = key s := Subtype.ext heq
      exact ⟨rfl, hrest⟩
    · rintro ⟨rfl, hrest⟩
      exact ⟨rfl, hrest⟩
  rw [hvalue]
  cases environ with
  | none =>
    cases room with
    | false => cases h
    | true =>
      cases h
      have hget : getenv m [s] = _ := getenv_putenv [] hm hv true
      exact hget.trans (if_congr (hcond fun m => true = true ∨ getenv m [] ≠ none) rfl rfl)
  | some es =>
    rw [put, if_pos (show getenv name es = none ∨ replace = 1 from hputs)] at h
    cases h
    exact (getenv_putenv es hm hv room).trans
      (if_congr (hcond fun m => room = true ∨ getenv m es ≠ none) rfl rfl)

theorem val_entry (mem : List UInt8) (name value : CString) :
    (entry mem name value).val = cstr mem ++ name.val ++ equals :: value.val := rfl

theorem equals_mem_entry (mem : List UInt8) (name value : CString) :
    equals ∈ (entry mem name value).val :=
  List.mem_append_right _ List.mem_cons_self

/-- Behind a null byte at the start of the memory the string is the entry that it should be. -/
theorem key_entry (hname : equals ∉ name.val) (hmem : cstr mem = []) (value : CString) :
    key (entry mem name value) = name ∧
      valueOf (nameOf (entry mem name value)) (entry mem name value) = some value.val := by
  have hentry : (entry mem name value).val = name.val ++ equals :: value.val := by
    rw [val_entry, hmem, List.nil_append]
  have hkey : nameOf (entry mem name value) = name.val := by
    rw [hentry, nameOf_append_equals hname]
  exact ⟨Subtype.ext hkey, valueOf_eq_some_iff.2 (hentry.trans (by rw [hkey]))⟩

theorem settable_entry (hname : equals ∉ name.val) (hmem : cstr mem = []) (hne : name.val ≠ []) :
    Settable true (entry mem name value) environ := by
  refine ⟨?_, .inl rfl⟩
  rw [(key_entry hname hmem value).1]
  exact hne

/-- The string that is put sets the variable if it is the right entry, or no change. -/
theorem sets_iff_of_puts {r : ℤ × Environ} (hname : equals ∉ name.val)
    (hputs : Puts name replace environ)
    (h : put room name replace (entry mem name value) environ = some r) :
    Sets name value replace environ r.2 ↔
      cstr mem = [] ∧ Settable room (entry mem name value) environ ∨
        lookup environ name = some value.val ∧
          (Settable room (entry mem name value) environ →
            lookup environ (key (entry mem name value)) =
              valueOf (nameOf (entry mem name value)) (entry mem name value)) := by
  have hset : lookup environ name = none ∨ replace ≠ 0 :=
    hputs.imp_right fun hone => by omega
  have hafter {m : CString} (hm : equals ∉ m.val) :
      lookup r.2 m =
        if m = key (entry mem name value) ∧ Settable room (entry mem name value) environ then
          valueOf (nameOf (entry mem name value)) (entry mem name value)
        else lookup environ m :=
    lookup_put (equals_mem_entry mem name value) hputs hm h
  have hkey : equals ∉ (key (entry mem name value)).val := equals_notMem_key _
  constructor
  · intro hsets
    have hself : lookup r.2 name = some value.val := by
      rw [hsets name hname, if_pos ⟨rfl, hset⟩]
    rw [hafter hname] at hself
    split_ifs at hself with hcond
    · -- the string defines the variable, so that its value is behind the first equals sign
      have hname' : nameOf (entry mem name value) = name.val :=
        congrArg Subtype.val hcond.1.symm
      have hentry := valueOf_eq_some_iff.1 hself
      rw [hname', val_entry, List.append_assoc] at hentry
      exact .inl ⟨List.append_left_eq_self.1 hentry, hcond.2⟩
    · refine .inr ⟨hself, fun hsettable => ?_⟩
      have hne : key (entry mem name value) ≠ name := fun heq => hcond ⟨heq.symm, hsettable⟩
      have hother := hsets _ hkey
      rw [if_neg fun heq => hne heq.1, hafter hkey, if_pos ⟨rfl, hsettable⟩] at hother
      exact hother.symm
  · rintro (⟨hmem, hsettable⟩ | ⟨hvalue, hidle⟩) m hm
    · obtain ⟨hkey', hvalue⟩ := key_entry hname hmem value
      rw [hafter hm, hvalue, hkey']
      exact if_congr (by simp [hset, hsettable]) rfl rfl
    · have hsame : lookup r.2 m = lookup environ m := by
        rw [hafter hm]
        split_ifs with hcond
        · rw [hcond.1, hidle hcond.2]
        · rfl
      rw [hsame]
      split_ifs with hcond
      · rw [hcond.1, hvalue]
      · rfl

/-- A variable that is left alone. -/
theorem sets_iff_of_skips (hname : equals ∉ name.val) (hskips : ¬ Puts name replace environ) :
    Sets name value replace environ environ ↔
      replace = 0 ∨ lookup environ name = some value.val := by
  obtain ⟨hdefined, -⟩ := not_or.1 hskips
  constructor
  · intro hsets
    refine or_iff_not_imp_left.2 fun hne => ?_
    rw [hsets name hname, if_pos ⟨rfl, .inr hne⟩]
  · rintro (hzero | hvalue) m -
    · rw [if_neg]
      rintro ⟨-, hnone | hne⟩
      · exact hdefined hnone
      · exact hne hzero
    · split_ifs with hcond
      · rw [hcond.1, hvalue]
      · rfl

/-- `my_setenv` leaves the environment alone if the variable is not to be set. -/
theorem put_of_skips (hskips : ¬ Puts name replace environ) (s : CString) :
    put room name replace s environ = some (0, environ) := by
  cases environ with
  | none => exact absurd (.inl (lookup_none name)) hskips
  | some es => exact if_neg hskips

/-- A string that can be set, or one more definition, is put somewhere. -/
theorem exists_put {s : CString}
    (h : Settable room s environ ∨ lookup environ name ≠ none) :
    ∃ r, put room name replace s environ = some r := by
  cases environ with
  | none =>
    obtain ⟨-, hroom | hdefined⟩ | hdefined := h
    · exact ⟨_, if_pos hroom⟩
    · exact absurd (lookup_none _) hdefined
    · exact absurd (lookup_none _) hdefined
  | some es =>
    rw [put]
    split_ifs <;> exact ⟨_, rfl⟩

/-- **When `my_setenv` sets exactly its variable.** -/
theorem my_setenv_sets_iff (block : Block) (room : Bool) {name : CString} (value : CString)
    (replace : ℤ) (environ : Environ) (hname : equals ∉ name.val) :
    (∃ r, my_setenv (some block) room name value replace environ = some r ∧
        Sets name value replace environ r.2) ↔
      SetsWhen block.mem room name value replace environ := by
  constructor
  · rintro ⟨r, hr, hsets⟩
    have hfits := fits_of_my_setenv hr
    rw [my_setenv_of_fits block hfits] at hr
    refine ⟨hfits, fun hputs => (sets_iff_of_puts hname hputs hr).1 hsets, fun hskips => ?_⟩
    rw [put_of_skips hskips] at hr
    cases hr
    exact (sets_iff_of_skips hname hskips).1 hsets
  · rintro ⟨hfits, hputs, hskips⟩
    rw [my_setenv_of_fits block hfits]
    by_cases hP : Puts name replace environ
    · obtain ⟨r, hr⟩ : ∃ r,
          put room name replace (entry block.mem name value) environ = some r := by
        refine exists_put ((hputs hP).imp And.right fun hvalue => ?_)
        rw [hvalue.1]
        exact Option.some_ne_none _
      exact ⟨r, hr, (sets_iff_of_puts hname hP hr).2 (hputs hP)⟩
    · exact ⟨_, put_of_skips hP _, (sets_iff_of_skips hname hP).2 (hskips hP)⟩

/-- A block that starts with a null byte and is used otherwise. -/
def Block.used : Block where
  mem := 0 :: List.replicate 4095 120
  length_mem := by
    rw [List.length_cons, List.length_replicate]
    rfl

theorem cstr_used : cstr Block.used.mem = [] := rfl

/-- The variable `n`. -/
def varN : CString := ⟨[110], by decide⟩

/-- `m=2` and `n=3`. -/
def twoVariables : Environ := some [⟨[109, 61, 50], by decide⟩, ⟨[110, 61, 51], by decide⟩]

/-- The variable `n` is replaced, and `m` stays. -/
theorem my_setenv_sets_two :
    ∃ r, my_setenv (some Block.used) true varN ⟨[49], by decide⟩ 1 twoVariables = some r ∧
      Sets varN ⟨[49], by decide⟩ 1 twoVariables r.2 ∧
      lookup r.2 varN = some [49] ∧ lookup r.2 ⟨[109], by decide⟩ = some [50] := by
  have hname : equals ∉ varN.val := by decide
  obtain ⟨r, hr, hsets⟩ :=
    (my_setenv_sets_iff Block.used true ⟨[49], by decide⟩ 1 twoVariables hname).2
      { fits := by rw [cstr_used]; decide
        puts := fun _ => .inl ⟨cstr_used, settable_entry hname cstr_used (by decide)⟩
        skips := fun hskips => absurd (.inr rfl) hskips }
  refine ⟨r, hr, hsets, ?_, ?_⟩
  · rw [hsets _ hname]
    decide
  · rw [hsets _ (by decide)]
    decide

/-- A block of null bytes. -/
def Block.zero : Block := ⟨List.replicate MAXLINE 0, List.length_replicate⟩

theorem cstr_zero : cstr Block.zero.mem = [] := by
  simp [cstr, Block.zero]

/-- A defined variable keeps its value when `replace` is two. -/
theorem not_sets_two :
    ¬ ∃ r, my_setenv (some Block.zero) true ⟨[110], by decide⟩ ⟨[49], by decide⟩ 2
        (some [⟨[110, 61, 50], by decide⟩]) = some r ∧
      Sets ⟨[110], by decide⟩ ⟨[49], by decide⟩ 2 (some [⟨[110, 61, 50], by decide⟩]) r.2 := by
  rintro ⟨r, hr, hsets⟩
  rw [my_setenv_of_fits Block.zero (by rw [cstr_zero]; decide), put_of_skips (by decide)] at hr
  cases hr
  exact absurd ((sets_iff_of_skips (by decide) (by decide)).1 hsets) (by decide)

end TlpiLearn.SetEnv
