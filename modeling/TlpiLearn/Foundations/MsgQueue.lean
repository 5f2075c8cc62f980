import Mathlib.Tactic

/-!
# Message queues with types

The queue behind `msgsnd` and `msgrcv`: messages carry a type, a send appends at the tail (and
blocks while a bounded queue is full), and a receive takes the first message of the wanted type
(and blocks while there is none). `msgrcv_eq_some` says what a receive does to the queue.

A sender often ends a stream of messages with one of another kind. A receiver that has taken
messages up to the first one of another kind has then taken the whole stream
(`eq_of_prefix_terminated`).
-/

namespace TlpiLearn

/-- A message: its type (`mtype`) and its body. -/
structure Msg (β : Type*) where
  mtype : ℤ
  body : β
  deriving DecidableEq, Repr

namespace Msg

variable {β : Type*}

/-- The messages that `msgrcv` with a nonnegative `msgtyp` takes: any for `0`, otherwise those of
that type. -/
def Wanted (msgtyp : ℤ) (m : Msg β) : Prop := msgtyp = 0 ∨ m.mtype = msgtyp

instance (msgtyp : ℤ) (m : Msg β) : Decidable (m.Wanted msgtyp) :=
  inferInstanceAs (Decidable (_ ∨ _))

end Msg

variable {β : Type*}

/-- A queue of `n` messages is full; `none` is a queue without a limit. -/
def QueueFull (cap : Option ℕ) (n : ℕ) : Prop := ∃ c ∈ cap, c ≤ n

instance (cap : Option ℕ) (n : ℕ) : Decidable (QueueFull cap n) :=
  match cap with
  | none => isFalse (by rintro ⟨c, hc, -⟩; cases hc)
  | some c => decidable_of_iff (c ≤ n) (by simp [QueueFull])

@[simp] theorem queueFull_none (n : ℕ) : ¬ QueueFull none n := by rintro ⟨c, hc, -⟩; cases hc

@[simp] theorem queueFull_some (c n : ℕ) : QueueFull (some c) n ↔ c ≤ n := by simp [QueueFull]

/-- `msgsnd`: the message goes to the tail; `none` while the call blocks. -/
def msgsnd (cap : Option ℕ) (m : Msg β) (q : List (Msg β)) : Option (List (Msg β)) :=
  if QueueFull cap q.length then none else some (q ++ [m])

/-- `msgrcv`: the first wanted message and the rest of the queue; `none` while the call blocks. -/
def msgrcv (msgtyp : ℤ) : List (Msg β) → Option (Msg β × List (Msg β))
  | [] => none
  | m :: q =>
    if m.Wanted msgtyp then some (m, q) else (msgrcv msgtyp q).map fun r => (r.1, m :: r.2)

theorem msgsnd_eq_some {cap : Option ℕ} {m : Msg β} {q q' : List (Msg β)} :
    msgsnd cap m q = some q' ↔ ¬ QueueFull cap q.length ∧ q' = q ++ [m] := by
  unfold msgsnd
  split <;> simp_all [eq_comm]

/-- A step that sends a message. -/
theorem map_msgsnd_eq_some {σ : Type*} {cap : Option ℕ} {m : Msg β} {q : List (Msg β)}
    {f : List (Msg β) → σ} {t : σ} :
    (msgsnd cap m q).map f = some t ↔ ¬ QueueFull cap q.length ∧ t = f (q ++ [m]) := by
  rw [Option.map_eq_some_iff]
  constructor
  · rintro ⟨q', hq', rfl⟩
    obtain ⟨hfull, rfl⟩ := msgsnd_eq_some.1 hq'
    exact ⟨hfull, rfl⟩
  · rintro ⟨hfull, rfl⟩
    exact ⟨_, msgsnd_eq_some.2 ⟨hfull, rfl⟩, rfl⟩

/-- **What a receive does**: it takes a wanted message out of the queue, which no wanted message
stands before, and leaves the rest in order. -/
theorem msgrcv_eq_some {msgtyp : ℤ} {q q' : List (Msg β)} {m : Msg β}
    (h : msgrcv msgtyp q = some (m, q')) :
    m.Wanted msgtyp ∧ ∃ l r, q = l ++ m :: r ∧ q' = l ++ r ∧ ∀ x ∈ l, ¬ x.Wanted msgtyp := by
  induction q generalizing q' with
  | nil => cases h
  | cons x q ih =>
    unfold msgrcv at h
    split at h
    · rename_i hx
      obtain ⟨rfl, rfl⟩ := Prod.mk.inj (Option.some.inj h)
      exact ⟨hx, [], q, rfl, rfl, by simp⟩
    · rename_i hx
      obtain ⟨⟨m', q''⟩, hr, he⟩ := Option.map_eq_some_iff.mp h
      obtain ⟨rfl, rfl⟩ := Prod.mk.inj he
      obtain ⟨hm, l, r, rfl, rfl, hl⟩ := ih hr
      refine ⟨hm, x :: l, r, rfl, rfl, fun y hy => ?_⟩
      rcases List.mem_cons.mp hy with rfl | hy
      · exact hx
      · exact hl y hy

/-- A receive blocks exactly while no wanted message is queued. -/
theorem msgrcv_eq_none {msgtyp : ℤ} {q : List (Msg β)} :
    msgrcv msgtyp q = none ↔ ∀ m ∈ q, ¬ m.Wanted msgtyp := by
  induction q with
  | nil => simp [msgrcv]
  | cons x q ih =>
    unfold msgrcv
    split
    · rename_i hx
      simp only [reduceCtorEq, false_iff]
      exact fun h => h x List.mem_cons_self hx
    · rename_i hx
      simp [ih, hx]

/-- A receive of any type takes the message at the head. -/
theorem msgrcv_zero_eq_some {q q' : List (Msg β)} {m : Msg β} :
    msgrcv 0 q = some (m, q') ↔ q = m :: q' := by
  cases q with
  | nil => simp [msgrcv]
  | cons x q =>
    have hx : x.Wanted 0 := .inl rfl
    rw [msgrcv, if_pos hx, Option.some.injEq, Prod.mk.injEq, List.cons.injEq]

/-- A step that takes the message at the head. -/
theorem map_msgrcv_zero_eq_some {σ : Type*} {q : List (Msg β)} {f : Msg β × List (Msg β) → σ}
    {t : σ} : (msgrcv 0 q).map f = some t ↔ ∃ m q', q = m :: q' ∧ t = f (m, q') := by
  rw [Option.map_eq_some_iff]
  constructor
  · rintro ⟨⟨m, q'⟩, hr, rfl⟩
    exact ⟨m, q', msgrcv_zero_eq_some.1 hr, rfl⟩
  · rintro ⟨m, q', hq, rfl⟩
    exact ⟨(m, q'), msgrcv_zero_eq_some.2 hq, rfl⟩

/-- A receiver that has come to the first message without `p` has taken the whole of a stream that
ends with such a message. -/
theorem eq_of_prefix_terminated {α : Type*} {p : α → Prop} {l ds tail : List α} {m : α}
    (hl : ∀ x ∈ l, p x) (hm : ¬ p m) (hds : ∀ d ∈ ds, p d) (htail : tail.length ≤ 1)
    (h : l ++ [m] <+: ds ++ tail) : l = ds ∧ tail = [m] := by
  induction l generalizing ds with
  | nil =>
    cases ds with
    | nil =>
      rcases h with ⟨r, rfl⟩
      cases r with
      | nil => exact ⟨rfl, rfl⟩
      | cons x r => simp at htail
    | cons d ds =>
      have hd := (List.cons_prefix_cons.1 h).1
      exact absurd (hds d List.mem_cons_self) (hd ▸ hm)
  | cons x l ih =>
    cases ds with
    | nil =>
      have hlen := h.length_le
      simp only [List.length_append, List.length_cons, List.nil_append] at hlen
      omega
    | cons d ds =>
      rw [List.cons_append, List.cons_append, List.cons_prefix_cons] at h
      rcases ih (fun y hy => hl y (List.mem_cons_of_mem _ hy))
        (fun y hy => hds y (List.mem_cons_of_mem _ hy)) h.2 with ⟨rfl, htail⟩
      exact ⟨congrArg (· :: l) h.1, htail⟩

end TlpiLearn
