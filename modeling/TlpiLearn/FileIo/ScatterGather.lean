import TlpiLearn.Foundations.Overlay
import TlpiLearn.Foundations.Transfers
import Mathlib.Tactic

/-!
# Scatter input and gather output

`myreadv` and `mywritev` of `5_7.c`. A `read` transfers at most one piece of what arrives, and the
result of every `write` is given, so that both can be short and both can fail.

`myreadv` reads each piece to the start of its buffer, and it goes on with the same buffer until a
`read` returns 0, which is also what a `read` into a full buffer returns. `mywritev` returns −1 for
every incomplete `write`, whatever has been written up to then.
-/

namespace TlpiLearn.ScatterGather

/-- What arrives at the input: bytes that one `read` can return, or a failure. -/
inductive Arrival
  | data (bs : List UInt8)
  | failed
  deriving DecidableEq, Repr

/-- `read(fd, buf, n)`: the bytes that it transfers, unless it fails, and what is left. -/
def read : List Arrival → ℕ → Option (List UInt8) × List Arrival
  | [], _ => (some [], [])
  | p :: ps, 0 => (some [], p :: ps)
  | .failed :: ps, _ + 1 => (none, ps)
  | .data bs :: ps, n + 1 =>
    if bs.length ≤ n + 1 then (some bs, ps)
    else (some (bs.take (n + 1)), .data (bs.drop (n + 1)) :: ps)

/-- The variables of `myreadv`, with the contents of one buffer, behind its inner loop. -/
structure Filled where
  n : ℤ
  total_read : ℤ
  buf : List UInt8
  input : List Arrival
  deriving DecidableEq, Repr

/-- The inner loop of `myreadv`. -/
def fillLoop : ℕ → List Arrival → List UInt8 → ℤ → ℤ → Option Filled
  | 0, _, _, _, _ => none
  | fuel + 1, input, buf, rest_buffer, total_read =>
    match read input rest_buffer.toNat with
    | (none, input) => some { n := -1, total_read, buf, input }
    | (some [], input) => some { n := 0, total_read, buf, input }
    | (some (b :: bs), input) =>
      let n : ℤ := (b :: bs).length
      if rest_buffer - n < 0 then
        some { n, total_read := total_read + n, buf := overlay buf (b :: bs), input }
      else fillLoop fuel input (overlay buf (b :: bs)) (rest_buffer - n) (total_read + n)

/-- The loop of `myreadv` over the buffers: its return value and the contents of the buffers. A
buffer is filled in at most as many steps as it has bytes, and one more. -/
def readvLoop : List (List UInt8) → List Arrival → ℤ → Option (ℤ × List (List UInt8))
  | [], _, total_read => some (total_read, [])
  | buf :: iovec, input, total_read =>
    match fillLoop (buf.length + 1) input buf buf.length total_read with
    | none => none
    | some s =>
      if s.n < 0 then some (-1, s.buf :: iovec)
      else if s.n = 0 then some (s.total_read, s.buf :: iovec)
      else (readvLoop iovec s.input s.total_read).map fun r => (r.1, s.buf :: r.2)

/-- `myreadv`. -/
def myreadv (input : List Arrival) (iovec : List (List UInt8)) : Option (ℤ × List (List UInt8)) :=
  readvLoop iovec input 0

/-- The loop of `mywritev`: its return value and what has been written. -/
def writevLoop (outcome : ℕ → Option ℕ) : ℕ → List (List UInt8) → List UInt8 → ℤ →
    ℤ × List UInt8
  | _, [], out, total_write => (total_write, out)
  | i, buf :: iovec, out, total_write =>
    let r := writeUpTo (outcome i) buf
    if r.1 ≠ buf.length then (-1, out ++ r.2)
    else writevLoop outcome (i + 1) iovec (out ++ r.2) (total_write + buf.length)

/-- `mywritev`. -/
def mywritev (outcome : ℕ → Option ℕ) (iovec : List (List UInt8)) : ℤ × List UInt8 :=
  writevLoop outcome 0 iovec [] 0

/-! ## What the functions should do -/

/-- **Scatter input**: the buffers keep their lengths and get, one behind the other, as many bytes
of the stream as there are and as there is space for, and their number is returned. -/
def Scatters (stream : List UInt8) (iovec : List (List UInt8)) (r : ℤ × List (List UInt8)) : Prop :=
  r.1 = min iovec.flatten.length stream.length ∧
    r.2.map List.length = iovec.map List.length ∧
    stream.take (min iovec.flatten.length stream.length) <+: r.2.flatten

/-- The pieces up to a number of bytes. -/
def cut : ℕ → List (List UInt8) → List (List UInt8)
  | _, [] => []
  | n, p :: ps => p.take n :: cut (n - p.length) ps

/-- **The condition** on the buffers and the pieces: the first buffer has space for all that the
buffers could get, and at each of its positions the last piece that has it has the byte of the
stream, or no piece has it and the buffer had that byte before. -/
def FirstSuffices (pieces : List (List UInt8)) : List (List UInt8) → Prop
  | [] => True
  | buf :: iovec =>
    (pieces.flatten.length ≤ buf.length ∨ iovec.flatten = []) ∧
      (∀ p i, LastAt (cut buf.length pieces) p i → p[i]? = pieces.flatten[i]?) ∧
      ∀ i < min buf.length pieces.flatten.length,
        (∀ p ∈ cut buf.length pieces, p.length ≤ i) → buf[i]? = pieces.flatten[i]?

/-- **Gather output**: the return value says how much has been written. -/
def Accounts (iovec : List (List UInt8)) (r : ℤ × List UInt8) : Prop :=
  (0 ≤ r.1 → (r.2.length : ℤ) = r.1 ∧ r.2 <+: iovec.flatten) ∧ (r.1 = -1 → r.2 = [])

/-- **The condition** on the buffers and the results of the writes: neither the first incomplete
`write` nor one in front of it has transferred anything. -/
def NothingLost (outcome : ℕ → Option ℕ) (iovec : List (List UInt8)) : Prop :=
  ∀ i buf, iovec[i]? = some buf →
    (∀ j < i, ∀ b, iovec[j]? = some b → Complete (outcome j) b) → ¬ Complete (outcome i) buf →
      (iovec.take i).flatten = [] ∧ (writeUpTo (outcome i) buf).2 = []

variable {pieces : List (List UInt8)}

/-! ## One buffer -/

theorem overlays_cut_zero (buf : List UInt8) (pieces : List (List UInt8)) :
    overlays buf (cut 0 pieces) = buf := by
  induction pieces with
  | nil => rfl
  | cons p ps ih => rw [cut, List.take_zero, Nat.zero_sub, overlays_cons, overlay]; exact ih

/-- The pieces that are cut off make up the start of the stream. -/
theorem flatten_cut (n : ℕ) (pieces : List (List UInt8)) :
    (cut n pieces).flatten = pieces.flatten.take n := by
  induction pieces generalizing n with
  | nil => rw [cut, List.flatten_nil, List.take_nil]
  | cons p ps ih => rw [cut, List.flatten_cons, List.flatten_cons, ih, List.take_append]

/-- A `read` of a piece that fits. -/
theorem read_data_of_le {p : List UInt8} {n : ℕ} (hn : n ≠ 0) (hp : p.length ≤ n)
    (ps : List Arrival) : read (.data p :: ps) n = (some p, ps) := by
  obtain ⟨n, rfl⟩ := Nat.exists_eq_add_one_of_ne_zero hn
  rw [read, if_pos hp]

/-- A `read` of a piece that does not fit. -/
theorem read_data_of_lt {p : List UInt8} {n : ℕ} (hn : n ≠ 0) (hp : n < p.length)
    (ps : List Arrival) : read (.data p :: ps) n = (some (p.take n), .data (p.drop n) :: ps) := by
  obtain ⟨n, rfl⟩ := Nat.exists_eq_add_one_of_ne_zero hn
  rw [read, if_neg hp.not_ge]

/-- One more pass of the inner loop. -/
theorem fillLoop_of_read {bs : List UInt8} {input input' : List Arrival} {rest : ℕ}
    (hread : read input rest = (some bs, input')) (hne : bs ≠ []) (hle : bs.length ≤ rest)
    (fuel : ℕ) (buf : List UInt8) (total : ℤ) :
    fillLoop (fuel + 1) input buf rest total =
      fillLoop fuel input' (overlay buf bs) ↑(rest - bs.length) (total + bs.length) := by
  obtain ⟨b, bs, rfl⟩ := List.exists_cons_of_ne_nil hne
  have hrest : ((rest - (b :: bs).length : ℕ) : ℤ) = rest - (b :: bs).length := by omega
  have hneg : ¬ (rest : ℤ) - (b :: bs).length < 0 := by omega
  rw [fillLoop, Int.toNat_natCast, hread, hrest]
  exact if_neg hneg

/-- A full buffer: the next `read` returns 0. -/
theorem fillLoop_full (fuel : ℕ) (input : List Arrival) (buf : List UInt8) (total : ℤ) :
    fillLoop (fuel + 1) input buf 0 total =
      some { n := 0, total_read := total, buf := buf, input := input } := by
  cases input with
  | nil => rfl
  | cons p ps => rfl

/-- **The inner loop** writes piece after piece to the start of the buffer, and ends with `n` zero
when the buffer is full or the stream at its end. -/
theorem fillLoop_data (hpieces : [] ∉ pieces) {fuel rest : ℕ} (hfuel : rest < fuel)
    (buf : List UInt8) (total : ℤ) :
    ∃ input, fillLoop fuel (pieces.map .data) buf rest total =
      some { n := 0
             total_read := total + (min rest pieces.flatten.length : ℕ)
             buf := overlays buf (cut rest pieces)
             input := input } := by
  induction fuel generalizing pieces rest buf total with
  | zero => exact absurd hfuel (Nat.not_lt_zero _)
  | succ fuel ih =>
    cases pieces with
    | nil => exact ⟨[], by simp [fillLoop, read, cut]⟩
    | cons p ps =>
      obtain ⟨hp, hps⟩ := not_or.1 (List.mem_cons.not.1 hpieces)
      rw [List.map_cons, cut, List.flatten_cons, List.length_append, overlays_cons]
      by_cases hrest : rest = 0
      · refine ⟨.data p :: ps.map .data, ?_⟩
        rw [hrest, Nat.cast_zero, fillLoop_full, List.take_zero, Nat.zero_sub, overlays_cut_zero,
          Nat.zero_min, Nat.cast_zero, add_zero]
        rfl
      · by_cases hle : p.length ≤ rest
        · -- the whole piece goes into the buffer
          have hlen : 0 < p.length := List.length_pos_of_ne_nil (Ne.symm hp)
          obtain ⟨input, hloop⟩ :=
            ih hps (by omega : rest - p.length < fuel) (overlay buf p) (total + p.length)
          refine ⟨input, ?_⟩
          rw [fillLoop_of_read (read_data_of_le hrest hle _) (Ne.symm hp) hle, hloop,
            List.take_of_length_le hle]
          congr 2
          omega
        · -- the piece fills the buffer
          have hlt : rest < p.length := not_le.1 hle
          have htake : (p.take rest).length = rest := List.length_take_of_le hlt.le
          have hne : p.take rest ≠ [] := by
            rw [← List.length_pos_iff, htake]
            omega
          obtain ⟨fuel, rfl⟩ := Nat.exists_eq_add_one_of_ne_zero (by omega : fuel ≠ 0)
          refine ⟨.data (p.drop rest) :: ps.map .data, ?_⟩
          rw [fillLoop_of_read (read_data_of_lt hrest hlt _) hne htake.le, htake, Nat.sub_self,
            Nat.cast_zero, fillLoop_full, Nat.sub_eq_zero_of_le hlt.le, overlays_cut_zero,
            min_eq_left (by omega)]

theorem length_le_of_mem_cut {n : ℕ} {w : List UInt8} (hw : w ∈ cut n pieces) :
    w.length ≤ (pieces.flatten.take n).length := by
  rw [← flatten_cut]
  exact (List.sublist_flatten_of_mem hw).length_le

/-- **The text at the start of the first buffer** behind the loop. -/
theorem take_prefix_overlays_iff (buf : List UInt8) (pieces : List (List UInt8)) :
    pieces.flatten.take buf.length <+: overlays buf (cut buf.length pieces) ↔
      (∀ p i, LastAt (cut buf.length pieces) p i → p[i]? = pieces.flatten[i]?) ∧
        ∀ i < min buf.length pieces.flatten.length,
          (∀ p ∈ cut buf.length pieces, p.length ≤ i) → buf[i]? = pieces.flatten[i]? := by
  have htake {i : ℕ} (hi : i < (pieces.flatten.take buf.length).length) :
      (pieces.flatten.take buf.length)[i]? = pieces.flatten[i]? := by
    rw [List.length_take] at hi
    exact List.getElem?_take_of_lt (lt_of_lt_of_le hi (min_le_left _ _))
  rw [prefix_overlays_iff, List.length_take]
  refine and_congr ?_ ?_
  · refine forall_congr' fun p => forall_congr' fun i => forall_congr' fun hlast => ?_
    have hi : i < (pieces.flatten.take buf.length).length := by
      obtain ⟨pre, post, hcut, hip, -⟩ := hlast
      have hp : p ∈ cut buf.length pieces := by
        rw [hcut]
        simp
      exact lt_of_lt_of_le hip (length_le_of_mem_cut hp)
    rw [htake hi, ← List.length_take, forall_prop_of_true hi]
  · refine forall_congr' fun i => forall_congr' fun hi => forall_congr' fun _ => ?_
    rw [htake (by rwa [List.length_take])]

/-! ## All buffers -/

/-- **`myreadv`** stops behind the first buffer. -/
theorem myreadv_cons (hpieces : [] ∉ pieces) (buf : List UInt8) (iovec : List (List UInt8)) :
    myreadv (pieces.map .data) (buf :: iovec) =
      some (((min buf.length pieces.flatten.length : ℕ) : ℤ),
        overlays buf (cut buf.length pieces) :: iovec) := by
  have hfill := fillLoop_data hpieces (Nat.lt_succ_self buf.length) buf 0
  obtain ⟨input, hfill⟩ := hfill
  rw [myreadv, readvLoop, hfill]
  simp

/-- **`myreadv` scatters its input exactly if the first buffer suffices.** -/
theorem myreadv_scatters_iff (hpieces : [] ∉ pieces) (iovec : List (List UInt8)) :
    (∃ r, myreadv (pieces.map .data) iovec = some r ∧ Scatters pieces.flatten iovec r) ↔
      FirstSuffices pieces iovec := by
  cases iovec with
  | nil => simp [myreadv, readvLoop, Scatters, FirstSuffices]
  | cons buf iovec =>
    have hlen : (overlays buf (cut buf.length pieces)).length = buf.length := by
      refine length_overlays fun p hp => (length_le_of_mem_cut hp).trans ?_
      exact List.length_take_le _ _
    rw [FirstSuffices, ← take_prefix_overlays_iff, myreadv_cons hpieces]
    simp only [Option.some.injEq, exists_eq_left', Scatters, List.flatten_cons, List.map_cons,
      List.length_append, hlen, true_and]
    have hmin : min buf.length pieces.flatten.length =
        min (buf.length + iovec.flatten.length) pieces.flatten.length ↔
          pieces.flatten.length ≤ buf.length ∨ iovec.flatten = [] := by
      rw [← List.length_eq_zero_iff]
      omega
    rw [Nat.cast_inj, ← hmin]
    refine and_congr_right fun heq => ?_
    -- the text is in the first buffer alone
    rw [← heq, ← List.take_eq_take_min]
    constructor
    · intro hpre
      refine List.prefix_of_prefix_length_le hpre (List.prefix_append _ _) ?_
      rw [hlen]
      exact List.length_take_le _ _
    · exact fun hpre => hpre.trans (List.prefix_append _ _)

/-- A stream that arrives at once and has space in the first buffer. -/
theorem firstSuffices_single {p buf : List UInt8} (hp : p.length ≤ buf.length)
    (iovec : List (List UInt8)) : FirstSuffices [p] (buf :: iovec) := by
  rw [FirstSuffices, ← take_prefix_overlays_iff]
  refine ⟨Or.inl ?_, ?_⟩
  · rwa [List.flatten_singleton]
  · rw [List.flatten_singleton, cut, List.take_of_length_le hp]
    exact List.prefix_append _ _

/-- Three pieces for two buffers of two bytes: only the first buffer is used, with the second piece
in the place of the first one. -/
theorem not_scatters_two :
    myreadv [.data [1], .data [2], .data [3]] [[0, 0], [0, 0]] = some (2, [[2, 0], [0, 0]]) ∧
      ¬ ∃ r, myreadv [.data [1], .data [2], .data [3]] [[0, 0], [0, 0]] = some r ∧
        Scatters [1, 2, 3] [[0, 0], [0, 0]] r := by
  have hrun : myreadv [.data [1], .data [2], .data [3]] [[0, 0], [0, 0]] =
      some (2, [[2, 0], [0, 0]]) := by decide
  refine ⟨hrun, ?_⟩
  rintro ⟨r, hr, hret, -⟩
  rw [hrun] at hr
  cases hr
  exact absurd hret (by decide)

/-- One piece for a buffer that has space for it is scattered, and two pieces are not. -/
theorem myreadv_scatters_iff_pieces :
    (∃ r, myreadv ([[1, 2]].map .data) [[0, 0], []] = some r ∧
      Scatters [[1, 2]].flatten [[0, 0], []] r) ∧
    ¬ ∃ r, myreadv ([[1], [2]].map .data) [[0, 0]] = some r ∧
      Scatters [[1], [2]].flatten [[0, 0]] r := by
  have hone : FirstSuffices [[1, 2]] [[0, 0], []] := firstSuffices_single (by decide) _
  have htwo : ¬ FirstSuffices [[1], [2]] [[0, 0]] := by
    rintro ⟨-, hlast, -⟩
    have hzero := hlast [2] 0 ⟨[[1]], [], rfl, by decide, by simp⟩
    exact absurd hzero (by decide)
  exact ⟨(myreadv_scatters_iff (by decide) _).2 hone,
    fun h => htwo ((myreadv_scatters_iff (by decide) _).1 h)⟩

/-! ## Gather output -/

/-- **The loop of `mywritev`** goes through to the end, or up to the first incomplete `write`. -/
theorem writevLoop_eq (outcome : ℕ → Option ℕ) (i : ℕ) (iovec : List (List UInt8))
    (out : List UInt8) (total : ℤ) :
    ((∀ j b, iovec[j]? = some b → Complete (outcome (i + j)) b) ∧
      writevLoop outcome i iovec out total =
        (total + iovec.flatten.length, out ++ iovec.flatten)) ∨
    ∃ k buf, iovec[k]? = some buf ∧
      (∀ j < k, ∀ b, iovec[j]? = some b → Complete (outcome (i + j)) b) ∧
      ¬ Complete (outcome (i + k)) buf ∧
      writevLoop outcome i iovec out total =
        (-1, out ++ (iovec.take k).flatten ++ (writeUpTo (outcome (i + k)) buf).2) := by
  induction iovec generalizing i out total with
  | nil => exact Or.inl ⟨by simp, by simp [writevLoop]⟩
  | cons buf iovec ih =>
    by_cases hbuf : Complete (outcome i) buf
    · have hstep : writevLoop outcome i (buf :: iovec) out total =
          writevLoop outcome (i + 1) iovec (out ++ buf) (total + buf.length) := by
        rw [writevLoop, hbuf.snd_writeUpTo]
        exact if_neg (not_not.2 hbuf)
      have hshift (j : ℕ) : i + 1 + j = i + (j + 1) := by omega
      have hrest := ih (i + 1) (out ++ buf) (total + buf.length)
      simp only [hshift] at hrest
      rw [hstep]
      obtain ⟨hall, hrun⟩ | ⟨k, b, hk, hbefore, hb, hrun⟩ := hrest
      · refine Or.inl ⟨?_, ?_⟩
        · rintro (_ | j) b hb
          · cases hb
            exact hbuf
          · exact hall j b hb
        · rw [hrun, List.flatten_cons, List.length_append, List.append_assoc, Nat.cast_add,
            add_assoc]
      · refine Or.inr ⟨k + 1, b, hk, ?_, hb, ?_⟩
        · rintro (_ | j) hj b hb
          · cases hb
            exact hbuf
          · exact hbefore j (Nat.lt_of_succ_lt_succ hj) b hb
        · rw [hrun, List.take_succ_cons, List.flatten_cons, ← List.append_assoc]
    · refine Or.inr ⟨0, buf, rfl, fun j hj => absurd hj (Nat.not_lt_zero j), hbuf, ?_⟩
      rw [writevLoop]
      simp only [List.take_zero, List.flatten_nil, List.append_nil]
      exact if_pos hbuf

/-- **`mywritev` accounts for what it writes exactly if nothing is lost** where it returns −1. -/
theorem mywritev_accounts_iff (outcome : ℕ → Option ℕ) (iovec : List (List UInt8)) :
    Accounts iovec (mywritev outcome iovec) ↔ NothingLost outcome iovec := by
  have heq := writevLoop_eq outcome 0 iovec [] 0
  simp only [Nat.zero_add, List.nil_append] at heq
  obtain ⟨hall, hrun⟩ | ⟨i, buf, hi, hbefore, hbuf, hrun⟩ := heq
  · have haccounts : Accounts iovec (mywritev outcome iovec) := by
      rw [mywritev, hrun, zero_add]
      exact ⟨fun _ => ⟨rfl, List.prefix_rfl⟩, fun hneg => by omega⟩
    exact iff_of_true haccounts fun i buf hi _ hbuf => absurd (hall i buf hi) hbuf
  · have haccounts : Accounts iovec (mywritev outcome iovec) ↔
        (iovec.take i).flatten = [] ∧ (writeUpTo (outcome i) buf).2 = [] := by
      rw [mywritev, hrun, Accounts, ← List.append_eq_nil_iff]
      simp
    rw [haccounts]
    constructor
    · -- the first incomplete `write` is the only one that the condition is about
      intro hnil k b hk hbeforek hb
      obtain hlt | rfl | hgt := lt_trichotomy k i
      · exact absurd (hbefore k hlt b hk) hb
      · rw [hi, Option.some.injEq] at hk
        exact hk ▸ hnil
      · exact absurd (hbeforek i hgt buf hi) hbuf
    · exact fun h => h i buf hi hbefore hbuf

/-- A second `write` that fails behind a first one: the bytes of the first one are lost. -/
theorem not_accounts_second_fails :
    mywritev (fun i => if i = 0 then some 1 else none) [[1], [2]] = (-1, [1]) ∧
      ¬ Accounts [[1], [2]] (mywritev (fun i => if i = 0 then some 1 else none) [[1], [2]]) := by
  refine ⟨rfl, fun h => ?_⟩
  exact absurd (h.2 rfl) (List.cons_ne_nil 1 [])

end TlpiLearn.ScatterGather
