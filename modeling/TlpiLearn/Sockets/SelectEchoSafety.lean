import TlpiLearn.Sockets.SelectEcho
import TlpiLearn.Foundations.Outcome
import Mathlib.Tactic

/-!
# What the echo server with `select` keeps

The invariant of the loop (`Inv`) ties the table to the kernel: its entries are distinct open
connections below `nfds`, and the bits that are still in `rfdset` from the last pass are of open
descriptors, so that the set can be used again without being cleared. A pass keeps it
(`pass_eq`) and handles exactly what `select` reported: when the count of ready descriptors runs
out after the accept or the datagram branch, nothing else was reported.

This holds as long as every descriptor fits an `fd_set`. `MAX_CONN_FD` lets the table grow beyond
that: `rounds_good` is about the runs in which `accept` returns descriptors below `FD_SETSIZE`, and
`large_descriptor_faults` is a run that leaves the set.
-/

namespace TlpiLearn.SelectEcho

/-- The invariant at the top of the loop. -/
structure Inv (lfd dfd : ℕ) (s : Server) : Prop where
  isOpen : ∀ i fd, s.connFds i = some fd → (s.conn fd).isSome
  listed : ∀ fd, (s.conn fd).isSome → ∃ i, s.connFds i = some fd
  distinct : ∀ i j fd, s.connFds i = some fd → s.connFds j = some fd → i = j
  ne : ∀ i fd, s.connFds i = some fd → fd ≠ lfd ∧ fd ≠ dfd
  lt_nfds : ∀ i fd, s.connFds i = some fd → fd < s.nfds
  listening : lfd < s.nfds ∧ dfd < s.nfds
  range : ∀ i fd, s.connFds i = some fd → fd < FD_SETSIZE
  bits : ∀ fd ∈ s.rfdset, fd = lfd ∨ fd = dfd ∨ ∃ i, s.connFds i = some fd
  numbered : ∀ fd c, s.conn fd = some c → c < s.accepted
  separate : ∀ fd fd' c, s.conn fd = some c → s.conn fd' = some c → fd = fd'
  echoed : s.written = s.received
  datagrams : s.datagramsOut = s.datagramsIn

variable {lfd dfd : ℕ} {s : Server}

theorem inv_start (lfd dfd : ℕ) : Inv lfd dfd (start lfd dfd) := by
  constructor <;> simp [start]

/-! ## The macros -/

theorem fdSet_eq {fd : ℕ} (h : fd < FD_SETSIZE) (set : Finset ℕ) :
    fdSet fd set = .ok (insert fd set) := if_pos h

theorem fdIsSet_eq {fd : ℕ} (h : fd < FD_SETSIZE) (set : Finset ℕ) :
    fdIsSet fd set = .ok (decide (fd ∈ set)) := if_pos h

theorem foldlM_setConn {connFds : Fin MAX_CONN_FD → Option ℕ}
    (h : ∀ i fd, connFds i = some fd → fd < FD_SETSIZE) (l : List (Fin MAX_CONN_FD))
    (set : Finset ℕ) :
    ∃ set', l.foldlM (setConn connFds) set = .ok set' ∧
      ∀ fd, fd ∈ set' ↔ fd ∈ set ∨ ∃ i ∈ l, connFds i = some fd := by
  induction l generalizing set with
  | nil => exact ⟨set, rfl, by simp⟩
  | cons i l ih =>
    cases hi : connFds i with
    | none =>
      obtain ⟨set', hset', hmem⟩ := ih set
      refine ⟨set', ?_, fun fd => ?_⟩
      · rw [List.foldlM_cons, setConn, hi]
        exact hset'
      · rw [hmem]
        simp [hi]
    | some fd =>
      obtain ⟨set', hset', hmem⟩ := ih (insert fd set)
      refine ⟨set', ?_, fun fd' => ?_⟩
      · rw [List.foldlM_cons, setConn, hi]
        simp only [fdSet_eq (h i fd hi)]
        exact hset'
      · have hhead : connFds i = some fd' ↔ fd' = fd := by
          rw [hi, Option.some.injEq, eq_comm]
        rw [hmem, Finset.mem_insert, List.exists_mem_cons_iff, hhead]
        tauto

/-- The set with the connections of the table put in. -/
theorem setConns_eq {connFds : Fin MAX_CONN_FD → Option ℕ}
    (h : ∀ i fd, connFds i = some fd → fd < FD_SETSIZE) (set : Finset ℕ) :
    ∃ set', setConns connFds set = .ok set' ∧
      ∀ fd, fd ∈ set' ↔ fd ∈ set ∨ ∃ i, connFds i = some fd := by
  obtain ⟨set', hset', hmem⟩ := foldlM_setConn h (List.finRange MAX_CONN_FD) set
  refine ⟨set', hset', fun fd => ?_⟩
  rw [hmem]
  simp only [List.mem_finRange, true_and]

/-! ## The loop over the connections -/

/-- What the body of the loop does at the entry `i`: it handles the descriptor if it is ready and
leaves the other entries and their bits. -/
structure Served (s s' : Server) (i : Fin MAX_CONN_FD) : Prop where
  others : ∀ j, j ≠ i → s'.connFds j = s.connFds j
  bits : ∀ j, j ≠ i → ∀ fd, s.connFds j = some fd → (fd ∈ s'.rfdset ↔ fd ∈ s.rfdset)
  handled : ∀ fd, fd ∈ s'.handled ↔ fd ∈ s.handled ∨ s.connFds i = some fd ∧ fd ∈ s.rfdset
  reported : s'.reported = s.reported

/-- An entry that is empty or not ready is passed over. -/
theorem served_self {i : Fin MAX_CONN_FD} (h : ∀ fd, s.connFds i = some fd → fd ∉ s.rfdset) :
    Served s s i where
  others _ _ := rfl
  bits _ _ _ _ := Iff.rfl
  handled fd := by
    constructor
    · exact .inl
    · rintro (hfd | ⟨hi, hfd⟩)
      · exact hfd
      · exact absurd hfd (h fd hi)
  reported := rfl

/-- The server after a `read` that found the end of the file. -/
def Server.closeConn (s : Server) (i : Fin MAX_CONN_FD) (fd : ℕ) : Server :=
  { s with
    rfdset := s.rfdset.erase fd
    conn := Function.update s.conn fd none
    connFds := Function.update s.connFds i none
    handled := insert fd s.handled }

/-- The server after a `read` of `bs` that was written back. -/
def Server.echo (s : Server) (fd c : ℕ) (bs : List UInt8) : Server :=
  { s with
    received := Function.update s.received c (s.received c ++ bs)
    written := Function.update s.written c (s.written c ++ bs)
    handled := insert fd s.handled }

/-- An entry of the table after the entry `i` was emptied. -/
theorem closeConn_connFds {i j : Fin MAX_CONN_FD} {fd fd' : ℕ} :
    (s.closeConn i fd).connFds j = some fd' ↔ j ≠ i ∧ s.connFds j = some fd' := by
  by_cases hj : j = i
  · subst hj
    simp [Server.closeConn]
  · simp [Server.closeConn, hj]

theorem closeConn_conn {i : Fin MAX_CONN_FD} {fd fd' c : ℕ} :
    (s.closeConn i fd).conn fd' = some c ↔ fd' ≠ fd ∧ s.conn fd' = some c := by
  by_cases hfd : fd' = fd
  · subst hfd
    simp [Server.closeConn]
  · simp [Server.closeConn, hfd]

theorem Inv.closeConn (hs : Inv lfd dfd s) {i : Fin MAX_CONN_FD} {fd : ℕ}
    (hi : s.connFds i = some fd) : Inv lfd dfd (s.closeConn i fd) where
  isOpen j fd' hj := by
    obtain ⟨hji, hj⟩ := closeConn_connFds.1 hj
    obtain ⟨c, hc⟩ := Option.isSome_iff_exists.1 (hs.isOpen j fd' hj)
    have hne : fd' ≠ fd := by
      intro heq
      exact hji (hs.distinct j i fd (heq ▸ hj) hi)
    exact Option.isSome_iff_exists.2 ⟨c, closeConn_conn.2 ⟨hne, hc⟩⟩
  listed fd' hfd' := by
    obtain ⟨c, hc⟩ := Option.isSome_iff_exists.1 hfd'
    obtain ⟨hne, hc⟩ := closeConn_conn.1 hc
    obtain ⟨j, hj⟩ := hs.listed fd' (Option.isSome_iff_exists.2 ⟨c, hc⟩)
    refine ⟨j, closeConn_connFds.2 ⟨?_, hj⟩⟩
    rintro rfl
    exact hne (Option.some.inj (hj.symm.trans hi))
  distinct j k fd' hj hk :=
    hs.distinct j k fd' (closeConn_connFds.1 hj).2 (closeConn_connFds.1 hk).2
  ne j fd' hj := hs.ne j fd' (closeConn_connFds.1 hj).2
  lt_nfds j fd' hj := hs.lt_nfds j fd' (closeConn_connFds.1 hj).2
  listening := hs.listening
  range j fd' hj := hs.range j fd' (closeConn_connFds.1 hj).2
  bits fd' hfd' := by
    obtain ⟨hne, hmem⟩ := Finset.mem_erase.1 hfd'
    obtain h | h | ⟨j, hj⟩ := hs.bits fd' hmem
    · exact .inl h
    · exact .inr (.inl h)
    · refine .inr (.inr ⟨j, closeConn_connFds.2 ⟨?_, hj⟩⟩)
      rintro rfl
      exact hne (Option.some.inj (hj.symm.trans hi))
  numbered fd' c hc := hs.numbered fd' c (closeConn_conn.1 hc).2
  separate fd₁ fd₂ c h₁ h₂ :=
    hs.separate fd₁ fd₂ c (closeConn_conn.1 h₁).2 (closeConn_conn.1 h₂).2
  echoed := hs.echoed
  datagrams := hs.datagrams

theorem Inv.echo (hs : Inv lfd dfd s) (fd c : ℕ) (bs : List UInt8) :
    Inv lfd dfd (s.echo fd c bs) :=
  { hs with
    echoed := by
      change Function.update s.written c (s.written c ++ bs)
        = Function.update s.received c (s.received c ++ bs)
      rw [hs.echoed] }

theorem served_closeConn (hs : Inv lfd dfd s) {i : Fin MAX_CONN_FD} {fd : ℕ}
    (hi : s.connFds i = some fd) (hfd : fd ∈ s.rfdset) : Served s (s.closeConn i fd) i where
  others j hj := Function.update_of_ne hj _ _
  bits j hj fd' hfd' := by
    have hne : fd' ≠ fd := by
      intro heq
      exact hj (hs.distinct j i fd (heq ▸ hfd') hi)
    exact ⟨fun h => (Finset.mem_erase.1 h).2, fun h => Finset.mem_erase.2 ⟨hne, h⟩⟩
  handled fd' := by
    rw [hi, Option.some.injEq]
    simp only [Server.closeConn, Finset.mem_insert]
    constructor
    · rintro (rfl | h)
      · exact .inr ⟨rfl, hfd⟩
      · exact .inl h
    · rintro (h | ⟨rfl, -⟩)
      · exact .inr h
      · exact .inl rfl
  reported := rfl

theorem served_echo {i : Fin MAX_CONN_FD} {fd : ℕ} (hi : s.connFds i = some fd)
    (hfd : fd ∈ s.rfdset) (c : ℕ) (bs : List UInt8) : Served s (s.echo fd c bs) i where
  others _ _ := rfl
  bits _ _ _ _ := Iff.rfl
  handled fd' := by
    rw [hi, Option.some.injEq]
    simp only [Server.echo, Finset.mem_insert]
    constructor
    · rintro (rfl | h)
      · exact .inr ⟨rfl, hfd⟩
      · exact .inl h
    · rintro (h | ⟨rfl, -⟩)
      · exact .inr h
      · exact .inl rfl
  reported := rfl

/-- **The body of the loop** over the connections. -/
theorem serve_eq (hs : Inv lfd dfd s) (reads : ℕ → Data) (i : Fin MAX_CONN_FD) :
    ∃ s', serve reads s i = .ok s' ∧ Inv lfd dfd s' ∧ Served s s' i := by
  cases hi : s.connFds i with
  | none =>
    refine ⟨s, ?_, hs, served_self fun fd h => ?_⟩
    · rw [serve, hi]
    · rw [hi] at h
      cases h
  | some fd =>
    have hrange := hs.range i fd hi
    by_cases hfd : fd ∈ s.rfdset
    · obtain ⟨c, hc⟩ := Option.isSome_iff_exists.1 (hs.isOpen i fd hi)
      by_cases hlen : (reads fd).bytes.length = 0
      · refine ⟨s.closeConn i fd, ?_, hs.closeConn hi, served_closeConn hs hi hfd⟩
        have hnil : (reads fd).bytes = [] := List.length_eq_zero_iff.1 hlen
        simp only [serve, hi, fdIsSet_eq hrange, hfd, Server.read, hc, hnil, fdClr, hrange,
          bind, Except.bind, pure, Except.pure, decide_true, if_true, List.length_nil,
          List.append_nil, Function.update_eq_self, Server.closeConn]
      · refine ⟨s.echo fd c (reads fd).bytes, ?_, hs.echo fd c _, served_echo hi hfd c _⟩
        simp only [serve, hi, fdIsSet_eq hrange, hfd, Server.read, Server.write, hc, hlen,
          bind, Except.bind, decide_true, if_true, if_false, Server.echo]
    · refine ⟨s, ?_, hs, served_self fun fd' h => ?_⟩
      · simp only [serve, hi, fdIsSet_eq hrange, hfd, bind, Except.bind, pure, Except.pure,
          decide_false, Bool.false_eq_true, if_false]
      · rw [hi, Option.some.injEq] at h
        exact h ▸ hfd

theorem foldlM_serve (hs : Inv lfd dfd s) (reads : ℕ → Data) {l : List (Fin MAX_CONN_FD)}
    (hl : l.Nodup) :
    ∃ s', l.foldlM (serve reads) s = .ok s' ∧ Inv lfd dfd s' ∧
      (∀ fd, fd ∈ s'.handled ↔
        fd ∈ s.handled ∨ ∃ i ∈ l, s.connFds i = some fd ∧ fd ∈ s.rfdset) ∧
      s'.reported = s.reported := by
  induction l generalizing s with
  | nil => exact ⟨s, rfl, hs, by simp, rfl⟩
  | cons i l ih =>
    obtain ⟨hil, hl⟩ := List.nodup_cons.1 hl
    obtain ⟨s₁, hserve, hs₁, hserved⟩ := serve_eq hs reads i
    obtain ⟨s₂, hrest, hs₂, hhandled, hreported⟩ := ih hs₁ hl
    refine ⟨s₂, ?_, hs₂, fun fd => ?_, hreported.trans hserved.reported⟩
    · rw [List.foldlM_cons, hserve]
      exact hrest
    · -- the entries that are still to come are as before
      have hlater : (∃ j ∈ l, s₁.connFds j = some fd ∧ fd ∈ s₁.rfdset) ↔
          ∃ j ∈ l, s.connFds j = some fd ∧ fd ∈ s.rfdset := by
        refine exists_congr fun j => and_congr_right fun hj => ?_
        have hji : j ≠ i := fun h => hil (h ▸ hj)
        rw [hserved.others j hji]
        exact and_congr_right fun hfd => hserved.bits j hji fd hfd
      rw [hhandled, hserved.handled, hlater, List.exists_mem_cons_iff, or_assoc]

/-- The loop handles whatever is left of what `select` reported. -/
theorem serveConns_eq (hs : Inv lfd dfd s) (reads : ℕ → Data) (hreported : s.reported = s.rfdset)
    (hhandled : ∀ fd, fd ∈ s.handled ↔ fd ∈ s.rfdset ∧ (fd = lfd ∨ fd = dfd)) :
    ∃ s', serveConns reads s = .ok s' ∧ Inv lfd dfd s' ∧ s'.handled = s'.reported := by
  obtain ⟨s', hserve, hs', hmem, hreported'⟩ :=
    foldlM_serve hs reads (List.nodup_finRange MAX_CONN_FD)
  refine ⟨s', hserve, hs', ?_⟩
  ext fd
  rw [hmem, hhandled, hreported', hreported]
  constructor
  · rintro (⟨hfd, -⟩ | ⟨-, -, -, hfd⟩)
    · exact hfd
    · exact hfd
  · intro hfd
    obtain h | h | ⟨i, hi⟩ := hs.bits fd hfd
    · exact .inl ⟨hfd, .inl h⟩
    · exact .inl ⟨hfd, .inr h⟩
    · exact .inr ⟨i, List.mem_finRange i, hi, hfd⟩

/-! ## One pass -/

theorem Inv.echoDatagram (hs : Inv lfd dfd s) (d : Data) : Inv lfd dfd (s.echoDatagram dfd d) :=
  { hs with
    datagrams := by
      change s.datagramsOut ++ [d.bytes] = s.datagramsIn ++ [d.bytes]
      rw [hs.datagrams] }

/-- The pass behind the accept branch, with `nready` counting what is not handled yet. -/
theorem afterAccept_eq (hs : Inv lfd dfd s) (r : Round) (hdfd : dfd < FD_SETSIZE) (hne : lfd ≠ dfd)
    (hreported : s.reported = s.rfdset)
    (hhandled : ∀ fd, fd ∈ s.handled ↔ fd ∈ s.rfdset ∧ fd = lfd) {nready : ℤ}
    (hnready : nready = s.rfdset.card - s.handled.card) :
    ∃ s', afterAccept dfd r s nready = .ok s' ∧ Inv lfd dfd s' ∧ s'.handled = s'.reported := by
  unfold afterAccept
  rw [fdIsSet_eq hdfd]
  by_cases hready : dfd ∈ s.rfdset
  · simp only [bind, Except.bind, hready, decide_true, if_true]
    have hs' := hs.echoDatagram r.datagram
    have hnew : dfd ∉ s.handled := fun h => hne ((hhandled dfd).1 h).2.symm
    by_cases hlast : nready - 1 = 0
    · refine ⟨s.echoDatagram dfd r.datagram, by rw [if_pos hlast]; rfl, hs', ?_⟩
      -- nothing is left: what was handled has as many elements as what was reported
      change insert dfd s.handled = s.reported
      rw [hreported]
      refine Finset.eq_of_subset_of_card_le ?_ ?_
      · refine Finset.insert_subset hready fun fd hfd => ?_
        exact ((hhandled fd).1 hfd).1
      · rw [Finset.card_insert_of_notMem hnew]
        omega
    · rw [if_neg hlast]
      refine serveConns_eq hs' r.reads hreported fun fd => ?_
      change fd ∈ insert dfd s.handled ↔ fd ∈ s.rfdset ∧ (fd = lfd ∨ fd = dfd)
      rw [Finset.mem_insert, hhandled, and_or_left, or_comm]
      refine or_congr_right ⟨fun h => ⟨h ▸ hready, h⟩, fun h => h.2⟩
  · simp only [bind, Except.bind, hready, decide_false, Bool.false_eq_true, if_false]
    refine serveConns_eq hs r.reads hreported fun fd => ?_
    rw [hhandled]
    refine and_congr_right fun hfd => ⟨.inl, fun h => h.resolve_right ?_⟩
    rintro rfl
    exact hready hfd

/-- With fewer than `MAX_CONN_FD` connections there is an empty entry. -/
theorem firstFree_eq (h : s.connections < MAX_CONN_FD) :
    ∃ j, firstFree s.connFds = some j ∧ s.connFds j = none := by
  cases hfree : firstFree s.connFds with
  | some j =>
    have hj := List.find?_some hfree
    exact ⟨j, rfl, Option.isNone_iff_eq_none.1 hj⟩
  | none =>
    have hfull : (Finset.univ.filter fun i => s.connFds i ≠ none) = Finset.univ := by
      refine Finset.filter_true_of_mem fun i _ hi => ?_
      have hi' := List.find?_eq_none.1 hfree i (List.mem_finRange i)
      rw [hi] at hi'
      exact hi' rfl
    rw [Server.connections, hfull, Finset.card_univ, Fintype.card_fin] at h
    exact absurd h (lt_irrefl _)

theorem accept_connFds {j i : Fin MAX_CONN_FD} {connfd fd : ℕ} (hj : s.connFds j = none) :
    (s.accept lfd j connfd).connFds i = some fd ↔
      i = j ∧ fd = connfd ∨ i ≠ j ∧ s.connFds i = some fd := by
  by_cases hi : i = j
  · subst hi
    simp [Server.accept, eq_comm]
  · simp [Server.accept, hi]

theorem accept_conn {j : Fin MAX_CONN_FD} {connfd fd c : ℕ} :
    (s.accept lfd j connfd).conn fd = some c ↔
      fd = connfd ∧ c = s.accepted ∨ fd ≠ connfd ∧ s.conn fd = some c := by
  by_cases hfd : fd = connfd
  · subst hfd
    simp [Server.accept, eq_comm]
  · simp [Server.accept, hfd]

/-- A descriptor of the table is not one that `accept` can return. -/
theorem Inv.ne_of_not_isOpen (hs : Inv lfd dfd s) {connfd : ℕ}
    (hnew : ¬ s.IsOpen lfd dfd connfd) {i : Fin MAX_CONN_FD} {fd : ℕ}
    (hi : s.connFds i = some fd) : fd ≠ connfd := by
  rintro rfl
  exact hnew (.inr (.inr (hs.isOpen i fd hi)))

/-- `accept` keeps the invariant when it returns a new descriptor that fits the set. -/
theorem Inv.accept (hs : Inv lfd dfd s) {j : Fin MAX_CONN_FD} (hj : s.connFds j = none)
    {connfd : ℕ} (hnew : ¬ s.IsOpen lfd dfd connfd) (hrange : connfd < FD_SETSIZE) :
    Inv lfd dfd (s.accept lfd j connfd) := by
  have hother : ∀ {i fd}, s.connFds i = some fd → fd ≠ connfd := hs.ne_of_not_isOpen hnew
  have hslot : ∀ {i fd}, s.connFds i = some fd → i ≠ j := by
    rintro i fd hi rfl
    rw [hj] at hi
    cases hi
  have hnfds : s.nfds ≤ (s.accept lfd j connfd).nfds ∧
      connfd < (s.accept lfd j connfd).nfds := by
    simp only [Server.accept]
    split <;> omega
  constructor
  case isOpen =>
    intro i fd hi
    obtain ⟨-, rfl⟩ | ⟨-, hi⟩ := (accept_connFds hj).1 hi
    · exact Option.isSome_iff_exists.2 ⟨_, accept_conn.2 (.inl ⟨rfl, rfl⟩)⟩
    · obtain ⟨c, hc⟩ := Option.isSome_iff_exists.1 (hs.isOpen i fd hi)
      exact Option.isSome_iff_exists.2 ⟨c, accept_conn.2 (.inr ⟨hother hi, hc⟩)⟩
  case listed =>
    intro fd hfd
    obtain ⟨c, hc⟩ := Option.isSome_iff_exists.1 hfd
    obtain ⟨rfl, -⟩ | ⟨-, hc⟩ := accept_conn.1 hc
    · exact ⟨j, (accept_connFds hj).2 (.inl ⟨rfl, rfl⟩)⟩
    · obtain ⟨i, hi⟩ := hs.listed fd (Option.isSome_iff_exists.2 ⟨c, hc⟩)
      exact ⟨i, (accept_connFds hj).2 (.inr ⟨hslot hi, hi⟩)⟩
  case distinct =>
    intro i k fd hi hk
    obtain ⟨rfl, rfl⟩ | ⟨-, hi'⟩ := (accept_connFds hj).1 hi
    · obtain ⟨rfl, -⟩ | ⟨-, hk'⟩ := (accept_connFds hj).1 hk
      · rfl
      · exact absurd rfl (hother hk')
    · obtain ⟨-, rfl⟩ | ⟨-, hk'⟩ := (accept_connFds hj).1 hk
      · exact absurd rfl (hother hi')
      · exact hs.distinct i k fd hi' hk'
  case ne =>
    intro i fd hi
    obtain ⟨-, rfl⟩ | ⟨-, hi⟩ := (accept_connFds hj).1 hi
    · exact ⟨fun h => hnew (.inl h), fun h => hnew (.inr (.inl h))⟩
    · exact hs.ne i fd hi
  case lt_nfds =>
    intro i fd hi
    obtain ⟨-, rfl⟩ | ⟨-, hi⟩ := (accept_connFds hj).1 hi
    · exact hnfds.2
    · exact (hs.lt_nfds i fd hi).trans_le hnfds.1
  case listening => exact ⟨hs.listening.1.trans_le hnfds.1, hs.listening.2.trans_le hnfds.1⟩
  case range =>
    intro i fd hi
    obtain ⟨-, rfl⟩ | ⟨-, hi⟩ := (accept_connFds hj).1 hi
    · exact hrange
    · exact hs.range i fd hi
  case bits =>
    intro fd hfd
    obtain h | h | ⟨i, hi⟩ := hs.bits fd hfd
    · exact .inl h
    · exact .inr (.inl h)
    · exact .inr (.inr ⟨i, (accept_connFds hj).2 (.inr ⟨hslot hi, hi⟩)⟩)
  case numbered =>
    intro fd c hc
    have hsucc : (s.accept lfd j connfd).accepted = s.accepted + 1 := rfl
    obtain ⟨-, rfl⟩ | ⟨-, hc⟩ := accept_conn.1 hc
    · omega
    · have hlt := hs.numbered fd c hc
      omega
  case separate =>
    intro fd fd' c h h'
    obtain ⟨rfl, rfl⟩ | ⟨-, h⟩ := accept_conn.1 h
    · obtain ⟨rfl, -⟩ | ⟨-, h'⟩ := accept_conn.1 h'
      · rfl
      · exact absurd (hs.numbered fd' _ h') (lt_irrefl _)
    · obtain ⟨-, rfl⟩ | ⟨-, h'⟩ := accept_conn.1 h'
      · exact absurd (hs.numbered fd _ h) (lt_irrefl _)
      · exact hs.separate fd fd' c h h'
  case echoed => exact hs.echoed
  case datagrams => exact hs.datagrams

/-- The server behind a `select` that reported `reported`. -/
def Server.report (s : Server) (reported : Finset ℕ) : Server :=
  { s with rfdset := reported, reported, handled := ∅ }

/-- **The first half of a pass**: what is handed to `select` are the two sockets and the
connections of the table, all of them open. -/
theorem Inv.wait_eq (hs : Inv lfd dfd s) (hlfd : lfd < FD_SETSIZE) (hdfd : dfd < FD_SETSIZE)
    (ready : Finset ℕ) :
    ∃ reported : Finset ℕ,
      (∀ fd, fd ∈ reported ↔
        (fd = lfd ∨ fd = dfd ∨ ∃ i, s.connFds i = some fd) ∧ fd < s.nfds ∧ fd ∈ ready) ∧
      Inv lfd dfd (s.report reported) ∧
      s.wait lfd dfd ready = .ok (s.report reported, (reported.card : ℤ)) := by
  obtain ⟨set, hset, hmem⟩ := setConns_eq hs.range (insert dfd (insert lfd s.rfdset))
  -- the bits that were left from the last pass are among those that are set again
  have hbits : ∀ fd, fd ∈ set ↔ fd = lfd ∨ fd = dfd ∨ ∃ i, s.connFds i = some fd := by
    intro fd
    rw [hmem, Finset.mem_insert, Finset.mem_insert]
    constructor
    · rintro ((h | h | h) | h)
      · exact .inr (.inl h)
      · exact .inl h
      · exact hs.bits fd h
      · exact .inr (.inr h)
    · rintro (h | h | h)
      · exact .inl (.inr (.inl h))
      · exact .inl (.inl h)
      · exact .inr h
  have hopen : ∀ fd ∈ set, { s with rfdset := set : Server }.IsOpen lfd dfd fd := by
    intro fd hfd
    obtain h | h | ⟨i, hi⟩ := (hbits fd).1 hfd
    · exact .inl h
    · exact .inr (.inl h)
    · exact .inr (.inr (hs.isOpen i fd hi))
  refine ⟨set.filter fun fd => fd < s.nfds ∧ fd ∈ ready, fun fd => ?_, ?_, ?_⟩
  · rw [Finset.mem_filter, hbits]
  · exact { hs with bits := fun fd hfd => (hbits fd).1 (Finset.mem_filter.1 hfd).1 }
  · unfold Server.wait
    rw [fdSet_eq hlfd]
    simp only [bind, Except.bind, fdSet_eq hdfd, hset, Server.select, if_pos hopen]
    rfl

/-- A pass waits, and goes on behind `select`. -/
theorem pass_eq_wait (s : Server) (r : Round) :
    pass lfd dfd s r =
      s.wait lfd dfd r.ready >>= fun waited => afterSelect lfd dfd r waited.1 waited.2 := by
  unfold pass Server.wait
  rw [bind_assoc]
  apply bind_congr
  intro set
  rw [bind_assoc]
  apply bind_congr
  intro set
  rw [bind_assoc]

theorem Inv.pass_eq_afterSelect (hs : Inv lfd dfd s) (hlfd : lfd < FD_SETSIZE)
    (hdfd : dfd < FD_SETSIZE) (r : Round) :
    ∃ reported : Finset ℕ,
      (∀ fd, fd ∈ reported ↔
        (fd = lfd ∨ fd = dfd ∨ ∃ i, s.connFds i = some fd) ∧ fd < s.nfds ∧ fd ∈ r.ready) ∧
      Inv lfd dfd (s.report reported) ∧
      pass lfd dfd s r = afterSelect lfd dfd r (s.report reported) reported.card := by
  obtain ⟨reported, hmem, hs', hwait⟩ := hs.wait_eq hlfd hdfd r.ready
  refine ⟨reported, hmem, hs', ?_⟩
  rw [pass_eq_wait, hwait]
  exact ok_bind _ _

/-- **One pass** of the loop keeps the invariant and handles what `select` reported. -/
theorem pass_eq (hs : Inv lfd dfd s) {r : Round} (hadmits : s.Admits lfd dfd r)
    (hlfd : lfd < FD_SETSIZE) (hdfd : dfd < FD_SETSIZE) (hne : lfd ≠ dfd)
    (hrange : lfd ∈ r.ready → r.accepted < FD_SETSIZE) :
    ∃ s', pass lfd dfd s r = .ok s' ∧ Inv lfd dfd s' ∧ s'.handled = s'.reported := by
  obtain ⟨reported, hreported, hs', hpass⟩ := hs.pass_eq_afterSelect hlfd hdfd r
  have hsub : reported ⊆ r.ready := fun fd hfd => ((hreported fd).1 hfd).2.2
  have hset : (s.report reported).rfdset = reported := rfl
  have hnone : (s.report reported).handled = ∅ := rfl
  rw [hpass, afterSelect, fdIsSet_eq hlfd, hset]
  by_cases hready : lfd ∈ reported
  · simp only [bind, Except.bind, hready, decide_true, if_true]
    obtain ⟨j, hfree, hj⟩ := firstFree_eq (hadmits.2 (hsub hready))
    have hfree' : firstFree (s.report reported).connFds = some j := hfree
    simp only [hfree']
    have haccept := hs'.accept hj hadmits.1 (hrange (hsub hready))
    have hhandled : ((s.report reported).accept lfd j r.accepted).handled = {lfd} := rfl
    by_cases hlast : (reported.card : ℤ) - 1 = 0
    · refine ⟨_, by rw [if_pos hlast]; rfl, haccept, ?_⟩
      -- nothing else was reported
      refine Finset.eq_of_subset_of_card_le ?_ ?_
      · rw [hhandled]
        exact Finset.singleton_subset_iff.2 hready
      · rw [hhandled, Finset.card_singleton]
        change reported.card ≤ 1
        omega
    · rw [if_neg hlast]
      refine afterAccept_eq haccept r hdfd hne rfl (fun fd => ?_) ?_
      · rw [hhandled, Finset.mem_singleton]
        exact ⟨fun h => ⟨h ▸ hready, h⟩, fun h => h.2⟩
      · rw [hhandled, Finset.card_singleton]
        rfl
  · simp only [bind, Except.bind, hready, decide_false, Bool.false_eq_true, if_false]
    refine afterAccept_eq hs' r hdfd hne rfl (fun fd => ?_) ?_
    · rw [hnone, hset]
      refine iff_of_false (Finset.notMem_empty fd) ?_
      rintro ⟨hfd, rfl⟩
      exact hready hfd
    · rw [hnone, hset, Finset.card_empty, Nat.cast_zero, sub_zero]

/-! ## Runs -/

/-- What holds between two passes: the entries of the table are distinct open connections below
`nfds`, everything that `select` reported was handled, and every connection was sent what was read
from it. -/
structure Good (s : Server) : Prop where
  isOpen : ∀ i fd, s.connFds i = some fd → (s.conn fd).isSome
  distinct : ∀ i j fd, s.connFds i = some fd → s.connFds j = some fd → i = j
  lt_nfds : ∀ i fd, s.connFds i = some fd → fd < s.nfds
  handled : s.handled = s.reported
  echoed : s.written = s.received

theorem step_ok {r : Round} (h : s.Admits lfd dfd r) :
    (machine lfd dfd).step (.ok s) r = some (pass lfd dfd s r) := if_pos h

/-- If `accept` is called, the descriptor it returns fits an `fd_set`. -/
def Fits (lfd : ℕ) (r : Round) : Prop := lfd ∈ r.ready → r.accepted < FD_SETSIZE

/-- **Every run** in which the sockets and the accepted descriptors fit an `fd_set` goes on without
a fault, and between its passes everything is as `Good` says. -/
theorem rounds_good (hne : lfd ≠ dfd) (hlfd : lfd < FD_SETSIZE) (hdfd : dfd < FD_SETSIZE)
    {o : Except Fault Server}
    (h : (machine lfd dfd).ReachableBy (fun _ r => Fits lfd r) o) :
    ∃ s, o = .ok s ∧ Good s := by
  have hinv : ∃ s, o = .ok s ∧ Inv lfd dfd s ∧ s.handled = s.reported := by
    refine h.invariant (I := fun o => ∃ s, o = .ok s ∧ Inv lfd dfd s ∧ s.handled = s.reported)
      ⟨start lfd dfd, rfl, inv_start lfd dfd, rfl⟩ ?_
    rintro _ r o' ⟨s, rfl, hs, -⟩ hfits hstep
    simp only [machine, Option.ite_none_right_eq_some] at hstep
    obtain ⟨hadmits, hstep⟩ := hstep
    obtain ⟨s', hpass, hs', hhandled⟩ := pass_eq hs hadmits hlfd hdfd hne hfits
    exact ⟨s', (Option.some.inj hstep).symm.trans hpass, hs', hhandled⟩
  obtain ⟨s, rfl, hs, hhandled⟩ := hinv
  exact ⟨s, rfl, hs.isOpen, hs.distinct, hs.lt_nfds, hhandled, hs.echoed⟩

/-- A round in which a client connects and gets the descriptor `fd`. -/
def connect (fd : ℕ) : Round where
  ready := {3}
  accepted := fd
  datagram := ⟨[], Nat.zero_le _⟩
  reads _ := ⟨[], Nat.zero_le _⟩

theorem admits_connect (fd : ℕ) (h₃ : fd ≠ 3) (h₄ : fd ≠ 4) :
    (start 3 4).Admits 3 4 (connect fd) := by
  constructor
  · rintro (h | h | h)
    · exact h₃ h
    · exact h₄ h
    · cases h
  · intro _
    have hnone : (Finset.univ.filter fun i => (start 3 4).connFds i ≠ none) = ∅ := by
      simp [start]
    rw [Server.connections, hnone, Finset.card_empty]
    exact Nat.pos_of_ne_zero (by decide)

/-- A round in which the descriptor `fd` is ready and delivers `d`. -/
def sends (fd : ℕ) (d : Data) : Round where
  ready := {fd}
  accepted := 6
  datagram := ⟨[], Nat.zero_le _⟩
  reads _ := d

/-- A client connects, sends two bytes and closes. -/
def servedRounds : List Round :=
  [connect 5, sends 5 ⟨[104, 105], by decide⟩, sends 5 ⟨[], by decide⟩]

/-- What the first connection was sent, and whether the descriptor 5 is open. -/
def firstConnection : Except Fault Server → Option (List UInt8 × Bool)
  | .ok s => some (s.written 0, (s.conn 5).isSome)
  | .error _ => none

/-- The client gets its bytes back, and its descriptor is closed. -/
theorem rounds_good_served :
    ∃ s, (machine 3 4).run (.ok (start 3 4)) servedRounds = some (.ok s) ∧
      s.written 0 = [104, 105] ∧ (s.conn 5).isSome = false ∧ Good s := by
  have hrun : ((machine 3 4).run (.ok (start 3 4)) servedRounds).bind firstConnection
      = some ([104, 105], false) := by
    decide +kernel
  obtain ⟨o, ho, hfirst⟩ := Option.bind_eq_some_iff.1 hrun
  have hfits : ∀ r ∈ servedRounds, Fits 3 r := by
    simp [servedRounds, Fits, connect, sends, FD_SETSIZE]
  have hreach := Machine.ReachableBy.run .init servedRounds (fun _ r hr => hfits r hr) ho
  obtain ⟨s, rfl, hgood⟩ := rounds_good (by decide) (by decide) (by decide) hreach
  obtain ⟨hwritten, hopen⟩ := Prod.mk.inj (Option.some.inj hfirst)
  exact ⟨s, ho, hwritten, hopen, hgood⟩

/-! ## A descriptor that does not fit -/

theorem foldlM_setConn_error {connFds : Fin MAX_CONN_FD → Option ℕ} {i : Fin MAX_CONN_FD} {fd : ℕ}
    (hi : connFds i = some fd) (hfd : FD_SETSIZE ≤ fd) {l : List (Fin MAX_CONN_FD)} (hl : i ∈ l)
    (set : Finset ℕ) : l.foldlM (setConn connFds) set = .error .fdRange := by
  induction l generalizing set with
  | nil => cases hl
  | cons k l ih =>
    rw [List.foldlM_cons, setConn]
    cases hk : connFds k with
    | none =>
      have hik : i ≠ k := by
        rintro rfl
        rw [hi] at hk
        cases hk
      exact ih ((List.mem_cons.1 hl).resolve_left hik) set
    | some fd' =>
      by_cases hrange : fd' < FD_SETSIZE
      · have hik : i ≠ k := by
          rintro rfl
          obtain rfl := Option.some.inj (hi.symm.trans hk)
          exact absurd hrange (not_lt.2 hfd)
        simp only [fdSet_eq hrange]
        exact ih ((List.mem_cons.1 hl).resolve_left hik) (insert fd' set)
      · simp only [fdSet, if_neg hrange]
        rfl

/-- **A descriptor that does not fit** is put into the set at the top of the next pass. -/
theorem pass_error (hlfd : lfd < FD_SETSIZE) (hdfd : dfd < FD_SETSIZE) {i : Fin MAX_CONN_FD}
    {fd : ℕ} (hi : s.connFds i = some fd) (hfd : FD_SETSIZE ≤ fd) (r : Round) :
    pass lfd dfd s r = .error .fdRange := by
  have hset : setConns s.connFds (insert dfd (insert lfd s.rfdset)) = .error .fdRange :=
    foldlM_setConn_error hi hfd (List.mem_finRange i) _
  unfold pass
  rw [fdSet_eq hlfd]
  simp only [bind, Except.bind, fdSet_eq hdfd, hset]

/-- A pass in which only a new client is there puts its descriptor into the table, whatever its
number. -/
theorem pass_connect (hs : Inv lfd dfd s) {r : Round} (hadmits : s.Admits lfd dfd r)
    (hlfd : lfd < FD_SETSIZE) (hdfd : dfd < FD_SETSIZE) (hready : r.ready = {lfd}) :
    ∃ j, pass lfd dfd s r = .ok ((s.report {lfd}).accept lfd j r.accepted) := by
  obtain ⟨reported, hreported, -, hpass⟩ := hs.pass_eq_afterSelect hlfd hdfd r
  have hone : reported = {lfd} := by
    ext fd
    rw [hreported, hready, Finset.mem_singleton]
    constructor
    · exact fun h => h.2.2
    · rintro rfl
      exact ⟨.inl rfl, hs.listening.1, rfl⟩
  obtain ⟨j, hfree, -⟩ := firstFree_eq (hadmits.2 (by rw [hready, Finset.mem_singleton]))
  have hset : (s.report {lfd}).rfdset = {lfd} := rfl
  have hfree' : firstFree (s.report {lfd}).connFds = some j := hfree
  refine ⟨j, ?_⟩
  rw [hpass, hone, afterSelect, fdIsSet_eq hlfd, hset]
  simp only [bind, Except.bind, Finset.mem_singleton, decide_true, if_true, hfree',
    Finset.card_singleton]
  rfl

/-- A round in which nothing is ready. -/
def quiet : Round where
  ready := ∅
  accepted := 5
  datagram := ⟨[], Nat.zero_le _⟩
  reads _ := ⟨[], Nat.zero_le _⟩

/-- **A run that leaves the set**: a client is given a descriptor that is not open and does not fit
an `fd_set`, and the next pass puts it into `rfdset`. -/
theorem large_descriptor_faults :
    ¬ ∀ o, (machine 3 4).Reachable o → ∃ s, o = .ok s ∧ Good s := by
  intro hall
  have hadmits : (start 3 4).Admits 3 4 (connect 1024) :=
    admits_connect 1024 (by decide) (by decide)
  obtain ⟨j, hpass⟩ := pass_connect (inv_start 3 4) hadmits (by decide) (by decide) rfl
  have hfirst : (machine 3 4).step (.ok (start 3 4)) (connect 1024)
      = some (.ok (((start 3 4).report {3}).accept 3 j 1024)) :=
    (step_ok hadmits).trans (congrArg some hpass)
  have hnext : (((start 3 4).report {3}).accept 3 j 1024).Admits 3 4 quiet := by
    constructor
    · rintro (h | h | h)
      · cases h
      · cases h
      · simp [Server.accept, Server.report, start, quiet] at h
    · exact fun h => absurd h (Finset.notMem_empty 3)
  have hentry : (((start 3 4).report {3}).accept 3 j 1024).connFds j = some 1024 :=
    Function.update_self ..
  have herror : pass 3 4 (((start 3 4).report {3}).accept 3 j 1024) quiet = .error .fdRange :=
    pass_error (by decide) (by decide) hentry (le_refl 1024) quiet
  obtain ⟨s, hs, -⟩ := hall (.error .fdRange)
    (.step (.step .init trivial hfirst) trivial ((step_ok hnext).trans (congrArg some herror)))
  cases hs

end TlpiLearn.SelectEcho
