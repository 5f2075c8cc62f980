import TlpiLearn.Sockets.SelectEchoFailures
import TlpiLearn.Sockets.SelectEchoSafety
import Mathlib.Tactic

/-!
# When the echo server with `select` is available

A pass ends in one of two ways (`Outcome`): a condition on the answers holds, and every connection
is served on its own (`Entry`), or a call has ended the server. The condition grows from the loop
over the connections (`serveConns_outcome`) to a whole pass (`available_iff`): the server serves its
clients exactly when no call fails or waits and no descriptor leaves the set.

The table is never full before that (`connections_lt`), since it has as many entries as an
`fd_set` has bits, and two of these are the sockets. Until then a run is one of `SelectEcho`
(`reachable_of_undisturbed`).
-/

namespace TlpiLearn.SelectEchoFailures

open SelectEcho (Server Data Fault MAX_CONN_FD FD_SETSIZE fdSet fdIsSet fdClr firstFree start Inv
  fdIsSet_eq firstFree_eq accept_connFds closeConn_connFds closeConn_conn served_closeConn)

variable {lfd dfd : ℕ} {s s' : Server} {r : Round}

@[simp] theorem orFault_ok {α : Type} (a : α) : orFault (.ok a) = .ok a := rfl

theorem orFault_error {α : Type} (f : Fault) :
    orFault (.error f : Except Fault α) = .error (.fault f) := rfl

@[simp] theorem orExit_returns {α : Type} (call : Call) (a : α) :
    (Answer.returns a).orExit call = .ok a := rfl

theorem orExit_error {α : Type} (call : Call) {a : Answer α} (h : ¬ ∃ x, a = .returns x) :
    ∃ e, a.orExit call = .error e := by
  cases a with
  | returns x => exact absurd ⟨x, rfl⟩ h
  | fails => exact ⟨_, rfl⟩
  | blocks => exact ⟨_, rfl⟩

theorem whole_returns (call : Call) (n : ℕ) : whole call (.returns n) n = .ok () := by
  rw [whole, orExit_returns, ok_bind, if_neg (not_not.2 rfl)]

theorem whole_error (call : Call) {a : Answer ℕ} {n : ℕ} (h : a ≠ .returns n) :
    ∃ e, whole call a n = .error e := by
  cases a with
  | returns m =>
    have hm : m ≠ n := fun hm => h (hm ▸ rfl)
    refine ⟨.errExit call, ?_⟩
    rw [whole, orExit_returns, ok_bind, if_pos hm]
  | fails => exact ⟨_, rfl⟩
  | blocks => exact ⟨_, rfl⟩

/-! ## The loop over the connections -/

/-- What the body of the loop comes to at the entry `i`. -/
inductive Serving (r : Round) (s : Server) (i : Fin MAX_CONN_FD) : Except Stop Server → Prop
  | passed (h : ∀ fd, s.connFds i = some fd → fd ∉ s.rfdset) : Serving r s i (.ok s)
  | closed {fd : ℕ} {data : Data} (hi : s.connFds i = some fd) (hfd : fd ∈ s.rfdset)
      (hread : r.read fd = .returns data) (hnil : data.bytes = []) :
      Serving r s i (.ok (s.closeConn i fd))
  | echoed {fd c : ℕ} {data : Data} (hi : s.connFds i = some fd) (hfd : fd ∈ s.rfdset)
      (hc : s.conn fd = some c) (hread : r.read fd = .returns data) (hne : data.bytes ≠ [])
      (hwrite : r.write fd = .returns data.bytes.length) :
      Serving r s i (.ok (s.echo fd c data.bytes))
  | stopped {fd : ℕ} (hi : s.connFds i = some fd) (hfd : fd ∈ s.rfdset) (h : ¬ Answered r fd)
      (e : Stop) : Serving r s i (.error e)

/-- An entry that is empty or not reported is passed over. -/
theorem serve_of_quiet (hs : Inv lfd dfd s) (r : Round) {i : Fin MAX_CONN_FD}
    (h : ∀ fd, s.connFds i = some fd → fd ∉ s.rfdset) : serve r s i = .ok s := by
  rw [serve]
  cases hi : s.connFds i with
  | none => rfl
  | some fd =>
    dsimp only
    rw [fdIsSet_eq (hs.range i fd hi), orFault_ok, ok_bind, decide_eq_false (h fd hi),
      if_neg Bool.false_ne_true]
    rfl

/-- A descriptor that is reported is read, and closed or written to. -/
theorem serve_of_reported (hs : Inv lfd dfd s) (r : Round) {i : Fin MAX_CONN_FD} {fd c : ℕ}
    (hi : s.connFds i = some fd) (hfd : fd ∈ s.rfdset) (hc : s.conn fd = some c) :
    serve r s i = (r.read fd).orExit .read >>= fun data =>
      if data.bytes = [] then .ok (s.closeConn i fd)
      else whole .write (r.write fd) data.bytes.length >>= fun _ =>
        .ok (s.echo fd c data.bytes) := by
  have hrange := hs.range i fd hi
  rw [serve, hi]
  dsimp only
  rw [fdIsSet_eq hrange, orFault_ok, ok_bind, decide_eq_true hfd, if_pos rfl]
  apply bind_congr
  intro data
  by_cases hnil : data.bytes = []
  · simp only [Server.read, hc, hnil, fdClr, hrange, orFault_ok, ok_bind, pure, Except.pure,
      if_true, List.length_nil, List.append_nil, Function.update_eq_self, Server.closeConn]
  · have hlen : ¬ data.bytes.length = 0 := fun h => hnil (List.length_eq_zero_iff.1 h)
    simp only [Server.read, Server.write, hc, hnil, hlen, orFault_ok, ok_bind, if_false,
      Server.echo]

/-- **The body of the loop** at one entry. -/
theorem serving (hs : Inv lfd dfd s) (r : Round) (i : Fin MAX_CONN_FD) :
    Serving r s i (serve r s i) := by
  by_cases hquiet : ∀ fd, s.connFds i = some fd → fd ∉ s.rfdset
  · rw [serve_of_quiet hs r hquiet]
    exact .passed hquiet
  · push Not at hquiet
    rcases hquiet with ⟨fd, hi, hfd⟩
    rcases Option.isSome_iff_exists.1 (hs.isOpen i fd hi) with ⟨c, hc⟩
    rw [serve_of_reported hs r hi hfd hc]
    by_cases hread : ∃ data, r.read fd = .returns data
    · rcases hread with ⟨data, hread⟩
      rw [hread, orExit_returns, ok_bind]
      by_cases hnil : data.bytes = []
      · rw [if_pos hnil]
        exact .closed hi hfd hread hnil
      · rw [if_neg hnil]
        by_cases hwrite : r.write fd = .returns data.bytes.length
        · rw [hwrite, whole_returns, ok_bind]
          exact .echoed hi hfd hc hread hnil hwrite
        · rcases whole_error .write hwrite with ⟨e, he⟩
          rw [he, error_bind]
          refine .stopped hi hfd ?_ e
          rintro ⟨data', hread', hwrite'⟩
          rw [hread] at hread'
          obtain rfl := Answer.returns.inj hread'
          exact hwrite (hwrite' hnil)
    · rcases orExit_error .read hread with ⟨e, he⟩
      rw [he, error_bind]
      refine .stopped hi hfd ?_ e
      rintro ⟨data, hdata, -⟩
      exact hread ⟨data, hdata⟩

theorem Serving.inv {i : Fin MAX_CONN_FD} (h : Serving r s i (.ok s')) (hs : Inv lfd dfd s) :
    Inv lfd dfd s' := by
  cases h with
  | passed h => exact hs
  | closed hi => exact hs.closeConn hi
  | echoed hi hfd hc => exact hs.echo _ _ _

/-- The other entries, and whether they are reported, are as before. -/
theorem Serving.others {i j : Fin MAX_CONN_FD} (h : Serving r s i (.ok s')) (hs : Inv lfd dfd s)
    (hj : j ≠ i) {fd : ℕ} :
    s'.connFds j = some fd ∧ fd ∈ s'.rfdset ↔ s.connFds j = some fd ∧ fd ∈ s.rfdset := by
  cases h with
  | passed h => exact Iff.rfl
  | closed hi hfd =>
    have hserved := served_closeConn hs hi hfd
    rw [hserved.others j hj]
    exact and_congr_right fun h => hserved.bits j hj fd h
  | echoed hi hfd hc => exact Iff.rfl

/-- Every entry that is reported is answered, or the loop ends the server. -/
theorem foldlM_serve (hs : Inv lfd dfd s) (r : Round) {l : List (Fin MAX_CONN_FD)} (hl : l.Nodup) :
    (∀ i ∈ l, ∀ fd, s.connFds i = some fd ∧ fd ∈ s.rfdset → Answered r fd) ∧
        (∃ s', l.foldlM (serve r) s = .ok s' ∧ Inv lfd dfd s') ∨
      ¬ (∀ i ∈ l, ∀ fd, s.connFds i = some fd ∧ fd ∈ s.rfdset → Answered r fd) ∧
        ∃ e, l.foldlM (serve r) s = .error e := by
  induction l generalizing s with
  | nil =>
    refine .inl ⟨fun i hi => ?_, s, rfl, hs⟩
    cases hi
  | cons i l ih =>
    rcases List.nodup_cons.1 hl with ⟨hil, hl⟩
    rw [List.foldlM_cons, List.forall_mem_cons]
    have hserving := serving hs r i
    cases hserve : serve r s i with
    | error e =>
      rw [hserve] at hserving
      cases hserving with
      | stopped hi hfd h => exact .inr ⟨fun hall => h (hall.1 _ ⟨hi, hfd⟩), e, rfl⟩
    | ok s₁ =>
      rw [hserve] at hserving
      have hs₁ := hserving.inv hs
      -- the entries that are still to come are as before
      have hlater : (∀ j ∈ l, ∀ fd, s₁.connFds j = some fd ∧ fd ∈ s₁.rfdset → Answered r fd) ↔
          ∀ j ∈ l, ∀ fd, s.connFds j = some fd ∧ fd ∈ s.rfdset → Answered r fd := by
        refine forall_congr' fun j => forall_congr' fun hj => forall_congr' fun fd => ?_
        have hji : j ≠ i := fun h => hil (h ▸ hj)
        rw [hserving.others hs hji]
      have hhead : ∀ fd, s.connFds i = some fd ∧ fd ∈ s.rfdset → Answered r fd := by
        rintro fd ⟨hi, hfd⟩
        cases hserving with
        | passed h => exact absurd hfd (h fd hi)
        | closed hi' hfd' hread hnil =>
          obtain rfl := Option.some.inj (hi'.symm.trans hi)
          exact ⟨_, hread, fun hne => absurd hnil hne⟩
        | echoed hi' hfd' hc hread hne hwrite =>
          obtain rfl := Option.some.inj (hi'.symm.trans hi)
          exact ⟨_, hread, fun _ => hwrite⟩
      rw [← hlater, ok_bind]
      rcases ih hs₁ hl with ⟨hall, hfold⟩ | ⟨hall, hfold⟩
      · exact .inl ⟨⟨hhead, hall⟩, hfold⟩
      · exact .inr ⟨fun h => hall h.2, hfold⟩

/-! ### One entry -/

/-- The descriptor `fd` and the connection `c` belong to the entry `i` alone. -/
def Own (i : Fin MAX_CONN_FD) (fd c : ℕ) (s : Server) : Prop :=
  ∀ j, j ≠ i → ∀ fd', s.connFds j = some fd' → fd' ≠ fd ∧ s.conn fd' ≠ some c

theorem own (hs : Inv lfd dfd s) {i : Fin MAX_CONN_FD} {fd c : ℕ} (hi : s.connFds i = some fd)
    (hc : s.conn fd = some c) : Own i fd c s := by
  intro j hj fd' hfd'
  have hne : fd' ≠ fd := by
    rintro rfl
    exact hj (hs.distinct j i fd' hfd' hi)
  exact ⟨hne, fun hc' => hne (hs.separate fd' fd c hc' hc)⟩

/-- Nothing of the entry `i` has changed. -/
structure Frame (i : Fin MAX_CONN_FD) (fd c : ℕ) (s s' : Server) : Prop where
  connFds : s'.connFds i = s.connFds i
  conn : s'.conn fd = s.conn fd
  written : s'.written c = s.written c
  bits : fd ∈ s'.rfdset ↔ fd ∈ s.rfdset
  handled : fd ∈ s.handled → fd ∈ s'.handled

variable {i : Fin MAX_CONN_FD} {fd c : ℕ}

theorem Frame.refl (s : Server) : Frame i fd c s s := ⟨rfl, rfl, rfl, Iff.rfl, id⟩

theorem Frame.trans {s₁ s₂ s₃ : Server} (h : Frame i fd c s₁ s₂) (h' : Frame i fd c s₂ s₃) :
    Frame i fd c s₁ s₃ where
  connFds := h'.connFds.trans h.connFds
  conn := h'.conn.trans h.conn
  written := h'.written.trans h.written
  bits := h'.bits.trans h.bits
  handled hfd := h'.handled (h.handled hfd)

/-- **An entry is left alone** while another one is served. -/
theorem Serving.frame {j : Fin MAX_CONN_FD} (h : Serving r s j (.ok s')) (hj : j ≠ i)
    (hown : Own i fd c s) : Frame i fd c s s' := by
  cases h with
  | passed h => exact .refl s
  | closed hi =>
    have hne := (hown j hj _ hi).1
    constructor
    case connFds => exact Function.update_of_ne hj.symm _ _
    case conn => exact Function.update_of_ne hne.symm _ _
    case written => rfl
    case bits =>
      exact ⟨fun h => (Finset.mem_erase.1 h).2, fun h => Finset.mem_erase.2 ⟨hne.symm, h⟩⟩
    case handled => exact fun h => Finset.mem_insert_of_mem h
  | @echoed fd' c' data hi hfd hc =>
    have hne : c ≠ c' := by
      rintro rfl
      exact (hown j hj _ hi).2 hc
    constructor
    case connFds => rfl
    case conn => rfl
    case written => exact Function.update_of_ne hne _ _
    case bits => exact Iff.rfl
    case handled => exact fun h => Finset.mem_insert_of_mem h

theorem Serving.own {j : Fin MAX_CONN_FD} (h : Serving r s j (.ok s')) (hown : Own i fd c s) :
    Own i fd c s' := by
  cases h with
  | passed h => exact hown
  | closed hi =>
    intro k hk fd' hfd'
    rcases hown k hk fd' (closeConn_connFds.1 hfd').2 with ⟨hne, hc⟩
    exact ⟨hne, fun hc' => hc (closeConn_conn.1 hc').2⟩
  | echoed hi hfd hc => exact hown

theorem foldlM_serve_frame (hs : Inv lfd dfd s) {l : List (Fin MAX_CONN_FD)} (hi : i ∉ l)
    (hown : Own i fd c s) (h : l.foldlM (serve r) s = .ok s') :
    Inv lfd dfd s' ∧ Frame i fd c s s' ∧ Own i fd c s' := by
  induction l generalizing s with
  | nil =>
    obtain rfl := Except.ok.inj h
    exact ⟨hs, .refl s, hown⟩
  | cons j l ih =>
    rw [List.foldlM_cons, bind_eq_ok_iff] at h
    rcases h with ⟨s₁, hserve, h⟩
    have hserving := serving hs r j
    rw [hserve] at hserving
    have hj : j ≠ i := fun h => hi (h ▸ List.mem_cons_self)
    have hframe := hserving.frame hj hown
    rcases ih (hserving.inv hs) (fun h => hi (List.mem_cons_of_mem _ h)) (hserving.own hown) h with
      ⟨hs', hframe', hown'⟩
    exact ⟨hs', hframe.trans hframe', hown'⟩

/-- What a pass does for the connection `c` of the entry `i`. -/
structure Entry (r : Round) (s s' : Server) (i : Fin MAX_CONN_FD) (fd c : ℕ) : Prop where
  read : fd ∈ s.rfdset → fd ∈ s'.handled ∧ Answered r fd
  echoed : fd ∈ s.rfdset → ∀ data, r.read fd = .returns data → data.bytes ≠ [] →
    s'.connFds i = some fd ∧ s'.conn fd = some c ∧ s'.written c = s.written c ++ data.bytes
  quiet : fd ∉ s.rfdset →
    s'.connFds i = some fd ∧ s'.conn fd = some c ∧ s'.written c = s.written c

theorem Serving.entry (h : Serving r s i (.ok s')) (hi : s.connFds i = some fd)
    (hc : s.conn fd = some c) : Entry r s s' i fd c := by
  cases h with
  | passed h =>
    have hfd := h fd hi
    exact ⟨fun h => absurd h hfd, fun h => absurd h hfd, fun _ => ⟨hi, hc, rfl⟩⟩
  | closed hi' hfd hread hnil =>
    obtain rfl := Option.some.inj (hi'.symm.trans hi)
    refine ⟨fun _ => ⟨Finset.mem_insert_self _ _, _, hread, fun hne => absurd hnil hne⟩,
      fun _ data hdata hne => ?_, fun h => absurd hfd h⟩
    rw [hread] at hdata
    obtain rfl := Answer.returns.inj hdata
    exact absurd hnil hne
  | echoed hi' hfd hc' hread hne hwrite =>
    obtain rfl := Option.some.inj (hi'.symm.trans hi)
    obtain rfl := Option.some.inj (hc'.symm.trans hc)
    refine ⟨fun _ => ⟨Finset.mem_insert_self _ _, _, hread, fun _ => hwrite⟩,
      fun _ data hdata _ => ?_, fun h => absurd hfd h⟩
    rw [hread] at hdata
    obtain rfl := Answer.returns.inj hdata
    exact ⟨hi, hc, Function.update_self _ _ _⟩

/-- What happens before and behind the service of an entry does not matter to it. -/
theorem Entry.of_frames {s₁ s₂ : Server} (h : Entry r s₁ s₂ i fd c) (hbefore : Frame i fd c s s₁)
    (hafter : Frame i fd c s₂ s') : Entry r s s' i fd c where
  read hfd := by
    rcases h.read (hbefore.bits.2 hfd) with ⟨hhandled, hanswered⟩
    exact ⟨hafter.handled hhandled, hanswered⟩
  echoed hfd data hdata hne := by
    rw [hafter.connFds, hafter.conn, hafter.written, ← hbefore.written]
    exact h.echoed (hbefore.bits.2 hfd) data hdata hne
  quiet hfd := by
    rw [hafter.connFds, hafter.conn, hafter.written, ← hbefore.written]
    exact h.quiet fun h => hfd (hbefore.bits.1 h)

/-- **The loop** serves each entry when it comes to it. -/
theorem serveConns_entry (hs : Inv lfd dfd s) (h : serveConns r s = .ok s')
    (hi : s.connFds i = some fd) (hc : s.conn fd = some c) : Entry r s s' i fd c := by
  rcases List.append_of_mem (List.mem_finRange i) with ⟨before, after, hsplit⟩
  have hnodup := List.nodup_finRange MAX_CONN_FD
  rw [hsplit, List.nodup_middle, List.nodup_cons, List.mem_append, not_or] at hnodup
  rcases hnodup with ⟨⟨hbefore, hafter⟩, -⟩
  rw [serveConns, hsplit, List.foldlM_append, bind_eq_ok_iff] at h
  rcases h with ⟨s₁, h₁, h⟩
  rw [List.foldlM_cons, bind_eq_ok_iff] at h
  rcases h with ⟨s₂, h₂, h₃⟩
  rcases foldlM_serve_frame hs hbefore (own hs hi hc) h₁ with ⟨hs₁, hframe, hown₁⟩
  have hserving := serving hs₁ r i
  rw [h₂] at hserving
  have hentry := hserving.entry (hframe.connFds.trans hi) (hframe.conn.trans hc)
  rcases foldlM_serve_frame (hserving.inv hs₁) hafter (hserving.own hown₁) h₃ with
    ⟨-, hframe', -⟩
  exact hentry.of_frames hframe hframe'

/-! ## One pass -/

/-- The answers meet `C` and every connection of the table is served, or a call ends the server. -/
def Outcome (lfd dfd : ℕ) (r : Round) (s : Server) (C : Prop) (o : Except Stop Server) : Prop :=
  (C ∧ ∃ s', o = .ok s' ∧ Inv lfd dfd s' ∧
      ∀ i fd c, s.connFds i = some fd → s.conn fd = some c → Entry r s s' i fd c) ∨
    ¬ C ∧ ∃ e, o = .error e

/-- Every connection that is reported is answered. -/
def AllAnswered (r : Round) (s : Server) : Prop :=
  ∀ i fd, s.connFds i = some fd → fd ∈ s.rfdset → Answered r fd

theorem serveConns_outcome (hs : Inv lfd dfd s) (r : Round) :
    Outcome lfd dfd r s (AllAnswered r s) (serveConns r s) := by
  rcases foldlM_serve hs r (List.nodup_finRange MAX_CONN_FD) with
    ⟨hall, s', hfold, hs'⟩ | ⟨hall, hfold⟩
  · exact .inl ⟨fun i fd hi hfd => hall i (List.mem_finRange i) fd ⟨hi, hfd⟩, s', hfold, hs',
      fun i fd c hi hc => serveConns_entry hs hfold hi hc⟩
  · exact .inr ⟨fun h => hall fun i _ fd hfd => h i fd hfd.1 hfd.2, hfold⟩

theorem Outcome.congr {C C' : Prop} {o : Except Stop Server} (h : Outcome lfd dfd r s C o)
    (hC : C ↔ C') : Outcome lfd dfd r s C' o := by
  obtain rfl := propext hC
  exact h

/-- Nothing happens when nothing is reported. -/
theorem outcome_of_quiet (hs : Inv lfd dfd s)
    (hquiet : ∀ i fd, s.connFds i = some fd → fd ∉ s.rfdset) :
    Outcome lfd dfd r s (AllAnswered r s) (.ok s) :=
  .inl ⟨fun i fd hi hfd => absurd hfd (hquiet i fd hi), s, rfl, hs, fun i _ _ hi hc =>
    (Serving.passed fun fd' h => hquiet i fd' h).entry hi hc⟩

/-- The datagram is received and sent back. -/
def Datagram (r : Round) : Prop :=
  ∃ data, r.recvfrom = .returns data ∧ r.sendto = .returns data.bytes.length

theorem Outcome.of_echoDatagram {C : Prop} {o : Except Stop Server} {data : Data}
    (h : Outcome lfd dfd r (s.echoDatagram dfd data) C o) : Outcome lfd dfd r s C o := by
  rcases h with ⟨hC, s', ho, hs', hentries⟩ | h
  · refine .inl ⟨hC, s', ho, hs', fun i fd c hi hc => ?_⟩
    exact (hentries i fd c hi hc).of_frames ⟨rfl, rfl, rfl, Iff.rfl, Finset.mem_insert_of_mem⟩
      (.refl s')
  · exact .inr h

/-- The pass behind the accept branch. -/
theorem afterAccept_outcome (hs : Inv lfd dfd s) (r : Round) (hdfd : dfd < FD_SETSIZE) {nready : ℤ}
    (hlast : dfd ∈ s.rfdset → nready - 1 = 0 → ∀ i fd, s.connFds i = some fd → fd ∉ s.rfdset) :
    Outcome lfd dfd r s ((dfd ∈ s.rfdset → Datagram r) ∧ AllAnswered r s)
      (afterAccept dfd r s nready) := by
  unfold afterAccept
  rw [fdIsSet_eq hdfd, orFault_ok, ok_bind]
  by_cases hready : dfd ∈ s.rfdset
  · rw [decide_eq_true hready, if_pos rfl]
    by_cases hdatagram : Datagram r
    · rcases hdatagram with ⟨data, hrecv, hsend⟩
      rw [hrecv, hsend, orExit_returns, ok_bind, whole_returns, ok_bind]
      have hs' := hs.echoDatagram data
      have houtcome : Outcome lfd dfd r (s.echoDatagram dfd data)
          (AllAnswered r (s.echoDatagram dfd data))
          (if nready - 1 = 0 then pure (s.echoDatagram dfd data)
            else serveConns r (s.echoDatagram dfd data)) := by
        by_cases hnready : nready - 1 = 0
        · rw [if_pos hnready]
          exact outcome_of_quiet hs' (hlast hready hnready)
        · rw [if_neg hnready]
          exact serveConns_outcome hs' r
      refine houtcome.of_echoDatagram.congr ?_
      exact ⟨fun h => ⟨fun _ => ⟨data, hrecv, hsend⟩, h⟩, fun h => h.2⟩
    · refine .inr ⟨fun h => hdatagram (h.1 hready), ?_⟩
      by_cases hrecv : ∃ data, r.recvfrom = .returns data
      · rcases hrecv with ⟨data, hrecv⟩
        have hsend : r.sendto ≠ .returns data.bytes.length :=
          fun hsend => hdatagram ⟨data, hrecv, hsend⟩
        rcases whole_error .sendto hsend with ⟨e, he⟩
        rw [hrecv, orExit_returns, ok_bind, he]
        exact ⟨e, rfl⟩
      · rcases orExit_error .recvfrom hrecv with ⟨e, he⟩
        rw [he]
        exact ⟨e, rfl⟩
  · rw [decide_eq_false hready, if_neg Bool.false_ne_true]
    refine (serveConns_outcome hs r).congr ?_
    exact ⟨fun h => ⟨fun h' => absurd h' hready, h⟩, fun h => h.2⟩

/-- **The table is not full** while every descriptor fits: the descriptors of the sockets are
missing in it. -/
theorem connections_lt (hs : Inv lfd dfd s) (hlfd : lfd < FD_SETSIZE) :
    s.connections < MAX_CONN_FD := by
  by_contra hfull
  have hcard : (Finset.univ.filter fun i => s.connFds i ≠ none) = Finset.univ := by
    refine Finset.eq_univ_of_card _ (le_antisymm (Finset.card_le_univ _) ?_)
    rw [Fintype.card_fin]
    exact not_lt.1 hfull
  have hsome : ∀ i, ∃ fd, s.connFds i = some fd := by
    intro i
    exact Option.ne_none_iff_exists'.1 (Finset.filter_eq_self.1 hcard i (Finset.mem_univ i))
  choose f hf using hsome
  have hsize : FD_SETSIZE = MAX_CONN_FD := rfl
  let g : Fin MAX_CONN_FD → Fin MAX_CONN_FD :=
    fun i => ⟨f i, (hs.range i (f i) (hf i)).trans_eq hsize⟩
  have hg : Function.Injective g := by
    intro i j hij
    have hfij : f i = f j := congrArg Fin.val hij
    exact hs.distinct i j (f i) (hf i) (hfij ▸ hf j)
  rcases (Finite.injective_iff_surjective.1 hg) ⟨lfd, hlfd.trans_eq hsize⟩ with ⟨i, hi⟩
  exact (hs.ne i (f i) (hf i)).1 (congrArg Fin.val hi)

/-- When the sockets make up all that is reported, no connection is. -/
theorem quiet_of_card (hs : Inv lfd dfd s) {t : Finset ℕ} (ht : t ⊆ {lfd, dfd})
    (hsub : t ⊆ s.rfdset) (hcard : s.rfdset.card ≤ t.card) :
    ∀ i fd, s.connFds i = some fd → fd ∉ s.rfdset := by
  intro i fd hi hfd
  rw [← Finset.eq_of_subset_of_card_le hsub hcard] at hfd
  rcases hs.ne i fd hi with ⟨hlfd, hdfd⟩
  rcases Finset.mem_insert.1 (ht hfd) with h | h
  · exact hlfd h
  · exact hdfd (Finset.mem_singleton.1 h)

/-- A new connection is not among the reported ones. -/
theorem notMem_rfdset (hs : Inv lfd dfd s) {connfd : ℕ} (hnew : ¬ s.IsOpen lfd dfd connfd) :
    connfd ∉ s.rfdset := by
  intro hmem
  rcases hs.bits connfd hmem with h | h | ⟨i, hi⟩
  · exact hnew (.inl h)
  · exact hnew (.inr (.inl h))
  · exact hnew (.inr (.inr (hs.isOpen i connfd hi)))

theorem Outcome.of_accept {C : Prop} {o : Except Stop Server} {j : Fin MAX_CONN_FD} {connfd : ℕ}
    (hs : Inv lfd dfd s) (hj : s.connFds j = none) (hnew : ¬ s.IsOpen lfd dfd connfd)
    (h : Outcome lfd dfd r (s.accept lfd j connfd) C o) : Outcome lfd dfd r s C o := by
  rcases h with ⟨hC, s', ho, hs', hentries⟩ | h
  · refine .inl ⟨hC, s', ho, hs', fun i fd c hi hc => ?_⟩
    have hij : i ≠ j := by
      rintro rfl
      rw [hj] at hi
      cases hi
    have hfd : fd ≠ connfd := hs.ne_of_not_isOpen hnew hi
    have hframe : Frame i fd c s (s.accept lfd j connfd) :=
      ⟨Function.update_of_ne hij _ _, Function.update_of_ne hfd _ _, rfl, Iff.rfl,
        Finset.mem_insert_of_mem⟩
    exact (hentries i fd c (hframe.connFds.trans hi) (hframe.conn.trans hc)).of_frames hframe
      (.refl s')
  · exact .inr h

theorem allAnswered_accept {j : Fin MAX_CONN_FD} {connfd : ℕ} (hs : Inv lfd dfd s)
    (hj : s.connFds j = none) (hnew : ¬ s.IsOpen lfd dfd connfd) :
    AllAnswered r (s.accept lfd j connfd) ↔ AllAnswered r s := by
  constructor
  · intro h i fd hi hfd
    refine h i fd ((accept_connFds hj).2 (.inr ⟨?_, hi⟩)) hfd
    rintro rfl
    rw [hj] at hi
    cases hi
  · intro h i fd hi hfd
    rcases (accept_connFds hj).1 hi with ⟨-, rfl⟩ | ⟨-, hi⟩
    · exact absurd hfd (notMem_rfdset hs hnew)
    · exact h i fd hi hfd

/-- The pass behind a successful `accept`. -/
theorem accepted_outcome {j : Fin MAX_CONN_FD} {connfd : ℕ}
    (hs' : Inv lfd dfd (s.accept lfd j connfd)) (hne : lfd ≠ dfd) (hdfd : dfd < FD_SETSIZE)
    (hready : lfd ∈ s.rfdset) :
    Outcome lfd dfd r (s.accept lfd j connfd)
      ((dfd ∈ s.rfdset → Datagram r) ∧ AllAnswered r (s.accept lfd j connfd))
      (if (s.rfdset.card : ℤ) - 1 = 0 then pure (s.accept lfd j connfd)
        else afterAccept dfd r (s.accept lfd j connfd) (s.rfdset.card - 1)) := by
  by_cases hlast : (s.rfdset.card : ℤ) - 1 = 0
  · rw [if_pos hlast]
    have hone : s.rfdset = {lfd} := by
      refine (Finset.eq_of_subset_of_card_le (Finset.singleton_subset_iff.2 hready) ?_).symm
      rw [Finset.card_singleton]
      omega
    have hdatagram : dfd ∉ s.rfdset := by
      rw [hone, Finset.mem_singleton]
      exact hne.symm
    have hquiet := quiet_of_card hs' (t := {lfd}) (by simp)
      (Finset.singleton_subset_iff.2 hready) (by
        rw [Finset.card_singleton]
        change s.rfdset.card ≤ 1
        omega)
    refine (outcome_of_quiet hs' hquiet).congr ?_
    exact ⟨fun h => ⟨fun h' => absurd h' hdatagram, h⟩, fun h => h.2⟩
  · rw [if_neg hlast]
    refine afterAccept_outcome hs' r hdfd fun hmem hlast' => ?_
    refine quiet_of_card hs' (t := {lfd, dfd}) subset_rfl ?_ ?_
    · exact Finset.insert_subset hready (Finset.singleton_subset_iff.2 hmem)
    · rw [Finset.card_pair hne]
      change s.rfdset.card ≤ 2
      omega

/-- The pass behind `select`, when the accepted descriptor fits. -/
theorem afterSelect_outcome (hs : Inv lfd dfd s) (hadmits : Admits lfd dfd s r) (hne : lfd ≠ dfd)
    (hlfd : lfd < FD_SETSIZE) (hdfd : dfd < FD_SETSIZE)
    (hfits : lfd ∈ s.rfdset → ∀ connfd, r.accept = .returns connfd → connfd < FD_SETSIZE) :
    Outcome lfd dfd r s ((lfd ∈ s.rfdset → ∃ connfd, r.accept = .returns connfd) ∧
        (dfd ∈ s.rfdset → Datagram r) ∧ AllAnswered r s)
      (afterSelect lfd dfd r s s.rfdset.card) := by
  unfold afterSelect
  rw [fdIsSet_eq hlfd, orFault_ok, ok_bind]
  by_cases hready : lfd ∈ s.rfdset
  · rw [decide_eq_true hready, if_pos rfl]
    rcases firstFree_eq (connections_lt hs hlfd) with ⟨j, hfree, hj⟩
    rw [hfree]
    dsimp only
    by_cases haccept : ∃ connfd, r.accept = .returns connfd
    · rcases haccept with ⟨connfd, haccept⟩
      rw [haccept, orExit_returns, ok_bind]
      have hnew : ¬ s.IsOpen lfd dfd connfd := hadmits connfd (by rw [haccept]; rfl)
      have hs' := hs.accept hj hnew (hfits hready connfd haccept)
      have hcond : (dfd ∈ s.rfdset → Datagram r) ∧ AllAnswered r (s.accept lfd j connfd) ↔
          (lfd ∈ s.rfdset → ∃ connfd', Answer.returns connfd = .returns connfd') ∧
            (dfd ∈ s.rfdset → Datagram r) ∧ AllAnswered r s := by
        rw [allAnswered_accept hs hj hnew]
        exact ⟨fun h => ⟨fun _ => ⟨connfd, rfl⟩, h⟩, fun h => h.2⟩
      exact ((accepted_outcome hs' hne hdfd hready).of_accept hs hj hnew).congr hcond
    · rcases orExit_error .accept haccept with ⟨e, he⟩
      rw [he]
      exact .inr ⟨fun h => haccept (h.1 hready), e, rfl⟩
  · rw [decide_eq_false hready, if_neg Bool.false_ne_true]
    refine (afterAccept_outcome hs r hdfd fun hmem hlast => ?_).congr ?_
    · refine quiet_of_card hs (t := {dfd}) (by simp) (Finset.singleton_subset_iff.2 hmem) ?_
      rw [Finset.card_singleton]
      omega
    · exact ⟨fun h => ⟨fun h' => absurd h' hready, h⟩, fun h => h.2⟩

/-! ### A descriptor that does not fit -/

theorem orFault_eq_ok {α : Type} {x : Except Fault α} {a : α} : orFault x = .ok a ↔ x = .ok a := by
  cases x with
  | ok b => simp
  | error f =>
    rw [orFault_error]
    exact iff_of_false (by simp) (by simp)

theorem connFds_of_read {bs : List UInt8} (h : s.read fd bs = .ok s') : s'.connFds = s.connFds := by
  rw [Server.read] at h
  cases hc : s.conn fd with
  | none =>
    rw [hc] at h
    cases h
  | some c =>
    rw [hc] at h
    obtain rfl := Except.ok.inj h
    rfl

theorem connFds_of_write {bs : List UInt8} (h : s.write fd bs = .ok s') :
    s'.connFds = s.connFds := by
  rw [Server.write] at h
  cases hc : s.conn fd with
  | none =>
    rw [hc] at h
    cases h
  | some c =>
    rw [hc] at h
    obtain rfl := Except.ok.inj h
    rfl

theorem serve_connFds_of_ne {j : Fin MAX_CONN_FD} (h : serve r s j = .ok s') (hj : i ≠ j) :
    s'.connFds i = s.connFds i := by
  rw [serve] at h
  cases hfd : s.connFds j with
  | none =>
    rw [hfd] at h
    obtain rfl := Except.ok.inj h
    rfl
  | some fd =>
    rw [hfd] at h
    rcases bind_eq_ok_iff.1 h with ⟨isSet, -, h⟩
    cases isSet with
    | false =>
      obtain rfl := Except.ok.inj h
      rfl
    | true =>
      rw [if_pos rfl] at h
      rcases bind_eq_ok_iff.1 h with ⟨data, -, h⟩
      rcases bind_eq_ok_iff.1 h with ⟨s₁, hread, h⟩
      rw [← connFds_of_read (orFault_eq_ok.1 hread)]
      by_cases hlen : data.bytes.length = 0
      · rw [if_pos hlen] at h
        rcases bind_eq_ok_iff.1 h with ⟨rfdset, -, h⟩
        obtain rfl := Except.ok.inj h
        exact Function.update_of_ne hj _ _
      · rw [if_neg hlen] at h
        rcases bind_eq_ok_iff.1 h with ⟨-, -, h⟩
        rw [connFds_of_write (orFault_eq_ok.1 h)]

/-- A descriptor that does not fit ends the loop over the connections. -/
theorem foldlM_serve_large (hi : s.connFds i = some fd) (hfd : FD_SETSIZE ≤ fd)
    {l : List (Fin MAX_CONN_FD)} (hl : i ∈ l) : ∃ e, l.foldlM (serve r) s = .error e := by
  induction l generalizing s with
  | nil => cases hl
  | cons j l ih =>
    rw [List.foldlM_cons]
    cases hserve : serve r s j with
    | error e => exact ⟨e, rfl⟩
    | ok s₁ =>
      have hij : i ≠ j := by
        rintro rfl
        rw [serve, hi] at hserve
        simp only [fdIsSet, if_neg (not_lt.2 hfd)] at hserve
        cases hserve
      rw [ok_bind]
      refine ih ((serve_connFds_of_ne hserve hij).trans hi) ?_
      exact (List.mem_cons.1 hl).resolve_left hij

/-- Such a descriptor stays in the table as long as the server goes on. -/
theorem afterAccept_large {nready : ℤ} (h : afterAccept dfd r s nready = .ok s')
    (hi : s.connFds i = some fd) (hfd : FD_SETSIZE ≤ fd) : s'.connFds i = some fd := by
  have hconns : ∀ t : Server, t.connFds i = some fd → serveConns r t ≠ .ok s' := by
    intro t ht hserve
    rcases foldlM_serve_large (r := r) ht hfd (List.mem_finRange i) with ⟨e, he⟩
    rw [serveConns, he] at hserve
    cases hserve
  unfold afterAccept at h
  rcases bind_eq_ok_iff.1 h with ⟨isSet, -, h⟩
  cases isSet with
  | false =>
    rw [if_neg Bool.false_ne_true] at h
    exact absurd h (hconns s hi)
  | true =>
    rw [if_pos rfl] at h
    rcases bind_eq_ok_iff.1 h with ⟨data, -, h⟩
    rcases bind_eq_ok_iff.1 h with ⟨-, -, h⟩
    by_cases hlast : nready - 1 = 0
    · rw [if_pos hlast] at h
      obtain rfl := Except.ok.inj h
      exact hi
    · rw [if_neg hlast] at h
      exact absurd h (hconns _ hi)

theorem afterSelect_large (hs : Inv lfd dfd s) (hlfd : lfd < FD_SETSIZE) (hready : lfd ∈ s.rfdset)
    {connfd : ℕ} (haccept : r.accept = .returns connfd) (hlarge : FD_SETSIZE ≤ connfd) {nready : ℤ}
    (h : afterSelect lfd dfd r s nready = .ok s') : ∃ i, s'.connFds i = some connfd := by
  rcases firstFree_eq (connections_lt hs hlfd) with ⟨j, hfree, -⟩
  unfold afterSelect at h
  rw [fdIsSet_eq hlfd, orFault_ok, ok_bind, decide_eq_true hready, if_pos rfl, hfree] at h
  dsimp only at h
  rw [haccept, orExit_returns, ok_bind] at h
  have hentry : (s.accept lfd j connfd).connFds j = some connfd := Function.update_self _ _ _
  by_cases hlast : nready - 1 = 0
  · rw [if_pos hlast] at h
    obtain rfl := Except.ok.inj h
    exact ⟨j, hentry⟩
  · rw [if_neg hlast] at h
    exact ⟨j, afterAccept_large h hentry hlarge⟩

/-! ## The server -/

theorem pass_of_not_sockets (h : ¬ (lfd < FD_SETSIZE ∧ dfd < FD_SETSIZE)) (s : Server) (r : Round) :
    pass lfd dfd s r = .error (.fault .fdRange) := by
  unfold pass Server.wait
  by_cases hlfd : lfd < FD_SETSIZE
  · have hdfd : ¬ dfd < FD_SETSIZE := fun hdfd => h ⟨hlfd, hdfd⟩
    rw [fdSet, if_pos hlfd, ok_bind, fdSet, if_neg hdfd]
    rfl
  · rw [fdSet, if_neg hlfd]
    rfl

/-- The connections of the table are served when each has its entry. -/
theorem serves_of_entries {reported : Finset ℕ} (hs : Inv lfd dfd s) (hs' : Inv lfd dfd s')
    (hreported : ∀ i fd, s.connFds i = some fd → (fd ∈ reported ↔ fd ∈ r.ready))
    (h : ∀ i fd c, s.connFds i = some fd → s.conn fd = some c →
      Entry r (s.report reported) s' i fd c) : Serves r s s' where
  fits := hs'.range
  read i fd hi hfd := by
    rcases Option.isSome_iff_exists.1 (hs.isOpen i fd hi) with ⟨c, hc⟩
    exact ((h i fd c hi hc).read ((hreported i fd hi).2 hfd)).1
  echoed i fd c data hi hc hfd hread hne _ :=
    (h i fd c hi hc).echoed ((hreported i fd hi).2 hfd) data hread hne
  closed i fd hi hfd hread := by
    rcases Option.isSome_iff_exists.1 (hs.isOpen i fd hi) with ⟨c, hc⟩
    rcases ((h i fd c hi hc).read ((hreported i fd hi).2 hfd)).2 with ⟨data, hdata, -⟩
    rw [hread] at hdata
    cases hdata
  quiet i fd c hi hc hfd := (h i fd c hi hc).quiet fun h => hfd ((hreported i fd hi).1 h)

/-- **One pass**: either no call fails, and the clients are served; or the server ends, or it has
taken a descriptor that does not fit. -/
theorem pass_cases (hs : Inv lfd dfd s) (hadmits : Admits lfd dfd s r) (hne : lfd ≠ dfd) :
    Undisturbed lfd dfd s r ∧ (∃ s', pass lfd dfd s r = .ok s' ∧ Inv lfd dfd s' ∧ Serves r s s') ∨
      ¬ Undisturbed lfd dfd s r ∧ ¬ Available r s (pass lfd dfd s r) := by
  by_cases hsockets : lfd < FD_SETSIZE ∧ dfd < FD_SETSIZE
  · rcases hs.wait_eq hsockets.1 hsockets.2 r.ready with ⟨reported, hmem, hs₁, hwait⟩
    have hpass : pass lfd dfd s r =
        afterSelect lfd dfd r (s.report reported) (s.report reported).rfdset.card := by
      have hset : (s.report reported).rfdset = reported := rfl
      rw [pass, hwait, orFault_ok, ok_bind, hset]
    have hlfd : lfd ∈ reported ↔ lfd ∈ r.ready := by
      rw [hmem]
      exact ⟨fun h => h.2.2, fun h => ⟨.inl rfl, hs.listening.1, h⟩⟩
    have hdfd : dfd ∈ reported ↔ dfd ∈ r.ready := by
      rw [hmem]
      exact ⟨fun h => h.2.2, fun h => ⟨.inr (.inl rfl), hs.listening.2, h⟩⟩
    have hconns : ∀ i fd, s.connFds i = some fd → (fd ∈ reported ↔ fd ∈ r.ready) := by
      intro i fd hi
      rw [hmem]
      exact ⟨fun h => h.2.2, fun h => ⟨.inr (.inr ⟨i, hi⟩), hs.lt_nfds i fd hi, h⟩⟩
    rw [hpass]
    by_cases hfits : lfd ∈ reported → ∀ connfd, r.accept = .returns connfd → connfd < FD_SETSIZE
    · rcases afterSelect_outcome hs₁ hadmits hne hsockets.1 hsockets.2 hfits with
        ⟨⟨haccept, hdatagram, hall⟩, s', ho, hs', hentries⟩ | ⟨hcond, e, ho⟩
      · refine .inl ⟨⟨hsockets, fun h => ?_, fun h => hdatagram (hdfd.2 h), fun i fd hi hfd => ?_⟩,
          s', ho, hs', serves_of_entries hs hs' hconns hentries⟩
        · rcases haccept (hlfd.2 h) with ⟨connfd, hconnfd⟩
          exact ⟨connfd, hfits (hlfd.2 h) connfd hconnfd, hconnfd⟩
        · exact hall i fd hi ((hconns i fd hi).2 hfd)
      · refine .inr ⟨fun hcalm => hcond ⟨fun h => ?_, fun h => ?_, fun i fd hi hfd => ?_⟩, ?_⟩
        · rcases hcalm.accept (hlfd.1 h) with ⟨connfd, -, hconnfd⟩
          exact ⟨connfd, hconnfd⟩
        · exact hcalm.datagram (hdfd.1 h)
        · exact hcalm.connections i fd hi ((hconns i fd hi).1 hfd)
        · rintro ⟨s', hs', -⟩
          rw [ho] at hs'
          cases hs'
    · push Not at hfits
      rcases hfits with ⟨hready, connfd, haccept, hlarge⟩
      refine .inr ⟨fun hcalm => ?_, ?_⟩
      · rcases hcalm.accept (hlfd.1 hready) with ⟨connfd', hfit, haccept'⟩
        rw [haccept] at haccept'
        obtain rfl := Answer.returns.inj haccept'
        exact absurd hfit (not_lt.2 hlarge)
      · rintro ⟨s', ho, hserves⟩
        rcases afterSelect_large hs₁ hsockets.1 hready haccept hlarge ho with ⟨i, hi⟩
        exact absurd (hserves.fits i connfd hi) (not_lt.2 hlarge)
  · refine .inr ⟨fun h => hsockets h.sockets, ?_⟩
    rintro ⟨s', ho, -⟩
    rw [pass_of_not_sockets hsockets] at ho
    cases ho

theorem step_ok (h : Admits lfd dfd s r) :
    (machine lfd dfd).step (.ok s) r = some (pass lfd dfd s r) := if_pos h

/-- A run whose passes are undisturbed keeps the invariant. -/
theorem inv_of_undisturbed (hne : lfd ≠ dfd) {o : Except Stop Server}
    (h : (machine lfd dfd).ReachableBy (fun o r => ∀ s, o = .ok s → Undisturbed lfd dfd s r) o) :
    ∃ s, o = .ok s ∧ Inv lfd dfd s := by
  refine h.invariant (I := fun o => ∃ s, o = .ok s ∧ Inv lfd dfd s)
    ⟨start lfd dfd, rfl, SelectEcho.inv_start lfd dfd⟩ ?_
  rintro _ r o' ⟨s, rfl, hs⟩ hcalm hstep
  simp only [machine, Option.ite_none_right_eq_some] at hstep
  rcases hstep with ⟨hadmits, hstep⟩
  rcases pass_cases hs hadmits hne with ⟨-, s', hpass, hs', -⟩ | ⟨hdisturbed, -⟩
  · exact ⟨s', (Option.some.inj hstep).symm.trans hpass, hs'⟩
  · exact absurd (hcalm s rfl) hdisturbed

/-- In every run in which no call fails or waits and no descriptor leaves the set, the server goes
on, and its next pass serves the clients exactly when that is so again. -/
theorem available_iff (hne : lfd ≠ dfd) {o : Except Stop Server}
    (h : (machine lfd dfd).ReachableBy (fun o r => ∀ s, o = .ok s → Undisturbed lfd dfd s r) o) :
    ∃ s, o = .ok s ∧ (∀ i fd, s.connFds i = some fd → fd < FD_SETSIZE) ∧
      ∀ r, Admits lfd dfd s r →
        (Available r s (pass lfd dfd s r) ↔ Undisturbed lfd dfd s r) := by
  rcases inv_of_undisturbed hne h with ⟨s, rfl, hs⟩
  refine ⟨s, rfl, hs.range, fun r hadmits => ?_⟩
  rcases pass_cases hs hadmits hne with ⟨hcalm, s', hpass, -, hserves⟩ | ⟨hdisturbed, hnot⟩
  · exact iff_of_true ⟨s', hpass, hserves⟩ hcalm
  · exact iff_of_false hnot hdisturbed

/-- A client connects and gets the descriptor `fd`. -/
def connect (fd : ℕ) : Round where
  ready := {3}
  accept := .returns fd
  recvfrom := .fails
  sendto := .fails
  read _ := .fails
  write _ := .fails

/-- The client behind the descriptor `fd` has reset its connection. -/
def reset (fd : ℕ) : Round where
  ready := {fd}
  accept := .fails
  recvfrom := .fails
  sendto := .fails
  read _ := .fails
  write _ := .fails

theorem undisturbed_connect : Undisturbed 3 4 (start 3 4) (connect 5) where
  sockets := by decide
  accept _ := ⟨5, by decide, rfl⟩
  datagram h := absurd h (by decide)
  connections _ _ h := by cases h

theorem admits_connect : Admits 3 4 (start 3 4) (connect 5) := by
  intro connfd hconnfd
  obtain rfl := Option.some.inj hconnfd
  rintro (h | h | h)
  · cases h
  · cases h
  · cases h

theorem available_iff_connect : ∃ s, pass 3 4 (start 3 4) (connect 5) = .ok s ∧
    (∀ i fd, s.connFds i = some fd → fd < FD_SETSIZE) ∧
    ∀ r, Admits 3 4 s r → (Available r s (pass 3 4 s r) ↔ Undisturbed 3 4 s r) := by
  refine available_iff (by decide) (.step .init ?_ (step_ok admits_connect))
  intro s hs
  obtain rfl := Except.ok.inj hs
  exact undisturbed_connect

/-- A new client gets an entry. -/
theorem pass_connect (hs : Inv lfd dfd s) (hlfd : lfd < FD_SETSIZE) (hdfd : dfd < FD_SETSIZE)
    (hready : r.ready = {lfd}) {connfd : ℕ} (haccept : r.accept = .returns connfd) :
    ∃ s' j, pass lfd dfd s r = .ok s' ∧ s'.connFds j = some connfd := by
  rcases hs.wait_eq hlfd hdfd r.ready with ⟨reported, hmem, -, hwait⟩
  obtain rfl : reported = {lfd} := by
    ext fd
    rw [hmem, hready, Finset.mem_singleton]
    constructor
    · exact fun h => h.2.2
    · rintro rfl
      exact ⟨.inl rfl, hs.listening.1, rfl⟩
  rcases firstFree_eq (connections_lt hs hlfd) with ⟨j, hfree, -⟩
  have hfree' : firstFree (s.report {lfd}).connFds = some j := hfree
  refine ⟨(s.report {lfd}).accept lfd j connfd, j, ?_, Function.update_self _ _ _⟩
  have hset : (s.report {lfd}).rfdset = {lfd} := rfl
  rw [pass, hwait, orFault_ok, ok_bind]
  dsimp only
  rw [afterSelect, fdIsSet_eq hlfd, hset, orFault_ok, ok_bind,
    decide_eq_true (Finset.mem_singleton_self lfd), if_pos rfl, hfree']
  dsimp only
  rw [haccept, orExit_returns, ok_bind, Finset.card_singleton]
  rfl

/-- A client resets its connection, and `errExit("read")` ends the server for all of them. -/
theorem reset_ends_server :
    ¬ ∀ o, (machine 3 4).Reachable o →
      ∃ s, o = .ok s ∧ ∀ r, Admits 3 4 s r → Available r s (pass 3 4 s r) := by
  intro hall
  have hstart := SelectEcho.inv_start 3 4
  rcases pass_connect (r := connect 5) hstart (by decide) (by decide) rfl rfl with
    ⟨s, j, hpass, hj⟩
  have hs : Inv 3 4 s := by
    rcases pass_cases hstart admits_connect (by decide) with ⟨-, s', hpass', hs', -⟩ | ⟨h, -⟩
    · rw [hpass] at hpass'
      obtain rfl := Except.ok.inj hpass'
      exact hs'
    · exact absurd undisturbed_connect h
  rcases hall (.ok s)
      (.step .init trivial ((step_ok admits_connect).trans (congrArg some hpass))) with
    ⟨s', hs', havailable⟩
  obtain rfl := Except.ok.inj hs'
  have hadmits : Admits 3 4 s (reset 5) := fun _ h => by cases h
  rcases pass_cases hs hadmits (by decide) with ⟨hcalm, -⟩ | ⟨-, hnot⟩
  · rcases hcalm.connections j 5 hj (Finset.mem_singleton_self 5) with ⟨data, hdata, -⟩
    cases hdata
  · exact hnot (havailable (reset 5) hadmits)

/-! ## The passes in which no call fails -/

/-- What `SelectEcho` is told of the answers; `connfd` is a descriptor for `accept` when there is
nothing to accept. -/
def Round.answered (r : Round) (connfd : ℕ) : SelectEcho.Round where
  ready := r.ready
  accepted := r.accept.value.getD connfd
  datagram := r.recvfrom.value.getD ⟨[], Nat.zero_le _⟩
  reads fd := (r.read fd).value.getD ⟨[], Nat.zero_le _⟩

theorem orFault_bind {α β : Type} (x : Except Fault α) (f : α → Except Fault β) :
    orFault (x >>= f) = orFault x >>= fun a => orFault (f a) := by
  cases x with
  | ok a => rfl
  | error e => rfl

theorem orFault_ite {α : Type} (p : Prop) [Decidable p] (x y : Except Fault α) :
    orFault (if p then x else y) = if p then orFault x else orFault y := by
  split
  · rfl
  · rfl

theorem serve_eq_orFault (n : ℕ) {i : Fin MAX_CONN_FD}
    (h : ∀ fd, s.connFds i = some fd ∧ fd ∈ s.rfdset → Answered r fd) :
    serve r s i = orFault (SelectEcho.serve (r.answered n).reads s i) := by
  rw [serve, SelectEcho.serve]
  cases hi : s.connFds i with
  | none => rfl
  | some fd =>
    dsimp only
    rw [orFault_bind]
    by_cases hrange : fd < FD_SETSIZE
    · rw [fdIsSet_eq hrange, orFault_ok, ok_bind, ok_bind]
      by_cases hfd : fd ∈ s.rfdset
      · rcases h fd ⟨hi, hfd⟩ with ⟨data, hread, hwrite⟩
        have hdata : (r.answered n).reads fd = data := by
          simp only [Round.answered, hread]
          rfl
        rw [decide_eq_true hfd, if_pos rfl, if_pos rfl, hread, orExit_returns, ok_bind, hdata,
          orFault_bind]
        apply bind_congr
        intro s₁
        rw [orFault_ite, orFault_bind]
        by_cases hnil : data.bytes.length = 0
        · rw [if_pos hnil, if_pos hnil]
          rfl
        · have hne : data.bytes ≠ [] := fun h => hnil (h ▸ rfl)
          rw [if_neg hnil, if_neg hnil, hwrite hne, whole_returns, ok_bind]
      · rw [decide_eq_false hfd, if_neg Bool.false_ne_true, if_neg Bool.false_ne_true]
        rfl
    · rw [fdIsSet, if_neg hrange]
      rfl

theorem foldlM_serve_eq_orFault (hs : Inv lfd dfd s) (n : ℕ) {l : List (Fin MAX_CONN_FD)}
    (hl : l.Nodup)
    (hall : ∀ i ∈ l, ∀ fd, s.connFds i = some fd ∧ fd ∈ s.rfdset → Answered r fd) :
    l.foldlM (serve r) s = orFault (l.foldlM (SelectEcho.serve (r.answered n).reads) s) := by
  induction l generalizing s with
  | nil => rfl
  | cons i l ih =>
    rcases List.nodup_cons.1 hl with ⟨hil, hl⟩
    rcases List.forall_mem_cons.1 hall with ⟨hhead, hall⟩
    rw [List.foldlM_cons, List.foldlM_cons, orFault_bind, ← serve_eq_orFault n hhead]
    cases hserve : serve r s i with
    | error e => rfl
    | ok s₁ =>
      have hserving := serving hs r i
      rw [hserve] at hserving
      refine ih (hserving.inv hs) hl fun j hj fd hfd => hall j hj fd ?_
      exact (hserving.others hs fun h => hil (h ▸ hj)).1 hfd

theorem serveConns_eq_orFault (hs : Inv lfd dfd s) (n : ℕ) (hall : AllAnswered r s) :
    serveConns r s = orFault (SelectEcho.serveConns (r.answered n).reads s) :=
  foldlM_serve_eq_orFault hs n (List.nodup_finRange MAX_CONN_FD) fun i _ fd h => hall i fd h.1 h.2

theorem afterAccept_eq_orFault (hs : Inv lfd dfd s) (n : ℕ) (hdfd : dfd < FD_SETSIZE)
    (hdatagram : dfd ∈ s.rfdset → Datagram r) (hall : AllAnswered r s) (nready : ℤ) :
    afterAccept dfd r s nready = orFault (SelectEcho.afterAccept dfd (r.answered n) s nready) := by
  unfold afterAccept SelectEcho.afterAccept
  rw [fdIsSet_eq hdfd, orFault_ok, ok_bind, ok_bind]
  by_cases hready : dfd ∈ s.rfdset
  · rcases hdatagram hready with ⟨data, hrecv, hsend⟩
    have hdata : (r.answered n).datagram = data := by
      rw [Round.answered, hrecv]
      rfl
    rw [decide_eq_true hready, if_pos rfl, if_pos rfl, hrecv, hsend, orExit_returns, ok_bind,
      whole_returns, ok_bind, hdata, orFault_ite,
      ← serveConns_eq_orFault (hs.echoDatagram data) n hall]
    rfl
  · rw [decide_eq_false hready, if_neg Bool.false_ne_true, if_neg Bool.false_ne_true]
    exact serveConns_eq_orFault hs n hall

theorem afterSelect_eq_orFault (hs : Inv lfd dfd s) (n : ℕ) (hadmits : Admits lfd dfd s r)
    (hlfd : lfd < FD_SETSIZE) (hdfd : dfd < FD_SETSIZE)
    (haccept : lfd ∈ s.rfdset → ∃ connfd, connfd < FD_SETSIZE ∧ r.accept = .returns connfd)
    (hdatagram : dfd ∈ s.rfdset → Datagram r) (hall : AllAnswered r s) (nready : ℤ) :
    afterSelect lfd dfd r s nready =
      orFault (SelectEcho.afterSelect lfd dfd (r.answered n) s nready) := by
  unfold afterSelect SelectEcho.afterSelect
  rw [fdIsSet_eq hlfd, orFault_ok, ok_bind, ok_bind]
  by_cases hready : lfd ∈ s.rfdset
  · rcases haccept hready with ⟨connfd, hfit, haccept⟩
    rcases firstFree_eq (connections_lt hs hlfd) with ⟨j, hfree, hj⟩
    have hnew : ¬ s.IsOpen lfd dfd connfd := hadmits connfd (by rw [haccept]; rfl)
    have hconnfd : (r.answered n).accepted = connfd := by
      simp only [Round.answered, haccept]
      rfl
    rw [decide_eq_true hready, if_pos rfl, if_pos rfl, hfree]
    dsimp only
    rw [haccept, orExit_returns, ok_bind, hconnfd, orFault_ite,
      ← afterAccept_eq_orFault (hs.accept hj hnew hfit) n hdfd hdatagram
        ((allAnswered_accept hs hj hnew).2 hall)]
    rfl
  · rw [decide_eq_false hready, if_neg Bool.false_ne_true, if_neg Bool.false_ne_true]
    exact afterAccept_eq_orFault hs n hdfd hdatagram hall nready

/-- **A pass in which no call fails** is one of `SelectEcho`. -/
theorem exists_pass_eq_orFault (hs : Inv lfd dfd s) (hadmits : Admits lfd dfd s r)
    (hcalm : Undisturbed lfd dfd s r) :
    ∃ r', s.Admits lfd dfd r' ∧ SelectEcho.Fits lfd r' ∧
      pass lfd dfd s r = orFault (SelectEcho.pass lfd dfd s r') := by
  rcases hs.wait_eq hcalm.sockets.1 hcalm.sockets.2 r.ready with ⟨reported, hmem, hs₁, hwait⟩
  -- no open descriptor is as large as `nfds`
  have hnfds : ¬ s.IsOpen lfd dfd s.nfds := by
    rintro (h | h | h)
    · exact absurd hs.listening.1 (by omega)
    · exact absurd hs.listening.2 (by omega)
    · rcases hs.listed s.nfds h with ⟨i, hi⟩
      exact absurd (hs.lt_nfds i s.nfds hi) (lt_irrefl _)
  refine ⟨r.answered s.nfds, ⟨?_, fun _ => connections_lt hs hcalm.sockets.1⟩, fun h => ?_, ?_⟩
  · rw [Round.answered]
    cases haccept : r.accept with
    | returns connfd => exact hadmits connfd (by rw [haccept]; rfl)
    | fails => exact hnfds
    | blocks => exact hnfds
  · rcases hcalm.accept h with ⟨connfd, hfit, haccept⟩
    simp only [Round.answered, haccept]
    exact hfit
  · have hwait' : s.wait lfd dfd (r.answered s.nfds).ready =
        .ok (s.report reported, (reported.card : ℤ)) := hwait
    rw [pass, hwait, orFault_ok, ok_bind, SelectEcho.pass_eq_wait, hwait', ok_bind]
    dsimp only
    apply afterSelect_eq_orFault hs₁ s.nfds hadmits hcalm.sockets.1 hcalm.sockets.2
    · exact fun h => hcalm.accept ((hmem lfd).1 h).2.2
    · exact fun h => hcalm.datagram ((hmem dfd).1 h).2.2
    · exact fun i fd hi h => hcalm.connections i fd hi ((hmem fd).1 h).2.2

/-- **A run in which no call fails** is one of `SelectEcho` in which the descriptors fit. -/
theorem reachable_of_undisturbed (hne : lfd ≠ dfd) {o : Except Stop Server}
    (h : (machine lfd dfd).ReachableBy (fun o r => ∀ s, o = .ok s → Undisturbed lfd dfd s r) o) :
    ∃ s, o = .ok s ∧
      (SelectEcho.machine lfd dfd).ReachableBy (fun _ r => SelectEcho.Fits lfd r) (.ok s) := by
  refine h.invariant_of (fun o ho => inv_of_undisturbed hne ho) (I := fun o => ∃ s, o = .ok s ∧
    (SelectEcho.machine lfd dfd).ReachableBy (fun _ r => SelectEcho.Fits lfd r) (.ok s))
    ⟨start lfd dfd, rfl, .init⟩ ?_
  rintro _ r o' ⟨s, rfl, hreach⟩ ⟨_, hs, hinv⟩ hcalm hstep
  obtain rfl := Except.ok.inj hs
  simp only [machine, Option.ite_none_right_eq_some] at hstep
  rcases hstep with ⟨hadmits, hstep⟩
  rcases pass_cases hinv hadmits hne with ⟨-, s', hpass, -⟩ | ⟨hdisturbed, -⟩
  · rcases exists_pass_eq_orFault hinv hadmits (hcalm s rfl) with ⟨r', hadmits', hfits, heq⟩
    refine ⟨s', (Option.some.inj hstep).symm.trans hpass, hreach.step hfits ?_⟩
    rw [SelectEcho.step_ok hadmits', orFault_eq_ok.1 (heq.symm.trans hpass)]
  · exact absurd (hcalm s rfl) hdisturbed

end TlpiLearn.SelectEchoFailures
