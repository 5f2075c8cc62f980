import TlpiLearn.KeyValue.ClientServer
import TlpiLearn.KeyValue.Returns
import Mathlib.Tactic

/-!
# Client and server in lock step

A request goes out as one line, the server answers it with one line, and the client prints that
line before it sends the next one: there is a request or a reply on its way, or none (`Phase`). A
line that the client accepts needs to fit its buffer with the newline, and to have no null byte,
since the client sends the string in the buffer (`InLimits`); and `handle_command` has to come
through. In every run in which that is so the parties are in lock step (`lock_step`). A longer line
goes out without its newline, and both parties wait for each other (`long_line_deadlocks`).
-/

namespace TlpiLearn.KeyValue

/-- Both parties wait for a byte, and no byte is on its way. -/
def Session.Deadlock (s : Session) : Prop :=
  (∃ bufline, s.client = .awaiting bufline) ∧ (∃ command, s.server = .reading command) ∧
    s.requests.Empty ∧ s.replies.Empty

/-- **Lock step.** Each accepted line is one request with one newline; the server handles the
requests in their order, each with one line as its result; the client prints these in their order,
and is at most one behind. The server has not crashed, and there is no deadlock. -/
structure LockStep (s : Session) : Prop where
  requests : s.sent = s.accepted
  lines : ∀ x ∈ s.sent, ∃ t, x = t ++ [newline] ∧ newline ∉ t
  handled : s.handled.map Prod.fst <+: s.sent
  replies : ∀ x ∈ s.handled, ∃ t, x.2 = t ++ [newline] ∧ newline ∉ t
  printed : s.printed <+: s.handled.map Prod.snd
  behind : s.sent.length ≤ s.printed.length + 1
  running : ∀ crash, s.server ≠ .crashed crash
  noDeadlock : ¬ s.Deadlock

/-- **The condition** on a step: an accepted line has no null byte and fits the buffer of the client
with its newline, and a command that is handled comes through on the nodes of the list. -/
def InLimits (s : Session) : Event → Prop
  | .typed line => s.client = .idle → Accepts (cstr line.command) = true →
      0 ∉ line.text ∧ line.text.length + 1 < MAXLINE
  | .handles _ =>
    match s.server with
    | .handling command =>
      Returns (nodesOf s.heap s.kv) (words 3 ((cstr command).dropLast ++ [space])) = true
    | _ => True
  | _ => True

/-- The bytes of a stream that have not been read. -/
def Channel.bytes (c : Channel) : List UInt8 := c.arrived ++ c.inFlight

/-- What is on its way. -/
inductive Phase (s : Session) : Prop
  | quiet (client : s.client = .idle ∨ s.client = .enter ∨ s.client = .exited)
      (server : s.server = .reading [] ∨ (s.server = .closed ∧ s.client = .exited))
      (requests : s.requests.bytes = []) (replies : s.replies.bytes = [])
      (sent : s.sent = s.handled.map Prod.fst) (printed : s.printed = s.handled.map Prod.snd)
  | request (request buf : List UInt8) (client : s.client = .awaiting [])
      (server : s.server = .reading buf) (line : IsLine request) (notMem : newline ∉ buf)
      (requests : buf ++ s.requests.bytes = request) (replies : s.replies.bytes = [])
      (sent : s.sent = s.handled.map Prod.fst ++ [request])
      (printed : s.printed = s.handled.map Prod.snd)
  | handling (request : List UInt8) (client : s.client = .awaiting [])
      (server : s.server = .handling request) (line : IsLine request)
      (requests : s.requests.bytes = []) (replies : s.replies.bytes = [])
      (sent : s.sent = s.handled.map Prod.fst ++ [request])
      (printed : s.printed = s.handled.map Prod.snd)
  | reply (reply buf : List UInt8) (client : s.client = .awaiting buf)
      (server : s.server = .reading []) (line : IsLine reply) (notMem : newline ∉ buf)
      (requests : s.requests.bytes = []) (replies : buf ++ s.replies.bytes = reply)
      (sent : s.sent = s.handled.map Prod.fst)
      (printed : s.handled.map Prod.snd = s.printed ++ [reply])

/-- The invariant of the runs that meet the condition. -/
structure Inv (s : Session) : Prop where
  phase : Phase s
  requests : s.sent = s.accepted
  lines : ∀ x ∈ s.sent, IsLine x
  replies : ∀ x ∈ s.handled, IsLine x.2
  list : ∃ kv, s.kv = some kv ∧ WellFormed s.heap kv

variable {s s' : Session} {l : Event}

/-! ## Streams -/

theorem Channel.bytes_deliver (c : Channel) (k : ℕ) : (c.deliver k).bytes = c.bytes := by
  unfold Channel.bytes Channel.deliver
  rw [List.append_assoc, List.take_append_drop]

theorem Channel.bytes_write (c : Channel) (bs : List UInt8) :
    (c.write bs).bytes = c.bytes ++ bs :=
  (List.append_assoc ..).symm

theorem Channel.empty_iff {c : Channel} : c.Empty ↔ c.bytes = [] := by
  unfold Channel.Empty Channel.bytes
  rw [List.append_eq_nil_iff]

/-- What `readLine` keeps of some bytes. -/
theorem foldl_store (bs buf : List UInt8) (hbuf : buf.length ≤ MAXLINE - 1) :
    bs.foldl store buf = (buf ++ bs).take (MAXLINE - 1) := by
  induction bs generalizing buf with
  | nil => rw [List.foldl_nil, List.append_nil, List.take_of_length_le hbuf]
  | cons b bs ih =>
    rw [List.foldl_cons]
    by_cases hlt : buf.length < MAXLINE - 1
    · have hstore : store buf b = buf ++ [b] := if_pos hlt
      have hlen : (buf ++ [b]).length ≤ MAXLINE - 1 := by
        rw [List.length_append, List.length_singleton]
        omega
      rw [hstore, ih _ hlen, List.append_assoc, List.singleton_append]
    · have hstore : store buf b = buf := if_neg hlt
      have hlen : buf.length = MAXLINE - 1 := by omega
      rw [hstore, ih _ hbuf, ← hlen, List.take_left, List.take_left]

/-- A byte of a line that fits the buffer is stored; the newline is the last one. -/
theorem IsLine.store_eq {buf rest : List UInt8} {ch : UInt8} (h : IsLine (buf ++ ch :: rest)) :
    store buf ch = buf ++ [ch] ∧ (ch = newline → rest = []) := by
  have hfits := h.fits
  rw [List.length_append, List.length_cons] at hfits
  refine ⟨if_pos (by omega), ?_⟩
  rintro rfl
  obtain ⟨t, ht, hnotMem⟩ := h.line
  obtain rfl | ⟨rest, b, rfl⟩ := rest.eq_nil_or_concat'
  · rfl
  · rw [← List.cons_append, ← List.append_assoc] at ht
    obtain ⟨rfl, -⟩ := List.append_inj' ht rfl
    exact absurd (by simp) hnotMem

theorem IsLine.cstr_eq {bs : List UInt8} (h : IsLine bs) : cstr bs = bs := cstr_eq_self h.nonzero

/-- The string that the client sends is the line itself, if and only if the line is in the
limits. -/
theorem cstr_command_eq_iff {line : Typed} :
    cstr line.command = line.text ++ [newline] ↔
      0 ∉ line.text ∧ line.text.length + 1 < MAXLINE := by
  have hcommand : line.command = (line.text ++ [newline]).take (MAXLINE - 1) :=
    foldl_store _ [] (Nat.zero_le _)
  constructor
  · intro h
    have hzero := zero_notMem_cstr line.command
    have hlen := (cstr_prefix_mem line.command).length_le
    rw [h] at hzero hlen
    rw [hcommand, List.length_take, List.length_append, List.length_singleton] at hlen
    have hmax : MAXLINE = 1024 := rfl
    exact ⟨fun hmem => hzero (List.mem_append_left _ hmem), by omega⟩
  · rintro ⟨hzero, hlt⟩
    have hlen : (line.text ++ [newline]).length ≤ MAXLINE - 1 := by
      rw [List.length_append, List.length_singleton]
      omega
    rw [hcommand, List.take_of_length_le hlen]
    refine cstr_eq_self ?_
    rw [List.mem_append, not_or]
    exact ⟨hzero, by decide⟩

theorem Typed.isLine {line : Typed} (hzero : 0 ∉ line.text)
    (hfits : line.text.length + 1 < MAXLINE) : IsLine (line.text ++ [newline]) := by
  refine ⟨⟨line.text, rfl, line.notMem⟩, ?_, ?_⟩
  · rw [List.mem_append, not_or]
    exact ⟨hzero, by decide⟩
  · rwa [List.length_append, List.length_singleton]

/-! ## Steps -/

theorem inv_init {heap : Heap KvDsa} {kv : ℕ} (hlist : WellFormed heap kv) :
    Inv (Session.init heap kv) where
  phase := .quiet (.inl rfl) (.inl rfl) rfl rfl rfl rfl
  requests := rfl
  lines := nofun
  replies := nofun
  list := ⟨kv, rfl, hlist⟩

theorem Inv.deliver (hs : Inv s) {requests replies : Channel}
    (hrequests : requests.bytes = s.requests.bytes) (hreplies : replies.bytes = s.replies.bytes) :
    Inv { s with requests := requests, replies := replies } := by
  refine ⟨?_, hs.requests, hs.lines, hs.replies, hs.list⟩
  obtain ⟨hc, hsv, hq, hp, hsent, hpr⟩ | ⟨rq, buf, hc, hsv, hline, hbuf, hq, hp, hsent, hpr⟩ |
    ⟨rq, hc, hsv, hline, hq, hp, hsent, hpr⟩ |
    ⟨rp, buf, hc, hsv, hline, hbuf, hq, hp, hsent, hpr⟩ := hs.phase
  · exact .quiet hc hsv (hrequests.trans hq) (hreplies.trans hp) hsent hpr
  · rw [← hrequests] at hq
    exact .request rq buf hc hsv hline hbuf hq (hreplies.trans hp) hsent hpr
  · exact .handling rq hc hsv hline (hrequests.trans hq) (hreplies.trans hp) hsent hpr
  · rw [← hreplies] at hp
    exact .reply rp buf hc hsv hline hbuf (hrequests.trans hq) hp hsent hpr

/-- **At the prompt** the server waits for a request, and nothing is on its way. -/
theorem Phase.of_prompt (hs : Phase s) (hclient : s.client = .idle ∨ s.client = .enter) :
    s.server = .reading [] ∧ s.requests.bytes = [] ∧ s.replies.bytes = [] ∧
      s.sent = s.handled.map Prod.fst ∧ s.printed = s.handled.map Prod.snd := by
  have hawaiting (buf : List UInt8) : s.client ≠ .awaiting buf := by
    obtain h | h := hclient <;> rw [h] <;> exact nofun
  have hexited : s.client ≠ .exited := by
    obtain h | h := hclient <;> rw [h] <;> exact nofun
  obtain ⟨-, hsv, hq, hp, hsent, hpr⟩ | ⟨_, _, hc, -⟩ | ⟨_, hc, -⟩ | ⟨_, _, hc, -⟩ := hs
  · exact ⟨hsv.resolve_right fun h => hexited h.2, hq, hp, hsent, hpr⟩
  all_goals exact absurd hc (hawaiting _)

theorem Inv.typed (hs : Inv s) {line : Typed} (hok : InLimits s (.typed line))
    (h : s.typed line = some s') : Inv s' := by
  unfold Session.typed at h
  cases hclient : s.client with
  | idle =>
    rw [hclient] at h
    obtain ⟨hreading, hq, hp, hsent, hpr⟩ := hs.phase.of_prompt (.inl hclient)
    dsimp only at h
    by_cases haccepts : Accepts (cstr line.command) = true
    · rw [if_pos haccepts] at h
      obtain ⟨hzero, hfits⟩ := hok hclient haccepts
      have hcommand := cstr_command_eq_iff.2 ⟨hzero, hfits⟩
      rw [hcommand] at h
      obtain rfl := Option.some.inj h
      have hline := Typed.isLine hzero hfits
      refine ⟨?_, congrArg (· ++ _) hs.requests, ?_, hs.replies, hs.list⟩
      · refine .request _ [] rfl hreading hline nofun ?_ hp (congrArg (· ++ _) hsent) hpr
        rw [Channel.bytes_write, hq]
        rfl
      · intro x hx
        obtain hx | hx := List.mem_append.1 hx
        · exact hs.lines x hx
        · rw [List.mem_singleton.1 hx]
          exact hline
    · rw [if_neg haccepts] at h
      split_ifs at h
      · obtain rfl := Option.some.inj h
        exact ⟨.quiet (.inr (.inr rfl)) (.inl hreading) hq hp hsent hpr, hs.requests, hs.lines,
          hs.replies, hs.list⟩
      · obtain rfl := Option.some.inj h
        exact hs
  | enter =>
    rw [hclient] at h
    obtain rfl := Option.some.inj h
    obtain ⟨hreading, hq, hp, hsent, hpr⟩ := hs.phase.of_prompt (.inr hclient)
    exact ⟨.quiet (.inl rfl) (.inl hreading) hq hp hsent hpr, hs.requests, hs.lines, hs.replies,
      hs.list⟩
  | awaiting | exited =>
    rw [hclient] at h
    cases h

/-- The server takes the next byte of a request, or sees the end of the stream. -/
theorem Inv.serverReads (hs : Inv s) (h : s.serverReads = some s') : Inv s' := by
  unfold Session.serverReads at h
  obtain ⟨hc, hsv, hq, hp, hsent, hpr⟩ | ⟨rq, buf, hc, hsv, hline, hbuf, hq, hp, hsent, hpr⟩ |
    ⟨rq, hc, hsv, hline, hq, hp, hsent, hpr⟩ |
    ⟨rp, buf, hc, hsv, hline, hbuf, hq, hp, hsent, hpr⟩ := hs.phase
  · have harrived : s.requests.arrived = [] := (List.append_eq_nil_iff.1 hq).1
    obtain hsv | ⟨hsv, -⟩ := hsv
    · rw [hsv, harrived] at h
      simp only [Option.ite_none_right_eq_some, if_true, Option.some.injEq] at h
      obtain ⟨⟨-, hexited⟩, rfl⟩ := h
      exact ⟨.quiet (.inr (.inr hexited)) (.inr ⟨rfl, hexited⟩) hq hp hsent hpr, hs.requests,
        hs.lines, hs.replies, hs.list⟩
    · rw [hsv] at h
      cases h
  · cases harrived : s.requests.arrived with
    | nil =>
      rw [hsv, harrived, hc] at h
      simp at h
    | cons ch arrived =>
      rw [hsv, harrived] at h
      obtain rfl := Option.some.inj h
      rw [Channel.bytes, harrived, List.cons_append] at hq
      obtain ⟨hstore, hend⟩ := (hq ▸ hline).store_eq
      dsimp only
      rw [hstore]
      by_cases hch : ch = newline
      · obtain ⟨harr, hfl⟩ := List.append_eq_nil_iff.1 (hend hch)
        rw [if_pos hch]
        rw [harr, hfl] at hq
        refine ⟨.handling rq hc ?_ hline ?_ hp hsent hpr, hs.requests, hs.lines, hs.replies,
          hs.list⟩
        · exact congrArg ServerPc.handling hq
        · rw [Channel.bytes, harr, hfl]
          rfl
      · rw [if_neg hch]
        refine ⟨.request rq (buf ++ [ch]) hc rfl hline ?_ ?_ hp hsent hpr, hs.requests, hs.lines,
          hs.replies, hs.list⟩
        · rw [List.mem_append, List.mem_singleton, not_or]
          exact ⟨hbuf, fun h => hch h.symm⟩
        · rw [List.append_assoc]
          exact hq
  · rw [hsv] at h
    cases h
  · have harrived : s.requests.arrived = [] := (List.append_eq_nil_iff.1 hq).1
    rw [hsv, harrived, hc] at h
    simp at h

/-- A request that the server has read is the command of a line. -/
theorem IsLine.exists_line {bs : List UInt8} (h : IsLine bs) :
    ∃ line : Line, bs ++ [0] = line.command ∧
      words 3 ((cstr bs).dropLast ++ [space]) = line.words := by
  have hcstr := h.cstr_eq
  have hzero := h.nonzero
  have hfits := h.fits
  obtain ⟨t, rfl, hnotMem⟩ := h.line
  rw [List.length_append, List.length_singleton] at hfits
  refine ⟨⟨t, fun hmem => hzero (List.mem_append_left _ hmem), hnotMem, hfits⟩, ?_, ?_⟩
  · exact List.append_assoc ..
  · rw [hcstr, List.dropLast_concat]
    rfl

/-- What `handle_command` does with a request, as the condition tells. -/
theorem Inv.handle_command (hs : Inv s) {request : List UInt8} (hline : IsLine request)
    {block : Option (ℕ × KvDsa)} (hfresh : ∀ x ∈ block, x.1 ∉ s.heap) :
    if Returns (nodesOf s.heap s.kv) (words 3 ((cstr request).dropLast ++ [space])) then
      ∃ r result heap kv, handle_command (fun _ => block) s.heap s.kv (request ++ [0]) =
        .ok (r, result, heap) ∧ IsLine result ∧ s.kv = some kv ∧ WellFormed heap kv
    else ∃ crash, handle_command (fun _ => block) s.heap s.kv (request ++ [0]) = .error crash := by
  obtain ⟨kv, hkv, hlist⟩ := hs.list
  obtain ⟨line, hcommand, hwords⟩ := hline.exists_line
  have hrequest : Request.Fresh s.heap ⟨line, block⟩ := by
    unfold Request.Fresh
    cases block with
    | none => trivial
    | some x => exact hfresh x rfl
  have hreturns := handle_command_returns hlist hrequest
  rw [hcommand, hwords, hkv]
  split_ifs at hreturns ⊢
  · obtain ⟨r, result, heap, hreturn, hresult, hlist'⟩ := hreturns
    exact ⟨r, result, heap, kv, hreturn, hresult, rfl, hlist'⟩
  · exact hreturns

/-- The server answers a request. -/
theorem Inv.handles (hs : Inv s) {block : Option (ℕ × KvDsa)} (hok : InLimits s (.handles block))
    (h : s.handles block = some s') : Inv s' := by
  unfold Session.handles at h
  obtain ⟨-, hsv | ⟨hsv, -⟩, -⟩ | ⟨_, _, -, hsv, -⟩ | ⟨rq, hc, hsv, hline, hq, hp, hsent, hpr⟩ |
    ⟨_, _, -, hsv, -⟩ := hs.phase
  case handling =>
    simp only [InLimits, hsv] at hok
    rw [hsv] at h
    simp only [Option.ite_none_right_eq_some] at h
    obtain ⟨hfresh, h⟩ := h
    have hreturns := hs.handle_command hline hfresh
    rw [if_pos hok] at hreturns
    obtain ⟨r, result, heap, kv, hreturn, hresult, hkv, hlist⟩ := hreturns
    rw [hreturn, hline.cstr_eq] at h
    obtain rfl := Option.some.inj h
    refine ⟨.reply result [] hc rfl hresult nofun hq ?_ ?_ ?_, hs.requests, hs.lines, ?_,
      ⟨kv, hkv, hlist⟩⟩
    · rw [Channel.bytes_write, hp]
      rfl
    · rw [List.map_append]
      exact hsent
    · rw [List.map_append, ← hpr]
      rfl
    · intro x hx
      obtain hx | hx := List.mem_append.1 hx
      · exact hs.replies x hx
      · rw [List.mem_singleton.1 hx]
        exact hresult
  all_goals
    rw [hsv] at h
    cases h

/-- The client takes the next byte of a reply. -/
theorem Inv.clientReads (hs : Inv s) (h : s.clientReads = some s') : Inv s' := by
  unfold Session.clientReads at h
  obtain ⟨hc, -⟩ | ⟨rq, buf, hc, hsv, -, -, -, hp, -⟩ | ⟨rq, hc, hsv, -, -, hp, -⟩ |
    ⟨rp, buf, hc, hsv, hline, hbuf, hq, hp, hsent, hpr⟩ := hs.phase
  case quiet =>
    obtain hc | hc | hc := hc
    all_goals
      rw [hc] at h
      cases h
  case reply =>
    cases harrived : s.replies.arrived with
    | nil =>
      rw [hc, harrived, hsv] at h
      simp [ServerPc.Closed] at h
    | cons ch arrived =>
      rw [hc, harrived] at h
      obtain rfl := Option.some.inj h
      rw [Channel.bytes, harrived, List.cons_append] at hp
      obtain ⟨hstore, hend⟩ := (hp ▸ hline).store_eq
      dsimp only
      rw [hstore]
      by_cases hch : ch = newline
      · obtain ⟨harr, hfl⟩ := List.append_eq_nil_iff.1 (hend hch)
        rw [if_pos hch, if_pos hch]
        rw [harr, hfl] at hp
        have hreply : buf ++ [ch] = rp := hp
        refine ⟨.quiet (.inr (.inl rfl)) (.inl hsv) hq ?_ hsent ?_, hs.requests, hs.lines,
          hs.replies, hs.list⟩
        · rw [Channel.bytes, harr, hfl]
          rfl
        · rw [hreply, hline.cstr_eq]
          exact hpr.symm
      · rw [if_neg hch, if_neg hch]
        refine ⟨.reply rp (buf ++ [ch]) rfl hsv hline ?_ hq ?_ hsent hpr, hs.requests, hs.lines,
          hs.replies, hs.list⟩
        · rw [List.mem_append, List.mem_singleton, not_or]
          exact ⟨hbuf, fun h => hch h.symm⟩
        · rw [List.append_assoc]
          exact hp
  all_goals
    have harrived : s.replies.arrived = [] := (List.append_eq_nil_iff.1 hp).1
    rw [hc, harrived, hsv] at h
    simp [ServerPc.Closed] at h

/-- **Every step** that meets the condition keeps the invariant. -/
theorem Inv.step (hs : Inv s) (hok : InLimits s l) (h : s.step l = some s') : Inv s' := by
  cases l with
  | typed line => exact hs.typed hok h
  | toServer k =>
    obtain rfl := Option.some.inj h
    exact hs.deliver (s.requests.bytes_deliver k) rfl
  | toClient k =>
    obtain rfl := Option.some.inj h
    exact hs.deliver rfl (s.replies.bytes_deliver k)
  | serverReads => exact hs.serverReads h
  | handles block => exact hs.handles hok h
  | clientReads => exact hs.clientReads h

/-! ## Lock step -/

theorem Inv.noDeadlock (hs : Inv s) : ¬ s.Deadlock := by
  rintro ⟨⟨bufline, hclient⟩, ⟨command, hserver⟩, hrequests, hreplies⟩
  rw [Channel.empty_iff] at hrequests hreplies
  obtain ⟨hc, -⟩ | ⟨rq, buf, -, -, hline, hbuf, hq, -⟩ | ⟨_, -, hsv, -⟩ |
    ⟨rp, buf, -, -, hline, hbuf, -, hp, -⟩ := hs.phase
  · rw [hclient] at hc
    simp at hc
  · -- A line that is read to its end has been handed on.
    rw [hrequests, List.append_nil] at hq
    obtain ⟨t, ht, -⟩ := hline.line
    rw [hq, ht] at hbuf
    exact hbuf (by simp)
  · exact absurd (hserver.symm.trans hsv) nofun
  · rw [hreplies, List.append_nil] at hp
    obtain ⟨t, ht, -⟩ := hline.line
    rw [hp, ht] at hbuf
    exact hbuf (by simp)

theorem Inv.lockStep (hs : Inv s) : LockStep s := by
  have hlines : ∀ x ∈ s.sent, ∃ t, x = t ++ [newline] ∧ newline ∉ t :=
    fun x hx => (hs.lines x hx).line
  have hreplies : ∀ x ∈ s.handled, ∃ t, x.2 = t ++ [newline] ∧ newline ∉ t :=
    fun x hx => (hs.replies x hx).line
  obtain ⟨-, hsv, -, -, hsent, hpr⟩ | ⟨rq, buf, -, hsv, -, -, -, -, hsent, hpr⟩ |
    ⟨rq, -, hsv, -, -, -, hsent, hpr⟩ | ⟨rp, buf, -, hsv, -, -, -, -, hsent, hpr⟩ := hs.phase
  · refine ⟨hs.requests, hlines, hsent ▸ List.prefix_rfl, hreplies, hpr ▸ List.prefix_rfl, ?_, ?_,
      hs.noDeadlock⟩
    · rw [hsent, hpr, List.length_map, List.length_map]
      exact Nat.le_succ _
    · intro crash hcrash
      rw [hcrash] at hsv
      simp at hsv
  · refine ⟨hs.requests, hlines, hsent ▸ List.prefix_append .., hreplies, hpr ▸ List.prefix_rfl, ?_,
      ?_, hs.noDeadlock⟩
    · rw [hsent, hpr, List.length_append, List.length_map, List.length_map, List.length_singleton]
    · exact fun crash hcrash => absurd (hcrash.symm.trans hsv) nofun
  · refine ⟨hs.requests, hlines, hsent ▸ List.prefix_append .., hreplies, hpr ▸ List.prefix_rfl, ?_,
      ?_, hs.noDeadlock⟩
    · rw [hsent, hpr, List.length_append, List.length_map, List.length_map, List.length_singleton]
    · exact fun crash hcrash => absurd (hcrash.symm.trans hsv) nofun
  · refine ⟨hs.requests, hlines, hsent ▸ List.prefix_rfl, hreplies, hpr ▸ List.prefix_append .., ?_,
      ?_, hs.noDeadlock⟩
    · have hlen := congrArg List.length hpr
      rw [List.length_map, List.length_append, List.length_singleton] at hlen
      rw [hsent, List.length_map, hlen]
    · exact fun crash hcrash => absurd (hcrash.symm.trans hsv) nofun

/-- A step that does not meet the condition ends the lock step. -/
theorem Inv.inLimits_of_lockStep (hs : Inv s) (h : s.step l = some s') (hs' : LockStep s') :
    InLimits s l := by
  cases l with
  | typed line =>
    intro hclient haccepts
    have h : s.typed line = some s' := h
    unfold Session.typed at h
    rw [hclient] at h
    dsimp only at h
    rw [if_pos haccepts] at h
    obtain rfl := Option.some.inj h
    have hrequests := hs'.requests
    dsimp only at hrequests
    rw [hs.requests] at hrequests
    have hlast := List.append_cancel_left hrequests
    exact cstr_command_eq_iff.1 (List.cons.inj hlast).1
  | handles block =>
    have h : s.handles block = some s' := h
    unfold Session.handles at h
    unfold InLimits
    cases hserver : s.server with
    | handling command =>
      rw [hserver] at h
      simp only [Option.ite_none_right_eq_some] at h ⊢
      obtain ⟨hfresh, h⟩ := h
      obtain ⟨-, hsv | ⟨hsv, -⟩, -⟩ | ⟨_, _, -, hsv, -⟩ | ⟨rq, -, hsv, hline, -⟩ |
        ⟨_, _, -, hsv, -⟩ := hs.phase
      case handling =>
        obtain rfl := ServerPc.handling.inj (hserver.symm.trans hsv)
        by_contra hnot
        have hcrash := hs.handle_command hline hfresh
        rw [if_neg hnot] at hcrash
        obtain ⟨crash, hcrash⟩ := hcrash
        rw [hcrash] at h
        obtain rfl := Option.some.inj h
        exact hs'.running crash rfl
      all_goals exact absurd (hserver.symm.trans hsv) nofun
    | reading | closed | crashed => trivial
  | toServer | toClient | serverReads | clientReads => trivial

/-- **Client and server stay in lock step** in every run in which each accepted line has no null
byte and fits the buffer of the client with its newline, and each command comes through on the list
it meets. A step of such a run keeps them in lock step if and only if it meets the condition. -/
theorem lock_step {heap : Heap KvDsa} {kv : ℕ} (hlist : WellFormed heap kv)
    (h : (session heap kv).ReachableBy InLimits s) :
    LockStep s ∧ ∀ l s', s.step l = some s' → (LockStep s' ↔ InLimits s l) := by
  have hs : Inv s := h.invariant (inv_init hlist) fun _ _ _ hs hok hst => hs.step hok hst
  refine ⟨hs.lockStep, fun l s' hst => ⟨hs.inLimits_of_lockStep hst, fun hok => ?_⟩⟩
  exact (hs.step hok hst).lockStep

instance (s : Session) : (l : Event) → Decidable (InLimits s l)
  | .typed _ => inferInstanceAs (Decidable (_ → _ → _ ∧ _))
  | .handles _ =>
    match h : s.server with
    | .handling command =>
      decidable_of_iff
        (Returns (nodesOf s.heap s.kv) (words 3 ((cstr command).dropLast ++ [space])) = true)
        (by simp only [InLimits, h])
    | .reading _ | .closed | .crashed _ => isTrue (by simp only [InLimits, h])
  | .toServer _ | .toClient _ | .serverReads | .clientReads => isTrue trivial

/-- The list of a server that has just started. -/
def emptyList : Heap KvDsa := (initKv (fun _ => some (1, .ofWords [] [])) ∅).2

/-- A line is added, in two parts on its way, and `enter` is typed behind the reply. -/
def addRun : List Event :=
  [.typed ⟨ascii "add a b", by decide⟩, .toServer 3, .serverReads, .toServer 5] ++
    List.replicate 7 Event.serverReads ++ [.handles (some (7, .ofWords [] [])), .toClient 14] ++
    List.replicate 14 Event.clientReads ++ [.typed ⟨[], by decide⟩]

theorem lock_step_add :
    ∃ s, (session emptyList 1).run (.init emptyList 1) addRun = some s ∧ s.client = .idle ∧
      s.printed = [ascii "add sussessed\n"] ∧ LockStep s := by
  have hinit : initKv (fun _ => some (1, .ofWords [] [])) ∅ = (some 1, emptyList) := rfl
  obtain ⟨s, hrun, hidle, hprinted⟩ :
      ∃ s, ((session emptyList 1).restrict InLimits).run (.init emptyList 1) addRun = some s ∧
        s.client = .idle ∧ s.printed = [ascii "add sussessed\n"] := ⟨_, rfl, rfl, rfl⟩
  have hreach : (session emptyList 1).ReachableBy InLimits s :=
    .of_restrict (.run .init addRun hrun)
  exact ⟨s, Machine.run_of_restrict hrun, hidle, hprinted,
    (lock_step (wellFormed_initKv hinit) hreach).1⟩

/-! ## A line without its newline -/

/-- The server reads on while no newline comes. -/
theorem run_serverReads {heap : Heap KvDsa} {kv : ℕ} {bs buf : List UInt8}
    (hserver : s.server = .reading buf) (harrived : s.requests.arrived = bs)
    (hbs : newline ∉ bs) :
    (session heap kv).run s (List.replicate bs.length .serverReads) =
      some { s with
        server := .reading (bs.foldl store buf)
        requests := { s.requests with arrived := [] } } := by
  induction bs generalizing s buf with
  | nil =>
    rw [List.length_nil, List.replicate_zero, Machine.run_nil, List.foldl_nil, ← hserver,
      ← harrived]
  | cons b bs ih =>
    rw [List.mem_cons, not_or] at hbs
    obtain ⟨hb, hbs⟩ := hbs
    have hstep : s.step .serverReads = some { s with
        server := .reading (store buf b)
        requests := { s.requests with arrived := bs } } := by
      unfold Session.step Session.serverReads
      dsimp only
      rw [hserver, harrived]
      dsimp only
      rw [if_neg (Ne.symm hb)]
    rw [List.length_cons, List.replicate_succ, Machine.run_cons]
    change (s.step .serverReads).bind _ = _
    rw [hstep, Option.bind_some, ih rfl rfl hbs]
    rfl

/-- **A request without a newline** leaves both parties waiting for each other. -/
theorem exists_deadlock (heap : Heap KvDsa) (kv : ℕ) (line : Typed)
    (haccepts : Accepts (cstr line.command) = true) (hline : newline ∉ cstr line.command) :
    ∃ s, (session heap kv).Reachable s ∧ s.Deadlock := by
  set command := cstr line.command
  have htyped : (session heap kv).step (.init heap kv) (.typed line) =
      some { Session.init heap kv with
        client := .awaiting []
        requests := ⟨[], command⟩
        accepted := [line.text ++ [newline]]
        sent := [command] } := if_pos haccepts
  have hsent : (session heap kv).Reachable _ := .step .init trivial htyped
  have hdelivered : (session heap kv).Reachable _ :=
    .step (l := .toServer command.length) hsent trivial rfl
  have harrived : (Channel.deliver ⟨[], command⟩ command.length) = ⟨command, []⟩ := by
    simp [Channel.deliver]
  have hread := Machine.Reachable.run hdelivered _
    (run_serverReads rfl (congrArg Channel.arrived harrived) hline)
  refine ⟨_, hread, ⟨_, rfl⟩, ⟨_, rfl⟩, ⟨rfl, ?_⟩, rfl, rfl⟩
  exact congrArg Channel.inFlight harrived

/-- A line of 1023 bytes and a newline. -/
def longTyped : Typed where
  text := ascii "show" ++ List.replicate 1019 119
  notMem := by
    rw [List.mem_append, not_or]
    exact ⟨by decide, fun hmem => absurd (List.eq_of_mem_replicate hmem) (by decide)⟩

theorem cstr_longTyped : cstr longTyped.command = longTyped.text := by
  have hlen : longTyped.text.length = MAXLINE - 1 := by
    rw [longTyped, List.length_append, List.length_replicate]
    rfl
  have hzero : 0 ∉ longTyped.text := by
    rw [longTyped, List.mem_append, not_or]
    exact ⟨by decide, fun hmem => absurd (List.eq_of_mem_replicate hmem) (by decide)⟩
  rw [Typed.command, foldl_store _ [] (Nat.zero_le _), List.nil_append, ← hlen, List.take_left,
    cstr_eq_self hzero]

theorem long_line_deadlocks : ∃ s, (session emptyList 1).Reachable s ∧ s.Deadlock := by
  refine exists_deadlock emptyList 1 longTyped ?_ ?_
  · rw [cstr_longTyped]
    rfl
  · rw [cstr_longTyped]
    exact longTyped.notMem

end TlpiLearn.KeyValue
