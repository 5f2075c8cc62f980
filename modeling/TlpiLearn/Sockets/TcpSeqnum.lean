import TlpiLearn.Foundations.Intervals
import TlpiLearn.Processes.ProcessTree
import TlpiLearn.ReadLine.Interrupts
import Mathlib.Tactic

/-!
# The sequence number servers on TCP sockets

`59/1/sv.c` and `59/2/sv.c` serve one client after the other: a line with a length comes in, the
number `seqNum` goes out, and the length is added to it. They differ in the reader of the line.
What they do is `services`, as long as the lines fit the buffer (`svBuffered_eq`, `sv_eq`).

The intervals that are granted are disjoint up to the wrap of the counter, but it is printed as an
`int`, so that the reply is the number only in the lower half of its range (`servers_correct_iff`).
-/

namespace TlpiLearn.TcpSeqnum

open ReadLine (Returned Reads Rlbuf ByteRead Fault)
open ProcessTree (atoi)

/-- `INT_LEN`. -/
def INT_LEN : ℕ := 30

/-- `snprintf` into `seqNumStr`: the conversion is that of an `int`. -/
def seqNumStr (seqNum : UInt32) : List UInt8 :=
  (decimalInt seqNum.toInt32.toInt ++ [newline]).take (INT_LEN - 1)

/-- The lines behind the reader: what is written to the client, if anything, and `seqNum`. -/
def answer (r : Returned) (seqNum : UInt32) : Option (List UInt8) × UInt32 :=
  if r.value ≤ 0 then (none, seqNum)
  else
    let reqLen := atoi (cstr r.buffer)
    if reqLen ≤ 0 then (none, seqNum) else (some (seqNumStr seqNum), seqNum + reqLen.toUInt32)

/-- A client that was served: `seqNum` in front of it and behind it, and the reply. -/
structure Service (ρ : Type) where
  client : ρ
  before : UInt32
  reply : Option (List UInt8)
  after : UInt32

variable {σ ρ : Type}

/-- The loop of a server; `read` is its reader. -/
def serve (read : σ → ρ → Except Fault (Returned × σ)) :
    σ → UInt32 → List ρ → Except Fault (List (Service ρ))
  | _, _, [] => .ok []
  | s, seqNum, client :: clients => do
    let (r, s) ← read s client
    let (reply, after) := answer r seqNum
    let services ← serve read s after clients
    .ok (⟨client, seqNum, reply, after⟩ :: services)

/-- `59/1/sv.c`. A client is its descriptor and what `read` returns for it. -/
def svBuffered (fuel : ℕ) (rlbuf : Rlbuf) (seqNum : UInt32) (clients : List (ℤ × Reads)) :
    Except Fault (List (Service (ℤ × Reads))) :=
  serve (fun rlbuf client => do
    let (r, rlbuf, _) ←
      ReadLine.myreadLineBuf fuel INT_LEN (ReadLine.myreadLineBufInit client.1 rlbuf) client.2
    .ok (r, rlbuf)) rlbuf seqNum clients

/-- `59/2/sv.c`. A client is what `read` returns for it. -/
def sv (seqNum : UInt32) (clients : List (List ByteRead)) :
    Except Fault (List (Service (List ByteRead))) :=
  serve (fun _ client => .ok ((ReadLine.readLine INT_LEN client).1, ())) () seqNum clients

/-! ## What is asked for -/

/-- The line of a client that has sent `bytes` before the end of the file, or before a `read`
fails. -/
def requestLine (bytes : List UInt8) (fails : Bool) : Option (List UInt8) :=
  if fails ∧ newline ∉ bytes then none else some (firstLine newline bytes).1

/-- The bytes that come before a `read` fails. -/
def sentBuffered (reads : Reads) : List UInt8 := ReadLine.delivers (reads.takeWhile Option.isSome)

def sent (reads : List ByteRead) : List UInt8 :=
  ReadLine.delivered (reads.takeWhile (· ≠ .failed))

/-- The line of a client of `59/1/sv.c`. -/
def lineBuffered (client : ℤ × Reads) : Option (List UInt8) :=
  requestLine (sentBuffered client.2) (client.2.any Option.isNone)

/-- The line of a client of `59/2/sv.c`. -/
def line (client : List ByteRead) : Option (List UInt8) :=
  requestLine (sent client) (client.contains .failed)

/-- The line fits the buffer. -/
def Fits (bytes : List UInt8) : Prop := (firstLine newline bytes).1.length < INT_LEN

instance (bytes : List UInt8) : Decidable (Fits bytes) := inferInstanceAs (Decidable (_ < _))

/-- The length of the interval that a line asks for, 0 if it is rejected. -/
def asked (line : Option (List UInt8)) : ℕ := line.elim 0 fun l => (atoi (cstr l)).toInt.toNat

/-- The reply to a request, and `seqNum` behind it. -/
def grant (len : ℕ) (seqNum : UInt32) : Option (List UInt8) × UInt32 :=
  if len = 0 then (none, seqNum) else (some (seqNumStr seqNum), seqNum + UInt32.ofNat len)

/-- The clients are served in their order, by what they ask for. -/
def services (lineOf : ρ → Option (List UInt8)) : UInt32 → List ρ → List (Service ρ)
  | _, [] => []
  | seqNum, client :: clients =>
    let (reply, after) := grant (asked (lineOf client)) seqNum
    ⟨client, seqNum, reply, after⟩ :: services lineOf after clients

/-- The counter wraps behind the service. -/
def Wraps (lineOf : ρ → Option (List UInt8)) (i : Service ρ) : Prop :=
  2 ^ 32 ≤ i.before.toNat + asked (lineOf i.client)

instance (lineOf : ρ → Option (List UInt8)) (i : Service ρ) : Decidable (Wraps lineOf i) :=
  inferInstanceAs (Decidable (_ ≤ _))

/-- The services up to the first one that wraps the counter. -/
def unwrapped (lineOf : ρ → Option (List UInt8)) : List (Service ρ) → List (Service ρ)
  | [] => []
  | i :: its => if Wraps lineOf i then [i] else i :: unwrapped lineOf its

/-- The interval of a request that is not rejected. -/
def span (lineOf : ρ → Option (List UInt8)) (i : Service ρ) : Option (Span ℤ) :=
  if asked (lineOf i.client) = 0 then none
  else some ⟨i.before.toNat, asked (lineOf i.client)⟩

/-- **What the server promises**: the first number of the interval is sent, a rejected request
changes nothing, and no number is granted twice. -/
structure Correct (lineOf : ρ → Option (List UInt8)) (its : List (Service ρ)) : Prop where
  replies : ∀ i ∈ its, asked (lineOf i.client) ≠ 0 →
    i.reply = some (decimal i.before.toNat ++ [newline])
  rejected : ∀ i ∈ its, asked (lineOf i.client) = 0 → i.reply = none ∧ i.after = i.before
  disjoint : (its.filterMap (span lineOf)).Pairwise fun g h => Disjoint g.toSet h.toSet

/-- The requests that are not rejected find the counter in the lower half of its range. -/
def LowerHalf (lineOf : ρ → Option (List UInt8)) (its : List (Service ρ)) : Prop :=
  ∀ i ∈ its, asked (lineOf i.client) ≠ 0 → i.before.toNat < 2 ^ 31

variable {lineOf : ρ → Option (List UInt8)} {r : Returned} {l : Option (List UInt8)}
  {seqNum : UInt32} {reads : Reads}

/-! ## The readers -/

/-- A reader returns a line with its length and a terminator, or -1. -/
def Delivers (r : Returned) : Option (List UInt8) → Prop
  | none => r.value = -1
  | some l => r.value = l.length ∧ (l ≠ [] → r.buffer = l ++ [0])

/-- The lines behind the reader grant what the line asks for. -/
theorem answer_of_delivers (h : Delivers r l) (seqNum : UInt32) :
    answer r seqNum = grant (asked l) seqNum := by
  cases l with
  | none =>
    have hvalue : r.value ≤ 0 := by
      rw [show r.value = -1 from h]
      omega
    rw [answer, if_pos hvalue]
    rfl
  | some l =>
    obtain ⟨hvalue, hbuffer⟩ := h
    by_cases hl : l = []
    · subst hl
      rw [answer, if_pos (by rw [hvalue]; simp)]
      rfl
    · have hpos : 0 < l.length := List.length_pos_iff.2 hl
      have hreq : asked (some l) = (atoi (cstr l)).toInt.toNat := rfl
      rw [answer, if_neg (by omega), hbuffer hl, cstr_append_zero, hreq, grant]
      generalize atoi (cstr l) = reqLen
      have hiff : reqLen ≤ 0 ↔ reqLen.toInt.toNat = 0 := by
        rw [Int32.le_iff_toInt_le]
        exact Int.toNat_eq_zero.symm
      by_cases hreqLen : reqLen ≤ 0
      · simp only [if_pos hreqLen, if_pos (hiff.1 hreqLen)]
      · have hadd : reqLen.toUInt32 = UInt32.ofNat reqLen.toInt.toNat := by
          apply UInt32.toNat.inj
          have hpos : 0 ≤ reqLen := Int32.le_of_lt (Int32.not_le.1 hreqLen)
          have hlt := reqLen.toInt_lt
          rw [Int32.toNat_toUInt32_of_le hpos, UInt32.toNat_ofNat', Int32.toNatClampNeg]
          omega
        simp only [if_neg hreqLen, if_neg (mt hiff.2 hreqLen), hadd]

/-- The bytes of the reads up to the end of the file or a failure. -/
theorem sentBuffered_chunks {chunks : List ReadLine.Chunk} {tail : Reads}
    (htail : tail = [] ∨ ∃ post, tail = none :: post) :
    sentBuffered (chunks.map some ++ tail) = ReadLine.stream chunks := by
  have htake : tail.takeWhile Option.isSome = [] := by
    obtain rfl | ⟨post, rfl⟩ := htail <;> rfl
  rw [sentBuffered, List.takeWhile_append_of_pos (by simp), htake, List.append_nil,
    ReadLine.delivers_map_some]

/-- The line in them. -/
theorem lineBuffered_chunks (fd : ℤ) {chunks : List ReadLine.Chunk} {tail : Reads}
    (htail : tail = [] ∨ ∃ post, tail = none :: post) :
    lineBuffered (fd, chunks.map some ++ tail) =
      requestLine (ReadLine.stream chunks) (tail.any Option.isNone) := by
  have hfails : (chunks.map some ++ tail).any Option.isNone = tail.any Option.isNone := by
    simp
  rw [lineBuffered, sentBuffered_chunks htail, hfails]

/-- **The buffered reader** delivers a line that fits. -/
theorem myreadLineBuf_delivers {fuel : ℕ} (hfuel : INT_LEN ≤ fuel) (fd : ℤ) (rlbuf : Rlbuf)
    (hfits : Fits (sentBuffered reads)) :
    ∃ r rlbuf' reads', ReadLine.myreadLineBuf fuel INT_LEN (ReadLine.myreadLineBufInit fd rlbuf)
        reads = .ok (r, rlbuf', reads') ∧ Delivers r (lineBuffered (fd, reads)) := by
  obtain ⟨chunks, tail, rfl, htail⟩ := ReadLine.exists_chunks reads
  have hr := ReadLine.ready_init fd rlbuf
  have hrest := ReadLine.rest_init fd rlbuf
  rw [sentBuffered_chunks htail, Fits] at hfits
  rw [lineBuffered_chunks fd htail, requestLine]
  by_cases hmem : newline ∈ ReadLine.stream chunks
  · obtain ⟨w, u, hu, hw⟩ := List.eq_append_cons_of_mem hmem
    rw [hu, firstLine_append_cons hw, List.length_append, List.length_singleton] at hfits
    obtain ⟨rlbuf', chunks', -, -, hcall⟩ := ReadLine.myreadLineBuf_line tail hr hw
      (by rw [hrest, List.nil_append, hu]) (by omega) hfuel
    refine ⟨_, rlbuf', _, hcall, ?_⟩
    rw [if_neg (fun h => h.2 hmem), hu, firstLine_append_cons hw]
    exact ⟨rfl, fun _ => rfl⟩
  · have hfirst := firstLine_of_notMem hmem
    rw [hfirst] at hfits
    have hbuf : ReadLine.Rlbuf.rest (ReadLine.myreadLineBufInit fd rlbuf) ++
        ReadLine.stream chunks = ReadLine.stream chunks := by rw [hrest, List.nil_append]
    have hlen : (ReadLine.stream chunks).length ≤ INT_LEN - 1 := Nat.le_sub_one_of_lt hfits
    obtain rfl | ⟨post, rfl⟩ := htail
    · obtain ⟨rlbuf', -, -, hcall⟩ := ReadLine.myreadLineBuf_eof hr (by rwa [hbuf])
        (by rwa [hbuf]) (by decide) hfuel
      rw [List.append_nil, if_neg (by simp), hfirst]
      refine ⟨_, rlbuf', _, hcall, ?_⟩
      rw [hbuf]
      exact ⟨rfl, fun _ => rfl⟩
    · obtain ⟨rlbuf', -, -, hcall⟩ := ReadLine.myreadLineBuf_failed post hr (by rwa [hbuf])
        (by rwa [hbuf]) (by decide) hfuel
      rw [if_pos ⟨by simp, hmem⟩]
      exact ⟨_, rlbuf', _, hcall, rfl⟩

/-- A byte that is no newline is one of the line. -/
theorem requestLine_cons {ch : UInt8} (hch : ch ≠ newline) (bytes : List UInt8) (fails : Bool) :
    requestLine (ch :: bytes) fails = (requestLine bytes fails).map (ch :: ·) := by
  have hmem : newline ∈ ch :: bytes ↔ newline ∈ bytes := by simp [Ne.symm hch]
  simp only [requestLine, hmem, firstLine, if_neg hch]
  split_ifs <;> rfl

/-- The loop of the unbuffered reader, with the bytes `buf` stored so far. -/
theorem readLineLoop_delivers {reads : List ByteRead} {buf : List UInt8}
    (hfits : buf.length + (firstLine newline (sent reads)).1.length < INT_LEN) :
    Delivers (ReadLine.readLineLoop INT_LEN reads buf).1
      ((requestLine (sent reads) (reads.contains .failed)).map (buf ++ ·)) := by
  induction reads generalizing buf with
  | nil =>
    have hline : (requestLine (sent []) (List.contains [] ByteRead.failed)).map (buf ++ ·) =
        some buf := congrArg some (List.append_nil buf)
    rw [hline, ReadLine.readLineLoop]
    split_ifs with hbuf
    · refine ⟨?_, fun hne => absurd (List.length_eq_zero_iff.1 hbuf) hne⟩
      simp [hbuf]
    · exact ⟨rfl, fun _ => rfl⟩
  | cons x reads ih =>
    cases x with
    | interrupted => exact ih hfits
    | failed => exact rfl
    | byte ch =>
      have hsent : sent (.byte ch :: reads) = ch :: sent reads := rfl
      have hfails : (ByteRead.byte ch :: reads).contains .failed = reads.contains .failed := rfl
      rw [hsent, firstLine] at hfits
      rw [hsent, hfails, ReadLine.readLineLoop]
      by_cases hch : ch = newline
      · rw [if_pos hch, List.length_singleton] at hfits
        have hroom : buf.length < INT_LEN - 1 := by omega
        have hline : requestLine (ch :: sent reads) (reads.contains .failed) = some [ch] := by
          rw [requestLine, if_neg (by simp [hch]), firstLine, if_pos hch]
        rw [hline]
        simp only [if_pos hroom, if_pos hch]
        exact ⟨rfl, fun _ => rfl⟩
      · rw [if_neg hch, List.length_cons] at hfits
        have hroom : buf.length < INT_LEN - 1 := by omega
        have hfits' : (buf ++ [ch]).length + (firstLine newline (sent reads)).1.length <
            INT_LEN := by
          rw [List.length_append, List.length_singleton]
          omega
        have hrest := ih hfits'
        simp only [if_pos hroom, if_neg hch, requestLine_cons hch, Option.map_map]
        simpa [Function.comp_def] using hrest

/-- **The unbuffered reader** delivers a line that fits. -/
theorem readLine_delivers {reads : List ByteRead} (hfits : Fits (sent reads)) :
    Delivers (ReadLine.readLine INT_LEN reads).1 (line reads) := by
  have hloop := readLineLoop_delivers (show ([] : List UInt8).length + _ < INT_LEN by
    rw [List.length_nil, Nat.zero_add]
    exact hfits)
  rw [ReadLine.readLine, if_neg (by decide)]
  simpa [line] using hloop

/-! ## A run -/

/-- A server whose reader delivers the lines of its clients. -/
theorem serve_eq {read : σ → ρ → Except Fault (Returned × σ)} {clients : List ρ}
    (hread : ∀ client ∈ clients, ∀ s, ∃ r s', read s client = .ok (r, s') ∧
      Delivers r (lineOf client)) (s : σ) (seqNum : UInt32) :
    serve read s seqNum clients = .ok (services lineOf seqNum clients) := by
  induction clients generalizing s seqNum with
  | nil => rfl
  | cons client clients ih =>
    obtain ⟨r, s', hr, hdelivers⟩ := hread client List.mem_cons_self s
    have hrest := ih (fun c hc => hread c (List.mem_cons_of_mem _ hc)) s'
      (grant (asked (lineOf client)) seqNum).2
    rw [serve, hr, ok_bind]
    simp only [answer_of_delivers hdelivers, hrest]
    rfl

/-- **`59/1/sv.c`** grants what the lines of its clients ask for. -/
theorem svBuffered_eq {fuel : ℕ} (hfuel : INT_LEN ≤ fuel) (rlbuf : Rlbuf) (seqNum : UInt32)
    {clients : List (ℤ × Reads)} (hfits : ∀ client ∈ clients, Fits (sentBuffered client.2)) :
    svBuffered fuel rlbuf seqNum clients = .ok (services lineBuffered seqNum clients) := by
  refine serve_eq (fun client hclient rlbuf => ?_) rlbuf seqNum
  obtain ⟨r, rlbuf', reads', hcall, hdelivers⟩ :=
    myreadLineBuf_delivers hfuel client.1 rlbuf (hfits client hclient)
  refine ⟨r, rlbuf', ?_, hdelivers⟩
  rw [hcall]
  rfl

/-- **`59/2/sv.c`** grants what the lines of its clients ask for. -/
theorem sv_eq (seqNum : UInt32) {clients : List (List ByteRead)}
    (hfits : ∀ client ∈ clients, Fits (sent client)) :
    sv seqNum clients = .ok (services line seqNum clients) := by
  refine serve_eq (fun client hclient _ => ?_) () seqNum
  exact ⟨_, (), rfl, readLine_delivers (hfits client hclient)⟩

/-- Each service of a run is what its request asks for. -/
theorem eq_grant_of_mem {clients : List ρ} {i : Service ρ}
    (hi : i ∈ services lineOf seqNum clients) :
    (i.reply, i.after) = grant (asked (lineOf i.client)) i.before := by
  induction clients generalizing seqNum with
  | nil => cases hi
  | cons client clients ih =>
    obtain rfl | hi := List.mem_cons.1 hi
    · rfl
    · exact ih hi

theorem unwrapped_subset (lineOf : ρ → Option (List UInt8)) (its : List (Service ρ)) :
    unwrapped lineOf its ⊆ its := by
  induction its with
  | nil => exact List.Subset.refl _
  | cons i its ih =>
    rw [unwrapped]
    split_ifs
    · simp
    · exact List.cons_subset_cons i ih

/-! ## The reply -/

theorem toInt_toInt32 (b : UInt32) :
    b.toInt32.toInt = if b.toNat < 2 ^ 31 then (b.toNat : ℤ) else b.toNat - 2 ^ 32 := by
  have hcond : b.toInt32.toInt = if 2 * b.toNat < 2 ^ 32 then (b.toNat : ℤ) else b.toNat - 2 ^ 32 :=
    BitVec.toInt_eq_toNat_cond b.toBitVec
  rw [hcond]
  split_ifs <;> omega

/-- **The reply is the number** in the lower half of the range of the counter. -/
theorem seqNumStr_eq_iff (b : UInt32) :
    seqNumStr b = decimal b.toNat ++ [newline] ↔ b.toNat < 2 ^ 31 := by
  have hlt := b.toNat_lt
  have habs : b.toInt32.toInt.natAbs < 10 ^ 10 := by
    rw [toInt_toInt32]
    split_ifs <;> omega
  have hlen := length_decimalInt_le (by omega) habs
  have hstr : seqNumStr b = decimalInt b.toInt32.toInt ++ [newline] := by
    refine List.take_of_length_le ?_
    rw [List.length_append, List.length_singleton, INT_LEN]
    omega
  rw [hstr, List.append_cancel_right_eq, toInt_toInt32]
  constructor
  · intro h
    by_contra hge
    rw [if_neg hge, decimalInt, if_pos (by omega)] at h
    exact notMem_decimal (by decide) b.toNat (h ▸ List.mem_cons_self)
  · intro h
    rw [if_pos h, decimalInt, if_neg (by omega), Int.natAbs_natCast]

/-! ## The intervals -/

/-- The counter behind a request, if it does not wrap. -/
theorem toNat_grant {len : ℕ} (h : seqNum.toNat + len < 2 ^ 32) :
    (grant len seqNum).2.toNat = seqNum.toNat + len := by
  rw [grant]
  split_ifs with hlen
  · rw [hlen, Nat.add_zero]
  · rw [UInt32.toNat_add, UInt32.toNat_ofNat']
    omega

/-- The run goes on behind a request that does not wrap the counter. -/
theorem unwrapped_of_lt {client : ρ} (h : seqNum.toNat + asked (lineOf client) < 2 ^ 32)
    (clients : List ρ) :
    (unwrapped lineOf (services lineOf seqNum (client :: clients))).filterMap (span lineOf) =
      (if asked (lineOf client) = 0 then [] else [⟨seqNum.toNat, asked (lineOf client)⟩]) ++
        (unwrapped lineOf
          (services lineOf (grant (asked (lineOf client)) seqNum).2 clients)).filterMap
            (span lineOf) := by
  have hnot (reply after) : ¬ Wraps lineOf ⟨client, seqNum, reply, after⟩ := not_le.2 h
  rw [services, unwrapped, if_neg (hnot _ _), List.filterMap_cons, span]
  split_ifs <;> rfl

/-- The run ends with a request that wraps the counter. -/
theorem unwrapped_of_wraps {client : ρ} (h : 2 ^ 32 ≤ seqNum.toNat + asked (lineOf client))
    (clients : List ρ) :
    (unwrapped lineOf (services lineOf seqNum (client :: clients))).filterMap (span lineOf) =
      [⟨seqNum.toNat, asked (lineOf client)⟩] := by
  have hwraps (reply after) : Wraps lineOf ⟨client, seqNum, reply, after⟩ := h
  have hlt := seqNum.toNat_lt
  have hlen : asked (lineOf client) ≠ 0 := by omega
  rw [services, unwrapped, if_pos (hwraps _ _), List.filterMap_cons, span, if_neg hlen]
  rfl

/-- **Up to the wrap** the intervals follow each other upwards. -/
theorem stacked_spans (lineOf : ρ → Option (List UInt8)) (seqNum : UInt32) (clients : List ρ) :
    ∃ b, Stacked (seqNum.toNat : ℤ)
      ((unwrapped lineOf (services lineOf seqNum clients)).filterMap (span lineOf)) b := by
  induction clients generalizing seqNum with
  | nil => exact ⟨seqNum.toNat, le_rfl⟩
  | cons client clients ih =>
    by_cases hwraps : seqNum.toNat + asked (lineOf client) < 2 ^ 32
    · obtain ⟨b, hb⟩ := ih (grant (asked (lineOf client)) seqNum).2
      rw [toNat_grant hwraps] at hb
      rw [unwrapped_of_lt hwraps]
      refine ⟨b, ?_⟩
      split_ifs with hlen
      · simpa [hlen] using hb
      · refine ⟨le_rfl, ?_, by simpa using hb⟩
        simp only
        omega
    · have hlt := seqNum.toNat_lt
      rw [unwrapped_of_wraps (not_lt.1 hwraps)]
      refine ⟨_, le_rfl, ?_, le_rfl⟩
      simp only
      omega

/-- **What the servers keep of their promise**: the replies in the lower half of the range, and all
else up to the wrap. -/
theorem correct_iff (lineOf : ρ → Option (List UInt8)) (seqNum : UInt32) (clients : List ρ) :
    Correct lineOf (unwrapped lineOf (services lineOf seqNum clients)) ↔
      LowerHalf lineOf (unwrapped lineOf (services lineOf seqNum clients)) := by
  have hgrant {i : Service ρ} (hi : i ∈ unwrapped lineOf (services lineOf seqNum clients)) :
      (i.reply, i.after) = grant (asked (lineOf i.client)) i.before :=
    eq_grant_of_mem (unwrapped_subset lineOf _ hi)
  have hreply {i : Service ρ} (hi : i ∈ unwrapped lineOf (services lineOf seqNum clients))
      (hlen : asked (lineOf i.client) ≠ 0) : i.reply = some (seqNumStr i.before) := by
    have h := hgrant hi
    rw [grant, if_neg hlen] at h
    exact (Prod.mk.inj h).1
  constructor
  · intro h i hi hlen
    have heq := h.replies i hi hlen
    rw [hreply hi hlen, Option.some.injEq] at heq
    exact (seqNumStr_eq_iff i.before).1 heq
  · intro h
    refine ⟨fun i hi hlen => ?_, fun i hi hlen => ?_, ?_⟩
    · rw [hreply hi hlen, (seqNumStr_eq_iff i.before).2 (h i hi hlen)]
    · have hnone := hgrant hi
      rw [grant, if_pos hlen] at hnone
      exact Prod.mk.inj hnone
    · obtain ⟨b, hb⟩ := stacked_spans lineOf seqNum clients
      exact hb.pairwise_disjoint

/-- **When a server is right**: for all clients whose lines fit the buffer, up to the wrap of the
counter, if and only if no request that it grants finds the counter in the upper half. -/
theorem servers_correct_iff {fuel : ℕ} (hfuel : INT_LEN ≤ fuel) (rlbuf : Rlbuf) (seqNum : UInt32)
    {clients : List (ℤ × Reads)} (hfits : ∀ client ∈ clients, Fits (sentBuffered client.2))
    {clients' : List (List ByteRead)} (hfits' : ∀ client ∈ clients', Fits (sent client)) :
    (∃ its, svBuffered fuel rlbuf seqNum clients = .ok its ∧
        (Correct lineBuffered (unwrapped lineBuffered its) ↔
          LowerHalf lineBuffered (unwrapped lineBuffered its))) ∧
      ∃ its, sv seqNum clients' = .ok its ∧
        (Correct line (unwrapped line its) ↔ LowerHalf line (unwrapped line its)) :=
  ⟨⟨_, svBuffered_eq hfuel rlbuf seqNum hfits, correct_iff lineBuffered seqNum clients⟩,
    ⟨_, sv_eq seqNum hfits', correct_iff line seqNum clients'⟩⟩

/-- The bytes `5` and a newline in one `read`. -/
def chunk5 : ReadLine.Chunk := ⟨[53, 10], by decide, by decide⟩

/-- The byte `3`, and then a newline, in two. -/
def chunks3 : Reads := [some ⟨[51], by decide, by decide⟩, some ⟨[10], by decide, by decide⟩]

/-- Two clients of each server, that ask for 5 numbers and for 3 from 7 on. -/
theorem servers_correct_two :
    (∃ its, svBuffered 30 ReadLine.freshRlbuf 7 [(4, [some chunk5]), (4, chunks3)] = .ok its ∧
        Correct lineBuffered (unwrapped lineBuffered its)) ∧
      ∃ its, sv 7 [[.byte 53, .byte 10], [.byte 51, .byte 10]] = .ok its ∧
        Correct line (unwrapped line its) := by
  have hfits : ∀ client ∈ [((4 : ℤ), [some chunk5]), (4, chunks3)],
      Fits (sentBuffered client.2) := by decide
  have hfits' : ∀ client ∈ [[ByteRead.byte 53, .byte 10], [.byte 51, .byte 10]],
      Fits (sent client) := by decide
  obtain ⟨⟨its, hits, hiff⟩, its', hits', hiff'⟩ :=
    servers_correct_iff (show INT_LEN ≤ 30 from le_rfl) ReadLine.freshRlbuf 7 hfits hfits'
  refine ⟨⟨its, hits, hiff.2 ?_⟩, its', hits', hiff'.2 ?_⟩
  · obtain rfl := Except.ok.inj (hits.symm.trans (svBuffered_eq le_rfl _ 7 hfits))
    unfold LowerHalf
    decide
  · obtain rfl := Except.ok.inj (hits'.symm.trans (sv_eq 7 hfits'))
    unfold LowerHalf
    decide

/-- One client that asks for 1 number of a counter at `2 ^ 31`: the reply is `-2147483648`. -/
theorem negative_reply :
    ∃ its, sv 2147483648 [[.byte 49, .byte 10]] = .ok its ∧
      its.map Service.reply = [some (ascii "-2147483648\n")] ∧
      ¬ Correct line (unwrapped line its) := by
  refine ⟨_, sv_eq 2147483648 (by decide), ?_, ?_⟩
  · decide
  · rw [correct_iff]
    intro h
    have hlt := h _ List.mem_cons_self (by decide)
    exact absurd hlt (by decide)

end TlpiLearn.TcpSeqnum
