import TlpiLearn.Foundations.DescriptorTable
import Mathlib.Tactic

/-!
# Setting up sockets

`inetConnect`, `initPassiveSocket`, `inetListen` and `inetBind` of `59/3/myinet.c`. Each of them
goes through the addresses of `getaddrinfo` up to one with which all calls succeed. `inetConnect`
leaves one new socket or none, and frees the list once. Behind its loop `initPassiveSocket` leaves
the socket open when `listen` fails, and looks into the list for `addrlen` when it is freed already
(`setUp_iff`).
-/

namespace TlpiLearn.InetSockets

/-- `struct addrinfo`. -/
structure Addrinfo where
  ai_family : ℕ
  ai_socktype : ℕ
  ai_protocol : ℕ
  ai_addr : List UInt8
  ai_addrlen : ℕ
  deriving DecidableEq

/-- An element of the list, and which of the calls for it succeed. -/
structure Node where
  rp : Addrinfo
  socket : Bool
  setsockopt : Bool
  connect : Bool
  bind : Bool
  listen : Bool

/-- The open files: sockets, with the address that they are connected or bound to, and others. -/
inductive File (φ : Type*) where
  | other (f : φ)
  | socket (domain type protocol : ℕ) (addr : Option (List UInt8))

/-- The descriptors of the process, how often the list was freed, and whether a field of it was read
behind that; `stored` is what was stored for the caller. -/
structure State (φ : Type*) (limit : ℕ) where
  table : DescriptorTable (File φ) limit
  frees : ℕ
  late : Bool
  stored : Option ℕ

variable {φ : Type*} {limit : ℕ}

/-- The state at the call. -/
def State.init (t : DescriptorTable (File φ) limit) : State φ limit := ⟨t, 0, false, none⟩

/-- Fields of the list are read. -/
def State.touch (s : State φ limit) : State φ limit :=
  { s with late := s.late || decide (0 < s.frees) }

/-- `freeaddrinfo`. -/
def State.freeaddrinfo (s : State φ limit) : State φ limit := { s with frees := s.frees + 1 }

/-- `close`. -/
def State.close (s : State φ limit) (fd : Fin limit) : State φ limit :=
  { s with table := s.table.close fd }

/-- The entry of a descriptor is a socket. -/
def State.put (s : State φ limit) (fd : Fin limit) (rp : Addrinfo) (protocol : ℕ)
    (addr : Option (List UInt8)) : State φ limit :=
  let file := .socket rp.ai_family rp.ai_socktype protocol addr
  { s with table := s.table.set fd fd.isLt { file := file, cloexec := false } }

/-- The descriptor that `socket` returns if it succeeds; none is free in a full table. -/
def socketFd (t : DescriptorTable (File φ) limit) (node : Node) : Option (Fin limit) :=
  if node.socket then
    (t.freeFrom limit 0).pmap Fin.mk fun _ h => DescriptorTable.lt_of_freeFrom h
  else none

/-- How a turn ends: the next address is due, the loop is left with a socket for the address, or the
function gives up. -/
inductive Turn (φ : Type*) (limit : ℕ) where
  | next (s : State φ limit)
  | found (s : State φ limit) (fd : Fin limit) (node : Node)
  | failed (s : State φ limit)

/-- The body of the loop: `setopt` tells whether an option is set, and `attempt` is the call behind
that. -/
def turn (setopt : Bool) (attempt : Node → Bool) (protocol : Addrinfo → ℕ) (s : State φ limit)
    (node : Node) : Turn φ limit :=
  let s := s.touch
  match socketFd s.table node with
  | none => .next s.touch
  | some fd =>
    let s := s.put fd node.rp (protocol node.rp) none
    if setopt ∧ node.setsockopt = false then .failed (s.close fd)
    else
      let s := s.touch
      if attempt node then
        .found (s.put fd node.rp (protocol node.rp) (some node.rp.ai_addr)) fd node
      else .next (s.close fd).touch

/-- The loop over the list; it ends with `next` if there is no address left. -/
def addressLoop (setopt : Bool) (attempt : Node → Bool) (protocol : Addrinfo → ℕ) :
    State φ limit → List Node → Turn φ limit
  | s, [] => .next s
  | s, node :: res =>
    match turn setopt attempt protocol s node with
    | .next s => addressLoop setopt attempt protocol s res
    | .found s fd node => .found s fd node
    | .failed s => .failed s

/-- `inetConnect`; `res` is the list of `getaddrinfo`, if there is one. -/
def inetConnect (s : State φ limit) : Option (List Node) → ℤ × State φ limit
  | none => (-1, s)
  | some res =>
    match addressLoop false Node.connect Addrinfo.ai_protocol s res with
    | .found s cfd _ => ((cfd : ℕ), s.freeaddrinfo)
    | .next s => (-1, s.freeaddrinfo)
    | .failed s => (-1, s.freeaddrinfo)

/-- `initPassiveSocket`; `addrlen` tells whether it is not a null pointer. -/
def initPassiveSocket (s : State φ limit) (addrlen dolisten : Bool) :
    Option (List Node) → ℤ × State φ limit
  | none => (-1, s)
  | some res =>
    match addressLoop dolisten Node.bind (fun _ => 0) s res with
    | .failed s => (-1, s.freeaddrinfo)
    | .next s => (-1, s.freeaddrinfo)
    | .found s sfd node =>
      let s := s.freeaddrinfo
      if dolisten ∧ node.listen = false then (-1, s)
      else if addrlen then ((sfd : ℕ), { s.touch with stored := some node.rp.ai_addrlen })
      else ((sfd : ℕ), s)

/-- `inetListen`. -/
def inetListen (s : State φ limit) (addrlen : Bool) (res : Option (List Node)) :
    ℤ × State φ limit :=
  initPassiveSocket s addrlen true res

/-- `inetBind`. -/
def inetBind (s : State φ limit) (addrlen : Bool) (res : Option (List Node)) :
    ℤ × State φ limit :=
  initPassiveSocket s addrlen false res

/-- All calls that are required for an address succeed. -/
def Succeeds (listening : Bool) (attempt : Node → Bool) (t : DescriptorTable (File φ) limit)
    (node : Node) : Prop :=
  (socketFd t node).isSome ∧ (listening → node.setsockopt ∧ node.listen) ∧ attempt node

instance (listening : Bool) (attempt : Node → Bool) (t : DescriptorTable (File φ) limit)
    (node : Node) : Decidable (Succeeds listening attempt t node) :=
  inferInstanceAs (Decidable (_ ∧ _))

/-- `fd` is the one new descriptor, and it is a socket with the address. -/
def Opens (t t' : DescriptorTable (File φ) limit) (fd : ℤ) (rp : Addrinfo) : Prop :=
  ∃ k : ℕ, fd = k ∧ ¬ t.IsOpen k ∧
    (∃ protocol, (t'.entry k).map Descriptor.file =
      some (.socket rp.ai_family rp.ai_socktype protocol (some rp.ai_addr))) ∧
    ∀ j, j ≠ k → t'.entry j = t.entry j

/-- **What the functions do**: one new socket for the first address with which all calls succeed, or
none; the list is freed once, if there is one, and not looked at behind that. -/
def SetUp (listening : Bool) (attempt : Node → Bool) (t : DescriptorTable (File φ) limit)
    (res : Option (List Node)) (r : ℤ × State φ limit) : Prop :=
  ((∃ l node, res = some l ∧ l.find? (fun node => Succeeds listening attempt t node) = some node ∧
      Opens t r.2.table r.1 node.rp) ∨ r.1 = -1 ∧ r.2.table = t) ∧
    r.2.frees = res.elim 0 (fun _ => 1) ∧ r.2.late = false

/-- The loop stops at an address: its option cannot be set, or the last call in it succeeds. -/
def Stops (setopt : Bool) (attempt : Node → Bool) (t : DescriptorTable (File φ) limit)
    (node : Node) : Prop :=
  (socketFd t node).isSome ∧ ((setopt ∧ node.setsockopt = false) ∨ attempt node)

instance (setopt : Bool) (attempt : Node → Bool) (t : DescriptorTable (File φ) limit)
    (node : Node) : Decidable (Stops setopt attempt t node) :=
  inferInstanceAs (Decidable (_ ∧ _))

/-- The address that `initPassiveSocket` stops at, if any, is one whose option cannot be set, or
else `listen` succeeds if it is due, and `addrlen` is a null pointer. -/
def Tidy (addrlen dolisten : Bool) (t : DescriptorTable (File φ) limit)
    (res : Option (List Node)) : Prop :=
  ∀ l node, res = some l → l.find? (fun node => Stops dolisten Node.bind t node) = some node →
    (dolisten ∧ node.setsockopt = false) ∨ (dolisten → node.listen) ∧ addrlen = false

variable {t : DescriptorTable (File φ) limit} {s : State φ limit} {fd : Fin limit} {node : Node}
  {rp : Addrinfo} {addr : Option (List UInt8)} {protocol : ℕ}

/-! ## The calls -/

theorem not_isOpen_of_socketFd (h : socketFd t node = some fd) : ¬ t.IsOpen fd := by
  rw [socketFd] at h
  split_ifs at h
  obtain ⟨k, hk, hfree, rfl⟩ := Option.pmap_eq_some_iff.1 h
  exact (DescriptorTable.freeFrom_eq_some hfree).2.2.1

/-- Before the list is freed its fields can be read. -/
theorem touch_of_frees (hs : s.frees = 0) : s.touch = s := by
  have hlate : (s.late || decide (0 < s.frees)) = s.late := by simp [hs]
  rw [State.touch, hlate]

/-- A new socket that is closed leaves no trace. -/
theorem close_put (hfd : ¬ s.table.IsOpen fd) : (s.put fd rp protocol addr).close fd = s := by
  have hnone : s.table.entry fd = none := not_not.1 hfd
  have htable : (s.put fd rp protocol addr).table.close fd = s.table := by
    ext1
    simp [State.put, DescriptorTable.set, DescriptorTable.close, hnone]
  rw [State.close, htable]
  rfl

theorem put_put (addr' : Option (List UInt8)) :
    (s.put fd rp protocol addr).put fd rp protocol addr' = s.put fd rp protocol addr' := by
  simp [State.put, DescriptorTable.set]

/-- A socket at a free descriptor is the one new descriptor. -/
theorem opens_put (hfd : ¬ s.table.IsOpen fd) :
    Opens s.table (s.put fd rp protocol (some rp.ai_addr)).table (fd : ℕ) rp := by
  refine ⟨fd, rfl, hfd, ⟨protocol, ?_⟩, fun j hj => DescriptorTable.entry_set_of_ne fd.isLt _ hj⟩
  simp [State.put]

/-- A table with a new socket is another one. -/
theorem put_table_ne (hfd : ¬ s.table.IsOpen fd) : (s.put fd rp protocol addr).table ≠ s.table := by
  intro h
  have hentry := congrArg (fun t => t.entry fd) h
  simp only [State.put, DescriptorTable.entry_set_self] at hentry
  exact hfd (by simp [DescriptorTable.IsOpen, ← hentry])

/-! ## The loop -/

variable {setopt : Bool} {attempt : Node → Bool} {proto : Addrinfo → ℕ}

/-- **A turn** that does not leave the loop leaves the state as it is. -/
theorem turn_of_not_stops (hs : s.frees = 0) (h : ¬ Stops setopt attempt s.table node) :
    turn setopt attempt proto s node = .next s := by
  rw [turn, touch_of_frees hs]
  cases hfd : socketFd s.table node with
  | none => exact congrArg Turn.next (touch_of_frees hs)
  | some fd =>
    have hput : (s.put fd node.rp (proto node.rp) none).frees = 0 := hs
    simp only [Stops, hfd, Option.isSome_some, true_and, not_or] at h
    simp only [if_neg h.1, if_neg h.2, touch_of_frees hput]
    rw [close_put (not_isOpen_of_socketFd hfd), touch_of_frees hs]

/-- An option that cannot be set: the socket is closed again. -/
theorem turn_of_setsockopt (hs : s.frees = 0) (hfd : socketFd s.table node = some fd)
    (hopt : setopt ∧ node.setsockopt = false) :
    turn setopt attempt proto s node = .failed s := by
  rw [turn, touch_of_frees hs]
  simp only [hfd, if_pos hopt, close_put (not_isOpen_of_socketFd hfd)]

/-- The last call succeeds: the socket stays. -/
theorem turn_of_attempt (hs : s.frees = 0) (hfd : socketFd s.table node = some fd)
    (hopt : ¬ (setopt ∧ node.setsockopt = false)) (h : attempt node) :
    turn setopt attempt proto s node =
      .found (s.put fd node.rp (proto node.rp) (some node.rp.ai_addr)) fd node := by
  have hput : (s.put fd node.rp (proto node.rp) none).frees = 0 := hs
  rw [turn, touch_of_frees hs]
  simp only [hfd, if_neg hopt, if_pos h, touch_of_frees hput, put_put]

/-- **The loop** makes its last turn for the first address at which it stops. -/
theorem addressLoop_eq (hs : s.frees = 0) (res : List Node) :
    addressLoop setopt attempt proto s res =
      match res.find? (fun node => Stops setopt attempt s.table node) with
      | none => .next s
      | some node => turn setopt attempt proto s node := by
  induction res with
  | nil => rfl
  | cons node res ih =>
    rw [addressLoop, List.find?_cons]
    by_cases h : Stops setopt attempt s.table node
    · obtain ⟨hsome, hstop⟩ := h
      obtain ⟨fd, hfd⟩ := Option.isSome_iff_exists.1 hsome
      simp only [Stops, hsome, hstop, and_self, decide_true]
      by_cases hopt : setopt ∧ node.setsockopt = false
      · rw [turn_of_setsockopt hs hfd hopt]
      · rw [turn_of_attempt hs hfd hopt (hstop.resolve_left hopt)]
    · rw [turn_of_not_stops hs h, decide_eq_false h]
      exact ih

/-- The address at which the loop stops is the first one with which all calls succeed, if they do
with it. -/
theorem find?_succeeds {listening : Bool} {res : List Node}
    (h : res.find? (fun node => Stops listening attempt t node) = some node)
    (hnode : Succeeds listening attempt t node) :
    res.find? (fun node => Succeeds listening attempt t node) = some node := by
  rw [List.find?_eq_some_iff_append] at h ⊢
  obtain ⟨-, front, back, hres, hfront⟩ := h
  refine ⟨decide_eq_true hnode, front, back, hres, fun a ha => ?_⟩
  have hstop : ¬ Stops listening attempt t a := by simpa using hfront a ha
  have hnot : ¬ Succeeds listening attempt t a := fun hs => hstop ⟨hs.1, .inr hs.2.2⟩
  simpa using hnot

/-! ## The functions -/

theorem addressLoop_init (t : DescriptorTable (File φ) limit) (res : List Node) :
    addressLoop setopt attempt proto (State.init t) res =
      match res.find? (fun node => Stops setopt attempt t node) with
      | none => .next (State.init t)
      | some node => turn setopt attempt proto (State.init t) node :=
  addressLoop_eq rfl res

/-- The address at which the loop stops has a socket. -/
theorem exists_socketFd {res : List Node}
    (h : res.find? (fun node => Stops setopt attempt t node) = some node) :
    ∃ fd, socketFd t node = some fd ∧ ((setopt ∧ node.setsockopt = false) ∨ attempt node) := by
  have hstops : Stops setopt attempt t node := by simpa using List.find?_some h
  obtain ⟨fd, hfd⟩ := Option.isSome_iff_exists.1 hstops.1
  exact ⟨fd, hfd, hstops.2⟩

theorem setUp_none (listening : Bool) (t : DescriptorTable (File φ) limit) :
    SetUp listening attempt t none (-1, State.init t) :=
  ⟨.inr ⟨rfl, rfl⟩, rfl, rfl⟩

/-- The function gives up, and frees the list. -/
theorem setUp_fail (listening : Bool) (t : DescriptorTable (File φ) limit) (res : List Node) :
    SetUp listening attempt t (some res) (-1, (State.init t).freeaddrinfo) :=
  ⟨.inr ⟨rfl, rfl⟩, rfl, rfl⟩

/-- The function returns a socket, and has freed the list. -/
theorem setUp_found {listening : Bool} {res : List Node}
    (h : res.find? (fun node => Succeeds listening attempt t node) = some node)
    (hfd : socketFd t node = some fd) (protocol : ℕ) :
    SetUp listening attempt t (some res) ((fd : ℕ),
      ((State.init t).put fd node.rp protocol (some node.rp.ai_addr)).freeaddrinfo) := by
  have hfree : ¬ (State.init t).table.IsOpen fd := not_isOpen_of_socketFd hfd
  exact ⟨.inl ⟨res, node, rfl, h, opens_put hfree⟩, rfl, rfl⟩

/-- `inetConnect` returns the socket of the address at which its loop stops. -/
theorem inetConnect_of_find {res : List Node}
    (hfind : res.find? (fun node => Stops false Node.connect t node) = some node) :
    ∃ fd, socketFd t node = some fd ∧ Succeeds false Node.connect t node ∧
      inetConnect (State.init t) (some res) = (((fd : ℕ) : ℤ),
        ((State.init t).put fd node.rp node.rp.ai_protocol
          (some node.rp.ai_addr)).freeaddrinfo) := by
  obtain ⟨fd, hfd, hstop⟩ := exists_socketFd hfind
  have hopt : ¬ (false = true ∧ node.setsockopt = false) := by simp
  have hturn : turn false Node.connect Addrinfo.ai_protocol (State.init t) node = _ :=
    turn_of_attempt rfl hfd hopt (hstop.resolve_left hopt)
  refine ⟨fd, hfd, ⟨Option.isSome_iff_exists.2 ⟨fd, hfd⟩, by simp, hstop.resolve_left hopt⟩, ?_⟩
  rw [inetConnect, addressLoop_init, hfind]
  simp only [hturn]

/-- **`inetConnect`** always sets up one socket or none. -/
theorem inetConnect_setUp (t : DescriptorTable (File φ) limit) (res : Option (List Node)) :
    SetUp false Node.connect t res (inetConnect (State.init t) res) := by
  cases res with
  | none => exact setUp_none false t
  | some res =>
    cases hfind : res.find? fun node => Stops false Node.connect t node with
    | none =>
      rw [inetConnect, addressLoop_init, hfind]
      exact setUp_fail false t res
    | some node =>
      obtain ⟨fd, hfd, hnode, hconnect⟩ := inetConnect_of_find hfind
      rw [hconnect]
      exact setUp_found (find?_succeeds hfind hnode) hfd _

/-- `inetConnect` gives up only if there is no address with which all calls succeed. -/
theorem inetConnect_fails_iff (t : DescriptorTable (File φ) limit) (res : Option (List Node)) :
    (inetConnect (State.init t) res).1 = -1 ↔
      ∀ l, res = some l → ∀ node ∈ l, ¬ Succeeds false Node.connect t node := by
  cases res with
  | none => exact iff_of_true rfl fun l hl => by cases hl
  | some res =>
    simp only [Option.some.injEq, forall_eq']
    cases hfind : res.find? fun node => Stops false Node.connect t node with
    | none =>
      rw [inetConnect, addressLoop_init, hfind]
      refine iff_of_true rfl fun node hmem hnode => ?_
      have hstops : Stops false Node.connect t node := ⟨hnode.1, .inr hnode.2.2⟩
      simpa [hstops] using List.find?_eq_none.1 hfind node hmem
    | some node =>
      obtain ⟨fd, -, hnode, hconnect⟩ := inetConnect_of_find hfind
      rw [hconnect]
      exact iff_of_false (by omega) fun h => h node (List.mem_of_find?_eq_some hfind) hnode

/-- The condition for the address at which the loop stops. -/
theorem tidy_iff {addrlen dolisten : Bool} {res : List Node}
    (h : res.find? (fun node => Stops dolisten Node.bind t node) = some node) :
    Tidy addrlen dolisten t (some res) ↔
      (dolisten ∧ node.setsockopt = false) ∨ (dolisten → node.listen) ∧ addrlen = false := by
  constructor
  · exact fun htidy => htidy res node rfl h
  · intro hnode l node' hl hfind
    obtain rfl := Option.some.inj hl
    obtain rfl := Option.some.inj (h.symm.trans hfind)
    exact hnode

/-- The socket that `initPassiveSocket` has behind its loop. -/
theorem addressLoop_bind {dolisten : Bool} {res : List Node}
    (hfind : res.find? (fun node => Stops dolisten Node.bind t node) = some node)
    (hfd : socketFd t node = some fd) (hopt : ¬ (dolisten ∧ node.setsockopt = false))
    (hbind : node.bind = true) :
    addressLoop dolisten Node.bind (fun _ => 0) (State.init t) res =
      .found ((State.init t).put fd node.rp 0 (some node.rp.ai_addr)) fd node := by
  rw [addressLoop_init, hfind]
  exact turn_of_attempt rfl hfd hopt hbind

/-- The socket stays open behind a `listen` that fails. -/
theorem not_setUp_of_listen {dolisten addrlen : Bool} {res : List Node}
    (hfind : res.find? (fun node => Stops dolisten Node.bind t node) = some node)
    (hfd : socketFd t node = some fd) (hopt : ¬ (dolisten ∧ node.setsockopt = false))
    (hbind : node.bind = true) (hlisten : dolisten ∧ node.listen = false) :
    ¬ SetUp dolisten Node.bind t (some res)
      (initPassiveSocket (State.init t) addrlen dolisten (some res)) := by
  rw [initPassiveSocket, addressLoop_bind hfind hfd hopt hbind]
  simp only [if_pos hlisten]
  rintro ⟨⟨-, -, -, -, k, hk, -⟩ | ⟨-, htable⟩, -⟩
  · omega
  · exact put_table_ne (not_isOpen_of_socketFd (t := t) hfd) htable

/-- Behind a `listen` that succeeds, `addrlen` decides whether the freed list is read. -/
theorem setUp_of_listen_iff {dolisten addrlen : Bool} {res : List Node}
    (hfind : res.find? (fun node => Stops dolisten Node.bind t node) = some node)
    (hfd : socketFd t node = some fd) (hopt : ¬ (dolisten ∧ node.setsockopt = false))
    (hbind : node.bind = true) (hlisten : ¬ (dolisten ∧ node.listen = false)) :
    SetUp dolisten Node.bind t (some res)
      (initPassiveSocket (State.init t) addrlen dolisten (some res)) ↔ addrlen = false := by
  rw [initPassiveSocket, addressLoop_bind hfind hfd hopt hbind]
  simp only [if_neg hlisten]
  cases addrlen with
  | true =>
    refine iff_of_false ?_ (by simp)
    rintro ⟨-, -, hlate⟩
    cases hlate
  | false =>
    have hready : dolisten → node.setsockopt ∧ node.listen := by
      intro hdo
      simpa [hdo] using And.intro hopt hlisten
    have hnode : Succeeds dolisten Node.bind t node :=
      ⟨Option.isSome_iff_exists.2 ⟨fd, hfd⟩, hready, hbind⟩
    exact iff_of_true (setUp_found (find?_succeeds hfind hnode) hfd 0) rfl

/-- **When `initPassiveSocket` sets up one socket or none.** -/
theorem initPassiveSocket_setUp_iff (t : DescriptorTable (File φ) limit) (addrlen dolisten : Bool)
    (res : Option (List Node)) :
    SetUp dolisten Node.bind t res (initPassiveSocket (State.init t) addrlen dolisten res) ↔
      Tidy addrlen dolisten t res := by
  cases res with
  | none => exact iff_of_true (setUp_none dolisten t) fun l node hl => by cases hl
  | some res =>
    cases hfind : res.find? fun node => Stops dolisten Node.bind t node with
    | none =>
      rw [initPassiveSocket, addressLoop_init, hfind]
      refine iff_of_true (setUp_fail dolisten t res) fun l node hl h => ?_
      obtain rfl := Option.some.inj hl
      cases hfind.symm.trans h
    | some node =>
      obtain ⟨fd, hfd, hstop⟩ := exists_socketFd hfind
      rw [tidy_iff hfind]
      by_cases hopt : dolisten ∧ node.setsockopt = false
      · have hturn : turn dolisten Node.bind (fun _ => 0) (State.init t) node = _ :=
          turn_of_setsockopt rfl hfd hopt
        rw [initPassiveSocket, addressLoop_init, hfind]
        simp only [hturn]
        exact iff_of_true (setUp_fail dolisten t res) (.inl hopt)
      · have hbind : node.bind = true := hstop.resolve_left hopt
        rw [or_iff_right hopt]
        by_cases hlisten : dolisten ∧ node.listen = false
        · refine iff_of_false (not_setUp_of_listen hfind hfd hopt hbind hlisten) fun h => ?_
          simpa [hlisten.2] using h.1 hlisten.1
        · rw [setUp_of_listen_iff hfind hfd hopt hbind hlisten]
          have hready : dolisten → node.listen := by simpa using hlisten
          exact (and_iff_right hready).symm

/-- **When the functions set up one socket or none.** `inetConnect` does it for every list and all
results of the calls, and gives up only if no address works; `initPassiveSocket`, and with it
`inetListen` and `inetBind`, if nothing is due behind the loop that can fail or that is in the
list. -/
theorem setUp_iff (t : DescriptorTable (File φ) limit) (addrlen dolisten : Bool)
    (res : Option (List Node)) :
    SetUp false Node.connect t res (inetConnect (State.init t) res) ∧
      ((inetConnect (State.init t) res).1 = -1 ↔
        ∀ l, res = some l → ∀ node ∈ l, ¬ Succeeds false Node.connect t node) ∧
      (SetUp dolisten Node.bind t res (initPassiveSocket (State.init t) addrlen dolisten res) ↔
        Tidy addrlen dolisten t res) ∧
      (SetUp true Node.bind t res (inetListen (State.init t) addrlen res) ↔
        Tidy addrlen true t res) ∧
      (SetUp false Node.bind t res (inetBind (State.init t) addrlen res) ↔
        Tidy addrlen false t res) :=
  ⟨inetConnect_setUp t res, inetConnect_fails_iff t res,
    initPassiveSocket_setUp_iff t addrlen dolisten res,
    initPassiveSocket_setUp_iff t addrlen true res, initPassiveSocket_setUp_iff t addrlen false res⟩

/-- A process with four free descriptors. -/
def freeTable : DescriptorTable (File Unit) 4 := ⟨fun _ => none, fun _ _ => rfl⟩

/-- An address with which all calls succeed up to `listen`. -/
def wildcard (listen : Bool) : Node := ⟨⟨2, 1, 6, [], 16⟩, true, true, true, true, listen⟩

/-- `listen` fails; and `listen` succeeds for a caller who asks for the length of the address. -/
theorem not_setUp_wildcard :
    ¬ SetUp true Node.bind freeTable (some [wildcard false])
        (inetListen (State.init freeTable) false (some [wildcard false])) ∧
      ¬ SetUp true Node.bind freeTable (some [wildcard true])
        (inetListen (State.init freeTable) true (some [wildcard true])) := by
  constructor
  · intro h
    have htidy := (initPassiveSocket_setUp_iff freeTable false true _).1 h
    exact absurd (htidy _ (wildcard false) rfl rfl) (by decide)
  · intro h
    have htidy := (initPassiveSocket_setUp_iff freeTable true true _).1 h
    exact absurd (htidy _ (wildcard true) rfl rfl) (by decide)

end TlpiLearn.InetSockets
