import Mathlib.Logic.Function.Basic
import SysFs.Cutils.LocalName

/-!
# Servers and clients of local sockets

`socket_local_server` opens a socket, binds it to a name and listens, and
`socket_local_client` opens one and connects it to a name; both close the socket again
when something fails.  A server with a path for a name unlinks the path first, whoever
made it.

`Sockets` is what the system knows of local sockets: those that are open, and which of
them a name leads to.  An abstract name leads to the socket that has it, until it is
closed; each type of sockets has its own abstract names.  An entry of a directory leads to
the socket that made it, until it is unlinked.  `entryOf` says which entry a path is when a
link at its end is not followed, as `bind` and `unlink` take it; `connect` follows links.
What the system may refuse is given with each call (`ServerAnswers`, `ClientAnswers`), and
sockets are numbered as they are opened.

* `Sound`: an abstract name leads to a socket exactly when it is open and has the name, and
  what made an entry has the name of the entry, if it is open.  Every call keeps this.
* `server_reached`: from when a server is open, a client of its type that uses its name, in
  whatever spelling or through links, reaches it and nothing else, until the server is closed
  or another one takes its path.  Only streams listen, so that a server of sequenced packets
  is never reached.
* `client_reaches`: what a client reaches is open and has the name that it used, or the entry
  that a link of this name leads to.
* `open_runs`: the open sockets are those that some call returned and no later one closed, so
  that a call that fails leaves none open.
-/

namespace SysFs.Cutils

open Base

/-- `SOCK_STREAM`, and `SOCK_TYPE_MASK`. -/
def SOCK_STREAM : ℕ := 1
def SOCK_TYPE_MASK : ℕ := 0xf

/-- The type of a socket, without flags. -/
def sockType (type : ℕ) : ℕ := type &&& SOCK_TYPE_MASK

/-- The ways in which local sockets carry data. -/
inductive Transport where
  | stream | dgram | seqpacket
deriving DecidableEq, Repr

/-- What the system makes of a type: raw local sockets are datagram sockets. -/
def transport (type : ℕ) : Option Transport :=
  if sockType type = SOCK_STREAM then some .stream
  else if sockType type = 2 ∨ sockType type = 3 then some .dgram
  else if sockType type = 5 then some .seqpacket
  else none

/-- What a socket can be bound to. -/
inductive Place (Entry : Type) where
  | abstract (t : Transport) (bytes : Str)
  | entry (e : Entry)
deriving DecidableEq, Repr

/-- What a name is for sockets of a type. -/
def SocketName.place {Entry : Type} (entryOf : Str → Entry) (t : Transport) :
    SocketName → Place Entry
  | .abstract bytes => .abstract t bytes
  | .path text => .entry (entryOf text)

/-- The place of a name in a namespace. -/
def place {Entry : Type} (entryOf : Str → Entry) (t : Transport) (name : Str)
    (namespaceId : Int) : Option (Place Entry) :=
  (socketName name namespaceId).map (SocketName.place entryOf t)

/-- How many links are followed. -/
def MAXSYMLINKS : ℕ := 40

/-- An open local socket. -/
structure LocalSocket (Entry : Type) where
  transport : Transport
  name : Option (Place Entry)
  listening : Bool

/-- The local sockets of a system. -/
structure Sockets (Entry : Type) where
  /-- the number of the next socket -/
  next : ℕ
  isOpen : ℕ → Option (LocalSocket Entry)
  /-- which socket a place leads to -/
  holder : Place Entry → Option ℕ
  /-- where an entry leads that is a link -/
  link : Entry → Option Entry

/-- What the system grants to a server. -/
structure ServerAnswers where
  socket : Bool
  unlink : Bool
  bind : Bool
  listen : Bool
deriving DecidableEq, Repr

/-- What the system grants to a client. -/
structure ClientAnswers where
  socket : Bool
  connect : Bool
deriving DecidableEq, Repr

namespace Sockets

variable {Entry : Type}

/-- No sockets, and some links. -/
def empty (link : Entry → Option Entry) : Sockets Entry :=
  ⟨0, fun _ => none, fun _ => none, link⟩

variable (sys : Sockets Entry)

/-- `socket`. -/
def socket (type : ℕ) (granted : Bool) : Option (Sockets Entry) :=
  match transport type, granted with
  | some t, true =>
    some { sys with
      next := sys.next + 1
      isOpen := Function.update sys.isOpen sys.next (some ⟨t, none, false⟩) }
  | _, _ => none

/-- `close`: an abstract name is free again, an entry stays. -/
def close (s : ℕ) : Sockets Entry :=
  { sys with
    isOpen := Function.update sys.isOpen s none
    holder := fun
      | .abstract t bytes =>
        if sys.holder (.abstract t bytes) = some s then none else sys.holder (.abstract t bytes)
      | .entry e => sys.holder (.entry e) }

variable [DecidableEq Entry] (entryOf : Str → Entry)

/-- `unlink`: there is nothing at the empty path. -/
def unlink (path : Str) : Sockets Entry :=
  if path = [] then sys
  else { sys with
    holder := Function.update sys.holder (.entry (entryOf path)) none
    link := Function.update sys.link (entryOf path) none }

/-- Neither a socket nor a link is at the place. -/
def free (p : Place Entry) : Bool :=
  (sys.holder p).isNone && match p with
    | .abstract _ _ => true
    | .entry e => (sys.link e).isNone

/-- `bind`, which fails when the place is taken or the socket has a name. -/
def bind (s : ℕ) (n : SocketName) : Option (Sockets Entry) :=
  match sys.isOpen s with
  | some ⟨t, none, listening⟩ =>
    let p := n.place entryOf t
    if sys.free p then
      some { sys with
        isOpen := Function.update sys.isOpen s (some ⟨t, some p, listening⟩)
        holder := Function.update sys.holder p (some s) }
    else none
  | _ => none

/-- `listen`. -/
def listen (s : ℕ) : Sockets Entry :=
  { sys with
    isOpen := Function.update sys.isOpen s
      ((sys.isOpen s).map fun sock => { sock with listening := true }) }

/-- The entry that is found when links are followed. -/
def follow : ℕ → Entry → Option Entry
  | 0, e => if (sys.link e).isNone then some e else none
  | n + 1, e =>
    match sys.link e with
    | none => some e
    | some e' => follow n e'

/-- The place that a place leads to when links are followed. -/
def target : Place Entry → Option (Place Entry)
  | .abstract t bytes => some (.abstract t bytes)
  | .entry e => (sys.follow MAXSYMLINKS e).map .entry

/-- `connect` of a socket of the type: the socket that is reached.  Whoever wants a connection
needs a listener. -/
def connect (n : SocketName) (t : Transport) : Option ℕ :=
  ((sys.target (n.place entryOf t)).bind sys.holder).bind fun s =>
    match sys.isOpen s with
    | some sock =>
      if sock.transport = t ∧ (t = .dgram ∨ sock.listening = true) then some s else none
    | none => none

/-- `socket_local_server_bind`: the sockets afterwards, and whether it succeeded. -/
def socket_local_server_bind (s : ℕ) (name : Str) (namespaceId : Int) (a : ServerAnswers) :
    Sockets Entry × Bool :=
  match socket_make_sockaddr_un name namespaceId with
  | none => (sys, false)
  | some addr =>
    let sys :=
      if (namespaceId = UNIX_SOCKET_NAMESPACE_RESERVED
          ∨ namespaceId = UNIX_SOCKET_NAMESPACE_FILESYSTEM) ∧ a.unlink = true then
        sys.unlink entryOf (cString addr.sun_path)
      else sys
    match sys.bind entryOf s addr.socketName, a.bind with
    | some sys', true => (sys', true)
    | _, _ => (sys, false)

/-- `socket_local_server`: the sockets afterwards, and the server. -/
def socket_local_server (name : Str) (namespaceId : Int) (type : ℕ) (a : ServerAnswers) :
    Sockets Entry × Option ℕ :=
  let s := sys.next
  match sys.socket type a.socket with
  | none => (sys, none)
  | some sys₁ =>
    match sys₁.socket_local_server_bind entryOf s name namespaceId a with
    | (sys₂, false) => (sys₂.close s, none)
    | (sys₂, true) =>
      if sockType type = SOCK_STREAM then
        if a.listen then (sys₂.listen s, some s) else (sys₂.close s, none)
      else (sys₂, some s)

/-- `socket_local_client_connect`: the socket that is reached. -/
def socket_local_client_connect (name : Str) (namespaceId : Int) (type : ℕ) (a : ClientAnswers) :
    Option ℕ :=
  match socket_make_sockaddr_un name namespaceId with
  | none => none
  | some addr =>
    if a.connect then (transport type).bind (sys.connect entryOf addr.socketName) else none

/-- `socket_local_client`: the sockets afterwards, the client and what it reached. -/
def socket_local_client (name : Str) (namespaceId : Int) (type : ℕ) (a : ClientAnswers) :
    Sockets Entry × Option (ℕ × ℕ) :=
  let s := sys.next
  match sys.socket type a.socket with
  | none => (sys, none)
  | some sys₁ =>
    match sys₁.socket_local_client_connect entryOf name namespaceId type a with
    | none => (sys₁.close s, none)
    | some server => (sys₁, some (s, server))

end Sockets

/-- The calls of any programs. -/
inductive SocketCall where
  | server (name : Str) (namespaceId : Int) (type : ℕ) (a : ServerAnswers)
  | client (name : Str) (namespaceId : Int) (type : ℕ) (a : ClientAnswers)
  | close (s : ℕ)
deriving DecidableEq, Repr

/-- The sockets after a call. -/
def Sockets.step {Entry : Type} [DecidableEq Entry] (entryOf : Str → Entry)
    (sys : Sockets Entry) : SocketCall → Sockets Entry
  | .server name namespaceId type a => (sys.socket_local_server entryOf name namespaceId type a).1
  | .client name namespaceId type a => (sys.socket_local_client entryOf name namespaceId type a).1
  | .close s => sys.close s

/-- The socket that a call returns. -/
def Sockets.returned {Entry : Type} [DecidableEq Entry] (entryOf : Str → Entry)
    (sys : Sockets Entry) : SocketCall → Option ℕ
  | .server name namespaceId type a => (sys.socket_local_server entryOf name namespaceId type a).2
  | .client name namespaceId type a =>
    (sys.socket_local_client entryOf name namespaceId type a).2.map Prod.fst
  | .close _ => none

/-- The entry that a server unlinks before it binds. -/
def unlinked {Entry : Type} (entryOf : Str → Entry) (name : Str) (namespaceId : Int) :
    Option Entry :=
  if namespaceId = UNIX_SOCKET_NAMESPACE_RESERVED
      ∨ namespaceId = UNIX_SOCKET_NAMESPACE_FILESYSTEM then
    (socket_make_sockaddr_un name namespaceId).bind fun addr =>
      if cString addr.sun_path = [] then none else some (entryOf (cString addr.sun_path))
  else none

/-- A call that neither closes the socket nor unlinks its entry. -/
def SocketCall.Leaves {Entry : Type} (entryOf : Str → Entry) (s : ℕ) (p : Place Entry) :
    SocketCall → Prop
  | .server name namespaceId _ _ => ∀ e, p = .entry e → unlinked entryOf name namespaceId ≠ some e
  | .client .. => True
  | .close s' => s' ≠ s

namespace Sockets

variable {Entry : Type} {sys sys' : Sockets Entry} {s t : ℕ} {p q : Place Entry} {type : ℕ}
  {granted : Bool}

/-! ## What each call of the system changes -/

theorem socket_cases (h : sys.socket type granted = some sys') :
    ∃ t, transport type = some t ∧ sys' = { sys with
      next := sys.next + 1
      isOpen := Function.update sys.isOpen sys.next (some ⟨t, none, false⟩) } := by
  unfold socket at h
  split at h
  · rename_i ht
    exact ⟨_, ht, (Option.some_inj.1 h).symm⟩
  · cases h

@[simp] theorem isOpen_close_self (sys : Sockets Entry) (s : ℕ) : (sys.close s).isOpen s = none :=
  Function.update_self _ _ _

theorem isOpen_close (sys : Sockets Entry) (h : s ≠ t) : (sys.close t).isOpen s = sys.isOpen s :=
  Function.update_of_ne h _ _

theorem holder_close_abstract {type : Transport} {bytes : Str} :
    (sys.close t).holder (.abstract type bytes) = some s ↔
      sys.holder (.abstract type bytes) = some s ∧ s ≠ t := by
  show (if sys.holder (.abstract type bytes) = some t then none
    else sys.holder (.abstract type bytes)) = some s ↔ _
  split_ifs with h
  · rw [h]
    simp [eq_comm]
  · constructor
    · intro hs
      refine ⟨hs, ?_⟩
      rintro rfl
      exact h hs
    · exact And.left

theorem isOpen_listen (sys : Sockets Entry) (h : s ≠ t) : (sys.listen t).isOpen s = sys.isOpen s :=
  Function.update_of_ne h _ _

variable [DecidableEq Entry] {entryOf : Str → Entry}

omit [DecidableEq Entry] in
theorem free_iff : sys.free p = true ↔
    sys.holder p = none ∧ ∀ e, p = .entry e → sys.link e = none := by
  cases p <;> simp [free]

theorem bind_cases {n : SocketName} (h : sys.bind entryOf s n = some sys') :
    ∃ t p listening, sys.isOpen s = some ⟨t, none, listening⟩ ∧ p = n.place entryOf t ∧
      sys.holder p = none ∧ (∀ e, p = .entry e → sys.link e = none) ∧
      sys'.next = sys.next ∧ sys'.link = sys.link ∧
      sys'.isOpen = Function.update sys.isOpen s (some ⟨t, some p, listening⟩) ∧
      sys'.holder = Function.update sys.holder p (some s) := by
  unfold bind at h
  split at h
  · rename_i t listening hopen
    simp only at h
    split_ifs at h with hfree
    obtain rfl := Option.some_inj.1 h
    exact ⟨t, _, listening, hopen, rfl, (free_iff.1 hfree).1, (free_iff.1 hfree).2, rfl, rfl,
      rfl, rfl⟩
  · cases h

/-- Unlinking takes one entry away. -/
theorem holder_unlink {path : Str} (h : p ≠ .entry (entryOf path) ∨ path = []) :
    (sys.unlink entryOf path).holder p = sys.holder p := by
  unfold unlink
  split_ifs with hpath
  · rfl
  · exact Function.update_of_ne (h.resolve_right hpath) _ _

theorem isOpen_unlink (sys : Sockets Entry) (path : Str) :
    (sys.unlink entryOf path).isOpen = sys.isOpen := by
  unfold unlink
  split_ifs <;> rfl

theorem link_unlink {e : Entry} {path : Str} (h : sys.link e = none) :
    (sys.unlink entryOf path).link e = none := by
  unfold unlink
  split_ifs
  · exact h
  · by_cases he : e = entryOf path
    · rw [he]
      exact Function.update_self _ _ _
    · exact (Function.update_of_ne he _ _).trans h

theorem next_unlink (sys : Sockets Entry) (path : Str) :
    (sys.unlink entryOf path).next = sys.next := by
  unfold unlink
  split_ifs <;> rfl

/-- A server that may unlink first changes no socket by it. -/
theorem isOpen_ite_unlink (c : Prop) [Decidable c] (sys : Sockets Entry) (path : Str) :
    (if c then sys.unlink entryOf path else sys).isOpen = sys.isOpen ∧
      (if c then sys.unlink entryOf path else sys).next = sys.next := by
  split_ifs
  · exact ⟨isOpen_unlink sys path, next_unlink sys path⟩
  · exact ⟨rfl, rfl⟩

theorem holder_of_unlink {path : Str} (h : (sys.unlink entryOf path).holder p = some s) :
    sys.holder p = some s := by
  unfold unlink at h
  split_ifs at h with hpath
  · exact h
  · by_cases hp : p = .entry (entryOf path)
    · rw [hp] at h
      simp only [Function.update_self, reduceCtorEq] at h
    · exact (Function.update_of_ne hp _ _).symm.trans h

/-! ## What any call keeps -/

/-- What the calls of the system keep that a server makes on its socket `t`. -/
structure Keeps (I : Sockets Entry → Prop) (entryOf : Str → Entry) (t : ℕ) (name : Str)
    (namespaceId : Int) : Prop where
  unlink : ∀ sys path, (path = [] ∨ unlinked entryOf name namespaceId = some (entryOf path)) →
    I sys → I (sys.unlink entryOf path)
  bind : ∀ sys n sys', socketName name namespaceId = some n → sys.bind entryOf t n = some sys' →
    I sys → I sys'
  listen : ∀ sys, I sys → I (sys.listen t)
  close : ∀ sys, I sys → I (sys.close t)

variable {I : Sockets Entry → Prop} {name : Str} {namespaceId : Int}

theorem Keeps.server_bind (hI : Keeps I entryOf t name namespaceId)
    (hs : I sys) (a : ServerAnswers) :
    I (sys.socket_local_server_bind entryOf t name namespaceId a).1 := by
  unfold socket_local_server_bind
  cases haddr : socket_make_sockaddr_un name namespaceId with
  | none => exact hs
  | some addr =>
    simp only
    have hun : I (if (namespaceId = UNIX_SOCKET_NAMESPACE_RESERVED
          ∨ namespaceId = UNIX_SOCKET_NAMESPACE_FILESYSTEM) ∧ a.unlink = true then
        sys.unlink entryOf (cString addr.sun_path) else sys) := by
      split_ifs with hpath
      · refine hI.unlink sys _ ?_ hs
        rw [unlinked, if_pos hpath.1, haddr, Option.bind_some]
        split_ifs with hnil
        · exact Or.inl hnil
        · exact Or.inr rfl
      · exact hs
    split
    · rename_i hbind _
      refine hI.bind _ _ _ ?_ hbind hun
      rw [socketName, haddr, Option.map_some]
    · exact hun

theorem Keeps.server (hI : Keeps I entryOf sys.next name namespaceId) (hs : I sys)
    {a : ServerAnswers} (hsocket : ∀ sys', sys.socket type a.socket = some sys' → I sys') :
    I (sys.socket_local_server entryOf name namespaceId type a).1 := by
  unfold socket_local_server
  simp only
  cases hsock : sys.socket type a.socket with
  | none => exact hs
  | some sys₁ =>
    have hbind := hI.server_bind (hsocket sys₁ hsock) a
    cases hcall : sys₁.socket_local_server_bind entryOf sys.next name namespaceId a with
    | mk sys₂ bound =>
      rw [hcall] at hbind
      cases bound with
      | false =>
        simp only [hcall]
        exact hI.close _ hbind
      | true =>
        simp only [hcall]
        split_ifs
        · exact hI.listen _ hbind
        · exact hI.close _ hbind
        · exact hbind

omit [DecidableEq Entry] in
theorem client_keeps (hclose : ∀ sys', I sys' → I (sys'.close sys.next)) (hs : I sys)
    {a : ClientAnswers} (hsocket : ∀ sys', sys.socket type a.socket = some sys' → I sys') :
    I (sys.socket_local_client entryOf name namespaceId type a).1 := by
  unfold socket_local_client
  simp only
  cases hsock : sys.socket type a.socket with
  | none => exact hs
  | some sys₁ =>
    have hI := hsocket sys₁ hsock
    simp only
    split
    · exact hclose _ hI
    · exact hI

/-! ## Names and the sockets that have them -/

/-- An abstract name leads to a socket exactly when it is open and has the name, and what
made an entry has the name of the entry, if it is open. -/
structure Sound (sys : Sockets Entry) : Prop where
  fresh : ∀ s, sys.next ≤ s → sys.isOpen s = none
  below : ∀ p s, sys.holder p = some s → s < sys.next
  abstracts : ∀ t bytes s, sys.holder (.abstract t bytes) = some s ↔
    ∃ sock, sys.isOpen s = some sock ∧ sock.name = some (.abstract t bytes)
  entries : ∀ e s sock, sys.holder (.entry e) = some s → sys.isOpen s = some sock →
    sock.name = some (.entry e)

omit [DecidableEq Entry] in
theorem sound_empty (link : Entry → Option Entry) : (empty link).Sound where
  fresh _ _ := rfl
  below p s h := by cases h
  abstracts t bytes s := by
    constructor
    · intro h
      cases h
    · rintro ⟨sock, h, -⟩
      cases h
  entries e s sock h := by cases h

omit [DecidableEq Entry] in
theorem Sound.lt_next (hs : sys.Sound) {sock : LocalSocket Entry} (h : sys.isOpen s = some sock) :
    s < sys.next := by
  by_contra hle
  rw [hs.fresh s (Nat.le_of_not_lt hle)] at h
  cases h

omit [DecidableEq Entry] in
/-- What a place leads to has its name, if it is open. -/
theorem Sound.name_eq (hs : sys.Sound) {sock : LocalSocket Entry} (h : sys.holder p = some s)
    (hopen : sys.isOpen s = some sock) : sock.name = some p := by
  cases p with
  | abstract t bytes =>
    obtain ⟨sock', hopen', hname⟩ := (hs.abstracts t bytes s).1 h
    rw [hopen] at hopen'
    obtain rfl := Option.some_inj.1 hopen'
    exact hname
  | entry e => exact hs.entries e s sock h hopen

omit [DecidableEq Entry] in
theorem Sound.socket (hs : sys.Sound) (h : sys.socket type granted = some sys') : sys'.Sound := by
  obtain ⟨t, -, rfl⟩ := socket_cases h
  have hself : Function.update sys.isOpen sys.next (some ⟨t, none, false⟩) sys.next
      = some ⟨t, none, false⟩ := Function.update_self _ _ _
  refine ⟨fun s hle => ?_, fun p s hp => Nat.lt_succ_of_lt (hs.below p s hp),
    fun type bytes s => ?_, fun e s sock hp hopen => ?_⟩
  · have hlt : sys.next < s := hle
    exact (Function.update_of_ne hlt.ne' _ _).trans (hs.fresh s hlt.le)
  · refine (hs.abstracts type bytes s).trans ?_
    by_cases hne : s = sys.next
    · subst hne
      rw [hs.fresh _ le_rfl]
      simp only [hself]
      simp
    · simp only [Function.update_of_ne hne]
  · have hne : s ≠ sys.next := (hs.below _ _ hp).ne
    exact hs.entries e s sock hp ((Function.update_of_ne hne _ _).symm.trans hopen)

omit [DecidableEq Entry] in
theorem Sound.close (hs : sys.Sound) (t : ℕ) : (sys.close t).Sound where
  fresh s hle := by
    by_cases hne : s = t
    · subst hne
      exact isOpen_close_self sys s
    · rw [isOpen_close sys hne]
      exact hs.fresh s hle
  below p s h := by
    cases p with
    | abstract t bytes => exact hs.below _ s (holder_close_abstract.1 h).1
    | entry e => exact hs.below _ s h
  abstracts type bytes s := by
    rw [holder_close_abstract, hs.abstracts]
    by_cases hne : s = t
    · subst hne
      simp
    · rw [isOpen_close sys hne]
      simp [hne]
  entries e s sock h hopen := by
    have hne : s ≠ t := by
      rintro rfl
      rw [isOpen_close_self] at hopen
      cases hopen
    rw [isOpen_close sys hne] at hopen
    exact hs.entries e s sock h hopen

theorem Sound.unlink (hs : sys.Sound) (path : Str) : (sys.unlink entryOf path).Sound where
  fresh s hle := by
    rw [next_unlink] at hle
    rw [isOpen_unlink]
    exact hs.fresh s hle
  below p s h := by
    rw [next_unlink]
    exact hs.below p s (holder_of_unlink h)
  abstracts type bytes s := by
    rw [holder_unlink (Or.inl (by simp)), isOpen_unlink]
    exact hs.abstracts type bytes s
  entries e s sock h hopen := by
    rw [isOpen_unlink] at hopen
    exact hs.entries e s sock (holder_of_unlink h) hopen

theorem Sound.bind {n : SocketName} (hs : sys.Sound) (h : sys.bind entryOf s n = some sys') :
    sys'.Sound := by
  obtain ⟨t, p, listening, hopen, -, hfree, -, hnext, -, hopen', hholder⟩ := bind_cases h
  have hself : sys'.isOpen s = some ⟨t, some p, listening⟩ := by
    rw [hopen', Function.update_self]
  have hother : ∀ s', s' ≠ s → sys'.isOpen s' = sys.isOpen s' := by
    intro s' hne
    rw [hopen', Function.update_of_ne hne]
  have hp : sys'.holder p = some s := by rw [hholder, Function.update_self]
  have hq : ∀ q, q ≠ p → sys'.holder q = sys.holder q := by
    intro q hne
    rw [hholder, Function.update_of_ne hne]
  refine ⟨fun s' hle => ?_, fun q s' hheld => ?_, fun type bytes s' => ?_,
    fun e s' sock hheld hsock => ?_⟩
  · rw [hnext] at hle
    rw [hother s' ((hs.lt_next hopen).trans_le hle).ne']
    exact hs.fresh s' hle
  · rw [hnext]
    by_cases hqp : q = p
    · subst hqp
      obtain rfl := Option.some_inj.1 (hp.symm.trans hheld)
      exact hs.lt_next hopen
    · exact hs.below q s' ((hq q hqp).symm.trans hheld)
  · by_cases hne : s' = s
    · subst hne
      rw [hself]
      by_cases hpb : p = .abstract type bytes
      · subst hpb
        simp [hp]
      · -- a socket without a name holds nothing
        rw [hq _ (Ne.symm hpb), hs.abstracts, hopen]
        simp [hpb]
    · rw [hother s' hne, ← hs.abstracts]
      by_cases hpb : p = .abstract type bytes
      · subst hpb
        simp [hp, hfree, Ne.symm hne]
      · rw [hq _ (Ne.symm hpb)]
  · by_cases hpe : p = .entry e
    · subst hpe
      obtain rfl := Option.some_inj.1 (hp.symm.trans hheld)
      rw [hself] at hsock
      obtain rfl := Option.some_inj.1 hsock
      rfl
    · rw [hq _ (Ne.symm hpe)] at hheld
      by_cases hne : s' = s
      · subst hne
        cases hs.name_eq hheld hopen
      · rw [hother s' hne] at hsock
        exact hs.entries e s' sock hheld hsock

omit [DecidableEq Entry] in
theorem Sound.listen (hs : sys.Sound) (t : ℕ) : (sys.listen t).Sound := by
  have hname : ∀ s p, (∃ sock, (sys.listen t).isOpen s = some sock ∧ sock.name = some p) ↔
      ∃ sock, sys.isOpen s = some sock ∧ sock.name = some p := by
    intro s p
    by_cases hne : s = t
    · subst hne
      rw [show (sys.listen s).isOpen s = _ from Function.update_self _ _ _]
      cases sys.isOpen s <;> simp
    · rw [isOpen_listen sys hne]
  refine ⟨fun s hle => ?_, hs.below, fun type bytes s => ?_, fun e s sock h hopen => ?_⟩
  · by_cases hne : s = t
    · subst hne
      rw [show (sys.listen s).isOpen s = _ from Function.update_self _ _ _, hs.fresh s hle,
        Option.map_none]
    · rw [isOpen_listen sys hne]
      exact hs.fresh s hle
  · rw [hname]
    exact hs.abstracts type bytes s
  · by_cases hne : s = t
    · subst hne
      rw [show (sys.listen s).isOpen s = _ from Function.update_self _ _ _] at hopen
      obtain ⟨sock, hsock, rfl⟩ := Option.map_eq_some_iff.1 hopen
      exact hs.entries e s sock h hsock
    · rw [isOpen_listen sys hne] at hopen
      exact hs.entries e s sock h hopen

theorem Sound.keeps (entryOf : Str → Entry) (t : ℕ) (name : Str) (namespaceId : Int) :
    Keeps Sound entryOf t name namespaceId where
  unlink _ path _ hs := hs.unlink path
  bind _ _ _ _ h hs := hs.bind h
  listen _ hs := hs.listen t
  close _ hs := hs.close t

theorem Sound.step (entryOf : Str → Entry) (sys : Sockets Entry) (call : SocketCall)
    (hs : sys.Sound) : (sys.step entryOf call).Sound := by
  cases call with
  | server name namespaceId type a =>
    exact (Sound.keeps entryOf _ _ _).server hs fun _ h => hs.socket h
  | client name namespaceId type a =>
    exact client_keeps (fun _ hs => hs.close _) hs fun _ h => hs.socket h
  | close s => exact hs.close s

/-! ## A server and its clients -/

/-- The socket is open, has the place for a name, and the place, which is no link, leads to it.
Only a stream listens. -/
structure Serves (s : ℕ) (p : Place Entry) (t : Transport) (sys : Sockets Entry) : Prop where
  below : s < sys.next
  holder : sys.holder p = some s
  link : ∀ e, p = .entry e → sys.link e = none
  sock : sys.isOpen s = some ⟨t, some p, decide (t = .stream)⟩

variable {t : Transport} {t' : ℕ}

omit [DecidableEq Entry] in
theorem Serves.socket (h : Serves s p t sys) (hsocket : sys.socket type granted = some sys') :
    Serves s p t sys' := by
  obtain ⟨_, -, rfl⟩ := socket_cases hsocket
  exact ⟨Nat.lt_succ_of_lt h.below, h.holder, h.link,
    (Function.update_of_ne h.below.ne _ _).trans h.sock⟩

omit [DecidableEq Entry] in
theorem Serves.close (h : Serves s p t sys) (hne : t' ≠ s) : Serves s p t (sys.close t') := by
  refine ⟨h.below, ?_, h.link, (isOpen_close sys (Ne.symm hne)).trans h.sock⟩
  have hheld := h.holder
  cases p with
  | abstract type bytes => exact holder_close_abstract.2 ⟨hheld, Ne.symm hne⟩
  | entry e => exact hheld

/-- What other sockets do leaves a server, as long as its entry is not unlinked. -/
theorem Serves.keeps (hne : t' ≠ s)
    (he : ∀ e, p = .entry e → unlinked entryOf name namespaceId ≠ some e) :
    Keeps (Serves s p t) entryOf t' name namespaceId where
  unlink sys path hpath h := by
    refine ⟨?_, ?_, fun e hp => link_unlink (h.link e hp), ?_⟩
    · rw [next_unlink]
      exact h.below
    · rw [holder_unlink, h.holder]
      rcases hpath with hnil | hpath
      · exact Or.inr hnil
      · exact Or.inl fun hp => he _ hp hpath
    · rw [isOpen_unlink]
      exact h.sock
  bind sys n sys' _ hbind h := by
    obtain ⟨_, q, _, _, -, hfree, -, hnext, hlink, hopen, hholder⟩ := bind_cases hbind
    have hpq : p ≠ q := by
      rintro rfl
      rw [h.holder] at hfree
      cases hfree
    refine ⟨?_, ?_, ?_, ?_⟩
    · rw [hnext]
      exact h.below
    · rw [hholder, Function.update_of_ne hpq]
      exact h.holder
    · rw [hlink]
      exact h.link
    · rw [hopen, Function.update_of_ne (Ne.symm hne)]
      exact h.sock
  listen sys h := ⟨h.below, h.holder, h.link, (isOpen_listen sys (Ne.symm hne)).trans h.sock⟩
  close sys h := h.close hne

theorem Serves.step (h : Serves s p t sys) {call : SocketCall} (hcall : call.Leaves entryOf s p) :
    Serves s p t (sys.step entryOf call) := by
  cases call with
  | server name namespaceId type a =>
    exact (Serves.keeps h.below.ne' hcall).server h fun _ hsocket => h.socket hsocket
  | client name namespaceId type a =>
    exact client_keeps (fun _ h' => h'.close h.below.ne') h fun _ hsocket => h.socket hsocket
  | close s' => exact h.close hcall

omit [DecidableEq Entry] in
theorem transport_eq_stream_iff (h : transport type = some t) :
    t = .stream ↔ sockType type = SOCK_STREAM := by
  unfold transport at h
  split_ifs at h with h1
  all_goals
    obtain rfl := Option.some_inj.1 h
    simp [h1]

theorem server_bind_ok {a : ServerAnswers} (ht : sys.isOpen s = some ⟨t, none, false⟩)
    (h : sys.socket_local_server_bind entryOf s name namespaceId a = (sys', true)) :
    ∃ p, place entryOf t name namespaceId = some p ∧ sys'.next = sys.next ∧
      sys'.holder p = some s ∧ (∀ e, p = .entry e → sys'.link e = none) ∧
      sys'.isOpen s = some ⟨t, some p, false⟩ := by
  unfold socket_local_server_bind at h
  cases haddr : socket_make_sockaddr_un name namespaceId with
  | none =>
    rw [haddr] at h
    cases h
  | some addr =>
    rw [haddr] at h
    refine ⟨addr.socketName.place entryOf t, by rw [place, socketName, haddr]; rfl, ?_⟩
    simp only at h
    split at h
    · rename_i hbind _
      obtain ⟨rfl, -⟩ := Prod.mk.inj h
      obtain ⟨t', p, listening, hopen, rfl, -, hfree, hnext, hlink, hopen', hholder⟩ :=
        bind_cases hbind
      obtain ⟨hsame, hsamenext⟩ := isOpen_ite_unlink
        ((namespaceId = UNIX_SOCKET_NAMESPACE_RESERVED
          ∨ namespaceId = UNIX_SOCKET_NAMESPACE_FILESYSTEM) ∧ a.unlink = true) sys
        (cString addr.sun_path)
      rw [hsame, ht] at hopen
      obtain ⟨rfl, -, rfl⟩ := LocalSocket.mk.inj (Option.some_inj.1 hopen)
      refine ⟨hnext.trans hsamenext, ?_, ?_, ?_⟩
      · rw [hholder, Function.update_self]
      · rw [hlink]
        exact hfree
      · rw [hopen', Function.update_self]
    · cases h

/-- A server that is returned serves its name. -/
theorem server_serves {a : ServerAnswers}
    (h : sys.socket_local_server entryOf name namespaceId type a = (sys', some s)) :
    s = sys.next ∧ ∃ t p, transport type = some t ∧ place entryOf t name namespaceId = some p ∧
      Serves s p t sys' := by
  unfold socket_local_server at h
  simp only at h
  cases hsock : sys.socket type a.socket with
  | none =>
    rw [hsock] at h
    cases h
  | some sys₁ =>
    rw [hsock] at h
    obtain ⟨t, ht, hsys₁⟩ := socket_cases hsock
    have hopen : sys₁.isOpen sys.next = some ⟨t, none, false⟩ := by
      rw [hsys₁]
      exact Function.update_self _ _ _
    have hlt : sys.next < sys₁.next := by
      rw [hsys₁]
      exact Nat.lt_succ_self _
    cases hcall : sys₁.socket_local_server_bind entryOf sys.next name namespaceId a with
    | mk sys₂ bound =>
      simp only [hcall] at h
      cases bound with
      | false => cases h
      | true =>
        obtain ⟨p, hp, hnext, hholder, hlink, hopen₂⟩ := server_bind_ok hopen hcall
        have hlt₂ : sys.next < sys₂.next := hnext ▸ hlt
        simp only at h
        split_ifs at h with hstream hlisten
        · obtain ⟨rfl, hs⟩ := Prod.mk.inj h
          obtain rfl := Option.some_inj.1 hs
          have ht' := (transport_eq_stream_iff ht).2 hstream
          refine ⟨rfl, t, p, ht, hp, hlt₂, hholder, hlink, (Function.update_self _ _ _).trans ?_⟩
          rw [hopen₂, ht']
          rfl
        · cases h
        · obtain ⟨rfl, hs⟩ := Prod.mk.inj h
          obtain rfl := Option.some_inj.1 hs
          have ht' := mt (transport_eq_stream_iff ht).1 hstream
          refine ⟨rfl, t, p, ht, hp, hlt₂, hholder, hlink, ?_⟩
          rw [hopen₂, decide_eq_false ht']

omit [DecidableEq Entry] in
/-- Where a place leads depends on the links only. -/
theorem target_congr (h : sys'.link = sys.link) (p : Place Entry) :
    sys'.target p = sys.target p := by
  have hfollow : ∀ n e, sys'.follow n e = sys.follow n e := by
    intro n
    induction n with
    | zero =>
      intro e
      rw [follow, follow, h]
    | succ n ih =>
      intro e
      rw [follow, follow, h]
      cases sys.link e with
      | none => rfl
      | some e' => exact ih e'
  cases p with
  | abstract type bytes => rfl
  | entry e => rw [target, target, hfollow]

omit [DecidableEq Entry] in
/-- The place of a server leads to itself. -/
theorem Serves.target_self (h : Serves s p t sys) : sys.target p = some p := by
  cases p with
  | abstract type bytes => rfl
  | entry e =>
    rw [target, MAXSYMLINKS, follow, h.link e rfl]
    rfl

omit [DecidableEq Entry] in
/-- What a client with a name that leads to a server reaches. -/
theorem Serves.client {p' : Place Entry} (h : Serves s p t sys)
    (hname : place entryOf t name namespaceId = some p') (hleads : sys.target p' = some p)
    (htype : transport type = some t) :
    (sys.socket_local_client entryOf name namespaceId type ⟨true, true⟩).2
      = if t = .seqpacket then none else some (sys.next, s) := by
  obtain ⟨n, hn, rfl⟩ := Option.map_eq_some_iff.1 hname
  obtain ⟨addr, haddr, rfl⟩ := Option.map_eq_some_iff.1 hn
  have hsocket : sys.socket type true = some { sys with
      next := sys.next + 1
      isOpen := Function.update sys.isOpen sys.next (some ⟨t, none, false⟩) } := by
    simp only [Sockets.socket, htype]
  have h₁ := h.socket hsocket
  have hconnect : ∀ sys₁ : Sockets Entry, Serves s p t sys₁ →
      sys₁.target (addr.socketName.place entryOf t) = some p →
      sys₁.socket_local_client_connect entryOf name namespaceId type ⟨true, true⟩
        = if t = .seqpacket then none else some s := by
    intro sys₁ h₁ hleads₁
    rw [socket_local_client_connect, haddr]
    simp only [if_true]
    rw [htype, Option.bind_some, Sockets.connect, hleads₁, Option.bind_some, h₁.holder,
      Option.bind_some, h₁.sock]
    cases t <;> simp
  rw [socket_local_client]
  simp only [hsocket]
  rw [hconnect _ h₁ (target_congr rfl _ ▸ hleads)]
  cases t <;> rfl

/-- From when a server is open, a client that uses its name, or a link that leads there,
reaches it and nothing else, until the server is closed or its entry is unlinked.  A server of
sequenced packets does not listen, and no client reaches it. -/
theorem server_reached (entryOf : Str → Entry) (link : Entry → Option Entry)
    (before later : List SocketCall) {name name' : Str} {namespaceId namespaceId' : Int}
    {type type' : ℕ} {a : ServerAnswers} {sys : Sockets Entry} {s : ℕ} {t : Transport}
    {p p' : Place Entry}
    (hserver : (Run.runs (step entryOf) (empty link) before).socket_local_server entryOf name
      namespaceId type a = (sys, some s))
    (ht : transport type = some t) (hp : place entryOf t name namespaceId = some p)
    (hlater : ∀ call ∈ later, call.Leaves entryOf s p)
    (htype : transport type' = some t) (hname : place entryOf t name' namespaceId' = some p')
    (hleads : p' = p ∨ (Run.runs (step entryOf) sys later).target p' = some p) :
    ((Run.runs (step entryOf) sys later).socket_local_client entryOf name' namespaceId' type'
        ⟨true, true⟩).2
      = if t = .seqpacket then none
        else some ((Run.runs (step entryOf) sys later).next, s) := by
  obtain ⟨-, t', p'', ht', hp', hserves⟩ := server_serves hserver
  obtain rfl := Option.some_inj.1 (ht.symm.trans ht')
  obtain rfl := Option.some_inj.1 (hp.symm.trans hp')
  have hlast : Serves s p t (Run.runs (step entryOf) sys later) :=
    Run.inv_of_along (C := fun _ call => call.Leaves entryOf s p) (fun _ _ h hcall => h.step hcall)
      hserves (Run.along_of_mem fun call hcall _ => hlater call hcall)
  refine hlast.client hname ?_ htype
  rcases hleads with rfl | hleads
  · exact hlast.target_self
  · exact hleads

/-- A link to the socket of a reserved name. -/
def linked : Str → Option Str :=
  fun path => if path = "/tmp/l".toList then some "/dev/socket/x".toList else none

theorem server_reached_reserved :
    let sys := ((empty linked).socket_local_server id "x".toList 1 1
      ⟨true, true, true, true⟩).1
    let last := Run.runs (step id) sys [.server "y".toList 1 1 ⟨true, true, true, true⟩, .close 7]
    (last.socket_local_client id "/dev/socket/x".toList 2 1 ⟨true, true⟩).2 = some (2, 0) ∧
      (last.socket_local_client id "/tmp/l".toList 2 1 ⟨true, true⟩).2 = some (2, 0) := by
  intro sys last
  have hserver : (Run.runs (step id) (empty linked) []).socket_local_server id "x".toList 1 1
      ⟨true, true, true, true⟩ = (sys, some 0) := rfl
  have hlater : ∀ call ∈ [SocketCall.server "y".toList 1 1 ⟨true, true, true, true⟩, .close 7],
      call.Leaves (id : Str → Str) 0 (.entry "/dev/socket/x".toList) := by
    intro call hcall
    rcases List.mem_cons.1 hcall with rfl | hcall
    · intro e he
      rw [← Place.entry.inj he]
      decide
    · obtain rfl := List.mem_singleton.1 hcall
      exact Nat.succ_ne_zero 6
  exact ⟨server_reached id linked [] _ hserver rfl (by decide) hlater rfl (by decide) (Or.inl rfl),
    server_reached id linked [] _ hserver rfl (by decide) hlater rfl
      (show place id .stream "/tmp/l".toList 2 = some (.entry "/tmp/l".toList) by decide)
      (Or.inr (by decide))⟩

/-! ## What a call leaves behind -/

/-- The state differs from an earlier one in what a server changes: the socket it opens, the
entry it unlinks and the place it binds to. -/
structure Beside (entryOf : Str → Entry) (name : Str) (namespaceId : Int)
    (sys sys' : Sockets Entry) : Prop where
  isOpen : ∀ s, s ≠ sys.next → sys'.isOpen s = sys.isOpen s
  abstracts : ∀ t bytes, sys'.holder (.abstract t bytes) = sys.holder (.abstract t bytes) ∨
    sys.holder (.abstract t bytes) = none ∧ sys'.holder (.abstract t bytes) = some sys.next
  entries : ∀ e, unlinked entryOf name namespaceId ≠ some e →
    (∀ t, place entryOf t name namespaceId ≠ some (.entry e)) →
    sys'.holder (.entry e) = sys.holder (.entry e)

omit [DecidableEq Entry] in
theorem Beside.refl (entryOf : Str → Entry) (name : Str) (namespaceId : Int)
    (sys : Sockets Entry) : Beside entryOf name namespaceId sys sys :=
  ⟨fun _ _ => rfl, fun _ _ => Or.inl rfl, fun _ _ _ => rfl⟩

omit [DecidableEq Entry] in
theorem Beside.socket (h : sys.socket type granted = some sys') :
    Beside entryOf name namespaceId sys sys' := by
  obtain ⟨t, -, rfl⟩ := socket_cases h
  exact ⟨fun s hne => Function.update_of_ne hne _ _, fun _ _ => Or.inl rfl, fun _ _ _ => rfl⟩

omit [DecidableEq Entry] in
/-- When the new socket is closed, it has no abstract name. -/
theorem Beside.close (hs : sys.Sound) (h : Beside entryOf name namespaceId sys sys') :
    (sys'.close sys.next).isOpen = sys.isOpen ∧
      (∀ t bytes, (sys'.close sys.next).holder (.abstract t bytes)
        = sys.holder (.abstract t bytes)) ∧
      ∀ e, unlinked entryOf name namespaceId ≠ some e →
        (∀ t, place entryOf t name namespaceId ≠ some (.entry e)) →
        (sys'.close sys.next).holder (.entry e) = sys.holder (.entry e) := by
  refine ⟨funext fun s => ?_, fun t bytes => ?_, h.entries⟩
  · by_cases hne : s = sys.next
    · rw [hne, isOpen_close_self, hs.fresh _ le_rfl]
    · rw [isOpen_close sys' hne, h.isOpen s hne]
  · show (if sys'.holder (.abstract t bytes) = some sys.next then none
      else sys'.holder (.abstract t bytes)) = _
    rcases h.abstracts t bytes with hsame | ⟨hfree, hnew⟩
    · have hne : sys.holder (.abstract t bytes) ≠ some sys.next := by
        intro hheld
        exact (hs.below _ _ hheld).ne rfl
      rw [hsame, if_neg hne]
    · rw [hnew, if_pos rfl, hfree]

theorem Beside.keeps (hs : sys.Sound) :
    Keeps (Beside entryOf name namespaceId sys) entryOf sys.next name namespaceId where
  unlink sys' path hpath h := by
    refine ⟨fun s hne => ?_, fun t bytes => ?_, fun e he hp => ?_⟩
    · rw [isOpen_unlink]
      exact h.isOpen s hne
    · rw [holder_unlink (Or.inl (by simp))]
      exact h.abstracts t bytes
    · rw [holder_unlink]
      · exact h.entries e he hp
      · rcases hpath with hnil | hpath
        · exact Or.inr hnil
        · refine Or.inl fun heq => he ?_
          rw [hpath, Place.entry.inj heq]
  bind sys' n sys'' hn hbind h := by
    obtain ⟨t, p, listening, -, hp, hfree, -, -, -, hopen', hholder⟩ := bind_cases hbind
    refine ⟨fun s hne => ?_, fun type bytes => ?_, fun e he hpe => ?_⟩
    · rw [hopen', Function.update_of_ne hne]
      exact h.isOpen s hne
    · rw [hholder]
      by_cases hpb : p = .abstract type bytes
      · rw [hpb] at hfree ⊢
        rw [Function.update_self]
        rcases h.abstracts type bytes with hsame | ⟨hnone, -⟩
        · exact Or.inr ⟨hsame.symm.trans hfree, rfl⟩
        · exact Or.inr ⟨hnone, rfl⟩
      · rw [Function.update_of_ne (Ne.symm hpb)]
        exact h.abstracts type bytes
    · have hne : Place.entry e ≠ p := by
        rintro rfl
        refine hpe t ?_
        rw [place, hn, Option.map_some, ← hp]
      rw [hholder, Function.update_of_ne hne]
      exact h.entries e he hpe
  listen sys' h :=
    ⟨fun s hne => (isOpen_listen sys' hne).trans (h.isOpen s hne), h.abstracts, h.entries⟩
  close sys' h := by
    obtain ⟨hopen, habstract, hentry⟩ := h.close hs
    exact ⟨fun s _ => congrFun hopen s, fun t bytes => Or.inl (habstract t bytes), hentry⟩

/-- A server that fails leaves the open sockets and the abstract names as they were.  The entry
of its path may be gone, or lead to the socket that is closed. -/
theorem server_failed {a : ServerAnswers} (hs : sys.Sound)
    (h : sys.socket_local_server entryOf name namespaceId type a = (sys', none)) :
    sys'.isOpen = sys.isOpen ∧
      (∀ t bytes, sys'.holder (.abstract t bytes) = sys.holder (.abstract t bytes)) ∧
      ∀ e, unlinked entryOf name namespaceId ≠ some e →
        (∀ t, place entryOf t name namespaceId ≠ some (.entry e)) →
        sys'.holder (.entry e) = sys.holder (.entry e) := by
  unfold socket_local_server at h
  simp only at h
  cases hsock : sys.socket type a.socket with
  | none =>
    simp only [hsock] at h
    obtain rfl := (Prod.mk.inj h).1
    exact ⟨rfl, fun _ _ => rfl, fun _ _ _ => rfl⟩
  | some sys₁ =>
    simp only [hsock] at h
    have hkeeps : Keeps (Beside entryOf name namespaceId sys) entryOf sys.next name namespaceId :=
      Beside.keeps hs
    have hbind := hkeeps.server_bind (Beside.socket hsock) a
    cases hcall : sys₁.socket_local_server_bind entryOf sys.next name namespaceId a with
    | mk sys₂ bound =>
      rw [hcall] at hbind
      simp only [hcall] at h
      cases bound with
      | false =>
        obtain rfl := (Prod.mk.inj h).1
        exact hbind.close hs
      | true =>
        simp only at h
        split_ifs at h
        · cases h
        · obtain rfl := (Prod.mk.inj h).1
          exact hbind.close hs
        · cases h

omit [DecidableEq Entry] in
/-- A client that fails closes its socket, and one that succeeds keeps it. -/
theorem client_cases (sys : Sockets Entry) (entryOf : Str → Entry) (name : Str) (namespaceId : Int)
    (type : ℕ) (a : ClientAnswers) :
    sys.socket_local_client entryOf name namespaceId type a = (sys, none) ∨
      ∃ sys', sys.socket type a.socket = some sys' ∧
        (sys.socket_local_client entryOf name namespaceId type a = (sys'.close sys.next, none) ∨
          ∃ server, sys.socket_local_client entryOf name namespaceId type a
            = (sys', some (sys.next, server))) := by
  unfold socket_local_client
  simp only
  cases hsock : sys.socket type a.socket with
  | none => exact Or.inl rfl
  | some sys₁ =>
    refine Or.inr ⟨sys₁, rfl, ?_⟩
    simp only
    cases sys₁.socket_local_client_connect entryOf name namespaceId type a with
    | none => exact Or.inl rfl
    | some server => exact Or.inr ⟨server, rfl⟩

omit [DecidableEq Entry] in
theorem isOpen_of_socket (h : sys.socket type granted = some sys') :
    sys'.isOpen sys.next ≠ none ∧ ∀ s, s ≠ sys.next → sys'.isOpen s = sys.isOpen s := by
  obtain ⟨t, -, rfl⟩ := socket_cases h
  refine ⟨?_, fun s hne => Function.update_of_ne hne _ _⟩
  show Function.update sys.isOpen sys.next (some ⟨t, none, false⟩) sys.next ≠ none
  rw [Function.update_self]
  simp

omit [DecidableEq Entry] in
/-- Where one socket is new, the open ones are those that were, and it. -/
theorem open_iff_of_new (hnew : sys'.isOpen sys.next ≠ none)
    (hold : ∀ s, s ≠ sys.next → sys'.isOpen s = sys.isOpen s) (s : ℕ) :
    sys'.isOpen s ≠ none ↔ sys.next = s ∨ sys.isOpen s ≠ none := by
  by_cases hne : s = sys.next
  · rw [hne]
    simp [hnew]
  · rw [hold s hne]
    simp [Ne.symm hne]

/-- The sockets open after a call are those that were, and the one that it returns. -/
theorem open_step (entryOf : Str → Entry) (hs : sys.Sound) (call : SocketCall) (s : ℕ) :
    (sys.step entryOf call).isOpen s ≠ none ↔
      sys.returned entryOf call = some s ∨ (sys.isOpen s ≠ none ∧ call ≠ .close s) := by
  cases call with
  | server name namespaceId type a =>
    have hkeeps : Keeps (Beside entryOf name namespaceId sys) entryOf sys.next name namespaceId :=
      Beside.keeps hs
    have hbeside : Beside entryOf name namespaceId sys
        (sys.socket_local_server entryOf name namespaceId type a).1 :=
      hkeeps.server (Beside.refl _ _ _ sys) fun _ h => Beside.socket h
    have hcalls : SocketCall.server name namespaceId type a ≠ .close s := SocketCall.noConfusion
    simp only [step, returned]
    rw [and_iff_left hcalls]
    cases hcall : sys.socket_local_server entryOf name namespaceId type a with
    | mk sys' r =>
      cases r with
      | none =>
        rw [(server_failed hs hcall).1]
        simp
      | some t =>
        obtain ⟨rfl, _, _, -, -, hserves⟩ := server_serves hcall
        rw [hcall] at hbeside
        have hopen : sys'.isOpen sys.next ≠ none := by
          rw [hserves.sock]
          simp
        rw [open_iff_of_new hopen hbeside.isOpen, Option.some_inj]
  | client name namespaceId type a =>
    have hcalls : SocketCall.client name namespaceId type a ≠ .close s := SocketCall.noConfusion
    simp only [step, returned]
    rw [and_iff_left hcalls]
    rcases client_cases sys entryOf name namespaceId type a with
      h | ⟨sys', hsock, h | ⟨server, h⟩⟩
    · rw [h]
      simp
    · have hbeside : Beside entryOf name namespaceId sys sys' := Beside.socket hsock
      rw [h, (hbeside.close hs).1]
      simp
    · obtain ⟨hnew, hold⟩ := isOpen_of_socket hsock
      rw [h, open_iff_of_new hnew hold, Option.map_some, Option.some_inj]
  | close t =>
    simp only [step, returned, reduceCtorEq, false_or]
    by_cases hne : s = t
    · subst hne
      simp
    · have hcalls : SocketCall.close t ≠ .close s := fun h => hne (SocketCall.close.inj h).symm
      rw [isOpen_close sys hne]
      simp [hcalls]

theorem sound_runs (entryOf : Str → Entry) (link : Entry → Option Entry)
    (calls : List SocketCall) : (Run.runs (step entryOf) (empty link) calls).Sound :=
  Run.inv_of_step (fun _ call hs => Sound.step entryOf _ call hs) (sound_empty link) calls

/-- After any run the open sockets are those that some call returned and no later one closed. -/
theorem open_runs (entryOf : Str → Entry) (link : Entry → Option Entry)
    (calls : List SocketCall) (s : ℕ) :
    (Run.runs (step entryOf) (empty link) calls).isOpen s ≠ none ↔
      ∃ before call after, calls = before ++ call :: after ∧
        (Run.runs (step entryOf) (empty link) before).returned entryOf call = some s ∧
        SocketCall.close s ∉ after := by
  induction calls using List.reverseRecOn with
  | nil =>
    constructor
    · intro h
      exact absurd rfl h
    · rintro ⟨before, call, after, h, -⟩
      exact absurd h (by simp)
  | append_singleton calls call ih =>
    rw [Run.runs_append, Run.runs_cons, Run.runs_nil,
      open_step entryOf (sound_runs entryOf link calls), ih]
    constructor
    · rintro (h | ⟨⟨before, call', after, rfl, hreturned, hafter⟩, hcall⟩)
      · exact ⟨calls, call, [], rfl, h, List.not_mem_nil⟩
      · refine ⟨before, call', after ++ [call], by simp, hreturned, ?_⟩
        rw [List.mem_append, List.mem_singleton, not_or]
        exact ⟨hafter, Ne.symm hcall⟩
    · rintro ⟨before, call', after, heq, hreturned, hafter⟩
      rcases List.eq_nil_or_concat after with rfl | ⟨after', last, rfl⟩
      · obtain ⟨rfl, hlast⟩ := List.append_inj' heq rfl
        obtain rfl := List.head_eq_of_cons_eq hlast
        exact Or.inl hreturned
      · rw [List.concat_eq_append, ← List.cons_append, ← List.append_assoc] at heq
        obtain ⟨rfl, hlast⟩ := List.append_inj' heq rfl
        obtain rfl := List.head_eq_of_cons_eq hlast
        rw [List.concat_eq_append, List.mem_append, List.mem_singleton, not_or] at hafter
        exact Or.inr ⟨⟨before, call', after', rfl, hreturned, hafter.1⟩, Ne.symm hafter.2⟩

omit [DecidableEq Entry] in
/-- What a connection reaches is open and takes connections of the type. -/
theorem connect_cases {n : SocketName} (h : sys.connect entryOf n t = some s) :
    ∃ q, sys.target (n.place entryOf t) = some q ∧ sys.holder q = some s ∧
      ∃ sock, sys.isOpen s = some sock ∧ sock.transport = t ∧
        (t = .dgram ∨ sock.listening = true) := by
  obtain ⟨s', htarget, hmatch⟩ := Option.bind_eq_some_iff.1 h
  obtain ⟨q, hq, hheld⟩ := Option.bind_eq_some_iff.1 htarget
  cases hopen : sys.isOpen s' with
  | none =>
    rw [hopen] at hmatch
    cases hmatch
  | some sock =>
    rw [hopen] at hmatch
    simp only at hmatch
    split_ifs at hmatch with htakes
    obtain rfl := Option.some_inj.1 hmatch
    exact ⟨q, hq, hheld, sock, hopen, htakes⟩

/-- After any run, what a client reaches is an open socket of its type that has its name, or
the entry to which this leads as a link.  When the name is abstract, no other open socket of
the type has it. -/
theorem client_reaches (entryOf : Str → Entry) (link : Entry → Option Entry)
    (calls : List SocketCall) {name : Str} {namespaceId : Int} {type : ℕ} {a : ClientAnswers}
    {sys' : Sockets Entry} {c s : ℕ}
    (h : (Run.runs (step entryOf) (empty link) calls).socket_local_client entryOf name namespaceId
      type a = (sys', some (c, s))) :
    ∃ t p q sock, transport type = some t ∧ place entryOf t name namespaceId = some p ∧
      (Run.runs (step entryOf) (empty link) calls).target p = some q ∧
      (Run.runs (step entryOf) (empty link) calls).isOpen s = some sock ∧ sock.name = some q ∧
      sock.transport = t ∧ (t = .dgram ∨ sock.listening = true) ∧
      ∀ t' bytes, p = .abstract t' bytes → ∀ s' sock',
        (Run.runs (step entryOf) (empty link) calls).isOpen s' = some sock' →
          sock'.name = some p → s' = s := by
  have hsound := sound_runs entryOf link calls
  generalize Run.runs (step entryOf) (empty link) calls = sys at h hsound ⊢
  unfold socket_local_client at h
  simp only at h
  cases hsock : sys.socket type a.socket with
  | none =>
    simp only [hsock] at h
    cases h
  | some sys₁ =>
    simp only [hsock] at h
    cases hconnect : sys₁.socket_local_client_connect entryOf name namespaceId type a with
    | none =>
      simp only [hconnect] at h
      cases h
    | some server =>
      simp only [hconnect] at h
      obtain ⟨-, hserver⟩ := Prod.mk.inj h
      obtain ⟨-, rfl⟩ := Prod.mk.inj (Option.some_inj.1 hserver)
      unfold socket_local_client_connect at hconnect
      cases haddr : socket_make_sockaddr_un name namespaceId with
      | none =>
        rw [haddr] at hconnect
        cases hconnect
      | some addr =>
        rw [haddr] at hconnect
        simp only at hconnect
        split_ifs at hconnect
        obtain ⟨t, ht, hreached⟩ := Option.bind_eq_some_iff.1 hconnect
        obtain ⟨q, htarget₁, hheld₁, sock, hopen₁, htransport, htakes⟩ := connect_cases hreached
        obtain ⟨_, -, hsys₁⟩ := socket_cases hsock
        have htarget : sys.target (addr.socketName.place entryOf t) = some q := by
          rw [← htarget₁]
          exact (target_congr (by rw [hsys₁]) _).symm
        have hheld : sys.holder q = some server := by
          rw [hsys₁] at hheld₁
          exact hheld₁
        have hopen : sys.isOpen server = some sock := by
          rw [← (isOpen_of_socket hsock).2 server (hsound.below _ _ hheld).ne]
          exact hopen₁
        refine ⟨t, _, q, sock, ht, by rw [place, socketName, haddr]; rfl, htarget, hopen,
          hsound.name_eq hheld hopen, htransport, htakes, ?_⟩
        intro t' bytes hbytes s' sock' hopen' hname'
        rw [hbytes] at htarget hname'
        obtain rfl := Option.some_inj.1 htarget
        have hheld' := (hsound.abstracts t' bytes s').2 ⟨sock', hopen', hname'⟩
        exact Option.some_inj.1 (hheld'.symm.trans hheld)

/-- A stream and a datagram socket with one abstract name. -/
def namesakes : List SocketCall :=
  [.server ['x'] 0 1 ⟨true, true, true, true⟩, .server ['x'] 0 2 ⟨true, true, true, true⟩]

theorem client_reaches_abstract :
    ∃ t p q sock, transport 1 = some t ∧ place (id : Str → Str) t ['x'] 0 = some p ∧
      (Run.runs (step id) (empty fun _ => none) namesakes).target p = some q ∧
      (Run.runs (step id) (empty fun _ => none) namesakes).isOpen 0 = some sock ∧
      sock.name = some q ∧ sock.transport = t ∧ (t = .dgram ∨ sock.listening = true) ∧
      ∀ t' bytes, p = .abstract t' bytes → ∀ s' sock',
        (Run.runs (step id) (empty fun _ => none) namesakes).isOpen s' = some sock' →
          sock'.name = some p → s' = 0 := by
  have h : (Run.runs (step (id : Str → Str)) (empty fun _ => none) namesakes).socket_local_client
      id ['x'] 0 1 ⟨true, true⟩ = (_, some (2, 0)) := rfl
  exact client_reaches id _ _ h

end Sockets

end SysFs.Cutils
