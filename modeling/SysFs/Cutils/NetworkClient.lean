import SysFs.Lib.Descriptors

/-!
# Clients of network sockets

`socket_network_client_timeout` tries the addresses of a host one after the other.  A socket
does not block while it connects, so that `select` can wait for it with a limit.  An address
that refuses is followed by the next one; anything else that goes wrong ends the attempt.

What the system answers is given with each address.  The model does not look at clocks:
`select` says whether the time was up.  A process has no more than `FD_SETSIZE` descriptors,
so that `FD_SET` is defined for each of them.

* `socket_network_client_timeout_spec`: the first address that does not refuse decides.  When
  it accepts, its socket is returned, with `O_NONBLOCK` as the type asked for; every other
  socket is closed.
-/

namespace SysFs.Cutils

open Descriptors

variable {Addr : Type}

/-- An open network socket. -/
structure NetSocket (Addr : Type) where
  nonblock : Bool
  peer : Option Addr
deriving DecidableEq, Repr

/-- The descriptors of a process. -/
abbrev NetTable (Addr : Type) := List (Option (NetSocket Addr))

/-- How many descriptors a process can have. -/
def FD_SETSIZE : ℕ := 1024

/-- A new socket, of a type with or without `SOCK_NONBLOCK`. -/
def NetSocket.fresh (nonblock : Bool) : NetSocket Addr := ⟨nonblock, none⟩

/-- Change a socket. -/
def NetTable.change (t : NetTable Addr) (s : ℕ) (g : NetSocket Addr → NetSocket Addr) :
    NetTable Addr :=
  put t s ((get t s).map g)

/-- `toggle_O_NONBLOCK`: the socket is closed when its flags cannot be changed. -/
def toggle_O_NONBLOCK (t : NetTable Addr) (s : ℕ) (granted : Bool) : NetTable Addr × Bool :=
  if granted then (t.change s fun sock => { sock with nonblock := !sock.nonblock }, true)
  else (close t s, false)

/-- What `connect` returns: 0, `EINPROGRESS` or another error. -/
inductive ConnectAnswer where
  | ok | inProgress | failed
deriving DecidableEq, Repr

/-- What `select` returns: an error, that the time is up, that the socket is ready, or that
something else is. -/
inductive SelectAnswer where
  | failed | timedOut | ready | other
deriving DecidableEq, Repr

/-- What the system answers for one address.  `error` is what `getsockopt` gives for
`SO_ERROR`, if it does not fail. -/
structure NetAnswers where
  socket : Bool
  toggle : Bool
  connect : ConnectAnswer
  select : SelectAnswer
  error : Option ℕ
  toggleBack : Bool
deriving DecidableEq, Repr

/-- How a pass through the loop ends. -/
inductive Pass where
  | break_ (result : Option ℕ)
  | continue_
deriving DecidableEq, Repr

/-- The connection is there: `result = toggle_O_NONBLOCK(s)`. -/
def connected (t : NetTable Addr) (s : ℕ) (addr : Addr) (a : NetAnswers) : NetTable Addr × Pass :=
  match toggle_O_NONBLOCK (t.change s fun sock => { sock with peer := some addr }) s a.toggleBack with
  | (t, true) => (t, .break_ (some s))
  | (t, false) => (t, .break_ none)

/-- One pass through the loop. -/
def tryAddress (nonblock : Bool) (t : NetTable Addr) (addr : Addr) (a : NetAnswers) :
    NetTable Addr × Pass :=
  if a.socket = false ∨ FD_SETSIZE ≤ lowest t then (t, .break_ none)
  else
    let (t, s) := openNew t (NetSocket.fresh nonblock)
    match toggle_O_NONBLOCK t s a.toggle with
    | (t, false) => (t, .break_ none)
    | (t, true) =>
      match a.connect with
      | .ok => connected t s addr a
      | .failed => (close t s, .continue_)
      | .inProgress =>
        match a.select with
        | .failed | .timedOut | .other => (close t s, .break_ none)
        | .ready =>
          match a.error with
          | none => (close t s, .break_ none)
          | some 0 => connected t s addr a
          | some _ => (close t s, .continue_)

/-- The loop over the addresses of the host. -/
def tryAddresses (nonblock : Bool) : NetTable Addr → List (Addr × NetAnswers) →
    NetTable Addr × Option ℕ
  | t, [] => (t, none)
  | t, (addr, a) :: addrs =>
    match tryAddress nonblock t addr a with
    | (t, .break_ result) => (t, result)
    | (t, .continue_) => tryAddresses nonblock t addrs

/-- `socket_network_client_timeout`, where `getaddrinfo` may find no addresses. -/
def socket_network_client_timeout (nonblock : Bool) (t : NetTable Addr)
    (addrs : Option (List (Addr × NetAnswers))) : NetTable Addr × Option ℕ :=
  match addrs with
  | none => (t, none)
  | some addrs => tryAddresses nonblock t addrs

/-! ## The first address that does not refuse -/

/-- How the system deals with an address, when `s` is the next descriptor. -/
inductive Verdict where
  | refuses | fails | accepts
deriving DecidableEq, Repr

def NetAnswers.verdict (a : NetAnswers) (s : ℕ) : Verdict :=
  let accepted : Verdict := if a.toggleBack then .accepts else .fails
  if (a.socket = false ∨ FD_SETSIZE ≤ s) ∨ a.toggle = false then .fails
  else
    match a.connect, a.select, a.error with
    | .ok, _, _ => accepted
    | .failed, _, _ => .refuses
    | .inProgress, .ready, some 0 => accepted
    | .inProgress, .ready, some _ => .refuses
    | .inProgress, _, _ => .fails

variable {t t' : NetTable Addr} {s : ℕ} {addr : Addr} {a : NetAnswers} {nonblock : Bool}

theorem get_change (t : NetTable Addr) (s : ℕ) (g : NetSocket Addr → NetSocket Addr) (fd : ℕ) :
    get (t.change s g) fd = if fd = s then (get t s).map g else get t fd := by
  unfold NetTable.change
  split_ifs with h
  · rw [h, get_put_self]
  · exact get_put_of_ne t h _

/-- A new socket is all that a table has more than the one before. -/
def IsNew (t t' : NetTable Addr) (sock : NetSocket Addr) : Prop :=
  ∀ fd, get t' fd = if fd = lowest t then some sock else get t fd

theorem isNew_openNew (t : NetTable Addr) (sock : NetSocket Addr) :
    IsNew t (openNew t sock).1 sock := by
  intro fd
  unfold openNew
  split_ifs with h
  · rw [h, get_put_self]
  · exact get_put_of_ne t h _

theorem IsNew.change {sock : NetSocket Addr} (h : IsNew t t' sock)
    (g : NetSocket Addr → NetSocket Addr) : IsNew t (t'.change (lowest t) g) (g sock) := by
  intro fd
  rw [get_change, h fd, h (lowest t), if_pos rfl]
  split_ifs <;> rfl

/-- A new socket that is closed leaves the table as it was. -/
theorem IsNew.close {sock : NetSocket Addr} (h : IsNew t t' sock) (fd : ℕ) :
    get (close t' (lowest t)) fd = get t fd := by
  unfold Descriptors.close
  by_cases hfd : fd = lowest t
  · rw [hfd, get_put_self, get_lowest]
  · rw [get_put_of_ne t' hfd, h fd, if_neg hfd]

/-- What one pass leaves when an address is dealt with in a given way. -/
def PassSpec (nonblock : Bool) (t : NetTable Addr) (addr : Addr) (v : Verdict)
    (r : NetTable Addr × Pass) : Prop :=
  match v with
  | .refuses => r.2 = .continue_ ∧ ∀ fd, get r.1 fd = get t fd
  | .fails => r.2 = .break_ none ∧ ∀ fd, get r.1 fd = get t fd
  | .accepts => r.2 = .break_ (some (lowest t)) ∧ IsNew t r.1 ⟨nonblock, some addr⟩

theorem connected_spec (h : IsNew t t' ⟨!nonblock, none⟩) (addr : Addr)
    (a : NetAnswers) :
    PassSpec nonblock t addr (if a.toggleBack then .accepts else .fails)
      (connected t' (lowest t) addr a) := by
  have hpeer := h.change fun sock => { sock with peer := some addr }
  unfold connected toggle_O_NONBLOCK
  cases a.toggleBack with
  | false => exact ⟨rfl, hpeer.close⟩
  | true =>
    refine ⟨rfl, ?_⟩
    have hback := hpeer.change fun sock => { sock with nonblock := !sock.nonblock }
    simp only [Bool.not_not] at hback
    exact hback

/-- What one pass leaves. -/
theorem tryAddress_spec (nonblock : Bool) (t : NetTable Addr) (addr : Addr) (a : NetAnswers) :
    PassSpec nonblock t addr (a.verdict (lowest t)) (tryAddress nonblock t addr a) := by
  have hnew := isNew_openNew t (NetSocket.fresh nonblock)
  have htoggled := hnew.change fun sock => { sock with nonblock := !sock.nonblock }
  unfold tryAddress NetAnswers.verdict toggle_O_NONBLOCK
  by_cases hsocket : a.socket = false ∨ FD_SETSIZE ≤ lowest t
  · rw [if_pos hsocket, if_pos (Or.inl hsocket)]
    exact ⟨rfl, fun _ => rfl⟩
  · rw [if_neg hsocket]
    cases htoggle : a.toggle with
    | false =>
      rw [if_pos (Or.inr rfl)]
      exact ⟨rfl, hnew.close⟩
    | true =>
      rw [if_neg (not_or.2 ⟨hsocket, Bool.noConfusion⟩)]
      simp only [if_true]
      cases a.connect with
      | ok => exact connected_spec htoggled addr a
      | failed => exact ⟨rfl, htoggled.close⟩
      | inProgress =>
        cases a.select with
        | failed => exact ⟨rfl, htoggled.close⟩
        | timedOut => exact ⟨rfl, htoggled.close⟩
        | other => exact ⟨rfl, htoggled.close⟩
        | ready =>
          cases a.error with
          | none => exact ⟨rfl, htoggled.close⟩
          | some e =>
            cases e with
            | zero => exact connected_spec htoggled addr a
            | succ e => exact ⟨rfl, htoggled.close⟩

/-- What is new in a table is new in every table with the same descriptors. -/
theorem IsNew.congr {t₀ : NetTable Addr} {sock : NetSocket Addr} (h : IsNew t t' sock)
    (hget : ∀ fd, get t fd = get t₀ fd) : IsNew t₀ t' sock := by
  intro fd
  rw [h fd, lowest_congr hget, hget fd]

/-- What is left when an address decides. -/
def Decided (nonblock : Bool) (t : NetTable Addr) (decisive : Option (Addr × NetAnswers))
    (r : NetTable Addr × Option ℕ) : Prop :=
  match decisive with
  | some (addr, a) =>
    if a.verdict (lowest t) = .accepts then
      r.2 = some (lowest t) ∧ IsNew t r.1 ⟨nonblock, some addr⟩
    else r.2 = none ∧ ∀ fd, get r.1 fd = get t fd
  | none => r.2 = none ∧ ∀ fd, get r.1 fd = get t fd

theorem Decided.congr {t₀ : NetTable Addr} {decisive : Option (Addr × NetAnswers)}
    {r : NetTable Addr × Option ℕ} (h : Decided nonblock t decisive r)
    (hget : ∀ fd, get t fd = get t₀ fd) : Decided nonblock t₀ decisive r := by
  have hsame : r.2 = none ∧ (∀ fd, get r.1 fd = get t fd) →
      r.2 = none ∧ ∀ fd, get r.1 fd = get t₀ fd :=
    fun h => ⟨h.1, fun fd => (h.2 fd).trans (hget fd)⟩
  unfold Decided at h ⊢
  rw [lowest_congr hget] at h
  split at h
  · split_ifs at h ⊢ with hv
    · exact ⟨h.1, h.2.congr hget⟩
    · exact hsame h
  · exact hsame h

/-- The first address that does not refuse decides: when it accepts, its socket is returned, and
no other one is left. -/
theorem socket_network_client_timeout_spec (nonblock : Bool) (t : NetTable Addr)
    (addrs : List (Addr × NetAnswers)) :
    Decided nonblock t (addrs.find? fun p => p.2.verdict (lowest t) ≠ .refuses)
      (socket_network_client_timeout nonblock t (some addrs)) := by
  show Decided nonblock t _ (tryAddresses nonblock t addrs)
  induction addrs generalizing t with
  | nil => exact ⟨rfl, fun _ => rfl⟩
  | cons p addrs ih =>
    obtain ⟨addr, a⟩ := p
    have hpass := tryAddress_spec nonblock t addr a
    rw [tryAddresses]
    cases htry : tryAddress nonblock t addr a with
    | mk t' pass =>
      rw [htry] at hpass
      cases hv : a.verdict (lowest t) with
      | refuses =>
        rw [hv] at hpass
        obtain ⟨hnext, hget⟩ := hpass
        simp only at hnext
        subst hnext
        have hdecided := (ih t').congr hget
        rw [lowest_congr hget] at hdecided
        rw [List.find?_cons_of_neg (by simp [hv])]
        exact hdecided
      | fails =>
        rw [hv] at hpass
        obtain ⟨hend, hget⟩ := hpass
        simp only at hend
        subst hend
        rw [List.find?_cons_of_pos (by simp [hv]), Decided, if_neg (by simp [hv])]
        exact ⟨rfl, hget⟩
      | accepts =>
        rw [hv] at hpass
        obtain ⟨hend, hnew⟩ := hpass
        simp only at hend
        subst hend
        rw [List.find?_cons_of_pos (by simp [hv]), Decided, if_pos hv]
        exact ⟨rfl, hnew⟩

end SysFs.Cutils
