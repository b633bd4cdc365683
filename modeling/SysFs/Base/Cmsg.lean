import Mathlib.Algebra.Order.Ring.Nat
import SysFs.Lib.Handles

/-!
# Descriptors sent over a socket

`SendFileDescriptorVector` writes descriptors into the control data of a message,
and `ReceiveFileDescriptorVector` takes them out of it.  What the kernel makes of a
`recvmsg` is a `RecvAnswer`, with the new descriptors in its control messages.
What a call opens and closes is a list of events (`Handles.Event`), so that the
descriptors that are open after it can be computed.

* `receive_after`: for every answer of the kernel, a call leaves exactly the
  descriptors open that it gives to the caller, however it ends, and those that came
  in control messages of another kind than `SCM_RIGHTS`.
* `receive_exactly`: `ReceiveFileDescriptors` gives every object a descriptor or
  none.
* `complaint_recvmsg`: a message is refused exactly if it has more bytes or
  descriptors than asked for, although the buffer for control data has room for one
  more descriptor when their number is odd, or more than the receiver can still open.
* `Session` has one sender and one receiver of whole messages.  `session_runs`: in
  every order of sends and receives it behaves as a queue, and nothing is left open
  but what was given last.
-/

namespace SysFs.Base

open Handles

/-- `CMSG_ALIGN`. -/
def cmsgAlign (len : ℕ) : ℕ := (len + 7) / 8 * 8

/-- `CMSG_LEN`: a header of 16 bytes, and the data. -/
def CMSG_LEN (len : ℕ) : ℕ := 16 + len

/-- `CMSG_SPACE`. -/
def CMSG_SPACE (len : ℕ) : ℕ := 16 + cmsgAlign len

/-- `sizeof (int)`. -/
def sizeofInt : ℕ := 4

/-- `PAGE_SIZE`. -/
def pageSize : ℕ := 4096

/-- `SOL_SOCKET` and `SCM_RIGHTS`. -/
def SOL_SOCKET : ℕ := 1

def SCM_RIGHTS : ℕ := 1

/-- A control message.  `extra` is not in the source: the descriptors that the kernel
has opened for a message of another kind than `SCM_RIGHTS`, as it does for
`SCM_PIDFD`. -/
structure Cmsg where
  level : ℕ
  type : ℕ
  len : ℕ
  data : List Int
  extra : List Int
deriving DecidableEq, Repr

/-- A control message with descriptors. -/
def Cmsg.isRights (c : Cmsg) : Bool := c.level == SOL_SOCKET && c.type == SCM_RIGHTS

/-- The room for the control data of `max_fds` descriptors, as a `size_t`. -/
def receiveSpace (max_fds : ℕ) : ℕ := CMSG_SPACE (sizeofInt * max_fds) % 2 ^ 64

/-- What `recvmsg` gives. -/
inductive RecvAnswer where
  | failed (errno : ℕ)
  | message (rc : ℕ) (trunc ctrunc : Bool) (cmsgs : List Cmsg)
deriving DecidableEq, Repr

/-- `errno` after a call that has failed. -/
inductive CmsgErrno where
  | enomem
  | emsgsize
  | ebadmsg
  | enomsg
  | recvmsg (errno : ℕ)
deriving DecidableEq, Repr

/-- What a call of `ReceiveFileDescriptorVector` returns, or why it has failed, and
`*fds` and the events of the call. -/
structure Received where
  result : Except CmsgErrno ℕ
  fds : List Int
  events : List (Event Int)

/-- The descriptors that the objects of a vector have. -/
def owned (fds : List Int) : List Int := fds.filter (· ≠ -1)

/-- The objects of a vector end. -/
def closeAll (fds : List Int) : List (Event Int) := (owned fds).map .closed

/-- The loop over the control messages: `error` and `received_fds` after it.  A
control message of a length that cannot be ends the process. -/
def receiveLoop : List Cmsg → Option CmsgErrno → List Int → Option (Option CmsgErrno × List Int)
  | [], error, received_fds => some (error, received_fds)
  | c :: cmsgs, error, received_fds =>
    if c.isRights then
      if c.len % sizeofInt ≠ 0 then none
      else if c.len ≤ CMSG_LEN 0 then none
      else
        let cmsg_fdcount := (c.len - CMSG_LEN 0) / sizeofInt
        receiveLoop cmsgs error (received_fds ++ c.data.take cmsg_fdcount)
    else receiveLoop cmsgs (some .ebadmsg) received_fds

/-- The descriptors in the control messages of kind `SCM_RIGHTS`. -/
def rights (cmsgs : List Cmsg) : List Int := (cmsgs.filter Cmsg.isRights).flatMap Cmsg.data

/-- The descriptors in the other control messages. -/
def strays (cmsgs : List Cmsg) : List Int :=
  (cmsgs.filter fun c => !c.isRights).flatMap Cmsg.extra

/-- The descriptors that the kernel has opened for some control messages. -/
def installed (cmsgs : List Cmsg) : List Int := rights cmsgs ++ strays cmsgs

/-- `ReceiveFileDescriptorVector`, where `fds` is what the vector holds before.
`none` when the process ends. -/
def ReceiveFileDescriptorVector (max_fds : ℕ) (fds : List Int) (a : RecvAnswer) :
    Option Received :=
  let cleared := closeAll fds
  let cmsg_space := receiveSpace max_fds
  if cmsg_space ≥ pageSize then some ⟨.error .enomem, [], cleared⟩
  else
    match a with
    | .failed errno => some ⟨.error (.recvmsg errno), [], cleared⟩
    | .message rc trunc ctrunc cmsgs =>
      let opened := (installed cmsgs).map .opened
      let error := if trunc then some .emsgsize else if ctrunc then some .emsgsize else none
      match receiveLoop cmsgs error [] with
      | none => none
      | some (some error, received_fds) =>
        some ⟨.error error, [], cleared ++ opened ++ closeAll received_fds⟩
      | some (none, received_fds) =>
        if received_fds.length > max_fds then
          some ⟨.error .emsgsize, [], cleared ++ opened ++ closeAll received_fds⟩
        else some ⟨.ok rc, received_fds, cleared ++ opened⟩

/-- `ReceiveFileDescriptors` for objects that hold `held`: `fds` is what they hold
after it. -/
def ReceiveFileDescriptors (held : List Int) (a : RecvAnswer) : Option Received :=
  match ReceiveFileDescriptorVector held.length [] a with
  | none => none
  | some ⟨.error e, result, events⟩ =>
    some ⟨.error e, held.map fun _ => -1, events ++ closeAll held ++ closeAll result⟩
  | some ⟨.ok rc, result, events⟩ =>
    if result.length ≠ held.length then
      some ⟨.error .enomsg, held.map fun _ => -1, events ++ closeAll held ++ closeAll result⟩
    else some ⟨.ok rc, result, events ++ closeAll held⟩

/-- The control data of a message, and how long it is. -/
structure Control where
  controllen : ℕ
  cmsg : Cmsg
deriving DecidableEq, Repr

/-- `SendFileDescriptorVector`: the control data that it hands to `sendmsg`, unless
there are too many descriptors. -/
def SendFileDescriptorVector (fds : List Int) : Option Control :=
  let cmsg_space := CMSG_SPACE (sizeofInt * fds.length)
  let cmsg_len := CMSG_LEN (sizeofInt * fds.length)
  if cmsg_space ≥ pageSize then none
  else some ⟨cmsg_space, SOL_SOCKET, SCM_RIGHTS, cmsg_len, fds, []⟩

/-! ## Any answer -/

/-- What the kernel gives when it fills in control messages: a length that says how
many descriptors there are, and at least one. -/
def Cmsg.WellFormed (c : Cmsg) : Prop :=
  c.isRights = true → c.len = CMSG_LEN (sizeofInt * c.data.length) ∧ c.data ≠ []

instance (c : Cmsg) : Decidable c.WellFormed := inferInstanceAs (Decidable (_ → _))

/-- The control messages of an answer. -/
def RecvAnswer.cmsgs : RecvAnswer → List Cmsg
  | .failed _ => []
  | .message _ _ _ cmsgs => cmsgs

/-- The new descriptors of an answer are new, and none is given twice. -/
structure RecvAnswer.FromKernel (t : Table Int) (a : RecvAnswer) : Prop where
  wellFormed : ∀ c ∈ a.cmsgs, c.WellFormed
  nodup : (installed a.cmsgs).Nodup
  new : ∀ fd ∈ installed a.cmsgs, 0 ≤ fd ∧ fd ∉ t.live

/-- The number of bytes of the message. -/
def RecvAnswer.rc : RecvAnswer → ℕ
  | .failed _ => 0
  | .message rc _ _ _ => rc

/-- What is wrong with an answer when the caller asks for at most `max_fds`
descriptors. -/
def RecvAnswer.complaint (max_fds : ℕ) (a : RecvAnswer) : Option CmsgErrno :=
  if receiveSpace max_fds ≥ pageSize then some .enomem
  else
    match a with
    | .failed errno => some (.recvmsg errno)
    | .message _ trunc ctrunc cmsgs =>
      if cmsgs.all Cmsg.isRights = false then some .ebadmsg
      else if trunc ∨ ctrunc ∨ max_fds < (rights cmsgs).length then some .emsgsize
      else none

/-- The descriptors that a call leaves open and does not give to the caller. -/
def RecvAnswer.leaked (max_fds : ℕ) (a : RecvAnswer) : List Int :=
  if receiveSpace max_fds ≥ pageSize then [] else strays a.cmsgs

variable {cmsgs : List Cmsg} {error : Option CmsgErrno} {received fds : List Int} {t : Table Int}
  {max_fds : ℕ} {a : RecvAnswer}

/-- The loop takes all descriptors, and complains about everything else. -/
theorem receiveLoop_eq (hw : ∀ c ∈ cmsgs, c.WellFormed) :
    receiveLoop cmsgs error received
      = some (if cmsgs.all Cmsg.isRights then error else some .ebadmsg,
          received ++ rights cmsgs) := by
  induction cmsgs generalizing error received with
  | nil => simp [receiveLoop, rights]
  | cons c cmsgs ih =>
    have hrest : ∀ c' ∈ cmsgs, c'.WellFormed := fun c' hc' => hw c' (List.mem_cons_of_mem _ hc')
    unfold receiveLoop
    cases hrights : c.isRights with
    | true =>
      obtain ⟨hlen, hne⟩ := hw c List.mem_cons_self hrights
      have hpos : 0 < c.data.length := List.length_pos_iff.2 hne
      have hmod : c.len % sizeofInt = 0 := by
        rw [hlen, CMSG_LEN, sizeofInt]
        omega
      have hlarge : ¬ c.len ≤ CMSG_LEN 0 := by
        rw [hlen, CMSG_LEN, CMSG_LEN, sizeofInt]
        omega
      have hcount : (c.len - CMSG_LEN 0) / sizeofInt = c.data.length := by
        rw [hlen, CMSG_LEN, CMSG_LEN, sizeofInt]
        omega
      rw [if_pos rfl, if_neg (not_not.2 hmod), if_neg hlarge]
      dsimp only
      rw [ih hrest, hcount, List.take_length]
      simp [rights, hrights]
    | false =>
      rw [if_neg Bool.false_ne_true, ih hrest]
      simp [rights, hrights]

theorem owned_eq_self (h : ∀ fd ∈ fds, 0 ≤ fd) : owned fds = fds := by
  refine List.filter_eq_self.2 fun fd hfd => ?_
  have hpos := h fd hfd
  simp only [ne_eq, decide_not, Bool.not_eq_true', decide_eq_false_iff_not]
  omega

/-- New descriptors, the first of which are closed again. -/
theorem after_opened_closeAll {stray : List Int} (hnodup : (received ++ stray).Nodup)
    (hnew : ∀ fd ∈ received ++ stray, 0 ≤ fd ∧ fd ∉ t.live) :
    t.after ((received ++ stray).map .opened ++ closeAll received)
      = ⟨t.live ∪ stray.toFinset, t.misused⟩ := by
  obtain ⟨hreceived, -, hapart⟩ := List.nodup_append.1 hnodup
  have hlive : ∀ fd ∈ received, fd ∈ (t.after ((received ++ stray).map .opened)).live := by
    intro fd hfd
    rw [after_opened]
    exact Finset.mem_union_right _ (List.mem_toFinset.2 (List.mem_append_left _ hfd))
  rw [closeAll, owned_eq_self fun fd hfd => (hnew fd (List.mem_append_left _ hfd)).1,
    after_append, after_closed hreceived hlive, after_opened]
  have hdisjoint : Disjoint (t.live ∪ stray.toFinset) received.toFinset := by
    refine Finset.disjoint_right.2 fun fd hfd hmem => ?_
    rw [List.mem_toFinset] at hfd
    rcases Finset.mem_union.1 hmem with hmem | hmem
    · exact (hnew fd (List.mem_append_left _ hfd)).2 hmem
    · exact hapart fd hfd fd (List.mem_toFinset.1 hmem) rfl
  show Table.mk ((t.live ∪ (received ++ stray).toFinset) \ received.toFinset) t.misused = _
  rw [List.toFinset_append, Finset.union_comm received.toFinset, ← Finset.union_assoc,
    Finset.union_sdiff_right, hdisjoint.sdiff_eq_left]

/-- What a call does with any answer of the kernel. -/
theorem receive_eq (hw : ∀ c ∈ a.cmsgs, c.WellFormed) :
    ReceiveFileDescriptorVector max_fds fds a = some (match a.complaint max_fds with
      | none => ⟨.ok a.rc, rights a.cmsgs, closeAll fds ++ (installed a.cmsgs).map .opened⟩
      | some .enomem => ⟨.error .enomem, [], closeAll fds⟩
      | some e => ⟨.error e, [], closeAll fds ++ (installed a.cmsgs).map .opened
          ++ closeAll (rights a.cmsgs)⟩) := by
  unfold ReceiveFileDescriptorVector RecvAnswer.complaint
  dsimp only
  by_cases hspace : receiveSpace max_fds ≥ pageSize
  · rw [if_pos hspace, if_pos hspace]
  · rw [if_neg hspace, if_neg hspace]
    cases a with
    | failed errno => simp [RecvAnswer.cmsgs, installed, rights, strays, closeAll, owned]
    | message rc trunc ctrunc cmsgs =>
      have hloop : ∀ error, receiveLoop cmsgs error [] = _ := fun error => receiveLoop_eq hw
      dsimp only [RecvAnswer.cmsgs, RecvAnswer.rc] at hloop ⊢
      rw [hloop, List.nil_append]
      rcases Bool.eq_false_or_eq_true (cmsgs.all Cmsg.isRights) with hall | hall
      · simp only [hall, if_true, Bool.true_eq_false, if_false]
        cases trunc <;> cases ctrunc <;> simp
        split <;> rfl
      · simp [hall]

theorem length_le_of_complaint (h : a.complaint max_fds = none) :
    (rights a.cmsgs).length ≤ max_fds := by
  unfold RecvAnswer.complaint at h
  cases a with
  | failed errno => exact Nat.zero_le _
  | message rc trunc ctrunc cmsgs =>
    dsimp only [RecvAnswer.cmsgs] at h ⊢
    by_contra hlarge
    rw [not_le] at hlarge
    split at h
    · cases h
    · rw [if_pos (Or.inr (Or.inr hlarge))] at h
      split at h <;> cases h

/-- An answer with another control message is not in order. -/
theorem strays_of_complaint (h : a.complaint max_fds = none) : strays a.cmsgs = [] := by
  unfold RecvAnswer.complaint at h
  cases a with
  | failed errno => rfl
  | message rc trunc ctrunc cmsgs =>
    have hall : cmsgs.all Cmsg.isRights = true := by
      by_contra hnot
      rw [Bool.not_eq_true] at hnot
      dsimp only at h
      rw [if_pos hnot] at h
      split at h <;> cases h
    rw [RecvAnswer.cmsgs, strays, List.filter_eq_nil_iff.2]
    · rfl
    · intro c hc
      rw [List.all_eq_true.1 hall c hc]
      decide

/-- When there is no room for the control data, `recvmsg` is not called. -/
theorem leaked_of_complaint : a.leaked max_fds
    = if a.complaint max_fds = some .enomem then [] else strays a.cmsgs := by
  unfold RecvAnswer.leaked RecvAnswer.complaint
  by_cases hspace : receiveSpace max_fds ≥ pageSize
  · rw [if_pos hspace, if_pos hspace, if_pos rfl]
  · rw [if_neg hspace, if_neg hspace, if_neg]
    cases a with
    | failed errno => simp
    | message rc trunc ctrunc cmsgs =>
      dsimp only
      split
      · simp
      · split <;> simp

/-- For every answer of the kernel, a call closes what the vector had before, and
of the new descriptors it leaves open exactly what it gives to the caller (all of them
if the answer is in order, and none otherwise) and what is in control messages of
another kind. -/
theorem receive_after (max_fds : ℕ) (hfds : (owned fds).Nodup)
    (hlive : ∀ fd ∈ owned fds, fd ∈ t.live) (ha : a.FromKernel (t.after (closeAll fds))) :
    ∃ r, ReceiveFileDescriptorVector max_fds fds a = some r ∧
      t.after r.events = ⟨(t.live \ (owned fds).toFinset) ∪ r.fds.toFinset
        ∪ (a.leaked max_fds).toFinset, t.misused⟩ ∧
      (match a.complaint max_fds with
        | none => r.result = .ok a.rc ∧ r.fds = rights a.cmsgs ∧ r.fds.length ≤ max_fds ∧
            a.leaked max_fds = []
        | some e => r.result = .error e ∧ r.fds = []) := by
  have hclear : t.after (closeAll fds) = ⟨t.live \ (owned fds).toFinset, t.misused⟩ :=
    after_closed hfds hlive
  have hopened : (t.after (closeAll fds)).after ((installed a.cmsgs).map .opened)
      = ⟨(t.live \ (owned fds).toFinset) ∪ (installed a.cmsgs).toFinset, t.misused⟩ := by
    rw [after_opened, hclear]
  have hnone : (t.after (closeAll fds)).after ((installed a.cmsgs).map .opened
      ++ closeAll (rights a.cmsgs))
        = ⟨(t.live \ (owned fds).toFinset) ∪ (strays a.cmsgs).toFinset, t.misused⟩ := by
    rw [installed, after_opened_closeAll ha.nodup ha.new, hclear]
  refine ⟨_, receive_eq ha.wellFormed, ?_⟩
  rw [leaked_of_complaint]
  cases hcomplaint : a.complaint max_fds with
  | none =>
    have hstrays := strays_of_complaint hcomplaint
    dsimp only
    rw [after_append, hopened, installed, hstrays, List.append_nil]
    exact ⟨by simp, rfl, rfl, length_le_of_complaint hcomplaint, by simp⟩
  | some e =>
    cases e with
    | enomem =>
      dsimp only
      rw [hclear]
      exact ⟨by simp, rfl, rfl⟩
    | _ =>
      dsimp only
      rw [List.append_assoc, after_append, hnone]
      exact ⟨by simp, rfl, rfl⟩

/-- A vector that holds a descriptor, and an answer that was cut off and has a control
message of another kind. -/
theorem receive_after_truncated :
    ∃ r, ReceiveFileDescriptorVector 2 [5]
        (.message 3 true false [⟨1, 1, 20, [5], []⟩, ⟨1, 4, 20, [6], [6]⟩]) = some r ∧
      ((Table.mk {0, 5} []).after r.events).live = {0, 6} := by
  have hkernel : (RecvAnswer.message 3 true false
      [⟨1, 1, 20, [5], []⟩, ⟨1, 4, 20, [6], [6]⟩]).FromKernel
        ((Table.mk {0, 5} []).after (closeAll [5])) := ⟨by decide, by decide, by decide⟩
  obtain ⟨r, hr, htable, -, hfds⟩ := receive_after 2 (by decide) (by decide) hkernel
  refine ⟨r, hr, ?_⟩
  rw [htable, hfds]
  decide

/-- New descriptors, and then the old ones closed. -/
theorem after_opened_closeAll_held {held : List Int} (hheld : (owned held).Nodup)
    (hlive : ∀ fd ∈ owned held, fd ∈ t.live) (hnew : ∀ fd ∈ received, 0 ≤ fd ∧ fd ∉ t.live) :
    t.after (received.map .opened ++ closeAll held)
      = ⟨(t.live \ (owned held).toFinset) ∪ received.toFinset, t.misused⟩ := by
  have hlive' : ∀ fd ∈ owned held, fd ∈ (t.after (received.map .opened)).live := by
    intro fd hfd
    rw [after_opened]
    exact Finset.mem_union_left _ (hlive fd hfd)
  have hdisjoint : Disjoint received.toFinset (owned held).toFinset := by
    refine Finset.disjoint_left.2 fun fd hfd hfd' => ?_
    exact (hnew fd (List.mem_toFinset.1 hfd)).2 (hlive fd (List.mem_toFinset.1 hfd'))
  rw [after_append, closeAll, after_closed hheld hlive', after_opened]
  show Table.mk ((t.live ∪ received.toFinset) \ (owned held).toFinset) t.misused = _
  rw [Finset.union_sdiff_distrib, hdisjoint.sdiff_eq_left]

/-- When the answer is in order, and there are exactly as many new descriptors as objects,
`ReceiveFileDescriptors` gives every object one.  Otherwise no object gets one, and
no new one is left open but those in control messages of another kind.  What the objects
held before is closed either way. -/
theorem receive_exactly {held : List Int} (hheld : (owned held).Nodup)
    (hlive : ∀ fd ∈ owned held, fd ∈ t.live) (ha : a.FromKernel t) :
    ∃ r, ReceiveFileDescriptors held a = some r ∧
      t.after r.events = ⟨(t.live \ (owned held).toFinset) ∪ (owned r.fds).toFinset
        ∪ (a.leaked held.length).toFinset, t.misused⟩ ∧
      (if a.complaint held.length = none ∧ (rights a.cmsgs).length = held.length then
        r.result = .ok a.rc ∧ r.fds = rights a.cmsgs ∧ a.leaked held.length = []
      else r.result = .error ((a.complaint held.length).getD .enomsg) ∧
        r.fds = held.map fun _ => -1) := by
  have hnew : ∀ fd ∈ rights a.cmsgs, 0 ≤ fd ∧ fd ∉ t.live :=
    fun fd hfd => ha.new fd (List.mem_append_left _ hfd)
  have hnodup : (rights a.cmsgs).Nodup := (List.nodup_append.1 ha.nodup).1
  have hrights : owned (rights a.cmsgs) = rights a.cmsgs :=
    owned_eq_self fun fd hfd => (hnew fd hfd).1
  have hnothing : owned (held.map fun _ => -1) = [] := by
    refine List.filter_eq_nil_iff.2 fun fd hfd => ?_
    obtain ⟨_, -, rfl⟩ := List.mem_map.1 hfd
    simp
  have hnil : closeAll [] = [] := rfl
  have hclosed : t.after (closeAll held) = ⟨t.live \ (owned held).toFinset, t.misused⟩ :=
    after_closed hheld hlive
  have hboth : t.after ((rights a.cmsgs).map .opened ++ closeAll held
      ++ closeAll (rights a.cmsgs)) = ⟨t.live \ (owned held).toFinset, t.misused⟩ := by
    have hopen : ∀ fd ∈ rights a.cmsgs,
        fd ∈ (t.after ((rights a.cmsgs).map .opened ++ closeAll held)).live := by
      intro fd hfd
      rw [after_opened_closeAll_held hheld hlive hnew]
      exact Finset.mem_union_right _ (List.mem_toFinset.2 hfd)
    have hdisjoint : Disjoint (t.live \ (owned held).toFinset) (rights a.cmsgs).toFinset := by
      refine Finset.disjoint_right.2 fun fd hfd hfd' => ?_
      exact (hnew fd (List.mem_toFinset.1 hfd)).2 (Finset.mem_sdiff.1 hfd').1
    have hcloseAll : closeAll (rights a.cmsgs) = (rights a.cmsgs).map .closed :=
      congrArg (List.map Event.closed) hrights
    rw [after_append, hcloseAll, after_closed hnodup hopen,
      after_opened_closeAll_held hheld hlive hnew]
    show Table.mk (((t.live \ (owned held).toFinset) ∪ (rights a.cmsgs).toFinset)
      \ (rights a.cmsgs).toFinset) t.misused = _
    rw [Finset.union_sdiff_right, hdisjoint.sdiff_eq_left]
  have hundone : t.after ((installed a.cmsgs).map .opened ++ closeAll (rights a.cmsgs)
      ++ closeAll held)
        = ⟨(t.live \ (owned held).toFinset) ∪ (strays a.cmsgs).toFinset, t.misused⟩ := by
    have hdisjoint : Disjoint (strays a.cmsgs).toFinset (owned held).toFinset := by
      refine Finset.disjoint_left.2 fun fd hfd hfd' => ?_
      exact (ha.new fd (List.mem_append_right _ (List.mem_toFinset.1 hfd))).2
        (hlive fd (List.mem_toFinset.1 hfd'))
    rw [installed, after_append, after_opened_closeAll ha.nodup ha.new, closeAll,
      after_closed hheld fun fd hfd => Finset.mem_union_left _ (hlive fd hfd)]
    show Table.mk ((t.live ∪ (strays a.cmsgs).toFinset) \ (owned held).toFinset) t.misused = _
    rw [Finset.union_sdiff_distrib, hdisjoint.sdiff_eq_left]
  unfold ReceiveFileDescriptors
  rw [receive_eq ha.wellFormed, hnil, leaked_of_complaint]
  cases hcomplaint : a.complaint held.length with
  | none =>
    have hinstalled : installed a.cmsgs = rights a.cmsgs := by
      rw [installed, strays_of_complaint hcomplaint, List.append_nil]
    have hstrays := strays_of_complaint hcomplaint
    by_cases hcount : (rights a.cmsgs).length = held.length
    · refine ⟨_, if_neg (not_not.2 hcount), ?_, ?_⟩
      · rw [hinstalled, hrights, hstrays]
        simpa using after_opened_closeAll_held hheld hlive hnew
      · rw [if_pos ⟨rfl, hcount⟩, hstrays]
        exact ⟨rfl, rfl, by simp⟩
    · refine ⟨_, if_pos hcount, ?_, ?_⟩
      · rw [hnothing, hinstalled, hstrays]
        simpa using hboth
      · rw [if_neg fun h => hcount h.2]
        exact ⟨rfl, rfl⟩
  | some e =>
    have hfail : ¬ (some e = none ∧ (rights a.cmsgs).length = held.length) :=
      fun h => nomatch h.1
    cases e with
    | enomem =>
      refine ⟨_, rfl, ?_, ?_⟩
      · rw [hnothing]
        simpa [hnil] using hclosed
      · rw [if_neg hfail]
        exact ⟨rfl, rfl⟩
    | _ =>
      refine ⟨_, rfl, ?_, ?_⟩
      · rw [hnothing]
        simpa [hnil] using hundone
      · rw [if_neg hfail]
        exact ⟨rfl, rfl⟩

/-- Two descriptors for two objects, where one of them holds another one. -/
theorem receive_exactly_two :
    ∃ r, ReceiveFileDescriptors [-1, 5] (.message 1 false false [⟨1, 1, 24, [6, 7], []⟩]) = some r ∧
      ((Table.mk {0, 5} []).after r.events).live = {0, 6, 7} := by
  have hkernel : (RecvAnswer.message 1 false false [⟨1, 1, 24, [6, 7], []⟩]).FromKernel
      ⟨{0, 5}, []⟩ := ⟨by decide, by decide, by decide⟩
  have hheld : (owned [-1, 5]).Nodup := by decide
  obtain ⟨r, hr, htable, hresult⟩ := receive_exactly hheld (by decide) hkernel
  refine ⟨r, hr, ?_⟩
  rw [if_pos (by decide)] at hresult
  rw [htable, hresult.2.1, hresult.2.2]
  decide

/-! ## A session -/

/-- A message: its bytes, and the open files that its descriptors refer to. -/
structure Message (δ : Type*) where
  data : List UInt8
  files : List δ
deriving DecidableEq, Repr

/-- `SCM_MAX_FD`. -/
def SCM_MAX_FD : ℕ := 253

/-- `EAGAIN`. -/
def EAGAIN : ℕ := 11

variable {δ : Type*}

/-- What the kernel makes of `sendmsg`, when `sender` says what the descriptors of
the sender refer to and `room` whether the socket can take a message.  `none` when it
refuses. -/
def sendmsg (sender : Int → Option δ) (data : List UInt8) (room : Bool) (c : Control) :
    Option (Message δ) :=
  let fdcount := (c.cmsg.len - CMSG_LEN 0) / sizeofInt
  if room = false then none
  else if c.controllen < c.cmsg.len then none
  else if fdcount > SCM_MAX_FD then none
  else ((c.cmsg.data.take fdcount).mapM sender).map fun files => ⟨data, files⟩

/-- The number of descriptors that the kernel finds room for. -/
def fdmax (controllen : ℕ) : ℕ := (controllen - CMSG_LEN 0) / sizeofInt

/-- What the kernel makes of `recvmsg` with a buffer of `len` bytes, when the receiver
can have `free` more descriptors and `new` are the numbers that it takes for them. -/
def recvmsg (len controllen free : ℕ) (new : ℕ → Int) (m : Message δ) : RecvAnswer :=
  let count := min (min (fdmax controllen) free) m.files.length
  .message m.data.length (decide (len < m.data.length)) (decide (count < m.files.length))
    (if count = 0 then []
      else [⟨SOL_SOCKET, SCM_RIGHTS, CMSG_LEN (sizeofInt * count), (List.range count).map new, []⟩])

/-- What the receiver gets: the bytes in its buffer, and the files its descriptors
refer to. -/
abbrev SessionAnswer (δ : Type*) := Except CmsgErrno (List UInt8 × List (Option δ))

/-- A socket that keeps message boundaries, and a receiver that uses one vector for
every call. -/
structure Session (δ : Type*) where
  queue : List (Message δ)
  table : Table Int
  files : Int → Option δ
  fds : List Int
  answers : List (SessionAnswer δ)
  ended : Bool

inductive SessionOp where
  /-- and whether the kernel has room for the message -/
  | send (data : List UInt8) (fds : List Int) (room : Bool)
  /-- and how many descriptors the receiver can still have, with which numbers -/
  | recv (len max_fds free : ℕ) (new : ℕ → Int)

namespace Session

/-- What `recvmsg` gives a call, if it comes to that. -/
def answer (s : Session δ) (len max_fds free : ℕ) (new : ℕ → Int) : RecvAnswer :=
  match s.queue with
  | [] => .failed EAGAIN
  | m :: _ => recvmsg len (receiveSpace max_fds) free new m

/-- The first message on its way. -/
def first (s : Session δ) : Message δ := s.queue.headD ⟨[], []⟩

/-- The files after new descriptors were opened. -/
def attach (files : Int → Option δ) (new : List (Int × δ)) (fd : Int) : Option δ :=
  (new.lookup fd).or (files fd)

/-- A call of `SendFileDescriptorVector` by the sender. -/
def send (sender : Int → Option δ) (s : Session δ) (data : List UInt8) (fds : List Int)
    (room : Bool) : Session δ :=
  match (SendFileDescriptorVector fds).bind (sendmsg sender data room) with
  | none => s
  | some m => { s with queue := s.queue ++ [m] }

/-- A call of `ReceiveFileDescriptorVector` by the receiver. -/
def recv (s : Session δ) (len max_fds free : ℕ) (new : ℕ → Int) : Session δ :=
  let a := s.answer len max_fds free new
  match ReceiveFileDescriptorVector max_fds s.fds a with
  | none => { s with ended := true }
  | some r =>
    -- With too large a buffer it does not come to `recvmsg`.
    let called := decide (receiveSpace max_fds < pageSize)
    let files := if called then attach s.files ((rights a.cmsgs).zip s.first.files) else s.files
    { queue := if called then s.queue.tail else s.queue
      table := s.table.after r.events
      files := files
      fds := r.fds
      answers := s.answers ++ [r.result.map fun rc =>
        ((s.first.data.take len).take rc, r.fds.map files)]
      ended := s.ended }

def step (sender : Int → Option δ) (s : Session δ) : SessionOp → Session δ
  | .send data fds room => s.send sender data fds room
  | .recv len max_fds free new => s.recv len max_fds free new

/-- The receiver starts with some descriptors open that are not its own. -/
def start (others : Finset Int) (files : Int → Option δ) : Session δ :=
  ⟨[], ⟨others, []⟩, files, [], [], false⟩

/-- The receiver asks for a number of descriptors whose size fits a `size_t`, and the
kernel takes numbers for new ones that are not in use, each once. -/
def Valid (s : Session δ) : SessionOp → Prop
  | .send _ _ _ => True
  | .recv len max_fds free new =>
    let t := s.table.after (closeAll s.fds)
    max_fds < 2 ^ 61 ∧ (installed (s.answer len max_fds free new).cmsgs).Nodup ∧
      ∀ fd ∈ installed (s.answer len max_fds free new).cmsgs, 0 ≤ fd ∧ fd ∉ t.live

instance (s : Session δ) : DecidablePred s.Valid
  | .send _ _ _ => isTrue trivial
  | .recv _ _ _ _ => inferInstanceAs (Decidable (_ ∧ _))

end Session

/-! ## What a session is for -/

/-- A queue of messages, and what was answered. -/
structure Fifo (δ : Type*) where
  queue : List (Message δ)
  answers : List (SessionAnswer δ)

namespace Fifo

/-- A message that may be sent: there is room for it, and it has at most as many
descriptors as the kernel takes, all of them open. -/
def offer (sender : Int → Option δ) (data : List UInt8) (fds : List Int) (room : Bool) :
    Option (Message δ) :=
  if room = true ∧ fds.length ≤ SCM_MAX_FD then (fds.mapM sender).map fun files => ⟨data, files⟩
  else none

/-- The receiver asks for a message of at most `len` bytes and `max_fds` descriptors,
and can have `free` more. -/
def recv (f : Fifo δ) (len max_fds free : ℕ) : Fifo δ :=
  if CMSG_SPACE (sizeofInt * max_fds) ≥ pageSize then
    { f with answers := f.answers ++ [.error .enomem] }
  else
    match f.queue with
    | [] => { f with answers := f.answers ++ [.error (.recvmsg EAGAIN)] }
    | m :: queue =>
      if m.data.length ≤ len ∧ m.files.length ≤ min max_fds free then
        ⟨queue, f.answers ++ [.ok (m.data, m.files.map some)]⟩
      else ⟨queue, f.answers ++ [.error .emsgsize]⟩

def step (sender : Int → Option δ) (f : Fifo δ) : SessionOp → Fifo δ
  | .send data fds room => { f with queue := f.queue ++ (offer sender data fds room).toList }
  | .recv len max_fds free _ => f.recv len max_fds free

/-- The messages that some operations send. -/
def sent (sender : Int → Option δ) (ops : List SessionOp) : List (Message δ) :=
  ops.flatMap fun
    | .send data fds room => (offer sender data fds room).toList
    | .recv _ _ _ _ => []

/-- The messages that the receiver was given. -/
def given (answers : List (SessionAnswer δ)) : List (List UInt8 × List (Option δ)) :=
  answers.filterMap Except.toOption

end Fifo

/-! ## What the kernel sees -/

section Kernel

variable {sender : Int → Option δ} {data : List UInt8} {new : ℕ → Int} {len : ℕ} {m : Message δ}

/-- What a call sends is what it may send. -/
theorem sendmsg_eq (sender : Int → Option δ) (data : List UInt8) (fds : List Int) (room : Bool) :
    (SendFileDescriptorVector fds).bind (sendmsg sender data room)
      = Fifo.offer sender data fds room := by
  unfold SendFileDescriptorVector Fifo.offer
  dsimp only
  have hcount : (CMSG_LEN (sizeofInt * fds.length) - CMSG_LEN 0) / sizeofInt = fds.length := by
    rw [CMSG_LEN, CMSG_LEN, sizeofInt]
    omega
  have hroom : ¬ CMSG_SPACE (sizeofInt * fds.length) < CMSG_LEN (sizeofInt * fds.length) := by
    rw [CMSG_SPACE, CMSG_LEN, cmsgAlign, sizeofInt]
    omega
  cases room with
  | false =>
    split
    · rfl
    · simp [sendmsg]
  | true =>
    by_cases hmany : fds.length ≤ SCM_MAX_FD
    · have hspace : ¬ CMSG_SPACE (sizeofInt * fds.length) ≥ pageSize := by
        rw [SCM_MAX_FD] at hmany
        rw [CMSG_SPACE, cmsgAlign, sizeofInt, pageSize]
        omega
      rw [if_neg hspace, if_pos ⟨rfl, hmany⟩, Option.bind_some, sendmsg]
      dsimp only
      rw [hcount, if_neg (by decide), if_neg hroom, if_neg (not_lt.2 hmany), List.take_length]
    · rw [if_neg fun h : true = true ∧ fds.length ≤ SCM_MAX_FD => hmany h.2]
      split
      · rfl
      · rw [Option.bind_some, sendmsg]
        dsimp only
        rw [hcount, if_neg (by decide), if_neg hroom, if_pos (not_le.1 hmany)]

/-- The size of the control data fits. -/
theorem receiveSpace_eq (h : max_fds < 2 ^ 61) :
    receiveSpace max_fds = CMSG_SPACE (sizeofInt * max_fds) := by
  rw [receiveSpace, CMSG_SPACE, cmsgAlign, sizeofInt]
  omega

/-- There is room for all descriptors asked for, and when their number is odd for one
more. -/
theorem fdmax_CMSG_SPACE (max_fds : ℕ) :
    fdmax (CMSG_SPACE (sizeofInt * max_fds)) = max_fds + max_fds % 2 := by
  rw [fdmax, CMSG_SPACE, CMSG_LEN, cmsgAlign, sizeofInt]
  omega

theorem rights_recvmsg (controllen free : ℕ) :
    rights (recvmsg len controllen free new m).cmsgs
      = (List.range (min (min (fdmax controllen) free) m.files.length)).map new := by
  unfold recvmsg RecvAnswer.cmsgs
  dsimp only
  split
  · rename_i hzero
    rw [hzero]
    rfl
  · simp [rights, Cmsg.isRights]

theorem isRights_recvmsg (controllen free : ℕ) :
    (recvmsg len controllen free new m).cmsgs.all Cmsg.isRights = true := by
  unfold recvmsg RecvAnswer.cmsgs
  dsimp only
  split
  · rfl
  · simp [Cmsg.isRights]

theorem wellFormed_recvmsg (controllen free : ℕ) :
    ∀ c ∈ (recvmsg len controllen free new m).cmsgs, c.WellFormed := by
  unfold recvmsg RecvAnswer.cmsgs
  dsimp only
  split
  · intro c hc
    cases hc
  · rename_i hcount
    intro c hc _
    rw [List.mem_singleton.1 hc]
    refine ⟨by simp, ?_⟩
    simpa using hcount

/-- A message is refused exactly if it has more bytes or more descriptors than asked
for, or more descriptors than the receiver can have. -/
theorem complaint_recvmsg {free : ℕ} (hspace : CMSG_SPACE (sizeofInt * max_fds) < pageSize)
    (hmax : max_fds < 2 ^ 61) :
    (recvmsg len (receiveSpace max_fds) free new m).complaint max_fds
      = if m.data.length ≤ len ∧ m.files.length ≤ min max_fds free then none
        else some .emsgsize := by
  rw [receiveSpace_eq hmax]
  have hrights : rights (recvmsg len (CMSG_SPACE (sizeofInt * max_fds)) free new m).cmsgs = _ :=
    rights_recvmsg (CMSG_SPACE (sizeofInt * max_fds)) free
  have hall : (recvmsg len (CMSG_SPACE (sizeofInt * max_fds)) free new m).cmsgs.all Cmsg.isRights
      = true := isRights_recvmsg _ _
  unfold recvmsg at hrights hall ⊢
  dsimp only [RecvAnswer.cmsgs] at hrights hall ⊢
  unfold RecvAnswer.complaint
  rw [receiveSpace_eq hmax, if_neg (not_le.2 hspace)]
  dsimp only
  rw [hall, hrights, if_neg (by decide), List.length_map, List.length_range, fdmax_CMSG_SPACE]
  simp only [decide_eq_true_eq]
  split <;> split <;> first | rfl | omega

end Kernel

namespace Session

variable {sender : Int → Option δ} {s : Session δ} {others : Finset Int} {new : ℕ → Int}
  {len free : ℕ}

theorem wellFormed_answer (s : Session δ) (len max_fds free : ℕ) (new : ℕ → Int) :
    ∀ c ∈ (s.answer len max_fds free new).cmsgs, c.WellFormed := by
  unfold answer
  split
  · intro c hc
    cases hc
  · exact wellFormed_recvmsg _ _

/-- All control messages have descriptors for the receiver. -/
theorem leaked_answer (s : Session δ) (len max_fds free : ℕ) (new : ℕ → Int) :
    (s.answer len max_fds free new).leaked max_fds = [] := by
  have hstrays : strays (s.answer len max_fds free new).cmsgs = [] := by
    unfold answer
    cases s.queue with
    | nil => rfl
    | cons m queue =>
      rw [strays, List.filter_eq_nil_iff.2]
      · rfl
      · intro c hc
        rw [List.all_eq_true.1 (isRights_recvmsg _ _) c hc]
        decide
  rw [RecvAnswer.leaked, hstrays, ite_self]

/-- What new descriptors refer to. -/
theorem map_attach {fds : List Int} {vals : List δ} (files : Int → Option δ) (hnodup : fds.Nodup)
    (hlen : fds.length = vals.length) :
    fds.map (attach files (fds.zip vals)) = vals.map some := by
  induction fds generalizing vals with
  | nil =>
    rw [List.length_eq_zero_iff.1 hlen.symm]
    rfl
  | cons fd fds ih =>
    cases vals with
    | nil => cases hlen
    | cons val vals =>
      obtain ⟨hfd, hrest⟩ := List.nodup_cons.1 hnodup
      have hne : ∀ fd' ∈ fds, attach files ((fd, val) :: fds.zip vals) fd'
          = attach files (fds.zip vals) fd' := by
        intro fd' hfd'
        have hdiff : (fd' == fd) = false := by
          rw [beq_eq_false_iff_ne]
          rintro rfl
          exact hfd hfd'
        rw [attach, List.lookup_cons, hdiff]
        rfl
      rw [List.zip_cons_cons, List.map_cons, List.map_congr_left hne,
        ih hrest (Nat.succ.inj hlen), attach, List.lookup_cons_self]
      rfl

theorem complaint_answer (s : Session δ) (len free : ℕ) (new : ℕ → Int) (hmax : max_fds < 2 ^ 61) :
    (s.answer len max_fds free new).complaint max_fds =
      if CMSG_SPACE (sizeofInt * max_fds) ≥ pageSize then some .enomem
      else
        match s.queue with
        | [] => some (.recvmsg EAGAIN)
        | m :: _ =>
          if m.data.length ≤ len ∧ m.files.length ≤ min max_fds free then none
          else some .emsgsize := by
  have hsize := receiveSpace_eq hmax
  unfold answer
  by_cases hspace : CMSG_SPACE (sizeofInt * max_fds) ≥ pageSize
  · rw [if_pos hspace]
    exact if_pos (hsize.symm ▸ hspace)
  · rw [if_neg hspace]
    cases s.queue with
    | nil => exact if_neg (hsize.symm ▸ hspace)
    | cons m queue => exact complaint_recvmsg (not_le.1 hspace) hmax

/-- What is known in every state: the receiver has its vector open, and what is not
its own. -/
structure Sound (others : Finset Int) (s : Session δ) : Prop where
  table : s.table = ⟨others ∪ s.fds.toFinset, []⟩
  nodup : s.fds.Nodup
  fresh : ∀ fd ∈ s.fds, 0 ≤ fd ∧ fd ∉ others
  running : s.ended = false

/-- The queue of a session. -/
def fifo (s : Session δ) : Fifo δ := ⟨s.queue, s.answers⟩

theorem sound_start (others : Finset Int) (files : Int → Option δ) :
    (start others files).Sound others where
  table := by simp [start]
  nodup := List.nodup_nil
  fresh := fun _ hfd => nomatch hfd
  running := rfl

theorem sdiff_fds (hs : s.Sound others) :
    s.table.live \ s.fds.toFinset = others := by
  have hdisjoint : Disjoint others s.fds.toFinset :=
    Finset.disjoint_right.2 fun fd hfd => (hs.fresh fd (List.mem_toFinset.1 hfd)).2
  rw [hs.table]
  show (others ∪ s.fds.toFinset) \ s.fds.toFinset = others
  rw [Finset.union_sdiff_right, hdisjoint.sdiff_eq_left]

theorem fifo_send (sender : Int → Option δ) (s : Session δ) (data : List UInt8) (fds : List Int)
    (room : Bool) :
    (s.send sender data fds room).fifo = s.fifo.step sender (.send data fds room) := by
  unfold send
  rw [sendmsg_eq]
  cases hoffer : Fifo.offer sender data fds room with
  | none => simp [fifo, Fifo.step, hoffer]
  | some m => simp [fifo, Fifo.step, hoffer]

theorem Sound.send (hs : s.Sound others) (sender : Int → Option δ) (data : List UInt8)
    (fds : List Int) (room : Bool) : (s.send sender data fds room).Sound others := by
  unfold Session.send
  split
  · exact hs
  · exact ⟨hs.table, hs.nodup, hs.fresh, hs.running⟩

/-- What a call of the receiver does to its vector and to the descriptors. -/
theorem Sound.receive (hs : s.Sound others) (hv : s.Valid (.recv len max_fds free new)) :
    ∃ r, ReceiveFileDescriptorVector max_fds s.fds (s.answer len max_fds free new) = some r ∧
      s.table.after r.events = ⟨others ∪ r.fds.toFinset, []⟩ ∧
      r.fds.Nodup ∧ (∀ fd ∈ r.fds, 0 ≤ fd ∧ fd ∉ others) ∧
      (match (s.answer len max_fds free new).complaint max_fds with
        | none => r.result = .ok (s.answer len max_fds free new).rc ∧
            r.fds = rights (s.answer len max_fds free new).cmsgs
        | some e => r.result = .error e ∧ r.fds = []) := by
  have howned : owned s.fds = s.fds := owned_eq_self fun fd hfd => (hs.fresh fd hfd).1
  have hlive : ∀ fd ∈ owned s.fds, fd ∈ s.table.live := by
    intro fd hfd
    rw [howned] at hfd
    rw [hs.table]
    exact Finset.mem_union_right _ (List.mem_toFinset.2 hfd)
  have hkernel : (s.answer len max_fds free new).FromKernel (s.table.after (closeAll s.fds)) :=
    ⟨wellFormed_answer s len max_fds free new, hv.2.1, hv.2.2⟩
  obtain ⟨r, hr, htable, hresult⟩ :=
    receive_after max_fds (howned.symm ▸ hs.nodup) hlive hkernel
  have hclear : (s.table.after (closeAll s.fds)).live = others := by
    rw [closeAll, after_closed (howned.symm ▸ hs.nodup) hlive, howned]
    exact sdiff_fds hs
  have hmisused : s.table.misused = [] := by rw [hs.table]
  rw [howned, sdiff_fds hs, hmisused, leaked_answer, List.toFinset_nil, Finset.union_empty]
    at htable
  refine ⟨r, hr, htable, ?_⟩
  cases hcomplaint : (s.answer len max_fds free new).complaint max_fds with
  | none =>
    rw [hcomplaint] at hresult
    obtain ⟨hres, hfds, -⟩ := hresult
    have hfresh := fun fd hfd => hv.2.2 fd (List.mem_append_left _ hfd)
    rw [hfds, ← hclear]
    exact ⟨(List.nodup_append.1 hv.2.1).1, hfresh, hres, rfl⟩
  | some e =>
    rw [hcomplaint] at hresult
    obtain ⟨hres, hfds⟩ := hresult
    rw [hfds]
    refine ⟨List.nodup_nil, fun fd hfd => ?_, hres, rfl⟩
    cases hfd

theorem Sound.recv (hs : s.Sound others) (hv : s.Valid (.recv len max_fds free new)) :
    (s.recv len max_fds free new).Sound others := by
  obtain ⟨r, hr, htable, hnodup, hfresh, -⟩ := hs.receive hv
  unfold Session.recv
  dsimp only
  rw [hr]
  exact ⟨htable, hnodup, hfresh, hs.running⟩

/-- A call of the receiver is one of the queue. -/
theorem Sound.fifo_recv (hs : s.Sound others) (hv : s.Valid (.recv len max_fds free new)) :
    (s.recv len max_fds free new).fifo = s.fifo.recv len max_fds free := by
  obtain ⟨r, hr, -, -, -, hresult⟩ := hs.receive hv
  rw [complaint_answer s len free new hv.1] at hresult
  unfold Session.recv Fifo.recv
  dsimp only [fifo]
  rw [hr]
  by_cases hspace : CMSG_SPACE (sizeofInt * max_fds) ≥ pageSize
  · rw [if_pos hspace] at hresult ⊢
    obtain ⟨hres, hfds⟩ := hresult
    have hcalled : ¬ receiveSpace max_fds < pageSize := by
      rw [receiveSpace_eq hv.1]
      exact not_lt.2 hspace
    simp [hcalled, hres, Except.map]
  · rw [if_neg hspace] at hresult ⊢
    have hcalled : receiveSpace max_fds < pageSize := by
      rw [receiveSpace_eq hv.1]
      exact not_le.1 hspace
    cases hqueue : s.queue with
    | nil =>
      rw [hqueue] at hresult
      obtain ⟨hres, hfds⟩ := hresult
      simp [hcalled, hres, Except.map]
    | cons m queue =>
      rw [hqueue] at hresult
      dsimp only at hresult ⊢
      by_cases hfit : m.data.length ≤ len ∧ m.files.length ≤ min max_fds free
      · rw [if_pos hfit] at hresult ⊢
        obtain ⟨hres, hfds⟩ := hresult
        have hanswer : s.answer len max_fds free new
            = recvmsg len (receiveSpace max_fds) free new m := by
          rw [answer, hqueue]
        have hfirst : s.first = m := by
          rw [first, hqueue]
          rfl
        have hlength : (rights (s.answer len max_fds free new).cmsgs).length = m.files.length := by
          rw [hanswer, rights_recvmsg, List.length_map, List.length_range, receiveSpace_eq hv.1,
            fdmax_CMSG_SPACE, Nat.min_eq_right (by omega)]
        have hdata : (m.data.take len).take m.data.length = m.data := by
          rw [List.take_of_length_le hfit.1, List.take_length]
        have hrc : (s.answer len max_fds free new).rc = m.data.length := by
          rw [hanswer]
          rfl
        simp only [hcalled, hres, hfds, hrc, hfirst, hdata, Except.map, decide_true, if_true,
          map_attach s.files (List.nodup_append.1 hv.2.1).1 hlength, List.tail_cons]
      · rw [if_neg hfit] at hresult ⊢
        obtain ⟨hres, hfds⟩ := hresult
        simp [hcalled, hres, Except.map]

/-- One step keeps the invariant, and is a step of the queue. -/
theorem step_sound (hs : s.Sound others) {o : SessionOp} (hv : s.Valid o) :
    (s.step sender o).Sound others ∧ (s.step sender o).fifo = s.fifo.step sender o := by
  cases o with
  | send data fds room => exact ⟨hs.send sender data fds room, fifo_send sender s data fds room⟩
  | recv len max_fds free new => exact ⟨hs.recv hv, hs.fifo_recv hv⟩

/-- A run keeps the invariant, and is a run of the queue. -/
theorem runs_sound (hs : s.Sound others) {ops : List SessionOp}
    (hvalid : Run.Along (step sender) Valid s ops) :
    (Run.runs (step sender) s ops).Sound others ∧
      (Run.runs (step sender) s ops).fifo = Run.runs (Fifo.step sender) s.fifo ops := by
  induction ops generalizing s with
  | nil => exact ⟨hs, rfl⟩
  | cons o ops ih =>
    obtain ⟨hstep, hfifo⟩ := step_sound hs hvalid.1
    rw [Run.runs_cons, Run.runs_cons, ← hfifo]
    exact ih hstep hvalid.2

end Session

namespace Fifo

variable {sender : Int → Option δ}

theorem given_append (answers answers' : List (SessionAnswer δ)) :
    given (answers ++ answers') = given answers ++ given answers' := List.filterMap_append

/-- A call gives the receiver the first message, or drops it, or leaves the queue. -/
theorem recv_cases (f : Fifo δ) (len max_fds free : ℕ) :
    (∃ m queue, f.queue = m :: queue ∧ (f.recv len max_fds free).queue = queue ∧
      given (f.recv len max_fds free).answers = given f.answers ++ [(m.data, m.files.map some)]) ∨
    (∃ dropped, f.queue = dropped ++ (f.recv len max_fds free).queue) ∧
      given (f.recv len max_fds free).answers = given f.answers := by
  unfold recv
  split
  · exact Or.inr ⟨⟨[], rfl⟩, by rw [given_append]; exact List.append_nil _⟩
  · cases hqueue : f.queue with
    | nil => exact Or.inr ⟨⟨[], rfl⟩, by rw [given_append]; exact List.append_nil _⟩
    | cons m queue =>
      dsimp only
      split
      · exact Or.inl ⟨m, queue, rfl, rfl, given_append _ _⟩
      · exact Or.inr ⟨⟨[m], rfl⟩, by rw [given_append]; exact List.append_nil _⟩

/-- In a run of the queue the receiver is given messages in the order in which they
were sent, none twice; those that are still on their way are the last. -/
theorem given_runs (sender : Int → Option δ) (f : Fifo δ) (ops : List SessionOp) :
    ∃ taken, f.queue ++ sent sender ops = taken ++ (Run.runs (step sender) f ops).queue ∧
      ∃ given', given (Run.runs (step sender) f ops).answers = given f.answers ++ given' ∧
        given'.Sublist (taken.map fun m => (m.data, m.files.map some)) := by
  induction ops generalizing f with
  | nil => exact ⟨[], by simp [sent], [], by simp, List.Sublist.refl _⟩
  | cons o ops ih =>
    obtain ⟨taken, hqueue, given', hgiven, hsub⟩ := ih (f.step sender o)
    rw [Run.runs_cons]
    cases o with
    | send data fds room =>
      refine ⟨taken, ?_, given', hgiven, hsub⟩
      rw [← hqueue]
      simp [sent, step, List.append_assoc]
    | recv len max_fds free new =>
      have hsent : sent sender (.recv len max_fds free new :: ops) = sent sender ops := rfl
      rw [hsent]
      rcases recv_cases f len max_fds free with ⟨m, queue, hm, hrest, hone⟩ | ⟨⟨dropped, hm⟩, hnone⟩
      · refine ⟨m :: taken, ?_, (m.data, m.files.map some) :: given', ?_, hsub.cons_cons _⟩
        · rw [hm, ← hrest, List.cons_append, List.cons_append]
          exact congrArg _ hqueue
        · rw [hgiven, step, hone, List.append_assoc, List.singleton_append]
      · refine ⟨dropped ++ taken, ?_, given', ?_, ?_⟩
        · rw [hm, List.append_assoc, List.append_assoc]
          exact congrArg _ hqueue
        · rw [hgiven, step, hnone]
        · rw [List.map_append]
          exact hsub.trans (List.sublist_append_right _ _)

end Fifo

namespace Session

variable {sender : Int → Option δ} {others : Finset Int} {files : Int → Option δ}
  {ops : List SessionOp}

/-- In every order of sends and receives: the answers are those of a queue, where a
message is given whole, with descriptors for the same files in the same order, or
refused when it has more bytes or more descriptors than asked for, or more than the
receiver can have; the messages are given in the order in which they were sent, none
twice; and nothing is open but what was given last, and nothing was closed that was not
open. -/
theorem session_runs (hvalid : Run.Along (step sender) Valid (start others files) ops) :
    (Run.runs (step sender) (start others files) ops).ended = false ∧
      (Run.runs (step sender) (start others files) ops).fifo
        = Run.runs (Fifo.step sender) ⟨[], []⟩ ops ∧
      (Run.runs (step sender) (start others files) ops).table
        = ⟨others ∪ (Run.runs (step sender) (start others files) ops).fds.toFinset, []⟩ ∧
      ∃ taken, Fifo.sent sender ops
          = taken ++ (Run.runs (step sender) (start others files) ops).queue ∧
        (Fifo.given (Run.runs (step sender) (start others files) ops).answers).Sublist
          (taken.map fun m => (m.data, m.files.map some)) := by
  obtain ⟨hs, hfifo⟩ := runs_sound (sound_start others files) hvalid
  obtain ⟨taken, hqueue, given', hgiven, hsub⟩ := Fifo.given_runs sender ⟨[], []⟩ ops
  refine ⟨hs.running, hfifo, hs.table, taken, ?_, ?_⟩
  · exact hqueue.trans (congrArg (taken ++ Fifo.queue ·) hfifo.symm)
  · have hanswers : (Run.runs (step sender) (start others files) ops).answers
        = (Run.runs (Fifo.step sender) ⟨[], []⟩ ops).answers := congrArg Fifo.answers hfifo
    rw [hanswers, hgiven]
    exact hsub

/-- Two messages, of which the second has a descriptor too many, and one for which the
socket has no room. -/
theorem session_runs_two :
    (Run.runs (step fun fd => if fd < 3 then none else some fd.toNat)
      (start {0, 1, 2} fun _ => none)
      [.send [1, 2] [7, 8, 7] true, .recv 2 3 9 fun n => n + 3, .send [3] [9, 9] true,
        .send [4] [] false, .recv 4 1 9 fun n => n + 4,
        .recv 4 1 9 fun n => n + 4]).ended = false :=
  And.left (session_runs ⟨trivial, by decide, trivial, trivial, by decide, by decide, trivial⟩)

end Session

end SysFs.Base
