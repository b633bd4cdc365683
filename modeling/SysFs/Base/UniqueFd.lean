import SysFs.Lib.Handles

/-!
# Descriptors that close themselves

`unique_fd` owns a descriptor and closes it when the object ends or gets another
one.  A `Process` has the `fd_` of every object that is alive, the descriptors that
are open, and `errno`.  `loose` is not in the source: it says which open
descriptors the program holds as a plain `int`, and so has to close itself.

`step` is one operation of a program on its objects and descriptors.  `Valid` says
what the source asks of the program: a method is called on an object that is alive,
and a descriptor that is given to an object is one that the program holds.

`holdings` forgets the `-1` of the source, and the operations become those of
owners (`Handles.Holdings`).  So in every run of valid operations each open
descriptor has exactly one that closes it (`sound_runs`), and `descriptors_runs`
says what that means: none is closed twice, none that belongs to someone else is
closed, and none is lost.
-/

namespace SysFs.Base

open Handles

/-- The objects of class `unique_fd`, and what the kernel and the C library keep. -/
structure Process (ι : Type*) where
  /-- `fd_` of the objects that are alive -/
  objects : ι → Option Int
  table : Table Int
  /-- the descriptors that the program holds itself -/
  loose : Finset Int
  errno : ℕ

/-- What `pipe2` and `socketpair` give: two descriptors, or `errno`. -/
inductive PairAnswer where
  | fds (first second : Int)
  | failed (errno : ℕ)
deriving DecidableEq, Repr

/-- What a program does with its objects and descriptors. -/
inductive FdOp (ι : Type*) where
  /-- `unique_fd_impl ()` -/
  | default (i : ι)
  /-- `unique_fd_impl (fd)` -/
  | construct (i : ι) (fd : Int)
  /-- `unique_fd_impl (std::move (j))` -/
  | moveConstruct (i j : ι)
  /-- `i = std::move (j)` -/
  | moveAssign (i j : ι)
  | reset (i : ι) (fd : Int)
  | release (i : ι)
  | destroy (i : ι)
  | pipe (i j : ι) (a : PairAnswer)
  | socketpair (i j : ι) (a : PairAnswer)
  /-- `Fdopen (std::move (i))`, and whether `fdopen` succeeds -/
  | fdopen (i : ι) (ok : Bool)
  /-- `Fdopendir (std::move (i))`, and whether `fdopendir` succeeds -/
  | fdopendir (i : ι) (ok : Bool)
  /-- the program gets a new descriptor -/
  | open (fd : Int)
  /-- the program closes a descriptor that it holds -/
  | close (fd : Int)
deriving DecidableEq, Repr

namespace Process

variable {ι : Type*} [DecidableEq ι] (closing : ℕ → Int → ℕ) (p : Process ι)

/-- `get`, and `-1` for an object that is not alive. -/
def get (i : ι) : Int := (p.objects i).getD (-1)

/-- `fd_ = fd`. -/
def setFd (i : ι) (fd : Int) : Process ι :=
  { p with objects := Function.update p.objects i (some fd) }

/-- `close`, which leaves `closing errno fd` in `errno`. -/
def close (fd : Int) : Process ι :=
  { p with table := p.table.apply (.closed fd), errno := closing p.errno fd }

/-- `reset`.  The object takes the descriptor from the program. -/
def reset (i : ι) (new_value : Int) : Process ι :=
  let previous_errno := p.errno
  let p := if p.get i ≠ -1 then p.close closing (p.get i) else p
  let p := p.setFd i new_value
  { p with loose := p.loose.erase new_value, errno := previous_errno }

/-- The program holds what was in an object. -/
def hold (fd : Int) : Process ι :=
  if fd = -1 then p else { p with loose := insert fd p.loose }

/-- `release`. -/
def release (i : ι) : Int × Process ι :=
  let ret := p.get i
  (ret, (p.setFd i (-1)).hold ret)

/-- `unique_fd_impl ()`. -/
def default (i : ι) : Process ι := p.setFd i (-1)

/-- `unique_fd_impl (fd)`. -/
def construct (i : ι) (fd : Int) : Process ι := (p.default i).reset closing i fd

/-- `unique_fd_impl (unique_fd_impl&& other)`. -/
def moveConstruct (i j : ι) : Process ι :=
  let released := (p.default i).release j
  released.2.reset closing i released.1

/-- `operator= (unique_fd_impl&& s)`. -/
def moveAssign (i j : ι) : Process ι :=
  let fd := p.get j
  let p := (p.setFd j (-1)).hold fd
  p.reset closing i fd

/-- `~unique_fd_impl`. -/
def destroy (i : ι) : Process ι :=
  let p := p.reset closing i (-1)
  { p with objects := Function.update p.objects i none }

/-- The program gets a new descriptor. -/
def opened (fd : Int) : Process ι :=
  { p with table := p.table.apply (.opened fd), loose := insert fd p.loose }

/-- Two new descriptors are put into two objects. -/
def resetBoth (i j : ι) : PairAnswer → Bool × Process ι
  | .failed errno => (false, { p with errno := errno })
  | .fds first second =>
    let p := (p.opened first).opened second
    (true, (p.reset closing i first).reset closing j second)

/-- `Pipe`. -/
def Pipe (read write : ι) (a : PairAnswer) : Bool × Process ι := p.resetBoth closing read write a

/-- `Socketpair`. -/
def Socketpair (left right : ι) (a : PairAnswer) : Bool × Process ι :=
  p.resetBoth closing left right a

/-- A stream is opened on the descriptor of an object, which is closed when that
fails. -/
def openStream (i : ι) (ok : Bool) : Process ι :=
  let released := p.release i
  if ok then released.2
  else { released.2.close closing released.1 with loose := released.2.loose.erase released.1 }

/-- `Fdopen`. -/
def Fdopen (i : ι) (ok : Bool) : Process ι := p.openStream closing i ok

/-- `Fdopendir`. -/
def Fdopendir (i : ι) (ok : Bool) : Process ι := p.openStream closing i ok

/-- One operation. -/
def step : FdOp ι → Process ι
  | .default i => p.default i
  | .construct i fd => p.construct closing i fd
  | .moveConstruct i j => p.moveConstruct closing i j
  | .moveAssign i j => p.moveAssign closing i j
  | .reset i fd => p.reset closing i fd
  | .release i => (p.release i).2
  | .destroy i => p.destroy closing i
  | .pipe i j a => (p.Pipe closing i j a).2
  | .socketpair i j a => (p.Socketpair closing i j a).2
  | .fdopen i ok => p.Fdopen closing i ok
  | .fdopendir i ok => p.Fdopendir closing i ok
  | .open fd => p.opened fd
  | .close fd => { p.close closing fd with loose := p.loose.erase fd }

/-- An object that is alive. -/
def Alive (i : ι) : Prop := p.objects i ≠ none

/-- A descriptor that can be given to an object: one that the program holds, or
none. -/
def MayGive (fd : Int) : Prop := fd = -1 ∨ fd ∈ p.loose

/-- Two new descriptors. -/
def NewPair : PairAnswer → Prop
  | .failed _ => True
  | .fds first second => 0 ≤ first ∧ 0 ≤ second ∧ first ≠ second ∧
      first ∉ p.table.live ∧ second ∉ p.table.live

/-- What is asked of the program, and of the kernel that gives new descriptors. -/
def Valid : FdOp ι → Prop
  | .default i => ¬ p.Alive i
  | .construct i fd => ¬ p.Alive i ∧ p.MayGive fd
  | .moveConstruct i j => ¬ p.Alive i ∧ p.Alive j
  | .moveAssign i j => p.Alive i ∧ p.Alive j
  | .reset i fd => p.Alive i ∧ p.MayGive fd
  | .release i => p.Alive i
  | .destroy i => p.Alive i
  | .pipe i j a => p.Alive i ∧ p.Alive j ∧ p.NewPair a
  | .socketpair i j a => p.Alive i ∧ p.Alive j ∧ p.NewPair a
  | .fdopen i _ => p.Alive i ∧ p.get i ≠ -1
  | .fdopendir i _ => p.Alive i ∧ p.get i ≠ -1
  | .open fd => 0 ≤ fd ∧ fd ∉ p.table.live
  | .close fd => fd ∈ p.loose

instance (p : Process ι) (i : ι) : Decidable (p.Alive i) := inferInstanceAs (Decidable (_ ≠ _))

instance (p : Process ι) (fd : Int) : Decidable (p.MayGive fd) :=
  inferInstanceAs (Decidable (_ ∨ _))

instance (p : Process ι) : DecidablePred p.NewPair
  | .failed _ => isTrue trivial
  | .fds _ _ => inferInstanceAs (Decidable (_ ∧ _))

instance (p : Process ι) : DecidablePred p.Valid
  | .default _ => inferInstanceAs (Decidable (¬ _))
  | .construct _ _ => inferInstanceAs (Decidable (_ ∧ _))
  | .moveConstruct _ _ => inferInstanceAs (Decidable (_ ∧ _))
  | .moveAssign _ _ => inferInstanceAs (Decidable (_ ∧ _))
  | .reset _ _ => inferInstanceAs (Decidable (_ ∧ _))
  | .release i => inferInstanceAs (Decidable (p.Alive i))
  | .destroy i => inferInstanceAs (Decidable (p.Alive i))
  | .pipe _ _ _ => inferInstanceAs (Decidable (_ ∧ _))
  | .socketpair _ _ _ => inferInstanceAs (Decidable (_ ∧ _))
  | .fdopen _ _ => inferInstanceAs (Decidable (_ ∧ _))
  | .fdopendir _ _ => inferInstanceAs (Decidable (_ ∧ _))
  | .open _ => inferInstanceAs (Decidable (_ ∧ _))
  | .close fd => inferInstanceAs (Decidable (fd ∈ p.loose))

/-! ## Objects as owners -/

/-- The objects as owners of what they hold. -/
def holdings : Holdings ι Int where
  toTable := p.table
  slot i := if p.get i = -1 then none else some (p.get i)
  loose := p.loose

variable {closing p} {i j : ι} {fd : Int} {others : Finset Int}

omit [DecidableEq ι] in
theorem slot_eq_none (h : p.get i = -1) : p.holdings.slot i = none := if_pos h

omit [DecidableEq ι] in
theorem slot_eq_some (h : p.get i ≠ -1) : p.holdings.slot i = some (p.get i) := if_neg h

@[simp] theorem get_setFd_self : (p.setFd i fd).get i = fd := by
  simp [get, setFd]

theorem get_setFd_of_ne (h : j ≠ i) : (p.setFd i fd).get j = p.get j := by
  simp [get, setFd, h]

omit [DecidableEq ι] in
theorem get_of_not_alive (h : ¬ p.Alive i) : p.get i = -1 := by
  rw [get, not_not.1 h]
  rfl

theorem get_reset_self (closing : ℕ → Int → ℕ) (i : ι) (fd : Int) :
    (p.reset closing i fd).get i = fd := by
  simp [get, reset, setFd]

/-- An assignment to `fd_`, as the owners see it. -/
theorem slot_setFd : (p.setFd i fd).holdings.slot
    = Function.update p.holdings.slot i (if fd = -1 then none else some fd) := by
  funext j
  by_cases hj : j = i
  · subst hj
    rw [Function.update_self]
    show (if (p.setFd j fd).get j = -1 then none else some ((p.setFd j fd).get j)) = _
    rw [get_setFd_self]
  · rw [Function.update_of_ne hj]
    show (if (p.setFd i fd).get j = -1 then none else some ((p.setFd i fd).get j)) = _
    rw [get_setFd_of_ne hj]
    rfl

/-- `reset` drops what the object holds, and takes what it is given. -/
theorem holdings_reset (hfd : fd ≠ -1) :
    (p.reset closing i fd).holdings = (p.holdings.drop i).put i fd := by
  by_cases hget : p.get i = -1
  · rw [Holdings.drop_of_none (slot_eq_none hget)]
    unfold reset
    rw [if_neg (not_not.2 hget)]
    show Holdings.mk p.table (p.setFd i fd).holdings.slot (p.loose.erase fd) = _
    rw [slot_setFd, if_neg hfd]
    rfl
  · unfold reset Holdings.drop
    rw [slot_eq_some hget, if_pos hget]
    show Holdings.mk (p.table.apply (.closed (p.get i)))
      ((p.close closing (p.get i)).setFd i fd).holdings.slot (p.loose.erase fd) = _
    rw [slot_setFd, if_neg hfd, Holdings.put]
    dsimp only
    rw [Function.update_idem]
    rfl

/-- `reset ()` drops what the object holds. -/
theorem holdings_reset_none (h : (-1 : Int) ∉ p.loose) :
    (p.reset closing i (-1)).holdings = p.holdings.drop i := by
  by_cases hget : p.get i = -1
  · rw [Holdings.drop_of_none (slot_eq_none hget)]
    unfold reset
    rw [if_neg (not_not.2 hget)]
    show Holdings.mk p.table (p.setFd i (-1)).holdings.slot (p.loose.erase (-1)) = _
    rw [slot_setFd, if_pos rfl, Finset.erase_eq_of_notMem h, ← slot_eq_none hget,
      Function.update_eq_self]
    rfl
  · unfold reset Holdings.drop
    rw [slot_eq_some hget, if_pos hget]
    show Holdings.mk (p.table.apply (.closed (p.get i)))
      ((p.close closing (p.get i)).setFd i (-1)).holdings.slot (p.loose.erase (-1)) = _
    rw [slot_setFd, if_pos rfl, Finset.erase_eq_of_notMem h]
    rfl

/-- What an object loses, the program holds. -/
theorem holdings_hold (i : ι) : ((p.setFd i (-1)).hold (p.get i)).holdings = p.holdings.take i := by
  unfold hold
  by_cases hget : p.get i = -1
  · rw [if_pos hget, Holdings.take_of_none (slot_eq_none hget)]
    show Holdings.mk p.table (p.setFd i (-1)).holdings.slot p.loose = _
    rw [slot_setFd, if_pos rfl, ← slot_eq_none hget, Function.update_eq_self]
    rfl
  · rw [if_neg hget, Holdings.take_eq (slot_eq_some hget)]
    show Holdings.mk p.table (p.setFd i (-1)).holdings.slot (insert (p.get i) p.loose) = _
    rw [slot_setFd, if_pos rfl]
    rfl

theorem holdings_default (h : p.get i = -1) : (p.default i).holdings = p.holdings := by
  show Holdings.mk p.table (p.setFd i (-1)).holdings.slot p.loose = _
  rw [slot_setFd, if_pos rfl, ← slot_eq_none h, Function.update_eq_self]
  rfl

/-- An object that is not alive holds nothing, as one that was reset. -/
theorem holdings_destroy (p : Process ι) (i : ι) :
    (p.destroy closing i).holdings = (p.reset closing i (-1)).holdings := by
  have hget : ∀ j, (p.destroy closing i).get j = (p.reset closing i (-1)).get j := by
    intro j
    by_cases hj : j = i
    · rw [hj, get_reset_self]
      simp [get, destroy]
    · simp [get, destroy, hj]
  have hslot : (p.destroy closing i).holdings.slot = (p.reset closing i (-1)).holdings.slot := by
    funext j
    show (if (p.destroy closing i).get j = -1 then none else some ((p.destroy closing i).get j)) = _
    rw [hget]
    rfl
  show Holdings.mk _ _ _ = Holdings.mk _ _ _
  congr 1

theorem loose_reset (p : Process ι) (i : ι) (fd : Int) :
    (p.reset closing i fd).loose = p.loose.erase fd := by
  unfold reset
  split <;> rfl

/-! ## The invariant -/

/-- Every open descriptor has exactly one that closes it, and `-1` is none. -/
structure Sound (others : Finset Int) (p : Process ι) : Prop where
  holdings : p.holdings.Sound others
  live : (-1 : Int) ∉ p.holdings.live

omit [DecidableEq ι] in
theorem Sound.loose (hs : p.Sound others) : (-1 : Int) ∉ p.loose :=
  fun h => hs.live (hs.holdings.loose_live (-1) h).1

/-- `reset` with a descriptor that the program holds, or with none. -/
theorem Sound.reset (hs : p.Sound others) (hgive : p.MayGive fd) :
    (p.reset closing i fd).Sound others := by
  have hdrop := hs.holdings.drop i
  have hlive : (-1 : Int) ∉ (p.holdings.drop i).live :=
    fun h => hs.live (Holdings.live_drop_subset p.holdings i h)
  by_cases hfd : fd = -1
  · subst hfd
    have heq : (p.reset closing i (-1)).holdings = _ := holdings_reset_none hs.loose
    exact ⟨heq ▸ hdrop, heq ▸ hlive⟩
  · have heq : (p.reset closing i fd).holdings = _ := holdings_reset hfd
    have hmem : fd ∈ (p.holdings.drop i).loose := by
      rw [Holdings.loose_drop]
      exact hgive.resolve_left hfd
    have hput := hdrop.put (by rw [Holdings.slot_drop, Function.update_self]) hmem
    exact ⟨heq ▸ hput, heq ▸ hlive⟩

/-- What an object loses, the program holds. -/
theorem Sound.hold (hs : p.Sound others) (i : ι) :
    ((p.setFd i (-1)).hold (p.get i)).Sound others := by
  have heq := holdings_hold (p := p) i
  refine ⟨heq ▸ hs.holdings.take i, ?_⟩
  rw [heq, Holdings.toTable_take]
  exact hs.live

omit [DecidableEq ι] in
/-- The program may give away what it has just got from an object. -/
theorem mayGive_hold (p : Process ι) (fd : Int) : (p.hold fd).MayGive fd := by
  unfold Process.hold MayGive
  split
  · rename_i hnone
    exact Or.inl hnone
  · exact Or.inr (Finset.mem_insert_self fd _)

theorem Sound.default (hs : p.Sound others) (h : p.get i = -1) : (p.default i).Sound others := by
  have heq := holdings_default h
  exact ⟨heq ▸ hs.holdings, hs.live⟩

omit [DecidableEq ι] in
theorem Sound.opened (hs : p.Sound others) (hfd : 0 ≤ fd) (hnew : fd ∉ p.table.live) :
    (p.opened fd).Sound others := by
  refine ⟨hs.holdings.acquire hnew, fun h => ?_⟩
  rcases Finset.mem_insert.1 h with hneg | h
  · omega
  · exact hs.live h

theorem Sound.resetBoth (hs : p.Sound others) {a : PairAnswer} (hnew : p.NewPair a) :
    (p.resetBoth closing i j a).2.Sound others := by
  cases a with
  | failed errno => exact ⟨hs.holdings, hs.live⟩
  | fds first second =>
    obtain ⟨hfirst, hsecond, hne, hnew, hnew'⟩ := hnew
    have hnew₂ : second ∉ (p.opened first).table.live := by
      intro h
      rcases Finset.mem_insert.1 h with h | h
      · exact hne h.symm
      · exact hnew' h
    have hboth := (hs.opened hfirst hnew).opened hsecond hnew₂
    have hmem : first ∈ ((p.opened first).opened second).loose :=
      Finset.mem_insert_of_mem (Finset.mem_insert_self first _)
    refine (hboth.reset (Or.inr hmem)).reset (Or.inr ?_)
    rw [loose_reset]
    exact Finset.mem_erase.2 ⟨hne.symm, Finset.mem_insert_self second _⟩

theorem Sound.openStream (hs : p.Sound others) (hget : p.get i ≠ -1) (ok : Bool) :
    (p.openStream closing i ok).Sound others := by
  have hhold := hs.hold i
  cases ok with
  | true => exact hhold
  | false =>
    have hmem : p.get i ∈ ((p.setFd i (-1)).hold (p.get i)).loose :=
      (mayGive_hold _ _).resolve_left hget
    refine ⟨hhold.holdings.discard hmem, fun h => hhold.live ?_⟩
    exact Table.live_closed_subset _ _ h

/-- One valid operation keeps the invariant. -/
theorem Sound.step (hs : p.Sound others) {o : FdOp ι} (hv : p.Valid o) :
    (p.step closing o).Sound others := by
  cases o with
  | default i => exact hs.default (get_of_not_alive hv)
  | construct i fd =>
    exact (hs.default (get_of_not_alive hv.1)).reset hv.2
  | moveConstruct i j =>
    exact ((hs.default (get_of_not_alive hv.1)).hold j).reset (mayGive_hold _ _)
  | moveAssign i j => exact (hs.hold j).reset (mayGive_hold _ _)
  | reset i fd => exact hs.reset hv.2
  | release i => exact hs.hold i
  | destroy i =>
    have hreset : (p.reset closing i (-1)).Sound others := hs.reset (Or.inl rfl)
    have heq : (p.destroy closing i).holdings = _ := holdings_destroy p i
    exact ⟨heq ▸ hreset.holdings, heq ▸ hreset.live⟩
  | pipe i j a => exact hs.resetBoth hv.2.2
  | socketpair i j a => exact hs.resetBoth hv.2.2
  | fdopen i ok => exact hs.openStream hv.2 ok
  | fdopendir i ok => exact hs.openStream hv.2 ok
  | «open» fd => exact hs.opened hv.1 hv.2
  | close fd =>
    refine ⟨hs.holdings.discard hv, fun h => hs.live ?_⟩
    exact Table.live_closed_subset _ _ h

/-! ## `errno` -/

omit [DecidableEq ι] in
theorem errno_hold (p : Process ι) (fd : Int) : (p.hold fd).errno = p.errno := by
  unfold hold
  split <;> rfl

end Process

/-- An operation of an object alone. -/
def FdOp.IsMethod {ι : Type*} : FdOp ι → Bool
  | .default _ => true
  | .construct _ _ => true
  | .moveConstruct _ _ => true
  | .moveAssign _ _ => true
  | .reset _ _ => true
  | .release _ => true
  | .destroy _ => true
  | _ => false

namespace Process

variable {ι : Type*} [DecidableEq ι] {closing : ℕ → Int → ℕ} {p : Process ι} {others : Finset Int}

/-- The methods of an object leave `errno` alone, although they may close. -/
theorem errno_step {o : FdOp ι} (h : o.IsMethod = true) : (p.step closing o).errno = p.errno := by
  cases o with
  | default i => rfl
  | construct i fd => rfl
  | moveConstruct i j => exact errno_hold _ _
  | moveAssign i j => exact errno_hold _ _
  | reset i fd => rfl
  | release i => exact errno_hold _ _
  | destroy i => rfl
  | _ => cases h

/-! ## Runs -/

/-- A program that starts without objects, where some descriptors are open. -/
def start (ι : Type*) (others : Finset Int) (errno : ℕ) : Process ι where
  objects _ := none
  table := ⟨others, []⟩
  loose := ∅
  errno := errno

omit [DecidableEq ι] in
theorem sound_start (h : (-1 : Int) ∉ others) (errno : ℕ) : (start ι others errno).Sound others where
  holdings :=
    { slot_inj := fun _ _ _ hi _ => nomatch hi
      slot_live := fun _ _ hi => nomatch hi
      loose_live := fun fd hfd => absurd hfd (Finset.notMem_empty fd)
      others_live := fun _ hfd => hfd
      held := fun _ hfd => Or.inr (Or.inl hfd)
      unused := rfl }
  live := h

/-- Valid operations keep the invariant. -/
theorem sound_runs {ops : List (FdOp ι)} (hs : p.Sound others)
    (hvalid : Run.Along (step closing) Valid p ops) :
    (Run.runs (step closing) p ops).Sound others :=
  Run.inv_of_along (fun _ _ hs hv => hs.step hv) hs hvalid

/-- In every run of valid operations: nothing is closed that is not open, so
nothing is closed twice; what belongs to someone else stays open; no two objects
have the same descriptor; and when no object is left, nothing is open but what
belongs to someone else and what the program holds.  Each method of an object in the
run leaves `errno` as it was before it. -/
theorem descriptors_runs {ops : List (FdOp ι)} {errno : ℕ} (hothers : (-1 : Int) ∉ others)
    (hvalid : Run.Along (step closing) Valid (start ι others errno) ops) :
    (Run.runs (step closing) (start ι others errno) ops).table.misused = [] ∧
      others ⊆ (Run.runs (step closing) (start ι others errno) ops).table.live ∧
      (∀ i j, (Run.runs (step closing) (start ι others errno) ops).get i ≠ -1 →
        (Run.runs (step closing) (start ι others errno) ops).get i
          = (Run.runs (step closing) (start ι others errno) ops).get j → i = j) ∧
      ((∀ i, ¬ (Run.runs (step closing) (start ι others errno) ops).Alive i) →
        (Run.runs (step closing) (start ι others errno) ops).table.live
          = (Run.runs (step closing) (start ι others errno) ops).loose ∪ others) ∧
      (∀ before o after, ops = before ++ o :: after → o.IsMethod = true →
        (Run.runs (step closing) (start ι others errno) (before ++ [o])).errno
          = (Run.runs (step closing) (start ι others errno) before).errno) := by
  have hs := sound_runs (sound_start hothers errno) hvalid
  refine ⟨hs.holdings.unused, hs.holdings.others_live, fun i j hi hij => ?_, fun hdead => ?_,
    fun before o after _ ho => ?_⟩
  · refine hs.holdings.slot_inj i j _ (slot_eq_some hi) ?_
    rw [slot_eq_some (hij ▸ hi), hij]
  · exact hs.holdings.live_eq fun i => slot_eq_none (get_of_not_alive (hdead i))
  · rw [Run.runs_append]
    exact errno_step ho

/-- A pipe whose write end is moved to another object and released, where both
objects end. -/
def pipeOps : List (FdOp (Fin 3)) :=
  [.default 0, .default 1, .pipe 0 1 (.fds 3 4), .moveConstruct 2 1, .moveAssign 2 2,
    .release 2, .destroy 0, .destroy 1, .destroy 2]

/-- The first object closes its descriptor when it ends, and leaves `errno` alone. -/
theorem descriptors_runs_pipe :
    (Run.runs (step fun errno _ => errno + 1) (start (Fin 3) {0, 1, 2} 0) pipeOps).table.misused
        = [] ∧
      (Run.runs (step fun errno _ => errno + 1) (start (Fin 3) {0, 1, 2} 0)
          (pipeOps.take 6 ++ [.destroy 0])).errno
        = (Run.runs (step fun errno _ => errno + 1) (start (Fin 3) {0, 1, 2} 0)
          (pipeOps.take 6)).errno := by
  have h := @descriptors_runs (Fin 3) _ (fun errno _ => errno + 1) {0, 1, 2} pipeOps 0 (by decide)
    ⟨by decide, by decide, by decide, by decide, by decide, by decide, by decide, by decide,
      by decide, trivial⟩
  exact ⟨h.1, h.2.2.2.2 (pipeOps.take 6) (.destroy 0) (pipeOps.drop 7) rfl rfl⟩

end Process

end SysFs.Base
