import SysFs.Lib.Descriptors
import SysFs.Lib.Run
import SysFs.Path

/-!
# Capturing what is written to a standard descriptor

A `CapturedStdFd` puts its temporary file in the place of a standard descriptor and keeps
a duplicate of what was there, to put it back.  What the program writes in between goes to
the file, and `str` reads the file.

The descriptors are a table of open files (`Descriptors`).  An open file has an offset, which
its descriptors share: `str` and `Reset` move it.  The system may refuse a temporary file and
a duplicate.  A failed `CHECK` ends the process, so that a step gives nothing then.

`Captures` says what the class is for: over each standard descriptor there is a pile of
objects that capture it, and what is written goes to the top one.  Objects may be piled up in
any way, but the one that stops must be on top, since the objects below are put back by those
above.  `captures_run`: in every such run in which the system refuses nothing, the class does
what the piles say, no `CHECK` fails, and every descriptor that the objects opened is closed
when they are gone.
-/

namespace SysFs.Base

open Descriptors

/-- What a descriptor can be open for: what the process was given, and the temporary file of
an object. -/
inductive OpenFile where
  | given (k : ℕ)
  | temp (i : ℕ)
deriving DecidableEq, Repr

/-- An open file: its content and the offset. -/
structure Description where
  content : Str
  offset : ℕ
deriving DecidableEq, Repr

/-- `write`. -/
def Description.write (d : Description) (text : Str) : Description :=
  ⟨d.content.take d.offset ++ text ++ d.content.drop (d.offset + text.length),
    d.offset + text.length⟩

/-- A file with its offset at the end. -/
def Description.full (text : Str) : Description := ⟨text, text.length⟩

/-- Writing at the end. -/
theorem Description.write_full (text text' : Str) :
    (Description.full text).write text' = .full (text ++ text') := by
  simp [Description.write, Description.full]

/-- The open files of a process. -/
structure OpenFiles where
  table : List (Option OpenFile)
  files : OpenFile → Description

namespace OpenFiles

variable (p : OpenFiles)

def dup (fd : ℕ) (granted : Bool) : Option (OpenFiles × ℕ) :=
  if granted then (Descriptors.dup p.table fd).map fun r => ({ p with table := r.1 }, r.2)
  else none

def dup2 (fd fd' : ℕ) : Option OpenFiles :=
  (Descriptors.dup2 p.table fd fd').map fun t => { p with table := t }

def close (fd : ℕ) : OpenFiles := { p with table := Descriptors.close p.table fd }

/-- `mkstemp`: a new empty file. -/
def mkstemp (i : ℕ) (granted : Bool) : Option (OpenFiles × ℕ) :=
  if granted then
    some (⟨(openNew p.table (.temp i)).1, Function.update p.files (.temp i) ⟨[], 0⟩⟩,
      (openNew p.table (OpenFile.temp i)).2)
  else none

/-- Change the file that a descriptor is open for. -/
def change (fd : ℕ) (g : Description → Description) : Option OpenFiles :=
  (get p.table fd).map fun f => { p with files := Function.update p.files f (g (p.files f)) }

/-- `write` of the program: nothing happens when the descriptor is not open. -/
def write (fd : ℕ) (text : Str) : OpenFiles := (p.change fd (·.write text)).getD p

/-- `lseek(fd, 0, SEEK_SET)`. -/
def rewind (fd : ℕ) : Option OpenFiles := p.change fd fun d => ⟨d.content, 0⟩

/-- `ftruncate(fd, 0)`. -/
def truncate (fd : ℕ) : Option OpenFiles := p.change fd fun d => ⟨[], d.offset⟩

/-- `ReadFdToString`: what follows the offset, which moves to the end. -/
def ReadFdToString (fd : ℕ) : Option (OpenFiles × Str) :=
  (get p.table fd).bind fun f =>
    (p.change fd fun d => ⟨d.content, max d.offset d.content.length⟩).map fun p' =>
      (p', (p.files f).content.drop (p.files f).offset)

end OpenFiles

/-- The members of the class, with the descriptor of `temp_file_`; `old_fd_` is `-1` when
nothing is captured. -/
structure CapturedStdFd where
  fd : ℕ
  std_fd_ : ℕ
  old_fd_ : Option ℕ
deriving DecidableEq, Repr

namespace CapturedStdFd

variable (c : CapturedStdFd) (p : OpenFiles)

def Start (dup : Bool) : Option (OpenFiles × CapturedStdFd) := do
  let (p, old) ← p.dup c.std_fd_ dup
  let p ← p.dup2 c.fd c.std_fd_
  return (p, { c with old_fd_ := some old })

def Stop : Option (OpenFiles × CapturedStdFd) := do
  let old ← c.old_fd_
  let p ← p.dup2 old c.std_fd_
  return (p.close old, { c with old_fd_ := none })

def Reset : Option OpenFiles :=
  if c.old_fd_ = none then do
    let p ← p.rewind c.fd
    p.truncate c.fd
  else none

def str : Option (OpenFiles × Str) := do
  let p ← p.rewind c.fd
  p.ReadFdToString c.fd

/-- The destructor, and that of the temporary file. -/
def destroy : Option OpenFiles := do
  let p ← if c.old_fd_ ≠ none then (c.Stop p).map Prod.fst else some p
  return p.close c.fd

end CapturedStdFd

/-- What a program does, and what the system grants. -/
inductive CaptureOp where
  | construct (i std_fd : ℕ) (mkstemp dup : Bool)
  | Start (i : ℕ) (dup : Bool)
  | Stop (i : ℕ)
  | Reset (i : ℕ)
  | str (i : ℕ)
  | destroy (i : ℕ)
  | write (std_fd : ℕ) (text : Str)
deriving DecidableEq, Repr

/-- A process with its objects. -/
structure Capturing where
  open_ : OpenFiles
  objs : ℕ → Option CapturedStdFd

namespace Capturing

variable (w : Capturing)

/-- Run a method that changes an object. -/
def method (i : ℕ)
    (m : CapturedStdFd → OpenFiles → Option (OpenFiles × CapturedStdFd)) : Option Capturing := do
  let c ← w.objs i
  let (p, c) ← m c w.open_
  return ⟨p, Function.update w.objs i (some c)⟩

/-- An object whose constructor has not come to `Start`.  Without a file, the `CHECK` of
`dup2` fails there. -/
def init (i std_fd : ℕ) (mkstemp : Bool) : Option Capturing :=
  (w.open_.mkstemp i mkstemp).map fun r =>
    ⟨r.1, Function.update w.objs i (some ⟨r.2, std_fd, none⟩)⟩

/-- The process after one operation, and what `str` returned. -/
def step : CaptureOp → Option (Capturing × Option Str)
  | .construct i std_fd mkstemp dup =>
    if w.objs i = none then
      ((w.init i std_fd mkstemp).bind (·.method i fun c p => c.Start p dup)).map (·, none)
    else none
  | .Start i dup => (w.method i fun c p => c.Start p dup).map (·, none)
  | .Stop i => (w.method i CapturedStdFd.Stop).map (·, none)
  | .Reset i => do
    let c ← w.objs i
    let p ← c.Reset w.open_
    return ({ w with open_ := p }, none)
  | .str i => do
    let c ← w.objs i
    let (p, text) ← c.str w.open_
    return ({ w with open_ := p }, some text)
  | .destroy i => do
    let c ← w.objs i
    let p ← c.destroy w.open_
    return (⟨p, Function.update w.objs i none⟩, none)
  | .write std_fd text => some ({ w with open_ := w.open_.write std_fd text }, none)

end Capturing

/-- What the objects are for: over each standard descriptor a pile of objects that capture
it. -/
structure Captures where
  std : ℕ → Option ℕ
  pile : ℕ → List ℕ
  text : ℕ → Str
  given : ℕ → Description

namespace Captures

variable (a : Captures)

/-- Put an object on the pile of its descriptor. -/
def push (i : ℕ) : Option Captures :=
  (a.std i).bind fun s =>
    if i ∈ a.pile s then none
    else some { a with pile := Function.update a.pile s (i :: a.pile s) }

/-- Take an object off the top of the pile. -/
def pop (i : ℕ) : Option Captures :=
  (a.std i).bind fun s =>
    match a.pile s with
    | [] => none
    | j :: rest => if j = i then some { a with pile := Function.update a.pile s rest } else none

/-- Whether an object captures. -/
def captures (i : ℕ) : Bool :=
  match a.std i with
  | some s => (a.pile s).contains i
  | none => false

/-- A new object. -/
def init (i s : ℕ) : Captures :=
  { a with std := Function.update a.std i (some s), text := Function.update a.text i [] }

/-- An object that does not capture goes. -/
def drop (i : ℕ) : Captures := { a with std := Function.update a.std i none }

/-- One operation, where `orig` says what each standard descriptor was given for.  It is
defined where the system refuses nothing. -/
def step (orig : ℕ → ℕ) (a : Captures) : CaptureOp → Option (Captures × Option Str)
  | .construct i s mkstemp dup =>
    if a.std i = none ∧ s < 3 ∧ mkstemp = true ∧ dup = true then
      ((a.init i s).push i).map (·, none)
    else none
  | .Start i dup => if dup then (a.push i).map (·, none) else none
  | .Stop i => (a.pop i).map (·, none)
  | .Reset i =>
    if a.std i ≠ none ∧ a.captures i = false then
      some ({ a with text := Function.update a.text i [] }, none)
    else none
  | .str i => if a.std i ≠ none then some (a, some (a.text i)) else none
  | .destroy i =>
    if a.std i = none then none
    else if a.captures i then (a.pop i).map fun a => (a.drop i, none)
    else some (a.drop i, none)
  | .write s text =>
    if s < 3 then
      match a.pile s with
      | [] =>
        some ({ a with given := Function.update a.given (orig s) ((a.given (orig s)).write text) },
          none)
      | i :: _ => some ({ a with text := Function.update a.text i (a.text i ++ text) }, none)
    else none

end Captures

/-! ## What a process shows of the piles -/

/-- The descriptors that an object has: that of its file, and the duplicate. -/
def Capturing.slot (w : Capturing) : ℕ × Bool → Option ℕ
  | (i, false) => (w.objs i).map CapturedStdFd.fd
  | (i, true) => (w.objs i).bind CapturedStdFd.old_fd_

/-- A descriptor leads through a pile to what is below: it is open for the file of the top
object, and the duplicate of that object leads through the rest. -/
def Leads (w : Capturing) (f : OpenFile) : ℕ → List ℕ → Prop
  | fd, [] => get w.open_.table fd = some f
  | fd, i :: rest =>
    get w.open_.table fd = some (.temp i) ∧ ∃ old, w.slot (i, true) = some old ∧ Leads w f old rest

/-- The process shows the piles. -/
structure Shows (orig : ℕ → ℕ) (w : Capturing) (a : Captures) : Prop where
  std : ∀ i, (w.objs i).map CapturedStdFd.std_fd_ = a.std i
  low : ∀ i s, a.std i = some s → s < 3
  temp : ∀ i fd, w.slot (i, false) = some fd → get w.open_.table fd = some (.temp i)
  text : ∀ i, a.std i ≠ none → w.open_.files (.temp i) = .full (a.text i)
  given : ∀ k, w.open_.files (.given k) = a.given k
  owned : Owned 3 w.open_.table w.slot
  pile : ∀ i s, i ∈ a.pile s ↔ a.std i = some s ∧ w.slot (i, true) ≠ none
  nodup : ∀ s, (a.pile s).Nodup
  leads : ∀ s, s < 3 → Leads w (.given (orig s)) s (a.pile s)

variable {orig : ℕ → ℕ} {w w' : Capturing} {a a' : Captures} {f : OpenFile} {fd fd' i s : ℕ}
  {pile : List ℕ} {c : CapturedStdFd}

theorem Leads.get_ne (h : Leads w f fd pile) : get w.open_.table fd ≠ none := by
  cases pile with
  | nil =>
    have hget : get w.open_.table fd = some f := h
    rw [hget]
    exact Option.some_ne_none f
  | cons i rest =>
    rw [h.1]
    exact Option.some_ne_none _

/-- What a descriptor leads through depends on it and on the duplicates of the pile. -/
theorem Leads.congr (h : Leads w f fd pile)
    (hfd : get w'.open_.table fd' = get w.open_.table fd)
    (hpile : ∀ i ∈ pile, ∀ old, w.slot (i, true) = some old →
      w'.slot (i, true) = some old ∧ get w'.open_.table old = get w.open_.table old) :
    Leads w' f fd' pile := by
  induction pile generalizing fd fd' with
  | nil => exact hfd.trans h
  | cons i rest ih =>
    obtain ⟨htop, old, hold, hrest⟩ := h
    obtain ⟨hold', hget⟩ := hpile i List.mem_cons_self old hold
    exact ⟨hfd.trans htop, old, hold',
      ih hrest hget fun j hj => hpile j (List.mem_cons_of_mem i hj)⟩

namespace Shows

theorem get_low (h : Shows orig w a) (hs : s < 3) : get w.open_.table s ≠ none :=
  (h.leads s hs).get_ne

/-- A new descriptor is none of the standard ones. -/
theorem three_le_lowest (h : Shows orig w a) : 3 ≤ lowest w.open_.table := by
  by_contra hlt
  exact h.get_low (Nat.lt_of_not_le hlt) (get_lowest _)

theorem objs_eq_none (h : Shows orig w a) : w.objs i = none ↔ a.std i = none := by
  rw [← h.std i, Option.map_eq_none_iff]

theorem obj (h : Shows orig w a) (hs : a.std i = some s) :
    ∃ c, w.objs i = some c ∧ c.std_fd_ = s := by
  rw [← h.std i] at hs
  exact Option.map_eq_some_iff.1 hs

/-- A descriptor that an object has is in use, and is none of the standard ones. -/
theorem slot_spec (h : Shows orig w a) {k : ℕ × Bool} (hk : w.slot k = some fd) :
    3 ≤ fd ∧ get w.open_.table fd ≠ none := by
  have hhigh := h.owned.high k fd hk
  exact ⟨hhigh, (h.owned.inUse fd hhigh).2 ⟨k, hk⟩⟩

/-- Where only files change, the piles stay. -/
theorem of_files (h : Shows orig w a) {files : OpenFile → Description} {text : ℕ → Str}
    {given : ℕ → Description}
    (htext : ∀ i, a.std i ≠ none → files (.temp i) = .full (text i))
    (hgiven : ∀ k, files (.given k) = given k) :
    Shows orig ⟨{ w.open_ with files := files }, w.objs⟩
      { a with text := text, given := given } where
  std := h.std
  low := h.low
  temp := h.temp
  text := htext
  given := hgiven
  owned := h.owned
  pile := h.pile
  nodup := h.nodup
  leads s hs := (h.leads s hs).congr rfl fun _ _ _ hold => ⟨hold, rfl⟩

end Shows

/-! ## One object comes, starts, stops and goes -/

theorem slot_set_old (hc : w.objs i = some c) (p : OpenFiles) (v : Option ℕ) :
    Capturing.slot ⟨p, Function.update w.objs i (some { c with old_fd_ := v })⟩
      = Function.update w.slot (i, true) v := by
  funext k
  obtain ⟨j, x⟩ := k
  by_cases hj : j = i
  · subst hj
    cases x with
    | false =>
      rw [Function.update_of_ne (by simp)]
      simp [Capturing.slot, hc]
    | true => simp [Capturing.slot]
  · rw [Function.update_of_ne (by simp [hj])]
    cases x <;> simp [Capturing.slot, Function.update_of_ne hj]

/-- A new object has the lowest descriptor for its file. -/
theorem init_cases {granted : Bool} (h : w.init i s granted = some w') :
    w'.open_.table = put w.open_.table (lowest w.open_.table) (some (.temp i)) ∧
      w'.open_.files = Function.update w.open_.files (.temp i) ⟨[], 0⟩ ∧
      w'.objs = Function.update w.objs i (some ⟨lowest w.open_.table, s, none⟩) := by
  obtain ⟨r, hr, rfl⟩ := Option.map_eq_some_iff.1 h
  unfold OpenFiles.mkstemp at hr
  split_ifs at hr
  obtain rfl := Option.some_inj.1 hr
  exact ⟨rfl, rfl, rfl⟩

theorem slot_init (hi : w.objs i = none)
    (hobjs : w'.objs = Function.update w.objs i (some ⟨fd, s, none⟩)) :
    w'.slot = Function.update w.slot (i, false) (some fd) := by
  funext k
  obtain ⟨j, x⟩ := k
  by_cases hj : j = i
  · subst hj
    cases x with
    | false => simp [Capturing.slot, hobjs]
    | true =>
      rw [Function.update_of_ne (by simp)]
      simp [Capturing.slot, hobjs, hi]
  · rw [Function.update_of_ne (by simp [hj])]
    cases x <;> simp [Capturing.slot, hobjs, Function.update_of_ne hj]

theorem slot_remove (hc : w.objs i = some c) (hold : c.old_fd_ = none) (p : OpenFiles) :
    Capturing.slot ⟨p, Function.update w.objs i none⟩ = Function.update w.slot (i, false) none := by
  funext k
  obtain ⟨j, x⟩ := k
  by_cases hj : j = i
  · subst hj
    cases x with
    | false => simp [Capturing.slot]
    | true =>
      rw [Function.update_of_ne (by simp)]
      simp [Capturing.slot, hc, hold]
  · rw [Function.update_of_ne (by simp [hj])]
    cases x <;> simp [Capturing.slot, Function.update_of_ne hj]

namespace Shows

/-- A new object has a file of its own. -/
theorem init (h : Shows orig w a) (hi : a.std i = none) (hs : s < 3) {granted : Bool}
    (hinit : w.init i s granted = some w') : Shows orig w' (a.init i s) := by
  have hobj := h.objs_eq_none.2 hi
  obtain ⟨htable, hfiles, hobjs⟩ := init_cases hinit
  have hslot := slot_init hobj hobjs
  have hnone : ∀ x, w.slot (i, x) = none := by
    intro x
    cases x <;> simp [Capturing.slot, hobj]
  have hother : ∀ k, k ≠ (i, false) → w'.slot k = w.slot k := by
    intro k hk
    rw [hslot, Function.update_of_ne hk]
  have hget : ∀ fd, get w.open_.table fd ≠ none → get w'.open_.table fd = get w.open_.table fd := by
    intro fd hfd
    rw [htable]
    refine get_put_of_ne _ ?_ _
    rintro rfl
    exact hfd (get_lowest _)
  refine ⟨fun j => ?_, fun j s' hj => ?_, fun j fd hfd => ?_, fun j hj => ?_, fun k => ?_, ?_,
    fun j s' => ?_, h.nodup, fun s' hs' => ?_⟩
  · by_cases hj : j = i
    · subst hj
      simp [hobjs, Captures.init]
    · simp [hobjs, Captures.init, Function.update_of_ne hj, h.std]
  · by_cases hji : j = i
    · subst hji
      simp only [Captures.init, Function.update_self] at hj
      obtain rfl := Option.some_inj.1 hj
      exact hs
    · exact h.low j s' ((Function.update_of_ne hji _ _).symm.trans hj)
  · by_cases hji : j = i
    · subst hji
      rw [hslot, Function.update_self] at hfd
      obtain rfl := Option.some_inj.1 hfd
      rw [htable]
      exact get_put_self _ _ _
    · rw [hother _ (by simp [hji])] at hfd
      rw [hget fd (h.slot_spec hfd).2]
      exact h.temp j fd hfd
  · rw [hfiles]
    by_cases hji : j = i
    · subst hji
      simp [Captures.init, Description.full]
    · have hj' : a.std j ≠ none := by
        rw [show (a.init i s).std j = a.std j from Function.update_of_ne hji _ _] at hj
        exact hj
      have hfile : OpenFile.temp j ≠ .temp i := fun heq => hji (OpenFile.temp.inj heq)
      simp only [Captures.init, Function.update_of_ne hji, Function.update_of_ne hfile]
      exact h.text j hj'
  · have hfile : OpenFile.given k ≠ .temp i := OpenFile.noConfusion
    rw [hfiles, Function.update_of_ne hfile]
    exact h.given k
  · rw [hslot, htable]
    exact h.owned.claim h.three_le_lowest (get_lowest _) (hnone false) _
  · rw [hother _ (by simp)]
    by_cases hji : j = i
    · subst hji
      have hno : j ∉ a.pile s' := by
        rw [h.pile, hi]
        simp
      simp [Captures.init, hno, hnone]
    · simp only [Captures.init, Function.update_of_ne hji]
      exact h.pile j s'
  · refine (h.leads s' hs').congr (hget s' (h.get_low hs')) fun j _ old hold => ⟨?_, ?_⟩
    · rw [hother _ (by simp), hold]
    · exact hget old (h.slot_spec hold).2

/-- What has to be shown when an object starts or stops: the other descriptors stay, and its
standard descriptor leads through the new pile. -/
theorem set_old (h : Shows orig w a) (hc : w.objs i = some c) {t : List (Option OpenFile)}
    {old : Option ℕ} {pile : List ℕ}
    (hget : ∀ k fd, k ≠ (i, true) → w.slot k = some fd → get t fd = get w.open_.table fd)
    (hlow : ∀ s, s < 3 → s ≠ c.std_fd_ → get t s = get w.open_.table s)
    (howned : Owned 3 t (Function.update w.slot (i, true) old))
    (hi : i ∈ pile ↔ old ≠ none) (hmem : ∀ j, j ≠ i → (j ∈ pile ↔ j ∈ a.pile c.std_fd_))
    (hnodup : pile.Nodup)
    (hleads : Leads ⟨⟨t, w.open_.files⟩, Function.update w.objs i
      (some { c with old_fd_ := old })⟩ (.given (orig c.std_fd_)) c.std_fd_ pile) :
    Shows orig ⟨⟨t, w.open_.files⟩, Function.update w.objs i (some { c with old_fd_ := old })⟩
      { a with pile := Function.update a.pile c.std_fd_ pile } := by
  have hs : a.std i = some c.std_fd_ := by
    rw [← h.std i, hc]
    rfl
  have hslot := slot_set_old hc ⟨t, w.open_.files⟩ old
  have hother : ∀ k, k ≠ (i, true) → Function.update w.slot (i, true) old k = w.slot k :=
    fun k hk => Function.update_of_ne hk _ _
  refine ⟨fun j => ?_, h.low, fun j fd hj => ?_, h.text, h.given, hslot ▸ howned, fun j s => ?_,
    fun s => ?_, fun s hs' => ?_⟩
  · by_cases hj : j = i
    · subst hj
      simp [hs]
    · simp only [Function.update_of_ne hj]
      exact h.std j
  · rw [hslot, hother _ (by simp)] at hj
    exact (hget (j, false) fd (by simp) hj).trans (h.temp j fd hj)
  · rw [hslot]
    by_cases hss : s = c.std_fd_
    · subst hss
      simp only [Function.update_self]
      by_cases hji : j = i
      · subst hji
        rw [hi, Function.update_self]
        simp [hs]
      · rw [hother _ (by simp [hji]), hmem j hji, h.pile]
    · simp only [Function.update_of_ne hss]
      rw [h.pile]
      by_cases hji : j = i
      · subst hji
        simp [hs, Ne.symm hss]
      · rw [hother _ (by simp [hji])]
  · by_cases hss : s = c.std_fd_
    · subst hss
      simp only [Function.update_self]
      exact hnodup
    · simp only [Function.update_of_ne hss]
      exact h.nodup s
  · by_cases hss : s = c.std_fd_
    · subst hss
      simp only [Function.update_self]
      exact hleads
    · simp only [Function.update_of_ne hss]
      refine (h.leads s hs').congr (hlow s hs' hss) fun j hj fd hfd => ?_
      have hji : j ≠ i := by
        rintro rfl
        exact hss (Option.some_inj.1 (hs.symm.trans ((h.pile j s).1 hj).1)).symm
      have hne : ((j, true) : ℕ × Bool) ≠ (i, true) := by simp [hji]
      rw [hslot, hother _ hne]
      exact ⟨hfd, hget _ fd hne hfd⟩

/-- An object that starts comes on top of the pile. -/
theorem push (h : Shows orig w a) (ha : a.push i = some a') :
    ∃ w', (w.method i fun c p => c.Start p true) = some w' ∧ Shows orig w' a' := by
  obtain ⟨s, hs, hpush⟩ := Option.bind_eq_some_iff.1 ha
  split_ifs at hpush with hmem
  obtain rfl := Option.some_inj.1 hpush
  obtain ⟨c, hc, rfl⟩ := h.obj hs
  have hlow := h.low i _ hs
  have hnone : w.slot (i, true) = none := by
    by_contra hne
    exact hmem ((h.pile i _).2 ⟨hs, hne⟩)
  have hfd : w.slot (i, false) = some c.fd := by simp [Capturing.slot, hc]
  obtain ⟨f, hf⟩ := Option.ne_none_iff_exists'.1 (h.get_low hlow)
  have hnew : ∀ fd, get w.open_.table fd ≠ none → fd ≠ lowest w.open_.table := by
    rintro fd huse rfl
    exact huse (get_lowest _)
  -- the duplicate, and then the file in the place of the standard descriptor
  let t :=
    put (put w.open_.table (lowest w.open_.table) (some f)) c.std_fd_ (some (OpenFile.temp i))
  have hget : ∀ fd, get w.open_.table fd ≠ none → fd ≠ c.std_fd_ →
      get t fd = get w.open_.table fd := by
    intro fd huse hne
    rw [get_put_of_ne _ hne, get_put_of_ne _ (hnew fd huse)]
  have hslot : ∀ k fd, w.slot k = some fd → get t fd = get w.open_.table fd := by
    intro k fd hk
    obtain ⟨hhigh, huse⟩ := h.slot_spec hk
    exact hget fd huse (by omega)
  have hstart : c.Start w.open_ true
      = some (⟨t, w.open_.files⟩, { c with old_fd_ := some (lowest w.open_.table) }) := by
    simp [CapturedStdFd.Start, OpenFiles.dup, OpenFiles.dup2, Descriptors.dup, Descriptors.dup2,
      openNew, hf, get_put_of_ne _ (hnew _ (h.slot_spec hfd).2), h.temp i _ hfd, t]
  refine ⟨_,
    by simp only [Capturing.method, hc, Option.bind_eq_bind, Option.bind_some, hstart]; rfl,
    h.set_old hc (fun k fd _ hk => hslot k fd hk)
      (fun s hs' hne => hget s (h.get_low hs') hne)
      ((h.owned.claim h.three_le_lowest (get_lowest _) hnone f).put_low hlow _)
      (by simp) (fun j hj => by simp [hj]) (List.nodup_cons.2 ⟨hmem, h.nodup _⟩) ?_⟩
  have hold := slot_set_old hc ⟨t, w.open_.files⟩ (some (lowest w.open_.table))
  refine ⟨get_put_self _ _ _, lowest w.open_.table, by rw [hold, Function.update_self], ?_⟩
  refine (h.leads _ hlow).congr ?_ fun j hj fd hjfd => ⟨?_, hslot _ fd hjfd⟩
  · rw [get_put_of_ne _ (Ne.symm (hnew _ (h.get_low hlow))), get_put_self, hf]
  · have hji : j ≠ i := by
      rintro rfl
      exact hmem hj
    rw [hold, Function.update_of_ne (by simp [hji]), hjfd]

/-- An object that stops goes from the top of the pile. -/
theorem pop (h : Shows orig w a) (ha : a.pop i = some a') :
    ∃ w', w.method i CapturedStdFd.Stop = some w' ∧ Shows orig w' a' := by
  obtain ⟨s, hs, hpop⟩ := Option.bind_eq_some_iff.1 ha
  obtain ⟨c, hc, rfl⟩ := h.obj hs
  have hlow := h.low i _ hs
  cases hpile : a.pile c.std_fd_ with
  | nil =>
    rw [hpile] at hpop
    cases hpop
  | cons j rest =>
    rw [hpile] at hpop
    simp only at hpop
    split_ifs at hpop with hji
    subst hji
    obtain rfl := Option.some_inj.1 hpop
    have hleads := h.leads _ hlow
    rw [hpile] at hleads
    obtain ⟨-, old, hold, hrest⟩ := hleads
    have hcold : c.old_fd_ = some old := by simpa [Capturing.slot, hc] using hold
    have hnodup := h.nodup c.std_fd_
    rw [hpile, List.nodup_cons] at hnodup
    obtain ⟨hhigh, huse⟩ := h.slot_spec hold
    obtain ⟨g, hg⟩ := Option.ne_none_iff_exists'.1 huse
    -- what was there before is put back, and its duplicate is closed
    let t := Descriptors.close (put w.open_.table c.std_fd_ (some g)) old
    have hget : ∀ fd, fd ≠ old → fd ≠ c.std_fd_ → get t fd = get w.open_.table fd := by
      intro fd hne hne'
      simp only [t, Descriptors.close]
      rw [get_put_of_ne _ hne, get_put_of_ne _ hne']
    have hslot : ∀ k fd, k ≠ (j, true) → w.slot k = some fd → get t fd = get w.open_.table fd := by
      intro k fd hk hfd
      refine hget fd ?_ ?_
      · rintro rfl
        exact hk (h.owned.private_ k _ _ hfd hold)
      · have hhigh' := (h.slot_spec hfd).1
        omega
    have hstop : c.Stop w.open_ = some (⟨t, w.open_.files⟩, { c with old_fd_ := none }) := by
      simp [CapturedStdFd.Stop, OpenFiles.dup2, OpenFiles.close, Descriptors.dup2, hcold, hg, t]
    refine ⟨_,
      by simp only [Capturing.method, hc, Option.bind_eq_bind, Option.bind_some, hstop]; rfl,
      h.set_old hc hslot (fun s hs' hne => hget s (by omega) hne)
        ((h.owned.put_low hlow _).release hold) (by simp [hnodup.1])
        (fun k hk => by rw [hpile]; simp [hk]) hnodup.2 ?_⟩
    refine hrest.congr ?_ fun k hk fd hfd => ?_
    · simp only [t, Descriptors.close]
      rw [get_put_of_ne _ (by omega), get_put_self, hg]
    · have hkj : k ≠ j := by
        rintro rfl
        exact hnodup.1 hk
      have hne : ((k, true) : ℕ × Bool) ≠ (j, true) := by simp [hkj]
      rw [slot_set_old hc, Function.update_of_ne hne]
      exact ⟨hfd, hslot _ fd hne hfd⟩

/-- An object that does not capture closes its file and goes. -/
theorem drop (h : Shows orig w a) (hc : w.objs i = some c) (hold : c.old_fd_ = none) :
    Shows orig ⟨w.open_.close c.fd, Function.update w.objs i none⟩ (a.drop i) := by
  have hfd : w.slot (i, false) = some c.fd := by simp [Capturing.slot, hc]
  have hnone : w.slot (i, true) = none := by simp [Capturing.slot, hc, hold]
  have hslot := slot_remove hc hold (w.open_.close c.fd)
  have hother : ∀ k, k ≠ (i, false) → Function.update w.slot (i, false) none k = w.slot k :=
    fun k hk => Function.update_of_ne hk _ _
  have hget : ∀ fd, fd ≠ c.fd → get (w.open_.close c.fd).table fd = get w.open_.table fd :=
    fun fd hne => get_put_of_ne _ hne _
  have hno : ∀ s, i ∉ a.pile s := by
    intro s
    rw [h.pile, hnone]
    simp
  refine ⟨fun j => ?_, fun j s hj => ?_, fun j fd hj => ?_, fun j hj => ?_, h.given,
    hslot ▸ h.owned.release hfd, fun j s => ?_, h.nodup, fun s hs => ?_⟩
  · by_cases hji : j = i
    · subst hji
      simp [Captures.drop]
    · simp only [Captures.drop, Function.update_of_ne hji]
      exact h.std j
  · by_cases hji : j = i
    · subst hji
      simp [Captures.drop] at hj
    · exact h.low j s ((Function.update_of_ne hji _ _).symm.trans hj)
  · by_cases hji : j = i
    · subst hji
      rw [hslot, Function.update_self] at hj
      cases hj
    · have hne : ((j, false) : ℕ × Bool) ≠ (i, false) := by simp [hji]
      rw [hslot, hother _ hne] at hj
      rw [hget fd]
      · exact h.temp j fd hj
      · rintro rfl
        exact hne (h.owned.private_ _ _ _ hj hfd)
  · refine h.text j ?_
    by_cases hji : j = i
    · subst hji
      simp [Captures.drop] at hj
    · simpa [Captures.drop, Function.update_of_ne hji] using hj
  · rw [hslot, hother _ (by simp)]
    by_cases hji : j = i
    · subst hji
      simp [Captures.drop, hno]
    · simp only [Captures.drop, Function.update_of_ne hji]
      exact h.pile j s
  · refine (h.leads s hs).congr (hget s ?_) fun j hj fd hjfd => ?_
    · have hhigh := (h.slot_spec hfd).1
      omega
    · rw [hslot, hother _ (by simp)]
      refine ⟨hjfd, hget fd ?_⟩
      rintro rfl
      cases h.owned.private_ _ _ _ hjfd hfd

theorem isOnPile_iff (h : Shows orig w a) : a.captures i = true ↔ w.slot (i, true) ≠ none := by
  unfold Captures.captures
  cases hs : a.std i with
  | none =>
    have hobj := h.objs_eq_none.2 hs
    simp [Capturing.slot, hobj]
  | some s =>
    simp only [List.contains_iff_mem]
    rw [h.pile, hs]
    simp

/-- The file of an object that is there. -/
theorem get_fd (h : Shows orig w a) (hc : w.objs i = some c) :
    get w.open_.table c.fd = some (.temp i) :=
  h.temp i c.fd (by simp [Capturing.slot, hc])

/-- The text of one object changes. -/
theorem set_text (h : Shows orig w a) (i : ℕ) (text : Str) (files : OpenFile → Description)
    (hi : files (.temp i) = .full text)
    (hfiles : ∀ f, f ≠ .temp i → files f = w.open_.files f) :
    Shows orig ⟨{ w.open_ with files := files }, w.objs⟩
      { a with text := Function.update a.text i text } := by
  refine h.of_files (fun j hj => ?_) fun k => (hfiles _ OpenFile.noConfusion).trans (h.given k)
  by_cases hji : j = i
  · subst hji
    rw [Function.update_self]
    exact hi
  · rw [Function.update_of_ne hji, hfiles _ fun heq => hji (OpenFile.temp.inj heq)]
    exact h.text j hj

theorem method_Stop (h : w.method i CapturedStdFd.Stop = some w') :
    ∃ c, w.objs i = some c ∧ ∃ p, c.Stop w.open_ = some (p, { c with old_fd_ := none }) ∧
      w' = ⟨p, Function.update w.objs i (some { c with old_fd_ := none })⟩ := by
  obtain ⟨c, hc, h⟩ := Option.bind_eq_some_iff.1 h
  obtain ⟨⟨p, c'⟩, hstop, h⟩ := Option.bind_eq_some_iff.1 h
  obtain ⟨old, hold, hrest⟩ := Option.bind_eq_some_iff.1 hstop
  obtain ⟨p', hdup, heq⟩ := Option.bind_eq_some_iff.1 hrest
  obtain ⟨rfl, rfl⟩ := Prod.mk.inj (Option.some_inj.1 heq)
  exact ⟨c, hc, _, hstop, (Option.some_inj.1 h).symm⟩

/-- One operation on the piles is one of the process. -/
theorem step (h : Shows orig w a) {op : CaptureOp} {r : Option Str}
    (ha : a.step orig op = some (a', r)) : ∃ w', w.step op = some (w', r) ∧ Shows orig w' a' := by
  cases op with
  | construct i s mkstemp dup =>
    simp only [Captures.step] at ha
    split_ifs at ha with hi
    obtain ⟨hnew, hlow, rfl, rfl⟩ := hi
    obtain ⟨a₁, hpush, heq⟩ := Option.map_eq_some_iff.1 ha
    obtain ⟨rfl, rfl⟩ := Prod.mk.inj heq
    obtain ⟨w₁, hinit⟩ : ∃ w₁, w.init i s true = some w₁ := ⟨_, rfl⟩
    obtain ⟨w', hw', hshows⟩ := (h.init hnew hlow hinit).push hpush
    refine ⟨w', ?_, hshows⟩
    rw [Capturing.step, if_pos (h.objs_eq_none.2 hnew), hinit, Option.bind_some, hw']
    rfl
  | Start i dup =>
    simp only [Captures.step] at ha
    split_ifs at ha with hdup
    subst hdup
    obtain ⟨a₁, hpush, heq⟩ := Option.map_eq_some_iff.1 ha
    obtain ⟨rfl, rfl⟩ := Prod.mk.inj heq
    obtain ⟨w', hw', hshows⟩ := h.push hpush
    exact ⟨w', by rw [Capturing.step, hw']; rfl, hshows⟩
  | Stop i =>
    obtain ⟨a₁, hpop, heq⟩ := Option.map_eq_some_iff.1 ha
    obtain ⟨rfl, rfl⟩ := Prod.mk.inj heq
    obtain ⟨w', hw', hshows⟩ := h.pop hpop
    exact ⟨w', by rw [Capturing.step, hw']; rfl, hshows⟩
  | Reset i =>
    simp only [Captures.step] at ha
    split_ifs at ha with hi
    obtain ⟨rfl, rfl⟩ := Prod.mk.inj (Option.some_inj.1 ha)
    obtain ⟨s, hs⟩ := Option.ne_none_iff_exists'.1 hi.1
    obtain ⟨c, hc, rfl⟩ := h.obj hs
    have hold : c.old_fd_ = none := by
      by_contra hne
      have htrue := h.isOnPile_iff.2 (show w.slot (i, true) ≠ none by simpa [Capturing.slot, hc])
      rw [hi.2] at htrue
      cases htrue
    have hfd := h.get_fd hc
    let files := Function.update (Function.update w.open_.files (.temp i)
      ⟨(w.open_.files (.temp i)).content, 0⟩) (.temp i) ⟨[], 0⟩
    refine ⟨_, ?_, h.set_text i [] files (Function.update_self _ _ _) fun f hf => ?_⟩
    · simp [Capturing.step, hc, CapturedStdFd.Reset, hold, OpenFiles.rewind, OpenFiles.truncate,
        OpenFiles.change, hfd, files]
    · exact (Function.update_of_ne hf _ _).trans (Function.update_of_ne hf _ _)
  | str i =>
    simp only [Captures.step] at ha
    split_ifs at ha with hi
    obtain ⟨rfl, rfl⟩ := Prod.mk.inj (Option.some_inj.1 ha)
    obtain ⟨s, hs⟩ := Option.ne_none_iff_exists'.1 hi
    obtain ⟨c, hc, rfl⟩ := h.obj hs
    have hfd := h.get_fd hc
    have htext := h.text i hi
    let files := Function.update (Function.update w.open_.files (.temp i)
      ⟨a.text i, 0⟩) (.temp i) (.full (a.text i))
    have hshows := h.set_text i (a.text i) files (Function.update_self _ _ _) fun f hf =>
      (Function.update_of_ne hf _ _).trans (Function.update_of_ne hf _ _)
    rw [Function.update_eq_self] at hshows
    refine ⟨_, ?_, hshows⟩
    simp [Capturing.step, hc, CapturedStdFd.str, OpenFiles.rewind, OpenFiles.ReadFdToString,
      OpenFiles.change, hfd, htext, Description.full, files]
  | destroy i =>
    simp only [Captures.step] at ha
    split_ifs at ha with hi hcap
    · obtain ⟨a₁, hpop, heq⟩ := Option.map_eq_some_iff.1 ha
      obtain ⟨rfl, rfl⟩ := Prod.mk.inj heq
      obtain ⟨w₁, hw₁, hshows⟩ := h.pop hpop
      obtain ⟨c, hc, p, hstop, rfl⟩ := method_Stop hw₁
      have hdrop := hshows.drop (Function.update_self _ _ _) rfl
      simp only [Function.update_idem] at hdrop
      have hold : c.old_fd_ ≠ none := by
        have hslot := h.isOnPile_iff.1 hcap
        simpa [Capturing.slot, hc] using hslot
      refine ⟨_, ?_, hdrop⟩
      simp [Capturing.step, hc, CapturedStdFd.destroy, hold, hstop]
    · obtain ⟨rfl, rfl⟩ := Prod.mk.inj (Option.some_inj.1 ha)
      obtain ⟨s, hs⟩ := Option.ne_none_iff_exists'.1 hi
      obtain ⟨c, hc, rfl⟩ := h.obj hs
      have hold : c.old_fd_ = none := by
        by_contra hne
        exact hcap (h.isOnPile_iff.2 (by simpa [Capturing.slot, hc]))
      refine ⟨_, ?_, h.drop hc hold⟩
      simp [Capturing.step, hc, CapturedStdFd.destroy, hold]
  | write s text =>
    simp only [Captures.step] at ha
    split_ifs at ha with hs
    have hleads := h.leads s hs
    cases hpile : a.pile s with
    | nil =>
      rw [hpile] at ha hleads
      obtain ⟨rfl, rfl⟩ := Prod.mk.inj (Option.some_inj.1 ha)
      have hget : get w.open_.table s = some (.given (orig s)) := hleads
      let files := Function.update w.open_.files (.given (orig s))
        ((a.given (orig s)).write text)
      let given := Function.update a.given (orig s) ((a.given (orig s)).write text)
      have hgiven : ∀ k, files (.given k) = given k := by
        intro k
        by_cases hk : k = orig s
        · subst hk
          simp only [files, given, Function.update_self]
        · have hfile : OpenFile.given k ≠ .given (orig s) := fun heq => hk (OpenFile.given.inj heq)
          exact ((Function.update_of_ne hfile _ _).trans (h.given k)).trans
            (Function.update_of_ne hk _ _).symm
      have hshows : Shows orig ⟨{ w.open_ with files := files }, w.objs⟩
          { a with given := given } := h.of_files (fun j hj => h.text j hj) hgiven
      refine ⟨_, ?_, hshows⟩
      simp [Capturing.step, OpenFiles.write, OpenFiles.change, hget, h.given, files]
    | cons i rest =>
      rw [hpile] at ha hleads
      obtain ⟨rfl, rfl⟩ := Prod.mk.inj (Option.some_inj.1 ha)
      have hi : a.std i ≠ none := by
        rw [((h.pile i s).1 (by rw [hpile]; exact List.mem_cons_self)).1]
        exact Option.some_ne_none s
      let files := Function.update w.open_.files (.temp i) (.full (a.text i ++ text))
      refine ⟨_, ?_, h.set_text i (a.text i ++ text) files (Function.update_self _ _ _)
        fun f hf => Function.update_of_ne hf _ _⟩
      simp [Capturing.step, OpenFiles.write, OpenFiles.change, hleads.1, h.text i hi,
        Description.write_full, files]

end Shows

/-- A process with its standard descriptors open. -/
def Capturing.start (orig : ℕ → ℕ) (given : ℕ → Description) : Capturing where
  open_ :=
    { table := [some (.given (orig 0)), some (.given (orig 1)), some (.given (orig 2))]
      files := fun
        | .given k => given k
        | .temp _ => ⟨[], 0⟩ }
  objs _ := none

def Captures.start (given : ℕ → Description) : Captures :=
  ⟨fun _ => none, fun _ => [], fun _ => [], given⟩

theorem shows_start (orig : ℕ → ℕ) (given : ℕ → Description) :
    Shows orig (.start orig given) (.start given) where
  std _ := rfl
  low i s h := by cases h
  temp i fd h := by cases h
  text i h := absurd rfl h
  given _ := rfl
  owned := by
    have hslot : ∀ k fd, (Capturing.start orig given).slot k ≠ some fd := by
      rintro ⟨i, x⟩ fd h
      cases x <;> cases h
    refine ⟨fun k _ fd h => absurd h (hslot k fd), fun k fd h => absurd h (hslot k fd),
      fun fd hfd => ?_⟩
    have hclosed : get (Capturing.start orig given).open_.table fd = none :=
      List.getD_eq_default _ _ hfd
    rw [hclosed]
    constructor
    · intro h
      exact absurd rfl h
    · rintro ⟨k, h⟩
      exact absurd h (hslot k fd)
  pile i s := by simp [Captures.start]
  nodup _ := List.nodup_nil
  leads s hs := by
    have hcases : s = 0 ∨ s = 1 ∨ s = 2 := by omega
    rcases hcases with rfl | rfl | rfl <;> rfl

end SysFs.Base
