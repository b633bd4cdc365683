import Mathlib.Data.Finset.Basic
import Mathlib.Data.Finset.Lattice.Lemmas
import SysFs.Lib.Run

/-!
# Handles and their owners

A handle is something that is opened once and has to be closed once, such as a
descriptor.  A `Table` says which handles are open, and which were closed although
they were not open.

`Holdings` adds who has to close a handle: an owner, the program itself (`loose`),
or something outside that the program must leave alone.  The operations are those
from which owning objects are built:

* `drop`: an owner closes what it holds.
* `take`: an owner gives its handle to the program.
* `put`: an owner that holds nothing takes a handle of the program.
* `acquire`, `discard`: the program opens or closes a handle itself.

`Sound` is the invariant: every open handle has exactly one that has to close it,
and nothing was closed that was not open.  Every operation keeps it.
-/

namespace Handles

variable {α : Type*} [DecidableEq α]

/-! ## Tables -/

/-- What happens to a handle. -/
inductive Event (α : Type*) where
  | opened (a : α)
  | closed (a : α)
deriving DecidableEq, Repr

/-- The open handles, and those that were closed although they were not open. -/
structure Table (α : Type*) where
  live : Finset α
  misused : List α

/-- The table after an event. -/
def Table.apply (t : Table α) : Event α → Table α
  | .opened a => ⟨insert a t.live, t.misused⟩
  | .closed a => if a ∈ t.live then ⟨t.live.erase a, t.misused⟩ else ⟨t.live, a :: t.misused⟩

/-- The table after some events. -/
def Table.after (t : Table α) (events : List (Event α)) : Table α := Run.runs Table.apply t events

variable {t : Table α} {a : α} {events events' : List (Event α)}

@[simp] theorem after_nil (t : Table α) : t.after [] = t := rfl

@[simp] theorem after_cons (t : Table α) (e : Event α) (events : List (Event α)) :
    t.after (e :: events) = (t.apply e).after events := rfl

theorem after_append (t : Table α) (events events' : List (Event α)) :
    t.after (events ++ events') = (t.after events).after events' :=
  Run.runs_append _ _ _ _

theorem apply_closed (h : a ∈ t.live) : t.apply (.closed a) = ⟨t.live.erase a, t.misused⟩ :=
  if_pos h

theorem apply_closed_of_notMem (h : a ∉ t.live) :
    t.apply (.closed a) = ⟨t.live, a :: t.misused⟩ := if_neg h

theorem Table.live_closed_subset (t : Table α) (a : α) : (t.apply (.closed a)).live ⊆ t.live := by
  by_cases h : a ∈ t.live
  · rw [apply_closed h]
    exact Finset.erase_subset a t.live
  · rw [apply_closed_of_notMem h]

/-- New handles that are opened. -/
theorem after_opened (t : Table α) (as : List α) :
    t.after (as.map .opened) = ⟨t.live ∪ as.toFinset, t.misused⟩ := by
  induction as generalizing t with
  | nil => rw [List.toFinset_nil, Finset.union_empty]; rfl
  | cons a as ih =>
    rw [List.map_cons, after_cons, ih, List.toFinset_cons, Finset.union_insert]
    show Table.mk (insert a t.live ∪ as.toFinset) t.misused = _
    congr 1
    exact Finset.insert_union a t.live as.toFinset

/-- Different open handles that are closed. -/
theorem after_closed {as : List α} (hnodup : as.Nodup) (h : ∀ a ∈ as, a ∈ t.live) :
    t.after (as.map .closed) = ⟨t.live \ as.toFinset, t.misused⟩ := by
  induction as generalizing t with
  | nil => simp
  | cons a as ih =>
    have ha := h a List.mem_cons_self
    have hrest : ∀ b ∈ as, b ∈ t.live.erase a := by
      intro b hb
      refine Finset.mem_erase.2 ⟨?_, h b (List.mem_cons_of_mem _ hb)⟩
      rintro rfl
      exact (List.nodup_cons.1 hnodup).1 hb
    rw [List.map_cons, after_cons, apply_closed ha, ih (List.nodup_cons.1 hnodup).2 hrest,
      List.toFinset_cons]
    show Table.mk (t.live.erase a \ as.toFinset) t.misused = _
    rw [Finset.erase_sdiff_comm, Finset.sdiff_insert]

/-! ## Holdings -/

/-- A table, what each owner holds, and the handles that the program itself has to
close. -/
structure Holdings (ι α : Type*) extends Table α where
  slot : ι → Option α
  loose : Finset α

variable {ι : Type*}

namespace Holdings

/-- What happens to a handle in the table. -/
def event (h : Holdings ι α) (e : Event α) : Holdings ι α := { h with toTable := h.toTable.apply e }

/-- The program opens a handle. -/
def acquire (h : Holdings ι α) (a : α) : Holdings ι α :=
  { h.event (.opened a) with loose := insert a h.loose }

/-- The program closes a handle. -/
def discard (h : Holdings ι α) (a : α) : Holdings ι α :=
  { h.event (.closed a) with loose := h.loose.erase a }

/-- Every open handle has exactly one that has to close it: an owner, the program,
or something else (`others`).  Nothing was closed that was not open. -/
structure Sound (others : Finset α) (h : Holdings ι α) : Prop where
  slot_inj : ∀ i j a, h.slot i = some a → h.slot j = some a → i = j
  slot_live : ∀ i a, h.slot i = some a → a ∈ h.live ∧ a ∉ h.loose ∧ a ∉ others
  loose_live : ∀ a ∈ h.loose, a ∈ h.live ∧ a ∉ others
  others_live : ∀ a ∈ others, a ∈ h.live
  held : ∀ a ∈ h.live, a ∈ h.loose ∨ a ∈ others ∨ ∃ i, h.slot i = some a
  unused : h.misused = []

variable {others : Finset α} {h : Holdings ι α} {i j : ι} {a : α}

theorem discard_eq (hlive : a ∈ h.live) :
    h.discard a = ⟨⟨h.live.erase a, h.misused⟩, h.slot, h.loose.erase a⟩ := by
  unfold discard event
  rw [apply_closed hlive]

namespace Sound

/-- A new handle. -/
theorem acquire (hs : h.Sound others) (ha : a ∉ h.live) : (h.acquire a).Sound others := by
  constructor
  · exact hs.slot_inj
  · intro j b hj
    obtain ⟨hb, hb', hb''⟩ := hs.slot_live j b hj
    refine ⟨Finset.mem_insert_of_mem hb, fun hmem => ?_, hb''⟩
    rcases Finset.mem_insert.1 hmem with rfl | hmem
    · exact ha hb
    · exact hb' hmem
  · intro b hb
    rcases Finset.mem_insert.1 hb with rfl | hb
    · exact ⟨Finset.mem_insert_self b _, fun ho => ha (hs.others_live b ho)⟩
    · exact ⟨Finset.mem_insert_of_mem (hs.loose_live b hb).1, (hs.loose_live b hb).2⟩
  · intro b hb
    exact Finset.mem_insert_of_mem (hs.others_live b hb)
  · intro b hb
    rcases Finset.mem_insert.1 hb with rfl | hb
    · exact Or.inl (Finset.mem_insert_self b _)
    · rcases hs.held b hb with hl | hr
      · exact Or.inl (Finset.mem_insert_of_mem hl)
      · exact Or.inr hr
  · exact hs.unused

/-- A handle that the program closes. -/
theorem discard (hs : h.Sound others) (ha : a ∈ h.loose) : (h.discard a).Sound others := by
  obtain ⟨hlive, hothers⟩ := hs.loose_live a ha
  have hkeep : ∀ b, b ∈ h.live → b ≠ a → b ∈ h.live.erase a :=
    fun b hb hba => Finset.mem_erase.2 ⟨hba, hb⟩
  rw [discard_eq hlive]
  constructor
  · exact hs.slot_inj
  · intro j b hj
    obtain ⟨hb, hb', hb''⟩ := hs.slot_live j b hj
    refine ⟨hkeep b hb fun hba => hb' (hba ▸ ha), fun hmem => ?_, hb''⟩
    exact hb' (Finset.mem_of_mem_erase hmem)
  · intro b hb
    obtain ⟨hba, hb⟩ := Finset.mem_erase.1 hb
    exact ⟨hkeep b (hs.loose_live b hb).1 hba, (hs.loose_live b hb).2⟩
  · intro b hb
    exact hkeep b (hs.others_live b hb) fun hba => hothers (hba ▸ hb)
  · intro b hb
    obtain ⟨hba, hb⟩ := Finset.mem_erase.1 hb
    rcases hs.held b hb with hl | hr
    · exact Or.inl (Finset.mem_erase.2 ⟨hba, hl⟩)
    · exact Or.inr hr
  · exact hs.unused

/-- When no owner holds anything, what is open belongs to the program or to
something else. -/
theorem live_eq (hs : h.Sound others) (hslots : ∀ i, h.slot i = none) :
    h.live = h.loose ∪ others := by
  ext a
  rw [Finset.mem_union]
  constructor
  · intro ha
    rcases hs.held a ha with hl | ho | ⟨i, hi⟩
    · exact Or.inl hl
    · exact Or.inr ho
    · rw [hslots i] at hi
      cases hi
  · rintro (hl | ho)
    · exact (hs.loose_live a hl).1
    · exact hs.others_live a ho

end Sound

/-! ## What owners do -/

variable [DecidableEq ι]

/-- The owner closes what it holds. -/
def drop (h : Holdings ι α) (i : ι) : Holdings ι α :=
  match h.slot i with
  | none => h
  | some a => { h.event (.closed a) with slot := Function.update h.slot i none }

/-- The owner gives its handle to the program. -/
def take (h : Holdings ι α) (i : ι) : Holdings ι α :=
  match h.slot i with
  | none => h
  | some a => { h with slot := Function.update h.slot i none, loose := insert a h.loose }

/-- The owner takes a handle of the program. -/
def put (h : Holdings ι α) (i : ι) (a : α) : Holdings ι α :=
  { h with slot := Function.update h.slot i (some a), loose := h.loose.erase a }

theorem drop_of_none (hslot : h.slot i = none) : h.drop i = h := by
  unfold drop
  rw [hslot]

theorem drop_eq (hslot : h.slot i = some a) (hlive : a ∈ h.live) :
    h.drop i = ⟨⟨h.live.erase a, h.misused⟩, Function.update h.slot i none, h.loose⟩ := by
  unfold drop event
  rw [hslot]
  dsimp only
  rw [apply_closed hlive]

theorem take_of_none (hslot : h.slot i = none) : h.take i = h := by
  unfold take
  rw [hslot]

theorem take_eq (hslot : h.slot i = some a) :
    h.take i = ⟨h.toTable, Function.update h.slot i none, insert a h.loose⟩ := by
  unfold take
  rw [hslot]

@[simp] theorem slot_drop (h : Holdings ι α) (i : ι) :
    (h.drop i).slot = Function.update h.slot i none := by
  unfold drop
  split
  · rename_i hnone
    rw [← hnone, Function.update_eq_self]
  · rfl

@[simp] theorem loose_drop (h : Holdings ι α) (i : ι) : (h.drop i).loose = h.loose := by
  unfold drop
  split <;> rfl

theorem live_drop_subset (h : Holdings ι α) (i : ι) : (h.drop i).live ⊆ h.live := by
  unfold drop
  split
  · exact Finset.Subset.refl _
  · exact Table.live_closed_subset _ _

@[simp] theorem toTable_take (h : Holdings ι α) (i : ι) : (h.take i).toTable = h.toTable := by
  unfold take
  split <;> rfl

omit [DecidableEq α] in
/-- After an owner has lost its handle, the others hold what they held. -/
theorem slot_of_update_none {slot : ι → Option α} {b : α}
    (hj : Function.update slot i none j = some b) : j ≠ i ∧ slot j = some b := by
  by_cases hji : j = i
  · rw [hji, Function.update_self] at hj
    cases hj
  · rw [Function.update_of_ne hji] at hj
    exact ⟨hji, hj⟩

namespace Sound

/-- An owner that closes its handle. -/
theorem drop (hs : h.Sound others) (i : ι) : (h.drop i).Sound others := by
  cases hslot : h.slot i with
  | none =>
    rw [drop_of_none hslot]
    exact hs
  | some a =>
    obtain ⟨hlive, hloose, hothers⟩ := hs.slot_live i a hslot
    have hkeep : ∀ b, b ∈ h.live → b ≠ a → b ∈ h.live.erase a :=
      fun b hb hba => Finset.mem_erase.2 ⟨hba, hb⟩
    rw [drop_eq hslot hlive]
    constructor
    · intro j k b hj hk
      exact hs.slot_inj j k b (slot_of_update_none hj).2 (slot_of_update_none hk).2
    · intro j b hj
      obtain ⟨hji, hslotj⟩ := slot_of_update_none hj
      obtain ⟨hb, hfree⟩ := hs.slot_live j b hslotj
      refine ⟨hkeep b hb fun hba => ?_, hfree⟩
      exact hji (hs.slot_inj j i a (hba ▸ hslotj) hslot)
    · intro b hb
      obtain ⟨hlive', hfree⟩ := hs.loose_live b hb
      exact ⟨hkeep b hlive' fun hba => hloose (hba ▸ hb), hfree⟩
    · intro b hb
      exact hkeep b (hs.others_live b hb) fun hba => hothers (hba ▸ hb)
    · intro b hb
      obtain ⟨hba, hlive'⟩ := Finset.mem_erase.1 hb
      rcases hs.held b hlive' with hl | ho | ⟨j, hj⟩
      · exact Or.inl hl
      · exact Or.inr (Or.inl ho)
      · refine Or.inr (Or.inr ⟨j, ?_⟩)
        have hji : j ≠ i := by
          intro hji
          rw [hji, hslot] at hj
          exact hba (Option.some.inj hj).symm
        exact (Function.update_of_ne hji _ _).trans hj
    · exact hs.unused

/-- An owner that gives its handle away. -/
theorem take (hs : h.Sound others) (i : ι) : (h.take i).Sound others := by
  cases hslot : h.slot i with
  | none =>
    rw [take_of_none hslot]
    exact hs
  | some a =>
    obtain ⟨hlive, hloose, hothers⟩ := hs.slot_live i a hslot
    rw [take_eq hslot]
    constructor
    · intro j k b hj hk
      exact hs.slot_inj j k b (slot_of_update_none hj).2 (slot_of_update_none hk).2
    · intro j b hj
      obtain ⟨hji, hslotj⟩ := slot_of_update_none hj
      obtain ⟨hb, hfree, hfree'⟩ := hs.slot_live j b hslotj
      refine ⟨hb, fun hmem => ?_, hfree'⟩
      rcases Finset.mem_insert.1 hmem with hba | hmem
      · exact hji (hs.slot_inj j i a (hba ▸ hslotj) hslot)
      · exact hfree hmem
    · intro b hb
      rcases Finset.mem_insert.1 hb with rfl | hb
      · exact ⟨hlive, hothers⟩
      · exact hs.loose_live b hb
    · exact hs.others_live
    · intro b hb
      rcases hs.held b hb with hl | ho | ⟨j, hj⟩
      · exact Or.inl (Finset.mem_insert_of_mem hl)
      · exact Or.inr (Or.inl ho)
      · by_cases hji : j = i
        · rw [hji, hslot] at hj
          rw [← Option.some.inj hj]
          exact Or.inl (Finset.mem_insert_self a _)
        · exact Or.inr (Or.inr ⟨j, (Function.update_of_ne hji _ _).trans hj⟩)
    · exact hs.unused

/-- An owner that holds nothing, and takes a handle. -/
theorem put (hs : h.Sound others) (hslot : h.slot i = none) (ha : a ∈ h.loose) :
    (h.put i a).Sound others := by
  obtain ⟨hlive, hothers⟩ := hs.loose_live a ha
  have hcases : ∀ j b, (h.put i a).slot j = some b →
      j = i ∧ b = a ∨ j ≠ i ∧ h.slot j = some b := by
    intro j b hj
    by_cases hji : j = i
    · rw [Holdings.put, hji] at hj
      dsimp only at hj
      rw [Function.update_self] at hj
      exact Or.inl ⟨hji, (Option.some.inj hj).symm⟩
    · rw [Holdings.put] at hj
      dsimp only at hj
      rw [Function.update_of_ne hji] at hj
      exact Or.inr ⟨hji, hj⟩
  have hfree : ∀ j, h.slot j ≠ some a := fun j hj => (hs.slot_live j a hj).2.1 ha
  constructor
  · intro j k b hj hk
    rcases hcases j b hj with ⟨hji, hba⟩ | ⟨hji, hslotj⟩
    · rcases hcases k b hk with ⟨hki, -⟩ | ⟨-, hslotk⟩
      · rw [hji, hki]
      · exact absurd (hba ▸ hslotk) (hfree k)
    · rcases hcases k b hk with ⟨-, hba⟩ | ⟨-, hslotk⟩
      · exact absurd (hba ▸ hslotj) (hfree j)
      · exact hs.slot_inj j k b hslotj hslotk
  · intro j b hj
    rcases hcases j b hj with ⟨-, rfl⟩ | ⟨-, hslotj⟩
    · exact ⟨hlive, Finset.notMem_erase b _, hothers⟩
    · obtain ⟨hb, hb', hb''⟩ := hs.slot_live j b hslotj
      exact ⟨hb, fun hmem => hb' (Finset.mem_of_mem_erase hmem), hb''⟩
  · intro b hb
    exact hs.loose_live b (Finset.mem_of_mem_erase hb)
  · exact hs.others_live
  · intro b hb
    rcases hs.held b hb with hl | ho | ⟨j, hj⟩
    · by_cases hba : b = a
      · rw [hba]
        exact Or.inr (Or.inr ⟨i, Function.update_self i _ _⟩)
      · exact Or.inl (Finset.mem_erase.2 ⟨hba, hl⟩)
    · exact Or.inr (Or.inl ho)
    · have hji : j ≠ i := by
        rintro rfl
        rw [hslot] at hj
        cases hj
      exact Or.inr (Or.inr ⟨j, (Function.update_of_ne hji _ _).trans hj⟩)
  · exact hs.unused

end Sound

end Holdings

end Handles
