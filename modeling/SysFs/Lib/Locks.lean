import Mathlib.Order.Preorder.Finite
import Mathlib.Order.WellFounded
import Mathlib.Data.List.Basic
import Mathlib.Data.Fintype.Basic

/-!
# Threads and locks

Each thread has a list of instructions: it acquires a lock, releases the lock that
it has acquired last, or acts.  A `Step` takes one instruction of one thread, and a
lock that some thread holds cannot be acquired.  `trace` says which thread did what,
and `ends` after which traces nothing can happen any more.

* `progress`: when every thread acquires locks in their order, the threads never
  wait for each other in a circle (`Ordered`).
* `Serial`: the actions that are done under a lock come in whole sections, one
  after the other; only the section of the thread that has the lock may be
  unfinished.  `serial_reachable` proves it for actions that are only done under
  the lock (`Guarded`).
* `acts_reachable`: a thread does its actions in its order.

`State.next` takes a step when there is one, so that a schedule can be run.
-/

namespace Locks

variable {ι κ α : Type*}

inductive Instr (κ α : Type*) where
  | acquire (l : κ)
  | release (l : κ)
  | act (a : α)
deriving DecidableEq, Repr

/-- The locks that a thread has, the last one first, and what it still has to do. -/
structure Thread (κ α : Type*) where
  held : List κ
  code : List (Instr κ α)

structure State (ι κ α : Type*) where
  threads : ι → Thread κ α
  trace : List (ι × α)

/-- No thread has the lock. -/
def State.Free (s : State ι κ α) (l : κ) : Prop := ∀ i, l ∉ (s.threads i).held

/-- Nothing has ended the threads. -/
def State.Running (ends : List (ι × α) → Bool) (s : State ι κ α) : Prop := ends s.trace = false

/-- The threads before they do anything. -/
def start (code : ι → List (Instr κ α)) : State ι κ α := ⟨fun i => ⟨[], code i⟩, []⟩

section Steps

variable [DecidableEq ι]

def State.set (s : State ι κ α) (i : ι) (t : Thread κ α) : State ι κ α :=
  { s with threads := Function.update s.threads i t }

/-- One instruction of the thread `i`. -/
inductive Step (ends : List (ι × α) → Bool) : State ι κ α → ι → State ι κ α → Prop
  | acquire {s i l held code} (hrun : s.Running ends)
      (hthread : s.threads i = ⟨held, .acquire l :: code⟩) (hfree : s.Free l) :
      Step ends s i (s.set i ⟨l :: held, code⟩)
  | release {s i l held code} (hrun : s.Running ends)
      (hthread : s.threads i = ⟨l :: held, .release l :: code⟩) :
      Step ends s i (s.set i ⟨held, code⟩)
  | act {s i a held code} (hrun : s.Running ends)
      (hthread : s.threads i = ⟨held, .act a :: code⟩) :
      Step ends s i { s.set i ⟨held, code⟩ with trace := s.trace ++ [(i, a)] }

/-- What the threads can come to. -/
inductive Reachable (ends : List (ι × α) → Bool) (code : ι → List (Instr κ α)) : State ι κ α → Prop
  | start : Reachable ends code (start code)
  | step {s i s'} (hs : Reachable ends code s) (h : Step ends s i s') : Reachable ends code s'

variable {ends : List (ι × α) → Bool} {s s' : State ι κ α} {i j : ι} {l : κ}
  {code₀ : ι → List (Instr κ α)}

@[simp] theorem threads_set_self (s : State ι κ α) (i : ι) (t : Thread κ α) :
    (s.set i t).threads i = t := by
  simp [State.set]

theorem threads_set_of_ne (t : Thread κ α) (h : j ≠ i) : (s.set i t).threads j = s.threads j := by
  simp [State.set, h]

theorem Step.running (h : Step ends s i s') : s.Running ends := by
  cases h with
  | acquire hrun _ _ => exact hrun
  | release hrun _ => exact hrun
  | act hrun _ => exact hrun

/-- A step leaves the other threads alone. -/
theorem Step.threads_of_ne (h : Step ends s i s') (hj : j ≠ i) :
    s'.threads j = s.threads j := by
  cases h with
  | acquire _ _ _ => exact threads_set_of_ne _ hj
  | release _ _ => exact threads_set_of_ne _ hj
  | act _ _ => exact threads_set_of_ne _ hj

/-- What holds of every thread at the start, and is kept by each of its
instructions, holds of every thread. -/
theorem forall_threads_reachable {I : Thread κ α → Prop} (hstart : ∀ i, I ⟨[], code₀ i⟩)
    (hacquire : ∀ held code l, I ⟨held, .acquire l :: code⟩ → I ⟨l :: held, code⟩)
    (hrelease : ∀ held code l, I ⟨l :: held, .release l :: code⟩ → I ⟨held, code⟩)
    (hact : ∀ held code a, I ⟨held, .act a :: code⟩ → I ⟨held, code⟩)
    (hs : Reachable ends code₀ s) (i : ι) : I (s.threads i) := by
  induction hs generalizing i with
  | start => exact hstart i
  | @step s j s' _ h ih =>
    by_cases hi : i = j
    · subst hi
      have hi := ih i
      cases h with
      | acquire _ hthread _ =>
        rw [hthread] at hi
        rw [threads_set_self]
        exact hacquire _ _ _ hi
      | release _ hthread =>
        rw [hthread] at hi
        rw [threads_set_self]
        exact hrelease _ _ _ hi
      | act _ hthread =>
        rw [hthread] at hi
        dsimp only
        rw [threads_set_self]
        exact hact _ _ _ hi
    · rw [h.threads_of_ne hi]
      exact ih i

section Schedule

variable [Fintype ι] [DecidableEq κ] (ends : List (ι × α) → Bool)

/-- The next instruction of the thread `i`, if it can be done. -/
def State.next (s : State ι κ α) (i : ι) : Option (State ι κ α) :=
  if ends s.trace then none
  else
    match s.threads i with
    | ⟨held, .acquire l :: code⟩ =>
      if ∀ j, l ∉ (s.threads j).held then some (s.set i ⟨l :: held, code⟩) else none
    | ⟨l' :: held, .release l :: code⟩ => if l' = l then some (s.set i ⟨held, code⟩) else none
    | ⟨held, .act a :: code⟩ =>
      some { s.set i ⟨held, code⟩ with trace := s.trace ++ [(i, a)] }
    | _ => none

theorem step_of_next (h : s.next ends i = some s') : Step ends s i s' := by
  unfold State.next at h
  split at h
  · cases h
  · rename_i hends
    have hrun : s.Running ends := eq_false_of_ne_true hends
    split at h
    · rename_i hthread
      split at h
      · rename_i hfree
        cases h
        exact .acquire hrun hthread hfree
      · cases h
    · rename_i hthread
      split at h
      · rename_i heq
        cases h
        subst heq
        exact .release hrun hthread
      · cases h
    · rename_i hthread
      cases h
      exact .act hrun hthread
    · cases h

/-- The states that some threads come to when they take steps in this order. -/
theorem reachable_of_schedule (schedule : List ι) (hs : Reachable ends code₀ s)
    (h : schedule.foldlM (State.next ends) s = some s') : Reachable ends code₀ s' := by
  induction schedule generalizing s with
  | nil =>
    cases h
    exact hs
  | cons i schedule ih =>
    rw [List.foldlM_cons] at h
    obtain ⟨s₁, hnext, hrest⟩ := Option.bind_eq_some_iff.1 h
    exact ih (hs.step (step_of_next ends hnext)) hrest

end Schedule

/-- Nothing has ended the threads before something that was done. -/
theorem running_before {x : ι × α} {trace rest : List (ι × α)} (hs : Reachable ends code₀ s)
    (htrace : s.trace = trace ++ x :: rest) : ends trace = false := by
  induction hs generalizing rest with
  | start => exact absurd htrace (by simp [start])
  | @step s i s' _ h ih =>
    have hrun := h.running
    cases h with
    | acquire _ _ _ => exact ih htrace
    | release _ _ => exact ih htrace
    | act _ _ =>
      rcases List.eq_nil_or_concat rest with rfl | ⟨rest, y, rfl⟩
      · rw [← (List.append_inj_left' htrace rfl)]
        exact hrun
      · rw [List.concat_eq_append, ← List.cons_append, ← List.append_assoc] at htrace
        exact ih (List.append_inj_left' htrace rfl)

end Steps

/-! ## Threads do not wait for each other in a circle -/

section Order

variable [Preorder κ]

/-- A thread that has the locks `held` acquires only later ones, and releases all of
them in the end. -/
def Ordered : List κ → List (Instr κ α) → Prop
  | held, [] => held = []
  | held, .acquire l :: code => (∀ h ∈ held, h < l) ∧ Ordered (l :: held) code
  | held, .release l :: code => ∃ rest, held = l :: rest ∧ Ordered rest code
  | held, .act _ :: code => Ordered held code

variable [DecidableEq ι] {ends : List (ι × α) → Bool} {s s' : State ι κ α} {i j : ι} {l : κ}
  {code₀ : ι → List (Instr κ α)}

theorem ordered_reachable (hordered : ∀ i, Ordered [] (code₀ i)) (hs : Reachable ends code₀ s)
    (i : ι) : Ordered (s.threads i).held (s.threads i).code := by
  refine forall_threads_reachable (I := fun t => Ordered t.held t.code) hordered ?_ ?_ ?_ hs i
  · exact fun held code l h => h.2
  · rintro held code l ⟨rest, heq, h⟩
    rw [List.cons.injEq] at heq
    exact heq.2 ▸ h
  · exact fun held code a h => h

/-- The locks of a thread are in their order. -/
theorem pairwise_reachable (hordered : ∀ i, Ordered [] (code₀ i)) (hs : Reachable ends code₀ s)
    (i : ι) : (s.threads i).held.Pairwise (· > ·) := by
  refine And.right (forall_threads_reachable
    (I := fun t => Ordered t.held t.code ∧ t.held.Pairwise (· > ·))
    (fun i => ⟨hordered i, List.Pairwise.nil⟩) ?_ ?_ ?_ hs i)
  · exact fun held code l h => ⟨h.1.2, List.pairwise_cons.2 ⟨h.1.1, h.2⟩⟩
  · rintro held code l ⟨⟨rest, heq, h⟩, hpairwise⟩
    rw [List.cons.injEq] at heq
    exact ⟨heq.2 ▸ h, (List.pairwise_cons.1 hpairwise).2⟩
  · exact fun held code a h => h

/-- When a thread waits for a lock, some thread can take a step. -/
theorem progress_of_waiting [WellFoundedGT κ]
    (hordered : ∀ i, Ordered (s.threads i).held (s.threads i).code) (hrun : s.Running ends)
    (l : κ) : ∀ i held code, s.threads i = ⟨held, .acquire l :: code⟩ → ∃ j s', Step ends s j s' := by
  induction l using WellFoundedGT.induction with
  | ind l ih =>
    intro i held code hthread
    by_cases hfree : s.Free l
    · exact ⟨i, _, .acquire hrun hthread hfree⟩
    · -- The thread that has the lock can go on, or waits for a later one.
      obtain ⟨j, hj⟩ := not_forall_not.1 hfree
      have hordj := hordered j
      cases hcode : s.threads j with
      | mk held' code' =>
        rw [hcode] at hj hordj
        cases code' with
        | nil =>
          rw [show held' = [] from hordj] at hj
          cases hj
        | cons instr code' =>
          cases instr with
          | acquire l' => exact ih l' (hordj.1 l hj) j held' code' hcode
          | release l' =>
            obtain ⟨rest, rfl, -⟩ := hordj
            exact ⟨j, _, .release hrun hcode⟩
          | act a => exact ⟨j, _, .act hrun hcode⟩

/-- As long as nothing has ended the threads and one of them has something to do,
some thread can take a step. -/
theorem progress [WellFoundedGT κ] (hordered : ∀ i, Ordered [] (code₀ i))
    (hs : Reachable ends code₀ s) (hrun : s.Running ends) (hi : (s.threads i).code ≠ []) :
    ∃ j s', Step ends s j s' := by
  have hord := ordered_reachable hordered hs
  have hordi := hord i
  cases hthread : s.threads i with
  | mk held code =>
    rw [hthread] at hi hordi
    cases code with
    | nil => exact absurd rfl hi
    | cons instr code =>
      cases instr with
      | acquire l => exact progress_of_waiting hord hrun l i held code hthread
      | release l =>
        obtain ⟨rest, rfl, -⟩ := hordi
        exact ⟨i, _, .release hrun hthread⟩
      | act a => exact ⟨i, _, .act hrun hthread⟩

end Order

/-! ## Sections -/

/-- The actions of a code. -/
def acts : List (Instr κ α) → List α
  | [] => []
  | .act a :: code => a :: acts code
  | .acquire _ :: code => acts code
  | .release _ :: code => acts code

/-- What a trace says that a thread did. -/
def actsBy [DecidableEq ι] (i : ι) (trace : List (ι × α)) : List α :=
  (trace.filter fun x => x.1 = i).map Prod.snd

section Sections

variable [DecidableEq κ] (l : κ) (p : α → Bool)

/-- The actions up to the release of the lock. -/
def body : List (Instr κ α) → List α
  | [] => []
  | .acquire _ :: code => body code
  | .release l' :: code => if l' = l then [] else body code
  | .act a :: code => if p a then a :: body code else body code

/-- The actions of each section of a code that has the lock. -/
def sections : List (Instr κ α) → List (List α)
  | [] => []
  | .acquire l' :: code => if l' = l then body l p code :: sections code else sections code
  | .release _ :: code => sections code
  | .act _ :: code => sections code

/-- The actions are only done by a thread that has the lock. -/
def Guarded : List κ → List (Instr κ α) → Prop
  | _, [] => True
  | held, .acquire l' :: code => Guarded (l' :: held) code
  | held, .release _ :: code => Guarded held.tail code
  | held, .act a :: code => (p a = true → l ∈ held) ∧ Guarded held code

/-- The sections of a thread that are not finished yet, when `part` was done of the
one in which the thread is. -/
def Thread.pending (t : Thread κ α) (part : List α) : List (List α) :=
  if l ∈ t.held then (part ++ body l p t.code) :: sections l p t.code else sections l p t.code

variable [DecidableEq ι]

/-- The actions under the lock are those of some whole sections (`done`), one after
the other, and of one that is unfinished (`part`, by the thread that has the lock). -/
structure Serial (code₀ : ι → List (Instr κ α)) (s : State ι κ α) (done : List (ι × List α))
    (part : List (ι × α)) : Prop where
  trace : s.trace.filter (fun x => p x.2)
    = (done.flatMap fun d => d.2.map (Prod.mk d.1)) ++ part
  owner : ∀ x ∈ part, l ∈ (s.threads x.1).held
  threads : ∀ i, sections l p (code₀ i)
    = actsBy i done ++ (s.threads i).pending l p (actsBy i part)

variable {l p} {ends : List (ι × α) → Bool} {s s' : State ι κ α} {i j : ι}
  {code₀ : ι → List (Instr κ α)} {done : List (ι × List α)} {part : List (ι × α)} {a : α}

theorem actsBy_append (i : ι) (trace trace' : List (ι × α)) :
    actsBy i (trace ++ trace') = actsBy i trace ++ actsBy i trace' := by
  rw [actsBy, List.filter_append, List.map_append]
  rfl

theorem actsBy_self (i : ι) (a : α) : actsBy i [(i, a)] = [a] := by
  simp [actsBy]

theorem actsBy_of_ne (h : j ≠ i) (a : α) : actsBy j [(i, a)] = [] := by
  simp [actsBy, h.symm]

/-- What only one thread has done. -/
theorem eq_map_actsBy (h : ∀ x ∈ part, x.1 = i) : part = (actsBy i part).map (Prod.mk i) := by
  induction part with
  | nil => rfl
  | cons x part ih =>
    have hx := h x List.mem_cons_self
    have hrest := ih fun y hy => h y (List.mem_cons_of_mem _ hy)
    rw [← List.singleton_append, actsBy_append, List.map_append, ← hrest, ← hx, actsBy_self]
    rfl

omit [DecidableEq κ] in
/-- A thread gets a lock only when it is free. -/
theorem Step.mem_held {l : κ} (h : Step ends s j s') (hl : l ∈ (s'.threads i).held) :
    l ∈ (s.threads i).held ∨ i = j ∧ s.Free l := by
  by_cases hij : i = j
  · subst hij
    cases h with
    | acquire _ hthread hfree =>
      rw [threads_set_self] at hl
      rw [hthread]
      rcases List.mem_cons.1 hl with rfl | hl
      · exact Or.inr ⟨rfl, hfree⟩
      · exact Or.inl hl
    | release _ hthread =>
      rw [threads_set_self] at hl
      rw [hthread]
      exact Or.inl (List.mem_cons_of_mem _ hl)
    | act _ hthread =>
      dsimp only at hl
      rw [threads_set_self] at hl
      rw [hthread]
      exact Or.inl hl
  · rw [h.threads_of_ne hij] at hl
    exact Or.inl hl

omit [DecidableEq κ] in
/-- Only one thread has a lock. -/
theorem exclusive_reachable (hs : Reachable ends code₀ s) :
    ∀ i j l, l ∈ (s.threads i).held → l ∈ (s.threads j).held → i = j := by
  induction hs with
  | start => exact fun _ _ _ hi => nomatch hi
  | step _ h ih =>
    intro i j l hi hj
    rcases h.mem_held hi with hi | ⟨hik, hfree⟩ <;> rcases h.mem_held hj with hj | ⟨hjk, hfree'⟩
    · exact ih i j l hi hj
    · exact absurd hi (hfree' i)
    · exact absurd hj (hfree j)
    · rw [hik, hjk]

omit [DecidableEq κ] in
/-- A thread does its actions in its order. -/
theorem acts_reachable (hs : Reachable ends code₀ s) (i : ι) :
    acts (code₀ i) = actsBy i s.trace ++ acts (s.threads i).code := by
  induction hs generalizing i with
  | start => rfl
  | @step s k s' _ h ih =>
    rw [ih]
    by_cases hik : i = k
    · subst hik
      cases h with
      | acquire _ hthread _ => rw [hthread, threads_set_self]; rfl
      | release _ hthread => rw [hthread, threads_set_self]; rfl
      | act _ hthread =>
        dsimp only
        rw [hthread, threads_set_self, actsBy_append, actsBy_self, List.append_assoc]
        rfl
    · rw [h.threads_of_ne hik]
      cases h with
      | acquire _ _ _ => rfl
      | release _ _ => rfl
      | act _ _ =>
        dsimp only
        rw [actsBy_append, actsBy_of_ne hik, List.append_nil]

/-! ### Steps that do not touch the sections -/

/-- What a thread still has to do under the lock changes only for the thread that
takes the step. -/
theorem Serial.step_of_same (hs : Serial l p code₀ s done part) (h : Step ends s i s')
    (htrace : s'.trace.filter (fun x => p x.2) = s.trace.filter (fun x => p x.2))
    (hheld : l ∈ (s'.threads i).held ↔ l ∈ (s.threads i).held)
    (hbody : body l p (s'.threads i).code = body l p (s.threads i).code)
    (hsections : sections l p (s'.threads i).code = sections l p (s.threads i).code) :
    Serial l p code₀ s' done part := by
  refine ⟨htrace.trans hs.trace, fun x hx => ?_, fun j => ?_⟩
  · by_cases hxi : x.1 = i
    · rw [hxi, hheld, ← hxi]
      exact hs.owner x hx
    · rw [h.threads_of_ne hxi]
      exact hs.owner x hx
  · by_cases hji : j = i
    · have hpending : (s'.threads i).pending l p (actsBy i part)
          = (s.threads i).pending l p (actsBy i part) := by
        unfold Thread.pending
        simp only [hheld, hbody, hsections]
      rw [hji, hpending]
      exact hs.threads i
    · rw [h.threads_of_ne hji]
      exact hs.threads j

theorem Serial.owner_eq (hs : Serial l p code₀ s done part)
    (hex : ∀ i j l, l ∈ (s.threads i).held → l ∈ (s.threads j).held → i = j)
    (hi : l ∈ (s.threads i).held) : ∀ x ∈ part, x.1 = i :=
  fun x hx => hex x.1 i l (hs.owner x hx) hi

/-- A section begins. -/
theorem Serial.acquire {held : List κ} {code : List (Instr κ α)}
    (hs : Serial l p code₀ s done part) (hthread : s.threads i = ⟨held, .acquire l :: code⟩)
    (hfree : s.Free l) : Serial l p code₀ (s.set i ⟨l :: held, code⟩) done [] := by
  have hpart : part = [] :=
    List.eq_nil_iff_forall_not_mem.2 fun x hx => hfree x.1 (hs.owner x hx)
  subst hpart
  refine ⟨hs.trace, fun x hx => (List.not_mem_nil hx).elim, fun j => ?_⟩
  rw [hs.threads j]
  congr 1
  by_cases hji : j = i
  · subst hji
    have hnot := hfree j
    rw [hthread] at hnot
    rw [threads_set_self, hthread, Thread.pending, Thread.pending, if_neg hnot,
      if_pos List.mem_cons_self, sections, if_pos rfl]
    rfl
  · rw [threads_set_of_ne _ hji]

/-- A section ends. -/
theorem Serial.release {held : List κ} {code : List (Instr κ α)}
    (hs : Serial l p code₀ s done part) (hthread : s.threads i = ⟨l :: held, .release l :: code⟩)
    (hex : ∀ i j l, l ∈ (s.threads i).held → l ∈ (s.threads j).held → i = j) (hnot : l ∉ held) :
    Serial l p code₀ (s.set i ⟨held, code⟩) (done ++ [(i, actsBy i part)]) [] := by
  have hi : l ∈ (s.threads i).held := by
    rw [hthread]
    exact List.mem_cons_self
  have hpart := eq_map_actsBy (hs.owner_eq hex hi)
  refine ⟨?_, fun x hx => (List.not_mem_nil hx).elim, fun j => ?_⟩
  · rw [List.append_nil, List.flatMap_append, List.flatMap_singleton, ← hpart]
    exact hs.trace
  · rw [hs.threads j, actsBy_append, List.append_assoc]
    congr 1
    by_cases hji : j = i
    · subst hji
      have hmem : l ∈ l :: held := List.mem_cons_self
      rw [threads_set_self, hthread, Thread.pending, Thread.pending, if_pos hmem, if_neg hnot, body,
        if_pos rfl, List.append_nil, sections, actsBy_self]
      rfl
    · have hother : l ∉ (s.threads j).held := fun hj => hji (hex j i l hj hi)
      rw [threads_set_of_ne _ hji, Thread.pending, Thread.pending, if_neg hother, if_neg hother,
        actsBy_of_ne hji]
      rfl

/-- An action under the lock. -/
theorem Serial.act {held : List κ} {code : List (Instr κ α)}
    (hs : Serial l p code₀ s done part) (hthread : s.threads i = ⟨held, .act a :: code⟩)
    (hp : p a = true) (hheld : l ∈ held) :
    Serial l p code₀ { s.set i ⟨held, code⟩ with trace := s.trace ++ [(i, a)] } done
      (part ++ [(i, a)]) := by
  refine ⟨?_, fun x hx => ?_, fun j => ?_⟩
  · have hlast : [(i, a)].filter (fun x => p x.2) = [(i, a)] :=
      List.filter_cons_of_pos (by simpa using hp)
    dsimp only
    rw [List.filter_append, hlast, hs.trace, List.append_assoc]
  · have hkeep : l ∈ (s.threads x.1).held := by
      rcases List.mem_append.1 hx with hx | hx
      · exact hs.owner x hx
      · rw [List.mem_singleton.1 hx, hthread]
        exact hheld
    by_cases hxi : x.1 = i
    · rw [hxi]
      dsimp only
      rw [threads_set_self]
      exact hheld
    · dsimp only
      rw [threads_set_of_ne _ hxi]
      exact hkeep
  · rw [hs.threads j]
    congr 1
    dsimp only
    rw [actsBy_append]
    by_cases hji : j = i
    · subst hji
      rw [threads_set_self, hthread, actsBy_self, Thread.pending, Thread.pending, if_pos hheld,
        if_pos hheld, body, if_pos hp, List.append_assoc]
      rfl
    · rw [threads_set_of_ne _ hji, actsBy_of_ne hji, List.append_nil]

/-- One step. -/
theorem Serial.step (hs : Serial l p code₀ s done part) (h : Step ends s i s')
    (hex : ∀ i j l, l ∈ (s.threads i).held → l ∈ (s.threads j).held → i = j)
    (hnodup : (s.threads i).held.Nodup)
    (hguarded : Guarded l p (s.threads i).held (s.threads i).code) :
    ∃ done' part', Serial l p code₀ s' done' part' := by
  have hstep := h
  cases h with
  | @acquire l' held code hrun hthread hfree =>
    by_cases hl : l' = l
    · subst hl
      exact ⟨done, [], hs.acquire hthread hfree⟩
    · refine ⟨done, part, hs.step_of_same hstep rfl ?_ ?_ ?_⟩
      · rw [threads_set_self, hthread, List.mem_cons]
        exact ⟨fun hmem => hmem.resolve_left (Ne.symm hl), Or.inr⟩
      · rw [threads_set_self, hthread]
        rfl
      · rw [threads_set_self, hthread, sections, if_neg hl]
  | @release l' held code hrun hthread =>
    rw [hthread] at hnodup
    by_cases hl : l' = l
    · subst hl
      exact ⟨_, [], hs.release hthread hex (List.nodup_cons.1 hnodup).1⟩
    · refine ⟨done, part, hs.step_of_same hstep rfl ?_ ?_ ?_⟩
      · rw [threads_set_self, hthread, List.mem_cons]
        exact ⟨Or.inr, fun hmem => hmem.resolve_left (Ne.symm hl)⟩
      · rw [threads_set_self, hthread, body, if_neg hl]
      · rw [threads_set_self, hthread]
        rfl
  | @act a held code hrun hthread =>
    rw [hthread] at hguarded
    cases hp : p a with
    | true => exact ⟨done, part ++ [(i, a)], hs.act hthread hp (hguarded.1 hp)⟩
    | false =>
      refine ⟨done, part, hs.step_of_same hstep ?_ ?_ ?_ ?_⟩
      · dsimp only
        rw [List.filter_append]
        simp [hp]
      · dsimp only
        rw [threads_set_self, hthread]
      · dsimp only
        rw [threads_set_self, hthread, body, hp]
        rfl
      · dsimp only
        rw [threads_set_self, hthread]
        rfl

/-- The sections that are done are the first ones of each thread, in its order.  What
was done besides belongs to the next section of the thread that has the lock. -/
theorem Serial.done_first (hs : Serial l p code₀ s done part) (i : ι) :
    actsBy i done <+: sections l p (code₀ i) :=
  ⟨_, (hs.threads i).symm⟩

theorem Serial.part_next (hs : Serial l p code₀ s done part)
    (hex : ∀ i j l, l ∈ (s.threads i).held → l ∈ (s.threads j).held → i = j) :
    part = [] ∨ ∃ i b, l ∈ (s.threads i).held ∧ part = (actsBy i part).map (Prod.mk i) ∧
      actsBy i part <+: b ∧ actsBy i done ++ [b] <+: sections l p (code₀ i) := by
  cases hpart : part with
  | nil => exact Or.inl rfl
  | cons x rest =>
    have hx : l ∈ (s.threads x.1).held := hs.owner x (hpart ▸ List.mem_cons_self)
    rw [← hpart]
    refine Or.inr ⟨x.1, actsBy x.1 part ++ body l p (s.threads x.1).code, hx,
      eq_map_actsBy (hs.owner_eq hex hx), List.prefix_append _ _,
      sections l p (s.threads x.1).code, ?_⟩
    rw [hs.threads x.1, Thread.pending, if_pos hx, List.append_assoc]
    rfl

/-- When a thread has finished, all its sections are done. -/
theorem Serial.done_eq (hs : Serial l p code₀ s done part) (hi : s.threads i = ⟨[], []⟩) :
    actsBy i done = sections l p (code₀ i) := by
  rw [hs.threads i, hi]
  simp [Thread.pending, sections]

/-- In everything that the threads can come to, the actions under the lock come in
whole sections. -/
theorem serial_reachable [Preorder κ] (hordered : ∀ i, Ordered [] (code₀ i))
    (hguarded : ∀ i, Guarded l p [] (code₀ i)) (hs : Reachable ends code₀ s) :
    ∃ done part, Serial l p code₀ s done part := by
  induction hs with
  | start =>
    exact ⟨[], [], rfl, fun x hx => (List.not_mem_nil hx).elim, fun i => rfl⟩
  | @step s i s' hs h ih =>
    obtain ⟨done, part, hserial⟩ := ih
    have hnodup : (s.threads i).held.Nodup :=
      (pairwise_reachable hordered hs i).imp fun hlt => (ne_of_lt hlt).symm
    have hguard : Guarded l p (s.threads i).held (s.threads i).code :=
      forall_threads_reachable (I := fun t => Guarded l p t.held t.code) hguarded
        (fun _ _ _ hg => hg) (fun _ _ _ hg => hg) (fun _ _ _ hg => hg.2) hs i
    exact hserial.step h (exclusive_reachable hs) hnodup hguard

end Sections

/-! ## Codes one after the other -/

section Append

variable [Preorder κ] {held : List κ} {code code' : List (Instr κ α)} {l : κ} {p : α → Bool}

omit [Preorder κ] in
theorem acts_append (code code' : List (Instr κ α)) :
    acts (code ++ code') = acts code ++ acts code' := by
  induction code with
  | nil => rfl
  | cons instr code ih => cases instr <;> simp [acts, ih]

theorem Ordered.append (h : Ordered held code) (h' : Ordered [] code') :
    Ordered held (code ++ code') := by
  induction code generalizing held with
  | nil =>
    rw [show held = [] from h]
    exact h'
  | cons instr code ih =>
    cases instr with
    | acquire l => exact ⟨h.1, ih h.2⟩
    | release l =>
      obtain ⟨rest, heq, hrest⟩ := h
      exact ⟨rest, heq, ih hrest⟩
    | act a => exact ih h

theorem Guarded.append (hg : Guarded l p held code) (h : Ordered held code)
    (hg' : Guarded l p [] code') : Guarded l p held (code ++ code') := by
  induction code generalizing held with
  | nil =>
    rw [show held = [] from h]
    exact hg'
  | cons instr code ih =>
    cases instr with
    | acquire l => exact ih hg h.2
    | release l =>
      obtain ⟨rest, rfl, hrest⟩ := h
      exact ih hg hrest
    | act a => exact ⟨hg.1, ih hg.2 h⟩

variable [DecidableEq κ]

/-- A section of the first code ends in the first code. -/
theorem body_append (h : Ordered held code) (hl : l ∈ held) (code' : List (Instr κ α)) :
    body l p (code ++ code') = body l p code := by
  induction code generalizing held with
  | nil =>
    rw [show held = [] from h] at hl
    cases hl
  | cons instr code ih =>
    cases instr with
    | acquire l' => exact ih h.2 (List.mem_cons_of_mem _ hl)
    | release l' =>
      obtain ⟨rest, rfl, hrest⟩ := h
      rw [List.cons_append, body, body]
      by_cases hl' : l' = l
      · rw [if_pos hl', if_pos hl']
      · rw [if_neg hl', if_neg hl']
        exact ih hrest ((List.mem_cons.1 hl).resolve_left (Ne.symm hl'))
    | act a =>
      rw [List.cons_append, body, body, ih h hl]

theorem sections_append (h : Ordered held code) (code' : List (Instr κ α)) :
    sections l p (code ++ code') = sections l p code ++ sections l p code' := by
  induction code generalizing held with
  | nil => rfl
  | cons instr code ih =>
    cases instr with
    | acquire l' =>
      rw [List.cons_append, sections, sections]
      by_cases hl' : l' = l
      · subst hl'
        rw [if_pos rfl, if_pos rfl, body_append h.2 List.mem_cons_self, ih h.2, List.cons_append]
      · rw [if_neg hl', if_neg hl']
        exact ih h.2
    | release l' =>
      obtain ⟨rest, -, hrest⟩ := h
      exact ih hrest
    | act a => exact ih h

end Append

end Locks
