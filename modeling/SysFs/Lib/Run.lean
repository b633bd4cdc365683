import Mathlib.Logic.Basic
import Mathlib.Data.List.Basic

/-!
# Runs of a deterministic machine

A machine is a step function: in a state, an operation gives the next state.
A run is a list of operations.  `runs step s ops` is the state after the run,
and `Along step C s ops` says that every operation of the run meets the
condition `C` in the state it starts from.

A register is a part of the state that some operations overwrite and the others
leave alone.  After a run it holds what the last write put there (`LastWrite`),
or what it held before.

`inv_of_along` is the induction that every statement about a run is proved
with: what holds at the start and is kept by every step that meets the
condition holds at the end.  `results_simulate` carries a run of one machine
over to another that does the same step by step.
-/

namespace Run

variable {σ Op : Type*} (step : σ → Op → σ)

/-- The state after a run. -/
def runs (s : σ) (ops : List Op) : σ := ops.foldl step s

@[simp] theorem runs_nil (s : σ) : runs step s [] = s := rfl

@[simp] theorem runs_cons (s : σ) (o : Op) (ops : List Op) :
    runs step s (o :: ops) = runs step (step s o) ops := rfl

theorem runs_append (s : σ) (ops ops' : List Op) :
    runs step s (ops ++ ops') = runs step (runs step s ops) ops' :=
  List.foldl_append

/-- Every operation of the run meets the condition where it starts. -/
def Along (C : σ → Op → Prop) : σ → List Op → Prop
  | _, [] => True
  | s, o :: ops => C s o ∧ Along C (step s o) ops

variable {step} {C : σ → Op → Prop} {I : σ → Prop}

/-- A condition that holds of every state and operation holds along every
run. -/
theorem along_of_forall (h : ∀ s o, C s o) (s : σ) (ops : List Op) :
    Along step C s ops := by
  induction ops generalizing s with
  | nil => trivial
  | cons o ops ih => exact ⟨h s o, ih _⟩

/-- A condition that holds of every operation of the run, in any state, holds
along it. -/
theorem along_of_mem {s : σ} {ops : List Op} (h : ∀ o ∈ ops, ∀ s, C s o) :
    Along step C s ops := by
  induction ops generalizing s with
  | nil => trivial
  | cons o ops ih =>
    exact ⟨h o List.mem_cons_self s, ih fun o' ho' => h o' (List.mem_cons_of_mem _ ho')⟩

/-- Two conditions along a run are one. -/
theorem along_and {D : σ → Op → Prop} {s : σ} {ops : List Op} (h : Along step C s ops)
    (h' : Along step D s ops) : Along step (fun s o => C s o ∧ D s o) s ops := by
  induction ops generalizing s with
  | nil => trivial
  | cons o ops ih => exact ⟨⟨h.1, h'.1⟩, ih h.2 h'.2⟩

/-- Every operation of a run starts where a beginning of the run ends. -/
theorem along_visited (step : σ → Op → σ) (s : σ) (ops : List Op) :
    Along step (fun s' _ => ∃ before, before <+: ops ∧ runs step s before = s') s ops := by
  have hall : ∀ (before ops : List Op),
      Along step (fun s' _ => ∃ b, b <+: before ++ ops ∧ runs step s b = s')
        (runs step s before) ops := by
    intro before ops
    induction ops generalizing before with
    | nil => trivial
    | cons o ops ih =>
      refine ⟨⟨before, List.prefix_append _ _, rfl⟩, ?_⟩
      have hnext := ih (before ++ [o])
      rwa [runs_append, List.append_assoc] at hnext
  exact hall [] ops

/-- What every step that meets the condition keeps is kept by the run. -/
theorem inv_of_along (hstep : ∀ s o, I s → C s o → I (step s o)) {s : σ}
    {ops : List Op} (h0 : I s) (h : Along step C s ops) :
    I (runs step s ops) := by
  induction ops generalizing s with
  | nil => exact h0
  | cons o ops ih => exact ih (hstep s o h0 h.1) h.2

/-- What every step keeps is kept by every run. -/
theorem inv_of_step (hstep : ∀ s o, I s → I (step s o)) {s : σ}
    (h0 : I s) (ops : List Op) : I (runs step s ops) :=
  inv_of_along (C := fun _ _ => True) (fun s o h _ => hstep s o h) h0
    (along_of_forall (fun _ _ => trivial) s ops)

/-! ## Registers -/

variable {β : Type*} {field : σ → β} {writes : σ → Op → Option β}

/-- The last operation of the run that writes the register writes `b`. -/
def LastWrite (step : σ → Op → σ) (writes : σ → Op → Option β) (s : σ) (ops : List Op) (b : β) :
    Prop :=
  ∃ before o after, ops = before ++ o :: after ∧ writes (runs step s before) o = some b ∧
    Along step (fun s o => writes s o = none) (runs step s (before ++ [o])) after

/-- A run that does not write the register leaves it. -/
theorem field_runs_of_along (hfield : ∀ s o, field (step s o) = (writes s o).getD (field s)) {s : σ}
    {ops : List Op} (h : Along step (fun s o => writes s o = none) s ops) :
    field (runs step s ops) = field s := by
  induction ops generalizing s with
  | nil => rfl
  | cons o ops ih =>
    rw [runs_cons, ih h.2, hfield, h.1]
    rfl

/-- After a run the register holds the last write. -/
theorem field_runs_of_lastWrite
    (hfield : ∀ s o, field (step s o) = (writes s o).getD (field s)) {s : σ} {ops : List Op} {b : β}
    (h : LastWrite step writes s ops b) : field (runs step s ops) = b := by
  obtain ⟨before, o, after, rfl, hwrite, hafter⟩ := h
  have hsplit : before ++ o :: after = before ++ [o] ++ after := by simp
  rw [hsplit, runs_append, field_runs_of_along hfield hafter, runs_append, runs_cons, runs_nil,
    hfield, hwrite]
  rfl

/-- Either the register is not written, or some write is the last one. -/
theorem along_or_lastWrite (step : σ → Op → σ) (writes : σ → Op → Option β) (s : σ)
    (ops : List Op) :
    Along step (fun s o => writes s o = none) s ops ∨ ∃ b, LastWrite step writes s ops b := by
  induction ops generalizing s with
  | nil => exact Or.inl trivial
  | cons o ops ih =>
    rcases ih (step s o) with hnone | ⟨b, before, o', after, rfl, hwrite, hafter⟩
    · cases hwrite : writes s o with
      | none => exact Or.inl ⟨hwrite, hnone⟩
      | some b => exact Or.inr ⟨b, [], o, ops, rfl, hwrite, hnone⟩
    · exact Or.inr ⟨b, o :: before, o', after, rfl, hwrite, hafter⟩

/-! ## Machines with results -/

variable {τ : Type*}

/-- A run of a machine whose operations give results and may fail: the state after the run, and
what each operation gave. -/
def results (step : σ → Op → Option (σ × β)) : σ → List Op → Option (σ × List β)
  | s, [] => some (s, [])
  | s, o :: ops =>
    (step s o).bind fun r => (results step r.1 ops).map fun r' => (r'.1, r.2 :: r'.2)

/-- A machine does what another one does along every run of that other one, if it does so
step by step. -/
theorem results_simulate {step : σ → Op → Option (σ × β)} {spec : τ → Op → Option (τ × β)}
    {R : σ → τ → Prop}
    (hstep : ∀ s t o t' b, R s t → spec t o = some (t', b) →
      ∃ s', step s o = some (s', b) ∧ R s' t')
    {s : σ} {t t' : τ} {ops : List Op} {bs : List β} (h : R s t)
    (hrun : results spec t ops = some (t', bs)) :
    ∃ s', results step s ops = some (s', bs) ∧ R s' t' := by
  induction ops generalizing s t bs with
  | nil =>
    obtain ⟨rfl, rfl⟩ := Prod.mk.inj (Option.some_inj.1 hrun)
    exact ⟨s, rfl, h⟩
  | cons o ops ih =>
    obtain ⟨⟨t₁, b⟩, hspec, hrest⟩ := Option.bind_eq_some_iff.1 hrun
    obtain ⟨⟨t₂, bs'⟩, hrun', heq⟩ := Option.map_eq_some_iff.1 hrest
    obtain ⟨rfl, rfl⟩ := Prod.mk.inj heq
    obtain ⟨s₁, hs₁, hR⟩ := hstep s t o t₁ b h hspec
    obtain ⟨s₂, hs₂, hR'⟩ := ih hR hrun'
    exact ⟨s₂, by rw [results, hs₁, Option.bind_some, hs₂]; rfl, hR'⟩

end Run
