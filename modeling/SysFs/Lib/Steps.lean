import Mathlib.Data.Nat.Notation
import Mathlib.Logic.Basic

/-!
# Runs of a step relation

A system in which several things may happen next is a relation `step` between states.
`Runs step s n t` says that some `n` steps lead from `s` to `t`.

`inv_of_runs` is the induction over a run: what every step keeps holds at its end.  A
measure that every step lowers bounds the length of every run (`length_of_runs`), and
every run can be continued to a state without a next step (`exists_stuck`).
-/

namespace Steps

variable {σ : Type*} (step : σ → σ → Prop)

/-- Some `n` steps lead from one state to another. -/
inductive Runs (s : σ) : ℕ → σ → Prop
  | refl : Runs s 0 s
  | tail {n : ℕ} {t u : σ} (h : Runs s n t) (hstep : step t u) : Runs s (n + 1) u

/-- No step is possible. -/
def Stuck (s : σ) : Prop := ∀ t, ¬ step s t

variable {step} {I : σ → Prop} {s t u : σ} {n m : ℕ}

theorem Runs.trans (h : Runs step s n t) (h' : Runs step t m u) : Runs step s (n + m) u := by
  induction h' with
  | refl => exact h
  | tail h' hstep ih => exact .tail ih hstep

/-- What every step keeps is kept by a run. -/
theorem inv_of_runs (hstep : ∀ s t, I s → step s t → I t) (hs : I s) (h : Runs step s n t) :
    I t := by
  induction h with
  | refl => exact hs
  | tail h hlast ih => exact hstep _ _ ih hlast

variable {μ : σ → ℕ}

/-- A measure that every step lowers bounds the length of a run. -/
theorem length_of_runs (hstep : ∀ s t, I s → step s t → I t)
    (hμ : ∀ s t, I s → step s t → μ t < μ s) (hs : I s) (h : Runs step s n t) :
    n + μ t ≤ μ s := by
  induction h with
  | refl => omega
  | tail h hlast ih =>
    have hlower := hμ _ _ (inv_of_runs hstep hs h) hlast
    omega

/-- Under such a measure every state has a run to one in which nothing can happen. -/
theorem exists_stuck (hstep : ∀ s t, I s → step s t → I t)
    (hμ : ∀ s t, I s → step s t → μ t < μ s) (hs : I s) :
    ∃ n t, Runs step s n t ∧ Stuck step t := by
  induction hm : μ s using Nat.strongRecOn generalizing s with
  | ind m ih =>
    by_cases hstuck : Stuck step s
    · exact ⟨0, s, .refl, hstuck⟩
    · obtain ⟨t, ht⟩ := not_forall_not.1 hstuck
      obtain ⟨n, u, hrun, hu⟩ := ih (μ t) (hm ▸ hμ s t hs ht) (hstep s t hs ht) rfl
      exact ⟨0 + 1 + n, u, (Runs.tail .refl ht).trans hrun, hu⟩

end Steps
