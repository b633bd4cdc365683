import Mathlib.Data.List.GetD
import Mathlib.Data.Nat.Notation
import Mathlib.Logic.Function.Basic
import Mathlib.Tactic.Common

/-!
# A table of descriptors

The descriptors of a process, with what each is open for.  A new descriptor is the lowest
that is not in use.  `dup` and `dup2` make a second descriptor for the same thing.

The descriptors below `n` belong to everyone.  `Owned` says that those from `n` on are in use
exactly when an owner has them, and that no two owners have the same.  An owner that takes a
new descriptor and one that closes its own keep this (`Owned.claim`, `Owned.release`).
-/

namespace Descriptors

variable {F : Type*}

/-- What a descriptor is open for. -/
def get (t : List (Option F)) (fd : ℕ) : Option F := t.getD fd none

/-- The lowest descriptor that is not in use. -/
def lowest (t : List (Option F)) : ℕ := t.findIdx Option.isNone

/-- Set what a descriptor is open for. -/
def put (t : List (Option F)) (fd : ℕ) (v : Option F) : List (Option F) :=
  if fd < t.length then t.set fd v
  else t ++ List.replicate (fd - t.length) none ++ [v]

/-- A new descriptor. -/
def openNew (t : List (Option F)) (f : F) : List (Option F) × ℕ :=
  (put t (lowest t) (some f), lowest t)

/-- `dup`: the table and the new descriptor. -/
def dup (t : List (Option F)) (fd : ℕ) : Option (List (Option F) × ℕ) :=
  (get t fd).map (openNew t)

/-- `dup2`. -/
def dup2 (t : List (Option F)) (fd fd' : ℕ) : Option (List (Option F)) :=
  (get t fd).map fun f => put t fd' (some f)

/-- `close`. -/
def close (t : List (Option F)) (fd : ℕ) : List (Option F) := put t fd none

variable {t : List (Option F)} {fd fd' : ℕ} {f : F} {v : Option F}

@[simp] theorem get_put_self (t : List (Option F)) (fd : ℕ) (v : Option F) :
    get (put t fd v) fd = v := by
  unfold get put
  split_ifs with h
  · rw [List.getD_eq_getElem?_getD, List.getElem?_set_self h]
    rfl
  · rw [List.getD_append_right _ _ _ _ (by simp; omega)]
    simp only [List.length_append, List.length_replicate]
    rw [show fd - (t.length + (fd - t.length)) = 0 by omega]
    rfl

theorem get_put_of_ne (t : List (Option F)) (h : fd' ≠ fd) (v : Option F) :
    get (put t fd v) fd' = get t fd' := by
  unfold get put
  split_ifs with hfd
  · rw [List.getD_eq_getElem?_getD, List.getElem?_set_ne (Ne.symm h), ← List.getD_eq_getElem?_getD]
  · by_cases hlen : fd' < t.length
    · rw [List.append_assoc, List.getD_append _ _ _ _ hlen]
    · rw [List.getD_eq_default t none (Nat.le_of_not_lt hlen)]
      by_cases hmid : fd' < fd
      · rw [List.getD_append _ _ _ _ (by simp; omega), List.getD_append_right _ _ _ _ (by omega),
          List.getD_replicate _ (by omega)]
      · exact List.getD_eq_default _ _ (by simp; omega)

/-- The lowest descriptor that is not in use is not in use. -/
@[simp] theorem get_lowest (t : List (Option F)) : get t (lowest t) = none := by
  unfold get lowest
  by_cases h : t.findIdx Option.isNone < t.length
  · have hnone : t[t.findIdx Option.isNone].isNone = true := List.findIdx_getElem
    rw [List.getD_eq_getElem t none h]
    exact Option.isNone_iff_eq_none.1 hnone
  · exact List.getD_eq_default t none (Nat.le_of_not_lt h)

theorem lowest_le (h : get t fd = none) : lowest t ≤ fd := by
  by_contra hlt
  have hfd : fd < t.findIdx Option.isNone := Nat.lt_of_not_le hlt
  have hlen : fd < t.length := Nat.lt_of_lt_of_le hfd List.findIdx_le_length
  have hsome := List.not_of_lt_findIdx hfd
  unfold get at h
  rw [List.getD_eq_getElem t none hlen] at h
  rw [h] at hsome
  cases hsome

/-- The lowest descriptor depends only on which are in use. -/
theorem lowest_congr {t' : List (Option F)} (h : ∀ fd, get t fd = get t' fd) :
    lowest t = lowest t' :=
  Nat.le_antisymm (lowest_le ((h _).trans (get_lowest t')))
    (lowest_le ((h _).symm.trans (get_lowest t)))

/-! ## Owners -/

variable {K : Type*} [DecidableEq K] {n : ℕ} {slot : K → Option ℕ} {k : K}

/-- The descriptors from `n` on are in use when an owner has them, and no two owners have the
same. -/
structure Owned (n : ℕ) (t : List (Option F)) (slot : K → Option ℕ) : Prop where
  private_ : ∀ k k' fd, slot k = some fd → slot k' = some fd → k = k'
  high : ∀ k fd, slot k = some fd → n ≤ fd
  inUse : ∀ fd, n ≤ fd → (get t fd ≠ none ↔ ∃ k, slot k = some fd)

omit [DecidableEq K] in
/-- What is below `n` does not matter. -/
theorem Owned.put_low (h : Owned n t slot) (hfd : fd < n) (v : Option F) :
    Owned n (put t fd v) slot where
  private_ := h.private_
  high := h.high
  inUse fd' hn := by
    rw [get_put_of_ne t (by omega)]
    exact h.inUse fd' hn

/-- An owner takes a descriptor that is not in use. -/
theorem Owned.claim (h : Owned n t slot) (hn : n ≤ fd) (hfree : get t fd = none)
    (hk : slot k = none) (f : F) :
    Owned n (put t fd (some f)) (Function.update slot k (some fd)) := by
  have hnew : ∀ k', slot k' ≠ some fd := by
    intro k' hk'
    exact (h.inUse fd hn).2 ⟨k', hk'⟩ hfree
  have hslot : ∀ k' fd', Function.update slot k (some fd) k' = some fd' ↔
      (k' = k ∧ fd' = fd) ∨ (k' ≠ k ∧ slot k' = some fd') := by
    intro k' fd'
    by_cases hkk : k' = k
    · rw [hkk, Function.update_self]
      simp [eq_comm]
    · rw [Function.update_of_ne hkk]
      simp [hkk]
  refine ⟨fun k₁ k₂ fd' h₁ h₂ => ?_, fun k' fd' h' => ?_, fun fd' hfd' => ?_⟩
  · rcases (hslot k₁ fd').1 h₁ with ⟨heq₁, hfd₁⟩ | ⟨-, hold₁⟩
    · rcases (hslot k₂ fd').1 h₂ with ⟨heq₂, -⟩ | ⟨-, hold₂⟩
      · rw [heq₁, heq₂]
      · rw [hfd₁] at hold₂
        exact absurd hold₂ (hnew k₂)
    · rcases (hslot k₂ fd').1 h₂ with ⟨-, hfd₂⟩ | ⟨-, hold₂⟩
      · rw [hfd₂] at hold₁
        exact absurd hold₁ (hnew k₁)
      · exact h.private_ k₁ k₂ fd' hold₁ hold₂
  · rcases (hslot k' fd').1 h' with ⟨-, rfl⟩ | ⟨-, h'⟩
    · exact hn
    · exact h.high k' fd' h'
  · by_cases hfd : fd' = fd
    · subst hfd
      rw [get_put_self]
      exact ⟨fun _ => ⟨k, Function.update_self _ _ _⟩, fun _ => Option.some_ne_none f⟩
    · rw [get_put_of_ne t hfd, h.inUse fd' hfd']
      constructor
      · rintro ⟨k', hk'⟩
        have hne : k' ≠ k := by
          rintro rfl
          rw [hk] at hk'
          cases hk'
        exact ⟨k', (hslot k' fd').2 (Or.inr ⟨hne, hk'⟩)⟩
      · rintro ⟨k', hk'⟩
        rcases (hslot k' fd').1 hk' with ⟨-, heq⟩ | ⟨-, hk'⟩
        · exact absurd heq hfd
        · exact ⟨k', hk'⟩

/-- An owner closes its descriptor. -/
theorem Owned.release (h : Owned n t slot) (hk : slot k = some fd) :
    Owned n (close t fd) (Function.update slot k none) := by
  have hslot : ∀ k' fd', Function.update slot k none k' = some fd' ↔
      k' ≠ k ∧ slot k' = some fd' := by
    intro k' fd'
    by_cases hkk : k' = k
    · rw [hkk, Function.update_self]
      simp
    · rw [Function.update_of_ne hkk]
      simp [hkk]
  refine ⟨fun k₁ k₂ fd' h₁ h₂ => ?_, fun k' fd' h' => ?_, fun fd' hfd' => ?_⟩
  · exact h.private_ k₁ k₂ fd' ((hslot k₁ fd').1 h₁).2 ((hslot k₂ fd').1 h₂).2
  · exact h.high k' fd' ((hslot k' fd').1 h').2
  · unfold close
    by_cases hfd : fd' = fd
    · subst hfd
      rw [get_put_self]
      constructor
      · intro hne
        exact absurd rfl hne
      · rintro ⟨k', hk'⟩
        obtain ⟨hne, hk'⟩ := (hslot k' fd').1 hk'
        exact absurd (h.private_ k' k fd' hk' hk) hne
    · rw [get_put_of_ne t hfd, h.inUse fd' hfd']
      constructor
      · rintro ⟨k', hk'⟩
        have hne : k' ≠ k := by
          rintro rfl
          rw [hk] at hk'
          exact hfd (Option.some_inj.1 hk').symm
        exact ⟨k', (hslot k' fd').2 ⟨hne, hk'⟩⟩
      · rintro ⟨k', hk'⟩
        exact ⟨k', ((hslot k' fd').1 hk').2⟩

end Descriptors
