import Mathlib.Data.List.Dedup
import Mathlib.Data.List.Infix

/-!
# Finite trees keyed by paths

`PrefixTree K V` maps finitely many paths, lists of keys from the root down,
to values.  The tree is a function together with a list that holds every path
with a value, so lookups compute and the lemmas about an operation are
equations about its lookups.

* `set` writes one value, `prune` removes a path and everything below it, and
  `relocate` moves a path and everything below it to another path.
* `children` lists the keys directly below a path.
* `Extends` is the order of trees: every entry of the smaller tree is an entry
  of the larger one.
-/

/-- A finite map from paths to values. -/
structure PrefixTree (K V : Type*) where
  get : List K → Option V
  dom : List (List K)
  mem_dom : ∀ l, get l ≠ none → l ∈ dom

namespace PrefixTree

variable {K V : Type*} [DecidableEq K]

/-- The tree without entries. -/
def empty : PrefixTree K V where
  get _ := none
  dom := []
  mem_dom _ h := absurd rfl h

/-- Write one value. -/
def set (t : PrefixTree K V) (p : List K) (v : V) : PrefixTree K V where
  get l := if l = p then some v else t.get l
  dom := p :: t.dom
  mem_dom l h := by
    by_cases hl : l = p
    · simp [hl]
    · rw [if_neg hl] at h
      exact List.mem_cons_of_mem _ (t.mem_dom l h)

/-- Remove a path and everything below it. -/
def prune (t : PrefixTree K V) (p : List K) : PrefixTree K V where
  get l := if p <+: l then none else t.get l
  dom := t.dom
  mem_dom l h := by
    by_cases hl : p <+: l
    · rw [if_pos hl] at h
      exact absurd rfl h
    · rw [if_neg hl] at h
      exact t.mem_dom l h

/-- Move a path `s` and everything below it to `d`.  What was at or below `d`
is lost. -/
def relocate (t : PrefixTree K V) (s d : List K) : PrefixTree K V where
  get l :=
    if d <+: l then t.get (s ++ l.drop d.length)
    else if s <+: l then none
    else t.get l
  dom := t.dom ++ t.dom.map fun l => d ++ l.drop s.length
  mem_dom l h := by
    by_cases hd : d <+: l
    · rw [if_pos hd] at h
      obtain ⟨r, rfl⟩ := hd
      rw [List.drop_left] at h
      refine List.mem_append_right _ (List.mem_map.2 ⟨_, t.mem_dom _ h, ?_⟩)
      rw [List.drop_left]
    · rw [if_neg hd] at h
      by_cases hs : s <+: l
      · rw [if_pos hs] at h
        exact absurd rfl h
      · rw [if_neg hs] at h
        exact List.mem_append_left _ (t.mem_dom l h)

/-- The keys directly below a path. -/
def children (t : PrefixTree K V) (p : List K) : List K :=
  (t.dom.filterMap fun l =>
    if p <+: l ∧ (t.get l).isSome then
      match l.drop p.length with
      | [k] => some k
      | _ => none
    else none).dedup

theorem get_set (t : PrefixTree K V) (p : List K) (v : V) (l : List K) :
    (t.set p v).get l = if l = p then some v else t.get l := rfl

@[simp] theorem get_set_self (t : PrefixTree K V) (p : List K) (v : V) :
    (t.set p v).get p = some v := by
  simp [get_set]

theorem get_set_of_ne {t : PrefixTree K V} {p l : List K} {v : V}
    (h : l ≠ p) : (t.set p v).get l = t.get l := by
  simp [get_set, h]

theorem get_prune (t : PrefixTree K V) (p l : List K) :
    (t.prune p).get l = if p <+: l then none else t.get l := rfl

theorem get_prune_below {t : PrefixTree K V} {p l : List K}
    (h : p <+: l) : (t.prune p).get l = none := by
  rw [get_prune, if_pos h]

theorem get_prune_apart {t : PrefixTree K V} {p l : List K}
    (h : ¬ p <+: l) : (t.prune p).get l = t.get l := by
  rw [get_prune, if_neg h]

theorem get_relocate (t : PrefixTree K V) (s d l : List K) :
    (t.relocate s d).get l =
      if d <+: l then t.get (s ++ l.drop d.length)
      else if s <+: l then none
      else t.get l := rfl

/-- The target holds what the source held. -/
theorem get_relocate_target (t : PrefixTree K V) (s d r : List K) :
    (t.relocate s d).get (d ++ r) = t.get (s ++ r) := by
  rw [get_relocate, if_pos (List.prefix_append d r), List.drop_left]

/-- The source is empty afterwards, as soon as it does not lie below the
target. -/
theorem get_relocate_source {t : PrefixTree K V} {s d l : List K}
    (hs : s <+: l) (hd : ¬ d <+: l) : (t.relocate s d).get l = none := by
  rw [get_relocate, if_neg hd, if_pos hs]

theorem get_relocate_other {t : PrefixTree K V} {s d l : List K}
    (hs : ¬ s <+: l) (hd : ¬ d <+: l) : (t.relocate s d).get l = t.get l := by
  rw [get_relocate, if_neg hd, if_neg hs]

/-- A key is listed below a path exactly when there is an entry for it. -/
theorem mem_children {t : PrefixTree K V} {p : List K} {k : K} :
    k ∈ t.children p ↔ t.get (p ++ [k]) ≠ none := by
  rw [children, List.mem_dedup, List.mem_filterMap]
  constructor
  · rintro ⟨l, -, h⟩
    split at h
    · rename_i hl
      obtain ⟨⟨r, rfl⟩, hsome⟩ := hl
      rw [List.drop_left] at h
      rcases r with _ | ⟨k', _ | ⟨k'', r⟩⟩
      · cases h
      · obtain rfl : k' = k := Option.some.inj h
        exact Option.isSome_iff_ne_none.1 hsome
      · cases h
    · cases h
  · intro h
    refine ⟨p ++ [k], t.mem_dom _ h, ?_⟩
    rw [if_pos ⟨List.prefix_append p [k], Option.isSome_iff_ne_none.2 h⟩,
      List.drop_left]

/-- No key is listed twice. -/
theorem nodup_children (t : PrefixTree K V) (p : List K) :
    (t.children p).Nodup := List.nodup_dedup _

/-- Every entry of `t` is an entry of `t'`. -/
def Extends (t t' : PrefixTree K V) : Prop :=
  ∀ l v, t.get l = some v → t'.get l = some v

namespace Extends

omit [DecidableEq K]

variable {t t' t'' : PrefixTree K V}

theorem refl (t : PrefixTree K V) : t.Extends t := fun _ _ h => h

theorem trans (h : t.Extends t') (h' : t'.Extends t'') : t.Extends t'' :=
  fun l v hv => h' l v (h l v hv)

theorem get_eq (h : t.Extends t') {l : List K} (hl : t.get l ≠ none) :
    t'.get l = t.get l := by
  obtain ⟨v, hv⟩ := Option.ne_none_iff_exists'.1 hl
  rw [hv, h l v hv]

end Extends

/-- A write to a free path extends the tree. -/
theorem extends_set {t : PrefixTree K V} {p : List K} (v : V)
    (h : t.get p = none) : t.Extends (t.set p v) := by
  intro l w hw
  rw [get_set_of_ne]
  · exact hw
  · rintro rfl
    rw [h] at hw
    cases hw

/-- A pruned tree is smaller. -/
theorem prune_extends (t : PrefixTree K V) (p : List K) :
    (t.prune p).Extends t := by
  intro l v h
  by_cases hl : p <+: l
  · rw [get_prune_below hl] at h
    cases h
  · rwa [get_prune_apart hl] at h

end PrefixTree
