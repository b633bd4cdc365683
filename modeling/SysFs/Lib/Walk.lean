import Mathlib.Algebra.Group.Basic
import Mathlib.Data.List.Basic
import Mathlib.Data.List.TakeDrop

/-!
# Walks in a tree of names

A walk climbs some levels and then descends along some names.  `Walk N` is
the normal form of such a walk: `ups` levels up, then the names of `downs`.
Every sequence of climbs and descents has one normal form, and two walks one
after the other have a normal form again, so `Walk N` is a monoid.

A `Place R N` is where a walk can stand: one of several roots, and the names
from that root down.  `Place.walk` is the action of the monoid on places.  A
climb at a root stays at the root.

* `Place.walk_mul`: the action is compatible with the product.
* `Walk.eq_of_forall_walk_eq`: the normal form is determined by what the walk
  does to every place, so two walks agree everywhere exactly when they are
  equal.
* `Walk.height`: descents minus climbs, additive over the product.
* `Route R N`: a walk that may start by jumping to a root, and the criterion
  for two routes to lead to the same place from everywhere.
-/

/-- The normal form of a walk: `ups` levels up, then down along `downs`. -/
@[ext] structure Walk (N : Type*) where
  ups : Nat
  downs : List N
deriving DecidableEq, Repr

namespace Walk

variable {N : Type*}

/-- One level up. -/
def up : Walk N := ⟨1, []⟩

/-- One level down, to the name `n`. -/
def down (n : N) : Walk N := ⟨0, [n]⟩

/-- The walk `a` and then the walk `b`.  The climbs of `b` first take back
descents of `a`, and what is left of them is added to the climbs of `a`. -/
def comp (a b : Walk N) : Walk N :=
  ⟨a.ups + (b.ups - a.downs.length),
    a.downs.take (a.downs.length - b.ups) ++ b.downs⟩

instance : One (Walk N) := ⟨⟨0, []⟩⟩

instance : Mul (Walk N) := ⟨comp⟩

@[simp] theorem one_ups : (1 : Walk N).ups = 0 := rfl

@[simp] theorem one_downs : (1 : Walk N).downs = [] := rfl

@[simp] theorem up_ups : (up : Walk N).ups = 1 := rfl

@[simp] theorem up_downs : (up : Walk N).downs = [] := rfl

@[simp] theorem down_ups (n : N) : (down n).ups = 0 := rfl

@[simp] theorem down_downs (n : N) : (down n).downs = [n] := rfl

@[simp] theorem mul_ups (a b : Walk N) :
    (a * b).ups = a.ups + (b.ups - a.downs.length) := rfl

@[simp] theorem mul_downs (a b : Walk N) :
    (a * b).downs = a.downs.take (a.downs.length - b.ups) ++ b.downs := rfl

/-- A list cut at the end twice is the list cut once by the sum. -/
private theorem take_take_sub (l : List N) (i j : Nat) :
    (l.take (l.length - i)).take (l.length - i - j)
      = l.take (l.length - (i + j)) := by
  rw [List.take_take]
  congr 1
  omega

instance : Monoid (Walk N) where
  one_mul a := by ext1 <;> simp
  mul_one a := by ext1 <;> simp
  mul_assoc a b c := by
    have hab : (a.downs.take (a.downs.length - b.ups)).length
        = a.downs.length - b.ups := by
      rw [List.length_take]
      omega
    ext1
    · simp only [mul_ups, mul_downs, List.length_append, hab]
      omega
    · simp only [mul_ups, mul_downs, List.length_append, hab]
      rcases Nat.le_total c.ups b.downs.length with hc | hc
      · have hkeep : a.downs.length - b.ups + b.downs.length - c.ups
            = (a.downs.take (a.downs.length - b.ups)).length
              + (b.downs.length - c.ups) := by
          rw [hab]
          omega
        rw [hkeep, List.take_length_add_append, Nat.sub_eq_zero_of_le hc,
          Nat.add_zero, List.append_assoc]
      · have hcut : a.downs.length - b.ups + b.downs.length - c.ups
            ≤ (a.downs.take (a.downs.length - b.ups)).length := by
          rw [hab]
          omega
        rw [List.take_append_of_le_length hcut, Nat.sub_eq_zero_of_le hc,
          List.take_zero, List.nil_append,
          show a.downs.length - b.ups + b.downs.length - c.ups
            = a.downs.length - b.ups - (c.ups - b.downs.length) by omega,
          take_take_sub]

/-- Descents minus climbs. -/
def height (a : Walk N) : Int := a.downs.length - a.ups

@[simp] theorem height_one : (1 : Walk N).height = 0 := rfl

@[simp] theorem height_up : (up : Walk N).height = -1 := rfl

@[simp] theorem height_down (n : N) : (down n).height = 1 := rfl

/-- The height is additive. -/
@[simp] theorem height_mul (a b : Walk N) :
    (a * b).height = a.height + b.height := by
  simp only [height, mul_ups, mul_downs, List.length_append, List.length_take]
  omega

/-- A descent at the end is appended. -/
@[simp] theorem mul_down (a : Walk N) (n : N) :
    a * down n = ⟨a.ups, a.downs ++ [n]⟩ := by
  ext1 <;> simp

/-- A climb from the start of a walk that does not descend. -/
theorem mul_up_of_nil {a : Walk N} (h : a.downs = []) :
    a * up = ⟨a.ups + 1, []⟩ := by
  ext1 <;> simp [h]

/-- A climb takes the last descent back. -/
theorem mul_up_of_ne_nil {a : Walk N} (h : a.downs ≠ []) :
    a * up = ⟨a.ups, a.downs.dropLast⟩ := by
  have hpos : 0 < a.downs.length := List.length_pos_iff.2 h
  ext1
  · simp only [mul_ups, up_ups]
    omega
  · simp [List.dropLast_eq_take]

/-- Removing some names from the descents of a walk. -/
def keep (p : N → Bool) (a : Walk N) : Walk N := ⟨a.ups, a.downs.filter p⟩

@[simp] theorem keep_ups (p : N → Bool) (a : Walk N) :
    (a.keep p).ups = a.ups := rfl

@[simp] theorem keep_downs (p : N → Bool) (a : Walk N) :
    (a.keep p).downs = a.downs.filter p := rfl

@[simp] theorem keep_one (p : N → Bool) : (1 : Walk N).keep p = 1 := rfl

end Walk

/-- A root, and the names from the root down. -/
@[ext] structure Place (R N : Type*) where
  root : R
  names : List N
deriving DecidableEq, Repr

namespace Place

variable {R N : Type*}

/-- Where a walk leads.  A climb at the root stays there. -/
def walk (p : Place R N) (a : Walk N) : Place R N :=
  ⟨p.root, p.names.take (p.names.length - a.ups) ++ a.downs⟩

@[simp] theorem walk_root (p : Place R N) (a : Walk N) :
    (p.walk a).root = p.root := rfl

@[simp] theorem walk_names (p : Place R N) (a : Walk N) :
    (p.walk a).names = p.names.take (p.names.length - a.ups) ++ a.downs := rfl

@[simp] theorem walk_one (p : Place R N) : p.walk 1 = p := by
  ext1 <;> simp

/-- The product of two walks leads where the second leads from where the
first leads. -/
theorem walk_mul (p : Place R N) (a b : Walk N) :
    p.walk (a * b) = (p.walk a).walk b := by
  have hlen : (p.names.take (p.names.length - a.ups)).length
      = p.names.length - a.ups := by
    rw [List.length_take]
    omega
  ext1
  · rfl
  · simp only [walk_names, Walk.mul_ups, Walk.mul_downs, List.length_append,
      hlen]
    rcases Nat.le_total b.ups a.downs.length with hb | hb
    · have hkeep : p.names.length - a.ups + a.downs.length - b.ups
          = (p.names.take (p.names.length - a.ups)).length
            + (a.downs.length - b.ups) := by
        rw [hlen]
        omega
      rw [hkeep, List.take_length_add_append, Nat.sub_eq_zero_of_le hb,
        Nat.add_zero, List.append_assoc]
    · have hcut : p.names.length - a.ups + a.downs.length - b.ups
          ≤ (p.names.take (p.names.length - a.ups)).length := by
        rw [hlen]
        omega
      rw [List.take_append_of_le_length hcut, Nat.sub_eq_zero_of_le hb,
        List.take_zero, List.nil_append, List.take_take]
      congr 2
      omega

end Place

namespace Walk

variable {R N : Type*}

/-- A walk is determined by what it does to the places under one root. -/
theorem eq_of_forall_walk_eq [Nonempty N] {a b : Walk N} (r : R)
    (h : ∀ names, (Place.mk r names).walk a = (Place.mk r names).walk b) :
    a = b := by
  have hdowns : a.downs = b.downs := by
    have h0 := congrArg Place.names (h [])
    simpa using h0
  -- A start deep enough for both climbs tells the climbs apart by length.
  obtain ⟨n⟩ := ‹Nonempty N›
  have hdeep := congrArg (fun q => q.names.length)
    (h (List.replicate (a.ups + b.ups) n))
  simp only [Place.walk_names, List.length_append, List.length_take,
    List.length_replicate, hdowns] at hdeep
  ext1
  · omega
  · exact hdowns

end Walk

/-- A walk that may first jump to a root. -/
@[ext] structure Route (R N : Type*) where
  root : Option R
  walk : Walk N

namespace Route

variable {R N : Type*}

/-- Where a route leads from a place. -/
def lead (t : Route R N) (p : Place R N) : Place R N :=
  match t.root with
  | some r => (Place.mk r []).walk t.walk
  | none => p.walk t.walk

@[simp] theorem lead_some (r : R) (a : Walk N) (p : Place R N) :
    (Route.mk (some r) a).lead p = (Place.mk r []).walk a := rfl

@[simp] theorem lead_none (a : Walk N) (p : Place R N) :
    (Route.mk none a).lead p = p.walk a := rfl

/-- One route after another: a route with a root forgets what came before. -/
instance : Mul (Route R N) where
  mul t t' := ⟨t'.root.or t.root, if t'.root.isSome then t'.walk else t.walk * t'.walk⟩

theorem mul_some (t : Route R N) (r : R) (a : Walk N) : t * ⟨some r, a⟩ = ⟨some r, a⟩ := rfl

theorem mul_none (t : Route R N) (a : Walk N) : t * ⟨none, a⟩ = ⟨t.root, t.walk * a⟩ := rfl

theorem mul_root (t t' : Route R N) : (t * t').root = t'.root.or t.root := rfl

/-- The product leads where the second route leads from where the first
leads. -/
theorem lead_mul (t t' : Route R N) (p : Place R N) :
    (t * t').lead p = t'.lead (t.lead p) := by
  obtain ⟨root, a⟩ := t
  obtain ⟨_ | r', a'⟩ := t'
  · rw [mul_none]
    cases root with
    | none => exact Place.walk_mul p a a'
    | some r => exact Place.walk_mul ⟨r, []⟩ a a'
  · rfl

/-- Two routes that start at the same root agree exactly when they end with
the same names. -/
theorem forall_lead_eq_iff_of_root [Nonempty N] (r : R) (a b : Walk N) :
    (∀ p, (Route.mk (some r) a).lead p = (Route.mk (some r) b).lead p)
      ↔ a.downs = b.downs := by
  constructor
  · intro h
    have h0 := congrArg Place.names (h ⟨r, []⟩)
    simpa using h0
  · intro h p
    ext1
    · rfl
    · simp [h]

/-- Two routes without a root agree exactly when they are the same walk. -/
theorem forall_lead_eq_iff_of_relative [Nonempty N] [Nonempty R]
    (a b : Walk N) :
    (∀ p : Place R N, (Route.mk none a).lead p = (Route.mk none b).lead p)
      ↔ a = b := by
  constructor
  · intro h
    obtain ⟨r⟩ := ‹Nonempty R›
    exact Walk.eq_of_forall_walk_eq r fun names => h ⟨r, names⟩
  · rintro rfl p
    rfl

/-- A route with a root and a route without one disagree somewhere, as soon
as there are two roots to start from. -/
theorem exists_lead_ne [Nontrivial R] (r : R) (a b : Walk N) :
    ∃ p, (Route.mk (some r) a).lead p ≠ (Route.mk none b).lead p := by
  obtain ⟨r', hr'⟩ := exists_ne r
  refine ⟨⟨r', []⟩, fun h => hr' ?_⟩
  have hroot := congrArg Place.root h
  simpa using hroot.symm

end Route
