import Mathlib.Algebra.BigOperators.Group.List.Basic
import SysFs.Lib.Walk
import SysFs.Path

/-!
# What a path denotes

A path denotes a walk from a start directory.  Its `/`-separated components
are followed one by one: an empty first component goes to the root, a first
component of the form `X:` goes to the root of that drive, any other empty
component and `.` stay, `..` goes up one level, and every other component goes
down to that name.  `location` is where the walk ends.

This is the reading of a path that `resolved` and `resolve` are measured
against; nothing in it is translated from the source.  The components of the
empty path are no components at all, as for the source, which calls the empty
path relative.

`routeOf_components` says that the components a `std::getline` loop reads give
the same walk as the fields between the separators: the two lists differ by
one empty component after a trailing separator.
-/

namespace SysFs

/-- The roots a path can start from: `/`, or the root of a drive. -/
inductive Root where
  | slash
  | drive (letter : Str)
deriving DecidableEq, Repr

instance : Nontrivial Root := ⟨⟨.slash, .drive [], by decide⟩⟩

/-- A directory: a root and the names from it down. -/
abbrev Location := Place Root Str

/-- The root that a first component goes to. -/
def rootOf (part : Str) : Option Root :=
  if part.isEmpty then some .slash
  else if part.length == 2 && part[1]? == some ':' then some (.drive part)
  else none

/-- What one component does. -/
def stepOf (part : Str) : Walk Str :=
  if part.isEmpty ∨ part = dot then 1
  else if part = dotdot then Walk.up
  else Walk.down part

/-- What a list of components does. -/
def walkOf (parts : List Str) : Walk Str := (parts.map stepOf).prod

/-- The route along the components of a path. -/
def routeOf : List Str → Route Root Str
  | [] => ⟨none, 1⟩
  | part :: parts =>
    match rootOf part with
    | some r => ⟨some r, walkOf parts⟩
    | none => ⟨none, walkOf (part :: parts)⟩

/-- The `/`-separated components of a path. -/
def components (path : Str) : List Str := Lines.fields '/' path

/-- Where a path leads from a start directory. -/
def location (path : Str) (start : Location) : Location :=
  (routeOf (components path)).lead start

theorem isRootPart_iff (part : Str) :
    isRootPart part = true ↔ ∃ r, rootOf part = some r := by
  unfold isRootPart rootOf
  cases hempty : part.isEmpty with
  | true => simp
  | false =>
    cases hdrive : part.length == 2 && part[1]? == some ':' <;> simp

theorem rootOf_eq_none_iff (part : Str) :
    rootOf part = none ↔ isRootPart part = false := by
  rw [← Bool.not_eq_true, isRootPart_iff, ← Option.ne_none_iff_exists',
    Classical.not_not]

@[simp] theorem walkOf_nil : walkOf [] = 1 := rfl

@[simp] theorem walkOf_cons (part : Str) (parts : List Str) :
    walkOf (part :: parts) = stepOf part * walkOf parts := by
  simp [walkOf]

@[simp] theorem walkOf_append (parts parts' : List Str) :
    walkOf (parts ++ parts') = walkOf parts * walkOf parts' := by
  simp [walkOf]

@[simp] theorem stepOf_nil : stepOf [] = 1 := rfl

@[simp] theorem stepOf_dot : stepOf dot = 1 := rfl

@[simp] theorem stepOf_dotdot : stepOf dotdot = Walk.up := rfl

theorem stepOf_name {part : Str} (h0 : part ≠ []) (h1 : part ≠ dot)
    (h2 : part ≠ dotdot) : stepOf part = Walk.down part := by
  simp [stepOf, h0, h1, h2]

/-- One component climbs or descends, never both. -/
theorem stepOf_cases (part : Str) :
    (stepOf part).ups = 0 ∨ ((stepOf part).ups = 1 ∧ (stepOf part).downs = []) := by
  unfold stepOf
  split_ifs
  · exact Or.inl rfl
  · exact Or.inr ⟨rfl, rfl⟩
  · exact Or.inl rfl

/-- A root part is neither `.` nor `..`. -/
theorem not_dots_of_isRootPart {part : Str} (h : isRootPart part = true) :
    part ≠ dot ∧ part ≠ dotdot := by
  constructor <;> rintro rfl <;> exact absurd h (by decide)

theorem routeOf_cons_of_rootOf {part : Str} {r : Root}
    (h : rootOf part = some r) (parts : List Str) :
    routeOf (part :: parts) = ⟨some r, walkOf parts⟩ := by
  simp [routeOf, h]

theorem routeOf_cons_of_relative {part : Str} (h : isRootPart part = false)
    (parts : List Str) :
    routeOf (part :: parts) = ⟨none, walkOf (part :: parts)⟩ := by
  simp [routeOf, (rootOf_eq_none_iff part).2 h]

/-- An empty component at the end changes nothing, unless it is the first
one. -/
theorem routeOf_append_nil {parts : List Str} (h : parts ≠ []) :
    routeOf (parts ++ [[]]) = routeOf parts := by
  obtain ⟨part, parts, rfl⟩ := List.exists_cons_of_ne_nil h
  cases hr : rootOf part with
  | some r => simp [routeOf, hr]
  | none => simp [routeOf, hr]

/-- The components that the `std::getline` loop reads give the same route as
the fields between the separators. -/
theorem routeOf_components (path : Str) :
    routeOf (components path) = routeOf (partsOf path) := by
  unfold components partsOf
  cases path with
  | nil => rfl
  | cons c s =>
    rw [Lines.fields_of_ne_nil (by simp), Lines.splitOn_eq_getlines]
    split
    · exact routeOf_append_nil (by simp)
    · rw [List.append_nil]

/-- The route of a path starts at a root exactly when the path is absolute. -/
theorem isSome_root_routeOf (parts : List Str) :
    (routeOf parts).root.isSome = parts.head?.any isRootPart := by
  cases parts with
  | nil => rfl
  | cons part parts =>
    cases hr : rootOf part with
    | some r =>
      have := (isRootPart_iff part).2 ⟨r, hr⟩
      simp [routeOf, hr, this]
    | none =>
      have := (rootOf_eq_none_iff part).1 hr
      simp [routeOf, hr, this]

/-- Two paths that lead to the same place from everywhere are both absolute or
both relative. -/
theorem isSome_root_eq_of_forall_lead_eq {t t' : Route Root Str}
    (h : ∀ start, t.lead start = t'.lead start) :
    t.root.isSome = t'.root.isSome := by
  obtain ⟨_ | r, a⟩ := t <;> obtain ⟨_ | r', a'⟩ := t'
  · rfl
  · obtain ⟨p, hp⟩ := Route.exists_lead_ne r' a' a
    exact absurd (h p).symm hp
  · obtain ⟨p, hp⟩ := Route.exists_lead_ne r a a'
    exact absurd (h p) hp
  · rfl

theorem isAbsolute_ofStr (path : Str) :
    (Path.ofStr path).isAbsolute = (partsOf (unify path)).head?.any isRootPart :=
  rfl

end SysFs
