import Mathlib.Logic.Function.Basic
import SysFs.Lib.Run
import SysFs.PathText

/-!
# The analysis that a path carries with it

An object of class `Path` is analyzed the first time one of its parts is asked
for, and from then on every copy, move and assignment carries the nine analyzed
fields along.  This file runs any number of `Path` objects through any sequence
of constructions, assignments, `setPath` calls and accessor calls, and shows
that the parts of an object are always those of its string.

The objects are the variables of a program: a `Store` says which of them are
constructed, and which are moved-from.  What a move leaves in its source is not
specified, so the operation names it (`left`), and a statement about every run
is one about everything that a move can leave.  No operation is forbidden: a
copy of a moved-from object counts as moved-from itself, and in a program that
reads none of them only the sources of moves do.

`Path.Exact` is the invariant of one object, with a lemma for every member that
writes the fields; `Store.Exact` is the invariant of the store.
-/

namespace SysFs

/-- What the accessors of a path give. -/
structure Parts where
  fullPath : Str
  fileName : Str
  baseName : Str
  extension : Str
  directoryPath : Str
  driveLetter : Str
  isAbsolute : Bool
  isRelative : Bool
deriving DecidableEq, Repr

namespace Path

/-- The results of the accessors. -/
def parts (p : Path) : Parts where
  fullPath := p.fullPath
  fileName := p.fileName
  baseName := p.baseName
  extension := p.extension
  directoryPath := p.directoryPath
  driveLetter := p.driveLetter
  isAbsolute := p.isAbsolute
  isRelative := p.isRelative

/-! ## One object -/

/-- The parts of an object are those of its string. -/
structure Exact (p : Path) : Prop where
  unified : unify p.mPath = p.mPath
  parts_eq : p.parts = (ofStr p.mPath).parts

/-- The parts that `analyze` computes depend on the string alone. -/
theorem parts_congr {p p' : Path} (h : p.mDetails = false) (h' : p'.mDetails = false)
    (hpath : p.mPath = p'.mPath) : p.parts = p'.parts := by
  unfold parts fullPath fileName baseName extension directoryPath driveLetter isAbsolute
    isRelative analyze
  rw [if_neg (by simp [h]), if_neg (by simp [h'])]
  simp only [hpath]

/-- An accessor does not change what the accessors give. -/
@[simp] theorem parts_analyze (p : Path) : p.analyze.parts = p.parts := by
  unfold parts fullPath fileName baseName extension directoryPath driveLetter isAbsolute
    isRelative
  simp only [analyze_analyze]

/-- The cache of `checkIfExists` is no part of the string. -/
theorem parts_setExists (p : Path) (b : Bool) :
    ({ p with mExists := b } : Path).parts = p.parts := by
  unfold parts fullPath fileName baseName extension directoryPath driveLetter isAbsolute
    isRelative analyze
  dsimp only
  split <;> rfl

namespace Exact

variable {p : Path}

/-- An object that is not analyzed is exact, whatever its fields hold. -/
theorem of_not_analyzed (hpath : unify p.mPath = p.mPath) (hdetails : p.mDetails = false) :
    p.Exact where
  unified := hpath
  parts_eq := parts_congr hdetails rfl (by rw [ofStr_mPath, hpath])

theorem setPath (p : Path) (s : Str) : (p.setPath s).Exact :=
  of_not_analyzed (by simp) rfl

theorem analyze (h : p.Exact) : p.analyze.Exact where
  unified := by rw [analyze_mPath, h.unified]
  parts_eq := by rw [parts_analyze, analyze_mPath, h.parts_eq]

/-- `mExists`, which the assignments reset, is no part of the string. -/
theorem assign (h : p.Exact) (target : Path) : (target.assign p).Exact := by
  refine ⟨h.unified, ?_⟩
  rw [show target.assign p = { p with mExists := false } from rfl, parts_setExists, h.parts_eq]

end Exact

end Path

/-! ## The objects of a program -/

/-- A variable of class `Path`: the object, and whether its content is what a
move has left, or a copy of that. -/
structure Slot where
  obj : Path
  moved : Bool

/-- The variables of a program, each of them constructed or not. -/
abbrev Store (ι : Type*) := ι → Option Slot

/-- The accessors that give a reference to a string. -/
inductive Component where
  | unifiedPath | fullPath | fileName | baseName | extension | directoryPath | driveLetter
deriving DecidableEq, Repr

/-- The string that an accessor refers to, and the object after the call:
`unifiedPath` is the one that needs no analysis. -/
def Path.component (p : Path) : Component → Str × Path
  | .unifiedPath => (p.unifiedPath, p)
  | .fullPath => (p.fullPath, p.analyze)
  | .fileName => (p.fileName, p.analyze)
  | .baseName => (p.baseName, p.analyze)
  | .extension => (p.extension, p.analyze)
  | .directoryPath => (p.directoryPath, p.analyze)
  | .driveLetter => (p.driveLetter, p.analyze)

theorem Path.Exact.component {p : Path} (h : p.Exact) (c : Component) :
    (p.component c).2.Exact := by
  cases c with
  | unifiedPath => exact h
  | fullPath | fileName | baseName | extension | directoryPath | driveLetter => exact h.analyze

/-- The argument of a constructor or of `setPath`: a string of its own, or one
that belongs to an object, which may be the object that is set. -/
inductive Arg (ι : Type*) where
  | text (s : Str)
  | component (j : ι) (c : Component)

/-- What a program does with its paths. -/
inductive PathOp (ι : Type*) where
  /-- `Path()`, which leaves `mAbsolute` uninitialized -/
  | construct (i : ι) (garbage : Bool)
  /-- `Path(const std::string &)`, `Path(std::string &&)`, `Path(const char *)` -/
  | constructFrom (i : ι) (path : Arg ι)
  /-- `Path(const Path &)` -/
  | copyConstruct (i j : ι)
  /-- `Path(Path &&)` -/
  | moveConstruct (i j : ι) (left : Path)
  /-- `operator=(const Path &)` -/
  | copyAssign (i j : ι)
  /-- `operator=(Path &&)` -/
  | moveAssign (i j : ι) (left : Path)
  /-- `setPath(const std::string &)` -/
  | setPath (i : ι) (path : Arg ι)
  /-- `setPath(std::string &&)`, where `path` is what `mPath` gets -/
  | setPathMove (i : ι) (path : Str)
  /-- an accessor that analyzes the path -/
  | access (i : ι)

namespace Store

variable {ι : Type*} [DecidableEq ι]

/-- The store with another object for one variable. -/
def put (st : Store ι) (i : ι) (obj : Path) (moved : Bool) : Store ι :=
  Function.update st i (some ⟨obj, moved⟩)

/-- The string that an argument refers to, and the store after the accessor
that gives it. -/
def eval (st : Store ι) : Arg ι → Str × Store ι
  | .text s => (s, st)
  | .component j c =>
    match st j with
    | none => ([], st)
    | some src => ((src.obj.component c).1, st.put j (src.obj.component c).2 src.moved)

/-- One operation of the program.  `setPath` reads its argument in its first
statement, before it resets the string that the argument may refer to. -/
def step (st : Store ι) : PathOp ι → Store ι
  | .construct i garbage => st.put i { Path.empty with mAbsolute := garbage } false
  | .constructFrom i path => (st.eval path).2.put i (Path.ofStr (st.eval path).1) false
  | .copyConstruct i j =>
    match st j with
    | none => st
    | some src => st.put i src.obj src.moved
  | .moveConstruct i j left =>
    match st j with
    | none => st
    | some src => (st.put i src.obj src.moved).put j left true
  | .copyAssign i j =>
    match st i, st j with
    | some dst, some src => st.put i (dst.obj.assign src.obj) src.moved
    | _, _ => st
  | .moveAssign i j left =>
    match st i, st j with
    | some dst, some src => (st.put i (dst.obj.assign src.obj) src.moved).put j left true
    | _, _ => st
  | .setPath i path =>
    match (st.eval path).2 i with
    | none => st
    | some dst => (st.eval path).2.put i (dst.obj.setPath (st.eval path).1) false
  | .setPathMove i path =>
    match st i with
    | none => st
    | some dst => st.put i (dst.obj.setPath path) false
  | .access i =>
    match st i with
    | none => st
    | some slot => st.put i slot.obj.analyze slot.moved

/-- Every object that is not moved-from is exact. -/
def Exact (st : Store ι) : Prop := ∀ i p, st i = some ⟨p, false⟩ → p.Exact

/-! ## One operation -/

namespace Exact

variable {st : Store ι}

/-- An exact object, or any moved-from one, may be put into the store. -/
theorem put (h : st.Exact) {p : Path} {moved : Bool} (hp : moved = false → p.Exact) (i : ι) :
    (st.put i p moved).Exact := by
  intro j q hq
  unfold Store.put at hq
  by_cases hij : j = i
  · subst hij
    rw [Function.update_self, Option.some.injEq, Slot.mk.injEq] at hq
    obtain ⟨rfl, hmoved⟩ := hq
    exact hp hmoved
  · rw [Function.update_of_ne hij] at hq
    exact h j q hq

omit [DecidableEq ι] in
theorem of_slot (h : st.Exact) {i : ι} {slot : Slot} (hi : st i = some slot)
    (hmoved : slot.moved = false) : slot.obj.Exact := by
  obtain ⟨obj, moved⟩ := slot
  obtain rfl : moved = false := hmoved
  exact h i obj hi

/-- Nothing is asked of the source of a move. -/
theorem put_moved (h : st.Exact) (left : Path) (i : ι) : (st.put i left true).Exact :=
  h.put (fun hmoved => Bool.noConfusion hmoved) i

theorem eval (h : st.Exact) (path : Arg ι) : (st.eval path).2.Exact := by
  cases path with
  | text s => exact h
  | component j c =>
    simp only [Store.eval]
    cases hj : st j with
    | none => exact h
    | some src => exact h.put (fun hmoved => (h.of_slot hj hmoved).component c) j

/-- Every operation keeps the objects exact. -/
theorem step (h : st.Exact) (o : PathOp ι) : (st.step o).Exact := by
  cases o with
  | construct i garbage =>
    apply h.put
    intro _
    exact Path.Exact.of_not_analyzed rfl rfl
  | constructFrom i path =>
    apply (h.eval path).put
    intro _
    exact Path.Exact.setPath _ _
  | copyConstruct i j =>
    simp only [Store.step]
    cases hj : st j with
    | none => exact h
    | some src => exact h.put (h.of_slot hj) i
  | moveConstruct i j left =>
    simp only [Store.step]
    cases hj : st j with
    | none => exact h
    | some src => exact (h.put (h.of_slot hj) i).put_moved left j
  | copyAssign i j =>
    simp only [Store.step]
    cases hi : st i with
    | none => exact h
    | some dst =>
      cases hj : st j with
      | none => exact h
      | some src => exact h.put (fun hmoved => (h.of_slot hj hmoved).assign dst.obj) i
  | moveAssign i j left =>
    simp only [Store.step]
    cases hi : st i with
    | none => exact h
    | some dst =>
      cases hj : st j with
      | none => exact h
      | some src =>
        -- After `p = std::move(p)` the object is a source like any other.
        have hdst := h.put (fun hmoved => (h.of_slot hj hmoved).assign dst.obj) i
        exact hdst.put_moved left j
  | setPath i path =>
    simp only [Store.step]
    cases hi : (st.eval path).2 i with
    | none => exact h
    | some dst => exact (h.eval path).put (fun _ => Path.Exact.setPath _ _) i
  | setPathMove i path =>
    simp only [Store.step]
    cases hi : st i with
    | none => exact h
    | some dst => exact h.put (fun _ => Path.Exact.setPath _ _) i
  | access i =>
    simp only [Store.step]
    cases hi : st i with
    | none => exact h
    | some slot => exact h.put (fun hmoved => (h.of_slot hi hmoved).analyze) i

end Exact

/-! ## A run -/

/-- No object is constructed when the program starts. -/
def start (ι : Type*) : Store ι := fun _ => none

omit [DecidableEq ι] in
theorem exact_start : (start ι).Exact := by
  intro i p hi
  cases hi

/-- After any program, an object that is not moved-from gives the parts that a
fresh `Path` of its string gives. -/
theorem parts_eq_parts_fresh (ops : List (PathOp ι)) (i : ι) (p : Path)
    (h : Run.runs step (start ι) ops i = some ⟨p, false⟩) :
    p.parts = (Path.ofStr p.unifiedPath).parts := by
  have hexact := Run.inv_of_step (I := Exact) (fun st o hst => hst.step o) exact_start ops
  exact (hexact i p h).parts_eq

/-- An analyzed path that is moved, and then copied over a default-constructed
one. -/
theorem parts_eq_parts_fresh_copy :
    (Path.ofStr "a/b.c".toList).analyze.parts =
      (Path.ofStr (Path.ofStr "a/b.c".toList).analyze.unifiedPath).parts :=
  parts_eq_parts_fresh
    [.constructFrom 0 (.text "a/b.c".toList), .access 0, .construct 1 true,
      .moveConstruct 2 0 Path.empty, .setPath 0 (.component 0 .directoryPath),
      .copyAssign 1 2] 1 _ rfl

end Store

end SysFs
