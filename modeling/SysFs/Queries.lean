import SysFs.Objects
import SysFs.Resolve

/-!
# What a query leaves of a path

A `Path` is a string, and the class promises that its operations use no system
information.  An `FsObject` is a `Path` too, and its queries fill the caches that
the accessors of `Path` read.  This file runs any sequence of queries on one
object, in a world that anything may change in between, and compares the object
afterwards with a `Path` of the same string.

One query goes wrong: when both `realpath` calls of `getAbsolutePath` fail, it
writes `false` into `mAbsolute`, and nothing computes that field again
(`Disturbs`).  `query_base` says what each query makes of the object, and
`undisturbed_iff` that the object agrees with its string at the end exactly when
no query of the sequence has disturbed it.
-/

namespace SysFs

open Posix

/-! ## Agreeing with the string -/

/-- Two paths with the same string and the same parts. -/
def Path.Agree (p p' : Path) : Prop := p.unifiedPath = p'.unifiedPath ∧ p.parts = p'.parts

/-- The accessors and `resolve` give what they give on a `Path` of the same
string. -/
def Path.Undisturbed (p : Path) : Prop :=
  p.parts = (ofStr p.unifiedPath).parts ∧
    ∀ q : Str, Agree (p.resolve (ofStr q)) ((ofStr p.unifiedPath).resolve (ofStr q)) ∧
      Agree ((ofStr q).resolve p) ((ofStr q).resolve (ofStr p.unifiedPath))

/-- The parts of a path that is taken for a relative one. -/
def Parts.relative (ps : Parts) : Parts := { ps with isAbsolute := false, isRelative := true }

namespace Path

variable {p p' : Path}

/-- Exact paths of the same string agree. -/
theorem Exact.agree (h : p.Exact) (h' : p'.Exact) (hstring : h.string = h'.string) :
    Agree p p' := by
  have hpath : p.mPath = p'.mPath := congrArg Unified.str hstring
  exact ⟨hpath, by rw [h.parts_eq, h'.parts_eq, hpath]⟩

/-- A unified path is undisturbed exactly when its parts are those of its
string. -/
theorem undisturbed_iff_parts (hunified : unify p.mPath = p.mPath) :
    p.Undisturbed ↔ p.parts = (ofStr p.mPath).parts := by
  refine ⟨And.left, fun hparts => ⟨hparts, fun q => ?_⟩⟩
  have hp : p.Exact := ⟨hunified, hparts⟩
  have hs : (exact_ofStr p.unifiedPath).string = hp.string := Unified.ext hunified
  constructor
  · obtain ⟨h, hstring⟩ := hp.resolve (exact_ofStr q)
    obtain ⟨h', hstring'⟩ := (exact_ofStr p.unifiedPath).resolve (exact_ofStr q)
    exact h.agree h' (by rw [hstring, hstring', hs])
  · obtain ⟨h, hstring⟩ := (exact_ofStr q).resolve hp
    obtain ⟨h', hstring'⟩ := (exact_ofStr q).resolve (exact_ofStr p.unifiedPath)
    exact h.agree h' (by rw [hstring, hstring', hs])

theorem isRelative_eq (p : Path) : p.isRelative = !p.isAbsolute := rfl

/-- A relative path is taken for what it is. -/
theorem relative_parts (h : p.isAbsolute = false) : p.parts.relative = p.parts := by
  have hrel : p.isRelative = true := by rw [isRelative_eq, h]; rfl
  unfold Parts.relative parts
  rw [h, hrel]

/-- The parts of an analyzed path whose `mAbsolute` is overwritten. -/
theorem parts_setAbsolute (h : p.mDetails = true) :
    ({ p with mAbsolute := false } : Path).parts = p.parts.relative := by
  unfold parts Parts.relative fullPath fileName baseName extension directoryPath driveLetter
    isAbsolute isRelative
  rw [analyze_of_details h, analyze_of_details (p := { p with mAbsolute := false }) h]
  rfl

end Path

/-! ## The queries -/

/-- The calls that set no path.  `stat` is any of the getters that read
`getStat`: `getType`, `getMode`, `getInode` and so on. -/
inductive Query where
  | stat
  | isExist
  | isSymbolicLink
  | getAbsolutePath
  | makePath (mode : Nat)
  | changeMode (mode : Nat)
  | setOwner (owner : Str)
  | setGroup (group : Str)
  | getEntries
  | outside (w : World)

/-- The object after `getStat`, which asks for the full path unless the object
is empty. -/
def FsObject.stated (o : FsObject) : FsObject := if o.isEmpty then o else o.analyze

namespace Obj

/-- The object with another `FsObject` part. -/
def withBase : Obj → FsObject → Obj
  | fsObject _, o => fsObject o
  | file f, o => file { f with toFsObject := o }
  | dir d, o => dir { d with toFsObject := o }

@[simp] theorem base_withBase (o : Obj) (b : FsObject) : (o.withBase b).base = b := by
  cases o <;> rfl

/-- A query of an object in a world.  `getEntries` is a method of `Dir`. -/
def query (sys : System) (s : Obj × World) : Query → Obj × World
  | .stat => (s.1.withBase s.1.base.stated, s.2)
  | .isSymbolicLink => (s.1.withBase s.1.base.stated, s.2)
  | .isExist => (s.1.withBase (s.1.base.checkIfExists s.2), s.2)
  | .getAbsolutePath =>
    let r := s.1.base.getAbsolutePath sys s.2
    (s.1.withBase r.1, r.2)
  | .makePath mode =>
    let r := FsObject.makePath sys s.2 s.1.base mode
    (s.1.withBase r.obj, r.world)
  | .changeMode mode =>
    let r := FsObject.changeMode sys s.2 s.1.base mode
    (s.1.withBase r.obj, r.world)
  | .setOwner owner =>
    let r := FsObject.setOwner sys s.2 s.1.base owner
    (s.1.withBase r.obj, r.world)
  | .setGroup group =>
    let r := FsObject.setGroup sys s.2 s.1.base group
    (s.1.withBase r.obj, r.world)
  | .getEntries =>
    match s.1 with
    | dir d => (dir (d.getEntries sys s.2).1, (d.getEntries sys s.2).2)
    | o => (o, s.2)
  | .outside w => (s.1, w)

/-- The object that a query calls `getAbsolutePath` on, if it does. -/
def asked (sys : System) (s : Obj × World) : Query → Option FsObject
  | .getAbsolutePath => some s.1.base
  | .changeMode _ =>
    let o := s.1.base.checkIfExists s.2
    if !o.mExists ∨ (o.getStat s.2).isNone then none else some o
  | .setOwner owner =>
    let o := s.1.base.checkIfExists s.2
    if !o.mExists ∨ owner = [] then none else some o
  | .setGroup group =>
    let o := s.1.base.checkIfExists s.2
    if !o.mExists ∨ group = [] then none else some o
  | .getEntries =>
    match s.1 with
    | dir d => if d.mLastUpdate ≠ d.getLastUpdateTime s.2 sys then some d.toFsObject else none
    | _ => none
  | _ => none

/-- The query calls `getAbsolutePath` on an absolute path, and neither the path
nor its directory leads anywhere, even after the missing directories are made. -/
def Disturbs (sys : System) (s : Obj × World) (q : Query) : Prop :=
  ∃ o ∈ asked sys s q, o.isAbsolute = true ∧
    FsObject.located (FsObject.makePath sys s.2 o FsObject.defaultMode).world o = none

end Obj

/-! ## What one call makes of the object -/

namespace FsObject

variable {sys : System} {w : World} {o o' : FsObject}

/-- Only caches have changed, and the parts are as they were. -/
structure Same (o o' : FsObject) : Prop extends Kept o o' where
  parts : o'.parts = o.parts

theorem Same.refl (hc : o.Coherent) : Same o o := ⟨Kept.refl hc, rfl⟩

theorem Same.trans {o'' : FsObject} (h : Same o o') (h' : Same o' o'') : Same o o'' :=
  ⟨h.toKept.trans h'.toKept, h'.parts.trans h.parts⟩

theorem same_analyze (hc : o.Coherent) : Same o o.analyze :=
  ⟨kept_analyze hc, Path.parts_analyze o.toPath⟩

theorem same_stated (hc : o.Coherent) : Same o o.stated := by
  unfold stated
  split
  · exact Same.refl hc
  · exact same_analyze hc

theorem same_checkIfExists (hc : o.Coherent) (w : World) : Same o (o.checkIfExists w) := by
  refine ⟨kept_checkIfExists hc w, ?_⟩
  unfold checkIfExists
  split
  · rfl
  · split
    · exact Path.parts_analyze o.toPath
    · exact (Path.parts_setExists o.toPath.analyze _).trans (Path.parts_analyze o.toPath)

theorem same_makePath (hc : o.Coherent) (mode : Nat) : Same o (makePath sys w o mode).obj := by
  have hcheck := same_checkIfExists hc w
  cases h : (o.checkIfExists w).mExists with
  | true =>
    rw [makePath_of_exists h]
    exact hcheck
  | false =>
    rw [makePath_of_not_exists hc h]
    exact hcheck.trans (same_analyze hcheck.coherent)

/-- `getAbsolutePath` takes the path for a relative one when nothing is
found. -/
theorem getAbsolutePath_parts (sys : System) (w : World) (hc : o.Coherent) :
    (getAbsolutePath sys w o).1.parts =
      if located (makePath sys w o defaultMode).world o = none then o.parts.relative
      else o.parts := by
  have hsame : Same o (makePath sys w o defaultMode).obj := same_makePath hc defaultMode
  rw [getAbsolutePath_located hc]
  cases located (makePath sys w o defaultMode).world o with
  | some r =>
    rw [if_neg (Option.some_ne_none r)]
    exact hsame.parts
  | none =>
    rw [if_pos rfl, ← hsame.parts]
    exact Path.parts_setAbsolute (makePath_mDetails hc)

/-- What a query makes of its object: the caches alone change, or they change
as `getAbsolutePath` changes them on an object that is the same. -/
def Asks (sys : System) (w : World) (o b : FsObject) (asked : Option FsObject) : Prop :=
  (asked = none ∧ Same o b) ∨
    ∃ o', asked = some o' ∧ Same o o' ∧ b = (getAbsolutePath sys w o').1

theorem asks_check (hc : o.Coherent) {b : FsObject} {refused : Prop} [Decidable refused]
    (h : refused → b = o.checkIfExists w)
    (h' : ¬ refused → b = ((o.checkIfExists w).getAbsolutePath sys w).1) :
    Asks sys w o b (if refused then none else some (o.checkIfExists w)) := by
  have hcheck := same_checkIfExists hc w
  by_cases hr : refused
  · rw [if_pos hr, h hr]
    exact Or.inl ⟨rfl, hcheck⟩
  · rw [if_neg hr, h' hr]
    exact Or.inr ⟨_, rfl, hcheck, rfl⟩

theorem changeMode_obj (mode : Nat) :
    ((!(o.checkIfExists w).mExists) = true ∨ ((o.checkIfExists w).getStat w).isNone = true →
      (changeMode sys w o mode).obj = o.checkIfExists w) ∧
    (¬ ((!(o.checkIfExists w).mExists) = true ∨
        ((o.checkIfExists w).getStat w).isNone = true) →
      (changeMode sys w o mode).obj = ((o.checkIfExists w).getAbsolutePath sys w).1) := by
  unfold changeMode
  dsimp only
  constructor
  · intro h
    rw [if_pos h]
  · intro h
    rw [if_neg h]
    split <;> rfl

end FsObject

/-! ## One query -/

namespace Obj

variable {sys : System} {s : Obj × World}

/-- What a query makes of the object. -/
theorem query_base (sys : System) (hc : s.1.base.Coherent) (q : Query) :
    FsObject.Asks sys s.2 s.1.base (query sys s q).1.base (asked sys s q) := by
  cases q with
  | stat =>
    left
    rw [query, base_withBase]
    exact ⟨rfl, FsObject.same_stated hc⟩
  | isSymbolicLink =>
    left
    rw [query, base_withBase]
    exact ⟨rfl, FsObject.same_stated hc⟩
  | isExist =>
    left
    rw [query, base_withBase]
    exact ⟨rfl, FsObject.same_checkIfExists hc s.2⟩
  | getAbsolutePath =>
    right
    rw [query, base_withBase]
    exact ⟨_, rfl, FsObject.Same.refl hc, rfl⟩
  | makePath mode =>
    left
    rw [query, base_withBase]
    exact ⟨rfl, FsObject.same_makePath hc mode⟩
  | changeMode mode =>
    rw [query, base_withBase]
    exact FsObject.asks_check hc (FsObject.changeMode_obj mode).1 (FsObject.changeMode_obj mode).2
  | setOwner owner =>
    rw [query, base_withBase]
    refine FsObject.asks_check hc (fun h => ?_) (fun h => ?_)
    · rw [FsObject.setOwner, if_pos h]
    · rw [FsObject.setOwner, if_neg h]
  | setGroup group =>
    rw [query, base_withBase]
    refine FsObject.asks_check hc (fun h => ?_) (fun h => ?_)
    · rw [FsObject.setGroup, if_pos h]
    · rw [FsObject.setGroup, if_neg h]
  | getEntries =>
    obtain ⟨o, w⟩ := s
    cases o with
    | fsObject o => exact Or.inl ⟨rfl, FsObject.Same.refl hc⟩
    | file f => exact Or.inl ⟨rfl, FsObject.Same.refl hc⟩
    | dir d =>
      show FsObject.Asks sys w d.toFsObject (d.getEntries sys w).1.toFsObject
        (if d.mLastUpdate ≠ d.getLastUpdateTime w sys then some d.toFsObject else none)
      unfold Dir.getEntries
      split
      · exact Or.inr ⟨_, rfl, FsObject.Same.refl hc, rfl⟩
      · exact Or.inl ⟨rfl, FsObject.Same.refl hc⟩
  | outside w => exact Or.inl ⟨rfl, FsObject.Same.refl hc⟩

/-- A query keeps the path and the coherence of its object. -/
theorem query_kept (sys : System) (hc : s.1.base.Coherent) (q : Query) :
    FsObject.Kept s.1.base (query sys s q).1.base := by
  rcases query_base sys hc q with ⟨-, hsame⟩ | ⟨o, -, hsame, hb⟩
  · exact hsame.toKept
  · rw [hb]
    exact hsame.toKept.trans (FsObject.getAbsolutePath_kept hsame.coherent)

/-- A query that does not disturb its object keeps the parts. -/
theorem query_parts (hc : s.1.base.Coherent) {q : Query} (h : ¬ Disturbs sys s q) :
    (query sys s q).1.base.parts = s.1.base.parts := by
  rcases query_base sys hc q with ⟨-, hsame⟩ | ⟨o, hasked, hsame, hb⟩
  · exact hsame.parts
  rw [hb, FsObject.getAbsolutePath_parts sys s.2 hsame.coherent, ← hsame.parts]
  split
  · rename_i hnone
    have hrel : o.isAbsolute = false := by
      rw [← Bool.not_eq_true]
      exact fun habs => h ⟨o, hasked, habs, hnone⟩
    exact Path.relative_parts hrel
  · rfl

/-- A query that disturbs its object makes an absolute path a relative one. -/
theorem query_disturbs (hc : s.1.base.Coherent) {q : Query} (h : Disturbs sys s q) :
    s.1.base.isAbsolute = true ∧ (query sys s q).1.base.isAbsolute = false := by
  obtain ⟨o, hasked, habs, hnone⟩ := h
  rcases query_base sys hc q with ⟨hnot, -⟩ | ⟨o', hasked', hsame, hb⟩
  · rw [hnot] at hasked
    cases hasked
  obtain rfl : o' = o := Option.some.inj (hasked'.symm.trans hasked)
  have hparts := FsObject.getAbsolutePath_parts sys s.2 hsame.coherent
  rw [if_pos hnone, ← hb] at hparts
  exact ⟨(congrArg Parts.isAbsolute hsame.parts).symm.trans habs,
    congrArg Parts.isAbsolute hparts⟩

/-- A path that is taken for a relative one stays one. -/
theorem query_isAbsolute (hc : s.1.base.Coherent) (q : Query)
    (h : s.1.base.isAbsolute = false) : (query sys s q).1.base.isAbsolute = false := by
  by_cases hdisturbs : Disturbs sys s q
  · exact (query_disturbs hc hdisturbs).2
  · exact (congrArg Parts.isAbsolute (query_parts hc hdisturbs)).trans h

/-! ## A sequence of queries -/

/-- Once an absolute path is taken for a relative one, no query sets it right. -/
theorem queries_isAbsolute (sys : System) (hc : s.1.base.Coherent) (qs : List Query)
    (h : s.1.base.isAbsolute = false) :
    (Run.runs (query sys) s qs).1.base.mPath = s.1.base.mPath ∧
      (Run.runs (query sys) s qs).1.base.isAbsolute = false := by
  have hkept : FsObject.Kept s.1.base (Run.runs (query sys) s qs).1.base ∧
      (Run.runs (query sys) s qs).1.base.isAbsolute = false := by
    apply Run.inv_of_step (I := fun s' : Obj × World =>
      FsObject.Kept s.1.base s'.1.base ∧ s'.1.base.isAbsolute = false)
    · intro s' q hs'
      exact ⟨hs'.1.trans (query_kept sys hs'.1.coherent q), query_isAbsolute hs'.1.coherent q hs'.2⟩
    · exact ⟨FsObject.Kept.refl hc, h⟩
  exact ⟨hkept.1.path, hkept.2⟩

/-- Queries leave the parts of an exact object right exactly when none of them
disturbs it. -/
theorem queries_parts_iff (hc : s.1.base.Coherent)
    (hparts : s.1.base.parts = (Path.ofStr s.1.base.mPath).parts) (qs : List Query) :
    (Run.runs (query sys) s qs).1.base.parts
        = (Path.ofStr (Run.runs (query sys) s qs).1.base.mPath).parts ↔
      Run.Along (query sys) (fun s q => ¬ Disturbs sys s q) s qs := by
  induction qs generalizing s with
  | nil => exact ⟨fun _ => trivial, fun _ => hparts⟩
  | cons q qs ih =>
    have hkept := query_kept sys hc q
    by_cases hdisturbs : Disturbs sys s q
    · refine ⟨fun hend => ?_, fun halong => absurd hdisturbs halong.1⟩
      obtain ⟨habs, hrel⟩ := query_disturbs hc hdisturbs
      obtain ⟨hpath, hfalse⟩ := queries_isAbsolute sys hkept.coherent qs hrel
      -- The string is that of an absolute path, and the object says otherwise.
      have htrue : (Path.ofStr s.1.base.mPath).isAbsolute = true :=
        (congrArg Parts.isAbsolute hparts).symm.trans habs
      rw [Run.runs_cons, hpath, hkept.path] at hend
      have hwrong := congrArg Parts.isAbsolute hend
      exact absurd ((hfalse.symm.trans hwrong).trans htrue) Bool.false_ne_true
    · have hparts' : (query sys s q).1.base.parts
          = (Path.ofStr (query sys s q).1.base.mPath).parts := by
        rw [query_parts hc hdisturbs, hkept.path, hparts]
      rw [Run.runs_cons, ih hkept.coherent hparts', Run.Along, and_iff_right hdisturbs]

end Obj

namespace State

/-- An object of any program agrees with its string after a sequence of queries
exactly when none of them disturbs it. -/
theorem undisturbed_iff (sys : System) (w : World) (ops : List Op) (i : Nat) (o : Obj)
    (h : (Run.runs (step sys) (initial w) ops).objs i = some o) (hview : o.base.Undisturbed)
    (w' : World) (qs : List Query) :
    (Run.runs (Obj.query sys) (o, w') qs).1.base.Undisturbed ↔
      Run.Along (Obj.query sys) (fun s q => ¬ Obj.Disturbs sys s q) (o, w') qs := by
  have hc : o.base.Coherent := (wellFormed_runs sys w ops i o h).coherent
  have hkept : FsObject.Kept o.base (Run.runs (Obj.query sys) (o, w') qs).1.base := by
    apply Run.inv_of_step (I := fun s : Obj × World => FsObject.Kept o.base s.1.base)
    · intro s q hs
      exact hs.trans (Obj.query_kept sys hs.coherent q)
    · exact FsObject.Kept.refl hc
  rw [Path.undisturbed_iff_parts hkept.coherent.unified]
  exact Obj.queries_parts_iff (s := (o, w')) hc ((Path.undisturbed_iff_parts hc.unified).1 hview) qs

/-- A directory that is asked about itself. -/
theorem undisturbed_iff_dir :
    (Run.runs (Obj.query System.granting)
        (Obj.construct .dir (some "/dir".toList), FsObject.dirWorld)
        [.isExist, .getAbsolutePath, .stat, .getEntries]).1.base.Undisturbed ↔
      Run.Along (Obj.query System.granting) (fun s q => ¬ Obj.Disturbs System.granting s q)
        (Obj.construct .dir (some "/dir".toList), FsObject.dirWorld)
        [.isExist, .getAbsolutePath, .stat, .getEntries] :=
  undisturbed_iff System.granting FsObject.dirWorld [.construct 0 .dir (some "/dir".toList)] 0
    (Obj.construct .dir (some "/dir".toList)) rfl
    ((Path.undisturbed_iff_parts (by decide)).2 rfl) FsObject.dirWorld _

/-- `/file/name` does not lead anywhere, and neither does `/file/`, because
`/file` is no directory.  Its absolute path makes the object say that it is
relative. -/
theorem not_undisturbed_below_file :
    ¬ (Run.runs (Obj.query System.granting)
      (Obj.construct .fsObject (some "/file/name".toList), World.ofList [(["file"], .regular)])
      [.getAbsolutePath]).1.base.Undisturbed := by
  rintro ⟨hparts, -⟩
  have habs := congrArg Parts.isAbsolute hparts
  revert habs
  decide

end State

end SysFs
