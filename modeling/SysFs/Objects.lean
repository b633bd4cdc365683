import SysFs.Dir
import SysFs.File
import SysFs.Lib.Run

/-!
# Programs with many objects

A program holds any number of `FsObject`, `File` and `Dir` objects and works on
one after the other.  `State` is the world and the objects, `Op` is one thing
that the program does, and `step` does it.  With `outside` anything else changes
the world, the working directory included.  An operation on an object that is
not there, or that its class does not have, changes nothing.

`step_cases` says once what a step can do: it gives one object a new value and
the world a new one (`Gives`), and every invariant is derived from that.
`WellFormed` is the first one: an object is always coherent, and has the type of
its class.
-/

namespace SysFs

open Posix

/-- The classes of `libfs`. -/
inductive Class where
  | fsObject
  | file
  | dir
deriving DecidableEq, Repr

/-- An object of one of them. -/
inductive Obj where
  | fsObject (o : FsObject)
  | file (f : File)
  | dir (d : Dir)

/-- The assignments: the one of the base class, which a reference to it calls,
and the ones of the class, of a copy and of a temporary. -/
inductive Assignment where
  | base
  | copy
  | move
deriving DecidableEq, Repr

namespace Obj

/-- The `FsObject` part. -/
def base : Obj → FsObject
  | fsObject o => o
  | file f => f.toFsObject
  | dir d => d.toFsObject

/-- The constructors. -/
def construct : Class → Option Str → Obj
  | .fsObject, none => fsObject FsObject.empty
  | .fsObject, some path => fsObject (FsObject.ofStr path)
  | .file, none => file File.empty
  | .file, some path => file (File.ofStr path)
  | .dir, none => dir Dir.empty
  | .dir, some path => dir (Dir.ofStr path)

/-- The copy and move constructors. -/
def copyConstruct : Class → Obj → Option Obj
  | .fsObject, src => some (fsObject (FsObject.copyOf src.base))
  | .file, file src => some (file (File.copyOf src))
  | .dir, dir src => some (dir (Dir.copyOf src))
  | _, _ => none

/-- The assignments. -/
def assign : Assignment → Obj → Obj → Option Obj
  | _, fsObject o, src => some (fsObject (o.assign src.base))
  | .base, file f, src => some (file { f with toFsObject := f.toFsObject.assign src.base })
  | .base, dir d, src => some (dir { d with toFsObject := d.toFsObject.assign src.base })
  | .copy, file f, file src => some (file (f.assign src))
  | .move, file f, file src => some (file (f.assign src))
  | .copy, dir d, dir src => some (dir (d.assign src))
  | .move, dir d, dir src => some (dir (d.moveAssign src))
  | _, _, _ => none

/-- `setPath`. -/
def setPath : Obj → Str → Obj
  | fsObject o, path => fsObject (o.setPath path)
  | file f, path => file (f.setPath path)
  | dir d, path => dir (d.setPath path)

variable (sys : System) (w : World)

/-- A call of a method that all classes have. -/
def call : Obj → Method → Obj × World
  | fsObject o, m => (fsObject (o.call sys w m).obj, (o.call sys w m).world)
  | file f, m => (file (f.call sys w m).1, (f.call sys w m).2)
  | dir d, m =>
    (dir { d with toFsObject := (d.toFsObject.call sys w m).obj },
      (d.toFsObject.call sys w m).world)

end Obj

/-- The world and the objects. -/
structure State where
  world : World
  objs : Nat → Option Obj

/-- What a program does. -/
inductive Op where
  | construct (i : Nat) (cls : Class) (path : Option Str)
  | copyConstruct (i : Nat) (cls : Class) (src : Nat)
  | setPath (i : Nat) (path : Str)
  | assign (i src : Nat) (how : Assignment)
  | call (i : Nat) (m : Method)
  | openInit (i : Nat) (mode : OpenMode)
  | open (i : Nat) (filename : Str) (mode : OpenMode)
  | close (i : Nat)
  | getEntries (i : Nat)
  | outside (w : World)

namespace State

/-- No object yet. -/
def initial (w : World) : State := ⟨w, fun _ => none⟩

/-- Give an object and the world a new value. -/
def put (s : State) (i : Nat) (o : Obj) (w : World) : State :=
  ⟨w, fun j => if j = i then some o else s.objs j⟩

/-- What an operation makes of one object and of the world. -/
def gives (sys : System) (s : State) : Op → Option (Nat × Obj × World)
  | .construct i cls path => some (i, Obj.construct cls path, s.world)
  | .copyConstruct i cls src =>
    ((s.objs src).bind (Obj.copyConstruct cls)).map fun o => (i, o, s.world)
  | .setPath i path => (s.objs i).map fun o => (i, o.setPath path, s.world)
  | .assign i src how =>
    match s.objs i, s.objs src with
    | some o, some o' => (o.assign how o').map fun o => (i, o, s.world)
    | _, _ => none
  | .call i m => (s.objs i).map fun o => (i, o.call sys s.world m)
  | .openInit i mode =>
    match s.objs i with
    | some (.file f) =>
      some (i, .file (f.openInit sys s.world mode).1, (f.openInit sys s.world mode).2)
    | _ => none
  | .open i filename mode =>
    match s.objs i with
    | some (.file f) =>
      some (i, .file (f.open sys s.world filename mode).1, (f.open sys s.world filename mode).2)
    | _ => none
  | .close i =>
    match s.objs i with
    | some (.file f) => some (i, .file f.close, s.world)
    | _ => none
  | .getEntries i =>
    match s.objs i with
    | some (.dir d) =>
      some (i, .dir (d.getEntries sys s.world).1, (d.getEntries sys s.world).2)
    | _ => none
  | .outside _ => none

/-- What an operation makes of the state. -/
def step (sys : System) (s : State) : Op → State
  | .outside w => ⟨w, s.objs⟩
  | op =>
    match s.gives sys op with
    | some (i, o, w) => s.put i o w
    | none => s

/-- What an operation makes of one object and of the world, case by case. -/
inductive Gives (sys : System) (s : State) : Op → Nat → Obj → World → Prop
  | construct (i : Nat) (cls : Class) (path : Option Str) :
      Gives sys s (.construct i cls path) i (Obj.construct cls path) s.world
  | copyConstruct {i src : Nat} {cls : Class} {o o' : Obj} (h : s.objs src = some o)
      (hcopy : Obj.copyConstruct cls o = some o') :
      Gives sys s (.copyConstruct i cls src) i o' s.world
  | setPath {i : Nat} {o : Obj} (h : s.objs i = some o) (path : Str) :
      Gives sys s (.setPath i path) i (o.setPath path) s.world
  | assign {i src : Nat} {how : Assignment} {o o₁ o' : Obj} (h : s.objs i = some o)
      (hsrc : s.objs src = some o₁) (hassign : Obj.assign how o o₁ = some o') :
      Gives sys s (.assign i src how) i o' s.world
  | call {i : Nat} {o : Obj} (h : s.objs i = some o) (m : Method) :
      Gives sys s (.call i m) i (o.call sys s.world m).1 (o.call sys s.world m).2
  | openInit {i : Nat} {f : File} (h : s.objs i = some (.file f)) (mode : OpenMode) :
      Gives sys s (.openInit i mode) i (.file (f.openInit sys s.world mode).1)
        (f.openInit sys s.world mode).2
  | open {i : Nat} {f : File} (h : s.objs i = some (.file f)) (filename : Str)
      (mode : OpenMode) :
      Gives sys s (.open i filename mode) i (.file (f.open sys s.world filename mode).1)
        (f.open sys s.world filename mode).2
  | close {i : Nat} {f : File} (h : s.objs i = some (.file f)) :
      Gives sys s (.close i) i (.file f.close) s.world
  | getEntries {i : Nat} {d : Dir} (h : s.objs i = some (.dir d)) :
      Gives sys s (.getEntries i) i (.dir (d.getEntries sys s.world).1)
        (d.getEntries sys s.world).2

variable {sys : System} {s : State} {op : Op} {i : Nat} {o : Obj} {w : World}

theorem gives_spec (h : s.gives sys op = some (i, o, w)) : Gives sys s op i o w := by
  cases op with
  | construct j cls path =>
    cases h
    exact Gives.construct _ _ _
  | copyConstruct j cls src =>
    obtain ⟨o', ho', heq⟩ := Option.map_eq_some_iff.1 h
    obtain ⟨o₁, h₁, hcopy⟩ := Option.bind_eq_some_iff.1 ho'
    cases heq
    exact Gives.copyConstruct h₁ hcopy
  | setPath j path =>
    obtain ⟨o₁, h₁, heq⟩ := Option.map_eq_some_iff.1 h
    cases heq
    exact Gives.setPath h₁ path
  | assign j src how =>
    simp only [gives] at h
    split at h
    · rename_i o₁ o₂ h₁ h₂
      obtain ⟨o', hassign, heq⟩ := Option.map_eq_some_iff.1 h
      cases heq
      exact Gives.assign h₁ h₂ hassign
    · cases h
  | call j m =>
    obtain ⟨o₁, h₁, heq⟩ := Option.map_eq_some_iff.1 h
    obtain ⟨rfl, hcall⟩ := Prod.mk.inj heq
    have hgives : Gives sys s (.call j m) j (o₁.call sys s.world m).1
        (o₁.call sys s.world m).2 := Gives.call h₁ m
    rwa [hcall] at hgives
  | openInit j mode =>
    simp only [gives] at h
    split at h
    · rename_i f hf
      cases h
      exact Gives.openInit hf mode
    · cases h
  | «open» j filename mode =>
    simp only [gives] at h
    split at h
    · rename_i f hf
      cases h
      exact Gives.open hf filename mode
    · cases h
  | close j =>
    simp only [gives] at h
    split at h
    · rename_i f hf
      cases h
      exact Gives.close hf
    · cases h
  | getEntries j =>
    simp only [gives] at h
    split at h
    · rename_i d hd
      cases h
      exact Gives.getEntries hd
    · cases h
  | outside w => cases h

/-- What a step can do. -/
theorem step_cases (sys : System) (s : State) (op : Op) :
    (∃ w, op = .outside w ∧ s.step sys op = ⟨w, s.objs⟩) ∨
    (s.step sys op = s) ∨
    ∃ i o w, Gives sys s op i o w ∧ s.step sys op = s.put i o w := by
  unfold step
  split
  · rename_i w
    exact Or.inl ⟨w, rfl, rfl⟩
  · split
    · rename_i i o w hgives
      exact Or.inr (Or.inr ⟨i, o, w, gives_spec hgives, rfl⟩)
    · exact Or.inr (Or.inl rfl)

/-- What holds of every object before a step and of the object that it gives a
new value holds of every object after it. -/
theorem forall_step {P : Obj → Prop} (h : ∀ i o, s.objs i = some o → P o)
    (hgives : ∀ i o w, Gives sys s op i o w → P o) :
    ∀ i o, (s.step sys op).objs i = some o → P o := by
  rcases step_cases sys s op with ⟨w, -, hstep⟩ | hstep | ⟨i, o, w, hg, hstep⟩
  · rw [hstep]
    exact h
  · rw [hstep]
    exact h
  · rw [hstep]
    intro j o' hj
    unfold put at hj
    dsimp only at hj
    split at hj
    · rw [← Option.some.inj hj]
      exact hgives i o w hg
    · exact h j o' hj

/-! ## Well-formed objects -/

end State

namespace Obj

/-- The class of an object. -/
def cls : Obj → Class
  | fsObject _ => .fsObject
  | file _ => .file
  | dir _ => .dir

/-- The object is coherent and has the type of its class. -/
structure WellFormed (o : Obj) : Prop where
  coherent : o.base.Coherent
  fsObject : o.cls = .fsObject → o.base.mType = .uknown
  file : o.cls = .file → o.base.mType = .regularFile
  dir : o.cls = .dir → o.base.mType = .directory

variable {sys : System} {w : World} {o o' src : Obj}

/-- A call changes the `FsObject` part of an object as it does for an
`FsObject`. -/
theorem base_call (o : Obj) (m : Method) :
    (o.call sys w m).1.base = (o.base.call sys w m).obj ∧
      (o.call sys w m).2 = (o.base.call sys w m).world := by
  cases o with
  | fsObject o => exact ⟨rfl, rfl⟩
  | file f => exact f.base_call m
  | dir d => exact ⟨rfl, rfl⟩

theorem cls_call (o : Obj) (m : Method) : (o.call sys w m).1.cls = o.cls := by
  cases o <;> rfl

/-- The path of the other object is assigned, and nothing else of the
`FsObject` part. -/
theorem base_assign {how : Assignment} (h : assign how o src = some o') :
    o'.base = o.base.assign src.base ∧ o'.cls = o.cls := by
  unfold assign at h
  split at h <;> first | (obtain rfl := Option.some.inj h; exact ⟨rfl, rfl⟩) | cases h

/-- Every assignment to a file changes its path only. -/
theorem assign_file {how : Assignment} {f : File} (h : assign how (file f) src = some o') :
    o' = file { f with toFsObject := f.toFsObject.assign src.base } := by
  cases how <;> cases src <;> first | exact (Option.some.inj h).symm | cases h

/-- Every assignment to a directory leaves its entries. -/
theorem assign_dir {how : Assignment} {d : Dir} (h : assign how (dir d) src = some o') :
    ∃ d', o' = dir d' ∧ d'.mEntries = d.mEntries ∧ d'.readFrom = d.readFrom := by
  cases how <;> cases src <;> first | exact ⟨_, (Option.some.inj h).symm, rfl, rfl⟩ | cases h

theorem base_setPath (o : Obj) (path : Str) :
    (o.setPath path).base = o.base.setPath path ∧ (o.setPath path).cls = o.cls := by
  cases o with
  | fsObject o => exact ⟨rfl, rfl⟩
  | file f => exact ⟨f.base_setPath path, rfl⟩
  | dir d => exact ⟨rfl, rfl⟩

namespace WellFormed

theorem construct (cls : Class) (path : Option Str) : (construct cls path).WellFormed where
  coherent := by
    cases path with
    | none => cases cls <;> exact Path.Coherent.of_empty
    | some path => cases cls <;> exact Path.Coherent.of_setPath Path.empty path
  fsObject h := by
    cases path <;> cases cls <;> first | rfl | cases h
  file h := by
    cases path <;> cases cls <;> first | rfl | cases h
  dir h := by
    cases path <;> cases cls <;> first | rfl | cases h

theorem copyConstruct {cls : Class} (h : o.WellFormed)
    (hcopy : Obj.copyConstruct cls o = some o') : o'.WellFormed := by
  have hc : (FsObject.copyOf o.base).Coherent := h.coherent
  unfold Obj.copyConstruct at hcopy
  split at hcopy
  · obtain rfl := Option.some.inj hcopy
    exact ⟨hc, fun _ => rfl, nofun, nofun⟩
  · obtain rfl := Option.some.inj hcopy
    exact ⟨hc, nofun, fun _ => rfl, nofun⟩
  · obtain rfl := Option.some.inj hcopy
    exact ⟨hc, nofun, nofun, fun _ => rfl⟩
  · cases hcopy

/-- An object of the same class and type that is coherent. -/
theorem of_base (h : o.WellFormed) (hc : o'.base.Coherent) (hcls : o'.cls = o.cls)
    (htype : o'.base.mType = o.base.mType) : o'.WellFormed where
  coherent := hc
  fsObject hf := by rw [htype, h.fsObject (hcls ▸ hf)]
  file hf := by rw [htype, h.file (hcls ▸ hf)]
  dir hd := by rw [htype, h.dir (hcls ▸ hd)]

/-- What a step gives is well-formed. -/
theorem gives {s : State} {op : Op} {i : Nat} (hs : ∀ i o, s.objs i = some o → o.WellFormed)
    (h : State.Gives sys s op i o' w) : o'.WellFormed := by
  cases h with
  | construct i cls path => exact construct cls path
  | copyConstruct h hcopy => exact (hs _ _ h).copyConstruct hcopy
  | @setPath _ o h path =>
    obtain ⟨hbase, hcls⟩ := o.base_setPath path
    refine (hs _ _ h).of_base ?_ hcls (by rw [hbase]; rfl)
    rw [hbase]
    exact FsObject.coherent_setPath _ path
  | @assign _ _ _ o _ _ h hsrc hassign =>
    obtain ⟨hbase, hcls⟩ := base_assign hassign
    refine (hs _ _ h).of_base ?_ hcls (by rw [hbase]; rfl)
    rw [hbase]
    exact (hs _ _ hsrc).coherent.assign o.base.toPath
  | @call _ o h m =>
    have hregular := FsObject.call_regular (hs _ _ h).coherent sys s.world m
    refine (hs _ _ h).of_base ?_ (o.cls_call m) ?_
    · rw [(o.base_call m).1]
      exact hregular.coherent
    · rw [(o.base_call m).1]
      exact hregular.type
  | openInit h mode =>
    have hkept := File.kept_openInit (hs _ _ h).coherent sys s.world mode
    exact (hs _ _ h).of_base hkept.coherent rfl hkept.type
  | @«open» _ f h filename mode =>
    have hset : (f.setPath filename).toFsObject.Coherent := by
      rw [f.base_setPath]
      exact FsObject.coherent_setPath _ filename
    have hkept := File.kept_openInit hset sys s.world mode
    refine (hs _ _ h).of_base hkept.coherent rfl (hkept.type.trans ?_)
    rw [f.base_setPath]
    rfl
  | close h => exact (hs _ _ h).of_base (hs _ _ h).coherent rfl rfl
  | getEntries h =>
    have hkept := Dir.kept_getEntries (hs _ _ h).coherent sys s.world
    exact (hs _ _ h).of_base hkept.coherent rfl hkept.type

end WellFormed

end Obj

namespace State

/-- Every object is well-formed. -/
def WellFormed (s : State) : Prop := ∀ i o, s.objs i = some o → o.WellFormed

theorem WellFormed.step {sys : System} {s : State} (h : s.WellFormed) (op : Op) :
    (s.step sys op).WellFormed :=
  forall_step h fun _ _ _ hg => Obj.WellFormed.gives h hg

/-- What holds at the start, and is kept by every step that meets a condition,
holds after a run, and so does well-formedness. -/
theorem inv_of_along {sys : System} {w : World} {ops : List Op} {C : State → Op → Prop}
    {I : State → Prop} (hinit : I (initial w))
    (hstep : ∀ s op, s.WellFormed → I s → C s op → I (s.step sys op))
    (h : Run.Along (step sys) C (initial w) ops) :
    (Run.runs (step sys) (initial w) ops).WellFormed ∧
      I (Run.runs (step sys) (initial w) ops) := by
  refine Run.inv_of_along (I := fun s : State => s.WellFormed ∧ I s)
    (fun s op hs hop => ⟨hs.1.step op, hstep s op hs.1 hs.2 hop⟩) ⟨?_, hinit⟩ h
  intro i o hi
  cases hi

/-- Every object that a program ever has is well-formed. -/
theorem wellFormed_runs (sys : System) (w : World) (ops : List Op) :
    (Run.runs (step sys) (initial w) ops).WellFormed :=
  (inv_of_along (C := fun _ _ => True) (I := fun _ => True) trivial
    (fun _ _ _ _ _ => trivial) (Run.along_of_forall (fun _ _ => trivial) _ ops)).1

end State

end SysFs
