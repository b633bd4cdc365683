import SysFs.Transfer

/-!
# What one call leaves behind

`Method` names the methods that the three classes of `libfs` share, and
`FsObject.call` is a call of one of them.  `call_regular` says what every call
makes of its object: it stays coherent and of its type, and keeps its path
unless `setPath` was called.  It says afterwards that it exists only when it
did so at the start of the call, or when it is there.

`Preserves` is what the calls do to the world that run no command and delete
nothing: every entry stays, with its kind (`call_preserves`).  So an object can
be wrong about its existence only after one of the others.
-/

namespace SysFs

open Posix

/-- The methods that all classes have. -/
inductive Method where
  | analyze
  | isExist
  | getAbsolutePath
  | create (mode : Nat)
  | move (dstPath : Str)
  | copy (dstPath : Str)
  | createSymLink (dstPath : Str)
  | remove
  | removeSymLink
  | setOwner (owner : Str)
  | setGroup (group : Str)
  | changeMode (mode : Nat)
deriving DecidableEq, Repr

/-- A method that runs a command or deletes an entry. -/
def Method.Destructive : Method → Prop
  | .move _ | .copy _ | .remove | .removeSymLink | .setOwner _ | .setGroup _ => True
  | _ => False

/-- Every entry is there still, with its kind, and the working directory is the
same. -/
structure Preserves (w w' : World) : Prop where
  kinds : ∀ l kind, w.tree.kindAt l = some kind → w'.tree.kindAt l = some kind
  cwd : w'.cwd = w.cwd

namespace Preserves

variable {w w' w'' : World} {path : Str} {l : Loc}

theorem refl (w : World) : Preserves w w := ⟨fun _ _ h => h, rfl⟩

theorem trans (h : Preserves w w') (h' : Preserves w' w'') : Preserves w w'' :=
  ⟨fun l kind hl => h'.kinds l kind (h.kinds l kind hl), h'.cwd.trans h.cwd⟩

theorem of_grown (h : Grown w w') : Preserves w w' :=
  ⟨fun _ _ hl => h.ext.kindAt_some hl, h.cwd⟩

/-- A path that leads somewhere leads there still. -/
theorem lookup (h : Preserves w w') (hl : w.lookup path = some l) : w'.lookup path = some l := by
  obtain ⟨hne, seen, hw⟩ := World.lookup_eq_some_iff.1 hl
  refine World.lookup_eq_some_iff.2 ⟨hne, seen, ?_⟩
  rw [World.start, h.cwd]
  refine hw.frame fun x hx => ?_
  obtain ⟨kind, hkind⟩ := Option.ne_none_iff_exists'.1 (hw.kindAt_ne_none x hx)
  rw [hkind, h.kinds x kind hkind]

end Preserves

namespace FsObject

/-- A call of a method. -/
def call (sys : System) (w : World) (o : FsObject) : Method → Outcome
  | .analyze => ⟨true, o.analyze, w, false⟩
  | .isExist => ⟨o.isExist w, o.checkIfExists w, w, false⟩
  | .getAbsolutePath => ⟨true, (o.getAbsolutePath sys w).1, (o.getAbsolutePath sys w).2, false⟩
  | .create mode => create sys w o mode
  | .move dstPath => move sys w o dstPath
  | .copy dstPath => copy sys w o dstPath
  | .createSymLink dstPath => createSymLink sys w o dstPath
  | .remove => remove sys w o
  | .removeSymLink => removeSymLink sys w o
  | .setOwner owner => setOwner sys w o owner
  | .setGroup group => setGroup sys w o group
  | .changeMode mode => changeMode sys w o mode

variable {sys : System} {w w' : World} {o o' : FsObject}

/-- An object that is there is there still when every entry is. -/
theorem Present.preserves (h : o.Present w) (hw : Preserves w w') : o.Present w' := by
  obtain ⟨v, hv, hfits⟩ := h
  obtain ⟨l, hl, hget⟩ := World.stat_eq_some_iff.1 hv
  have hkind : w'.tree.kindAt l = some v.kind := by
    refine hw.kinds l v.kind ?_
    rw [FileTree.kindAt_eq, hget, Option.map_some]
  rw [FileTree.kindAt_eq] at hkind
  obtain ⟨u, hu, hvu⟩ := Option.map_eq_some_iff.1 hkind
  refine ⟨u, stat_of_lookup (hw.lookup hl) hu, ?_⟩
  rwa [hvu]

/-- What a call makes of its object. -/
structure Regular (w : World) (o : FsObject) (out : Outcome) : Prop where
  coherent : out.obj.Coherent
  type : out.obj.mType = o.mType
  path : out.pathSet = false → out.obj.mPath = o.mPath
  /-- what is cached at the end was cached or seen at the start, or is there -/
  cached : out.obj.mExists = true →
    (out.pathSet = false ∧ (o.checkIfExists w).mExists = true) ∨ out.obj.Present out.world

namespace Regular

variable {out : Outcome}

/-- An object whose caches alone have changed. -/
theorem of_kept (h : Kept o o')
    (hcached : o'.mExists = true → (o.checkIfExists w).mExists = true) (ok : Bool) (w' : World) :
    Regular w o ⟨ok, o', w', false⟩ :=
  ⟨h.coherent, h.type, fun _ => h.path, fun hm => Or.inl ⟨rfl, hcached hm⟩⟩

/-- An object that `checkIfExists` has looked at. -/
theorem of_check (hc : o.Coherent) (ok : Bool) (w' : World) :
    Regular w o ⟨ok, o.checkIfExists w, w', false⟩ :=
  of_kept (kept_checkIfExists hc w) (fun h => h) ok w'

/-- An object that was asked for its absolute path after that. -/
theorem of_absolute (hc : o.Coherent) (hm : (o.checkIfExists w).mExists = true) (w₁ : World)
    (ok : Bool) (w' : World) :
    Regular w o ⟨ok, ((o.checkIfExists w).getAbsolutePath sys w₁).1, w', false⟩ :=
  of_kept ((kept_checkIfExists hc w).trans
    (getAbsolutePath_kept (kept_checkIfExists hc w).coherent)) (fun _ => hm) ok w'

/-- An object that keeps its path is there when it was. -/
theorem present_iff (h : Regular w o out) (hc : o.Coherent) (hset : out.pathSet = false)
    (w' : World) : out.obj.Present w' ↔ o.Present w' :=
  Kept.present_iff ⟨h.path hset, h.type, h.coherent⟩ hc w'

/-- The cache of the object may be emptied. -/
theorem forget {ok : Bool} {w' : World} {b : Bool} (h : Regular w o ⟨ok, o', w', b⟩) :
    Regular w o ⟨ok, { o' with mExists := false }, w', b⟩ where
  coherent := h.coherent.of_caches rfl (fun hm => nomatch hm)
    (Path.parts_exists o'.toPath false)
  type := h.type
  path := h.path
  cached hm := nomatch hm

end Regular

theorem coherent_setPath (o : FsObject) (path : Str) : (o.setPath path).Coherent :=
  Path.Coherent.of_setPath o.toPath path

theorem mExists_of_not {b : Bool} (h : ¬ (!b) = true) : b = true := by
  simpa using h

theorem regular_analyze (hc : o.Coherent) : Regular w o (call sys w o .analyze) := by
  refine Regular.of_kept (kept_analyze hc) (fun hm => ?_) _ _
  refine (checkIfExists_mExists_iff hc).2 (Or.inl ?_)
  by_contra hne
  rw [Bool.not_eq_true] at hne
  rw [analyze_mExists_of_false hne] at hm
  cases hm

theorem regular_getAbsolutePath (hc : o.Coherent) :
    Regular w o (call sys w o .getAbsolutePath) := by
  refine Regular.of_kept (getAbsolutePath_kept hc) (fun hm => ?_) _ _
  rwa [getAbsolutePath_mExists hc] at hm

theorem regular_move (hc : o.Coherent) (dstPath : Str) :
    Regular w o (move sys w o dstPath) := by
  have hcases := prepare_cases sys w o dstPath
  unfold move
  dsimp only
  split
  · rw [hcases.obj_eq]
    exact Regular.of_check hc _ _
  · rename_i hok
    have hm := hcases.mExists (mExists_of_not hok)
    rw [hcases.obj_eq]
    split
    · exact Regular.of_absolute hc hm _ _ _
    · exact (Regular.of_absolute hc hm _ _ _).forget

theorem regular_copy (hc : o.Coherent) (dstPath : Str) :
    Regular w o (copy sys w o dstPath) := by
  have hcases := prepare_cases sys w o dstPath
  unfold copy
  dsimp only
  split
  · rw [hcases.obj_eq]
    exact Regular.of_check hc _ _
  · rename_i hok
    rw [hcases.obj_eq]
    exact Regular.of_absolute hc (hcases.mExists (mExists_of_not hok)) _ _ _

theorem regular_createSymLink (hc : o.Coherent) (dstPath : Str) :
    Regular w o (createSymLink sys w o dstPath) := by
  unfold createSymLink
  dsimp only
  split
  · exact Regular.of_check hc _ _
  · split
    · exact Regular.of_check hc _ _
    · split <;> exact Regular.of_check hc _ _

theorem regular_remove (hc : o.Coherent) : Regular w o (remove sys w o) := by
  unfold remove
  dsimp only
  split
  · exact Regular.of_check hc _ _
  · rename_i hm
    have habsolute : ∀ ok w', Regular w o
        ⟨ok, ((o.checkIfExists w).getAbsolutePath sys w).1, w', false⟩ :=
      Regular.of_absolute hc (mExists_of_not hm) w
    split
    · split
      · exact habsolute _ _
      · exact (habsolute _ _).forget
    · split
      · exact habsolute _ _
      · exact (habsolute _ _).forget

theorem regular_removeSymLink (hc : o.Coherent) : Regular w o (removeSymLink sys w o) := by
  unfold removeSymLink
  dsimp only
  split
  · exact Regular.of_check hc _ _
  · rename_i hm
    have habsolute : ∀ ok w', Regular w o
        ⟨ok, ((o.checkIfExists w).getAbsolutePath sys w).1, w', false⟩ :=
      Regular.of_absolute hc (mExists_of_not hm) w
    split
    · split
      · exact habsolute _ _
      · -- The path is set to the absolute path.
        exact ⟨coherent_setPath _ _, (habsolute true w).type, (fun h => nomatch h),
          fun h => nomatch h⟩
    · exact Regular.of_check hc _ _

theorem regular_setOwner (hc : o.Coherent) (owner : Str) :
    Regular w o (setOwner sys w o owner) := by
  unfold setOwner
  dsimp only
  split
  · exact Regular.of_check hc _ _
  · rename_i hm
    exact Regular.of_absolute hc (mExists_of_not (not_or.1 hm).1) _ _ _

theorem regular_setGroup (hc : o.Coherent) (group : Str) :
    Regular w o (setGroup sys w o group) := by
  unfold setGroup
  dsimp only
  split
  · exact Regular.of_check hc _ _
  · rename_i hm
    exact Regular.of_absolute hc (mExists_of_not (not_or.1 hm).1) _ _ _

theorem regular_changeMode (hc : o.Coherent) (mode : Nat) :
    Regular w o (changeMode sys w o mode) := by
  unfold changeMode
  dsimp only
  split
  · exact Regular.of_check hc _ _
  · rename_i hm
    split <;> exact Regular.of_absolute hc (mExists_of_not (not_or.1 hm).1) _ _ _

/-! ## Checking twice -/

/-- `move` checks the object itself, so checking it before makes no
difference. -/
theorem move_checkIfExists (dstPath : Str) (hm : (o.checkIfExists w).mExists = true) :
    move sys w (o.checkIfExists w) dstPath = move sys w o dstPath := by
  have hprepare : prepare sys w (o.checkIfExists w) dstPath = prepare sys w o dstPath := by
    unfold prepare
    dsimp only
    rw [checkIfExists_of_mExists hm]
  unfold move
  rw [hprepare]

theorem remove_checkIfExists (hm : (o.checkIfExists w).mExists = true) :
    remove sys w (o.checkIfExists w) = remove sys w o := by
  unfold remove
  dsimp only
  rw [checkIfExists_of_mExists hm]

/-- An object that is not there is not moved. -/
theorem move_of_not_exists (dstPath : Str) (hm : (o.checkIfExists w).mExists = false) :
    move sys w o dstPath = ⟨false, o.checkIfExists w, w, false⟩ := by
  have hstops : prepare sys w o dstPath = ⟨false, o.checkIfExists w, ofStr dstPath, w⟩ := by
    unfold prepare
    dsimp only
    rw [if_pos (by simp [hm])]
  unfold move
  dsimp only
  rw [hstops]
  rfl

theorem remove_of_not_exists (hm : (o.checkIfExists w).mExists = false) :
    remove sys w o = ⟨false, o.checkIfExists w, w, false⟩ := by
  unfold remove
  dsimp only
  rw [if_pos (by simp [hm])]

/-! ## Creating an object -/

/-- The object and the world after the directory of the path was made. -/
theorem regular_makePath (hc : o.Coherent) (ok : Bool) (w' : World) :
    Regular w o ⟨ok, (makePath sys w o defaultMode).obj, w', false⟩ := by
  refine Regular.of_kept (makePath_kept hc) (fun hm => ?_) ok w'
  rwa [makePath_mExists hc] at hm

/-- What `create` has done when it comes to an end, or to the next name. -/
inductive CreateCases (sys : System) (mode fuel : Nat) (w : World) (o : FsObject) :
    Outcome → Prop
  | done (ok : Bool) (w' : World) (hgrown : Grown (makePath sys w o defaultMode).world w') :
      CreateCases sys mode fuel w o ⟨ok, (makePath sys w o defaultMode).obj, w', false⟩
  | next (path : Str) :
      CreateCases sys mode fuel w o
        { createLoop sys mode fuel (makePath sys w o defaultMode).world
            ((makePath sys w o defaultMode).obj.setPath path) with pathSet := true }

theorem createLoop_cases (sys : System) (mode fuel : Nat) (w : World) (o : FsObject) :
    CreateCases sys mode fuel w o (createLoop sys mode (fuel + 1) w o) := by
  unfold createLoop
  dsimp only
  split
  · exact CreateCases.done _ _ (Grown.refl _)
  · split
    · split
      · split
        · exact CreateCases.done _ _ (Grown.refl _)
        · rename_i hmkdir
          obtain ⟨-, -, -, hext, hcwd, -⟩ := System.mkdir_spec hmkdir
          exact CreateCases.done _ _ ⟨hext, hcwd⟩
      · split
        · exact CreateCases.done _ _ (Grown.refl _)
        · rename_i hcreat
          obtain ⟨hext, hcwd, -⟩ := System.creat_spec hcreat
          exact CreateCases.done _ _ ⟨hext, hcwd⟩
    · split
      · exact CreateCases.done _ _ (Grown.refl _)
      · exact CreateCases.next _

theorem makePath_preserves (hc : o.Coherent) (mode : Nat) :
    Preserves w (makePath sys w o mode).world :=
  Preserves.of_grown (makePath_paved hc).toGrown

theorem createLoop_preserves (hc : o.Coherent) (mode fuel : Nat) :
    Preserves w (createLoop sys mode fuel w o).world := by
  induction fuel generalizing w o with
  | zero => exact Preserves.refl w
  | succ fuel ih =>
    have hcases := createLoop_cases sys mode fuel w o
    generalize createLoop sys mode (fuel + 1) w o = out at hcases ⊢
    cases hcases with
    | done ok w' hgrown =>
      exact (makePath_preserves hc _).trans (Preserves.of_grown hgrown)
    | next path => exact (makePath_preserves hc _).trans (ih (coherent_setPath _ _))

theorem regular_createLoop (hc : o.Coherent) (mode fuel : Nat) :
    Regular w o (createLoop sys mode fuel w o) := by
  induction fuel generalizing w o with
  | zero =>
    exact Regular.of_kept (Kept.refl hc)
      (fun hm => (checkIfExists_mExists_iff hc).2 (Or.inl hm)) _ _
  | succ fuel ih =>
    have hmade : Regular w o ⟨true, (makePath sys w o defaultMode).obj, w, false⟩ :=
      regular_makePath hc true w
    have hcases := createLoop_cases sys mode fuel w o
    generalize createLoop sys mode (fuel + 1) w o = out at hcases ⊢
    cases hcases with
    | done ok w' hgrown => exact regular_makePath hc ok w'
    | next path =>
      have hnext := ih (w := (makePath sys w o defaultMode).world)
        (o := (makePath sys w o defaultMode).obj.setPath path) (coherent_setPath _ _)
      refine ⟨hnext.coherent, hnext.type.trans hmade.type, (fun h => nomatch h), fun hm => ?_⟩
      -- The new name is not cached, so its test has seen it.
      rcases hnext.cached hm with ⟨hset, hexists⟩ | hpresent
      · rw [checkIfExists_of_not_mExists (coherent_setPath _ _) rfl] at hexists
        exact Or.inr ((hnext.present_iff (coherent_setPath _ _) hset _).2
          (hexists.preserves (createLoop_preserves (coherent_setPath _ _) mode fuel)))
      · exact Or.inr hpresent

/-- What an object that is cached says is right. -/
def Sound (w : World) (o : FsObject) : Prop := o.mExists = true → o.Present w

theorem Sound.checkIfExists (hc : o.Coherent) (h : o.Sound w)
    (hm : (o.checkIfExists w).mExists = true) : o.Present w := by
  rcases (checkIfExists_mExists_iff hc).1 hm with hm | hm
  · exact h hm
  · exact hm

/-! ## All methods -/

theorem call_regular (hc : o.Coherent) (sys : System) (w : World) (m : Method) :
    Regular w o (call sys w o m) := by
  cases m with
  | analyze => exact regular_analyze hc
  | isExist => exact Regular.of_check hc _ _
  | getAbsolutePath => exact regular_getAbsolutePath hc
  | create mode => exact regular_createLoop hc mode _
  | move dstPath => exact regular_move hc dstPath
  | copy dstPath => exact regular_copy hc dstPath
  | createSymLink dstPath => exact regular_createSymLink hc dstPath
  | remove => exact regular_remove hc
  | removeSymLink => exact regular_removeSymLink hc
  | setOwner owner => exact regular_setOwner hc owner
  | setGroup group => exact regular_setGroup hc group
  | changeMode mode => exact regular_changeMode hc mode

theorem getAbsolutePath_preserves (hc : o.Coherent) :
    Preserves w (getAbsolutePath sys w o).2 :=
  Preserves.of_grown (getAbsolutePath_paved hc).toGrown

theorem createSymLink_preserves (dstPath : Str) :
    Preserves w (createSymLink sys w o dstPath).world := by
  have hkept := kept_destination w dstPath
  unfold createSymLink
  dsimp only
  split
  · exact Preserves.refl w
  · split
    · exact Preserves.refl w
    · -- The place for the link is made first.
      have hmade : ∀ made : Outcome,
          made = (if (destination w dstPath).mExists then ⟨true, destination w dstPath, w, false⟩
            else create sys w (destination w dstPath) defaultMode) →
          Preserves w made.world ∧ made.obj.Coherent := by
        rintro made rfl
        split
        · exact ⟨Preserves.refl w, hkept.coherent⟩
        · exact ⟨createLoop_preserves hkept.coherent _ _,
            (regular_createLoop (w := w) hkept.coherent _ _).coherent⟩
      obtain ⟨hpreserves, hcoherent⟩ := hmade _ rfl
      have habsolute : Preserves w (getAbsolutePath sys _ _).2 :=
        hpreserves.trans (getAbsolutePath_preserves hcoherent)
      split
      · exact habsolute
      · rename_i w' hsymlink
        obtain ⟨hext, hcwd, -⟩ := System.symlink_spec hsymlink
        exact habsolute.trans (Preserves.of_grown ⟨hext, hcwd⟩)

theorem changeMode_preserves (hc : o.Coherent) (mode : Nat) :
    Preserves w (changeMode sys w o mode).world := by
  have hkept := kept_checkIfExists hc w
  unfold changeMode
  dsimp only
  split
  · exact Preserves.refl w
  · have habsolute : Preserves w ((o.checkIfExists w).getAbsolutePath sys w).2 :=
      getAbsolutePath_preserves hkept.coherent
    split
    · exact habsolute
    · rename_i w' hchmod
      obtain ⟨hcwd, hkinds⟩ := System.chmod_spec hchmod
      exact habsolute.trans ⟨fun l kind hl => by rw [hkinds, hl], hcwd⟩

/-- Every call that is not destructive preserves what is there. -/
theorem call_preserves (hc : o.Coherent) (m : Method) (hm : ¬ m.Destructive) :
    Preserves w (call sys w o m).world := by
  cases m with
  | analyze => exact Preserves.refl w
  | isExist => exact Preserves.refl w
  | getAbsolutePath => exact getAbsolutePath_preserves hc
  | create mode => exact createLoop_preserves hc mode _
  | createSymLink dstPath => exact createSymLink_preserves dstPath
  | changeMode mode => exact changeMode_preserves hc mode
  | move | copy | remove | removeSymLink | setOwner | setGroup => exact absurd trivial hm

end FsObject

end SysFs
