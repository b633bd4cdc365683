import SysFs.FsObject
import SysFs.PathText

/-!
# What the methods of an object keep

Every method of `FsObject` may fill the caches of its object and make
directories on the way to a path.  `Kept` says that an object has changed in
its caches only, and `Paved` that a world has changed only by new directories
that the beginnings of a path lead to.  Both are transitive, so the statement
about a method follows from those about the methods it calls:

* `checkIfExists_mExists_iff`: what the cache answers.
* `makePath_paved`, `makePath_again`: which directories are made, and that they
  are made once.
* `getAbsolutePath_located`: what the absolute path is.
-/

namespace SysFs

open Posix

/-! ## Directories made on the way to a path -/

/-- The tree has grown, and the working directory is the same. -/
structure Grown (w w' : World) : Prop where
  ext : w.tree.Extends w'.tree
  cwd : w'.cwd = w.cwd

namespace Grown

variable {w w' w'' : World}

theorem refl (w : World) : Grown w w := ⟨FileTree.Extends.refl _, rfl⟩

theorem trans (h : Grown w w') (h' : Grown w' w'') : Grown w w'' :=
  ⟨h.ext.trans h'.ext, h'.cwd.trans h.cwd⟩

theorem lookup {path : Str} {l : Loc} (h : Grown w w') (hl : w.lookup path = some l) :
    w'.lookup path = some l := World.lookup_grow hl h.ext h.cwd

theorem stat {path : Str} {v : Node} (h : Grown w w') (hv : w.stat path = some v) :
    w'.stat path = some v := by
  obtain ⟨l, hl, hget⟩ := World.stat_eq_some_iff.1 hv
  exact World.stat_eq_some_iff.2 ⟨l, h.lookup hl, h.ext l v hget⟩

end Grown

/-- The world has grown by directories only, and each of them is what some
beginning of the path leads to. -/
structure Paved (path : Str) (w w' : World) : Prop extends Grown w w' where
  made : ∀ l, w.tree.get l = none → w'.tree.get l ≠ none →
    w'.tree.IsDir l ∧ ∃ q, q <+: path ∧ w'.lookup q = some l

namespace Paved

variable {path : Str} {w w' w'' : World}

theorem refl (path : Str) (w : World) : Paved path w w :=
  ⟨Grown.refl w, fun _ hnone hne => absurd hnone hne⟩

theorem trans (h : Paved path w w') (h' : Paved path w' w'') : Paved path w w'' where
  toGrown := h.toGrown.trans h'.toGrown
  made := by
    intro l hnone hne
    by_cases hmid : w'.tree.get l = none
    · exact h'.made l hmid hne
    · obtain ⟨hdir, q, hq, hl⟩ := h.made l hnone hmid
      exact ⟨h'.ext.isDir hdir, q, hq, h'.toGrown.lookup hl⟩

theorem mono {path' : Str} (h : Paved path w w') (hp : path <+: path') :
    Paved path' w w' where
  toGrown := h.toGrown
  made := by
    intro l hnone hne
    obtain ⟨hdir, q, hq, hl⟩ := h.made l hnone hne
    exact ⟨hdir, q, hq.trans hp, hl⟩

/-- What the world has grown by does not depend on its clock. -/
theorem of_tree_eq (h : Paved path w w') (htree : w''.tree = w'.tree)
    (hcwd : w''.cwd = w'.cwd) : Paved path w w'' := by
  obtain ⟨⟨hext, hcwd'⟩, hmade⟩ := h
  have hlookup : ∀ q, w''.lookup q = w'.lookup q := by
    intro q
    rw [World.lookup, World.lookup, World.start, World.start, htree, hcwd]
  refine ⟨⟨by rwa [htree], by rw [hcwd, hcwd']⟩, fun l hnone hne => ?_⟩
  rw [htree] at hne ⊢
  obtain ⟨hdir, q, hq, hl⟩ := hmade l hnone hne
  exact ⟨hdir, q, hq, by rw [hlookup, hl]⟩

end Paved

/-! ## Objects that change in their caches only -/

namespace FsObject

/-- The parts of the object are those of its string. -/
abbrev Coherent (o : FsObject) : Prop := o.toPath.Coherent

/-- There is an entry at the full path of the object, of a kind that fits its
type. -/
def Present (w : World) (o : FsObject) : Prop :=
  ∃ v, w.stat o.fullPath = some v ∧ o.mType.unlike v.kind = false

/-- An object with other caches. -/
structure Kept (o o' : FsObject) : Prop where
  path : o'.mPath = o.mPath
  type : o'.mType = o.mType
  coherent : o'.Coherent

namespace Kept

variable {o o' o'' : FsObject}

theorem refl (h : o.Coherent) : Kept o o := ⟨rfl, rfl, h⟩

theorem trans (h : Kept o o') (h' : Kept o' o'') : Kept o o'' :=
  ⟨h'.path.trans h.path, h'.type.trans h.type, h'.coherent⟩

theorem fullPath (h : Kept o o') (hc : o.Coherent) : o'.fullPath = o.fullPath := by
  rw [h.coherent.fullPath_eq, hc.fullPath_eq, h.path]

theorem fileName (h : Kept o o') (hc : o.Coherent) : o'.fileName = o.fileName := by
  rw [h.coherent.fileName_eq, hc.fileName_eq, h.path]

theorem directoryPath (h : Kept o o') (hc : o.Coherent) :
    o'.directoryPath = o.directoryPath := by
  rw [h.coherent.directoryPath_eq, hc.directoryPath_eq, h.path]

theorem present_iff (h : Kept o o') (hc : o.Coherent) (w : World) :
    o'.Present w ↔ o.Present w := by
  rw [Present, Present, h.fullPath hc, h.type]

end Kept

variable {sys : System} {w w' : World} {o : FsObject} {mode : Nat}

/-! ## The existence cache -/

/-- The empty path has no status, so its test changes nothing. -/
theorem getStat_eq (hc : o.Coherent) : o.getStat w = w.stat o.fullPath := by
  unfold getStat
  split
  · rename_i hempty
    have hpath : o.mPath = [] := List.isEmpty_iff.1 hempty
    rw [hc.fullPath_eq, hpath]
    rfl
  · rfl

theorem kept_analyze (hc : o.Coherent) : Kept o o.analyze :=
  ⟨Path.analyze_mPath _, rfl, hc.analyze⟩

/-- The cache of an analyzed object can be set. -/
theorem kept_analyze_exists (hc : o.Coherent) (b : Bool) :
    Kept o { o.analyze with mExists := b } := by
  refine ⟨Path.analyze_mPath _, rfl, ?_⟩
  exact hc.analyze.of_caches rfl (fun _ => Path.analyze_mDetails _)
    (Path.parts_exists o.toPath.analyze b)

theorem kept_checkIfExists (hc : o.Coherent) (w : World) : Kept o (o.checkIfExists w) := by
  unfold checkIfExists
  split
  · exact Kept.refl hc
  · split
    · exact kept_analyze hc
    · exact kept_analyze_exists hc _

theorem checkIfExists_mRealPath (w : World) (o : FsObject) :
    (o.checkIfExists w).mRealPath = o.mRealPath := by
  unfold checkIfExists
  split
  · rfl
  · split <;> rfl

/-- The cache says yes when it did before, or when the object is there. -/
theorem checkIfExists_mExists_iff (hc : o.Coherent) :
    (o.checkIfExists w).mExists = true ↔ o.mExists = true ∨ o.Present w := by
  unfold checkIfExists Present
  split
  · rename_i h
    rcases Bool.or_eq_true_iff.1 h with h | h
    · simp [h]
    · have hnone : w.stat o.fullPath = none := by
        rw [← getStat_eq hc, getStat, if_pos h]
      simp [hnone]
  · rename_i h
    have hfalse : o.mExists = false := by
      simp only [Bool.or_eq_true, not_or, Bool.not_eq_true] at h
      exact h.1
    rw [getStat_eq hc]
    split
    · rename_i hnone
      have hanalyze : o.analyze.mExists = false := by
        change o.toPath.analyze.mExists = false
        unfold Path.analyze
        split
        · exact hfalse
        · rfl
      simp [hanalyze, hnone, hfalse]
    · rename_i v hv
      simp [hv, hfalse]

/-- The existence cache of an object that was not cached is right. -/
theorem checkIfExists_of_not_mExists (hc : o.Coherent) (h : o.mExists = false) :
    (o.checkIfExists w).mExists = true ↔ o.Present w := by
  rw [checkIfExists_mExists_iff hc, h]
  simp

/-! ## Making a path -/

theorem withoutSlash_beginning (s : Str) : withoutSlash s <+: s := by
  unfold withoutSlash
  split
  · exact List.dropLast_prefix s
  · exact List.prefix_rfl

/-- The loop of `makePath` looks at beginnings of its path. -/
theorem prefix_of_mem_cuts {q tmp : Str} (h : q ∈ cuts tmp) : q <+: tmp := by
  rcases List.mem_append.1 h with h | h
  · obtain ⟨p, -, rfl⟩ := List.mem_map.1 h
    exact List.take_prefix p tmp
  · rw [List.mem_singleton.1 h]

theorem isDir_iff {l : Loc} {v : Node} (hv : w.tree.get l = some v) :
    w.tree.IsDir l ↔ v.kind = .directory := by
  rw [FileTree.IsDir, FileTree.kindAt_eq, hv, Option.map_some, Option.some.injEq]

/-- `stat` finds a directory where the path leads to one. -/
theorem dir_of_stat {path : Str} (h : ((w.stat path).any fun v => v.kind = .directory) = true) :
    ∃ q, w.lookup path = some q ∧ w.tree.IsDir q := by
  obtain ⟨u, hu, hkind⟩ := (Option.any_eq_true _ _).1 h
  obtain ⟨q, hq, hget⟩ := World.stat_eq_some_iff.1 hu
  exact ⟨q, hq, (isDir_iff hget).2 (by simpa using hkind)⟩

/-- A directory that is there is passed over. -/
theorem makeDirs_cons_of_dir {q : Str} {v : Node} (hv : w.stat q = some v)
    (hkind : v.kind = .directory) (qs : List Str) :
    makeDirs sys mode w (q :: qs) = makeDirs sys mode w qs := by
  simp [makeDirs, hv, hkind]

/-- Behind a directory that is made, the others are made. -/
theorem makeDirs_cons_of_mkdir {q : Str} (hnone : w.stat q = none)
    (hmkdir : sys.mkdir w q mode = some w') (qs : List Str) :
    makeDirs sys mode w (q :: qs) = makeDirs sys mode w' qs := by
  simp [makeDirs, hnone, hmkdir]

/-- The loop adds directories only, and each of them is what one of its paths
leads to. -/
theorem makeDirs_made (sys : System) (mode : Nat) (w : World) (qs : List Str) : Grown w (makeDirs sys mode w qs).2 ∧
    ∀ l, w.tree.get l = none → (makeDirs sys mode w qs).2.tree.get l ≠ none →
      (makeDirs sys mode w qs).2.tree.IsDir l ∧
        ∃ q ∈ qs, (makeDirs sys mode w qs).2.lookup q = some l := by
  induction qs generalizing w with
  | nil => exact ⟨Grown.refl w, fun _ hnone hne => absurd hnone hne⟩
  | cons q qs ih =>
    cases hstat : w.stat q with
    | none =>
      cases hmkdir : sys.mkdir w q mode with
      | none =>
        simp only [makeDirs, hstat, hmkdir]
        exact ⟨Grown.refl w, fun _ hnone hne => absurd hnone hne⟩
      | some w' =>
        obtain ⟨l, -, -, hext, hcwd, hdir, hother, hlookup⟩ := System.mkdir_spec hmkdir
        obtain ⟨hgrown, hmade⟩ := ih w'
        rw [makeDirs_cons_of_mkdir hstat hmkdir]
        refine ⟨Grown.trans ⟨hext, hcwd⟩ hgrown, fun x hnone hne => ?_⟩
        rcases eq_or_ne x l with rfl | hx
        · exact ⟨hgrown.ext.isDir hdir, q, List.mem_cons_self, hgrown.lookup hlookup⟩
        · obtain ⟨hxdir, r, hr, hrl⟩ := hmade x (by rw [hother x hx, hnone]) hne
          exact ⟨hxdir, r, List.mem_cons_of_mem _ hr, hrl⟩
    | some v =>
      by_cases hkind : v.kind = .directory
      · rw [makeDirs_cons_of_dir hstat hkind]
        obtain ⟨hgrown, hmade⟩ := ih w
        refine ⟨hgrown, fun x hnone hne => ?_⟩
        obtain ⟨hxdir, r, hr, hrl⟩ := hmade x hnone hne
        exact ⟨hxdir, r, List.mem_cons_of_mem _ hr, hrl⟩
      · simp only [makeDirs, hstat, hkind, if_false]
        exact ⟨Grown.refl w, fun _ hnone hne => absurd hnone hne⟩

theorem makeDirs_paved {path : Str} {qs : List Str} (h : ∀ q ∈ qs, q <+: path) (w : World) :
    Paved path w (makeDirs sys mode w qs).2 := by
  obtain ⟨hgrown, hmade⟩ := makeDirs_made sys mode w qs
  refine ⟨hgrown, fun l hnone hne => ?_⟩
  obtain ⟨hdir, q, hq, hl⟩ := hmade l hnone hne
  exact ⟨hdir, q, h q hq, hl⟩

/-- The test and the loop of `makePath`, for a path with its separator. -/
theorem makeParents_slash (sys : System) (w : World) (p : Str) (mode : Nat) :
    makeParents sys w (p ++ ['/']) mode
      = if (w.stat p).any (fun v => v.kind = .directory) then (true, w)
        else makeDirs sys mode w (cuts p) := by
  have hslash : withoutSlash (p ++ ['/']) = p := by simp [withoutSlash]
  rw [makeParents, if_neg (by simp), hslash]

theorem makeParents_paved (w : World) (dir : Str) :
    Paved dir w (makeParents sys w dir mode).2 := by
  unfold makeParents
  split
  · exact Paved.refl dir w
  · dsimp only
    split
    · exact Paved.refl dir w
    · exact makeDirs_paved
        (fun q hq => (prefix_of_mem_cuts hq).trans (withoutSlash_beginning dir)) w

/-- `makePath` makes nothing when the cache says that the object is there. -/
theorem makePath_of_exists (h : (o.checkIfExists w).mExists = true) :
    makePath sys w o mode = ⟨true, o.checkIfExists w, w, false⟩ := by
  rw [makePath, if_pos h]

/-- Otherwise it makes the directory of the path. -/
theorem makePath_of_not_exists (hc : o.Coherent) (h : (o.checkIfExists w).mExists = false) :
    makePath sys w o mode = ⟨(makeParents sys w o.directoryPath mode).1,
      (o.checkIfExists w).analyze, (makeParents sys w o.directoryPath mode).2, false⟩ := by
  have hdir : (o.checkIfExists w).analyze.mDirectoryPath = o.directoryPath :=
    (kept_checkIfExists hc w).directoryPath hc
  rw [makePath, if_neg (by simp [h])]
  dsimp only
  rw [hdir]

theorem makePath_kept (hc : o.Coherent) : Kept o (makePath sys w o mode).obj := by
  have hkept := kept_checkIfExists hc w
  cases h : (o.checkIfExists w).mExists with
  | true =>
    rw [makePath_of_exists h]
    exact hkept
  | false =>
    rw [makePath_of_not_exists hc h]
    exact hkept.trans (kept_analyze hkept.coherent)

theorem makePath_mDetails (hc : o.Coherent) : (makePath sys w o mode).obj.mDetails = true := by
  cases h : (o.checkIfExists w).mExists with
  | true =>
    rw [makePath_of_exists h]
    exact (kept_checkIfExists hc w).coherent.analyzed h
  | false =>
    rw [makePath_of_not_exists hc h]
    exact Path.analyze_mDetails _

theorem makePath_mRealPath (hc : o.Coherent) :
    (makePath sys w o mode).obj.mRealPath = o.mRealPath := by
  rw [← checkIfExists_mRealPath w o]
  cases h : (o.checkIfExists w).mExists with
  | true => rw [makePath_of_exists h]
  | false =>
    rw [makePath_of_not_exists hc h]
    rfl

theorem analyze_mExists_of_false (h : o.mExists = false) : o.analyze.mExists = false := by
  change o.toPath.analyze.mExists = false
  unfold Path.analyze
  split
  · exact h
  · rfl

theorem makePath_mExists (hc : o.Coherent) :
    (makePath sys w o mode).obj.mExists = (o.checkIfExists w).mExists := by
  cases h : (o.checkIfExists w).mExists with
  | true =>
    rw [makePath_of_exists h]
    exact h
  | false =>
    rw [makePath_of_not_exists hc h]
    exact analyze_mExists_of_false h

theorem makePath_paved (hc : o.Coherent) :
    Paved o.directoryPath w (makePath sys w o mode).world := by
  cases h : (o.checkIfExists w).mExists with
  | true =>
    rw [makePath_of_exists h]
    exact Paved.refl _ _
  | false =>
    rw [makePath_of_not_exists hc h]
    exact makeParents_paved w _

/-- What `makeDirs` has made is there when it is called again, and what it could
not make it still cannot. -/
theorem makeDirs_again {path : Str} {qs : List Str} (h : ∀ q ∈ qs, q <+: path) (w : World) :
    (makeDirs sys mode (makeDirs sys mode w qs).2 qs).2 = (makeDirs sys mode w qs).2 := by
  induction qs generalizing w with
  | nil => rfl
  | cons q qs ih =>
    have hqs : ∀ r ∈ qs, r <+: path := fun r hr => h r (List.mem_cons_of_mem _ hr)
    cases hstat : w.stat q with
    | none =>
      cases hmkdir : sys.mkdir w q mode with
      | none => simp [makeDirs, hstat, hmkdir]
      | some w' =>
        obtain ⟨l, -, -, -, -, hdir, -, hlookup⟩ := System.mkdir_spec hmkdir
        obtain ⟨v, hv⟩ := Option.ne_none_iff_exists'.1 hdir.get_ne_none
        have hv' : w'.stat q = some v := World.stat_eq_some_iff.2 ⟨l, hlookup, hv⟩
        have hkind : v.kind = .directory := (isDir_iff hv).1 hdir
        rw [makeDirs_cons_of_mkdir hstat hmkdir,
          makeDirs_cons_of_dir ((makeDirs_paved hqs w').toGrown.stat hv') hkind, ih hqs w']
    | some v =>
      by_cases hkind : v.kind = .directory
      · rw [makeDirs_cons_of_dir hstat hkind,
          makeDirs_cons_of_dir ((makeDirs_paved hqs w).toGrown.stat hstat) hkind, ih hqs w]
      · simp [makeDirs, hstat, hkind]

theorem makeParents_again (w : World) (dir : Str) :
    (makeParents sys (makeParents sys w dir mode).2 dir mode).2
      = (makeParents sys w dir mode).2 := by
  by_cases hnil : dir = []
  · simp [makeParents, hnil]
  · by_cases hthere : (w.stat (withoutSlash dir)).any (fun v => v.kind = .directory) = true
    · have hfirst : makeParents sys w dir mode = (true, w) := by
        rw [makeParents, if_neg hnil]
        exact if_pos hthere
      rw [hfirst]
      dsimp only
      rw [hfirst]
    · have hfirst : makeParents sys w dir mode = makeDirs sys mode w (cuts (withoutSlash dir)) := by
        rw [makeParents, if_neg hnil]
        exact if_neg hthere
      rw [hfirst, makeParents, if_neg hnil]
      dsimp only
      split
      · rfl
      · exact makeDirs_again (fun q hq => prefix_of_mem_cuts hq) w

/-- Making the directories of a path again makes nothing. -/
theorem makePath_again (hc : o.Coherent) :
    (makePath sys (makePath sys w o mode).world (makePath sys w o mode).obj mode).world
      = (makePath sys w o mode).world := by
  have hkept : Kept o (makePath sys w o mode).obj := makePath_kept hc
  cases hagain : ((makePath sys w o mode).obj.checkIfExists (makePath sys w o mode).world).mExists
    with
  | true => rw [makePath_of_exists hagain]
  | false =>
    rw [makePath_of_not_exists hkept.coherent hagain, hkept.directoryPath hc]
    cases h : (o.checkIfExists w).mExists with
    | true =>
      rw [makePath_of_exists h] at hagain
      rw [checkIfExists, if_pos (by simp [h]), h] at hagain
      cases hagain
    | false =>
      rw [makePath_of_not_exists hc h]
      exact makeParents_again w _

/-! ## The absolute path -/

/-- What the two `realpath` calls of `getAbsolutePath` give for an object. -/
def located (w : World) (o : FsObject) : Option Str :=
  match w.realpath o.fullPath with
  | some r => some r
  | none => (w.realpath o.directoryPath).map fun r => r ++ slash ++ o.fileName

/-- The world after `getAbsolutePath`. -/
theorem getAbsolutePath_world :
    (getAbsolutePath sys w o).2 = (makePath sys w o defaultMode).world := by
  unfold getAbsolutePath
  dsimp only
  split
  · rfl
  · split <;> rfl

/-- What `getAbsolutePath` makes of the object, when one of the two calls succeeds
and when both fail. -/
theorem getAbsolutePath_located (hc : o.Coherent) :
    (getAbsolutePath sys w o).1
      = (located (makePath sys w o defaultMode).world o).elim
          { (makePath sys w o defaultMode).obj with mAbsolute := false }
          fun r => { (makePath sys w o defaultMode).obj with mRealPath := r } := by
  have hkept : Kept o (makePath sys w o defaultMode).obj := makePath_kept hc
  have hdetails : (makePath sys w o defaultMode).obj.toPath.analyze
      = (makePath sys w o defaultMode).obj.toPath :=
    Path.analyze_of_details (makePath_mDetails hc)
  have hfull : (makePath sys w o defaultMode).obj.mFullPath = o.fullPath := by
    rw [← hkept.fullPath hc, Path.fullPath, hdetails]
  have hdir : (makePath sys w o defaultMode).obj.mDirectoryPath = o.directoryPath := by
    rw [← hkept.directoryPath hc, Path.directoryPath, hdetails]
  have hname : (makePath sys w o defaultMode).obj.mFilename = o.fileName := by
    rw [← hkept.fileName hc, Path.fileName, hdetails]
  rw [located, getAbsolutePath]
  simp only [hfull, hdir, hname]
  cases (makePath sys w o defaultMode).world.realpath o.fullPath with
  | some r => rfl
  | none =>
    cases (makePath sys w o defaultMode).world.realpath o.directoryPath with
    | some r => rfl
    | none => rfl

/-- The absolute path is what the two calls give, and the old one when both
fail. -/
theorem getAbsolutePath_mRealPath (hc : o.Coherent) :
    (getAbsolutePath sys w o).1.mRealPath
      = (located (getAbsolutePath sys w o).2 o).getD o.mRealPath := by
  rw [getAbsolutePath_world, getAbsolutePath_located hc]
  cases located (makePath sys w o defaultMode).world o with
  | some r => rfl
  | none => exact makePath_mRealPath hc

/-- `getAbsolutePath` fills caches only. -/
theorem getAbsolutePath_kept (hc : o.Coherent) : Kept o (getAbsolutePath sys w o).1 := by
  have hkept : Kept o (makePath sys w o defaultMode).obj := makePath_kept hc
  unfold getAbsolutePath
  dsimp only
  split
  · exact ⟨hkept.path, hkept.type, hkept.coherent⟩
  · split
    · exact ⟨hkept.path, hkept.type, hkept.coherent⟩
    · refine ⟨hkept.path, hkept.type, ?_⟩
      exact hkept.coherent.of_caches rfl hkept.coherent.analyzed (Path.parts_absolute _ false)

theorem getAbsolutePath_mExists (hc : o.Coherent) :
    (getAbsolutePath sys w o).1.mExists = (o.checkIfExists w).mExists := by
  rw [← makePath_mExists hc]
  unfold getAbsolutePath
  dsimp only
  split
  · rfl
  · split <;> rfl

theorem getAbsolutePath_paved (hc : o.Coherent) :
    Paved o.directoryPath w (getAbsolutePath sys w o).2 := by
  rw [getAbsolutePath_world]
  exact makePath_paved hc

/-- Nothing is made for an object that is cached as there. -/
theorem getAbsolutePath_of_exists (h : (o.checkIfExists w).mExists = true) :
    (getAbsolutePath sys w o).2 = w := by
  rw [getAbsolutePath_world, makePath_of_exists h]

/-! ## Objects that are there -/

/-- An object that was just constructed, as an `FsObject`, a `File` or a
`Dir`. -/
def fresh (t : FileType) (path : Str) : FsObject := { ofStr path with mType := t }

theorem coherent_fresh (t : FileType) (path : Str) : (fresh t path).Coherent :=
  Path.Coherent.of_setPath Path.empty path

theorem not_isDir_of_link {l : Loc} {v : Node} (hv : w.tree.get l = some v)
    (hlink : v.kind.IsLink) : ¬ w.tree.IsDir l := by
  rw [isDir_iff hv]
  obtain ⟨target, htarget⟩ := hlink
  simp [htarget]

theorem getType_eq {v : Node} (hc : o.Coherent) (hv : w.stat o.fullPath = some v) :
    o.getType w = .ofKind v.kind := by
  rw [getType, getStat_eq hc, hv]

theorem ofKind_eq_directory (kind : Kind) :
    FileType.ofKind kind = .directory ↔ kind = .directory := by
  cases kind <;> simp [FileType.ofKind]

theorem stat_of_lookup {path : Str} {l : Loc} {v : Node} (hl : w.lookup path = some l)
    (hv : w.tree.get l = some v) : w.stat path = some v :=
  World.stat_eq_some_iff.2 ⟨l, hl, hv⟩

/-- The absolute path of an object that is there is the one of its location. -/
theorem getAbsolutePath_of_lookup (sys : System) {l : Loc} (hc : o.Coherent)
    (hexists : (o.checkIfExists w).mExists = true) (hl : w.lookup o.fullPath = some l) :
    (getAbsolutePath sys w o).1.mRealPath = World.render l ∧ (getAbsolutePath sys w o).2 = w := by
  have hw : (getAbsolutePath sys w o).2 = w := getAbsolutePath_of_exists hexists
  refine ⟨?_, hw⟩
  rw [getAbsolutePath_mRealPath hc, hw, located, World.realpath_of_lookup hl]
  rfl

theorem isSymbolicLink_iff {path : Str} {e : Loc} {v : Node} (ho : o.fullPath = path)
    (hne : o.isEmpty = false) (he : w.lookupEntry path = some e)
    (hv : w.tree.get e = some v) : o.isSymbolicLink w = true ↔ v.kind.IsLink := by
  have hstat : o.getLStat w = some v := by
    rw [getLStat, if_neg (by simp [hne]), ho, World.lstat, he, Option.bind_some, hv]
  rw [isSymbolicLink, hstat]
  simp

/-- An object that leads somewhere has a path. -/
theorem isEmpty_of_lookup {l : Loc} (hc : o.Coherent) (hl : w.lookup o.fullPath = some l) :
    o.isEmpty = false := by
  cases h : o.isEmpty with
  | false => rfl
  | true =>
    have hpath : o.mPath = [] := List.isEmpty_iff.1 h
    rw [hc.fullPath_eq, hpath] at hl
    exact absurd hl (by rw [show (Path.ofStr []).fullPath = [] from rfl]; simp [World.lookup_nil])

/-- Nothing is made for a directory that is there. -/
theorem makeParents_of_lookup {dir name full : Str} {q : Loc} (h : Path.Shape dir name full)
    (hq : w.lookup dir = some q) (mode : Nat) : (makeParents sys w dir mode).2 = w := by
  have hmade : ∀ d, w.lookup (d ++ ['/']) = some q →
      (makeParents sys w (d ++ ['/']) mode).2 = w := by
    intro d hd
    rw [makeParents_slash]
    rcases eq_or_ne d [] with rfl | hne
    · -- The root, whose path without the separator is empty.
      rfl
    · obtain ⟨hl, hdir⟩ := (World.lookup_append_slash hne).1 hd
      obtain ⟨v, hv, -⟩ := World.lookup_result hl
      have hkind : v.kind = .directory := (isDir_iff hv).1 hdir
      rw [stat_of_lookup hl hv, if_pos (by simpa using hkind)]
  cases h with
  | empty => exact absurd hq (by simp [World.lookup_nil])
  | name f hf hne => exact absurd hq (by simp [World.lookup_nil])
  | root r => exact hmade r hq
  | split d f hf => exact hmade d hq

/-- Checking again changes nothing for an object that is cached. -/
theorem checkIfExists_of_mExists (h : o.mExists = true) : o.checkIfExists w = o := by
  rw [checkIfExists, if_pos (by simp [h])]

end FsObject

end SysFs
