import SysFs.Objects

/-!
# The absolute path of an object

`getAbsolutePath` writes `mRealPath` only when one of its two `realpath` calls
succeeds, and nothing else ever clears it.  So when both fail, the absolute
path that is returned is the last one that was found, whatever path the object
has now.

`getAbsolutePath_presentOnly_iff` says exactly when the answer is the one that
a new object would give, for every object of every program.

For a path that leads nowhere, the answer is put together from the directory and
the name, with a separator in between.  This separator is one too many behind
the root, which is what `getAbsolutePath_canonical_iff` leaves out.
-/

namespace SysFs

open Posix

namespace FsObject

/-- The absolute path is the one that a new object with the same path and type
gives. -/
def PresentOnly (sys : System) (w : World) (o : FsObject) : Prop :=
  (getAbsolutePath sys w o).1.mRealPath
    = (getAbsolutePath sys w (fresh o.mType o.unifiedPath)).1.mRealPath

instance (sys : System) (w : World) (o : FsObject) : Decidable (PresentOnly sys w o) :=
  inferInstanceAs (Decidable (_ = _))

/-- What the two `realpath` calls give once the missing directories of the path
are made. -/
def locatedLater (sys : System) (w : World) (o : FsObject) : Option Str :=
  located (makeParents sys w o.directoryPath defaultMode).2 o

/-- When the absolute path depends only on the present.  Something is found
right away; or, for an object that is not cached as there, something is found
once the missing directories are made, or nothing was ever found before.  For
one that is cached as there, nothing is made, and so the old absolute path has
to be what would be found. -/
def AbsoluteFits (sys : System) (w : World) (o : FsObject) : Prop :=
  located w o ≠ none ∨
    if o.mExists then o.mRealPath = (locatedLater sys w o).getD []
    else locatedLater sys w o = none → o.mRealPath = []

variable {sys : System} {w : World} {o : FsObject}

/-- A new object differs in its caches only. -/
theorem kept_fresh (hc : o.Coherent) : Kept o (fresh o.mType o.unifiedPath) :=
  ⟨hc.unified, rfl, coherent_fresh _ _⟩

theorem located_fresh (hc : o.Coherent) (w : World) :
    located w (fresh o.mType o.unifiedPath) = located w o := by
  have hkept := kept_fresh hc
  rw [located, located, hkept.fullPath hc, hkept.directoryPath hc, hkept.fileName hc]

theorem located_of_present (h : o.Present w) : located w o ≠ none := by
  obtain ⟨v, hv, -⟩ := h
  obtain ⟨l, hl, -⟩ := World.stat_eq_some_iff.1 hv
  simp [located, World.realpath, hl]

/-- What is found right away is found later. -/
theorem locatedLater_of_located {r : Str} (hc : o.Coherent) (h : located w o = some r) :
    locatedLater sys w o = some r := by
  have hgrown : Grown w (makeParents sys w o.directoryPath defaultMode).2 :=
    (makeParents_paved w o.directoryPath).toGrown
  cases hfull : w.lookup o.fullPath with
  | some l =>
    rw [located, World.realpath, hfull] at h
    rw [locatedLater, located, World.realpath, hgrown.lookup hfull]
    exact h
  | none =>
    -- The directory is there, so nothing is made.
    have hdir : w.lookup o.directoryPath ≠ none := by
      intro hnone
      rw [located, World.realpath, World.realpath, hfull, hnone] at h
      cases h
    obtain ⟨q, hq⟩ := Option.ne_none_iff_exists'.1 hdir
    rw [locatedLater, makeParents_of_lookup hc.shape hq]
    exact h

/-- The absolute path, as the caches of the object decide it. -/
theorem getAbsolutePath_eq (hc : o.Coherent) :
    (getAbsolutePath sys w o).1.mRealPath
      = (if (o.checkIfExists w).mExists then located w o
          else locatedLater sys w o).getD o.mRealPath := by
  rw [getAbsolutePath_mRealPath hc, getAbsolutePath_world]
  cases hm : (o.checkIfExists w).mExists with
  | true =>
    rw [makePath_of_exists hm]
    rfl
  | false =>
    rw [makePath_of_not_exists hc hm]
    rfl

/-- The absolute path of a new object. -/
theorem getAbsolutePath_fresh (hc : o.Coherent) :
    (getAbsolutePath sys w (fresh o.mType o.unifiedPath)).1.mRealPath
      = (locatedLater sys w o).getD [] := by
  have hdir := (kept_fresh hc).directoryPath hc
  have hlater : locatedLater sys w (fresh o.mType o.unifiedPath) = locatedLater sys w o := by
    rw [locatedLater, hdir]
    exact located_fresh hc _
  rw [getAbsolutePath_eq (coherent_fresh _ _), hlater, located_fresh hc,
    show (fresh o.mType o.unifiedPath).mRealPath = [] from rfl]
  split
  · rename_i hm
    have hpresent : o.Present w := by
      rwa [checkIfExists_of_not_mExists (coherent_fresh _ _) rfl,
        (kept_fresh hc).present_iff hc] at hm
    obtain ⟨r, hr⟩ := Option.ne_none_iff_exists'.1 (located_of_present hpresent)
    rw [hr, locatedLater_of_located hc hr]
  · rfl

/-- The absolute path depends only on the present exactly when it fits. -/
theorem presentOnly_iff (hc : o.Coherent) :
    PresentOnly sys w o ↔ AbsoluteFits sys w o := by
  rw [PresentOnly, getAbsolutePath_fresh hc, getAbsolutePath_eq hc, AbsoluteFits]
  cases hnow : located w o with
  | some r =>
    have hlater : locatedLater sys w o = some r := locatedLater_of_located hc hnow
    simp [hlater]
  | none =>
    have hcheck : (o.checkIfExists w).mExists = o.mExists := by
      have hiff := checkIfExists_mExists_iff (w := w) hc
      have hnot : ¬ o.Present w := fun h => located_of_present h hnow
      rw [or_iff_left hnot] at hiff
      exact Bool.eq_iff_iff.2 hiff
    rw [hcheck]
    cases o.mExists with
    | true => simp
    | false =>
      cases hlater : locatedLater sys w o with
      | none => simp
      | some r => simp

end FsObject

namespace State

/-- For every object of every program, the absolute path depends only on the
present exactly when it fits. -/
theorem getAbsolutePath_presentOnly_iff (sys : System) (w : World) (ops : List Op) (i : Nat)
    (o : Obj) (h : (Run.runs (step sys) (initial w) ops).objs i = some o) :
    o.base.PresentOnly sys (Run.runs (step sys) (initial w) ops).world ↔
      o.base.AbsoluteFits sys (Run.runs (step sys) (initial w) ops).world :=
  FsObject.presentOnly_iff (wellFormed_runs sys w ops i o h).coherent

/-- A program that asks for the absolute path of `/dir`. -/
def askedOnce : List Op :=
  [.construct 0 .fsObject (some ['/', 'd', 'i', 'r']), .call 0 .getAbsolutePath]

/-- The absolute path of the directory is the one of a new object. -/
theorem getAbsolutePath_presentOnly_iff_dir : ∃ o,
    (Run.runs (step System.granting) (initial FsObject.dirWorld) askedOnce).objs 0 = some o ∧
      (o.base.PresentOnly System.granting
        (Run.runs (step System.granting) (initial FsObject.dirWorld) askedOnce).world ↔
      o.base.AbsoluteFits System.granting
        (Run.runs (step System.granting) (initial FsObject.dirWorld) askedOnce).world) :=
  ⟨_, rfl, getAbsolutePath_presentOnly_iff System.granting FsObject.dirWorld askedOnce 0 _ rfl⟩

/-- After `setPath` to a path that does not lead anywhere, the absolute path is
the one of the directory still. -/
theorem not_presentOnly_of_setPath : ∃ o,
    (Run.runs (step System.granting) (initial FsObject.dirWorld)
      (askedOnce ++ [.setPath 0 ['n', 'e', 'w']])).objs 0 = some o ∧
    ¬ o.base.PresentOnly System.granting
      (Run.runs (step System.granting) (initial FsObject.dirWorld)
        (askedOnce ++ [.setPath 0 ['n', 'e', 'w']])).world :=
  ⟨_, rfl, by decide⟩

end State

/-! ## The form of the absolute path -/

/-- An absolute path without empty components and dots, and without a separator
at its end unless it is the root. -/
def CanonicalPath (s : Str) : Prop :=
  s = slash ∨ (s.head? = some '/' ∧ ∀ c ∈ s.tail.splitOn '/', c ≠ [] ∧ c ≠ dot ∧ c ≠ dotdot)

instance : DecidablePred CanonicalPath := fun _ => inferInstanceAs (Decidable (_ ∨ _))

/-- The path of a location is canonical. -/
theorem canonicalPath_render (l : Loc) : CanonicalPath (World.render l) := by
  rcases eq_or_ne l [] with rfl | hl
  · exact Or.inl rfl
  · refine Or.inr ⟨World.head?_render l, ?_⟩
    obtain ⟨n, ns, rfl⟩ := List.exists_cons_of_ne_nil hl
    have hfields := World.splitOn_flatMap (n :: ns)
    have hrender : World.render (n :: ns) = '/' :: (World.render (n :: ns)).tail :=
      (List.cons_head?_tail (World.head?_render _)).symm
    rw [show ((n :: ns).flatMap fun n => '/' :: n.1) = World.render (n :: ns) from rfl, hrender,
      List.splitOn_cons_eq_if_modifyHead, if_pos (by rfl), List.cons_inj_right] at hfields
    rw [hfields]
    intro c hc
    obtain ⟨m, -, rfl⟩ := List.mem_map.1 hc
    exact ⟨Name.ne_nil m, Name.ne_dot m, Name.ne_dotdot m⟩

/-- A name behind the root and a separator is not canonical. -/
theorem not_canonicalPath_root (s : Str) : ¬ CanonicalPath (slash ++ slash ++ s) := by
  rintro (h | ⟨-, h⟩)
  · cases h
  · have hempty : ([] : Str) ∈ (slash ++ slash ++ s).tail.splitOn '/' := by
      show [] ∈ ('/' :: s).splitOn '/'
      rw [List.splitOn_cons_eq_if_modifyHead, if_pos (by rfl)]
      exact List.mem_cons_self
    exact (h [] hempty).1 rfl

/-- The path of a location with a name behind it is canonical unless the location
is the root. -/
theorem canonicalPath_render_append_iff (q : Loc) (n : Name) :
    CanonicalPath (World.render q ++ slash ++ n.1) ↔ q ≠ [] := by
  constructor
  · rintro h rfl
    exact not_canonicalPath_root n.1 h
  · intro hq
    have hconcat : World.render q ++ slash ++ n.1 = World.render (q ++ [n]) := by
      rw [World.render, World.render, if_neg hq, if_neg (List.concat_ne_nil n q),
        List.flatMap_append, List.flatMap_singleton, List.append_assoc]
      rfl
    rw [hconcat]
    exact canonicalPath_render _

open FsObject in
/-- For every object of every program, the absolute path is canonical exactly if,
once the parents are made, the path leads somewhere, or its directory does and
not to the root, or nothing is found and the path found last is canonical. -/
theorem State.getAbsolutePath_canonical_iff (sys : System) (w₀ : World) (ops : List Op) {i : Nat}
    {o : Obj} (h : (Run.runs (step sys) (initial w₀) ops).objs i = some o) (w : World) :
    CanonicalPath (getAbsolutePath sys w o.base).1.mRealPath ↔
      (makePath sys w o.base defaultMode).world.lookup o.base.fullPath ≠ none ∨
      (∃ q, (makePath sys w o.base defaultMode).world.lookup o.base.directoryPath = some q ∧
        q ≠ []) ∨
      ((makePath sys w o.base defaultMode).world.lookup o.base.directoryPath = none ∧
        CanonicalPath o.base.mRealPath) := by
  have hc := (wellFormed_runs sys w₀ ops i o h).coherent
  rw [getAbsolutePath_mRealPath hc, getAbsolutePath_world]
  generalize (makePath sys w o.base defaultMode).world = w'
  rw [located]
  cases hfull : w'.lookup o.base.fullPath with
  | some l =>
    rw [World.realpath_of_lookup hfull]
    exact iff_of_true (canonicalPath_render l) (Or.inl (Option.some_ne_none l))
  | none =>
    rw [World.realpath_of_missing hfull]
    cases hdir : w'.lookup o.base.directoryPath with
    | some q =>
      obtain ⟨n, hn, -⟩ := hc.shape.name_of_lookup hfull hdir
      rw [World.realpath_of_lookup hdir, hn]
      show CanonicalPath (World.render q ++ slash ++ n.1) ↔ _
      rw [canonicalPath_render_append_iff]
      simp
    | none =>
      rw [World.realpath_of_missing hdir]
      show CanonicalPath o.base.mRealPath ↔ _
      simp

open FsObject in
/-- A missing file in a directory. -/
theorem State.getAbsolutePath_canonical_iff_dir :
    CanonicalPath (getAbsolutePath System.granting dirWorld
        (Obj.construct .file (some "/dir/f".toList)).base).1.mRealPath ↔
      (makePath System.granting dirWorld (Obj.construct .file (some "/dir/f".toList)).base
          defaultMode).world.lookup "/dir/f".toList ≠ none ∨
      (∃ q, (makePath System.granting dirWorld (Obj.construct .file (some "/dir/f".toList)).base
          defaultMode).world.lookup "/dir/".toList = some q ∧ q ≠ []) ∨
      ((makePath System.granting dirWorld (Obj.construct .file (some "/dir/f".toList)).base
          defaultMode).world.lookup "/dir/".toList = none ∧ CanonicalPath []) :=
  getAbsolutePath_canonical_iff System.granting dirWorld
    [.construct 0 .file (some "/dir/f".toList)] (i := 0)
    (o := Obj.construct .file (some "/dir/f".toList)) rfl dirWorld

open FsObject in
/-- The absolute path of a file that is missing in the root starts with two
separators. -/
theorem State.not_canonicalPath_missing_root :
    ¬ ∀ (sys : System) (w₀ : World) (ops : List Op) (i : Nat) (o : Obj),
      (Run.runs (step sys) (initial w₀) ops).objs i = some o → o.base.mPath ≠ [] →
      ∀ (w : World), w.lookup o.base.directoryPath ≠ none →
        CanonicalPath (getAbsolutePath sys w o.base).1.mRealPath := by
  intro h
  have hcanonical := h System.granting dirWorld [.construct 0 .file (some "/f".toList)] 0
    (Obj.construct .file (some "/f".toList)) rfl (by decide) dirWorld (by decide)
  exact absurd hcanonical (by decide)

end SysFs
