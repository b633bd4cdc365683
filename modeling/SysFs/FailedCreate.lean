import SysFs.Decompose

/-!
# What a failed `create` leaves of the object

`create` sets the next path before it knows whether anything can be made there,
and the `setPath` of a file closes the stream.  Every name that it goes on to
has one `#` more than the one before (`le_count_tried`), so once it has gone on,
the old path is lost.  `Creates.pathSet_eq` says when it has.

So a failed `create` keeps the object as it was exactly if it does not go on, or
does not fail: `create_keeps_iff`.
-/

namespace SysFs

open Posix

/-! ## Every next path is a new one -/

namespace Path

theorem count_unify (s : Str) : (unify s).count '#' = s.count '#' := by
  induction s with
  | nil => rfl
  | cons c s ih =>
    have hcons : unify (c :: s) = (if c = '\\' then '/' else c) :: unify s := rfl
    rw [hcons, List.count_cons, List.count_cons, ih]
    by_cases hc : c = '\\'
    · rw [if_pos hc, hc]
      rfl
    · rw [if_neg hc]

/-- The full path of a string has the `#` of the string. -/
theorem count_fullPath (s : Str) : (ofStr s).fullPath.count '#' = (unify s).count '#' := by
  have hcases := fullPath_ofStr_cases (unify_unify s)
  rw [ofStr_unify] at hcases
  have hslash : ['/'].count '#' = 0 := rfl
  rcases hcases with h | h | ⟨h, -⟩
  · rw [h]
  · rw [congrArg (List.count '#') h, List.count_append, hslash, Nat.add_zero]
  · rw [h, List.count_append, hslash, Nat.add_zero]

/-- The next path has one more `#`, or more than that behind a drive. -/
theorem count_nextPath (s : Str) :
    (unify s).count '#' + 1 ≤ ((ofStr s).nextPath).count '#' := by
  have hname : (ofStr s).fileName.count '#'
      = (ofStr s).baseName.count '#' + (ofStr s).extension.count '#' := by
    rw [fileName_eq_append, List.count_append]
  have hnext : (ofStr s).nextPath.count '#'
      = (ofStr s).directoryPath.count '#' + (ofStr s).fileName.count '#' + 1 := by
    rw [hname, nextPath]
    simp only [List.count_append, List.count_singleton_self]
    omega
  have hfull : (ofStr s).fullPath.count '#'
      ≤ (ofStr s).directoryPath.count '#' + (ofStr s).fileName.count '#' := by
    by_cases hroot : IsRoot (unify s)
    · obtain ⟨r, -, hdir, -, hfull⟩ := analyze_of_isRoot hroot
      rw [hfull, hdir]
      omega
    · rw [(fullPath_eq_append hroot).1, List.count_append]
  rw [count_fullPath] at hfull
  omega

end Path

namespace FsObject

variable {sys : System} {w : World} {o : FsObject} {mode : Nat}

/-- A path of the sequence that `create` tries has a `#` for every name before
it. -/
theorem le_count_tried (s : Str) (i : Nat) : s.count '#' + i ≤ (tried s i).mPath.count '#' := by
  induction i with
  | zero => exact Nat.le_of_eq (Path.count_unify s).symm
  | succ i ih =>
    obtain ⟨t, ht⟩ : ∃ t, tried s i = Path.ofStr t := by cases i <;> exact ⟨_, rfl⟩
    have hnext := Path.count_nextPath t
    rw [ht, Path.ofStr_mPath] at ih
    show _ ≤ (unify (tried s i).nextPath).count '#'
    rw [Path.count_unify, ht]
    omega

/-- No path of the sequence but the first is the one that the object had. -/
theorem tried_ne (s : Str) {i : Nat} (hi : 0 < i) : (tried s i).mPath ≠ s := by
  intro heq
  have hle := le_count_tried s i
  rw [heq] at hle
  omega

/-! ## When `create` has gone on -/

/-- `setPath` was called exactly if a name was passed over. -/
theorem Creates.pathSet_eq {k : Nat} {out : Outcome} (h : Creates sys mode k w o out) :
    out.pathSet = decide (0 < k) := by
  cases h with
  | stop hclash =>
    unfold attempt
    split
    · rfl
    · split
      · rfl
      · split <;> rfl
  | next hclash rest => rfl

/-- What `create` looks at is there with the right kind, or can be made. -/
def Obtainable (sys : System) (mode : Nat) (w : World) (o : FsObject) : Prop :=
  (∃ v, o.getStat w = some v ∧ o.Suits v.kind) ∨
    (o.getStat w = none ∧
      ((o.mType = .directory ∧ (sys.mkdir w o.fullPath mode).isSome = true) ∨
        (o.mType = .regularFile ∧ (sys.creat w o.fullPath mode).isSome = true)))

/-- A last try succeeds exactly if the entry can be had. -/
theorem attempt_ok_iff (sys : System) (mode : Nat) (hclash : ¬ Clashes w o)
    (htype : o.mType = .regularFile ∨ o.mType = .directory) :
    (attempt sys mode w o).ok = true ↔ Obtainable sys mode w o := by
  unfold attempt Obtainable
  rw [if_neg (by tauto)]
  cases hstat : o.getStat w with
  | some v =>
    have hsuits : o.Suits v.kind := by
      by_contra hnot
      exact hclash ⟨htype, v, hstat, hnot⟩
    simp [hsuits]
  | none =>
    rcases htype with htype | htype
    · simp [htype]
    · simp [htype]

/-- A failed `create` leaves the path as it was exactly if it has not gone on. -/
theorem create_path_eq_iff (sys : System) (mode : Nat) (w : World) (hc : o.Coherent) {k : Nat}
    (hrun : Creates sys mode k w o (create sys w o mode)) :
    (create sys w o mode).obj.mPath = o.mPath ↔ k = 0 := by
  obtain ⟨-, hlast, -, hobj, -⟩ := hrun.rounds
  obtain ⟨hck, -, hpath, -⟩ := parentsMade_spec sys w hc k
  rw [hobj, (attempt_spec sys mode hck hlast).2.1, hpath]
  constructor
  · intro heq
    by_contra hne
    exact tried_ne o.mPath (Nat.pos_of_ne_zero hne) heq
  · rintro rfl
    exact hc.unified

/-- A failed `create` has not gone on exactly if the first name does not clash,
or the first that does not can be had. -/
theorem pathSet_of_failed_iff (sys : System) (mode : Nat) (w : World) (hc : o.Coherent) :
    ((create sys w o mode).ok = false → (create sys w o mode).pathSet = false) ↔
      ¬ Clashes (parentsMade sys w o 0).world (parentsMade sys w o 0).obj ∨
      ∃ k, (∀ i < k, Clashes (parentsMade sys w o i).world (parentsMade sys w o i).obj) ∧
        ¬ Clashes (parentsMade sys w o k).world (parentsMade sys w o k).obj ∧
        Obtainable sys mode (parentsMade sys w o k).world (parentsMade sys w o k).obj := by
  obtain ⟨k, hrun⟩ := creates_create sys mode w hc
  obtain ⟨hbefore, hlast, hok, -, -⟩ := hrun.rounds
  rw [hrun.pathSet_eq, hok]
  rcases Nat.eq_zero_or_pos k with rfl | hk
  · exact ⟨fun _ => Or.inl hlast, fun _ _ => rfl⟩
  · have hfirst := hbefore 0 hk
    -- The types of the calls are all the one of the object.
    have htype : ∀ i, (parentsMade sys w o i).obj.mType = o.mType :=
      fun i => (parentsMade_spec sys w hc i).2.1
    have hattempt := attempt_ok_iff sys mode hlast
      (by rw [htype, ← htype 0]; exact hfirst.1)
    rw [decide_eq_true hk]
    constructor
    · intro hkeeps
      have hdone : (attempt sys mode (parentsMade sys w o k).world
          (parentsMade sys w o k).obj).ok = true := by
        by_contra hfail
        exact Bool.noConfusion (hkeeps (by simpa using hfail))
      exact Or.inr ⟨k, hbefore, hlast, hattempt.1 hdone⟩
    · rintro (hnot | ⟨j, hj, hjlast, hjhad⟩) hfail
      · exact absurd hfirst hnot
      · obtain rfl : j = k := by
          rcases Nat.lt_trichotomy j k with hlt | heq | hlt
          · exact absurd (hbefore j hlt) hjlast
          · exact heq
          · exact absurd (hj k hlt) hlast
        rw [hattempt.2 hjhad] at hfail
        cases hfail

end FsObject

/-- Whether the object has an open stream. -/
def Obj.isOpen : Obj → Bool
  | .file f => f.isOpen
  | _ => false

/-- The stream of an object stays open unless `setPath` is called. -/
theorem Obj.isOpen_create {o : Obj} (sys : System) (w : World) (mode : Nat)
    (h : (o.base.create sys w mode).pathSet = false) :
    (o.call sys w (.create mode)).1.isOpen = o.isOpen := by
  cases o with
  | fsObject o => rfl
  | dir d => rfl
  | file f =>
    have hstream : (f.call sys w (.create mode)).1.stream
        = (if (f.toFsObject.create sys w mode).pathSet then f.checkAndClose else f).stream := rfl
    show (f.call sys w (.create mode)).1.isOpen = f.isOpen
    rw [File.isOpen, File.isOpen, hstream]
    change (f.toFsObject.create sys w mode).pathSet = false at h
    rw [h]
    rfl

open FsObject in
/-- For every object of every program, a failed `create` keeps the path and an
open stream exactly if the first name does not clash with an entry of another
kind, or the first name that does not clash can be had. -/
theorem State.create_keeps_iff (sys : System) (w₀ : World) (ops : List Op) {i : Nat} {o : Obj}
    (h : (Run.runs (step sys) (initial w₀) ops).objs i = some o) (w : World) (mode : Nat) :
    ((create sys w o.base mode).ok = false →
      (o.call sys w (.create mode)).1.base.unifiedPath = o.base.unifiedPath ∧
        (o.isOpen = true → (o.call sys w (.create mode)).1.isOpen = true)) ↔
      ¬ Clashes (parentsMade sys w o.base 0).world (parentsMade sys w o.base 0).obj ∨
      ∃ k, (∀ j < k, Clashes (parentsMade sys w o.base j).world (parentsMade sys w o.base j).obj) ∧
        ¬ Clashes (parentsMade sys w o.base k).world (parentsMade sys w o.base k).obj ∧
        Obtainable sys mode (parentsMade sys w o.base k).world (parentsMade sys w o.base k).obj := by
  have hc := (wellFormed_runs sys w₀ ops i o h).coherent
  obtain ⟨k, hrun⟩ := creates_create sys mode w hc
  have hpath : (o.call sys w (.create mode)).1.base.unifiedPath = o.base.unifiedPath ↔ k = 0 := by
    rw [← create_path_eq_iff sys mode w hc hrun, (o.base_call (.create mode)).1]
    rfl
  have hset : (create sys w o.base mode).pathSet = false ↔ k = 0 := by
    rw [hrun.pathSet_eq, decide_eq_false_iff_not, Nat.not_lt, Nat.le_zero]
  rw [← pathSet_of_failed_iff sys mode w hc]
  constructor
  · intro hkeeps hfail
    exact hset.2 (hpath.1 (hkeeps hfail).1)
  · intro hkeeps hfail
    have hnot := hkeeps hfail
    refine ⟨hpath.2 (hset.1 hnot), fun hopen => ?_⟩
    rw [Obj.isOpen_create sys w mode hnot, hopen]

/-- A system that refuses every change. -/
def refusing : System := { System.granting with allows := fun _ _ => false }

open FsObject in
/-- A directory that cannot be made, where nothing is in the way. -/
theorem State.create_keeps_iff_refused :
    (create refusing (World.ofList [])
        (Obj.construct .dir (some "/d".toList)).base 0o777).ok = false ∧
      ((Obj.construct .dir (some "/d".toList)).call refusing (World.ofList [])
        (.create 0o777)).1.base.unifiedPath = "/d".toList := by
  have hfail : (create refusing (World.ofList [])
      (Obj.construct .dir (some "/d".toList)).base 0o777).ok = false := by
    decide
  have hkeeps := (create_keeps_iff refusing (World.ofList [])
    [.construct 0 .dir (some "/d".toList)] (i := 0)
    (o := Obj.construct .dir (some "/d".toList)) rfl (World.ofList []) 0o777).2
    (Or.inl fun hclash => by
      obtain ⟨-, v, hv, -⟩ := hclash
      exact nomatch (show none = some v from hv))
  exact ⟨hfail, (hkeeps hfail).1⟩

open FsObject in
/-- A directory is in the way of a file, and the system refuses to make another
file: `create` fails, and the object has another path. -/
theorem State.not_create_keeps :
    ¬ ∀ (sys : System) (w₀ : World) (ops : List Op) (i : Nat) (o : Obj),
      (Run.runs (step sys) (initial w₀) ops).objs i = some o →
      ∀ (w : World) (mode : Nat), (create sys w o.base mode).ok = false →
        (o.call sys w (.create mode)).1.base.unifiedPath = o.base.unifiedPath := by
  intro h
  have hsame := h refusing (World.ofList [])
    [.construct 0 .file (some "/dir".toList)] 0 (Obj.construct .file (some "/dir".toList)) rfl
    (World.ofList [(["dir"], .directory)]) 0o644 (by decide)
  exact absurd hsame (by decide)

end SysFs
