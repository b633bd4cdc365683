import SysFs.Outcome

/-!
# Files

The model of `Sys::Fs::File`, an `FsObject` that is a `std::fstream` as well.
The stream is attached to a file, or closed.  `File` keeps the two together by
hand: `setPath`, `move` and `remove` close the stream, `open` and its relatives
open the file at the absolute path, and `operator=` changes the path only.

A `Stream` also records the world right after it was opened.  Nothing computes
with it; it is what `Attached` speaks about, which says that the stream is
attached to the file that the path of the object named when it was opened.
-/

namespace SysFs

open Posix

/-- `std::ios_base::openmode`, without the bits that do not matter here. -/
structure OpenMode where
  inn : Bool
  out : Bool
  app : Bool
  trunc : Bool
deriving DecidableEq, Repr

/-- What a mode asks the system for. -/
structure OpenFlags where
  write : Bool
  create : Bool
  truncate : Bool
deriving DecidableEq, Repr

namespace OpenMode

/-- The table of `std::basic_filebuf::open`. -/
def flags (mode : OpenMode) : Option OpenFlags :=
  match mode.inn, mode.out, mode.app, mode.trunc with
  | true, false, false, false => some ⟨false, false, false⟩
  | false, true, false, _ => some ⟨true, true, true⟩
  | false, _, true, false => some ⟨true, true, false⟩
  | true, true, false, false => some ⟨true, false, false⟩
  | true, true, false, true => some ⟨true, true, true⟩
  | true, _, true, false => some ⟨true, true, false⟩
  | _, _, _, _ => none

/-- The mode of `openRead`. -/
def read : OpenMode := ⟨true, false, false, false⟩

/-- The mode of `openWrite`. -/
def write : OpenMode := ⟨false, true, false, false⟩

/-- The mode of `openAppend`. -/
def append : OpenMode := ⟨false, true, true, false⟩

/-- The mode of `openReadWrite`, and the one that `open` takes by default. -/
def readWrite : OpenMode := ⟨true, true, false, false⟩

end OpenMode

/-- `std::fstream::open`: the file, and the world with it. -/
def fstreamOpen (sys : System) (w : World) (path : Str) (mode : OpenMode) :
    Option (Loc × World) :=
  match mode.flags with
  | none => none
  | some flags =>
    if flags.create then
      (sys.creat w path 0o666).map fun p =>
        (p.1, if flags.truncate then System.write p.2 p.1 [] else p.2)
    else
      match w.lookup path with
      | none => none
      | some l => if flags.write ∧ w.tree.IsDir l then none else some (l, w)

/-- What `open` asks for before it is called: the mode is one, the path leads to the
file, or would if it were there, and the system may refuse neither. -/
def Opens (sys : System) (w : World) (path : Str) (mode : OpenMode) (l : Loc) : Prop :=
  ∃ flags, mode.flags = some flags ∧
    if flags.create then
      path ≠ [] ∧ walk w.tree true maxLinks (w.start path) (Lines.fields '/' path) = some l ∧
        ¬ w.tree.IsDir l ∧ (w.tree.kindAt l = none → sys.allows w.clock l = true)
    else w.lookup path = some l ∧ (flags.write → ¬ w.tree.IsDir l)

/-- A stream that is open. -/
structure Stream where
  /-- the file it is attached to -/
  loc : Loc
  /-- the world right after it was opened -/
  opened : World

/-- An object of class `File`. -/
structure File extends FsObject where
  stream : Option Stream

namespace File

/-- The default constructor. -/
def empty : File := { FsObject.empty with mType := .regularFile, stream := none }

/-- The constructors from a string. -/
def ofStr (path : Str) : File := { FsObject.ofStr path with mType := .regularFile, stream := none }

/-- The copy constructor and the move constructor. -/
def copyOf (src : File) : File :=
  { FsObject.copyOf src.toFsObject with mType := .regularFile, stream := none }

/-- `is_open`. -/
def isOpen (f : File) : Bool := f.stream.isSome

/-- `close`. -/
def close (f : File) : File := { f with stream := none }

/-- `checkAndClose`. -/
def checkAndClose (f : File) : File := if f.isOpen then f.close else f

/-- `setPath`. -/
def setPath (f : File) (path : Str) : File :=
  let f := f.checkAndClose
  { f with toFsObject := f.toFsObject.setPath path }

/-- `operator=`. -/
def assign (f src : File) : File := { f with toFsObject := f.toFsObject.assign src.toFsObject }

variable (sys : System) (w : World)

/-- `openInit`. -/
def openInit (f : File) (mode : OpenMode) : File × World :=
  if f.isEmpty then (f, w)
  else
    let f := f.checkAndClose
    let absolute := f.toFsObject.getAbsolutePath sys w
    match fstreamOpen sys absolute.2 absolute.1.mRealPath mode with
    | none => ({ f with toFsObject := absolute.1 }, absolute.2)
    | some (l, w') => ({ f with toFsObject := absolute.1, stream := some ⟨l, w'⟩ }, w')

/-- `openRead`. -/
def openRead (f : File) : File × World := f.openInit sys w .read

/-- `openWrite`. -/
def openWrite (f : File) : File × World := f.openInit sys w .write

/-- `openAppend`. -/
def openAppend (f : File) : File × World := f.openInit sys w .append

/-- `openReadWrite`. -/
def openReadWrite (f : File) : File × World := f.openInit sys w .readWrite

/-- `open`. -/
def «open» (f : File) (filename : Str) (mode : OpenMode) : File × World :=
  (f.setPath filename).openInit sys w mode

/-- The object after a method of `FsObject`.  When that has called `setPath`,
it was the one of `File`. -/
def after (f : File) (out : Outcome) : File × World :=
  ({ (if out.pathSet then f.checkAndClose else f) with toFsObject := out.obj }, out.world)

/-- `move` and `remove` close the stream when the object is there. -/
def closing (f : File) (method : FsObject → Outcome) : File × World :=
  let o := f.toFsObject.checkIfExists w
  if !o.mExists then ({ f with toFsObject := o }, w)
  else f.checkAndClose.after (method o)

/-- `move`. -/
def move (f : File) (newPath : Str) : File × World :=
  f.closing w fun o => o.move sys w newPath

/-- `remove`. -/
def remove (f : File) : File × World := f.closing w fun o => o.remove sys w

/-- A call of a method that all classes have. -/
def call (f : File) : Method → File × World
  | .move dstPath => f.move sys w dstPath
  | .remove => f.remove sys w
  | m => f.after (f.toFsObject.call sys w m)

end File

/-! ## Opening a file -/

variable {sys : System} {w w' : World} {o : FsObject} {path : Str} {mode : OpenMode} {l : Loc}

theorem write_preserves (w : World) (l : Loc) (content : Str) :
    Preserves w (System.write w l content) := by
  unfold System.write
  split
  · exact Preserves.refl w
  · exact ⟨fun x kind hx => by rw [FileTree.kindAt_update, hx], rfl⟩

/-- What the kept entries name, they name still. -/
theorem Preserves.names (h : Preserves w w') (hl : w.Names path l) : w'.Names path l := by
  obtain ⟨hne, fuel, seen, hw⟩ := hl
  refine ⟨hne, fuel, seen, ?_⟩
  rw [World.start, h.cwd]
  refine hw.frame fun x hx => ?_
  obtain ⟨kind, hkind⟩ := Option.ne_none_iff_exists'.1 (hw.kindAt_ne_none x hx)
  rw [hkind, h.kinds x kind hkind]

/-- The path that was opened leads to the file afterwards. -/
theorem fstreamOpen_spec (h : fstreamOpen sys w path mode = some (l, w')) :
    Preserves w w' ∧ w'.lookup path = some l := by
  unfold fstreamOpen at h
  split at h
  · cases h
  · split at h
    · obtain ⟨⟨m, w₁⟩, hcreat, heq⟩ := Option.map_eq_some_iff.1 h
      obtain ⟨hext, hcwd, hlookup, -⟩ := System.creat_spec hcreat
      have hgrown : Preserves w w₁ := Preserves.of_grown ⟨hext, hcwd⟩
      dsimp only at heq
      split at heq
      · obtain ⟨rfl, rfl⟩ := Prod.mk.inj heq
        have hwrite := write_preserves w₁ m []
        exact ⟨hgrown.trans hwrite, hwrite.lookup hlookup⟩
      · obtain ⟨rfl, rfl⟩ := Prod.mk.inj heq
        exact ⟨hgrown, hlookup⟩
    · split at h
      · cases h
      · rename_i m hm
        split at h
        · cases h
        · obtain ⟨rfl, rfl⟩ := Prod.mk.inj (Option.some.inj h)
          exact ⟨Preserves.refl w, hm⟩

/-- A file that is opened is the one that the mode asks for, and every path that would
name it does. -/
theorem fstreamOpen_opens (h : fstreamOpen sys w path mode = some (l, w')) :
    Opens sys w path mode l ∧ ∀ p, w.WouldName p l → w'.Names p l := by
  have hthere : ∀ w₁, Preserves w w₁ → w.tree.kindAt l ≠ none → ∀ p, w.WouldName p l →
      w₁.Names p l := by
    rintro w₁ hpreserves hl p ⟨hne, fuel, seen, hw⟩
    refine hpreserves.names ⟨hne, fuel, seen, ?_⟩
    rcases hw.missing_cases with hw | ⟨hnone, -⟩
    · exact hw
    · exact absurd hnone hl
  have hpreserves := (fstreamOpen_spec h).1
  unfold fstreamOpen at h
  split at h
  · cases h
  · rename_i flags hflags
    split at h
    · rename_i hcreate
      obtain ⟨⟨m, w₁⟩, hcreat, heq⟩ := Option.map_eq_some_iff.1 h
      obtain ⟨rfl, hw'⟩ := Prod.mk.inj heq
      dsimp only at hcreat hw' hthere ⊢
      obtain ⟨hne, hwalk, hdir, hgranted⟩ := System.creat_opens hcreat
      obtain ⟨hext, hcwd, -⟩ := System.creat_spec hcreat
      refine ⟨⟨flags, hflags, ?_⟩, ?_⟩
      · rw [if_pos hcreate]
        exact ⟨hne, hwalk, hdir, fun hnone => (hgranted hnone).1⟩
      · by_cases hnone : w.tree.kindAt m = none
        · rintro p ⟨hp, fuel, seen, hw⟩
          have hnames : w₁.Names p m := by
            refine ⟨hp, fuel, seen, ?_⟩
            rw [World.start, hcwd]
            rcases hw.missing_cases with hw | ⟨-, -, hgrow⟩
            · exact hw.grow hext
            · exact hgrow w₁.tree hext .regular (hgranted hnone).2 (by decide)
          rw [← hw']
          split
          · exact (write_preserves w₁ m []).names hnames
          · exact hnames
        · exact hthere w' hpreserves hnone
    · rename_i hcreate
      split at h
      · cases h
      · rename_i m hm
        split at h
        · cases h
        · rename_i hdir
          obtain ⟨rfl, rfl⟩ := Prod.mk.inj (Option.some.inj h)
          refine ⟨⟨flags, hflags, ?_⟩, ?_⟩
          · rw [if_neg hcreate]
            exact ⟨hm, fun hwrite hisDir => hdir ⟨hwrite, hisDir⟩⟩
          · obtain ⟨v, hv, -⟩ := World.lookup_result hm
            refine hthere w (Preserves.refl w) ?_
            rw [FileTree.kindAt_eq, hv, Option.map_some]
            exact Option.some_ne_none v.kind

theorem Preserves.entry (h : Preserves w w') (hl : w.entry path = some l) :
    w'.entry path = some l := by
  obtain ⟨ws, n, q, seen, hcs, rfl, hdir, hw⟩ := entryAt_eq_some_iff.1 hl
  rw [World.entry, World.start, h.cwd]
  refine entryAt_eq_some_iff.2 ⟨ws, n, q, seen, hcs, rfl, h.kinds q _ hdir, ?_⟩
  refine hw.frame fun x hx => ?_
  obtain ⟨kind, hkind⟩ := Option.ne_none_iff_exists'.1 (hw.kindAt_ne_none x hx)
  rw [hkind, h.kinds x kind hkind]

namespace FsObject

/-- The absolute path of an object names the same file as its full path. -/
theorem names_of_located {r : Str} (hc : o.Coherent) (hr : located w o = some r)
    (hw : Preserves w w') (hl : w'.lookup r = some l) : w'.Names o.fullPath l := by
  rcases located_cases hc hr with ⟨m, hm, rfl⟩ | ⟨-, q, n, -, hdir, -, hentry, -, rfl⟩
  · have hm' := hw.lookup hm
    obtain ⟨v, hv, hlink⟩ := World.lookup_result hm'
    have hkind : w'.tree.kindAt m = some v.kind := by
      rw [FileTree.kindAt_eq, hv, Option.map_some]
    rw [World.lookup_render hkind hlink] at hl
    rw [← Option.some.inj hl]
    exact World.names_of_lookup hm'
  · exact World.names_of_render_concat (hw.entry hentry) hl

/-- The absolute path names the same file as the unified path, when a separator that
the full path leaves out is one of a directory. -/
theorem names_unifiedPath {r : Str} (hc : o.Coherent) (hr : located w o = some r)
    (hw : Preserves w w') (hl : w'.lookup r = some l)
    (hslash : o.unifiedPath = o.fullPath ++ ['/'] → w.lookup o.unifiedPath ≠ none) :
    w'.Names o.unifiedPath l := by
  have hnames : w'.Names o.fullPath l := names_of_located hc hr hw hl
  have hcases := Path.fullPath_ofStr_cases hc.unified
  rw [← hc.fullPath_eq] at hcases
  rcases hcases with heq | heq | ⟨heq, -⟩
  · change w'.Names o.mPath l
    rwa [← heq]
  · -- the directory is where both paths lead
    obtain ⟨m, hm⟩ := Option.ne_none_iff_exists'.1 (hslash heq)
    have hfull : w.lookup o.fullPath = some m := by
      have hm' := hm
      rw [show o.unifiedPath = o.fullPath ++ ['/'] from heq, World.lookup_append_slash hnames.1]
        at hm'
      exact hm'.1
    have hreal : located w o = some (World.render m) := by
      rw [located, World.realpath_of_lookup hfull]
    obtain ⟨v, hv, hlink⟩ := World.lookup_result (hw.lookup hfull)
    have hkind : w'.tree.kindAt m = some v.kind := by
      rw [FileTree.kindAt_eq, hv, Option.map_some]
    obtain rfl := Option.some.inj (hr.symm.trans hreal)
    rw [World.lookup_render hkind hlink] at hl
    rw [← Option.some.inj hl]
    exact World.names_of_lookup (hw.lookup hm)
  · rw [heq] at hnames
    refine hnames.of_append_slash fun hnil => ?_
    rw [hc.fullPath_eq, hnil] at heq
    exact absurd heq (by decide)

end FsObject

namespace File

variable {f : File}

/-- The stream is attached to the file that the path named when it was
opened. -/
def Attached (f : File) : Prop :=
  ∀ s, f.stream = some s → s.opened.Names f.unifiedPath s.loc

/-- The condition on opening a file, after the directories of its path are made.
When one of the two `realpath` calls succeeds, a separator that `fullPath` leaves out
must be one of a directory, or nothing can be opened.  When both fail, what the old
absolute path opens must be what the path would name. -/
def OpensOwn (sys : System) (w : World) (f : File) (mode : OpenMode) : Prop :=
  let w₁ := (f.toFsObject.getAbsolutePath sys w).2
  f.isEmpty = false →
    match FsObject.located w₁ f.toFsObject with
    | some r => f.unifiedPath = f.fullPath ++ ['/'] →
        w₁.lookup f.unifiedPath ≠ none ∨ ∀ l, ¬ Opens sys w₁ r mode l
    | none => ∀ l, Opens sys w₁ f.mRealPath mode l → w₁.WouldName f.unifiedPath l

/-- When the stream is open, the assigned path named what the old one did. -/
def AssignsOwn (f : File) (src : FsObject) : Prop :=
  ∀ s, f.stream = some s → ∀ l, s.opened.Names f.unifiedPath l → s.opened.Names src.unifiedPath l

theorem stream_checkAndClose (f : File) : f.checkAndClose.stream = none := by
  unfold checkAndClose isOpen
  split
  · rfl
  · rename_i h
    simpa using h

theorem base_checkAndClose (f : File) : f.checkAndClose.toFsObject = f.toFsObject := by
  unfold checkAndClose
  split <;> rfl

/-- What `File` adds to a method does not show in the `FsObject` part. -/
theorem base_call (f : File) (m : Method) :
    (f.call sys w m).1.toFsObject = (f.toFsObject.call sys w m).obj ∧
      (f.call sys w m).2 = (f.toFsObject.call sys w m).world := by
  have hclosing : ∀ method : FsObject → Outcome,
      ((f.toFsObject.checkIfExists w).mExists = true →
        method (f.toFsObject.checkIfExists w) = method f.toFsObject) →
      ((f.toFsObject.checkIfExists w).mExists = false →
        method f.toFsObject = ⟨false, f.toFsObject.checkIfExists w, w, false⟩) →
      (f.closing w method).1.toFsObject = (method f.toFsObject).obj ∧
        (f.closing w method).2 = (method f.toFsObject).world := by
    intro method hthere hnot
    unfold closing
    dsimp only
    cases hm : (f.toFsObject.checkIfExists w).mExists with
    | false =>
      rw [if_pos (by rfl), hnot hm]
      exact ⟨rfl, rfl⟩
    | true =>
      rw [if_neg (by simp), hthere hm]
      exact ⟨rfl, rfl⟩
  unfold call
  split
  · exact hclosing _ (FsObject.move_checkIfExists _) (FsObject.move_of_not_exists _)
  · exact hclosing _ FsObject.remove_checkIfExists FsObject.remove_of_not_exists
  · exact ⟨rfl, rfl⟩

theorem attached_of_closed (h : f.stream = none) : f.Attached := by
  intro s hs
  rw [h] at hs
  cases hs

/-- The stream stays attached as long as the string of the path stays. -/
theorem Attached.of_kept {f' : File} (h : f.Attached)
    (hkept : FsObject.Kept f.toFsObject f'.toFsObject) (hstream : f'.stream = f.stream) :
    f'.Attached := by
  intro s hs
  rw [hstream] at hs
  have hpath : f'.unifiedPath = f.unifiedPath := hkept.path
  rw [hpath]
  exact h s hs

theorem base_setPath (f : File) (path : Str) :
    (f.setPath path).toFsObject = f.toFsObject.setPath path := by
  unfold setPath
  dsimp only
  rw [base_checkAndClose]

/-- `openInit` fills the caches of the object only, and keeps what is there. -/
theorem openInit_spec (hc : f.toFsObject.Coherent) (sys : System) (w : World) (mode : OpenMode) :
    ((f.openInit sys w mode).1.toFsObject = f.toFsObject ∨
      (f.openInit sys w mode).1.toFsObject = (f.toFsObject.getAbsolutePath sys w).1) ∧
    Preserves w (f.openInit sys w mode).2 := by
  have habsolute : Preserves w (f.toFsObject.getAbsolutePath sys w).2 :=
    FsObject.getAbsolutePath_preserves hc
  unfold openInit
  split
  · exact ⟨Or.inl rfl, Preserves.refl w⟩
  · dsimp only
    rw [base_checkAndClose]
    split
    · exact ⟨Or.inr rfl, habsolute⟩
    · rename_i hopen
      exact ⟨Or.inr rfl, habsolute.trans (fstreamOpen_spec hopen).1⟩

theorem kept_openInit (hc : f.toFsObject.Coherent) (sys : System) (w : World) (mode : OpenMode) :
    FsObject.Kept f.toFsObject (f.openInit sys w mode).1.toFsObject := by
  rcases (openInit_spec hc sys w mode).1 with h | h
  · rw [h]
    exact FsObject.Kept.refl hc
  · rw [h]
    exact FsObject.getAbsolutePath_kept hc

theorem attached_openInit (hc : f.toFsObject.Coherent) (h : f.Attached)
    (hown : f.OpensOwn sys w mode) : (f.openInit sys w mode).1.Attached := by
  have hclosed : f.checkAndClose.stream = none := stream_checkAndClose f
  unfold openInit
  split
  · exact h
  · rename_i hempty
    have hown := hown (Bool.eq_false_iff.2 hempty)
    dsimp only
    rw [base_checkAndClose]
    split
    · exact attached_of_closed hclosed
    · rename_i l w' hopen
      intro s hs
      obtain rfl := Option.some.inj hs
      have hpath : (f.toFsObject.getAbsolutePath sys w).1.unifiedPath = f.unifiedPath :=
        (FsObject.getAbsolutePath_kept hc).path
      change w'.Names (f.toFsObject.getAbsolutePath sys w).1.unifiedPath l
      rw [hpath]
      rw [FsObject.getAbsolutePath_mRealPath hc] at hopen
      obtain ⟨hopens, hnames⟩ := fstreamOpen_opens hopen
      cases hr : FsObject.located (f.toFsObject.getAbsolutePath sys w).2 f.toFsObject with
      | none =>
        rw [hr] at hopens hown
        exact hnames _ (hown l hopens)
      | some r =>
        rw [hr] at hopen hopens hown
        obtain ⟨hpreserves, hlookup⟩ := fstreamOpen_spec hopen
        refine FsObject.names_unifiedPath hc hr hpreserves hlookup fun hslash => ?_
        exact (hown hslash).resolve_right fun hnone => hnone l hopens

theorem attached_after {out : Outcome} (h : f.Attached)
    (hregular : FsObject.Regular w f.toFsObject out) : (f.after out).1.Attached := by
  unfold after
  cases hset : out.pathSet with
  | true => exact attached_of_closed (stream_checkAndClose f)
  | false => exact h.of_kept ⟨hregular.path hset, hregular.type, hregular.coherent⟩ rfl

theorem attached_closing {method : FsObject → Outcome} (hc : f.toFsObject.Coherent)
    (h : f.Attached) : (f.closing w method).1.Attached := by
  unfold closing
  dsimp only
  split
  · exact h.of_kept (FsObject.kept_checkIfExists hc w) rfl
  · apply attached_of_closed
    show (if (method _).pathSet then f.checkAndClose.checkAndClose else f.checkAndClose).stream = none
    split
    · exact stream_checkAndClose f.checkAndClose
    · exact stream_checkAndClose f

theorem attached_call (hc : f.toFsObject.Coherent) (h : f.Attached) (m : Method) :
    (f.call sys w m).1.Attached := by
  unfold call
  split
  · exact attached_closing hc h
  · exact attached_closing hc h
  · exact attached_after h (FsObject.call_regular hc _ _ _)

theorem attached_assign {src : FsObject} (h : f.Attached) (hown : f.AssignsOwn src) :
    ({ f with toFsObject := f.toFsObject.assign src } : File).Attached := by
  intro s hs
  exact hown s hs s.loc (h s hs)

theorem attached_setPath (f : File) (path : Str) : (f.setPath path).Attached :=
  attached_of_closed (stream_checkAndClose f)

end File

end SysFs
