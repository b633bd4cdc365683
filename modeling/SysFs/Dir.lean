import SysFs.Outcome

/-!
# Directories

The model of `Sys::Fs::Dir`, an `FsObject` that keeps the entries of its
directory.  `getEntries` reads them with `ls` when the time stamp of the
directory is not the one of the last read, and gives back the old ones
otherwise.

A `Dir` also records from which path and in which world its entries were read.
Nothing computes with it; it is what the conditions below speak about.

* `Current` is what `getEntries` should return: one object for every entry that
  `ls` shows of the directory of the path, as it is now.
* `current_of_reads` and `current_of_reuses` say when it does, for a call that
  reads and for one that does not.
-/

namespace SysFs

open Posix

/-- An object of class `Dir`. -/
structure Dir extends FsObject where
  /-- directory entries -/
  mEntries : List FsObject
  /-- last modification time -/
  mLastUpdate : Int
  /-- the path and the world that the entries were read from -/
  readFrom : Option (Str × World)

namespace Dir

/-- The default constructor. -/
def empty : Dir :=
  { FsObject.empty with mType := .directory, mEntries := [], mLastUpdate := 0, readFrom := none }

/-- The constructors from a string. -/
def ofStr (path : Str) : Dir :=
  { FsObject.ofStr path with
    mType := .directory, mEntries := [], mLastUpdate := 0, readFrom := none }

/-- The copy constructor and the move constructor. -/
def copyOf (src : Dir) : Dir :=
  { FsObject.copyOf src.toFsObject with
    mType := .directory, mEntries := [], mLastUpdate := 0, readFrom := none }

/-- `setPath`. -/
def setPath (d : Dir) (path : Str) : Dir := { d with toFsObject := d.toFsObject.setPath path }

/-- `operator=` of a copy. -/
def assign (d src : Dir) : Dir :=
  { d with toFsObject := d.toFsObject.assign src.toFsObject, mLastUpdate := src.mLastUpdate }

/-- `operator=` of a temporary. -/
def moveAssign (d src : Dir) : Dir :=
  { d with toFsObject := d.toFsObject.assign src.toFsObject, mLastUpdate := 0 }

/-- The entry that a line of the listing stands for. -/
def entryOf (w : World) (rpath line : Str) : Option FsObject :=
  let line := Trim line
  if line.isEmpty then none
  else
    let fo := (FsObject.ofStr (rpath ++ slash ++ line)).checkIfExists w
    if fo.mExists then some (FsObject.copyOf fo) else none

variable (sys : System) (w : World)

/-- The body of `getEntries` that reads the entries. -/
def read (d : Dir) : Dir × World :=
  let mtime := d.getLastUpdateTime w sys
  let absolute := d.toFsObject.getAbsolutePath sys w
  let rpath := absolute.1.mRealPath
  let done := FsObject.execCommand sys absolute.2 (LibCommand.getEntries rpath).text
  let entries := if done.ok then done.lines.filterMap (entryOf done.world rpath) else []
  ({ toFsObject := absolute.1
     mEntries := entries
     mLastUpdate := mtime
     readFrom := some (d.mPath, w) }, done.world)

/-- `getEntries`. -/
def getEntries (d : Dir) : Dir × World :=
  if d.mLastUpdate ≠ d.getLastUpdateTime w sys then d.read sys w else (d, w)

end Dir

/-! ## What a listing should hold -/

/-- A name that `ls` lists. -/
def Visible (n : Name) : Prop := n.1.head? ≠ some '.'

instance : DecidablePred Visible := fun _ => inferInstanceAs (Decidable (_ ≠ _))

/-- A name that comes through the output of `ls` and the constructor from a
string unchanged. -/
def Listable (n : Str) : Prop :=
  '\n' ∉ n ∧ '\\' ∉ n ∧ (∀ c, n.head? = some c → isspace c = false) ∧
    ∀ c, n.getLast? = some c → isspace c = false

/-- The path of an entry, as `getEntries` writes it. -/
def entryPath (l : Loc) (n : Name) : Str := World.render l ++ '/' :: n.1

/-- There is one object for each of the names in the directory `l`, and its full path
is the path of the directory, a separator and the name. -/
def ListsNames (l : Loc) (names : List Name) (es : List FsObject) : Prop :=
  (es.map fun e => e.fullPath).Perm (names.map (entryPath l))

/-- The names in a directory that `ls` lists. -/
def visibleNames (t : FileTree) (l : Loc) : List Name := (t.children l).filter fun n => Visible n

/-- The objects are the listing of the directory that the path leads to, and
there are none when it leads to no directory. -/
def Current (w : World) (path : Str) (es : List FsObject) : Prop :=
  (∀ l, w.lookup path = some l → w.tree.IsDir l → ListsNames l (visibleNames w.tree l) es) ∧
    ((∀ l, w.lookup path = some l → ¬ w.tree.IsDir l) → es = [])

/-- The stamp of a directory tells its content: whenever it has the same stamp
in two of the worlds, it has the same entries. -/
def StampsTell (sys : System) (worlds : World → Prop) : Prop :=
  ∀ w w', worlds w → worlds w' → ∀ l l' v v', w.tree.get l = some v → w'.tree.get l' = some v' →
    v.kind = .directory → v'.kind = .directory → v.ino = v'.ino →
    sys.mtime w.clock v.ino = sys.mtime w'.clock v'.ino →
    ∀ n, w.tree.kindAt (l ++ [n]) = w'.tree.kindAt (l' ++ [n])

namespace Dir

/-- What `ls` writes for a directory. -/
def lsText (t : FileTree) (l : Loc) : Str :=
  (visibleNames t l).flatMap fun n => n.1 ++ ['\n']

/-- A call that reads a directory gets its listing: the path is plain, the names
come through the output unchanged and lead somewhere, and `ls` can be run and its
output fits into the pipe. -/
structure ReadsDir (capacity : Nat) (sys : System) (w : World) (l : Loc) : Prop where
  plain : (LibCommand.getEntries (World.render l)).PlainArgs
  names : ∀ n ∈ visibleNames w.tree l, FsObject.CanExecute sys w ∧ Listable n.1 ∧
    w.lookup (entryPath l n) ≠ none
  fits : (lsText w.tree l).length ≤ capacity

/-- A call that reads where there is no directory gets nothing: its absolute path, the
new one or an old one, is plain, and where it leads, `ls` shows nothing. -/
def ReadsNothing (sys : System) (w : World) (d : Dir) : Prop :=
  let w₁ := (d.toFsObject.getAbsolutePath sys w).2
  let r := (FsObject.located w₁ d.toFsObject).getD d.mRealPath
  (LibCommand.getEntries r).PlainArgs ∧
    (FsObject.CanExecute sys w₁ → ∀ l, w₁.lookup (r ++ slash) = some l →
      visibleNames w₁.tree l = [])

/-- The condition on a call that reads. -/
def Reads (capacity : Nat) (sys : System) (w : World) (d : Dir) : Prop :=
  (∀ l, w.lookup d.fullPath = some l → w.tree.IsDir l → ReadsDir capacity sys w l) ∧
    ((∀ l, w.lookup d.fullPath = some l → ¬ w.tree.IsDir l) → d.ReadsNothing sys w)

/-- The entries that a call gives back without reading were read where the path leads
now, at the same inode with the stamp that is kept, or there are none and none are to
be listed. -/
def Reuses (sys : System) (w : World) (d : Dir) : Prop :=
  (∃ p w₀, d.readFrom = some (p, w₀) ∧
    w₀.lookup (Path.ofStr p).fullPath = w.lookup d.fullPath ∧
    ∀ l v, w.lookup d.fullPath = some l → w.tree.get l = some v →
      ∃ v₀, w₀.tree.get l = some v₀ ∧ v₀.ino = v.ino ∧ v₀.kind = v.kind ∧
        sys.mtime w₀.clock v.ino = d.mLastUpdate) ∨
  (d.mEntries = [] ∧
    ∀ l, w.lookup d.fullPath = some l → w.tree.IsDir l → visibleNames w.tree l = [])

/-- The condition on a call of `getEntries`, where a pipe takes `capacity` characters. -/
def EntriesFit (capacity : Nat) (sys : System) (w : World) (d : Dir) : Prop :=
  if d.mLastUpdate ≠ d.getLastUpdateTime w sys then d.Reads capacity sys w else d.Reuses sys w

/-- What the `ls` of a call writes into the pipe.  Nobody reads there before it ends. -/
def piped (sys : System) (w : World) (d : Dir) : Str :=
  let absolute := d.toFsObject.getAbsolutePath sys w
  let sh := Shell.ofCommand sys.shellAvailable (LibCommand.getEntries absolute.1.mRealPath).text
  if d.mLastUpdate ≠ d.getLastUpdateTime w sys ∧ FsObject.CanExecute sys absolute.2 then
    (sys.run absolute.2 (sh.handedText ((sys.pipe absolute.2.clock).getD 0))).2.2
  else []

/-- The call comes back, since its `ls` does: what it writes fits into the pipe. -/
def Returns (capacity : Nat) (sys : System) (w : World) (d : Dir) : Prop :=
  (d.piped sys w).length ≤ capacity

variable {sys : System} {w w₀ : World} {d : Dir} {l : Loc} {n : Name}

/-! ## Calls that read -/

/-- The path of an entry without a backslash in its name is unified, when that of
the directory is. -/
theorem unify_entry {s : Str} (hl : unify (World.render l) = World.render l) (hback : '\\' ∉ s) :
    unify (World.render l ++ '/' :: s) = World.render l ++ '/' :: s := by
  refine unify_of_notMem fun hmem => ?_
  rcases List.mem_append.1 hmem with hmem | hmem
  · rw [← hl] at hmem
    exact backslash_notMem_unify _ hmem
  · rcases List.mem_cons.1 hmem with hmem | hmem
    · exact absurd hmem (by decide)
    · exact hback hmem

/-- What a line of the listing becomes. -/
theorem entryOf_eq (hl : unify (World.render l) = World.render l) (hn : Listable n.1) :
    ∃ e, e.mPath = entryPath l n ∧ entryOf w (World.render l) n.1 =
      if w.lookup (entryPath l n) = none then none else some e := by
  obtain ⟨-, hback, hhead, hlast⟩ := hn
  have htrim : Trim n.1 = n.1 := Trim_of_ends hhead hlast
  have hnonempty : n.1.isEmpty = false := by simpa using n.ne_nil
  have htext : World.render l ++ slash ++ n.1 = entryPath l n := by simp [slash, entryPath]
  have hunify : unify (entryPath l n) = entryPath l n := unify_entry hl hback
  have hfull : (FsObject.ofStr (entryPath l n)).fullPath = entryPath l n :=
    Path.fullPath_ofStr_name hunify n.slash_notMem n.ne_nil
  have hexists : (FsObject.destination w (entryPath l n)).mExists = true ↔
      w.lookup (entryPath l n) ≠ none := by
    rw [FsObject.destination_mExists_iff, hfull]
  refine ⟨FsObject.copyOf (FsObject.destination w (entryPath l n)), ?_, ?_⟩
  · exact (FsObject.kept_destination w (entryPath l n)).path.trans hunify
  · unfold entryOf
    dsimp only
    rw [htrim, hnonempty, htext, if_neg (by decide),
      show (FsObject.ofStr (entryPath l n)).checkIfExists w
        = FsObject.destination w (entryPath l n) from rfl]
    by_cases hnone : w.lookup (entryPath l n) = none
    · rw [if_pos hnone, if_neg (fun hm => hexists.1 hm hnone)]
    · rw [if_neg hnone, if_pos (hexists.2 hnone)]

/-- The object for a line leads somewhere. -/
theorem lookup_of_entryOf {rpath line : Str} {e : FsObject} (h : entryOf w rpath line = some e) :
    e.Coherent ∧ w.lookup e.fullPath ≠ none ∧ Trim line ≠ [] ∧
      e.mPath = unify (rpath ++ slash ++ Trim line) := by
  unfold entryOf at h
  dsimp only at h
  split at h
  · cases h
  · rename_i hne
    split at h
    · rename_i hexists
      obtain rfl := Option.some.inj h
      have hkept := FsObject.kept_destination w (rpath ++ slash ++ Trim line)
      have hc : (FsObject.copyOf (FsObject.destination w (rpath ++ slash ++ Trim line))).Coherent :=
        hkept.coherent
      have hlookup := FsObject.destination_mExists_iff.1 hexists
      refine ⟨hc, ?_, by simpa using hne, hkept.path⟩
      rw [← hkept.fullPath (FsObject.coherent_ofStr _)] at hlookup
      exact hlookup
    · cases h

/-- Without backslashes, the object for a line is at the path of the trimmed
name. -/
theorem fullPath_of_entryOf {line : Str} {e : FsObject}
    (hl : unify (World.render l) = World.render l) (hback : '\\' ∉ line) (hsep : '/' ∉ line)
    (h : entryOf w (World.render l) line = some e) :
    e.fullPath = World.render l ++ '/' :: Trim line := by
  obtain ⟨hc, -, hne, hpath⟩ := lookup_of_entryOf h
  have hsub : ∀ c, c ∈ Trim line → c ∈ line := by
    intro c hmem
    have hsuffix := (List.dropWhile_suffix isspace).subset
      ((List.rdropWhile_prefix isspace (line.dropWhile isspace)).subset hmem)
    exact hsuffix
  have htext : World.render l ++ slash ++ Trim line = World.render l ++ '/' :: Trim line := by
    simp [slash]
  have hunify : unify (World.render l ++ '/' :: Trim line)
      = World.render l ++ '/' :: Trim line :=
    unify_entry hl fun hmem => hback (hsub _ hmem)
  rw [hc.fullPath_eq, hpath, htext, hunify]
  exact Path.fullPath_ofStr_name hunify (fun hmem => hsep (hsub _ hmem)) hne

/-- The lines that `ls` writes are the visible names. -/
theorem lines_eq (t : FileTree) (l : Loc) :
    (((t.children l).map Subtype.val).filter fun n => n.head? != some '.')
      = (visibleNames t l).map Subtype.val := by
  have hsame : ∀ n : Name, (n.1.head? != some '.') = decide (Visible n) := by
    intro n
    rw [Bool.eq_iff_iff, bne_iff_ne, decide_eq_true_iff, Visible]
  rw [List.filter_map, visibleNames]
  exact congrArg _ (List.filter_congr fun n _ => hsame n)

/-- When all names come through and lead somewhere, each of them gives its
path. -/
theorem map_fullPath_of_listable (hl : unify (World.render l) = World.render l)
    {names : List Name} (h : ∀ n ∈ names, Listable n.1 ∧ w.lookup (entryPath l n) ≠ none) :
    ((names.map Subtype.val).filterMap (entryOf w (World.render l))).map (fun e => e.fullPath)
      = names.map (entryPath l) := by
  induction names with
  | nil => rfl
  | cons n names ih =>
    rw [List.forall_mem_cons] at h
    obtain ⟨⟨hlistable, hleads⟩, hrest⟩ := h
    obtain ⟨e, -, heq⟩ := entryOf_eq (w := w) hl hlistable
    rw [if_neg hleads] at heq
    have hfull := fullPath_of_entryOf hl hlistable.2.1 n.slash_notMem heq
    rw [Trim_of_ends hlistable.2.2.1 hlistable.2.2.2] at hfull
    rw [List.map_cons, List.filterMap_cons_some heq, List.map_cons, List.map_cons, ih hrest, hfull]
    rfl

/-- The path of a directory that makes a plain word has no backslash. -/
theorem unify_render (h : (LibCommand.getEntries (World.render l)).PlainArgs) :
    unify (World.render l) = World.render l := by
  have hword : Sh.PlainWord (World.render l ++ slash) :=
    h.1 _ (by simp [LibCommand.args, LibCommand.firstArgs, LibCommand.lastArg])
  refine unify_of_notMem fun hmem => ?_
  exact absurd (hword.isOrdinary _ (List.mem_append_left _ hmem)) (by decide)

/-- What a call does for a directory that is there. -/
theorem getAbsolutePath_of_isDir (sys : System) (hc : d.toFsObject.Coherent)
    (htype : d.mType = .directory) (hlookup : w.lookup d.fullPath = some l)
    (hdir : w.tree.IsDir l) :
    (d.toFsObject.getAbsolutePath sys w).1.mRealPath = World.render l ∧
      (d.toFsObject.getAbsolutePath sys w).2 = w := by
  have hexists : (d.toFsObject.checkIfExists w).mExists = true := by
    obtain ⟨v, hv, -⟩ := World.lookup_result hlookup
    refine (FsObject.checkIfExists_mExists_iff hc).2 (Or.inr ⟨v, ?_, ?_⟩)
    · exact FsObject.stat_of_lookup hlookup hv
    · rw [htype, (FsObject.isDir_iff hv).1 hdir]
      rfl
  exact FsObject.getAbsolutePath_of_lookup sys hc hexists hlookup

theorem lsText_eq (t : FileTree) (l : Loc) :
    lsText t l = ((visibleNames t l).map Subtype.val).flatMap (· ++ ['\n']) := by
  rw [lsText, List.flatMap_map]

/-- What `ls` does at the path of a directory. -/
theorem command_getEntries (sys : System) (hdir : w.tree.IsDir l) :
    sys.command w (LibCommand.getEntries (World.render l)).argv
      = some (true, w, lsText w.tree l) := by
  have hls := System.command_ls sys w (World.render l ++ ['/'])
  rw [System.ls_render hdir] at hls
  rw [lsText_eq, ← lines_eq]
  exact hls

/-- What a call reads in a directory that is there, when `ls` can be run and no
name has a newline in it. -/
theorem mEntries_read (hc : d.toFsObject.Coherent) (htype : d.mType = .directory)
    (hlookup : w.lookup d.fullPath = some l) (hdir : w.tree.IsDir l)
    (hcan : FsObject.CanExecute sys w) (hplain : (LibCommand.getEntries (World.render l)).PlainArgs)
    (hnames : ∀ n ∈ visibleNames w.tree l, '\n' ∉ n.1) :
    (d.read sys w).1.mEntries
      = ((visibleNames w.tree l).map Subtype.val).filterMap (entryOf w (World.render l)) := by
  -- The directory is there, so the command names it.
  obtain ⟨hreal, hworld⟩ := getAbsolutePath_of_isDir sys hc htype hlookup hdir
  obtain ⟨hok, hafter, hlines⟩ :=
    FsObject.execCommand_of_canExecute hplain hcan (command_getEntries sys hdir)
  have hnewline : ∀ line ∈ (visibleNames w.tree l).map Subtype.val, '\n' ∉ line := by
    intro line hline
    obtain ⟨n, hn, rfl⟩ := List.mem_map.1 hline
    exact hnames n hn
  unfold read
  dsimp only
  rw [hworld, hreal, hok, if_pos rfl, hlines rfl, hafter]
  dsimp only
  rw [lsText_eq, Lines.getlines_flatMap hnewline]

/-- A call for which `ls` fails, or shows nothing, finds nothing. -/
theorem mEntries_read_nil
    (h : (FsObject.execCommand sys (d.toFsObject.getAbsolutePath sys w).2
        (LibCommand.getEntries (d.toFsObject.getAbsolutePath sys w).1.mRealPath).text).ok = true →
      (FsObject.execCommand sys (d.toFsObject.getAbsolutePath sys w).2
        (LibCommand.getEntries (d.toFsObject.getAbsolutePath sys w).1.mRealPath).text).lines = []) :
    (d.read sys w).1.mEntries = [] := by
  unfold read
  dsimp only
  split
  · rename_i hok
    rw [h hok, List.filterMap_nil]
  · rfl

/-- A call that reads a directory returns its listing. -/
theorem listsNames_of_readsDir {capacity : Nat} (hc : d.toFsObject.Coherent)
    (htype : d.mType = .directory) (hlookup : w.lookup d.fullPath = some l)
    (hdir : w.tree.IsDir l) (h : ReadsDir capacity sys w l) :
    ListsNames l (visibleNames w.tree l) (d.read sys w).1.mEntries := by
  by_cases hcan : FsObject.CanExecute sys w
  · rw [mEntries_read hc htype hlookup hdir hcan h.plain fun n hn => (h.names n hn).2.1.1,
      ListsNames, map_fullPath_of_listable (unify_render h.plain) fun n hn => (h.names n hn).2]
  · have hnone : visibleNames w.tree l = [] := by
      rw [List.eq_nil_iff_forall_not_mem]
      exact fun n hn => hcan (h.names n hn).1
    obtain ⟨hreal, hworld⟩ := getAbsolutePath_of_isDir sys hc htype hlookup hdir
    rw [hnone, mEntries_read_nil]
    · exact List.Perm.nil
    · rw [hreal, hworld, (FsObject.execCommand_of_not_canExecute h.plain hcan).1]
      exact nofun

/-- What `ls` shows nothing of is no directory, or one without visible names. -/
theorem command_getEntries_nil {r : Str} (sys : System)
    (h : ∀ l, w.lookup (r ++ slash) = some l → visibleNames w.tree l = []) :
    ∃ ok, sys.command w (LibCommand.getEntries r).argv = some (ok, w, []) := by
  have hls := System.command_ls sys w (r ++ slash)
  have hargv : (LibCommand.getEntries r).argv = [System.lsName, r ++ slash] := rfl
  rw [hargv, hls]
  unfold System.ls
  cases hlookup : w.lookup (r ++ slash) with
  | none => exact ⟨false, rfl⟩
  | some l =>
    by_cases hdir : w.tree.IsDir l
    · refine ⟨true, ?_⟩
      rw [Option.bind_eq_bind, Option.bind_some, if_pos hdir, lines_eq, h l hlookup]
      rfl
    · refine ⟨false, ?_⟩
      rw [Option.bind_eq_bind, Option.bind_some, if_neg hdir]

/-- A call that reads returns what it should. -/
theorem current_of_reads {capacity : Nat} (hc : d.toFsObject.Coherent)
    (htype : d.mType = .directory) (h : d.Reads capacity sys w) :
    Current w d.fullPath (d.read sys w).1.mEntries := by
  refine ⟨fun l hlookup hdir => ?_, fun hnone => mEntries_read_nil fun hok => ?_⟩
  · exact listsNames_of_readsDir hc htype hlookup hdir (h.1 l hlookup hdir)
  · obtain ⟨hplain, hnothing⟩ := h.2 hnone
    rw [← FsObject.getAbsolutePath_mRealPath hc] at hplain hnothing
    by_cases hcan : FsObject.CanExecute sys (d.toFsObject.getAbsolutePath sys w).2
    · obtain ⟨ok, hcommand⟩ := command_getEntries_nil sys (hnothing hcan)
      obtain ⟨hstatus, -, hlines⟩ := FsObject.execCommand_of_canExecute hplain hcan hcommand
      rw [hstatus] at hok
      rw [hlines hok]
      rfl
    · rw [(FsObject.execCommand_of_not_canExecute hplain hcan).1] at hok
      cases hok

/-- What a plain `ls` hands to the pipe. -/
theorem piped_of_command {r : Bool × World × Str}
    (hstale : d.mLastUpdate ≠ d.getLastUpdateTime w sys)
    (hplain : (LibCommand.getEntries (d.toFsObject.getAbsolutePath sys w).1.mRealPath).PlainArgs)
    (hcan : FsObject.CanExecute sys (d.toFsObject.getAbsolutePath sys w).2)
    (hr : sys.command (d.toFsObject.getAbsolutePath sys w).2
      (LibCommand.getEntries (d.toFsObject.getAbsolutePath sys w).1.mRealPath).argv = some r) :
    d.piped sys w = r.2.2 := by
  unfold piped
  dsimp only
  rw [if_pos ⟨hstale, hcan⟩, hcan.1]
  exact congrArg (fun r => r.2.2)
    (System.run_of_command (LibCommand.readCommand_of_plainArgs hplain _) hr)

/-- A call that reads what it should comes back. -/
theorem returns_of_reads {capacity : Nat} (hc : d.toFsObject.Coherent)
    (htype : d.mType = .directory) (hstale : d.mLastUpdate ≠ d.getLastUpdateTime w sys)
    (h : d.Reads capacity sys w) : d.Returns capacity sys w := by
  by_cases hcan : FsObject.CanExecute sys (d.toFsObject.getAbsolutePath sys w).2
  · by_cases hnone : ∀ l, w.lookup d.fullPath = some l → ¬ w.tree.IsDir l
    · obtain ⟨hplain, hnothing⟩ := h.2 hnone
      rw [← FsObject.getAbsolutePath_mRealPath hc] at hplain hnothing
      obtain ⟨ok, hcommand⟩ := command_getEntries_nil sys (hnothing hcan)
      rw [Returns, piped_of_command hstale hplain hcan hcommand]
      exact Nat.zero_le capacity
    · push Not at hnone
      obtain ⟨l, hlookup, hdir⟩ := hnone
      have hreads := h.1 l hlookup hdir
      obtain ⟨hreal, hworld⟩ := getAbsolutePath_of_isDir sys hc htype hlookup hdir
      have hplain := hreads.plain
      rw [← hreal] at hplain
      rw [Returns, piped_of_command hstale hplain hcan (r := (true, w, lsText w.tree l))]
      · exact hreads.fits
      · rw [hworld, hreal]
        exact command_getEntries sys hdir
  · rw [Returns, piped, if_neg fun h => hcan h.2]
    exact Nat.zero_le capacity

/-- `getEntries` fills the caches of the object only. -/
theorem base_getEntries (d : Dir) (sys : System) (w : World) :
    (d.getEntries sys w).1.toFsObject = d.toFsObject ∨
      (d.getEntries sys w).1.toFsObject = (d.toFsObject.getAbsolutePath sys w).1 := by
  unfold getEntries
  split
  · exact Or.inr rfl
  · exact Or.inl rfl

theorem kept_getEntries (hc : d.toFsObject.Coherent) (sys : System) (w : World) :
    FsObject.Kept d.toFsObject (d.getEntries sys w).1.toFsObject := by
  rcases d.base_getEntries sys w with h | h
  · rw [h]
    exact FsObject.Kept.refl hc
  · rw [h]
    exact FsObject.getAbsolutePath_kept hc

/-! ## Calls that do not read -/

/-- A call that does not read comes back. -/
theorem returns_of_reuses {capacity : Nat} (h : ¬ d.mLastUpdate ≠ d.getLastUpdateTime w sys) :
    d.Returns capacity sys w := by
  rw [Returns, piped, if_neg fun hread => h hread.1]
  exact Nat.zero_le capacity

/-- The stamp that `getEntries` compares. -/
theorem getLastUpdateTime_of_lookup {v : Node} (hc : d.toFsObject.Coherent)
    (hl : w.lookup d.fullPath = some l) (hv : w.tree.get l = some v) :
    d.getLastUpdateTime w sys = sys.mtime w.clock v.ino := by
  rw [FsObject.getLastUpdateTime, if_neg (by simp [FsObject.isEmpty_of_lookup hc hl]),
    FsObject.stat_of_lookup hl hv]

/-- The listing of a directory is right still when it has the same entries. -/
theorem listsNames_congr {es : List FsObject} (h : ListsNames l (visibleNames w₀.tree l) es)
    (hkinds : ∀ n, w₀.tree.kindAt (l ++ [n]) = w.tree.kindAt (l ++ [n])) :
    ListsNames l (visibleNames w.tree l) es := by
  have hmem : ∀ n, n ∈ visibleNames w₀.tree l ↔ n ∈ visibleNames w.tree l := by
    intro n
    rw [visibleNames, visibleNames, List.mem_filter, List.mem_filter, FileTree.mem_children,
      FileTree.mem_children, Ne, Ne, ← FileTree.kindAt_eq_none, ← FileTree.kindAt_eq_none, hkinds]
  have hnodup : ∀ t : FileTree, (visibleNames t l).Nodup :=
    fun t => (PrefixTree.nodup_children t.entries l).filter _
  exact h.trans (((List.perm_ext_iff_of_nodup (hnodup _) (hnodup _)).2 hmem).map _)

/-- Entries that were right when they were read are right for a call that does
not read. -/
theorem current_of_reuses {worlds : World → Prop} (hstamps : StampsTell sys worlds)
    (hw : worlds w) (hc : d.toFsObject.Coherent)
    (hread : ∀ path w₀, d.readFrom = some (path, w₀) →
      worlds w₀ ∧ Current w₀ (Path.ofStr path).fullPath d.mEntries)
    (hstamp : d.mLastUpdate = d.getLastUpdateTime w sys) (h : d.Reuses sys w) :
    Current w d.fullPath d.mEntries := by
  rcases h with ⟨p, w₀, hfrom, hsame, hdir⟩ | ⟨hnil, hempty⟩
  · obtain ⟨hw₀, hcurrent, hnothing⟩ := hread p w₀ hfrom
    refine ⟨fun l hl hisDir => ?_, fun hnone => ?_⟩
    · obtain ⟨v, hv, -⟩ := World.lookup_result hl
      obtain ⟨v₀, hv₀, hino, hkind, hmtime⟩ := hdir l v hl hv
      have hvdir : v.kind = .directory := (FsObject.isDir_iff hv).1 hisDir
      refine listsNames_congr (hcurrent l (by rwa [hsame]) ?_) fun n => ?_
      · rw [FsObject.isDir_iff hv₀, hkind, hvdir]
      · refine hstamps w₀ w hw₀ hw l l v₀ v hv₀ hv (by rw [hkind, hvdir]) hvdir hino ?_ n
        rw [hino, hmtime, hstamp, getLastUpdateTime_of_lookup hc hl hv]
    · refine hnothing fun l hl hisDir => ?_
      rw [hsame] at hl
      obtain ⟨v, hv, -⟩ := World.lookup_result hl
      obtain ⟨v₀, hv₀, -, hkind, -⟩ := hdir l v hl hv
      refine hnone l hl ?_
      rw [FsObject.isDir_iff hv, ← hkind]
      exact (FsObject.isDir_iff hv₀).1 hisDir
  · refine ⟨fun l hl hisDir => ?_, fun _ => hnil⟩
    rw [hnil, hempty l hl hisDir]
    exact List.Perm.nil

end Dir

end SysFs
