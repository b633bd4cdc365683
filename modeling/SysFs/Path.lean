import SysFs.Lib.Lines

/-!
# Paths as strings

The model of `Sys::Fs::Path`.  A `Path` keeps its string in unified form, with
`/` as the only separator, and fills in the parts of it (file name, extension,
directory, drive letter) the first time one of them is asked for.  The fields
keep the names of the source, and `mDetails` says whether `analyze` has run.

Nothing here looks at a filesystem, with one exception that the source makes
too: `mExists` is the cache of `FsObject::checkIfExists`, and it lives in this
class.

The functions are translated one by one: `setPath` with its two slips on the
empty string kept as they are, `analyze`, `resolve` and the stack machine of
`resolved`.  A C++ string is a list of characters without a zero character,
which is what every string that reaches the kernel is.

The lemmas below the definitions say what `analyze` and `setPath` leave alone.
-/

namespace SysFs

/-- A C++ string. -/
abbrev Str := List Char

/-- The string `"/"`. -/
def slash : Str := ['/']

/-- The string `"."`. -/
def dot : Str := ['.']

/-- The string `".."`. -/
def dotdot : Str := ['.', '.']

/-- An object of class `Path`. -/
structure Path where
  /-- path (unified format) -/
  mPath : Str
  mPointsToContent : Bool
  /-- whether the path details have been analyzed -/
  mDetails : Bool
  mFullPath : Str
  mFilename : Str
  mBasename : Str
  mExtension : Str
  mDirectoryPath : Str
  mDriveLetter : Str
  mAbsolute : Bool
  /-- status of existence of the file in the filesystem -/
  mExists : Bool
deriving DecidableEq, Repr

/-- The default constructor. -/
def Path.empty : Path where
  mPath := []
  mPointsToContent := false
  mDetails := false
  mFullPath := []
  mFilename := []
  mBasename := []
  mExtension := []
  mDirectoryPath := []
  mDriveLetter := []
  mAbsolute := false
  mExists := false

/-- `std::replace` of the backslashes. -/
def unify (s : Str) : Str := s.map fun c => if c = '\\' then '/' else c

/-- Whether the last separator is the last character.  `find_last_of` gives
`npos` when there is no separator, and `size() - 1` wraps to `npos` for the
empty string, so the empty string counts as ending with one. -/
def endsWithSeparator (s : Str) : Bool := s.isEmpty || s.getLast? = some '/'

/-- `setPath`.  Both overloads leave the object in the same state. -/
def Path.setPath (_ : Path) (path : Str) : Path :=
  { Path.empty with
    mPath := unify path
    mPointsToContent := endsWithSeparator (unify path) }

/-- The constructors from a string. -/
def Path.ofStr (path : Str) : Path := Path.empty.setPath path

/-- `operator=`.  The move assignments of the derived classes bind their
argument as an lvalue, so they come here too. -/
def Path.assign (_ src : Path) : Path := { src with mExists := false }

/-- A first component that makes a path absolute: the empty one before a
leading `/`, or a drive such as `C:`. -/
def isRootPart (part : Str) : Bool :=
  part.isEmpty || (part.length == 2 && part[1]? == some ':')

/-- The components of a path, as the `std::getline` loop reads them. -/
def partsOf (path : Str) : List Str := Lines.getlines '/' path

/-- The components with their separators: the first one gets one if it is the
start of an absolute path, and every one before the file name does. -/
def fixParts (parts : List Str) : List Str :=
  parts.mapIdx fun i path =>
    if i = 0 ∧ isRootPart path then path ++ slash
    else if i + 1 < parts.length then path ++ slash
    else path

/-- Where the extension of a file name starts: `find_first_of('.', 1)`. -/
def extensionPos (filename : Str) : Option Nat :=
  (filename.tail.findIdx? (· = '.')).map (· + 1)

/-- `analyze`. -/
def Path.analyze (p : Path) : Path :=
  if p.mDetails then p
  else
    let parts := fixParts (partsOf p.mPath)
    let numParts := parts.length
    let absolute := (partsOf p.mPath).head?.any isRootPart
    let filename := parts.getLast?.getD []
    let directoryPath :=
      if numParts > 1 then parts.dropLast.flatten
      else if numParts = 1 ∧ absolute then parts.head?.getD []
      else []
    let fullPath :=
      if numParts > 1 then directoryPath ++ filename
      else if numParts = 1 ∧ absolute then directoryPath
      else if numParts = 1 then filename
      else []
    let pos := extensionPos filename
    let whole := filename = dot ∨ filename = dotdot ∨ pos = none
    { p with
      mDetails := true
      mFullPath := fullPath
      mFilename := filename
      mBasename := if whole then filename else filename.take (pos.getD 0)
      mExtension := if whole then [] else filename.drop (pos.getD 0)
      mDirectoryPath := directoryPath
      mDriveLetter :=
        if fullPath.findIdx? (· = ':') = some 1 then p.mPath.take 2 else []
      mAbsolute := absolute
      mExists := false }

/-- `isEmpty`. -/
def Path.isEmpty (p : Path) : Bool := p.mPath.isEmpty

/-- `toNative`, on a system where `/` is the native separator. -/
def Path.toNative (p : Path) : Str := p.mPath

/-- `unifiedPath`. -/
def Path.unifiedPath (p : Path) : Str := p.mPath

/-- `fullPath`. -/
def Path.fullPath (p : Path) : Str := p.analyze.mFullPath

/-- `fileName`. -/
def Path.fileName (p : Path) : Str := p.analyze.mFilename

/-- `baseName`. -/
def Path.baseName (p : Path) : Str := p.analyze.mBasename

/-- `extension`. -/
def Path.extension (p : Path) : Str := p.analyze.mExtension

/-- `directoryPath`. -/
def Path.directoryPath (p : Path) : Str := p.analyze.mDirectoryPath

/-- `driveLetter`. -/
def Path.driveLetter (p : Path) : Str := p.analyze.mDriveLetter

/-- `isAbsolute`. -/
def Path.isAbsolute (p : Path) : Bool := p.analyze.mAbsolute

/-- `isRelative`. -/
def Path.isRelative (p : Path) : Bool := !p.analyze.mAbsolute

/-- `pointsToContent`. -/
def Path.pointsToContent (p : Path) : Bool := p.mPointsToContent

/-- `resolve`.  `isAbsolute` analyzes the argument before it is copied. -/
def Path.resolve (p path : Path) : Path :=
  if path.isEmpty ∧ p.isEmpty then Path.empty
  else if path.isAbsolute ∨ p.isEmpty then path.analyze
  else if path.isEmpty then p
  else Path.ofStr (p.fullPath ++ slash ++ path.unifiedPath)

/-- The variables of the loop of `resolved`. -/
structure ResolveState where
  stack : List Str
  removableItems : Nat
  absolute : Bool
deriving DecidableEq, Repr

/-- One round of the loop of `resolved`, for component `i`. -/
def resolveStep (s : ResolveState) (i : Nat) (path : Str) : ResolveState :=
  let absolute := s.absolute || (i == 0 && isRootPart path)
  if path = dot then { s with absolute := absolute }
  else if path = dotdot ∧ s.removableItems > 0 then
    ⟨s.stack.dropLast, s.removableItems - 1, absolute⟩
  else
    ⟨s.stack ++ [path],
      if ¬ (i = 0 ∧ absolute) ∧ path ≠ dotdot then s.removableItems + 1
      else s.removableItems,
      absolute⟩

/-- The loop of `resolved` from component `i` on. -/
def resolveLoop : ResolveState → Nat → List Str → ResolveState
  | s, _, [] => s
  | s, i, path :: parts => resolveLoop (resolveStep s i path) (i + 1) parts

/-- The recomposition loop of `resolved`. -/
def compose (s : ResolveState) : Str :=
  (s.stack.mapIdx fun i part =>
    if i + 1 < s.stack.length ∨ (i = 0 ∧ s.absolute) then part ++ slash
    else part).flatten

/-- `resolved`. -/
def Path.resolved (p : Path) : Str :=
  let s := resolveLoop ⟨[], 0, false⟩ 0 (partsOf p.mPath)
  if (compose s).isEmpty then dot else compose s

/-! ## What `analyze` does -/

namespace Path

@[simp] theorem analyze_mPath (p : Path) : p.analyze.mPath = p.mPath := by
  unfold analyze
  split <;> rfl

@[simp] theorem analyze_mDetails (p : Path) : p.analyze.mDetails = true := by
  unfold analyze
  split
  · assumption
  · rfl

theorem analyze_of_details {p : Path} (h : p.mDetails = true) :
    p.analyze = p := by
  rw [analyze, if_pos h]

/-- Analyzing twice is analyzing once. -/
@[simp] theorem analyze_analyze (p : Path) : p.analyze.analyze = p.analyze :=
  analyze_of_details (analyze_mDetails p)

@[simp] theorem setPath_mPath (p : Path) (s : Str) :
    (p.setPath s).mPath = unify s := rfl

@[simp] theorem ofStr_mPath (s : Str) : (ofStr s).mPath = unify s := rfl

end Path

theorem unify_of_notMem {s : Str} (h : '\\' ∉ s) : unify s = s := by
  rw [unify, List.map_congr_left (g := id), List.map_id]
  intro c hc
  rw [if_neg]
  · rfl
  · rintro rfl
    exact h hc

/-- A unified string has no backslash left. -/
theorem backslash_notMem_unify (s : Str) : '\\' ∉ unify s := by
  rw [unify, List.mem_map]
  rintro ⟨c, -, hc⟩
  split at hc
  · exact absurd hc (by decide)
  · rename_i h
    exact h hc

/-- Unifying a string twice is unifying it once. -/
@[simp] theorem unify_unify (s : Str) : unify (unify s) = unify s :=
  unify_of_notMem (backslash_notMem_unify s)

end SysFs
