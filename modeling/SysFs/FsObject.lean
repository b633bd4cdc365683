import SysFs.Command
import SysFs.Lib.Calls
import SysFs.Path

/-!
# Filesystem objects

The model of `Sys::Fs::FsObject`.  An object is a path with two more fields, the
type it is meant to have and `mRealPath`, the absolute path of the last
`getAbsolutePath` call.  `mExists` of the path is a cache as well: once
`checkIfExists` has seen the object, it does not look again.

A method gets the system, the world and the object, and gives back its result,
the object (whose caches are `mutable`) and the world.  Log messages are left
out.  `move` and `copy` are the same up to the command they run, so they share
`prepare`.  A command is run through `Shell`, and what the shell reads from the
text is decided by `System.run`.
-/

namespace SysFs

open Posix

/-- `FsObject::Type`. -/
inductive FileType where
  | uknown
  | fifo
  | charDevice
  | directory
  | blockDevice
  | regularFile
  | symbolicLink
  | socket
deriving DecidableEq, Repr

/-- The type bits of a mode. -/
def FileType.ofKind : Kind → FileType
  | .regular => .regularFile
  | .directory => .directory
  | .symlink _ => .symbolicLink
  | .fifo => .fifo
  | .charDevice => .charDevice
  | .blockDevice => .blockDevice
  | .socket => .socket

/-- The test of `checkIfExists` for an object of the wrong kind. -/
def FileType.unlike (t : FileType) (kind : Kind) : Bool :=
  (t == .regularFile && kind != .regular) || (t == .directory && kind != .directory)

/-- An object of class `FsObject`. -/
structure FsObject extends Path where
  /-- absolute path (without trailing separators) -/
  mRealPath : Str
  /-- type of filesystem object -/
  mType : FileType
deriving DecidableEq, Repr

/-- What a method leaves behind. -/
structure Outcome where
  ok : Bool
  obj : FsObject
  world : World
  /-- whether the virtual `setPath` was called -/
  pathSet : Bool := false

/-- What `execCommand` leaves behind. -/
structure Executed where
  ok : Bool
  lines : List Str
  world : World

namespace FsObject

/-- The default constructor. -/
def empty : FsObject := { Path.empty with mRealPath := [], mType := .uknown }

/-- The constructors from a string. -/
def ofStr (path : Str) : FsObject := { Path.ofStr path with mRealPath := [], mType := .uknown }

/-- The copy constructor.  The move constructor binds its argument as an
lvalue, so it comes here too. -/
def copyOf (src : FsObject) : FsObject := { src.toPath with mRealPath := [], mType := .uknown }

/-- `operator=`, which assigns the path only. -/
def assign (o src : FsObject) : FsObject := { o with toPath := o.toPath.assign src.toPath }

/-- `setPath`. -/
def setPath (o : FsObject) (path : Str) : FsObject := { o with toPath := o.toPath.setPath path }

/-- `analyze`. -/
def analyze (o : FsObject) : FsObject := { o with toPath := o.toPath.analyze }

section Queries

variable (w : World) (o : FsObject)

/-- `getStat`. -/
def getStat : Option Node := if o.isEmpty then none else w.stat o.fullPath

/-- `getStat` with `lState`. -/
def getLStat : Option Node := if o.isEmpty then none else w.lstat o.fullPath

/-- `getType`. -/
def getType : FileType :=
  match o.getStat w with
  | none => .uknown
  | some v => .ofKind v.kind

/-- `getMode`. -/
def getMode : Nat :=
  match o.getStat w with
  | none => 0
  | some v => v.mode

/-- `getLastUpdateTime`. -/
def getLastUpdateTime (sys : System) : Int :=
  if o.isEmpty then -1
  else
    match w.stat o.fullPath with
    | none => -1
    | some v => sys.mtime w.clock v.ino

/-- `isSymbolicLink`. -/
def isSymbolicLink : Bool := (o.getLStat w).any fun v => v.kind.IsLink

/-- `checkIfExists`. -/
def checkIfExists : FsObject :=
  if o.mExists || o.isEmpty then o
  else
    match o.getStat w with
    | none => o.analyze
    | some v => { o.analyze with mExists := !o.mType.unlike v.kind }

/-- `isExist`. -/
def isExist : Bool := (o.checkIfExists w).mExists

end Queries

variable (sys : System)

/-! ## Paths -/

/-- The directory path without the separator at its end. -/
def withoutSlash (s : Str) : Str := if s.getLast? = some '/' then s.dropLast else s

/-- The beginnings of a path at which the loop of `makePath` stops, and the
path itself. -/
def cuts (tmp : Str) : List Str :=
  ((List.range tmp.length).filter fun p => 1 ≤ p ∧ tmp[p]? = some '/').map tmp.take ++ [tmp]

/-- The directories that `makePath` tests and makes, up to the first that
fails. -/
def makeDirs (mode : Nat) : World → List Str → Bool × World
  | w, [] => (true, w)
  | w, tmp :: rest =>
    match w.stat tmp with
    | none =>
      match sys.mkdir w tmp mode with
      | none => (false, w)
      | some w' => makeDirs mode w' rest
    | some v => if v.kind = .directory then makeDirs mode w rest else (false, w)

/-- `makePath` after the test for existence: the directory of the path is made,
and the directories on the way to it. -/
def makeParents (w : World) (directoryPath : Str) (mode : Nat) : Bool × World :=
  if directoryPath = [] then (false, w)
  else
    let tmp := withoutSlash directoryPath
    if (w.stat tmp).any fun v => v.kind = .directory then (true, w)
    else makeDirs sys mode w (cuts tmp)

/-- `makePath`. -/
def makePath (w : World) (o : FsObject) (mode : Nat) : Outcome :=
  let o := o.checkIfExists w
  if o.mExists then ⟨true, o, w, false⟩
  else
    let o := o.analyze
    let made := makeParents sys w o.mDirectoryPath mode
    ⟨made.1, o, made.2, false⟩

/-- The mode that `makePath` and `create` take by default. -/
def defaultMode : Nat := 0o777

/-- `getAbsolutePath`.  The string it returns is `mRealPath` of the object. -/
def getAbsolutePath (w : World) (o : FsObject) : FsObject × World :=
  let made := makePath sys w o defaultMode
  let o := made.obj
  let w := made.world
  match w.realpath o.mFullPath with
  | some r => ({ o with mRealPath := r }, w)
  | none =>
    match w.realpath o.mDirectoryPath with
    | some r => ({ o with mRealPath := r ++ slash ++ o.mFilename }, w)
    | none => ({ o with mAbsolute := false }, w)

/-- `create`, with a bound on the number of names it tries. -/
def createLoop (mode : Nat) : Nat → World → FsObject → Outcome
  | 0, w, o => ⟨false, o, w, false⟩
  | fuel + 1, w, o =>
    let made := makePath sys w o defaultMode
    let o := made.obj
    let w := made.world
    if o.mType ≠ .regularFile ∧ o.mType ≠ .directory then ⟨false, o, w, false⟩
    else
      match o.getStat w with
      | none =>
        if o.mType = .directory then
          match sys.mkdir w o.fullPath mode with
          | none => ⟨false, o, w, false⟩
          | some w' => ⟨true, o, w', false⟩
        else
          match sys.creat w o.fullPath mode with
          | none => ⟨false, o, w, false⟩
          | some (_, w') => ⟨true, o, w', false⟩
      | some v =>
        if (v.kind = .directory ∧ o.mType = .directory) ∨
            (v.kind = .regular ∧ o.mType = .regularFile) then
          ⟨true, o, w, false⟩
        else
          let newPath := o.directoryPath ++ o.baseName ++ ['#'] ++ o.extension
          let made := createLoop mode fuel w (o.setPath newPath)
          { made with pathSet := true }

/-- `create`.  Every name after the first is a new one in the same directory, so
the entries that the first `makePath` leaves bound them
(`createLoop_eq_create`). -/
def create (w : World) (o : FsObject) (mode : Nat) : Outcome :=
  createLoop sys mode ((makePath sys w o defaultMode).world.tree.entries.dom.length + 1) w o

/-! ## Commands -/

/-- `Shell::execute` in a world.  What a file holds that the shell writes is
put there by `execCommand` itself. -/
def runShell (w : World) (sh : Shell) : Shell × World :=
  if !sh.mShellAvailable ∨ sh.mCommand.isEmpty ∨ (!sh.toDevNull ∧ sys.pipe w.clock = none) then
    -- `execCommand` returns before it calls `system`.
    ((sh.execute false ⟨1, [], false, false⟩).1, w)
  else
    let r := sys.run w (sh.handedText ((sys.pipe w.clock).getD 0))
    let file :=
      if r.1 ∧ !sh.mOutputPath.isEmpty ∧ !sh.toDevNull then
        sys.creat r.2.1 sh.mOutputPath 0o666
      else none
    -- One `read` gives 4095 bytes at most; only the first counts after a failure.
    let chunks := [r.2.2.take 4095, r.2.2.drop 4095]
    let done := sh.execute false ⟨if r.1 then 0 else 1, chunks, true, file.isSome⟩
    match file, done.2 with
    | some (l, w'), some (_, content) => (done.1, System.write w' l content)
    | _, _ => (done.1, r.2.1)

/-- `execCommand`. -/
def execCommand (w : World) (cmd : Str) : Executed :=
  let done := runShell sys w (Shell.ofCommand sys.shellAvailable cmd)
  ⟨done.1.mExecStatus, done.1.mOutputLines, done.2⟩

/-- What `move` and `copy` have done when they come to their command. -/
structure Prepared where
  ok : Bool
  obj : FsObject
  newpath : FsObject
  world : World

/-- `move` and `copy` up to the command: the checks, and the directories that
are made for the destination. -/
def prepare (w : World) (o : FsObject) (dstPath : Str) : Prepared :=
  let o := o.checkIfExists w
  let newpath := (ofStr dstPath).checkIfExists w
  if !o.mExists then ⟨false, o, ofStr dstPath, w⟩
  else if newpath.mExists then
    if newpath.getType w ≠ .directory ∧ o.getType w = .directory then ⟨false, o, newpath, w⟩
    else ⟨true, o, newpath, w⟩
  else
    let mode := (ofStr o.directoryPath).getMode w &&& 0o777
    let made := newpath.create sys w mode
    let newpath := made.obj
    let w := made.world
    if o.getType w = .directory ∨ newpath.toNative.getLast? = some '/' then
      let absolute := newpath.getAbsolutePath sys w
      match sys.mkdir absolute.2 absolute.1.mRealPath mode with
      | none => ⟨false, o, absolute.1, absolute.2⟩
      | some w' => ⟨true, o, absolute.1, w'⟩
    else ⟨true, o, newpath, w⟩

/-- `move`. -/
def move (w : World) (o : FsObject) (dstPath : Str) : Outcome :=
  let p := prepare sys w o dstPath
  if !p.ok then ⟨false, p.obj, p.world, false⟩
  else
    let absolute := p.obj.getAbsolutePath sys p.world
    let cmd := (LibCommand.move absolute.1.mRealPath p.newpath.toNative).text
    let done := execCommand sys absolute.2 cmd
    if !done.ok then ⟨false, absolute.1, done.world, false⟩
    else ⟨true, { absolute.1 with mExists := false }, done.world, false⟩

/-- `copy`. -/
def copy (w : World) (o : FsObject) (dstPath : Str) : Outcome :=
  let p := prepare sys w o dstPath
  if !p.ok then ⟨false, p.obj, p.world, false⟩
  else
    let absolute := p.obj.getAbsolutePath sys p.world
    let cmd := (LibCommand.copy absolute.1.mRealPath p.newpath.toNative).text
    let done := execCommand sys absolute.2 cmd
    ⟨done.ok, absolute.1, done.world, false⟩

/-- `createSymLink`. -/
def createSymLink (w : World) (o : FsObject) (dstPath : Str) : Outcome :=
  let o := o.checkIfExists w
  let newpath := (ofStr dstPath).checkIfExists w
  if !o.mExists then ⟨false, o, w, false⟩
  else if newpath.mExists ∧ newpath.getType w ≠ .directory then ⟨false, o, w, false⟩
  else
    let made := if newpath.mExists then ⟨true, newpath, w, false⟩
      else newpath.create sys w defaultMode
    let absolute := made.obj.getAbsolutePath sys made.world
    match sys.symlink absolute.2 o.toNative absolute.1.mRealPath with
    | none => ⟨false, o, absolute.2, false⟩
    | some w' => ⟨true, o, w', false⟩

/-- `remove`. -/
def remove (w : World) (o : FsObject) : Outcome :=
  let o := o.checkIfExists w
  if !o.mExists then ⟨false, o, w, false⟩
  else if o.getType w = .directory then
    let absolute := o.getAbsolutePath sys w
    let done := execCommand sys absolute.2 (LibCommand.remove absolute.1.mRealPath).text
    if !done.ok then ⟨false, absolute.1, done.world, false⟩
    else ⟨true, { absolute.1 with mExists := false }, done.world, false⟩
  else
    let absolute := o.getAbsolutePath sys w
    match sys.unlink absolute.2 absolute.1.mRealPath with
    | none => ⟨false, absolute.1, absolute.2, false⟩
    | some w' => ⟨true, { absolute.1 with mExists := false }, w', false⟩

/-- `removeSymLink`. -/
def removeSymLink (w : World) (o : FsObject) : Outcome :=
  let o := o.checkIfExists w
  if !o.mExists then ⟨false, o, w, false⟩
  else if o.isSymbolicLink w then
    let absolute := o.getAbsolutePath sys w
    match sys.unlink absolute.2 absolute.1.toNative with
    | none => ⟨false, absolute.1, absolute.2, false⟩
    | some w' => ⟨true, absolute.1.setPath absolute.1.mRealPath, w', true⟩
  else ⟨true, o, w, false⟩

/-- `setOwner`. -/
def setOwner (w : World) (o : FsObject) (owner : Str) : Outcome :=
  let o := o.checkIfExists w
  if !o.mExists ∨ owner = [] then ⟨false, o, w, false⟩
  else
    let absolute := o.getAbsolutePath sys w
    let cmd := (LibCommand.setOwner owner absolute.1.mRealPath).text
    let done := execCommand sys absolute.2 cmd
    ⟨done.ok, absolute.1, done.world, false⟩

/-- `setGroup`. -/
def setGroup (w : World) (o : FsObject) (group : Str) : Outcome :=
  let o := o.checkIfExists w
  if !o.mExists ∨ group = [] then ⟨false, o, w, false⟩
  else
    let absolute := o.getAbsolutePath sys w
    let cmd := (LibCommand.setGroup group absolute.1.mRealPath).text
    let done := execCommand sys absolute.2 cmd
    ⟨done.ok, absolute.1, done.world, false⟩

/-- `changeMode`.  The type bits it puts into the mode do not change the type
of an entry. -/
def changeMode (w : World) (o : FsObject) (mode : Nat) : Outcome :=
  let o := o.checkIfExists w
  if !o.mExists ∨ (o.getStat w).isNone then ⟨false, o, w, false⟩
  else
    let absolute := o.getAbsolutePath sys w
    match sys.chmod absolute.2 absolute.1.mRealPath mode with
    | none => ⟨false, absolute.1, absolute.2, false⟩
    | some w' => ⟨true, absolute.1, w', false⟩

end FsObject

end SysFs
