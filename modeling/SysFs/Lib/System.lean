import Mathlib.Data.List.DropRight
import SysFs.Lib.Lookup
import SysFs.Lib.Sh

/-!
# A system with one file tree

What a program sees of the system it runs on: a file tree, a working directory,
the calls that look at the tree or change it, and a shell that runs commands.

A `World` is what changes, and a `System` what does not: the file mode mask,
and how the system decides what the model leaves open.  The kernel may refuse
any change (`allows`), time stamps are arbitrary (`mtime`), and `other` is what
the shell does with every text that is not one of the commands modelled here.
The clock of a world counts the changes, so that each can be decided anew.

The three commands are read from the text by `Sh.readCommand`.  `mv` renames an
entry to a name or into a directory, `rm -rf` removes an entry with everything
below it, and `ls` lists a directory.  Their operands are never read as options.
Searching a directory needs no permission here, and paths can be of any length.
-/

namespace Posix

/-- The tree and the working directory, and the number of changes so far. -/
structure World where
  tree : FileTree
  cwd : Loc
  clock : Nat

/-- What the model leaves open about a system. -/
structure System where
  umask : Nat
  /-- whether the change of an entry is granted -/
  allows : Nat → Loc → Bool
  /-- the time stamp of an inode, in seconds -/
  mtime : Nat → Nat → Int
  shellAvailable : Bool
  /-- the write end of a new pipe, or `none` when `pipe` fails -/
  pipe : Nat → Option Nat
  /-- status, tree and output of any other text -/
  other : List Char → World → Bool × FileTree × List Char

/-- A system that grants every change, and fails every text it does not know. -/
def System.granting : System where
  umask := 0o022
  allows _ _ := true
  mtime n _ := n + 1
  shellAvailable := true
  pipe _ := some 4
  other _ w := (false, w.tree, [])

/-- A world with the given entries, whose working directory is the root. -/
def World.ofList (entries : List (List String × Kind)) : World :=
  ⟨FileTree.initial.addAll entries, [], 0⟩

/-- The number of links that one lookup follows. -/
def maxLinks : Nat := 40

namespace World

variable (w : World)

/-- Where the lookup of a path starts. -/
def start (path : List Char) : Loc := startAt w.cwd path

/-- The location that a path leads to, following all links. -/
def lookup (path : List Char) : Option Loc :=
  if path = [] then none
  else walk w.tree false maxLinks (w.start path) (Lines.fields '/' path)

/-- `stat`. -/
def stat (path : List Char) : Option Node := (w.lookup path).bind w.tree.get

/-- The entry that a path names, whether or not it is there. -/
def entry (path : List Char) : Option Loc :=
  entryAt w.tree maxLinks (w.start path) (Lines.fields '/' path)

/-- The entry that a path names when separators at its end do not count. -/
def target (path : List Char) : Option Loc :=
  entryAt w.tree maxLinks (w.start path) ((Lines.fields '/' path).rdropWhile List.isEmpty)

/-- The location that a path leads to, when a link at its end is not
followed.  A path that does not end with a name has no link at its end. -/
def lookupEntry (path : List Char) : Option Loc :=
  if (lastName (Lines.fields '/' path)).isSome then w.entry path else w.lookup path

/-- `lstat`. -/
def lstat (path : List Char) : Option Node := (w.lookupEntry path).bind w.tree.get

/-- The absolute path of a location. -/
def render (l : Loc) : List Char := if l = [] then ['/'] else l.flatMap fun n => '/' :: n.1

/-- `realpath`. -/
def realpath (path : List Char) : Option (List Char) := (w.lookup path).map render

end World

namespace System

variable (sys : System) (w : World)

/-- The world after a change of its tree. -/
def changed (t : FileTree) : World := ⟨t, w.cwd, w.clock + 1⟩

/-- A change of the entry `l`, if it is granted. -/
def change (l : Loc) (t : Option FileTree) : Option World :=
  if sys.allows w.clock l then t.map (changed w) else none

/-- The permission bits of a new file. -/
def masked (mode : Nat) : Nat := mode &&& (0o7777 ^^^ sys.umask)

/-- `mkdir`. -/
def mkdir (path : List Char) (mode : Nat) : Option World := do
  let l ← w.target path
  sys.change w l (w.tree.add l ⟨.directory, sys.masked mode, [], 0⟩)

/-- `open` with `O_CREAT` and write access: the file, and the world with it. -/
def creat (path : List Char) (mode : Nat) : Option (Loc × World) :=
  if path = [] then none
  else
    match walk w.tree true maxLinks (w.start path) (Lines.fields '/' path) with
    | none => none
    | some l =>
      match w.tree.kindAt l with
      | some .directory => none
      | some _ => some (l, w)
      | none =>
        (sys.change w l (w.tree.add l ⟨.regular, sys.masked mode, [], 0⟩)).map (l, ·)

/-- Write the content of a regular file. -/
def write (l : Loc) (content : List Char) : World :=
  match hv : w.tree.get l with
  | none => w
  | some v =>
    ⟨w.tree.update l ⟨v.kind, v.mode, content, v.ino⟩ ⟨v, hv, rfl, rfl⟩, w.cwd, w.clock⟩

/-- `unlink`. -/
def unlink (path : List Char) : Option World := do
  let l ← w.entry path
  if w.tree.IsDir l then none else sys.change w l (w.tree.remove l)

/-- `symlink`. -/
def symlink (text path : List Char) : Option World := do
  let l ← w.entry path
  if text = [] then none else sys.change w l (w.tree.add l ⟨.symlink text, 0o777, [], 0⟩)

/-- `chmod`. -/
def chmod (path : List Char) (mode : Nat) : Option World := do
  let l ← w.lookup path
  match hv : w.tree.get l with
  | none => none
  | some v =>
    sys.change w l
      (some (w.tree.update l ⟨v.kind, mode &&& 0o7777, v.content, v.ino⟩ ⟨v, hv, rfl, rfl⟩))

/-- The entry that `mv a b` gives the entry `s` of `a`. -/
def mvTarget (s : Loc) (b : List Char) : Option Loc :=
  match w.lookup b with
  | some q =>
    if w.tree.IsDir q then s.getLast?.map (q ++ [·]) else w.entry b
  | none =>
    -- A separator at the end is for directories only.
    if b.getLast? = some '/' ∧ ¬ w.tree.IsDir s then none else w.target b

/-- `mv a b`. -/
def mv (a b : List Char) : Option World := do
  let s ← w.entry a
  let d ← mvTarget w s b
  sys.change w d (w.tree.rename s d)

/-- `rm -rf a`. -/
def rm (a : List Char) : Option World := do
  let l ← w.lookupEntry a
  if l = [] then none
  else if w.tree.get l = none then some w
  else sys.change w l (w.tree.remove l)

/-- `ls a`, for a directory: the names that do not start with a dot, in no
particular order. -/
def ls (a : List Char) : Option (List (List Char)) := do
  let l ← w.lookup a
  if w.tree.IsDir l then
    some (((w.tree.children l).map Subtype.val).filter fun n => n.head? != some '.')
  else none

/-- The program names and flags. -/
def mvName : List Char := ['m', 'v']
def rmName : List Char := ['r', 'm']
def rfFlags : List Char := ['-', 'r', 'f']
def lsName : List Char := ['l', 's']

/-- Status, world and output of a command that is modelled here. -/
def command (argv : List (List Char)) : Option (Bool × World × List Char) :=
  match argv with
  | [p, a] =>
    if p = lsName then
      match ls w a with
      | some names => some (true, w, names.flatMap (· ++ ['\n']))
      | none => some (false, w, [])
    else none
  | [p, a, b] =>
    if p = mvName then
      some ((sys.mv w a b).isSome, (sys.mv w a b).getD w, [])
    else if p = rmName ∧ a = rfFlags then
      some ((sys.rm w b).isSome, (sys.rm w b).getD w, [])
    else none
  | _ => none

/-- `system`: status, world and output of a text. -/
def run (text : List Char) : Bool × World × List Char :=
  match (Sh.readCommand text).bind fun c => sys.command w c.argv with
  | some r => r
  | none => ((sys.other text w).1, changed w (sys.other text w).2.1, (sys.other text w).2.2)

end System

end Posix
