import SysFs.Lib.PrefixTree

/-!
# File trees

A file tree maps locations, lists of names from the root down, to nodes.  A
`Name` carries the proof that it can be the name of a directory entry, and a
`FileTree` the proofs that its root is a directory, that every entry lies in a
directory, and that no two entries have the same inode number, so an operation
has to give the proofs that it keeps this.

* `put` writes a node into a directory, and `update` changes a node that is
  there without changing its kind.
* `prune` removes an entry with everything below it.
* `relocate` moves an entry with everything below it.

There are no hard links: a node is at one location, and its inode number says
which node it is wherever it is moved.
-/

namespace Posix

/-- The names a directory entry can have. -/
def IsName (s : List Char) : Prop := s ≠ [] ∧ s ≠ ['.'] ∧ s ≠ ['.', '.'] ∧ '/' ∉ s

instance : DecidablePred IsName := fun _ => inferInstanceAs (Decidable (_ ∧ _))

/-- The name of a directory entry. -/
abbrev Name := {s : List Char // IsName s}

/-- The name that a text is. -/
def Name.ofText (s : List Char) : Option Name := if h : IsName s then some ⟨s, h⟩ else none

/-- The names from the root down to an entry. -/
abbrev Loc := List Name

/-- The kinds of file. -/
inductive Kind where
  | regular
  | directory
  | symlink (target : List Char)
  | fifo
  | charDevice
  | blockDevice
  | socket
deriving DecidableEq, Repr

/-- A symbolic link. -/
def Kind.IsLink (k : Kind) : Prop := ∃ target, k = .symlink target

instance : DecidablePred Kind.IsLink
  | .symlink target => isTrue ⟨target, rfl⟩
  | .regular => isFalse (by simp [Kind.IsLink])
  | .directory => isFalse (by simp [Kind.IsLink])
  | .fifo => isFalse (by simp [Kind.IsLink])
  | .charDevice => isFalse (by simp [Kind.IsLink])
  | .blockDevice => isFalse (by simp [Kind.IsLink])
  | .socket => isFalse (by simp [Kind.IsLink])

/-- What an entry holds. -/
structure Node where
  kind : Kind
  /-- the permission bits -/
  mode : Nat
  /-- the bytes of a regular file -/
  content : List Char
  /-- the inode number -/
  ino : Nat
deriving DecidableEq, Repr

/-- The entries of a tree. -/
abbrev Entries := PrefixTree Name Node

/-- The kind of the entry at a location. -/
def Entries.kindAt (t : Entries) (l : Loc) : Option Kind := (t.get l).map Node.kind

/-- A tree whose root is a directory, whose entries lie in directories, and
whose inode numbers are distinct. -/
structure FileTree where
  entries : Entries
  root_isDir : entries.kindAt [] = some .directory
  parent_isDir : ∀ l n, entries.get (l ++ [n]) ≠ none →
    entries.kindAt l = some .directory
  ino_inj : ∀ l l' v v', entries.get l = some v → entries.get l' = some v' →
    v.ino = v'.ino → l = l'

namespace Name

theorem ofText_eq_some {s : List Char} {n : Name} : ofText s = some n ↔ s = n.1 := by
  unfold ofText
  constructor
  · intro h
    split at h
    · rw [← Option.some.inj h]
    · cases h
  · rintro rfl
    rw [dif_pos n.2]

theorem ofText_eq_none {s : List Char} : ofText s = none ↔ ¬ IsName s := by
  unfold ofText
  split
  · rename_i hname
    exact iff_of_false (Option.some_ne_none _) (not_not.2 hname)
  · rename_i hname
    exact iff_of_true rfl hname

@[simp] theorem ofText_val (n : Name) : ofText n.1 = some n := ofText_eq_some.2 rfl

theorem ne_nil (n : Name) : n.1 ≠ [] := n.2.1

theorem ne_dot (n : Name) : n.1 ≠ ['.'] := n.2.2.1

theorem ne_dotdot (n : Name) : n.1 ≠ ['.', '.'] := n.2.2.2.1

theorem slash_notMem (n : Name) : '/' ∉ n.1 := n.2.2.2.2

end Name

namespace FileTree

/-- The node at a location. -/
def get (t : FileTree) (l : Loc) : Option Node := t.entries.get l

/-- The kind of the entry at a location. -/
def kindAt (t : FileTree) (l : Loc) : Option Kind := t.entries.kindAt l

/-- There is a directory at the location. -/
def IsDir (t : FileTree) (l : Loc) : Prop := t.kindAt l = some .directory

instance (t : FileTree) (l : Loc) : Decidable (t.IsDir l) :=
  inferInstanceAs (Decidable (_ = _))

theorem kindAt_eq (t : FileTree) (l : Loc) : t.kindAt l = (t.get l).map Node.kind := rfl

theorem kindAt_eq_none {t : FileTree} {l : Loc} : t.kindAt l = none ↔ t.get l = none := by
  rw [kindAt_eq, Option.map_eq_none_iff]

theorem IsDir.get_ne_none {t : FileTree} {l : Loc} (h : t.IsDir l) : t.get l ≠ none := by
  intro hnone
  rw [← kindAt_eq_none, h] at hnone
  cases hnone

theorem isDir_root (t : FileTree) : t.IsDir [] := t.root_isDir

theorem isDir_parent {t : FileTree} {l : Loc} {n : Name} (h : t.get (l ++ [n]) ≠ none) :
    t.IsDir l := t.parent_isDir l n h

theorem isDir_dropLast_of_get {t : FileTree} {l : Loc} (hl : l ≠ []) (h : t.get l ≠ none) :
    t.IsDir l.dropLast := by
  obtain ⟨l, n, rfl⟩ := (List.eq_nil_or_concat' l).resolve_left hl
  rw [List.dropLast_concat]
  exact isDir_parent h

/-- What lies strictly above an entry is a directory. -/
theorem isDir_above {t : FileTree} {l r : Loc} (hr : r ≠ []) (h : t.get (l ++ r) ≠ none) :
    t.IsDir l := by
  induction r using List.reverseRecOn with
  | nil => exact absurd rfl hr
  | append_singleton r n ih =>
    rw [← List.append_assoc] at h
    have hdir := isDir_parent h
    rcases eq_or_ne r [] with rfl | hne
    · rwa [List.append_nil] at hdir
    · exact ih hne hdir.get_ne_none

/-- The directory above a directory is one. -/
theorem isDir_dropLast {t : FileTree} {l : Loc} (h : t.IsDir l) : t.IsDir l.dropLast := by
  rcases List.eq_nil_or_concat' l with rfl | ⟨l, n, rfl⟩
  · exact h
  · rw [List.dropLast_concat]
    exact isDir_parent h.get_ne_none

/-- Nothing lies below an entry that is no directory. -/
theorem eq_of_prefix {t : FileTree} {e l : Loc} (hfile : ¬ t.IsDir e) (hp : e <+: l)
    (h : t.get l ≠ none) : l = e := by
  obtain ⟨r, rfl⟩ := hp
  by_contra hne
  refine hfile (isDir_above (r := r) ?_ h)
  rintro rfl
  exact hne (List.append_nil e)

/-- The locations of two nodes with the same number are the same. -/
theorem eq_of_ino {t : FileTree} {l l' : Loc} {v v' : Node} (h : t.get l = some v)
    (h' : t.get l' = some v') (hino : v.ino = v'.ino) : l = l' := t.ino_inj l l' v v' h h' hino

/-- Write a node into a directory. -/
def put (t : FileTree) (l : Loc) (v : Node) (hl : l ≠ []) (hdir : t.IsDir l.dropLast)
    (hkind : t.IsDir l → v.kind = .directory)
    (hino : ∀ x u, t.get x = some u → u.ino = v.ino → x = l) : FileTree where
  entries := t.entries.set l v
  root_isDir := by
    rw [Entries.kindAt, PrefixTree.get_set_of_ne hl.symm]
    exact t.root_isDir
  parent_isDir := by
    intro l' n' h
    have hl' : t.IsDir l' := by
      by_cases heq : l' ++ [n'] = l
      · rwa [← heq, List.dropLast_concat] at hdir
      · rw [PrefixTree.get_set_of_ne heq] at h
        exact t.parent_isDir l' n' h
    by_cases heq : l' = l
    · subst heq
      rw [Entries.kindAt, PrefixTree.get_set_self, Option.map_some, hkind hl']
    · rw [Entries.kindAt, PrefixTree.get_set_of_ne heq]
      exact hl'
  ino_inj := by
    intro x x' u u' hx hx' hu
    rw [PrefixTree.get_set] at hx hx'
    split at hx <;> split at hx'
    · rename_i hxl hxl'
      rw [hxl, hxl']
    · rename_i hxl _
      rw [hxl, hino x' u' hx' (by rw [← hu, Option.some.inj hx])]
    · rename_i _ hxl
      rw [hxl, hino x u hx (by rw [hu, Option.some.inj hx'])]
    · exact t.ino_inj x x' u u' hx hx' hu

/-- Change a node that is there, and keep its kind and its number. -/
def update (t : FileTree) (l : Loc) (v : Node)
    (h : ∃ u, t.get l = some u ∧ u.kind = v.kind ∧ u.ino = v.ino) : FileTree where
  entries := t.entries.set l v
  root_isDir := by
    obtain ⟨u, hu, hkind, -⟩ := h
    rw [Entries.kindAt, PrefixTree.get_set]
    split
    · rename_i hl
      subst hl
      have hroot := t.root_isDir
      rw [Entries.kindAt, show t.entries.get [] = some u from hu] at hroot
      rw [Option.map_some, ← hkind, ← hroot, Option.map_some]
    · exact t.root_isDir
  parent_isDir := by
    obtain ⟨u, hu, hkind, -⟩ := h
    intro l' n' hne
    have hl' : t.IsDir l' := by
      by_cases heq : l' ++ [n'] = l
      · refine isDir_parent (n := n') ?_
        rw [heq, hu]
        simp
      · rw [PrefixTree.get_set_of_ne heq] at hne
        exact t.parent_isDir l' n' hne
    rw [Entries.kindAt, PrefixTree.get_set]
    split
    · rename_i heq
      subst heq
      rw [IsDir, kindAt_eq, hu] at hl'
      rw [Option.map_some, ← hkind, ← hl', Option.map_some]
    · exact hl'
  ino_inj := by
    obtain ⟨u, hu, -, hino⟩ := h
    intro x x' y y' hx hx' hy
    rw [PrefixTree.get_set] at hx hx'
    split at hx <;> split at hx'
    · rename_i hxl hxl'
      rw [hxl, hxl']
    · rename_i hxl _
      rw [hxl]
      exact t.ino_inj l x' u y' hu hx' (by rw [hino, ← hy, Option.some.inj hx])
    · rename_i _ hxl
      rw [hxl]
      exact t.ino_inj x l y u hx hu (by rw [hino, hy, Option.some.inj hx'])
    · exact t.ino_inj x x' y y' hx hx' hy

/-- Remove an entry and everything below it. -/
def prune (t : FileTree) (l : Loc) (h : l ≠ []) : FileTree where
  entries := t.entries.prune l
  root_isDir := by
    rw [Entries.kindAt, PrefixTree.get_prune_apart (by simpa using h)]
    exact t.root_isDir
  parent_isDir := by
    intro l' n' hne
    by_cases hp : l <+: l' ++ [n']
    · rw [PrefixTree.get_prune_below hp] at hne
      exact absurd rfl hne
    · rw [PrefixTree.get_prune_apart hp] at hne
      have hp' : ¬ l <+: l' := fun h' => hp (h'.trans (List.prefix_append _ _))
      rw [Entries.kindAt, PrefixTree.get_prune_apart hp']
      exact t.parent_isDir l' n' hne
  ino_inj := by
    intro x x' u u' hx hx' hu
    exact t.ino_inj x x' u u' (PrefixTree.prune_extends _ _ x u hx)
      (PrefixTree.prune_extends _ _ x' u' hx') hu

/-- Whether an entry `s` can be moved to `d`. -/
structure CanMove (t : FileTree) (s d : Loc) : Prop where
  source : s ≠ []
  target : d ≠ []
  isDir : t.IsDir d.dropLast
  /-- not into itself, nor onto itself -/
  outside : ¬ s <+: d
  /-- not onto a directory that holds it -/
  above : ¬ d <+: s

instance (t : FileTree) (s d : Loc) : Decidable (t.CanMove s d) :=
  decidable_of_iff
    (s ≠ [] ∧ d ≠ [] ∧ t.IsDir d.dropLast ∧ ¬ s <+: d ∧ ¬ d <+: s)
    ⟨fun ⟨h1, h2, h3, h4, h5⟩ => ⟨h1, h2, h3, h4, h5⟩,
      fun ⟨h1, h2, h3, h4, h5⟩ => ⟨h1, h2, h3, h4, h5⟩⟩

/-- Move an entry and everything below it.  What was at or below the target is
lost. -/
def relocate (t : FileTree) (s d : Loc) (h : t.CanMove s d) : FileTree where
  entries := t.entries.relocate s d
  root_isDir := by
    rw [Entries.kindAt, PrefixTree.get_relocate_other (by simpa using h.source)
      (by simpa using h.target)]
    exact t.root_isDir
  parent_isDir := by
    intro l m hne
    -- A location outside both subtrees keeps its entry.
    have hother : ∀ {x}, ¬ s <+: x → ¬ d <+: x → t.IsDir x →
        Entries.kindAt (t.entries.relocate s d) x = some .directory := by
      intro x hs hd hx
      rw [Entries.kindAt, PrefixTree.get_relocate_other hs hd]
      exact hx
    by_cases hd : d <+: l ++ [m]
    · rcases List.prefix_concat_iff.1 hd with heq | hd'
      · have hdir := h.isDir
        rw [heq, List.dropLast_concat] at hdir
        refine hother (fun hs => h.outside ?_) (fun hd' => ?_) hdir
        · rw [heq]
          exact hs.trans (List.prefix_append _ _)
        · have := hd'.length_le
          rw [heq, List.length_append, List.length_singleton] at this
          omega
      · obtain ⟨r, rfl⟩ := hd'
        rw [List.append_assoc, PrefixTree.get_relocate_target, ← List.append_assoc] at hne
        rw [Entries.kindAt, PrefixTree.get_relocate_target]
        exact t.parent_isDir _ m hne
    · by_cases hs : s <+: l ++ [m]
      · rw [PrefixTree.get_relocate_source hs hd] at hne
        exact absurd rfl hne
      · rw [PrefixTree.get_relocate_other hs hd] at hne
        exact hother (fun h' => hs (h'.trans (List.prefix_append _ _)))
          (fun h' => hd (h'.trans (List.prefix_append _ _))) (t.parent_isDir l m hne)
  ino_inj := by
    intro x x' u u' hx hx' hu
    -- Where the node of `x` was before.
    have hback : ∀ {y v}, (t.entries.relocate s d).get y = some v →
        (∃ r, y = d ++ r ∧ t.get (s ++ r) = some v) ∨ (¬ s <+: y ∧ t.get y = some v) := by
      intro y v hy
      by_cases hd : d <+: y
      · obtain ⟨r, rfl⟩ := hd
        rw [PrefixTree.get_relocate_target] at hy
        exact Or.inl ⟨r, rfl, hy⟩
      · by_cases hs : s <+: y
        · rw [PrefixTree.get_relocate_source hs hd] at hy
          cases hy
        · rw [PrefixTree.get_relocate_other hs hd] at hy
          exact Or.inr ⟨hs, hy⟩
    rcases hback hx with ⟨r, rfl, hr⟩ | ⟨hs, hx⟩ <;>
      rcases hback hx' with ⟨r', rfl, hr'⟩ | ⟨hs', hx'⟩
    · rw [List.append_cancel_left (t.ino_inj _ _ u u' hr hr' hu)]
    · exact absurd ⟨r, t.ino_inj _ _ u u' hr hx' hu⟩ hs'
    · exact absurd ⟨r', (t.ino_inj _ _ u u' hx hr' hu).symm⟩ hs
    · exact t.ino_inj _ _ u u' hx hx' hu

/-- The names in a directory. -/
def children (t : FileTree) (l : Loc) : List Name := t.entries.children l

section Lookups

variable {t : FileTree} {l x : Loc} {v : Node}

theorem get_update (h : ∃ u, t.get l = some u ∧ u.kind = v.kind ∧ u.ino = v.ino) :
    (t.update l v h).get x = if x = l then some v else t.get x := rfl

/-- A node that is changed keeps its kind. -/
theorem kindAt_update (h : ∃ u, t.get l = some u ∧ u.kind = v.kind ∧ u.ino = v.ino) :
    (t.update l v h).kindAt x = t.kindAt x := by
  obtain ⟨u, hu, hkind, -⟩ := id h
  rw [kindAt_eq, get_update]
  split
  · rename_i hx
    rw [hx, kindAt_eq, hu, Option.map_some, Option.map_some, hkind]
  · rfl

theorem get_prune (h : l ≠ []) :
    (t.prune l h).get x = if l <+: x then none else t.get x := rfl

theorem mem_children {n : Name} : n ∈ t.children l ↔ t.get (l ++ [n]) ≠ none :=
  PrefixTree.mem_children

variable {s d : Loc} (h : t.CanMove s d)

include h

theorem get_relocate_target (r : Loc) :
    (t.relocate s d h).get (d ++ r) = t.get (s ++ r) :=
  PrefixTree.get_relocate_target _ _ _ _

theorem get_relocate_source (hs : s <+: x) (hd : ¬ d <+: x) :
    (t.relocate s d h).get x = none :=
  PrefixTree.get_relocate_source hs hd

theorem get_relocate_other (hs : ¬ s <+: x) (hd : ¬ d <+: x) :
    (t.relocate s d h).get x = t.get x :=
  PrefixTree.get_relocate_other hs hd

/-- The source is gone. -/
theorem get_relocate_self : (t.relocate s d h).get s = none :=
  get_relocate_source h List.prefix_rfl h.above

end Lookups

/-! ## Growing trees -/

/-- Every entry of `t` is an entry of `t'`. -/
def Extends (t t' : FileTree) : Prop := t.entries.Extends t'.entries

namespace Extends

variable {t t' t'' : FileTree}

theorem refl (t : FileTree) : t.Extends t := PrefixTree.Extends.refl _

theorem trans (h : t.Extends t') (h' : t'.Extends t'') : t.Extends t'' :=
  PrefixTree.Extends.trans h h'

theorem get_eq (h : t.Extends t') {l : Loc} (hl : t.get l ≠ none) : t'.get l = t.get l :=
  PrefixTree.Extends.get_eq h hl

theorem kindAt_eq (h : t.Extends t') {l : Loc} (hl : t.kindAt l ≠ none) :
    t'.kindAt l = t.kindAt l := by
  rw [FileTree.kindAt_eq, FileTree.kindAt_eq, h.get_eq (fun hn => hl (kindAt_eq_none.2 hn))]

theorem kindAt_some (h : t.Extends t') {l : Loc} {k : Kind} (hl : t.kindAt l = some k) :
    t'.kindAt l = some k := by
  rw [h.kindAt_eq (by simp [hl]), hl]

theorem isDir (h : t.Extends t') {l : Loc} (hl : t.IsDir l) : t'.IsDir l :=
  h.kindAt_some hl

end Extends

/-- The tree that holds only the root. -/
def initial : FileTree where
  entries := PrefixTree.empty.set [] ⟨.directory, 0o755, [], 0⟩
  root_isDir := rfl
  parent_isDir := by
    intro l n h
    rw [PrefixTree.get_set_of_ne (by simp)] at h
    exact absurd rfl h
  ino_inj := by
    have hroot : ∀ {l : Loc} {v : Node}, (PrefixTree.empty.set []
        (Node.mk .directory 0o755 [] 0)).get l = some v → l = [] := by
      intro l v h
      by_contra hl
      rw [PrefixTree.get_set_of_ne hl] at h
      cases h
    intro l l' v v' h h' _
    rw [hroot h, hroot h']

/-- The largest number of a list. -/
private theorem le_foldr_max {n : Nat} {ns : List Nat} (h : n ∈ ns) : n ≤ ns.foldr max 0 := by
  induction ns with
  | nil => cases h
  | cons m ns ih =>
    rw [List.foldr_cons]
    rcases List.mem_cons.1 h with rfl | h
    · exact Nat.le_max_left _ _
    · exact Nat.le_trans (ih h) (Nat.le_max_right _ _)

/-- An inode number that no entry has. -/
def freshIno (t : FileTree) : Nat :=
  (t.entries.dom.map fun l => ((t.get l).map Node.ino).getD 0).foldr max 0 + 1

theorem ino_lt_freshIno {t : FileTree} {l : Loc} {v : Node} (h : t.get l = some v) :
    v.ino < t.freshIno := by
  have hmem : l ∈ t.entries.dom := t.entries.mem_dom l (by
    rw [show t.entries.get l = some v from h]
    simp)
  refine Nat.lt_succ_of_le (le_foldr_max (List.mem_map.2 ⟨l, hmem, ?_⟩))
  rw [h]
  rfl

/-! ## Operations that can fail -/

/-- The node with a number that no entry has. -/
def numbered (t : FileTree) (v : Node) : Node := { v with ino := t.freshIno }

/-- Add a node where nothing is, with a new number. -/
def add (t : FileTree) (l : Loc) (v : Node) : Option FileTree :=
  if h : l ≠ [] ∧ t.IsDir l.dropLast ∧ t.get l = none then
    some (t.put l (t.numbered v) h.1 h.2.1 (fun hdir => absurd h.2.2 hdir.get_ne_none)
      (fun _ _ hx hino => absurd hino (Nat.ne_of_lt (ino_lt_freshIno hx))))
  else none

/-- Add entries one after the other, directories before what they hold. -/
def addAll (t : FileTree) : List (List String × Kind) → FileTree
  | [] => t
  | (path, kind) :: rest =>
    ((t.add (path.filterMap fun s => Name.ofText s.toList) ⟨kind, 0o755, [], 0⟩).getD t).addAll rest

/-- Whether an entry of kind `source` may take the place of what is at `d`: a
directory replaces an empty directory only, and anything else replaces anything
but a directory. -/
def replaceable (t : FileTree) (source : Kind) (d : Loc) : Bool :=
  match t.kindAt d with
  | none => true
  | some .directory => source == .directory && (t.children d).isEmpty
  | some _ => source != .directory

/-- Move an entry to a new name. -/
def rename (t : FileTree) (s d : Loc) : Option FileTree :=
  match t.kindAt s with
  | none => none
  | some source =>
    if h : t.CanMove s d ∧ t.replaceable source d = true then some (t.relocate s d h.1) else none

/-- Remove an entry and everything below it. -/
def remove (t : FileTree) (l : Loc) : Option FileTree :=
  if h : l ≠ [] ∧ t.get l ≠ none then some (t.prune l h.1) else none

variable {t t' : FileTree} {l s d : Loc} {v : Node}

theorem add_spec (h : t.add l v = some t') :
    l ≠ [] ∧ t.IsDir l.dropLast ∧ t.get l = none ∧ t.Extends t' ∧
      ∀ x, t'.get x = if x = l then some (t.numbered v) else t.get x := by
  unfold add at h
  split at h
  · rename_i hl
    rw [← Option.some.inj h]
    exact ⟨hl.1, hl.2.1, hl.2.2, PrefixTree.extends_set _ hl.2.2, fun _ => rfl⟩
  · cases h

theorem add_of_free (hl : l ≠ []) (hdir : t.IsDir l.dropLast) (hnone : t.get l = none) :
    ∃ t', t.add l v = some t' :=
  ⟨_, dif_pos ⟨hl, hdir, hnone⟩⟩

theorem remove_spec (h : t.remove l = some t') :
    l ≠ [] ∧ t.get l ≠ none ∧ ∀ x, t'.get x = if l <+: x then none else t.get x := by
  unfold remove at h
  split at h
  · rename_i hl
    rw [← Option.some.inj h]
    exact ⟨hl.1, hl.2, fun _ => rfl⟩
  · cases h

theorem rename_spec (h : t.rename s d = some t') :
    ∃ (source : Kind) (hmove : t.CanMove s d), t.kindAt s = some source ∧
      t.replaceable source d = true ∧ t' = t.relocate s d hmove := by
  unfold rename at h
  split at h
  · cases h
  · rename_i source hsource
    split at h
    · rename_i hd
      exact ⟨source, hd.1, hsource, hd.2, (Option.some.inj h).symm⟩
    · cases h

end FileTree

end Posix
