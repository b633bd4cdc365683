import SysFs.Execute

/-!
# Removing an object

`remove` asks `stat` for the kind of the object and takes the path that it
deletes from `realpath`.  Both follow links, so for an object whose entry is a
symbolic link it is the target of the link that is deleted, and the link stays.

`remove_spec` says what `remove` does, `Removable` when it does it, and
`remove_removesExactly_iff` that it removes exactly the named entry unless that
entry is a link.
-/

namespace SysFs

open Posix

namespace FsObject

/-- Nothing is left at the path, and everything outside the subtree of its
entry is as it was. -/
def RemovesExactly (w w' : World) (path : Str) : Prop :=
  w'.lstat path = none ∧
    ∃ e, w.lookupEntry path = some e ∧ ∀ l, ¬ e <+: l → w'.tree.get l = w.tree.get l

/-- The path of the object can be written into a command. -/
def PlainAt (w : World) (o : FsObject) : Prop :=
  ∀ r, w.realpath o.fullPath = some r → (LibCommand.remove r).PlainArgs

/-- `remove` gets as far as deleting something: the object is there, it is not
the root, and the system lets it be deleted. -/
def Removable (sys : System) (w : World) (o : FsObject) : Prop :=
  ∃ l v, w.lookup o.fullPath = some l ∧ w.tree.get l = some v ∧
    o.mType.unlike v.kind = false ∧ l ≠ [] ∧ sys.allows w.clock l = true ∧
    (v.kind = .directory → CanExecute sys w)

variable {sys : System} {w : World} {o : FsObject}

theorem lookupEntry_render {l : Loc} (hdir : w.tree.IsDir l.dropLast) (hl : l ≠ []) :
    w.lookupEntry (World.render l) = some l := by
  have hentry := World.entry_render hdir hl
  obtain ⟨ws, n, q, seen, hws, -, -, -⟩ := entryAt_eq_some_iff.1 hentry
  rw [World.lookupEntry, if_pos, hentry]
  rw [lastName_eq_some_iff.2 ⟨ws, hws⟩]
  rfl

/-- `rm -rf` of the path of an entry that is there.  The root is not removed. -/
theorem rm_render {l : Loc} {v : Node} (hv : w.tree.get l = some v) (hlink : ¬ v.kind.IsLink) :
    sys.rm w (World.render l) = sys.change w l (w.tree.remove l) := by
  rw [System.rm, Option.bind_eq_bind]
  rcases eq_or_ne l [] with rfl | hl
  · have hkind : w.tree.kindAt [] = some v.kind := by rw [FileTree.kindAt_eq, hv, Option.map_some]
    have hroot : w.lookupEntry (World.render []) = w.lookup (World.render []) :=
      if_neg (by decide)
    have hrefused : sys.change w [] (w.tree.remove []) = none := by
      rw [← Option.not_isSome_iff_eq_none, System.change_remove_isSome_iff (by simp [hv])]
      exact fun h => h.1 rfl
    rw [hroot, World.lookup_render hkind hlink, Option.bind_some, if_pos rfl, hrefused]
  · have hdir : w.tree.IsDir l.dropLast :=
      FileTree.isDir_dropLast_of_get hl (by simp [hv])
    rw [lookupEntry_render hdir hl, Option.bind_some, if_neg hl, if_neg (by simp [hv])]

/-- `unlink` of the path of an entry that is there. -/
theorem unlink_render {l : Loc} {v : Node} (hv : w.tree.get l = some v)
    (hfile : v.kind ≠ .directory) :
    sys.unlink w (World.render l) = sys.change w l (w.tree.remove l) := by
  have hnd : ¬ w.tree.IsDir l := fun h => hfile ((isDir_iff hv).1 h)
  have hl : l ≠ [] := by
    rintro rfl
    exact hnd w.tree.isDir_root
  have hdir : w.tree.IsDir l.dropLast :=
    FileTree.isDir_dropLast_of_get hl (by simp [hv])
  rw [System.unlink, Option.bind_eq_bind, World.entry_render hdir hl, Option.bind_some,
    if_neg hnd]

/-- When the object is there, `remove` is one change, which deletes the location
that the full path leads to. -/
theorem remove_of_lookup {l : Loc} {v : Node} (hc : o.Coherent)
    (hexists : (o.checkIfExists w).mExists = true) (hl : w.lookup o.fullPath = some l)
    (hv : w.tree.get l = some v) (hplain : PlainAt w o) :
    ((remove sys w o).ok = true ↔ l ≠ [] ∧ sys.allows w.clock l = true ∧
      (v.kind = .directory → CanExecute sys w)) ∧
    ((remove sys w o).ok = true →
      sys.change w l (w.tree.remove l) = some (remove sys w o).world) := by
  have hkept := kept_checkIfExists hc w
  have hl' : w.lookup (o.checkIfExists w).fullPath = some l := by rwa [hkept.fullPath hc]
  have hexists' : ((o.checkIfExists w).checkIfExists w).mExists = true := by
    rw [checkIfExists_of_mExists hexists]
    exact hexists
  obtain ⟨hreal, hworld⟩ :=
    getAbsolutePath_of_lookup sys hkept.coherent hexists' hl'
  have htype := getType_eq hkept.coherent (stat_of_lookup hl' hv)
  obtain ⟨u, hu, hlink⟩ := World.lookup_result hl
  obtain rfl : v = u := Option.some.inj (hv.symm.trans hu)
  -- Where the change is tried, it decides the result.
  have hchange : (v.kind = .directory → CanExecute sys w) →
      ((sys.change w l (w.tree.remove l)).isSome = true ↔ l ≠ [] ∧ sys.allows w.clock l = true ∧
        (v.kind = .directory → CanExecute sys w)) := by
    intro hcan
    rw [System.change_remove_isSome_iff (by simp [hv]), ← and_assoc, and_iff_left hcan]
  unfold remove
  simp only [hexists, htype, ofKind_eq_directory, hworld, hreal, Bool.not_true,
    Bool.false_eq_true, if_false]
  by_cases hdir : v.kind = .directory
  · simp only [if_pos hdir]
    have harg : (LibCommand.remove (World.render l)).PlainArgs :=
      hplain _ (World.realpath_of_lookup hl)
    by_cases hcan : CanExecute sys w
    · have hcommand : sys.command w (LibCommand.remove (World.render l)).argv
          = some ((sys.rm w (World.render l)).isSome, (sys.rm w (World.render l)).getD w, []) :=
        rfl
      rw [rm_render hv hlink] at hcommand
      obtain ⟨hok, hafter, -⟩ := execCommand_of_canExecute harg hcan hcommand
      have hgranted := hchange fun _ => hcan
      rw [hok, hafter]
      cases hresult : sys.change w l (w.tree.remove l) with
      | none =>
        rw [hresult] at hgranted
        exact ⟨hgranted, fun hok => Bool.noConfusion hok⟩
      | some w' =>
        rw [hresult] at hgranted
        exact ⟨hgranted, fun _ => rfl⟩
    · obtain ⟨hok, -⟩ := execCommand_of_not_canExecute harg hcan
      simp [hok, hdir, hcan]
  · simp only [if_neg hdir]
    rw [unlink_render hv hdir]
    have hgranted := hchange fun hkind => absurd hkind hdir
    cases hresult : sys.change w l (w.tree.remove l) with
    | none =>
      rw [hresult] at hgranted
      exact ⟨hgranted, fun hok => Bool.noConfusion hok⟩
    | some w' =>
      rw [hresult] at hgranted
      exact ⟨hgranted, fun _ => rfl⟩

/-- An object that is not cached is removed exactly when it is removable. -/
theorem remove_ok_iff (hc : o.Coherent) (hm : o.mExists = false) (hplain : PlainAt w o) :
    (remove sys w o).ok = true ↔ Removable sys w o := by
  by_cases hpresent : o.Present w
  · have hexists := (checkIfExists_of_not_mExists hc hm).2 hpresent
    obtain ⟨v, hstat, hkind⟩ := hpresent
    obtain ⟨l, hl, hv⟩ := World.stat_eq_some_iff.1 hstat
    rw [(remove_of_lookup hc hexists hl hv hplain).1]
    constructor
    · rintro ⟨hne, hallows, hcan⟩
      exact ⟨l, v, hl, hv, hkind, hne, hallows, hcan⟩
    · rintro ⟨l', v', hl', hv', -, hne, hallows, hcan⟩
      obtain rfl : l = l' := Option.some.inj (hl.symm.trans hl')
      obtain rfl : v = v' := Option.some.inj (hv.symm.trans hv')
      exact ⟨hne, hallows, hcan⟩
  · have hnot : (o.checkIfExists w).mExists = false := by
      rw [← Bool.not_eq_true, checkIfExists_of_not_mExists hc hm]
      exact hpresent
    have hok : (remove sys w o).ok = false := by
      simp [remove, hnot]
    rw [hok]
    constructor
    · intro h
      cases h
    · rintro ⟨l, v, hl, hv, hkind, -⟩
      exact absurd ⟨v, stat_of_lookup hl hv, hkind⟩ hpresent

/-- What is deleted is the location that the full path leads to. -/
theorem remove_spec (hc : o.Coherent) (hm : o.mExists = false) (hplain : PlainAt w o)
    (hok : (remove sys w o).ok = true) :
    ∃ l, w.lookup o.fullPath = some l ∧ l ≠ [] ∧ (remove sys w o).world.cwd = w.cwd ∧
      ∀ x, (remove sys w o).world.tree.get x = if l <+: x then none else w.tree.get x := by
  obtain ⟨l, v, hl, hv, hkind, -⟩ := (remove_ok_iff hc hm hplain).1 hok
  have hexists := (checkIfExists_of_not_mExists hc hm).2 ⟨v, stat_of_lookup hl hv, hkind⟩
  have hchange := (remove_of_lookup hc hexists hl hv hplain).2 hok
  obtain ⟨hne, hcwd, hget⟩ := System.change_remove_spec hchange
  exact ⟨l, hl, hne, hcwd, hget⟩

/-- `remove` removes exactly the named entry, except when that is a symbolic
link whose target it deletes instead. -/
theorem remove_removesExactly_iff (sys : System) (w : World) (t : FileType) (path : Str)
    (hplain : PlainAt w (fresh t path)) :
    ((remove sys w (fresh t path)).ok = true →
      RemovesExactly w (remove sys w (fresh t path)).world (fresh t path).fullPath) ↔
    ¬ ((fresh t path).isSymbolicLink w = true ∧ Removable sys w (fresh t path)) := by
  have hc := coherent_fresh t path
  constructor
  · rintro h ⟨hlink, hremovable⟩
    have hok := (remove_ok_iff hc rfl hplain).2 hremovable
    obtain ⟨-, e, he, hframe⟩ := h hok
    obtain ⟨l, hl, -, -, hget⟩ := remove_spec hc rfl hplain hok
    obtain ⟨e', v, he', hv, -⟩ := World.lookupEntry_of_lookup hl
    obtain rfl : e = e' := Option.some.inj (he.symm.trans he')
    rw [isSymbolicLink_iff rfl (isEmpty_of_lookup hc hl) he hv] at hlink
    obtain ⟨u, hu, hulink⟩ := World.lookup_result hl
    -- The target is not below the link, so its loss shows outside.
    have hapart : ¬ e <+: l := by
      intro hp
      obtain rfl := FileTree.eq_of_prefix (not_isDir_of_link hv hlink) hp (by simp [hu])
      obtain rfl := Option.some.inj (hu.symm.trans hv)
      exact hulink hlink
    have hsame := hframe l hapart
    rw [hget, if_pos List.prefix_rfl, hu] at hsame
    cases hsame
  · intro hnot hok
    have hremovable := (remove_ok_iff hc rfl hplain).1 hok
    obtain ⟨l, hl, -, hcwd, hget⟩ := remove_spec hc rfl hplain hok
    obtain ⟨e, v, he, hv, hel⟩ := World.lookupEntry_of_lookup hl
    have hnolink : ¬ v.kind.IsLink := fun hlink =>
      hnot ⟨(isSymbolicLink_iff rfl (isEmpty_of_lookup hc hl) he hv).2 hlink, hremovable⟩
    obtain rfl := hel hnolink
    have hext : (remove sys w (fresh t path)).world.tree.Extends w.tree := by
      intro x v hx
      change (remove sys w (fresh t path)).world.tree.get x = some v at hx
      rw [hget] at hx
      split at hx
      · cases hx
      · exact hx
    refine ⟨World.lstat_eq_none_of_gone he ?_ hext hcwd, e, he, fun x hx => ?_⟩
    · rw [hget, if_pos List.prefix_rfl]
    · rw [hget, if_neg hx]

theorem plainAt_of_realpath {r : Str} (h : w.realpath o.fullPath = some r)
    (hplain : (LibCommand.remove r).PlainArgs) : PlainAt w o := by
  intro r' hr'
  rw [h] at hr'
  rw [← Option.some.inj hr']
  exact hplain

/-- A tree in which `/link` leads to the directory `/dir`. -/
def linkedWorld : World :=
  World.ofList [(["dir"], .directory), (["link"], .symlink "/dir".toList)]

/-- The directory itself is removed exactly, because it is no link. -/
theorem remove_removesExactly_iff_dir :
    ((remove System.granting linkedWorld (fresh .directory "/dir".toList)).ok = true →
      RemovesExactly linkedWorld
        (remove System.granting linkedWorld (fresh .directory "/dir".toList)).world
        (fresh .directory "/dir".toList).fullPath) ↔
    ¬ ((fresh .directory "/dir".toList).isSymbolicLink linkedWorld = true ∧
      Removable System.granting linkedWorld (fresh .directory "/dir".toList)) :=
  remove_removesExactly_iff System.granting linkedWorld .directory "/dir".toList
    (plainAt_of_realpath (by decide : _ = some "/dir".toList) (by decide))

/-- Removing the link removes the directory and leaves the link. -/
theorem not_removesExactly_of_link :
    ¬ ∀ (sys : System) (w : World) (t : FileType) (path : Str), PlainAt w (fresh t path) →
      (remove sys w (fresh t path)).ok = true →
      RemovesExactly w (remove sys w (fresh t path)).world (fresh t path).fullPath := by
  intro h
  have hplain : PlainAt linkedWorld (fresh .uknown "/link".toList) :=
    plainAt_of_realpath (by decide : _ = some "/dir".toList) (by decide)
  have hleft : (remove System.granting linkedWorld (fresh .uknown "/link".toList)).world.lstat
      (fresh .uknown "/link".toList).fullPath ≠ none := by decide
  exact hleft (h System.granting linkedWorld .uknown "/link".toList hplain (by decide)).1

end FsObject

end SysFs
