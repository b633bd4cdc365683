import SysFs.Dir

/-!
# Every entry once

`getEntries` turns each line of the listing into an object: it trims the line,
puts it behind the absolute path, lets the constructor turn backslashes into
separators, and keeps the object if its path leads somewhere.  A `Dir` that was
just constructed holds the time stamp zero, so it does not read a directory with
that stamp.

`listsOnce_iff` says when every entry comes through all of this: there are no
blanks at the ends of the names, no backslashes in them and no links that lead
nowhere, and the stamp of the directory is not zero.  The converse starts with
the backslashes.  Once no name has one, what a line gives is the path of its
trimmed name.
-/

namespace SysFs

open Posix

namespace Dir

variable {sys : System} {w : World} {d : Dir} {l : Loc} {n : Name}

/-- There is one object for each entry of the directory, and its full path is
the path of the directory, a separator and the name of the entry. -/
def ListsOnce (w : World) (l : Loc) (es : List FsObject) : Prop :=
  ListsNames l (w.tree.children l) es ∧ ((w.tree.children l).map (entryPath l)).Nodup

theorem entryPath_injective (l : Loc) : Function.Injective (entryPath l) := by
  intro n m h
  exact Subtype.ext (Path.eq_of_append_slash h n.slash_notMem m.slash_notMem).2

/-- No path of an entry is listed twice. -/
theorem nodup_entryPaths (t : FileTree) (l : Loc) : ((t.children l).map (entryPath l)).Nodup :=
  (PrefixTree.nodup_children t.entries l).map (entryPath_injective l)

/-! ## What a line becomes -/

/-! ## When every entry is listed once -/

/-- Where every name is visible, all of them are listed. -/
theorem visibleNames_eq (hvisible : ∀ n ∈ w.tree.children l, Visible n) :
    visibleNames w.tree l = w.tree.children l :=
  List.filter_eq_self.2 fun n hn => decide_eq_true (hvisible n hn)

/-- When every path is listed, all names come through and lead somewhere. -/
theorem listable_of_perm (hl : unify (World.render l) = World.render l) {names : List Name}
    (hnewline : ∀ n ∈ names, '\n' ∉ n.1)
    (h : (((names.map Subtype.val).filterMap (entryOf w (World.render l))).map
      fun e => e.fullPath).Perm (names.map (entryPath l))) :
    ∀ n ∈ names, Listable n.1 ∧ w.lookup (entryPath l n) ≠ none := by
  -- Every path that should be listed is the one of an object for some line.
  have hfrom : ∀ n ∈ names, ∃ m ∈ names, ∃ e, entryOf w (World.render l) m.1 = some e ∧
      e.fullPath = entryPath l n := by
    intro n hn
    obtain ⟨e, he, hfull⟩ := List.mem_map.1 (h.mem_iff.2 (List.mem_map_of_mem hn))
    obtain ⟨line, hline, hentry⟩ := List.mem_filterMap.1 he
    obtain ⟨m, hm, rfl⟩ := List.mem_map.1 hline
    exact ⟨m, hm, e, hentry, hfull⟩
  have hback : ∀ n ∈ names, '\\' ∉ n.1 := by
    intro n hn hmem
    obtain ⟨m, -, e, hentry, hfull⟩ := hfrom n hn
    have hnot := (lookup_of_entryOf hentry).1.backslash_notMem_fullPath
    rw [hfull, entryPath] at hnot
    exact hnot (List.mem_append_right _ (List.mem_cons_of_mem _ hmem))
  intro n hn
  obtain ⟨m, hm, e, hentry, hfull⟩ := hfrom n hn
  obtain ⟨-, hleads, -, -⟩ := lookup_of_entryOf hentry
  have htrim := fullPath_of_entryOf hl (hback m hm) m.slash_notMem hentry
  have hname : n.1 = Trim m.1 := by
    rw [hfull, entryPath] at htrim
    exact List.cons.inj (List.append_cancel_left htrim) |>.2
  obtain ⟨hhead, hlast⟩ := isspace_ends_Trim m.1
  refine ⟨⟨hnewline n hn, hback n hn, ?_, ?_⟩, ?_⟩
  · rwa [hname]
  · rwa [hname]
  · rwa [← hfull]

/-- What a new `Dir` returns: nothing for a directory with the stamp zero, which
it holds itself, and otherwise what the lines of the listing become. -/
theorem mEntries_ofStr {path : Str} (hlookup : w.lookup (Dir.ofStr path).fullPath = some l)
    (hdir : w.tree.IsDir l) (hcan : FsObject.CanExecute sys w)
    (hplain : (LibCommand.getEntries (World.render l)).PlainArgs)
    (hnames : ∀ n ∈ w.tree.children l, Visible n ∧ '\n' ∉ n.1) :
    ((Dir.ofStr path).getEntries sys w).1.mEntries =
      if (Dir.ofStr path).getLastUpdateTime w sys = 0 then []
      else ((w.tree.children l).map Subtype.val).filterMap (entryOf w (World.render l)) := by
  have hc : (Dir.ofStr path).toFsObject.Coherent := Path.Coherent.of_setPath Path.empty path
  have hzero : (Dir.ofStr path).mLastUpdate = 0 := rfl
  have hvisible := visibleNames_eq fun n hn => (hnames n hn).1
  have hread := mEntries_read hc rfl hlookup hdir hcan hplain fun n hn => by
    rw [hvisible] at hn
    exact (hnames n hn).2
  rw [hvisible] at hread
  unfold getEntries
  rw [hzero]
  by_cases hstamp : (Dir.ofStr path).getLastUpdateTime w sys = 0
  · rw [if_pos hstamp, hstamp, if_neg (not_not.2 rfl)]
    rfl
  · rw [if_neg hstamp, if_pos (Ne.symm hstamp)]
    exact hread

/-- A new `Dir` of a directory that can be listed and has visible names without
newlines returns one object for each entry exactly if, as soon as there is an
entry, the stamp of the directory is not zero, and every name comes through and
leads somewhere. -/
theorem listsOnce_iff (sys : System) (w : World) (path : Str) {l : Loc}
    (hlookup : w.lookup (Dir.ofStr path).fullPath = some l) (hdir : w.tree.IsDir l)
    (hcan : FsObject.CanExecute sys w) (hplain : (LibCommand.getEntries (World.render l)).PlainArgs)
    (hnames : ∀ n ∈ w.tree.children l, Visible n ∧ '\n' ∉ n.1) :
    ListsOnce w l ((Dir.ofStr path).getEntries sys w).1.mEntries ↔
      ∀ n ∈ w.tree.children l, (Dir.ofStr path).getLastUpdateTime w sys ≠ 0 ∧ Listable n.1 ∧
        w.lookup (entryPath l n) ≠ none := by
  have hl := unify_render hplain
  rw [ListsOnce, and_iff_left (nodup_entryPaths w.tree l),
    mEntries_ofStr hlookup hdir hcan hplain hnames]
  by_cases hstamp : (Dir.ofStr path).getLastUpdateTime w sys = 0
  · rw [if_pos hstamp]
    constructor
    · intro hperm n hn
      have hnil := List.perm_nil.1 hperm.symm
      rw [List.map_eq_nil_iff.1 hnil] at hn
      cases hn
    · intro hall
      have hnil : w.tree.children l = [] := by
        rw [List.eq_nil_iff_forall_not_mem]
        intro n hn
        exact (hall n hn).1 hstamp
      rw [hnil]
      exact List.Perm.nil
  · rw [if_neg hstamp]
    constructor
    · intro hperm n hn
      exact ⟨hstamp, listable_of_perm hl (fun n hn => (hnames n hn).2) hperm n hn⟩
    · intro hall
      rw [ListsNames, map_fullPath_of_listable hl fun n hn => (hall n hn).2]

/-- A directory `/a` with the file `f`. -/
def oneFile : World :=
  World.ofList [(["a"], .directory), (["a", "f"], .regular)]

/-- The file is listed once. -/
theorem listsOnce_iff_one : ListsOnce oneFile [⟨['a'], by decide⟩]
    ((Dir.ofStr ['/', 'a']).getEntries System.granting oneFile).1.mEntries := by
  have hchildren : oneFile.tree.children [⟨['a'], by decide⟩] = [⟨['f'], by decide⟩] := by
    decide
  refine (listsOnce_iff System.granting oneFile ['/', 'a'] (by decide) (by decide) (by decide)
    (by decide) fun n hn => ?_).2 fun n hn => ?_
  · rw [hchildren, List.mem_singleton] at hn
    subst hn
    decide
  · rw [hchildren, List.mem_singleton] at hn
    subst hn
    refine ⟨by decide, ⟨by decide, by decide, fun c hc => ?_, fun c hc => ?_⟩, by decide⟩
    · obtain rfl : 'f' = c := Option.some.inj hc
      decide
    · obtain rfl : 'f' = c := Option.some.inj hc
      decide

/-- A directory `/a` with the file `f` and one whose name is `f` and a blank. -/
def blankFile : World :=
  World.ofList [(["a"], .directory), (["a", "f"], .regular), (["a", "f "], .regular)]

/-- The first file is listed twice and the second one never. -/
theorem not_listsOnce_blank :
    blankFile.lookup (Dir.ofStr ['/', 'a']).fullPath = some [⟨['a'], by decide⟩] ∧
      blankFile.tree.IsDir [⟨['a'], by decide⟩] ∧
      FsObject.CanExecute System.granting blankFile ∧
      (LibCommand.getEntries (World.render [⟨['a'], by decide⟩])).PlainArgs ∧
      (∀ n ∈ blankFile.tree.children [⟨['a'], by decide⟩], Visible n ∧ '\n' ∉ n.1) ∧
      ¬ ListsOnce blankFile [⟨['a'], by decide⟩]
        ((Dir.ofStr ['/', 'a']).getEntries System.granting blankFile).1.mEntries := by
  refine ⟨by decide, by decide, by decide, by decide, by decide, fun h => ?_⟩
  have hlisted : ((Dir.ofStr ['/', 'a']).getEntries System.granting blankFile).1.mEntries.map
      (fun e => e.fullPath) = [['/', 'a', '/', 'f'], ['/', 'a', '/', 'f']] := by
    decide
  have hmem : ['/', 'a', '/', 'f', ' '] ∈
      (blankFile.tree.children [⟨['a'], by decide⟩]).map (entryPath [⟨['a'], by decide⟩]) := by
    decide
  have hperm := h.1
  rw [ListsNames, hlisted] at hperm
  have hnot : ['/', 'a', '/', 'f', ' '] ∉ [['/', 'a', '/', 'f'], ['/', 'a', '/', 'f']] := by
    decide
  exact hnot (hperm.mem_iff.2 hmem)

end Dir

end SysFs
