import SysFs.Lib.System

/-!
# What the calls of a system do

One statement for each call of `SysFs.Lib.System`: what has to hold for it to
succeed, and the whole tree afterwards.  Callers use these and never unfold a
call.

* `lookup_*`: where a path leads, and that this stays so in a larger tree.
* `lookup_render`, `entry_render_concat`: an absolute path leads back to its
  location.
* `*_under`: a relative path and the same path in full.
* `lookup_eq_some_iff_reads`: where a new link leads.
* `*_spec`: the calls that change the tree.
-/

namespace Posix

/-- The nodes that the lookup finds are no links. -/
theorem World.lookup_eq_some_iff {w : World} {path : List Char} {l : Loc} :
    w.lookup path = some l ↔ path ≠ [] ∧ ∃ seen,
      Walks w.tree false maxLinks (w.start path) (Lines.fields '/' path) seen l := by
  unfold lookup
  split
  · rename_i h
    simp [h]
  · rename_i h
    rw [walk_eq_some_iff]
    exact ⟨fun hw => ⟨h, hw⟩, fun hw => hw.2⟩

namespace World

variable {w w' : World} {path d : List Char} {l q : Loc} {n : Name}

/-- The lookup finds an entry that is no link. -/
theorem lookup_result (h : w.lookup path = some l) :
    ∃ v, w.tree.get l = some v ∧ ¬ v.kind.IsLink := by
  obtain ⟨hne, seen, hw⟩ := lookup_eq_some_iff.1 h
  obtain ⟨kind, hkind, hlink⟩ := hw.result (Lines.fields_ne_nil hne)
  rw [FileTree.kindAt_eq] at hkind
  obtain ⟨v, hv, rfl⟩ := Option.map_eq_some_iff.1 hkind
  exact ⟨v, hv, hlink⟩

theorem stat_eq_some_iff {v : Node} :
    w.stat path = some v ↔ ∃ l, w.lookup path = some l ∧ w.tree.get l = some v :=
  Option.bind_eq_some_iff

/-- `stat` succeeds exactly when the lookup does. -/
theorem stat_eq_none_iff : w.stat path = none ↔ w.lookup path = none := by
  unfold stat
  rw [Option.bind_eq_none_iff]
  constructor
  · intro h
    by_contra hne
    obtain ⟨l, hl⟩ := Option.ne_none_iff_exists'.1 hne
    obtain ⟨v, hv, -⟩ := lookup_result hl
    rw [h l hl] at hv
    cases hv
  · intro h l hl
    rw [h] at hl
    cases hl

theorem lookup_nil : w.lookup [] = none := rfl

/-- The real path is the path of what a path leads to. -/
theorem realpath_of_lookup (h : w.lookup path = some l) :
    w.realpath path = some (render l) := by
  rw [realpath, h, Option.map_some]

theorem realpath_of_missing (h : w.lookup path = none) : w.realpath path = none := by
  rw [realpath, h, Option.map_none]

/-- A path that leads somewhere still does when the tree has grown. -/
theorem lookup_grow (h : w.lookup path = some l) (hext : w.tree.Extends w'.tree)
    (hcwd : w'.cwd = w.cwd) : w'.lookup path = some l := by
  obtain ⟨hne, seen, hw⟩ := lookup_eq_some_iff.1 h
  refine lookup_eq_some_iff.2 ⟨hne, seen, ?_⟩
  rw [start, hcwd]
  exact hw.grow hext

/-- A path that names an entry still does when the tree has grown. -/
theorem entry_grow (h : w.entry path = some l) (hext : w.tree.Extends w'.tree)
    (hcwd : w'.cwd = w.cwd) : w'.entry path = some l := by
  rw [entry, start, hcwd]
  exact entryAt_grow h hext

/-- The entry of a path lies in a directory. -/
theorem isDir_of_entry (h : w.entry path = some l) : w.tree.IsDir l.dropLast := by
  obtain ⟨ws, n, q, seen, -, rfl, hdir, -⟩ := entryAt_eq_some_iff.1 h
  rwa [List.dropLast_concat]

/-! ## The last name of a path -/

/-- A directory, with a separator at its end. -/
theorem lookup_dir_iff : w.lookup (d ++ ['/']) = some q ↔ w.tree.IsDir q ∧ ∃ seen,
    Walks w.tree false maxLinks (w.start (d ++ ['/'])) (d.splitOn '/') seen q := by
  rw [lookup_eq_some_iff, Lines.fields_append_cons, List.splitOn_nil]
  constructor
  · rintro ⟨-, seen, hw⟩
    obtain ⟨m, k, k', s₁, s₂, h₁, h₂, hle, -⟩ := hw.split (by simp)
    obtain ⟨_, hrest⟩ := h₂.inv_stay (Or.inl rfl)
    obtain rfl := hrest.inv_nil
    exact ⟨h₂.isDir_start (by simp), s₁, h₁.mono_fuel (by omega)⟩
  · rintro ⟨hdir, seen, hw⟩
    exact ⟨by simp, hw.stay_end hdir 1⟩

theorem start_slash (f : List Char) : w.start (d ++ '/' :: f) = w.start (d ++ ['/']) := by
  rw [start, start, startAt, startAt]
  cases d <;> rfl

/-- A separator at the end is for directories only. -/
theorem lookup_append_slash (hne : path ≠ []) :
    w.lookup (path ++ ['/']) = some l ↔ w.lookup path = some l ∧ w.tree.IsDir l := by
  have hstart : w.start (path ++ ['/']) = w.start path := by
    obtain ⟨c, s, rfl⟩ := List.exists_cons_of_ne_nil hne
    rfl
  rw [lookup_dir_iff, lookup_eq_some_iff, hstart, Lines.fields_of_ne_nil hne]
  exact ⟨fun h => ⟨⟨hne, h.2⟩, h.1⟩, fun h => ⟨h.2, h.1.2⟩⟩

/-- The entry of a name in a directory. -/
theorem entry_concat (h : w.lookup (d ++ ['/']) = some q) :
    w.entry (d ++ '/' :: n.1) = some (q ++ [n]) := by
  obtain ⟨hdir, seen, hw⟩ := lookup_dir_iff.1 h
  rw [entry, Lines.fields_append_cons, List.splitOn_eq_singleton n.slash_notMem]
  exact entryAt_eq_some_iff.2 ⟨_, n, q, seen, rfl, rfl, hdir, by rwa [start_slash]⟩

/-- What leads somewhere leads there through a directory. -/
theorem lookup_dir_of_lookup {f : List Char} (h : w.lookup (d ++ '/' :: f) = some l) :
    ∃ q, w.lookup (d ++ ['/']) = some q := by
  obtain ⟨hne, seen, hw⟩ := lookup_eq_some_iff.1 h
  rw [Lines.fields_append_cons, start_slash] at hw
  have hf : f.splitOn '/' ≠ [] := List.splitOn_ne_nil '/' f
  obtain ⟨m, k, k', s₁, s₂, h₁, h₂, hle, -⟩ := hw.split hf
  exact ⟨m, lookup_dir_iff.2 ⟨h₂.isDir_start hf, s₁, h₁.mono_fuel (by omega)⟩⟩

/-- A path that leads somewhere and ends with a name has an entry. -/
theorem get_ne_none_of_entry (ws : List (List Char)) {x : Loc} (h : w.lookup path = some l)
    (he : w.entry path = some x) (hfields : Lines.fields '/' path = ws ++ [n.1]) :
    w.tree.get x ≠ none := by
  obtain ⟨hne, seen, hw⟩ := lookup_eq_some_iff.1 h
  rw [hfields] at hw
  obtain ⟨q, kind, hentry, hkind, -⟩ := entryAt_of_walks hw
  rw [entry, hfields, hentry] at he
  obtain rfl := Option.some.inj he
  rw [Ne, ← FileTree.kindAt_eq_none, hkind]
  exact Option.some_ne_none kind

/-- The entry of a name is in the working directory. -/
theorem entry_name (h : w.lookup n.1 = some l) : w.entry n.1 = some (w.cwd ++ [n]) := by
  obtain ⟨hne, seen, hw⟩ := lookup_eq_some_iff.1 h
  have hstart : w.start n.1 = w.cwd := by
    rw [start, startAt, if_neg]
    intro hhead
    exact n.slash_notMem (List.mem_of_head? hhead)
  have hfields : Lines.fields '/' n.1 = [] ++ [n.1] := by
    rw [Lines.fields_of_ne_nil n.ne_nil, List.splitOn_eq_singleton n.slash_notMem]
    rfl
  have hdir : w.tree.IsDir w.cwd := by
    rw [← hstart]
    exact hw.isDir_start (Lines.fields_ne_nil hne)
  rw [entry, hfields, hstart]
  exact entryAt_eq_some_iff.2 ⟨[], n, w.cwd, _, rfl, rfl, hdir, .done maxLinks w.cwd⟩

/-- A path that leads nowhere, in a directory that is there, ends with a name,
and there is nothing or a link at that name. -/
theorem name_of_lookup_eq_none {f : List Char} (hf : '/' ∉ f)
    (hdir : w.lookup (d ++ ['/']) = some q) (hnone : w.lookup (d ++ '/' :: f) = none) :
    ∃ n : Name, n.1 = f ∧ w.entry (d ++ '/' :: f) = some (q ++ [n]) ∧
      ∀ kind, w.tree.kindAt (q ++ [n]) = some kind → kind.IsLink := by
  obtain ⟨hisDir, seen, hw⟩ := lookup_dir_iff.1 hdir
  have hnot : ∀ seen l, ¬ Walks w.tree false maxLinks (w.start (d ++ ['/']))
      (d.splitOn '/' ++ [f]) seen l := by
    intro seen l hwalk
    have : w.lookup (d ++ '/' :: f) = some l := by
      refine lookup_eq_some_iff.2 ⟨by simp, seen, ?_⟩
      rwa [Lines.fields_append_cons, List.splitOn_eq_singleton hf, start_slash]
    rw [hnone] at this
    cases this
  have hstay : ∀ c, c = [] ∨ c = ['.'] → f ≠ c := by
    rintro c hc rfl
    exact hnot _ _ (hw.append (.stay hisDir hc (.done 0 q)))
  have hup : f ≠ ['.', '.'] := by
    rintro rfl
    exact hnot _ _ (hw.append (.up hisDir (.done 0 _)))
  obtain ⟨n, rfl⟩ : ∃ n : Name, n.1 = f :=
    ⟨⟨f, hstay [] (Or.inl rfl), hstay ['.'] (Or.inr rfl), hup, hf⟩, rfl⟩
  refine ⟨n, rfl, entry_concat hdir, fun kind hkind => ?_⟩
  by_contra hlink
  obtain ⟨seen', hw'⟩ := hw.of_name hisDir hkind hlink
  exact hnot _ _ hw'

/-- What is found when a link at the end is not followed. -/
theorem lookupEntry_of_lookup (h : w.lookup path = some l) :
    ∃ e v, w.lookupEntry path = some e ∧ w.tree.get e = some v ∧
      (¬ v.kind.IsLink → e = l) := by
  obtain ⟨v, hv, -⟩ := lookup_result h
  unfold lookupEntry
  cases hn : lastName (Lines.fields '/' path) with
  | none => exact ⟨l, v, h, hv, fun _ => rfl⟩
  | some n =>
    obtain ⟨hne, seen, hw⟩ := lookup_eq_some_iff.1 h
    obtain ⟨ws, hws⟩ := lastName_eq_some_iff.1 hn
    rw [hws] at hw
    obtain ⟨q, kind, hentry, hkind, hlink⟩ := entryAt_of_walks hw
    rw [← hws] at hentry
    rw [FileTree.kindAt_eq] at hkind
    obtain ⟨u, hu, rfl⟩ := Option.map_eq_some_iff.1 hkind
    exact ⟨q ++ [n], u, hentry, hu, fun hnot => (hlink hnot).symm⟩

/-- A path that leads to its own entry, which is no directory, ends with the
name of that. -/
theorem lastName_of_file (h : w.lookup path = some l) (he : w.lookupEntry path = some l)
    (hfile : ¬ w.tree.IsDir l) :
    ∃ ws q n, Lines.fields '/' path = ws ++ [n.1] ∧ l = q ++ [n] := by
  unfold lookupEntry at he
  obtain ⟨hne, seen, hw⟩ := lookup_eq_some_iff.1 h
  obtain ⟨cs, c, hcs⟩ :=
    (List.eq_nil_or_concat' (Lines.fields '/' path)).resolve_left (Lines.fields_ne_nil hne)
  have hc : IsName c := by
    by_contra hc
    rw [hcs] at hw
    exact hfile (hw.isDir_end hc)
  have hlast : lastName (Lines.fields '/' path) = some ⟨c, hc⟩ := by
    rw [hcs, lastName_concat]
    exact Name.ofText_val ⟨c, hc⟩
  rw [if_pos (by simp [hlast])] at he
  obtain ⟨ws, n, q, -, hws, rfl, -, -⟩ := entryAt_eq_some_iff.1 he
  exact ⟨ws, q, n, hws, rfl⟩

theorem lookupEntry_grow (h : w.lookupEntry path = some l) (hext : w.tree.Extends w'.tree)
    (hcwd : w'.cwd = w.cwd) : w'.lookupEntry path = some l := by
  unfold lookupEntry at h ⊢
  by_cases hname : (lastName (Lines.fields '/' path)).isSome = true
  · rw [if_pos hname] at h ⊢
    exact entry_grow h hext hcwd
  · rw [if_neg hname] at h ⊢
    exact lookup_grow h hext hcwd

/-- When the entry of a path is gone and nothing is new, `lstat` fails. -/
theorem lstat_eq_none_of_gone (h : w.lookupEntry path = some l) (hgone : w'.tree.get l = none)
    (hext : w'.tree.Extends w.tree) (hcwd : w'.cwd = w.cwd) : w'.lstat path = none := by
  rw [lstat, Option.bind_eq_none_iff]
  intro e he
  have := lookupEntry_grow he hext hcwd.symm
  rw [h] at this
  rw [← Option.some.inj this]
  exact hgone

/-! ## Absolute paths -/

/-- The fields of an absolute path. -/
theorem splitOn_flatMap (l : Loc) :
    (l.flatMap fun n => '/' :: n.1).splitOn '/' = [] :: l.map Subtype.val := by
  induction l using List.reverseRecOn with
  | nil => rfl
  | append_singleton l n ih =>
    rw [List.flatMap_append, List.flatMap_singleton, List.splitOn_append_cons_self, ih,
      List.splitOn_eq_singleton n.slash_notMem, List.map_append]
    rfl

theorem head?_render (l : Loc) : (render l).head? = some '/' := by
  unfold render
  split
  · rfl
  · rename_i h
    obtain ⟨n, l, rfl⟩ := List.exists_cons_of_ne_nil h
    rfl

theorem render_ne_nil (l : Loc) : render l ≠ [] := by
  intro h
  have := head?_render l
  rw [h] at this
  cases this

theorem start_render (l : Loc) : w.start (render l) = [] := by
  rw [start, startAt, if_pos (head?_render l)]

/-- The fields of the path of an entry that is no link lead to it, without any
link. -/
theorem walks_render {t : FileTree} {miss : Bool} {kind : Kind} (fuel : Nat)
    (hkind : t.kindAt l = some kind) (hlink : ¬ kind.IsLink) :
    ∃ seen, Walks t miss fuel [] ((render l).splitOn '/') seen l := by
  have hroot := t.isDir_root
  rcases eq_or_ne l [] with rfl | hl
  · exact ⟨_, .stay hroot (Or.inl rfl) (.stay hroot (Or.inl rfl) (.done fuel _))⟩
  · obtain ⟨seen, hw⟩ : ∃ seen, Walks t miss fuel [] (l.map Subtype.val) seen ([] ++ l) :=
      Walks.of_names hkind hlink
    have hrender : render l = l.flatMap fun n => '/' :: n.1 := if_neg hl
    rw [hrender, splitOn_flatMap]
    exact ⟨_, .stay hroot (Or.inl rfl) hw⟩

/-- The path of an entry that is no link leads to it. -/
theorem lookup_render {kind : Kind} (hkind : w.tree.kindAt l = some kind)
    (hlink : ¬ kind.IsLink) : w.lookup (render l) = some l := by
  refine lookup_eq_some_iff.2 ⟨render_ne_nil l, ?_⟩
  rw [start_render, Lines.fields_of_ne_nil (render_ne_nil l)]
  exact walks_render maxLinks hkind hlink

/-- The path of an entry names it. -/
theorem entry_render (hdir : w.tree.IsDir l.dropLast) (hl : l ≠ []) :
    w.entry (render l) = some l := by
  obtain ⟨q, n, rfl⟩ := (List.eq_nil_or_concat' l).resolve_left hl
  rw [List.dropLast_concat] at hdir
  obtain ⟨seen, hw⟩ : ∃ seen, Walks w.tree false maxLinks [] (q.map Subtype.val) seen
      ([] ++ q) := Walks.of_names hdir (by decide)
  have hrender : render (q ++ [n]) = (q ++ [n]).flatMap fun n => '/' :: n.1 := if_neg hl
  rw [entry, start_render, hrender, Lines.fields_of_ne_nil (by simp), splitOn_flatMap,
    List.map_append]
  exact entryAt_eq_some_iff.2 ⟨[] :: q.map Subtype.val, n, q, _, rfl, rfl, hdir,
    .stay w.tree.isDir_root (Or.inl rfl) hw⟩

/-- The path of a directory, a separator and a name name the entry there. -/
theorem entry_render_concat (hdir : w.tree.IsDir q) :
    w.entry (render q ++ '/' :: n.1) = some (q ++ [n]) := by
  refine entry_concat (lookup_dir_iff.2 ⟨hdir, ?_⟩)
  obtain ⟨hne, seen, hw⟩ := lookup_eq_some_iff.1 (lookup_render hdir (by decide))
  rw [Lines.fields_of_ne_nil hne] at hw
  refine ⟨seen, ?_⟩
  have hstart : w.start (render q ++ ['/']) = w.start (render q) := by
    rw [start, startAt, start_render, List.head?_append, head?_render]
    rfl
  rwa [hstart]

/-! ## Relative paths in full -/

/-- A path behind the path of a location. -/
def under (c : Loc) (path : List Char) : List Char := render c ++ '/' :: path

theorem start_under (c : Loc) (path : List Char) : w.start (under c path) = [] := by
  rw [start, startAt, under, List.head?_append, head?_render]
  rfl

/-- The fields behind the path of a directory are read from the directory. -/
theorem walk_render_append {t : FileTree} {c : Loc} {miss : Bool} (fuel : Nat) (hdir : t.IsDir c)
    (ds : List (List Char)) (hds : miss = false ∨ ds ≠ []) :
    walk t miss fuel [] ((render c).splitOn '/' ++ ds) = walk t miss fuel c ds := by
  obtain ⟨s₀, hc⟩ : ∃ seen, Walks t false 0 [] ((render c).splitOn '/') seen c :=
    walks_render 0 hdir (by decide)
  refine Option.ext fun l => ?_
  rw [walk_eq_some_iff, walk_eq_some_iff]
  constructor
  · rintro ⟨seen, hw⟩
    rcases eq_or_ne ds [] with rfl | hds
    · obtain rfl := hds.resolve_right (not_not.2 rfl)
      rw [List.append_nil] at hw
      obtain ⟨rfl, -⟩ := hc.shrink (FileTree.Extends.refl t) hw
      exact ⟨[], .done fuel l⟩
    · obtain ⟨m, k, k', s₁, s₂, h₁, h₂, hle, -⟩ := hw.split hds
      obtain ⟨rfl, -⟩ := hc.shrink (FileTree.Extends.refl t) h₁
      exact ⟨s₂, h₂.mono_fuel (by omega)⟩
  · rintro ⟨seen, hw⟩
    refine ⟨_, (hc.append hw).mono_fuel (by omega)⟩

section Under

variable (hdir : w.tree.IsDir w.cwd) (hpath : path.head? ≠ some '/')

include hdir hpath

theorem lookup_under (hne : path ≠ []) : w.lookup (under w.cwd path) = w.lookup path := by
  rw [lookup, lookup, if_neg (by simp [under]), if_neg hne, start_under, under,
    Lines.fields_append_cons, walk_render_append maxLinks hdir _ (Or.inl rfl), start, startAt,
    if_neg hpath, Lines.fields_of_ne_nil hne]

/-- Fields that are read from the working directory name the same entry behind
its path. -/
theorem entryAt_under {ds : List (List Char)} (hds : ds ≠ []) :
    entryAt w.tree maxLinks (w.start (under w.cwd path)) ((render w.cwd).splitOn '/' ++ ds)
      = entryAt w.tree maxLinks (w.start path) ds := by
  have hlast : lastName ((render w.cwd).splitOn '/' ++ ds) = lastName ds := by
    rw [lastName, lastName, List.getLast?_append_of_ne_nil _ hds]
  have hwalk : walk w.tree false maxLinks (w.start (under w.cwd path))
      ((render w.cwd).splitOn '/' ++ ds).dropLast
        = walk w.tree false maxLinks (w.start path) ds.dropLast := by
    rw [List.dropLast_append_of_ne_nil hds, start_under,
      walk_render_append maxLinks hdir _ (Or.inl rfl), start, startAt, if_neg hpath]
  rw [entryAt, entryAt, hlast, hwalk]

theorem entry_under (hne : path ≠ []) : w.entry (under w.cwd path) = w.entry path := by
  rw [entry, entry, Lines.fields_of_ne_nil hne, ← entryAt_under hdir hpath
    (List.splitOn_ne_nil '/' path), under, Lines.fields_append_cons]

theorem target_under (hne : path ≠ []) : w.target (under w.cwd path) = w.target path := by
  -- The first field is a name or dots, so the empty ones at the end are not all.
  have hfield : path.splitOn '/' ≠ [] := List.splitOn_ne_nil '/' path
  have htrim : (path.splitOn '/').rdropWhile List.isEmpty ≠ [] := by
    rw [Ne, List.rdropWhile_eq_nil_iff]
    intro hall
    obtain ⟨c, s, rfl⟩ := List.exists_cons_of_ne_nil hne
    have hc : c ≠ '/' := by simpa using hpath
    rw [List.splitOn_cons_eq_if_modifyHead, if_neg (by simpa using hc)] at hall
    obtain ⟨f, fs, hfs⟩ := List.exists_cons_of_ne_nil (List.splitOn_ne_nil '/' s)
    rw [hfs] at hall
    exact absurd (hall (c :: f) (by simp)) (by simp)
  have hrest : ((path.splitOn '/').reverse.dropWhile List.isEmpty).isEmpty = false := by
    rw [List.isEmpty_eq_false_iff]
    exact fun h => htrim (by rw [List.rdropWhile, h, List.reverse_nil])
  have happend : ((render w.cwd).splitOn '/' ++ path.splitOn '/').rdropWhile List.isEmpty
      = (render w.cwd).splitOn '/' ++ (path.splitOn '/').rdropWhile List.isEmpty := by
    rw [List.rdropWhile, List.reverse_append, List.dropWhile_append, hrest,
      if_neg Bool.false_ne_true, List.reverse_append, List.reverse_reverse, List.rdropWhile]
  rw [target, target, Lines.fields_of_ne_nil hne, ← entryAt_under hdir hpath htrim, ← happend,
    under, Lines.fields_append_cons]

end Under

/-! ## What a path needs -/

/-- The lookup of the path looks at the location, or ends there. -/
def Passes (w : World) (path : List Char) (l : Loc) : Prop :=
  path ≠ [] ∧ ∃ seen m,
    Walks w.tree false maxLinks (w.start path) (Lines.fields '/' path) seen m ∧ (l ∈ seen ∨ l = m)

/-- The entries that the lookup of the path needs are in `w'` what they are in
`w`.  The entry that the last name of the path names may have been replaced by one
that is no link and of which `P` holds. -/
def Spares (w w' : World) (path : List Char) (P : Kind → Prop) : Prop :=
  w'.start path = w.start path ∧
    ((∀ l, w.Passes path l → w'.tree.kindAt l = w.tree.kindAt l) ∨
      ∃ cs n q seen kind, Lines.fields '/' path = cs ++ [n.1] ∧
        Walks w.tree false maxLinks (w.start path) cs seen q ∧
        (∀ l ∈ seen, w'.tree.kindAt l = w.tree.kindAt l) ∧
        w'.tree.kindAt (q ++ [n]) = some kind ∧ ¬ kind.IsLink ∧ P kind)

/-- A path leads to something as before when the entries that it needs are spared. -/
theorem stat_of_spares {P : Kind → Prop} {v : Node} (h : w.Spares w' path P)
    (hv : w.stat path = some v) (hP : P v.kind) :
    ∃ v', w'.stat path = some v' ∧ P v'.kind := by
  obtain ⟨l, hl, hget⟩ := stat_eq_some_iff.1 hv
  obtain ⟨hne, seen, hw⟩ := lookup_eq_some_iff.1 hl
  obtain ⟨hstart, hkept | ⟨cs, n, q, seen', kind, hcs, hq, hkept, hkind, hlink, hPkind⟩⟩ := h
  · have hw' : Walks w'.tree false maxLinks (w'.start path) (Lines.fields '/' path) seen l := by
      rw [hstart]
      exact hw.frame fun x hx => hkept x ⟨hne, seen, l, hw, Or.inl hx⟩
    have hkind := hkept l ⟨hne, seen, l, hw, Or.inr rfl⟩
    rw [FileTree.kindAt_eq, FileTree.kindAt_eq, hget, Option.map_some] at hkind
    obtain ⟨v', hv', hsame⟩ := Option.map_eq_some_iff.1 hkind
    exact ⟨v', stat_eq_some_iff.2 ⟨l, lookup_eq_some_iff.2 ⟨hne, seen, hw'⟩, hv'⟩, hsame ▸ hP⟩
  · have hne' : w'.tree.get (q ++ [n]) ≠ none := by
      rw [Ne, ← FileTree.kindAt_eq_none, hkind]
      exact Option.some_ne_none kind
    have hdir : w'.tree.IsDir q := FileTree.isDir_above (List.cons_ne_nil n []) hne'
    obtain ⟨seen₁, hw'⟩ := (hq.frame hkept).of_name hdir hkind hlink
    rw [← hcs, ← hstart] at hw'
    rw [FileTree.kindAt_eq] at hkind
    obtain ⟨v', hv', rfl⟩ := Option.map_eq_some_iff.1 hkind
    exact ⟨v', stat_eq_some_iff.2 ⟨_, lookup_eq_some_iff.2 ⟨hne, seen₁, hw'⟩, hv'⟩, hPkind⟩

/-! ## Names of a file -/

/-- The path leads to the location, however many links are on the way. -/
def Names (w : World) (path : List Char) (l : Loc) : Prop :=
  path ≠ [] ∧ ∃ fuel seen,
    Walks w.tree false fuel (w.start path) (Lines.fields '/' path) seen l

/-- The path leads to the location when there is something, and would otherwise. -/
def WouldName (w : World) (path : List Char) (l : Loc) : Prop :=
  path ≠ [] ∧ ∃ fuel seen,
    Walks w.tree true fuel (w.start path) (Lines.fields '/' path) seen l

theorem names_of_lookup (h : w.lookup path = some l) : w.Names path l := by
  obtain ⟨hne, seen, hw⟩ := lookup_eq_some_iff.1 h
  exact ⟨hne, maxLinks, seen, hw⟩

/-- A separator at the end of a path names nothing else. -/
theorem Names.of_append_slash (h : w.Names (path ++ ['/']) l) (hne : path ≠ []) :
    w.Names path l := by
  obtain ⟨-, fuel, seen, hw⟩ := h
  rw [Lines.fields_append_cons, List.splitOn_nil] at hw
  obtain ⟨seen', hw'⟩ := hw.of_stay_end (k := 1)
  refine ⟨hne, fuel, seen', ?_⟩
  rw [Lines.fields_of_ne_nil hne]
  obtain ⟨c, t, rfl⟩ := List.exists_cons_of_ne_nil hne
  exact hw'

/-- What the path of a directory with a name leads to is what every path of
that entry leads to. -/
theorem names_of_render_concat (hentry : w.entry path = some (q ++ [n]))
    (h : w.lookup (render q ++ '/' :: n.1) = some l) : w.Names path l := by
  obtain ⟨ws, n', q', seen, hcs, heq, hdir, hw⟩ := entryAt_eq_some_iff.1 hentry
  obtain ⟨rfl, hn⟩ := List.append_inj' heq rfl
  obtain rfl : n = n' := List.singleton_inj.1 hn
  obtain ⟨-, seen', hw'⟩ := lookup_eq_some_iff.1 h
  rw [Lines.fields_append_cons, List.splitOn_eq_singleton n.slash_notMem] at hw'
  obtain ⟨m, k, k', s₁, s₂, h₁, h₂, hle, -⟩ := hw'.split (by simp)
  -- The path of the directory leads to it, so the last name starts there.
  have hq : w.lookup (render q ++ ['/']) = some m := by
    refine lookup_dir_iff.2 ⟨h₂.isDir_start (by simp), s₁, ?_⟩
    rw [← start_slash]
    exact h₁.mono_fuel (by omega)
  rw [lookup_append_slash (render_ne_nil q), lookup_render hdir (by decide),
    Option.some.injEq] at hq
  obtain rfl := hq.1
  refine ⟨?_, maxLinks + k', seen ++ s₂, ?_⟩
  · rintro rfl
    simp at hcs
  · rw [hcs]
    exact hw.append h₂

/-- The text of a link, read in the directory of the entry of a path, leads to
the location, and with the way to that directory and the link itself there are
not too many links. -/
def Reads (w : World) (path text : List Char) (l : Loc) : Prop :=
  ∃ (ws : List (List Char)) (n : Name) (q : Loc) (j k : Nat),
    Lines.fields '/' path = ws ++ [n.1] ∧ j + k < maxLinks ∧
      walk w.tree false j (w.start path) ws = some q ∧
      walk w.tree false k (startAt q text) (Lines.fields '/' text) = some l

/-- A path whose entry is a new link leads to what its text reads as. -/
theorem lookup_eq_some_iff_reads {text : List Char} {e : Loc} (hentry : w.entry path = some e)
    (hext : w.tree.Extends w'.tree) (hcwd : w'.cwd = w.cwd)
    (hlink : w'.tree.kindAt e = some (.symlink text)) (htext : text ≠ [])
    (hsame : ∀ x, x ≠ e → w'.tree.get x = w.tree.get x) :
    w'.lookup path = some l ↔ w.Reads path text l := by
  obtain ⟨ws, n, q, seen, hfields, rfl, hdir, hw⟩ := entryAt_eq_some_iff.1 hentry
  have hstart : w'.start path = w.start path := by rw [start, start, hcwd]
  rw [lookup_eq_some_iff, hstart, hfields]
  constructor
  · rintro ⟨-, seen', hw'⟩
    obtain ⟨m, j, k, s₁, s₂, h₁, h₂, hle, -⟩ := hw'.split (by simp)
    obtain ⟨rfl, s, hs⟩ := hw.shrink hext h₁
    rcases h₂.inv_name with ⟨hmiss, -⟩ | ⟨kind, _, hkind, hnot, -⟩ |
      ⟨text', k, s', hkind, rfl, hrest⟩
    · cases hmiss
    · rw [hlink] at hkind
      exact absurd ⟨text, (Option.some.inj hkind).symm⟩ hnot
    · rw [hlink] at hkind
      obtain rfl := Kind.symlink.inj (Option.some.inj hkind)
      rw [List.append_nil] at hrest
      have hkinds : ∀ x, x ≠ m ++ [n] → w.tree.kindAt x = w'.tree.kindAt x := by
        intro x hx
        rw [FileTree.kindAt_eq, FileTree.kindAt_eq, hsame x hx]
      obtain ⟨s'', hs''⟩ := hrest.of_own_link hlink hkinds
      exact ⟨ws, n, m, j, k, hfields, by omega, walk_eq_some_iff.2 ⟨s, hs⟩,
        walk_eq_some_iff.2 ⟨s'', hs''⟩⟩
  · rintro ⟨ws', n', q', j, k, hfields', hlt, hq', hl⟩
    obtain ⟨rfl, hn⟩ := List.append_inj' (hfields.symm.trans hfields') rfl
    obtain rfl : n = n' := Subtype.ext (List.singleton_inj.1 hn)
    obtain ⟨s, hs⟩ := walk_eq_some_iff.1 hq'
    obtain ⟨s', hs'⟩ := walk_eq_some_iff.1 hl
    obtain ⟨rfl, -⟩ := hw.shrink (FileTree.Extends.refl w.tree) hs
    have hrest : Walks w'.tree false k (startAt q' text) (Lines.fields '/' text ++ []) s' l := by
      rw [List.append_nil]
      exact hs'.grow hext
    have hfollow := (hs.grow hext).append (.link (hext.isDir hdir) hlink htext hrest)
    refine ⟨?_, _, hfollow.mono_fuel (by omega)⟩
    rintro rfl
    simp at hfields

/-- Separators at the end of a path do not change where it starts. -/
theorem target_of_entry (h : w.entry path = some l) : w.target path = some l := by
  obtain ⟨ws, n, q, seen, hcs, rfl, hdir, hw⟩ := entryAt_eq_some_iff.1 h
  have htrim : (ws ++ [n.1]).rdropWhile List.isEmpty = ws ++ [n.1] := by
    rw [List.rdropWhile_concat, if_neg]
    simpa using n.ne_nil
  rw [target, hcs, htrim]
  exact entryAt_eq_some_iff.2 ⟨ws, n, q, seen, rfl, rfl, hdir, hw⟩

/-- The fields of a path that has a target: those of the target, and empty ones
after them. -/
theorem fields_of_target (h : w.target path = some l) : ∃ ws n q seen k,
    Lines.fields '/' path = ws ++ [n.1] ++ List.replicate k [] ∧ l = q ++ [n] ∧
      w.tree.IsDir q ∧ Walks w.tree false maxLinks (w.start path) ws seen q := by
  obtain ⟨ws, n, q, seen, hcs, rfl, hq, hw⟩ := entryAt_eq_some_iff.1 h
  have hempty : ∀ c ∈ (Lines.fields '/' path).rtakeWhile List.isEmpty, c = [] := by
    intro c hc
    simpa using List.mem_rtakeWhile_imp hc
  refine ⟨ws, n, q, seen, ((Lines.fields '/' path).rtakeWhile List.isEmpty).length, ?_, rfl,
    hq, hw⟩
  rw [← hcs, ← List.eq_replicate_of_mem hempty, List.rdropWhile_append_rtakeWhile]

/-- A directory at the target of a path is where the path leads. -/
theorem lookup_of_target (h : w.target path = some l) (hdir : w.tree.IsDir l) :
    w.lookup path = some l := by
  obtain ⟨ws, n, q, seen, k, hcs, rfl, hq, hw⟩ := fields_of_target h
  obtain ⟨seen', hw'⟩ := hw.of_name hq hdir (by decide)
  refine lookup_eq_some_iff.2 ⟨?_, ?_⟩
  · rintro rfl
    simp at hcs
  · rw [hcs]
    exact hw'.stay_end hdir k

/-- Separators at the end of a path do not change its target. -/
theorem target_append_slash (hne : path ≠ []) : w.target (path ++ ['/']) = w.target path := by
  have hstart : w.start (path ++ ['/']) = w.start path := by
    obtain ⟨c, s, rfl⟩ := List.exists_cons_of_ne_nil hne
    rfl
  rw [target, target, hstart, Lines.fields_append_cons, List.splitOn_nil,
    Lines.fields_of_ne_nil hne, List.rdropWhile_concat, if_pos (by rfl)]

/-- The target of a path that ends with a field that is not empty has that
field as its name. -/
theorem name_of_target {f : List Char} (hf : '/' ∉ f) (hne : f ≠ [])
    (h : w.target (d ++ '/' :: f) = some l) : ∃ q n, l = q ++ [n] ∧ n.1 = f := by
  rw [target, Lines.fields_append_cons, List.splitOn_eq_singleton hf,
    List.rdropWhile_concat, if_neg (by simpa using hne)] at h
  obtain ⟨ws, n, q, seen, hcs, rfl, -, -⟩ := entryAt_eq_some_iff.1 h
  exact ⟨q, n, rfl, by simpa using (List.append_inj' hcs rfl).2.symm⟩

/-- Where a path leads that has a target: there, unless that is a link. -/
theorem lookup_target (hq : w.lookup path = some q) (hl : w.target path = some l) :
    ∃ kind, w.tree.kindAt l = some kind ∧ (¬ kind.IsLink → q = l) := by
  obtain ⟨ws, n, m, seen, k, hcs, rfl, hm, hw⟩ := fields_of_target hl
  obtain ⟨-, seen', hwalk⟩ := lookup_eq_some_iff.1 hq
  rw [hcs] at hwalk
  obtain ⟨seen'', hname⟩ := hwalk.of_stay_end
  obtain ⟨m', kind, hentry, hkind, hlink⟩ := entryAt_of_walks hname
  have hentry' : entryAt w.tree maxLinks (w.start path) (ws ++ [n.1]) = some (m ++ [n]) :=
    entryAt_eq_some_iff.2 ⟨ws, n, m, seen, rfl, rfl, hm, hw⟩
  rw [hentry', Option.some.injEq] at hentry
  rw [hentry]
  exact ⟨kind, hkind, hlink⟩

/-- When the entry of a path was moved away, `lstat` fails. -/
theorem lstat_eq_none_of_relocate {s t : Loc} {source : Kind} {hmove : w.tree.CanMove s t}
    (h : w.lookupEntry path = some s) (hsource : w.tree.kindAt s = some source)
    (hlink : ¬ source.IsLink) (hreplace : w.tree.replaceable source t = true)
    (htree : w'.tree = w.tree.relocate s t hmove) (hcwd : w'.cwd = w.cwd) :
    w'.lstat path = none := by
  have hgone : w'.tree.get s = none := by
    rw [htree]
    exact FileTree.get_relocate_self hmove
  -- A lookup that is made again stays on the old way or comes to no directory.
  have hagain : ∀ {cs seen seen' q m}, Walks w.tree false maxLinks (w.start path) cs seen q →
      Walks w'.tree false maxLinks (w'.start path) cs seen' m → m = q ∨ ¬ w'.tree.IsDir m := by
    intro cs seen seen' q m h₁ h₂
    rw [start, hcwd] at h₂
    refine h₁.mono_or_blocked (fun x hx => ?_) h₂
    rw [htree]
    exact FileTree.kindAt_relocate_or_blocks hmove hsource hlink hreplace
      (h₁.kindAt_ne_none x hx)
  rw [lstat, Option.bind_eq_none_iff]
  intro e he
  unfold lookupEntry at h he
  cases hname : lastName (Lines.fields '/' path) with
  | some n =>
    rw [if_pos (by simp [hname])] at h he
    obtain ⟨ws, n, q, seen, hcs, rfl, -, hw⟩ := entryAt_eq_some_iff.1 h
    obtain ⟨ws', n', q', seen', hcs', rfl, hdir', hw'⟩ := entryAt_eq_some_iff.1 he
    obtain ⟨rfl, hn⟩ := List.append_inj' (hcs.symm.trans hcs') rfl
    obtain rfl : n = n' := Subtype.ext (by simpa using hn)
    rcases hagain hw hw' with rfl | hnot
    · exact hgone
    · exact absurd hdir' hnot
  | none =>
    rw [if_neg (by simp [hname])] at h he
    obtain ⟨hne, seen, hw⟩ := lookup_eq_some_iff.1 h
    obtain ⟨-, seen', hw'⟩ := lookup_eq_some_iff.1 he
    obtain ⟨cs, c, hcs⟩ :=
      (List.eq_nil_or_concat' (Lines.fields '/' path)).resolve_left (Lines.fields_ne_nil hne)
    have hc : ¬ IsName c := by
      rwa [hcs, lastName_concat, Name.ofText_eq_none] at hname
    have hdir : w'.tree.IsDir e := by
      rw [hcs] at hw'
      exact hw'.isDir_end hc
    rcases hagain hw hw' with rfl | hnot
    · exact hgone
    · exact absurd hdir hnot

end World

/-! ## The calls that change the tree -/

namespace System

open World

variable {sys : System} {w w' : World} {path a b : List Char} {l : Loc} {mode : Nat}

@[simp] theorem changed_tree (w : World) (t : FileTree) : (changed w t).tree = t := rfl

@[simp] theorem changed_cwd (w : World) (t : FileTree) : (changed w t).cwd = w.cwd := rfl

theorem change_eq_some_iff {t : Option FileTree} : sys.change w l t = some w' ↔
    sys.allows w.clock l = true ∧ ∃ t', t = some t' ∧ w' = changed w t' := by
  unfold change
  split
  · rename_i h
    rw [Option.map_eq_some_iff]
    constructor
    · rintro ⟨t', ht, rfl⟩
      exact ⟨h, t', ht, rfl⟩
    · rintro ⟨-, t', ht, rfl⟩
      exact ⟨t', ht, rfl⟩
  · rename_i h
    simp [h]

/-- `mkdir` adds a directory, and the path leads to it afterwards. -/
theorem mkdir_spec (h : sys.mkdir w path mode = some w') :
    ∃ l, w.target path = some l ∧ w.tree.get l = none ∧
      w.tree.Extends w'.tree ∧ w'.cwd = w.cwd ∧ w'.tree.IsDir l ∧
      (∀ x, x ≠ l → w'.tree.get x = w.tree.get x) ∧ w'.lookup path = some l := by
  obtain ⟨l, hl, h⟩ := Option.bind_eq_some_iff.1 h
  obtain ⟨-, t', hadd, rfl⟩ := change_eq_some_iff.1 h
  obtain ⟨-, -, hnone, hext, hget⟩ := FileTree.add_spec hadd
  have hdir : t'.IsDir l := by
    rw [FileTree.IsDir, FileTree.kindAt_eq, hget, if_pos rfl]
    rfl
  refine ⟨l, hl, hnone, hext, rfl, hdir, fun x hx => ?_, ?_⟩
  · rw [changed_tree, hget, if_neg hx]
  · exact lookup_of_target (entryAt_grow hl hext) hdir

/-- `mkdir` succeeds when nothing is at the target and the system grants it,
whatever the mode is. -/
theorem mkdir_isSome_iff : (sys.mkdir w path mode).isSome = true ↔
    ∃ l, w.target path = some l ∧ w.tree.get l = none ∧ sys.allows w.clock l = true := by
  constructor
  · intro h
    obtain ⟨w', hmkdir⟩ := Option.isSome_iff_exists.1 h
    obtain ⟨l, hl, hmkdir⟩ := Option.bind_eq_some_iff.1 hmkdir
    obtain ⟨hallows, t', hadd, -⟩ := change_eq_some_iff.1 hmkdir
    exact ⟨l, hl, (FileTree.add_spec hadd).2.2.1, hallows⟩
  · rintro ⟨l, hl, hnone, hallows⟩
    obtain ⟨ws, n, q, seen, -, rfl, hdir, -⟩ := entryAt_eq_some_iff.1 hl
    obtain ⟨t', hadd⟩ := FileTree.add_of_free (t := w.tree)
      (v := ⟨.directory, sys.masked mode, [], 0⟩) (List.concat_ne_nil n q)
      (by rwa [List.dropLast_concat]) hnone
    rw [mkdir, hl, Option.bind_eq_bind, Option.bind_some, change, if_pos hallows, hadd]
    rfl

/-- The new directory has the permission bits that the mask leaves. -/
theorem mkdir_mode (h : sys.mkdir w path mode = some w') (hl : w.target path = some l) :
    (w'.tree.get l).map Node.mode = some (sys.masked mode) := by
  obtain ⟨l', hl', h⟩ := Option.bind_eq_some_iff.1 h
  obtain rfl := Option.some.inj (hl.symm.trans hl')
  obtain ⟨-, t', hadd, rfl⟩ := change_eq_some_iff.1 h
  rw [changed_tree, (FileTree.add_spec hadd).2.2.2.2, if_pos rfl]
  rfl

/-- Two modes of which the mask leaves the same are the same to `mkdir`. -/
theorem mkdir_congr {mode' : Nat} (h : sys.masked mode' = sys.masked mode) :
    sys.mkdir w path mode' = sys.mkdir w path mode := by
  rw [mkdir, mkdir, h]

section Under

variable (sys) (hdir : w.tree.IsDir w.cwd) (hpath : path.head? ≠ some '/') (hne : path ≠ [])

include hdir hpath hne

/-- `mkdir` of a relative path in full. -/
theorem mkdir_under (mode : Nat) :
    sys.mkdir w (under w.cwd path) mode = sys.mkdir w path mode := by
  rw [mkdir, mkdir, target_under hdir hpath hne]

/-- `open` of a relative path in full. -/
theorem creat_under (mode : Nat) :
    sys.creat w (under w.cwd path) mode = sys.creat w path mode := by
  rw [creat, creat, if_neg (by simp [under]), if_neg hne, start_under, under,
    Lines.fields_append_cons, walk_render_append maxLinks hdir _
      (Or.inr (List.splitOn_ne_nil '/' path)), start, startAt, if_neg hpath,
    Lines.fields_of_ne_nil hne]

/-- `mv` to a relative path in full. -/
theorem mv_under (a : List Char) : sys.mv w a (under w.cwd path) = sys.mv w a path := by
  have hlast : (under w.cwd path).getLast? = path.getLast? := by
    rw [under, List.getLast?_append_of_ne_nil _ (List.cons_ne_nil _ _),
      List.getLast?_cons_of_ne_nil hne]
  have htarget : ∀ s, mvTarget w s (under w.cwd path) = mvTarget w s path := by
    intro s
    rw [mvTarget, mvTarget, lookup_under hdir hpath hne, entry_under hdir hpath hne,
      target_under hdir hpath hne, hlast]
  simp only [mv, htarget]

end Under

/-- `creat` adds a regular file, or finds one that is no directory. -/
theorem creat_spec (h : sys.creat w path mode = some (l, w')) :
    w.tree.Extends w'.tree ∧ w'.cwd = w.cwd ∧ w'.lookup path = some l ∧ ¬ w'.tree.IsDir l ∧
      (w.lookup path = none → w'.tree.kindAt l = some .regular) := by
  unfold creat at h
  split at h
  · cases h
  · rename_i hne
    split at h
    · cases h
    · rename_i m hm
      obtain ⟨seen, hw⟩ := walk_eq_some_iff.1 hm
      have hfields := Lines.fields_ne_nil (d := '/') hne
      split at h
      · cases h
      · rename_i kind hnd hkind
        obtain ⟨rfl, rfl⟩ := Prod.mk.inj (Option.some.inj h)
        have hlookup : w.lookup path = some m := by
          refine lookup_eq_some_iff.2 ⟨hne, ?_⟩
          rcases hw.missing_cases with hw | ⟨hnone, -⟩
          · exact ⟨seen, hw⟩
          · rw [hkind] at hnone
            cases hnone
        refine ⟨FileTree.Extends.refl _, rfl, hlookup, ?_, fun hnone => ?_⟩
        · intro hdir
          rw [hdir] at hkind
          exact hnd (Option.some.inj hkind).symm
        · rw [hlookup] at hnone
          cases hnone
      · rename_i hkind
        obtain ⟨w₁, hchange, hpair⟩ := Option.map_eq_some_iff.1 h
        obtain ⟨rfl, rfl⟩ := Prod.mk.inj hpair
        obtain ⟨-, t', hadd, rfl⟩ := change_eq_some_iff.1 hchange
        obtain ⟨-, -, hnone, hext, hget⟩ := FileTree.add_spec hadd
        have hreg : t'.kindAt m = some .regular := by
          rw [FileTree.kindAt_eq, hget, if_pos rfl]
          rfl
        refine ⟨hext, rfl, lookup_eq_some_iff.2 ⟨hne, ?_⟩, ?_, fun _ => hreg⟩
        · rcases hw.missing_cases with hw | ⟨-, -, hgrow⟩
          · obtain ⟨kind, hk, -⟩ := hw.result hfields
            rw [hkind] at hk
            cases hk
          · exact ⟨seen, hgrow t' hext .regular hreg (by decide)⟩
        · intro hdir
          rw [FileTree.IsDir, changed_tree, hreg] at hdir
          cases hdir

/-- `creat` comes to the place where the path would lead, which is no directory.  What
was not there is granted, and is a regular file then. -/
theorem creat_opens (h : sys.creat w path mode = some (l, w')) :
    path ≠ [] ∧ walk w.tree true maxLinks (w.start path) (Lines.fields '/' path) = some l ∧
      ¬ w.tree.IsDir l ∧ (w.tree.kindAt l = none →
        sys.allows w.clock l = true ∧ w'.tree.kindAt l = some .regular) := by
  unfold creat at h
  split at h
  · cases h
  · rename_i hne
    split at h
    · cases h
    · rename_i m hm
      split at h
      · cases h
      · rename_i kind hnd hkind
        obtain ⟨rfl, rfl⟩ := Prod.mk.inj (Option.some.inj h)
        refine ⟨hne, hm, fun hdir => ?_, fun hnone => ?_⟩
        · rw [FileTree.IsDir, hkind] at hdir
          exact hnd (Option.some.inj hdir)
        · rw [hkind] at hnone
          cases hnone
      · rename_i hkind
        obtain ⟨w₁, hchange, hpair⟩ := Option.map_eq_some_iff.1 h
        obtain ⟨rfl, rfl⟩ := Prod.mk.inj hpair
        obtain ⟨hallows, t', hadd, rfl⟩ := change_eq_some_iff.1 hchange
        obtain ⟨-, -, -, -, hget⟩ := FileTree.add_spec hadd
        refine ⟨hne, hm, fun hdir => ?_, fun _ => ⟨hallows, ?_⟩⟩
        · rw [FileTree.IsDir, hkind] at hdir
          cases hdir
        · rw [changed_tree, FileTree.kindAt_eq, hget, if_pos rfl]
          rfl

/-- `symlink` adds a link with a text, and nothing else. -/
theorem symlink_spec {text : List Char} (h : sys.symlink w text path = some w') :
    w.tree.Extends w'.tree ∧ w'.cwd = w.cwd ∧ w'.clock = w.clock + 1 ∧ text ≠ [] ∧
      ∃ l, w.entry path = some l ∧ w.tree.get l = none ∧
        w'.tree.kindAt l = some (.symlink text) ∧
        ∀ x, x ≠ l → w'.tree.get x = w.tree.get x := by
  obtain ⟨l, hl, h⟩ := Option.bind_eq_some_iff.1 h
  split at h
  · cases h
  · rename_i htext
    obtain ⟨-, t', hadd, rfl⟩ := change_eq_some_iff.1 h
    obtain ⟨-, -, hnone, hext, hget⟩ := FileTree.add_spec hadd
    refine ⟨hext, rfl, rfl, htext, l, hl, hnone, ?_, fun x hx => ?_⟩
    · rw [changed_tree, FileTree.kindAt_eq, hget, if_pos rfl]
      rfl
    · rw [changed_tree, hget, if_neg hx]

/-- `chmod` keeps the kind of every entry. -/
theorem chmod_spec (h : sys.chmod w path mode = some w') :
    w'.cwd = w.cwd ∧ ∀ x, w'.tree.kindAt x = w.tree.kindAt x := by
  obtain ⟨l, -, h⟩ := Option.bind_eq_some_iff.1 h
  split at h
  · cases h
  · obtain ⟨-, t', ht, rfl⟩ := change_eq_some_iff.1 h
    obtain rfl := Option.some.inj ht
    refine ⟨rfl, fun x => ?_⟩
    rw [changed_tree, FileTree.kindAt_update]

/-- A removal that is granted removes an entry and what is below it. -/
theorem change_remove_spec (h : sys.change w l (w.tree.remove l) = some w') :
    l ≠ [] ∧ w'.cwd = w.cwd ∧
      ∀ x, w'.tree.get x = if l <+: x then none else w.tree.get x := by
  obtain ⟨-, t', hremove, rfl⟩ := change_eq_some_iff.1 h
  obtain ⟨hl, -, hget⟩ := FileTree.remove_spec hremove
  exact ⟨hl, rfl, hget⟩

theorem change_remove_isSome_iff (h : w.tree.get l ≠ none) :
    (sys.change w l (w.tree.remove l)).isSome = true ↔ l ≠ [] ∧ sys.allows w.clock l = true := by
  unfold change FileTree.remove
  by_cases hl : l = []
  · simp [hl]
  · rw [dif_pos ⟨hl, h⟩, and_iff_right hl]
    split
    · rename_i hallowed
      exact ⟨fun _ => hallowed, fun _ => rfl⟩
    · rename_i hrefused
      exact ⟨fun hsome => Bool.noConfusion hsome, fun hallowed => absurd hallowed hrefused⟩

/-- `mv` renames the entry of `a` to the target for `b`. -/
theorem mv_spec (h : sys.mv w a b = some w') :
    ∃ s d, w.entry a = some s ∧ mvTarget w s b = some d ∧
      ∃ (source : Kind) (hmove : w.tree.CanMove s d), w.tree.kindAt s = some source ∧
        w.tree.replaceable source d = true ∧ w'.cwd = w.cwd ∧
        w'.tree = w.tree.relocate s d hmove := by
  obtain ⟨s, hs, h⟩ := Option.bind_eq_some_iff.1 h
  obtain ⟨d, hd, h⟩ := Option.bind_eq_some_iff.1 h
  obtain ⟨-, t', hrename, rfl⟩ := change_eq_some_iff.1 h
  obtain ⟨source, hmove, hsource, hreplace, rfl⟩ := FileTree.rename_spec hrename
  exact ⟨s, d, hs, hd, source, hmove, hsource, hreplace, rfl, rfl⟩

/-- `mv` of the path of an entry that is there. -/
theorem mv_render_spec {s : Loc} {v : Node} (hv : w.tree.get s = some v)
    (h : sys.mv w (render s) b = some w') :
    ∃ d, ∃ hmove : w.tree.CanMove s d, mvTarget w s b = some d ∧
      w.tree.replaceable v.kind d = true ∧ w'.cwd = w.cwd ∧
      w'.tree = w.tree.relocate s d hmove := by
  obtain ⟨s', d, hs', hd, source, hmove, hsource, hreplace, hcwd, htree⟩ := mv_spec h
  have hs : s ≠ [] := by
    rintro rfl
    exact absurd hs' (by simp [show w.entry (render []) = none from rfl])
  have hdir : w.tree.IsDir s.dropLast := FileTree.isDir_dropLast_of_get hs (by simp [hv])
  rw [entry_render hdir hs] at hs'
  obtain rfl := Option.some.inj hs'
  rw [FileTree.kindAt_eq, hv, Option.map_some] at hsource
  rw [← Option.some.inj hsource] at hreplace
  exact ⟨d, hmove, hd, hreplace, hcwd, htree⟩

/-! ## The commands -/

theorem run_of_command {text : List Char} {c : Sh.Command} {r : Bool × World × List Char}
    (hread : Sh.readCommand text = some c) (hcommand : sys.command w c.argv = some r) :
    sys.run w text = r := by
  simp [run, hread, hcommand]

theorem command_ls (sys : System) (w : World) (a : List Char) : sys.command w [lsName, a]
    = some (match ls w a with
      | some names => (true, w, names.flatMap (· ++ ['\n']))
      | none => (false, w, [])) := by
  unfold command
  dsimp only
  rw [if_pos rfl]
  cases ls w a <;> rfl

/-- The path of a directory with a separator lists it. -/
theorem ls_render {q : Loc} (hdir : w.tree.IsDir q) : ls w (render q ++ ['/'])
    = some (((w.tree.children q).map Subtype.val).filter fun n => n.head? != some '.') := by
  have hlookup : w.lookup (render q ++ ['/']) = some q :=
    (lookup_append_slash (render_ne_nil q)).2 ⟨lookup_render hdir (by decide), hdir⟩
  simp [ls, hlookup, hdir]

end System

end Posix
