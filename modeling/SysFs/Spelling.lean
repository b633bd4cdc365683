import SysFs.Links
import SysFs.Move
import SysFs.Resolve

/-!
# Two spellings of a path

A relative path and the same path behind the path of the working directory
should be the same to the class.  The kernel sees no difference (`lookup_under`
and what follows from it), and the parts that `analyze` computes differ by the
working directory alone (`parts_under`).  There is one exception: a relative
path that is a name alone has the empty directory path, and the empty path leads
nowhere.

So the same directories are made for both (`makePath_under`), and
`getAbsolutePath` gives the same for both exactly when the path is there or has
a directory part (`getAbsolutePath_under_iff`).
-/

namespace SysFs

open Posix World

/-! ## The parts of the two spellings -/

namespace Path

/-- The first component of the full path of a relative path is no root. -/
theorem any_isRootPart_fields {r : Str} (hs : unify r = r) (hne : r ≠ [])
    (hrel : (ofStr r).isAbsolute = false) :
    (Lines.fields '/' (ofStr r).fullPath).head?.any isRootPart = false := by
  have hroute := Unified.routeOf_fullPath (u := ⟨r, hs⟩) hne
  have habs := Unified.isAbsolute_eq ⟨r, hs⟩
  rw [← hroute, isSome_root_routeOf] at habs
  exact habs.symm.trans hrel

/-- The directory path, the file name and the full path of a relative path. -/
inductive RelativeShape : Str → Str → Str → Prop
  /-- a file name alone -/
  | name (f : Str) (hf : '/' ∉ f) (hne : f ≠ []) : RelativeShape [] f f
  /-- a directory and a file name -/
  | split (d f : Str) (hf : '/' ∉ f) (hd : d ≠ []) (hhead : d.head? ≠ some '/') :
      RelativeShape (d ++ ['/']) f (d ++ '/' :: f)

theorem relativeShape {r : Str} (hs : unify r = r) (hne : r ≠ [])
    (hrel : (ofStr r).isAbsolute = false) :
    RelativeShape (ofStr r).directoryPath (ofStr r).fileName (ofStr r).fullPath := by
  have hfirst := any_isRootPart_fields hs hne hrel
  have hfull : (ofStr r).fullPath ≠ [] := Unified.fullPath_ne_nil (u := ⟨r, hs⟩) hne
  have hshape := shape r
  generalize (ofStr r).directoryPath = dir, (ofStr r).fileName = name,
    (ofStr r).fullPath = full at hshape hfirst hfull ⊢
  cases hshape with
  | empty => exact absurd rfl hfull
  | name f hf hne => exact .name _ hf hne
  | root c hc hroot =>
    rw [Lines.fields_append_cons, List.splitOn_eq_singleton hc, List.singleton_append,
      List.head?_cons, Option.any_some, hroot] at hfirst
    cases hfirst
  | split d f hf =>
    have hhead : ∀ e, d ≠ '/' :: e := by
      rintro e rfl
      rw [List.cons_append, Lines.fields_of_ne_nil (List.cons_ne_nil _ _),
        List.splitOn_cons_eq_if_modifyHead, if_pos (by simp)] at hfirst
      cases hfirst
    refine .split d _ hf ?_ ?_
    · rintro rfl
      rw [Lines.fields_append_cons, List.splitOn_nil] at hfirst
      cases hfirst
    · intro h
      obtain ⟨e, he⟩ := List.head?_eq_some_iff.1 h
      exact hhead e he

theorem RelativeShape.head?_full {dir name full : Str} (h : RelativeShape dir name full) :
    full ≠ [] ∧ full.head? ≠ some '/' := by
  cases h with
  | name f hf hne => exact ⟨hne, fun h => hf (List.mem_of_head? h)⟩
  | split d f hf hd hhead =>
    refine ⟨by simp, ?_⟩
    rwa [List.head?_append_of_ne_nil _ hd]

/-- The parts of a relative path behind the path of a location. -/
theorem parts_under {r : Str} (c : Loc) (hback : '\\' ∉ under c r) (hne : r ≠ [])
    (hrel : (ofStr r).isAbsolute = false) :
    (ofStr (under c r)).fullPath = under c (ofStr r).fullPath ∧
      (ofStr (under c r)).directoryPath = under c (ofStr r).directoryPath ∧
      (ofStr (under c r)).fileName = (ofStr r).fileName := by
  have hs : unify r = r :=
    unify_of_notMem fun h => hback (List.mem_append_right _ (List.mem_cons_of_mem _ h))
  have hunder : unify (under c r) = under c r := unify_of_notMem hback
  have hfull : (ofStr (under c r)).fullPath = under c (ofStr r).fullPath :=
    Unified.fullPath_append (v := ⟨r, hs⟩) (World.render c) hne hrel hunder
  have hslash : '/' ∈ World.render c := List.mem_of_head? (head?_render c)
  refine ⟨hfull, ?_⟩
  have hshape := shape (under c r)
  have hrelative := relativeShape hs hne hrel
  rw [hfull] at hshape
  generalize (ofStr (under c r)).directoryPath = dir, (ofStr (under c r)).fileName = name
    at hshape ⊢
  generalize (ofStr r).directoryPath = d, (ofStr r).fileName = f, (ofStr r).fullPath = full
    at hrelative hshape ⊢
  -- The last separator of the full path is the one of the relative path, or the
  -- one behind the location.
  obtain ⟨e, hfile, hnotnil, hdir, hwhole⟩ : ∃ e, '/' ∉ f ∧ ('/' ∈ e ∨ f ≠ []) ∧
      under c d = e ++ ['/'] ∧ under c full = e ++ '/' :: f := by
    cases hrelative with
    | name f hf hne => exact ⟨World.render c, hf, Or.inr hne, rfl, rfl⟩
    | split d f hf hd hhead =>
      exact ⟨under c d, hf, Or.inl (by simp [under]), by simp [under], by simp [under]⟩
  rw [hwhole] at hshape
  rw [hdir]
  generalize hw : e ++ '/' :: f = whole at hshape
  cases hshape with
  | empty => exact absurd hw (by simp)
  | name g hg => exact absurd (hw ▸ by simp) hg
  | root g hg =>
    obtain ⟨rfl, rfl⟩ := eq_of_append_slash hw hfile List.not_mem_nil
    exact absurd rfl (hnotnil.resolve_left hg)
  | split d' f' hf' =>
    obtain ⟨rfl, rfl⟩ := eq_of_append_slash hw hfile hf'
    exact ⟨rfl, rfl⟩

end Path

namespace FsObject

variable {sys : System} {w w' : World} {r x : Str} {mode : Nat}

/-! ## The directories of the two spellings -/

/-- The beginnings of a path behind another one: those within the first, and the
first with those of the second. -/
theorem cuts_append {a t : Str} (ha : a ≠ []) (hhead : t.head? ≠ some '/') :
    ∃ ds, cuts (a ++ t) = ds ++ (cuts t).map (a ++ ·) ∧
      ∀ d ∈ ds, d ≠ [] ∧ ∃ f, a = d ++ '/' :: f := by
  have hlength : 0 < a.length := List.length_pos_iff.2 ha
  have hbehind : ((List.range t.length).map (a.length + ·)).filter
        (fun p => 1 ≤ p ∧ (a ++ t)[p]? = some '/')
      = ((List.range t.length).filter fun p => 1 ≤ p ∧ t[p]? = some '/').map (a.length + ·) := by
    rw [List.filter_map]
    congr 1
    refine List.filter_congr fun p _ => ?_
    have hget : (a ++ t)[a.length + p]? = t[p]? := by
      rw [List.getElem?_append_right (Nat.le_add_right _ _), Nat.add_sub_cancel_left]
    have hzero : p = 0 → t[p]? ≠ some '/' := by
      rintro rfl
      rwa [← List.head?_eq_getElem?]
    simp only [Function.comp_apply, hget, decide_eq_decide]
    constructor
    · rintro ⟨-, h⟩
      exact ⟨Nat.one_le_iff_ne_zero.2 fun h0 => hzero h0 h, h⟩
    · rintro ⟨-, h⟩
      exact ⟨by omega, h⟩
  refine ⟨((List.range a.length).filter fun p => 1 ≤ p ∧ (a ++ t)[p]? = some '/').map
    (a ++ t).take, ?_, fun d hd => ?_⟩
  · rw [cuts, cuts, List.length_append, List.range_add, List.filter_append, hbehind,
      List.map_append, List.map_append, List.map_map, List.map_map, List.append_assoc]
    congr 2
    refine List.map_congr_left fun p _ => ?_
    simp [List.take_append]
  · obtain ⟨p, hp, rfl⟩ := List.mem_map.1 hd
    rw [List.mem_filter, List.mem_range, decide_eq_true_iff] at hp
    obtain ⟨hlt, hpos, hget⟩ := hp
    rw [List.getElem?_append_left hlt] at hget
    rw [List.take_append_of_le_length (Nat.le_of_lt hlt)]
    refine ⟨?_, a.drop (p + 1), ?_⟩
    · rw [← List.length_pos_iff, List.length_take]
      omega
    · obtain ⟨hlt', hc⟩ := List.getElem?_eq_some_iff.1 hget
      rw [← hc, ← List.drop_eq_getElem_cons hlt', List.take_append_drop]

/-- Directories that are there are passed over. -/
theorem makeDirs_append_of_dirs {ds qs : List Str}
    (h : ∀ d ∈ ds, ∃ v, w.stat d = some v ∧ v.kind = .directory) :
    makeDirs sys mode w (ds ++ qs) = makeDirs sys mode w qs := by
  induction ds with
  | nil => rfl
  | cons d ds ih =>
    rw [List.forall_mem_cons] at h
    obtain ⟨⟨v, hv, hkind⟩, hds⟩ := h
    rw [List.cons_append, makeDirs_cons_of_dir hv hkind, ih hds]

theorem stat_under (hdir : w.tree.IsDir w.cwd) {p : Str} (hne : p ≠ [])
    (hhead : p.head? ≠ some '/') : w.stat (under w.cwd p) = w.stat p := by
  rw [World.stat, World.stat, lookup_under hdir hhead hne]

/-- The same directories are made for relative paths in full. -/
theorem makeDirs_under (hdir : w.tree.IsDir w.cwd) {qs : List Str}
    (h : ∀ q ∈ qs, q ≠ [] ∧ q.head? ≠ some '/') :
    makeDirs sys mode w (qs.map (under w.cwd)) = makeDirs sys mode w qs := by
  induction qs generalizing w with
  | nil => rfl
  | cons q qs ih =>
    rw [List.forall_mem_cons] at h
    obtain ⟨⟨hne, hhead⟩, hqs⟩ := h
    rw [List.map_cons, makeDirs, makeDirs, stat_under hdir hne hhead,
      System.mkdir_under sys hdir hhead hne]
    cases w.stat q with
    | none =>
      cases hmkdir : sys.mkdir w q mode with
      | none => rfl
      | some w' =>
        obtain ⟨l, -, -, hext, hcwd, -⟩ := System.mkdir_spec hmkdir
        dsimp only
        rw [← hcwd]
        exact ih (hcwd ▸ hext.isDir hdir) hqs
    | some v =>
      dsimp only
      split
      · exact ih hdir hqs
      · rfl

/-- The path of the working directory leads to it. -/
theorem lookup_under_nil (hdir : w.tree.IsDir w.cwd) : w.lookup (under w.cwd []) = some w.cwd :=
  (lookup_append_slash (render_ne_nil w.cwd)).2 ⟨lookup_render hdir (by decide), hdir⟩

/-- The working directory and those above it are there. -/
theorem stat_of_above (hdir : w.tree.IsDir w.cwd) {d f : Str} (hd : d ≠ [])
    (h : under w.cwd [] = d ++ '/' :: f) : ∃ v, w.stat d = some v ∧ v.kind = .directory := by
  have hcwd := lookup_under_nil hdir
  rw [h] at hcwd
  obtain ⟨q, hq⟩ := lookup_dir_of_lookup hcwd
  obtain ⟨hlookup, hisDir⟩ := (lookup_append_slash hd).1 hq
  obtain ⟨v, hv⟩ := Option.ne_none_iff_exists'.1 hisDir.get_ne_none
  exact ⟨v, stat_of_lookup hlookup hv, (isDir_iff hv).1 hisDir⟩

/-- The directories of a relative path are made for the path in full. -/
theorem makeParents_under (hdir : w.tree.IsDir w.cwd) {d : Str} (hne : d ≠ [])
    (hhead : d.head? ≠ some '/') :
    makeParents sys w (under w.cwd (d ++ ['/'])) mode = makeParents sys w (d ++ ['/']) mode := by
  have hunder : under w.cwd (d ++ ['/']) = under w.cwd d ++ ['/'] := by simp [under]
  have hbegin : ∀ q ∈ cuts d, q ≠ [] ∧ q.head? ≠ some '/' := by
    intro q hq
    have hq0 : q ≠ [] := by
      rcases List.mem_append.1 hq with hq | hq
      · obtain ⟨p, hp, rfl⟩ := List.mem_map.1 hq
        have hpos := (of_decide_eq_true (List.mem_filter.1 hp).2).1
        rw [← List.length_pos_iff, List.length_take]
        have := List.length_pos_iff.2 hne
        omega
      · rwa [List.mem_singleton.1 hq]
    obtain ⟨f, rfl⟩ := prefix_of_mem_cuts hq
    rw [List.head?_append_of_ne_nil _ hq0] at hhead
    exact ⟨hq0, hhead⟩
  obtain ⟨ds, hds, habove⟩ := cuts_append (a := under w.cwd []) (by simp [under]) hhead
  have hcuts : cuts (under w.cwd d) = ds ++ (cuts d).map (under w.cwd) := by
    have happend : ∀ q : Str, under w.cwd [] ++ q = under w.cwd q := fun q => by simp [under]
    rw [happend] at hds
    rw [hds]
    simp only [happend]
  have hdirs : ∀ q ∈ ds, ∃ v, w.stat q = some v ∧ v.kind = .directory := by
    intro q hq
    obtain ⟨hq0, f, hf⟩ := habove q hq
    exact stat_of_above hdir hq0 hf
  rw [hunder, makeParents_slash, makeParents_slash, stat_under hdir hne hhead, hcuts,
    makeDirs_append_of_dirs hdirs, makeDirs_under hdir hbegin]

/-- Nothing is made for a name in the working directory. -/
theorem makeParents_cwd (hdir : w.tree.IsDir w.cwd) :
    (makeParents sys w (under w.cwd []) mode).2 = w := by
  obtain ⟨v, hv⟩ := Option.ne_none_iff_exists'.1 hdir.get_ne_none
  have hstat : w.stat (World.render w.cwd) = some v :=
    stat_of_lookup (lookup_render hdir (by decide)) hv
  have hkind : v.kind = .directory := (isDir_iff hv).1 hdir
  rw [under, makeParents_slash, hstat, if_pos (by simpa using hkind)]

/-- A relative path, and the path that is meant by it. -/
structure Relative (w : World) (r : Str) : Prop where
  isDir : w.tree.IsDir w.cwd
  back : '\\' ∉ under w.cwd r
  ne : r ≠ []
  relative : (ofStr r).isAbsolute = false

namespace Relative

theorem unify_eq (h : Relative w r) : unify r = r :=
  unify_of_notMem fun hmem => h.back (List.mem_append_right _ (List.mem_cons_of_mem _ hmem))

theorem head?_ne (h : Relative w r) : r.head? ≠ some '/' := by
  intro hhead
  obtain ⟨e, he⟩ := List.head?_eq_some_iff.1 hhead
  have habs : (ofStr r).isAbsolute = true := by
    change (partsOf (unify r)).head?.any isRootPart = true
    rw [h.unify_eq, he]
    rfl
  rw [h.relative] at habs
  cases habs

theorem shape (h : Relative w r) :
    Path.RelativeShape (ofStr r).directoryPath (ofStr r).fileName (ofStr r).fullPath :=
  Path.relativeShape h.unify_eq h.ne h.relative

theorem fullPath (h : Relative w r) :
    (ofStr (under w.cwd r)).fullPath = under w.cwd (ofStr r).fullPath :=
  (Path.parts_under w.cwd h.back h.ne h.relative).1

theorem directoryPath (h : Relative w r) :
    (ofStr (under w.cwd r)).directoryPath = under w.cwd (ofStr r).directoryPath :=
  (Path.parts_under w.cwd h.back h.ne h.relative).2.1

theorem fileName (h : Relative w r) :
    (ofStr (under w.cwd r)).fileName = (ofStr r).fileName :=
  (Path.parts_under w.cwd h.back h.ne h.relative).2.2

/-- In a larger tree, the path still means the same. -/
theorem grown (h : Relative w r) (hw : Grown w w') : Relative w' r :=
  ⟨hw.cwd ▸ hw.ext.isDir h.isDir, hw.cwd ▸ h.back, h.ne, h.relative⟩

/-- The two full paths lead to the same. -/
theorem lookup_fullPath (h : Relative w r) :
    w.lookup (ofStr (under w.cwd r)).fullPath = w.lookup (ofStr r).fullPath := by
  obtain ⟨hne, hhead⟩ := h.shape.head?_full
  rw [h.fullPath, lookup_under h.isDir hhead hne]

/-- The directory path of a relative path is empty, or a relative path too. -/
theorem directoryPath_cases (h : Relative w r) :
    (ofStr r).directoryPath = [] ∨
      ∃ d, d ≠ [] ∧ d.head? ≠ some '/' ∧ (ofStr r).directoryPath = d ++ ['/'] := by
  have hshape := h.shape
  generalize (ofStr r).directoryPath = dir, (ofStr r).fileName = name,
    (ofStr r).fullPath = full at hshape ⊢
  cases hshape with
  | name => exact Or.inl rfl
  | split d _ hf hd hhead => exact Or.inr ⟨d, hd, hhead, rfl⟩

/-- The directory paths lead to the same, when the relative one is not empty. -/
theorem lookup_directoryPath (h : Relative w r) (hne : (ofStr r).directoryPath ≠ []) :
    w.lookup (ofStr (under w.cwd r)).directoryPath = w.lookup (ofStr r).directoryPath := by
  obtain ⟨d, hd, hhead, hdir⟩ := h.directoryPath_cases.resolve_left hne
  rw [h.directoryPath, hdir, lookup_under h.isDir _ (by simp)]
  rwa [List.head?_append_of_ne_nil _ hd]

end Relative

/-- An object without a type that was just constructed is there when its full
path leads somewhere. -/
theorem checkIfExists_ofStr (s : Str) :
    ((ofStr s).checkIfExists w).mExists = true ↔ w.lookup (ofStr s).fullPath ≠ none :=
  destination_mExists_iff

/-- The same directories are made for the two spellings. -/
theorem makePath_under (h : Relative w r) :
    (makePath sys w (ofStr (under w.cwd r)) mode).world
      = (makePath sys w (ofStr r) mode).world := by
  have hiff := (checkIfExists_ofStr (w := w) (under w.cwd r)).trans
    ((iff_of_eq (by rw [h.lookup_fullPath])).trans (checkIfExists_ofStr (w := w) r).symm)
  have hexists : ((ofStr (under w.cwd r)).checkIfExists w).mExists
      = ((ofStr r).checkIfExists w).mExists := Bool.eq_iff_iff.2 hiff
  cases hm : ((ofStr r).checkIfExists w).mExists with
  | true => rw [makePath_of_exists (hexists.trans hm), makePath_of_exists hm]
  | false =>
    rw [makePath_of_not_exists (coherent_ofStr _) (hexists.trans hm),
      makePath_of_not_exists (coherent_ofStr r) hm]
    show (makeParents sys w (ofStr (under w.cwd r)).directoryPath mode).2 = _
    rw [h.directoryPath]
    rcases h.directoryPath_cases with hdir | ⟨d, hd, hhead, hdir⟩
    · rw [hdir, makeParents_cwd h.isDir]
      rfl
    · rw [hdir, makeParents_under h.isDir hd hhead]

/-! ## The absolute path -/

/-- Whether `getAbsolutePath` finds the path: it is there, or its directory path
is not empty. -/
def Found (w : World) (r : Str) : Prop :=
  (ofStr r).directoryPath ≠ [] ∨ w.lookup (ofStr r).fullPath ≠ none

/-- The two `realpath` calls find the same for the two spellings of a path that
can be found. -/
theorem located_under (h : Relative w r) (hfound : Found w r) :
    located w (ofStr (under w.cwd r)) = located w (ofStr r) := by
  have hfull : w.realpath (ofStr (under w.cwd r)).fullPath = w.realpath (ofStr r).fullPath := by
    rw [World.realpath, World.realpath, h.lookup_fullPath]
  unfold located
  rw [hfull]
  cases hreal : w.realpath (ofStr r).fullPath with
  | some p => rfl
  | none =>
    have hdir : (ofStr r).directoryPath ≠ [] := by
      refine hfound.resolve_right fun hne => hne ?_
      exact Option.map_eq_none_iff.1 hreal
    have hparent : w.realpath (ofStr (under w.cwd r)).directoryPath
        = w.realpath (ofStr r).directoryPath := by
      rw [World.realpath, World.realpath, h.lookup_directoryPath hdir]
    dsimp only
    rw [hparent]
    show Option.map _ _ = Option.map _ _
    rw [h.fileName]

/-- For a path that cannot be found, they find nothing for the relative
spelling. -/
theorem located_of_not_found (h : Relative w r) (hfound : ¬ Found w r) :
    located w (ofStr r) = none ∧
      ∃ f, located w (ofStr (under w.cwd r)) = some (under w.cwd f) := by
  obtain ⟨hdir, hnone⟩ := not_or.1 hfound
  rw [not_not] at hdir hnone
  have hreal := World.realpath_of_missing hnone
  have hreal' := World.realpath_of_missing (h.lookup_fullPath.trans hnone)
  have hcwd := lookup_under_nil h.isDir
  have hparent : w.realpath (ofStr (under w.cwd r)).directoryPath = some (World.render w.cwd) := by
    rw [h.directoryPath, hdir]
    exact World.realpath_of_lookup hcwd
  unfold located
  rw [hreal, hreal', hparent, hdir, h.fileName]
  exact ⟨rfl, (ofStr r).fileName, by simp [under, slash]⟩

/-- A path that can be found still can be when directories were made. -/
theorem Found.grown (h : Found w r) (hw : Grown w w') : Found w' r := by
  refine h.imp_right fun hne => ?_
  obtain ⟨l, hl⟩ := Option.ne_none_iff_exists'.1 hne
  rw [hw.lookup hl]
  exact Option.some_ne_none l

/-- A name that cannot be found still cannot be, because nothing is made for
it. -/
theorem makePath_of_not_found (h : ¬ Found w r) :
    (makePath sys w (ofStr r) mode).world = w := by
  obtain ⟨hdir, hnone⟩ := not_or.1 h
  rw [not_not] at hdir
  have hm : ((ofStr r).checkIfExists w).mExists = false :=
    Bool.eq_false_iff.2 fun hm => hnone ((checkIfExists_ofStr r).1 hm)
  rw [makePath_of_not_exists (coherent_ofStr r) hm]
  show (makeParents sys w (ofStr r).directoryPath mode).2 = w
  rw [hdir]
  rfl

/-- `getAbsolutePath` gives the same for the two spellings exactly when the path
can be found. -/
theorem getAbsolutePath_under_iff (h : Relative w r) :
    ((ofStr r).getAbsolutePath sys w).1.mRealPath
        = ((ofStr (under w.cwd r)).getAbsolutePath sys w).1.mRealPath ↔ Found w r := by
  rw [getAbsolutePath_mRealPath (coherent_ofStr r),
    getAbsolutePath_mRealPath (coherent_ofStr (under w.cwd r)), getAbsolutePath_world,
    getAbsolutePath_world, makePath_under h]
  show (located _ (ofStr r)).getD [] = (located _ (ofStr (under w.cwd r))).getD [] ↔ _
  have hgrown : Grown w (makePath sys w (ofStr r) defaultMode).world :=
    (makePath_paved (coherent_ofStr r)).toGrown
  constructor
  · intro heq
    by_contra hfound
    rw [makePath_of_not_found hfound] at heq
    obtain ⟨hnone, f, hsome⟩ := located_of_not_found h hfound
    rw [hnone, hsome] at heq
    exact absurd heq (by simp [under])
  · intro hfound
    have hsame := located_under (h.grown hgrown) (hfound.grown hgrown)
    rw [hgrown.cwd] at hsame
    rw [hsame]

end FsObject

end SysFs
