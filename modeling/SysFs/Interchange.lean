import SysFs.Spelling

/-!
# Transfers of the two spellings of a path

`move` and `copy` give the directory that they make for a destination the
permission bits of the directory path of the source.  For a source that is a
name alone this path is empty and has no mode, so the new directory gets no
permissions; spelled behind the working directory, the source gives it those of
the working directory (`parentMode_name`, `parentMode_cwd`).

`interchangeable_iff` says that this, and the absolute path of a name that is
not there, are all that can differ between the two spellings.
-/

namespace SysFs

open Posix World

namespace FsObject

variable {sys : System} {w w' : World} {r x : Str} {mode : Nat}

/-! ## Transfers from the two spellings -/

/-- The same result and the same filesystem. -/
structure SameOutcome (a b : Outcome) : Prop where
  ok : a.ok = b.ok
  tree : ∀ l, a.world.tree.get l = b.world.tree.get l

/-- Two transfers do the same when they have done the same before their command,
and their commands do the same. -/
theorem same_of_prepared {o o' : FsObject} {y : Str}
    (hok : (prepare sys w o' y).ok = (prepare sys w o x).ok)
    (hworld : (prepare sys w o' y).world = (prepare sys w o x).world)
    (hmove : (prepare sys w o x).ok = true →
      (move sys w o' y).ok = (move sys w o x).ok ∧
        (move sys w o' y).world.tree = (move sys w o x).world.tree)
    (hcopy : (prepare sys w o x).ok = true →
      (copy sys w o' y).ok = (copy sys w o x).ok ∧
        (copy sys w o' y).world.tree = (copy sys w o x).world.tree) :
    SameOutcome (move sys w o x) (move sys w o' y) ∧
      SameOutcome (copy sys w o x) (copy sys w o' y) := by
  cases hp : (prepare sys w o x).ok with
  | false =>
    have hp' : (prepare sys w o' y).ok = false := hok.trans hp
    obtain ⟨hm, hmw⟩ := move_of_stopped hp
    obtain ⟨hm', hmw'⟩ := move_of_stopped hp'
    obtain ⟨hc, hcw⟩ := copy_of_stopped hp
    obtain ⟨hc', hcw'⟩ := copy_of_stopped hp'
    exact ⟨⟨hm.trans hm'.symm, fun l => by rw [hmw, hmw', hworld]⟩,
      ⟨hc.trans hc'.symm, fun l => by rw [hcw, hcw', hworld]⟩⟩
  | true =>
    obtain ⟨hm, hmw⟩ := hmove hp
    obtain ⟨hc, hcw⟩ := hcopy hp
    exact ⟨⟨hm.symm, fun l => by rw [hmw]⟩, ⟨hc.symm, fun l => by rw [hcw]⟩⟩

/-- The two spellings have the same type in every larger tree. -/
theorem getType_under (h : Relative w r) (hw : Grown w w') :
    ((ofStr (under w.cwd r)).checkIfExists w).getType w'
      = ((ofStr r).checkIfExists w).getType w' := by
  have hkept := kept_checkIfExists (coherent_ofStr r) w
  have hkept' := kept_checkIfExists (coherent_ofStr (under w.cwd r)) w
  have hlookup := (h.grown hw).lookup_fullPath
  rw [hw.cwd] at hlookup
  rw [getType, getType, getStat_eq hkept.coherent, getStat_eq hkept'.coherent,
    hkept.fullPath (coherent_ofStr r), hkept'.fullPath (coherent_ofStr _), World.stat, World.stat,
    hlookup]

theorem checkIfExists_under (h : Relative w r) :
    ((ofStr (under w.cwd r)).checkIfExists w).mExists = ((ofStr r).checkIfExists w).mExists := by
  rw [Bool.eq_iff_iff, checkIfExists_ofStr, checkIfExists_ofStr, h.lookup_fullPath]

/-- Two transfers do the same before their command when they find the same and
would make the same directory. -/
theorem prepare_congr {o o' : FsObject} {y : Str}
    (hexists : (o'.checkIfExists w).mExists = (o.checkIfExists w).mExists)
    (htype : ∀ w', Grown w w' →
      (o'.checkIfExists w).getType w' = (o.checkIfExists w).getType w')
    (hdst : (destination w y).mExists = (destination w x).mExists)
    (hdstType : (destination w y).getType w = (destination w x).getType w)
    (hpaved : (paved sys w y).world = (paved sys w x).world)
    (hlast : (unify y).getLast? = (unify x).getLast?)
    (hmkdir : w.lookup (ofStr x).fullPath = none →
      (o.checkIfExists w).getType (paved sys w x).world = .directory ∨
        (unify x).getLast? = some '/' →
      sys.mkdir (paved sys w x).world ((located (paved sys w x).world (ofStr y)).getD [])
          (parentMode w o')
        = sys.mkdir (paved sys w x).world ((located (paved sys w x).world (ofStr x)).getD [])
          (parentMode w o)) :
    (prepare sys w o' y).ok = (prepare sys w o x).ok ∧
      (prepare sys w o' y).world = (prepare sys w o x).world := by
  rw [prepare_eq, prepare_eq, hexists, hdst, hdstType, hpaved, hlast, htype w (Grown.refl w),
    htype _ (paved_paved sys w x).toGrown]
  split
  · exact ⟨rfl, rfl⟩
  · split
    · split
      · exact ⟨rfl, rfl⟩
      · exact ⟨rfl, rfl⟩
    · rename_i hmissing
      split
      · rename_i hneeded
        have hfree : w.lookup (ofStr x).fullPath = none := by
          by_contra hne
          exact hmissing (destination_mExists_iff.2 hne)
        rw [hmkdir hfree hneeded]
        split
        · exact ⟨rfl, rfl⟩
        · exact ⟨rfl, rfl⟩
      · exact ⟨rfl, rfl⟩

/-- A source that is not there is not transferred; otherwise the transfers from
two spellings do the same when they make the same directory. -/
theorem same_from_under (h : Relative w r)
    (hmkdir : w.lookup (ofStr x).fullPath = none →
      ((ofStr r).checkIfExists w).getType (paved sys w x).world = .directory ∨
        (unify x).getLast? = some '/' →
      sys.mkdir (paved sys w x).world ((located (paved sys w x).world (ofStr x)).getD [])
          (parentMode w (ofStr (under w.cwd r)))
        = sys.mkdir (paved sys w x).world ((located (paved sys w x).world (ofStr x)).getD [])
          (parentMode w (ofStr r))) :
    SameOutcome (move sys w (ofStr r) x) (move sys w (ofStr (under w.cwd r)) x) ∧
      SameOutcome (copy sys w (ofStr r) x) (copy sys w (ofStr (under w.cwd r)) x) := by
  obtain ⟨hok, hworld⟩ := prepare_congr (checkIfExists_under h) (fun _ => getType_under h) rfl rfl
    rfl rfl hmkdir
  -- The two commands are the same text.
  have hsame : (prepare sys w (ofStr r) x).ok = true →
      sourcePath sys (prepare sys w (ofStr (under w.cwd r)) x)
          = sourcePath sys (prepare sys w (ofStr r) x) ∧
        (prepare sys w (ofStr (under w.cwd r)) x).newpath.toNative
          = (prepare sys w (ofStr r) x).newpath.toNative := by
    intro hp
    have hcases := prepare_cases sys w (ofStr r) x
    have hcases' := prepare_cases sys w (ofStr (under w.cwd r)) x
    obtain ⟨l, hl⟩ := Option.ne_none_iff_exists'.1 ((checkIfExists_ofStr r).1 (hcases.mExists hp))
    refine ⟨?_, (hcases'.newpath_eq (hok.trans hp)).trans (hcases.newpath_eq hp).symm⟩
    rw [sourcePath_eq hcases hp (coherent_ofStr r) hl,
      sourcePath_eq hcases' (hok.trans hp) (coherent_ofStr _) (h.lookup_fullPath.trans hl)]
  refine same_of_prepared hok hworld (fun hp => ?_) fun hp => ?_
  · obtain ⟨hsource, hnative⟩ := hsame hp
    obtain ⟨hm, hmw⟩ := move_of_prepared rfl hp
    obtain ⟨hm', hmw'⟩ := move_of_prepared rfl (hok.trans hp)
    rw [hm, hmw, hm', hmw', hworld, hsource, hnative]
    exact ⟨rfl, rfl⟩
  · obtain ⟨hsource, hnative⟩ := hsame hp
    obtain ⟨hc, hcw⟩ := copy_of_prepared rfl hp
    obtain ⟨hc', hcw'⟩ := copy_of_prepared rfl (hok.trans hp)
    rw [hc, hcw, hc', hcw', hworld, hsource, hnative]
    exact ⟨rfl, rfl⟩

/-! ## Transfers to the two spellings -/

/-- `cp` finds its destination through both spellings: in every state with the
same working directory, a command that the shell reads as it is meant has the
same status and leaves the same tree. -/
def CopiesAlike (sys : System) (w : World) (r : Str) : Prop :=
  ∀ (w' : World) (l : Loc) (fd : Nat), w'.cwd = w.cwd → w'.tree.IsDir w'.cwd →
    (LibCommand.copy (World.render l) r).PlainArgs →
    (LibCommand.copy (World.render l) (under w.cwd r)).PlainArgs →
      (sys.other ((LibCommand.copy (World.render l) (under w.cwd r)).shell.handedText fd) w').1
          = (sys.other ((LibCommand.copy (World.render l) r).shell.handedText fd) w').1 ∧
        (sys.other ((LibCommand.copy (World.render l) (under w.cwd r)).shell.handedText fd) w').2.1
          = (sys.other ((LibCommand.copy (World.render l) r).shell.handedText fd) w').2.1

/-- `mv` to the two spellings of a path. -/
theorem execCommand_move_under (sys : System) (h : Relative w r) {src : Str}
    (hplain : (LibCommand.move src r).PlainArgs)
    (hplain' : (LibCommand.move src (under w.cwd r)).PlainArgs) :
    (execCommand sys w (LibCommand.move src (under w.cwd r)).text).ok
        = (execCommand sys w (LibCommand.move src r).text).ok ∧
      (execCommand sys w (LibCommand.move src (under w.cwd r)).text).world
        = (execCommand sys w (LibCommand.move src r).text).world := by
  obtain ⟨hok, hworld⟩ := execCommand_move sys w hplain
  obtain ⟨hok', hworld'⟩ := execCommand_move sys w hplain'
  rw [hok, hok', hworld, hworld', System.mv_under sys h.isDir h.head?_ne h.ne]
  exact ⟨rfl, rfl⟩

/-- `cp` to the two spellings of a path. -/
theorem execCommand_copy_under (h : Relative w r) (hcp : CopiesAlike sys w r) {l : Loc}
    (hplain : (LibCommand.copy (World.render l) r).PlainArgs)
    (hplain' : (LibCommand.copy (World.render l) (under w.cwd r)).PlainArgs) :
    (execCommand sys w (LibCommand.copy (World.render l) (under w.cwd r)).text).ok
        = (execCommand sys w (LibCommand.copy (World.render l) r).text).ok ∧
      (execCommand sys w (LibCommand.copy (World.render l) (under w.cwd r)).text).world.tree
        = (execCommand sys w (LibCommand.copy (World.render l) r).text).world.tree := by
  by_cases hcan : CanExecute sys w
  · obtain ⟨havail, hpipe⟩ := hcan
    obtain ⟨fd, hfd⟩ := Option.ne_none_iff_exists'.1 hpipe
    obtain ⟨hok, hworld⟩ := execCommand_of_other hplain havail hfd rfl
    obtain ⟨hok', hworld'⟩ := execCommand_of_other hplain' havail hfd rfl
    obtain ⟨hstatus, htree⟩ := hcp w l fd rfl h.isDir hplain hplain'
    rw [hok, hok', hworld, hworld']
    exact ⟨hstatus, htree⟩
  · obtain ⟨hok, hworld⟩ := execCommand_of_not_canExecute hplain hcan
    obtain ⟨hok', hworld'⟩ := execCommand_of_not_canExecute hplain' hcan
    rw [hok, hok', hworld, hworld']
    exact ⟨rfl, rfl⟩

/-- The transfers to the two spellings of a path that can be found come to their
commands alike. -/
theorem prepare_to_under (h : Relative w r) (hfound : Found w r) :
    (prepare sys w (ofStr x) (under w.cwd r)).ok = (prepare sys w (ofStr x) r).ok ∧
      (prepare sys w (ofStr x) (under w.cwd r)).world = (prepare sys w (ofStr x) r).world := by
  have hexists : (destination w (under w.cwd r)).mExists = (destination w r).mExists :=
    checkIfExists_under h
  have htype : (destination w (under w.cwd r)).getType w = (destination w r).getType w :=
    getType_under h (Grown.refl w)
  have hpaved : (paved sys w (under w.cwd r)).world = (paved sys w r).world := by
    rw [paved_world, paved_world, makePath_under h]
  have hgrown : Grown w (paved sys w r).world := (paved_paved sys w r).toGrown
  have hlocated : located (paved sys w r).world (ofStr (under w.cwd r))
      = located (paved sys w r).world (ofStr r) := by
    have := located_under (h.grown hgrown) (hfound.grown hgrown)
    rwa [hgrown.cwd] at this
  have hlast : (unify (under w.cwd r)).getLast? = (unify r).getLast? := by
    rw [unify_of_notMem h.back, h.unify_eq, under,
      List.getLast?_append_of_ne_nil _ (List.cons_ne_nil _ _), List.getLast?_cons_of_ne_nil h.ne]
  exact prepare_congr (o := ofStr x) rfl (fun _ _ => rfl) hexists htype hpaved hlast
    fun _ _ => by rw [hlocated]

/-- The two commands differ in the spelling of their destination. -/
theorem paths_to_under (h : Relative w r) (hfound : Found w r)
    (hp : (prepare sys w (ofStr x) r).ok = true) :
    ∃ l, w.lookup (ofStr x).fullPath = some l ∧
      sourcePath sys (prepare sys w (ofStr x) (under w.cwd r)) = World.render l ∧
      sourcePath sys (prepare sys w (ofStr x) r) = World.render l ∧
      (prepare sys w (ofStr x) (under w.cwd r)).newpath.toNative = under w.cwd r ∧
      (prepare sys w (ofStr x) r).newpath.toNative = r := by
  have hcases := prepare_cases sys w (ofStr x) r
  have hcases' := prepare_cases sys w (ofStr x) (under w.cwd r)
  have hp' := (prepare_to_under h hfound).1.trans hp
  obtain ⟨l, hl⟩ := Option.ne_none_iff_exists'.1 ((checkIfExists_ofStr x).1 (hcases.mExists hp))
  exact ⟨l, hl, sourcePath_eq hcases' hp' (coherent_ofStr x) hl,
    sourcePath_eq hcases hp (coherent_ofStr x) hl,
    (hcases'.newpath_eq hp').trans (unify_of_notMem h.back),
    (hcases.newpath_eq hp).trans h.unify_eq⟩

/-- The transfers to the two spellings of a path that can be found do the
same. -/
theorem same_to_under (h : Relative w r) (hfound : Found w r) (hplain : PlainMove w (ofStr x) r)
    (hplain' : PlainMove w (ofStr x) (under w.cwd r)) (hcp : CopiesAlike sys w r) :
    SameOutcome (move sys w (ofStr x) r) (move sys w (ofStr x) (under w.cwd r)) ∧
      SameOutcome (copy sys w (ofStr x) r) (copy sys w (ofStr x) (under w.cwd r)) := by
  obtain ⟨hok, hworld⟩ := @prepare_to_under sys w r x h hfound
  have hpaved := (prepare_cases sys w (ofStr x) r).paved
  have hafter : Relative (prepare sys w (ofStr x) r).world r := h.grown hpaved.toGrown
  have hcwd : (prepare sys w (ofStr x) r).world.cwd = w.cwd := hpaved.cwd
  refine same_of_prepared hok hworld (fun hp => ?_) fun hp => ?_
  · obtain ⟨l, hl, hsource', hsource, hnative', hnative⟩ := paths_to_under h hfound hp
    obtain ⟨hm, hmw⟩ := move_of_prepared rfl hp
    obtain ⟨hm', hmw'⟩ := move_of_prepared rfl (hok.trans hp)
    have hreal := World.realpath_of_lookup hl
    have hmoved := execCommand_move_under sys hafter (hplain _ hreal)
      (by rw [hcwd]; exact hplain' _ hreal)
    rw [hcwd] at hmoved
    rw [hm, hmw, hm', hmw', hworld, hsource, hsource', hnative, hnative', hmoved.1, hmoved.2]
    exact ⟨rfl, rfl⟩
  · obtain ⟨l, hl, hsource', hsource, hnative', hnative⟩ := paths_to_under h hfound hp
    obtain ⟨hc, hcw⟩ := copy_of_prepared rfl hp
    obtain ⟨hc', hcw'⟩ := copy_of_prepared rfl (hok.trans hp)
    have hreal := World.realpath_of_lookup hl
    have hcp' : CopiesAlike sys (prepare sys w (ofStr x) r).world r := by
      intro w' m fd hw' hisDir
      rw [hcwd] at hw' ⊢
      exact hcp w' m fd hw' hisDir
    have hcopied := execCommand_copy_under hafter hcp' (hplain _ hreal)
      (by rw [hcwd]; exact hplain' _ hreal)
    rw [hcwd] at hcopied
    rw [hc, hcw, hc', hcw', hworld, hsource, hsource', hnative, hnative']
    exact hcopied

/-! ## The directory that a transfer makes -/

/-- A directory can be made at the path: its own directory is there, nothing is
at the path, and the system grants it. -/
def Vacant (sys : System) (w : World) (x : Str) : Prop :=
  w.lookup (ofStr x).directoryPath ≠ none ∧ ∃ e, w.entry (ofStr x).fullPath = some e ∧
    w.tree.get e = none ∧ sys.allows w.clock e = true

/-- Nothing is found at a path at whose entry nothing is. -/
theorem lookup_eq_none_of_free {path : Str} {e : Loc} (he : w.entry path = some e)
    (hnone : w.tree.get e = none) : w.lookup path = none := by
  by_contra hne
  obtain ⟨l, hl⟩ := Option.ne_none_iff_exists'.1 hne
  obtain ⟨ws, n, q, seen, hws, -⟩ := entryAt_eq_some_iff.1 he
  exact get_ne_none_of_entry ws hl he hws hnone

/-- `mkdir` of an absolute path succeeds exactly at a vacant path. -/
theorem mkdir_located_isSome_iff (mode : Nat) :
    (sys.mkdir w ((located w (ofStr x)).getD []) mode).isSome = true ↔ Vacant sys w x := by
  rw [System.mkdir_isSome_iff]
  constructor
  · rintro ⟨e, htarget, hnone, hallows⟩
    cases hlocated : located w (ofStr x) with
    | none =>
      rw [hlocated, Option.getD_none] at htarget
      exact absurd htarget (by simp [show w.target [] = none from rfl])
    | some p =>
      rw [hlocated, Option.getD_some] at htarget
      rcases located_cases (coherent_ofStr x) hlocated with ⟨m, hm, rfl⟩ |
        ⟨-, q, n, hq, hdir, -, hentry, -, rfl⟩
      · obtain ⟨v, hv, -⟩ := World.lookup_result hm
        rcases eq_or_ne m [] with rfl | hne
        · exact absurd htarget (by simp [show w.target (World.render []) = none from rfl])
        · rw [World.target_of_entry (World.entry_render
            (FileTree.isDir_dropLast_of_get hne (by simp [hv])) hne)] at htarget
          rw [← Option.some.inj htarget, hv] at hnone
          cases hnone
      · rw [World.target_of_entry (World.entry_render_concat hdir)] at htarget
        rw [← Option.some.inj htarget] at hnone hallows
        exact ⟨by simp [hq], q ++ [n], hentry, hnone, hallows⟩
  · rintro ⟨hdir, e, hentry, hnone, hallows⟩
    have hfree := lookup_eq_none_of_free hentry hnone
    obtain ⟨q, hq⟩ := Option.ne_none_iff_exists'.1 hdir
    obtain ⟨p, hlocated⟩ : ∃ p, located w (ofStr x) = some p := by
      unfold located
      rw [World.realpath_of_missing hfree, World.realpath_of_lookup hq]
      exact ⟨_, rfl⟩
    rcases located_cases (coherent_ofStr x) hlocated with ⟨m, hm, -⟩ |
      ⟨-, q', n, -, hisDir, -, hentry', -, rfl⟩
    · rw [hfree] at hm
      cases hm
    · obtain rfl := Option.some.inj (hentry.symm.trans hentry')
      rw [hlocated, Option.getD_some]
      exact ⟨q' ++ [n], World.target_of_entry (World.entry_render_concat hisDir), hnone, hallows⟩

/-- A transfer of the path makes a directory for the destination. -/
def MakesDirectory (sys : System) (w : World) (r x : Str) : Prop :=
  w.lookup (ofStr x).fullPath = none ∧
    ((∃ l, w.lookup (ofStr r).fullPath = some l ∧ w.tree.IsDir l) ∨
      (unify x).getLast? = some '/') ∧
    Vacant sys (paved sys w x).world x

/-- Whether a source is a directory does not change while directories are made. -/
theorem getType_eq_directory_iff {l : Loc} (hl : w.lookup (ofStr r).fullPath = some l)
    (hw : Grown w w') :
    ((ofStr r).checkIfExists w).getType w' = .directory ↔ w.tree.IsDir l := by
  have hkept := kept_checkIfExists (coherent_ofStr r) w
  obtain ⟨v, hv, -⟩ := World.lookup_result hl
  have hstat : w'.stat ((ofStr r).checkIfExists w).fullPath = some v := by
    rw [hkept.fullPath (coherent_ofStr r)]
    exact hw.stat (stat_of_lookup hl hv)
  rw [getType_eq hkept.coherent hstat, ofKind_eq_directory, isDir_iff hv]

/-- The mode of a directory that is made is the one of the directory path of the
source. -/
theorem parentMode_ofStr (w : World) (s : Str) :
    parentMode w (ofStr s) = (ofStr (ofStr s).directoryPath).getMode w &&& 0o777 := by
  rw [parentMode, (kept_checkIfExists (coherent_ofStr s) w).directoryPath (coherent_ofStr s)]

/-- The directory path of a relative path is relative, or empty. -/
theorem Relative.directory (h : Relative w r) (hne : (ofStr r).directoryPath ≠ []) :
    Relative w (ofStr r).directoryPath := by
  have hback : '\\' ∉ under w.cwd (ofStr r).directoryPath := by
    rw [← h.directoryPath]
    intro hmem
    obtain ⟨f, hf⟩ := (coherent_ofStr (under w.cwd r)).shape.prefix_full
    exact (coherent_ofStr (under w.cwd r)).backslash_notMem_fullPath
      (hf ▸ List.mem_append_left f hmem)
  have hs : unify (ofStr r).directoryPath = (ofStr r).directoryPath :=
    unify_of_notMem fun hmem => hback (List.mem_append_right _ (List.mem_cons_of_mem _ hmem))
  refine ⟨h.isDir, hback, hne, ?_⟩
  -- The first component of the directory path is the one of the full path.
  have hfirst := Path.any_isRootPart_fields h.unify_eq h.ne h.relative
  change (partsOf (unify (ofStr r).directoryPath)).head?.any isRootPart = false
  rw [hs]
  have hshape := h.shape
  change (Lines.fields '/' (ofStr r).fullPath).head?.any isRootPart = false at hfirst
  generalize (ofStr r).directoryPath = dir, (ofStr r).fileName = name,
    (ofStr r).fullPath = full at hshape hfirst hne ⊢
  cases hshape with
  | name => exact absurd rfl hne
  | split d f _ hd _ =>
    rw [Lines.fields_append_cons, List.head?_append_of_ne_nil _ (List.splitOn_ne_nil _ _)] at hfirst
    rw [partsOf, Lines.getlines_append_cons_eq,
      List.head?_append_of_ne_nil _ (List.splitOn_ne_nil _ _)]
    exact hfirst

/-- With a directory in the path, both spellings give the directories that a
transfer makes the same mode. -/
theorem parentMode_under (h : Relative w r) (hne : (ofStr r).directoryPath ≠ []) :
    parentMode w (ofStr (under w.cwd r)) = parentMode w (ofStr r) := by
  have hlookup := (h.directory hne).lookup_fullPath
  have hmode : (ofStr (under w.cwd (ofStr r).directoryPath)).getMode w
      = (ofStr (ofStr r).directoryPath).getMode w := by
    rw [getMode, getMode, getStat_eq (coherent_ofStr _), getStat_eq (coherent_ofStr _), World.stat,
      World.stat, hlookup]
  rw [parentMode_ofStr, parentMode_ofStr, h.directoryPath, hmode]

/-- A name alone gives them no permissions. -/
theorem parentMode_name (hdir : (ofStr r).directoryPath = []) : parentMode w (ofStr r) = 0 := by
  rw [parentMode_ofStr, hdir, show (ofStr []).getMode w = 0 from rfl, Nat.zero_and]

/-- Behind the path of the working directory, the name gives them the
permissions of the working directory. -/
theorem parentMode_cwd (h : Relative w r) (hdir : (ofStr r).directoryPath = []) {v : Node}
    (hv : w.tree.get w.cwd = some v) :
    parentMode w (ofStr (under w.cwd r)) = v.mode &&& 0o777 := by
  have hback : unify (under w.cwd []) = under w.cwd [] := by
    refine unify_of_notMem fun hmem => h.back ?_
    rw [show under w.cwd r = under w.cwd [] ++ r by simp [under]]
    exact List.mem_append_left r hmem
  have hcwd := lookup_under_nil h.isDir
  have hstat : w.stat (ofStr (under w.cwd [])).fullPath = some v :=
    stat_of_lookup ((lookup_dir_ofStr hback h.isDir).2 hcwd) hv
  rw [parentMode_ofStr, h.directoryPath, hdir, getMode, getStat_eq (coherent_ofStr _), hstat]

/-- The new directory is at the entry of the path, with the permission bits that
the mask leaves. -/
theorem mkdir_located_mode {p : Str} {e : Loc} (hlocated : located w (ofStr x) = some p)
    (hmkdir : sys.mkdir w p mode = some w') (he : w.entry (ofStr x).fullPath = some e) :
    w'.lookup (ofStr x).fullPath = some e ∧ w'.tree.IsDir e ∧
      (w'.tree.get e).map Node.mode = some (sys.masked mode) := by
  obtain ⟨q, n, -, hentry, -, -, hdir, hother, hlookup⟩ :=
    mkdir_located (coherent_ofStr x) hlocated hmkdir
  obtain rfl := Option.some.inj (he.symm.trans hentry)
  obtain ⟨l, htarget, hnone, -, -, hmade, -⟩ := System.mkdir_spec hmkdir
  have hl : l = q ++ [n] := by
    by_contra hne
    exact hmade.get_ne_none ((hother l hne).trans hnone)
  exact ⟨hlookup, hdir, System.mkdir_mode hmkdir (hl ▸ htarget)⟩

/-- `mv` into a directory leaves the directory itself as it is. -/
theorem get_of_mv_into {b : Str} {s e : Loc} {v : Node} (hv : w.tree.get s = some v)
    (hmv : sys.mv w (World.render s) b = some w') (he : w.lookup b = some e)
    (hdir : w.tree.IsDir e) : w'.tree.get e = w.tree.get e := by
  obtain ⟨d, hmove, htarget, -, -, htree⟩ := System.mv_render_spec hv hmv
  obtain ⟨m, n, rfl⟩ := (List.eq_nil_or_concat' s).resolve_left hmove.source
  rw [mvTarget_dir he hdir] at htarget
  obtain rfl := Option.some.inj htarget
  rw [htree]
  refine FileTree.get_relocate_other hmove (fun hs => ?_) fun hd => ?_
  · exact hmove.outside (hs.trans (List.prefix_append e [n]))
  · have hlength := hd.length_le
    rw [List.length_append, List.length_singleton] at hlength
    omega

/-- The directory that `move` makes for the destination has the permission bits
that the mask leaves, and it keeps them. -/
theorem move_makes_mode {s : Str} {e : Loc} (hthere : w.lookup (ofStr s).fullPath ≠ none)
    (hmakes : MakesDirectory sys w s x) (hplain : PlainMove w (ofStr s) x)
    (he : (paved sys w x).world.entry (ofStr x).fullPath = some e) :
    ((move sys w (ofStr s) x).world.tree.get e).map Node.mode
      = some (sys.masked (parentMode w (ofStr s))) := by
  obtain ⟨hfree, hneeded, hvacant⟩ := hmakes
  obtain ⟨l, hl⟩ := Option.ne_none_iff_exists'.1 hthere
  obtain ⟨v, hv, -⟩ := World.lookup_result hl
  have hpaved : Grown w (paved sys w x).world := (paved_paved sys w x).toGrown
  have hexists : ((ofStr s).checkIfExists w).mExists = true := (checkIfExists_ofStr s).2 hthere
  have hdest : ¬ (destination w x).mExists = true := fun h => destination_mExists_iff.1 h hfree
  have hdirectory : ((ofStr s).checkIfExists w).getType (paved sys w x).world = .directory ∨
      (unify x).getLast? = some '/' := by
    refine hneeded.imp_left fun ⟨l', hl', hdir⟩ => ?_
    exact (getType_eq_directory_iff hl' hpaved).2 hdir
  -- The directory is made, and the command is reached.
  obtain ⟨w₁, hmkdir⟩ := Option.isSome_iff_exists.1
    ((mkdir_located_isSome_iff (parentMode w (ofStr s))).2 hvacant)
  have hcases := prepare_cases sys w (ofStr s) x
  have hprepared : (prepare sys w (ofStr s) x).ok = true ∧
      (prepare sys w (ofStr s) x).world = w₁ := by
    rw [prepare_eq, hexists, Bool.not_true, if_neg Bool.false_ne_true, if_neg hdest,
      if_pos hdirectory, hmkdir]
    exact ⟨rfl, rfl⟩
  obtain ⟨hok, hworld⟩ := hprepared
  obtain ⟨p, hlocated⟩ : ∃ p, located (paved sys w x).world (ofStr x) = some p := by
    refine Option.ne_none_iff_exists'.1 fun hnone => ?_
    rw [hnone, Option.getD_none, mkdir_nil] at hmkdir
    cases hmkdir
  rw [hlocated, Option.getD_some] at hmkdir
  obtain ⟨hlookup, hdir, hmode⟩ := mkdir_located_mode hlocated hmkdir he
  -- The command leaves it as it is.
  have hplainArgs : (LibCommand.move (World.render l) x).PlainArgs :=
    hplain _ (World.realpath_of_lookup hl)
  have hx : unify x = x :=
    unify_of_plainWord (hplainArgs.1 x (by simp [LibCommand.args, LibCommand.lastArg]))
  obtain ⟨-, hmoved⟩ := move_of_prepared rfl hok
  rw [hcases.newpath_eq hok, hx, sourcePath_eq hcases hok (coherent_ofStr s) hl, hworld,
    (execCommand_move sys w₁ hplainArgs).2] at hmoved
  rw [hmoved, ← hmode]
  split
  · cases hmv : sys.mv w₁ (World.render l) x with
    | none => rfl
    | some w₂ =>
      have hgrown : Grown w w₁ := hworld ▸ hcases.paved.toGrown
      rw [Option.getD_some, get_of_mv_into (hgrown.ext l v hv) hmv
        ((lookup_dir_ofStr hx hdir).1 hlookup) hdir]
  · rfl

/-! ## When the two spellings are the same -/

/-- What differs between the two spellings does not matter: the path is no name
alone; or it is there, and a directory that a transfer of it makes would have no
permissions either way. -/
def SpellsAlike (sys : System) (w : World) (r dst : Str) : Prop :=
  (ofStr r).directoryPath ≠ [] ∨
    (w.lookup (ofStr r).fullPath ≠ none ∧
      (MakesDirectory sys w r dst → ∀ v, w.tree.get w.cwd = some v →
        sys.masked (v.mode &&& 0o777) = 0))

theorem masked_zero (sys : System) : sys.masked 0 = 0 :=
  Nat.zero_and _

theorem SpellsAlike.found (h : SpellsAlike sys w r x) : Found w r := h.imp_right And.left

/-- Then transfers make the same directory. -/
theorem SpellsAlike.mkdir_eq (h : SpellsAlike sys w r x) (hr : Relative w r)
    (hfree : w.lookup (ofStr x).fullPath = none)
    (hneeded : ((ofStr r).checkIfExists w).getType (paved sys w x).world = .directory ∨
      (unify x).getLast? = some '/') :
    sys.mkdir (paved sys w x).world ((located (paved sys w x).world (ofStr x)).getD [])
        (parentMode w (ofStr (under w.cwd r)))
      = sys.mkdir (paved sys w x).world ((located (paved sys w x).world (ofStr x)).getD [])
        (parentMode w (ofStr r)) := by
  by_cases hdir : (ofStr r).directoryPath = []
  · obtain ⟨hthere, hmasked⟩ := h.resolve_left (not_not.2 hdir)
    by_cases hvacant : Vacant sys (paved sys w x).world x
    · obtain ⟨v, hv⟩ := Option.ne_none_iff_exists'.1 hr.isDir.get_ne_none
      obtain ⟨l, hl⟩ := Option.ne_none_iff_exists'.1 hthere
      have hmakes : MakesDirectory sys w r x := by
        refine ⟨hfree, hneeded.imp_left fun htype => ⟨l, hl, ?_⟩, hvacant⟩
        exact (getType_eq_directory_iff hl (paved_paved sys w x).toGrown).1 htype
      apply System.mkdir_congr
      rw [parentMode_cwd hr hdir hv, parentMode_name hdir, hmasked hmakes v hv, masked_zero]
    · have hnone : ∀ mode, sys.mkdir (paved sys w x).world
          ((located (paved sys w x).world (ofStr x)).getD []) mode = none := by
        intro mode
        rw [← Option.not_isSome_iff_eq_none, mkdir_located_isSome_iff]
        exact hvacant
      rw [hnone, hnone]
  · rw [parentMode_under hr hdir]

/-- When the spellings of a name make different directories, `move` leaves
different ones behind. -/
theorem masked_of_same (hr : Relative w r) (hdir : (ofStr r).directoryPath = [])
    (hthere : w.lookup (ofStr r).fullPath ≠ none) (hmakes : MakesDirectory sys w r x)
    (hplain : PlainMove w (ofStr r) x)
    (hsame : SameOutcome (move sys w (ofStr r) x) (move sys w (ofStr (under w.cwd r)) x)) {v : Node}
    (hv : w.tree.get w.cwd = some v) : sys.masked (v.mode &&& 0o777) = 0 := by
  obtain ⟨hfree, hneeded, hvacant⟩ := hmakes
  obtain ⟨-, e, he, -, -⟩ := id hvacant
  have hlookup := hr.lookup_fullPath
  have hmakes' : MakesDirectory sys w (under w.cwd r) x := by
    rw [← hlookup] at hneeded
    exact ⟨hfree, hneeded, hvacant⟩
  have hplain' : PlainMove w (ofStr (under w.cwd r)) x := by
    intro p hp
    rw [World.realpath, hlookup] at hp
    exact hplain p hp
  have hmode := move_makes_mode hthere ⟨hfree, hneeded, hvacant⟩ hplain he
  have hmode' := move_makes_mode (hlookup.trans_ne hthere) hmakes' hplain' he
  rw [hsame.tree e, hmode', parentMode_cwd hr hdir hv, parentMode_name hdir, masked_zero] at hmode
  exact Option.some.inj hmode

/-- The path spelled relative to the working directory can take the place of the
path in full, and the other way round: for `getAbsolutePath`, as the source of a
transfer to `dst`, and as the destination of a transfer of `src`. -/
structure Interchangeable (sys : System) (w : World) (r src dst : Str) : Prop where
  absolute : ((ofStr r).getAbsolutePath sys w).1.mRealPath
    = ((ofStr (under w.cwd r)).getAbsolutePath sys w).1.mRealPath
  moveFrom : SameOutcome (move sys w (ofStr r) dst) (move sys w (ofStr (under w.cwd r)) dst)
  copyFrom : SameOutcome (copy sys w (ofStr r) dst) (copy sys w (ofStr (under w.cwd r)) dst)
  moveTo : SameOutcome (move sys w (ofStr src) r) (move sys w (ofStr src) (under w.cwd r))
  copyTo : SameOutcome (copy sys w (ofStr src) r) (copy sys w (ofStr src) (under w.cwd r))

/-- The paths can be written into a command: nothing in them is special to the
shell, and the relative path is not taken for an option. -/
structure PlainSpellings (w : World) (r src dst : Str) : Prop where
  source : PlainMove w (ofStr r) dst
  destination : PlainMove w (ofStr src) r
  full : PlainMove w (ofStr src) (under w.cwd r)
  noOption : r.head? ≠ some '-' ∧ dst.head? ≠ some '-'

/-- The two spellings of a path are interchangeable exactly when they spell
alike. -/
theorem interchangeable_iff (sys : System) (w : World) (r src dst : Str)
    (hrelative : Relative w r) (hplain : PlainSpellings w r src dst)
    (hcp : CopiesAlike sys w r) :
    Interchangeable sys w r src dst ↔ SpellsAlike sys w r dst := by
  constructor
  · intro hsame
    have hfound : Found w r := (getAbsolutePath_under_iff hrelative).1 hsame.absolute
    by_cases hdir : (ofStr r).directoryPath = []
    · have hthere := hfound.resolve_left (not_not.2 hdir)
      refine Or.inr ⟨hthere, fun hmakes v hv => ?_⟩
      exact masked_of_same hrelative hdir hthere hmakes hplain.source hsame.moveFrom hv
    · exact Or.inl hdir
  · intro hspells
    obtain ⟨hmove, hcopy⟩ := same_from_under hrelative (hspells.mkdir_eq hrelative)
    obtain ⟨hmoved, hcopied⟩ := same_to_under hrelative hspells.found hplain.destination
      hplain.full hcp
    exact ⟨(getAbsolutePath_under_iff hrelative).2 hspells.found, hmove, hcopy, hmoved, hcopied⟩

/-- `cp` of a file to a file, which is made when it is not there. -/
def copyFile (w : World) (src dst : Str) : Bool × FileTree × Str :=
  match w.stat src with
  | some ⟨.regular, mode, content, _⟩ =>
    match System.granting.creat w dst mode with
    | some (l, w') => (true, (System.write w' l content).tree, [])
    | none => (false, w.tree, [])
  | _ => (false, w.tree, [])

/-- A system that copies files. -/
def copying : System :=
  { System.granting with
    other := fun text w =>
      match (Sh.readCommand text).map Sh.Command.argv with
      | some [program, flags, src, dst] =>
        if program = LibCommand.cp ∧ flags = LibCommand.rf then copyFile w src dst
        else (false, w.tree, [])
      | _ => (false, w.tree, []) }

theorem copying_other {src dst : Str} (h : (LibCommand.copy src dst).PlainArgs) (fd : Nat)
    (w : World) :
    copying.other ((LibCommand.copy src dst).shell.handedText fd) w = copyFile w src dst := by
  simp only [copying, LibCommand.readCommand_of_plainArgs h fd]
  exact if_pos ⟨rfl, rfl⟩

/-- Such a `cp` finds its destination through both spellings. -/
theorem copiesAlike_copying (h : Relative w r) : CopiesAlike copying w r := by
  intro w' l fd hcwd hdir hplain hplain'
  have hsame : copyFile w' (World.render l) (under w.cwd r) = copyFile w' (World.render l) r := by
    unfold copyFile
    simp only [← hcwd, System.creat_under System.granting hdir h.head?_ne h.ne]
  rw [copying_other hplain, copying_other hplain', hsame]
  exact ⟨rfl, rfl⟩

/-- The working directory is `/dir`, which holds the file `sub/f`; there is another file. -/
def subWorld : World :=
  ⟨(World.ofList [(["dir"], .directory), (["dir", "sub"], .directory),
      (["dir", "sub", "f"], .regular), (["g"], .regular)]).tree,
    ["dir"].filterMap fun s => Name.ofText s.toList, 0⟩

/-- The file has a directory part, so its spellings are interchangeable, as the source of
transfers to `/new` and as the destination of transfers of the other file. -/
theorem interchangeable_iff_sub :
    Interchangeable copying subWorld "sub/f".toList "/g".toList "/new".toList ↔
      SpellsAlike copying subWorld "sub/f".toList "/new".toList :=
  have hrelative : Relative subWorld "sub/f".toList :=
    ⟨by decide, by decide, by decide, by decide⟩
  interchangeable_iff copying subWorld "sub/f".toList "/g".toList "/new".toList hrelative
    ⟨plainMove_of_realpath (by decide : _ = some "/dir/sub/f".toList) (by decide),
      plainMove_of_realpath (by decide : _ = some "/g".toList) (by decide),
      plainMove_of_realpath (by decide : _ = some "/g".toList) (by decide), by decide⟩
    (copiesAlike_copying hrelative)

/-- A name that is not there has no absolute path, unless the working directory
is spelled out. -/
theorem not_interchangeable_of_name :
    ¬ ∀ (sys : System) (w : World) (r src dst : Str), Relative w r →
      PlainSpellings w r src dst → CopiesAlike sys w r → Interchangeable sys w r src dst := by
  intro h
  have hplain : ∀ {s dst : Str}, subWorld.realpath (ofStr s).fullPath = none →
      PlainMove subWorld (ofStr s) dst := by
    intro s dst hnone p hp
    rw [hnone] at hp
    cases hp
  have hsame := (h System.granting subWorld "name".toList "/none".toList "/new".toList
    ⟨by decide, by decide, by decide, by decide⟩
    ⟨hplain (by decide), hplain (by decide), hplain (by decide), by decide⟩
    fun _ _ _ _ _ _ _ => ⟨rfl, rfl⟩).absolute
  have hrelative : ((ofStr "name".toList).getAbsolutePath System.granting subWorld).1.mRealPath
      = [] := by decide
  have hfull : ((ofStr (under subWorld.cwd "name".toList)).getAbsolutePath System.granting
      subWorld).1.mRealPath = "/dir/name".toList := by decide
  rw [hrelative, hfull] at hsame
  exact absurd hsame (by decide)

end FsObject

end SysFs
