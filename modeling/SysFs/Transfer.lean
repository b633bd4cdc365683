import SysFs.Execute

/-!
# Before and after the command of a transfer

`move` and `copy` check both paths, make directories for the destination, and
run a command.  Nothing takes the directories back when a later step fails, so
a failed transfer can leave directories behind; `transfer_failed_paved` says
that it leaves nothing else: every entry is as it was, and each new one is a
directory that some beginning of the destination leads to.

`located_cases` says which absolute path `getAbsolutePath` gives, and
`prepare_cases` what the steps before the command do.
-/

namespace SysFs

open Posix

namespace FsObject

variable {sys : System} {w w' : World} {o : FsObject} {mode : Nat} {dst : Str}

/-! ## The absolute path as a location -/

/-- The absolute path is the one of the location that the full path leads to.
When it leads nowhere, it is the one of its entry, a name in a directory where
nothing is or a link. -/
theorem located_cases {r : Str} (hc : o.Coherent) (h : located w o = some r) :
    (∃ l, w.lookup o.fullPath = some l ∧ r = World.render l) ∨
    (w.lookup o.fullPath = none ∧ ∃ q n, w.lookup o.directoryPath = some q ∧
      w.tree.IsDir q ∧ o.fileName = n.1 ∧ w.entry o.fullPath = some (q ++ [n]) ∧
      (∀ kind, w.tree.kindAt (q ++ [n]) = some kind → kind.IsLink) ∧
      r = World.render q ++ '/' :: n.1) := by
  unfold located at h
  cases hfull : w.lookup o.fullPath with
  | some l =>
    rw [World.realpath_of_lookup hfull] at h
    exact Or.inl ⟨l, rfl, (Option.some.inj h).symm⟩
  | none =>
    rw [World.realpath_of_missing hfull] at h
    obtain ⟨r', hr', rfl⟩ := Option.map_eq_some_iff.1 h
    obtain ⟨q, hq, rfl⟩ := Option.map_eq_some_iff.1 hr'
    refine Or.inr ⟨rfl, ?_⟩
    obtain ⟨n, hname, hdir, hentry, hkind⟩ := hc.shape.name_of_lookup hfull hq
    exact ⟨q, n, hq, hdir, hname, hentry, hkind, by simp [slash, hname]⟩

/-- `mkdir` of an absolute path makes a directory that the full path leads to
afterwards. -/
theorem mkdir_located {r : Str} (hc : o.Coherent) (h : located w o = some r)
    (hmkdir : sys.mkdir w r mode = some w') :
    ∃ q n, o.fileName = n.1 ∧ w.entry o.fullPath = some (q ++ [n]) ∧
      w.tree.get (q ++ [n]) = none ∧ Grown w w' ∧ w'.tree.IsDir (q ++ [n]) ∧
      (∀ x, x ≠ q ++ [n] → w'.tree.get x = w.tree.get x) ∧
      w'.lookup o.fullPath = some (q ++ [n]) := by
  obtain ⟨l, htarget, hnone, hext, hcwd, hdir, hother, -⟩ := System.mkdir_spec hmkdir
  rcases located_cases hc h with ⟨m, hm, rfl⟩ | ⟨-, q, n, -, hq, hname, hentry, -, rfl⟩
  · obtain ⟨v, hv, -⟩ := World.lookup_result hm
    rcases eq_or_ne m [] with rfl | hne
    · exact absurd htarget (by simp [show w.target (World.render []) = none from rfl])
    · have hdrop : w.tree.IsDir m.dropLast :=
        FileTree.isDir_dropLast_of_get hne (by simp [hv])
      have hm' := World.target_of_entry (World.entry_render hdrop hne)
      rw [hm'] at htarget
      rw [Option.some.inj htarget, hnone] at hv
      cases hv
  · have hr := World.target_of_entry (World.entry_render_concat (n := n) hq)
    rw [hr] at htarget
    obtain rfl := Option.some.inj htarget
    exact ⟨q, n, hname, hentry, hnone, ⟨hext, hcwd⟩, hdir, hother,
      World.lookup_of_target (World.target_of_entry (World.entry_grow hentry hext hcwd)) hdir⟩

/-! ## The steps before the command -/

theorem coherent_ofStr (s : Str) : (ofStr s).Coherent :=
  Path.Coherent.of_setPath Path.empty s

/-- An object without a type is not created; only its directory is. -/
theorem create_of_uknown (h : o.mType = .uknown) (hc : o.Coherent) :
    create sys w o mode = ⟨false, (makePath sys w o defaultMode).obj,
      (makePath sys w o defaultMode).world, false⟩ := by
  have htype : (makePath sys w o defaultMode).obj.mType = .uknown := by
    rw [(makePath_kept hc).type, h]
  unfold create createLoop
  simp [htype]

theorem mkdir_nil : sys.mkdir w [] mode = none := rfl

/-- `mkdir` of what `getAbsolutePath` gives for an object without an old
absolute path. -/
theorem mkdir_getAbsolutePath (hc : o.Coherent) (hreal : o.mRealPath = [])
    (hmkdir : sys.mkdir (getAbsolutePath sys w o).2 (getAbsolutePath sys w o).1.mRealPath mode
      = some w') :
    ∃ q n, o.fileName = n.1 ∧
      (getAbsolutePath sys w o).2.entry o.fullPath = some (q ++ [n]) ∧
      (getAbsolutePath sys w o).2.tree.get (q ++ [n]) = none ∧
      Grown (getAbsolutePath sys w o).2 w' ∧ w'.tree.IsDir (q ++ [n]) ∧
      (∀ x, x ≠ q ++ [n] → w'.tree.get x = (getAbsolutePath sys w o).2.tree.get x) ∧
      w'.lookup o.fullPath = some (q ++ [n]) := by
  rw [getAbsolutePath_mRealPath hc, hreal] at hmkdir
  cases hlocated : located (getAbsolutePath sys w o).2 o with
  | none =>
    rw [hlocated, Option.getD_none, mkdir_nil] at hmkdir
    cases hmkdir
  | some r =>
    rw [hlocated, Option.getD_some] at hmkdir
    exact mkdir_located hc hlocated hmkdir

/-- The destination, before anything is made for it. -/
def destination (w : World) (dst : Str) : FsObject := (ofStr dst).checkIfExists w

theorem kept_destination (w : World) (dst : Str) : Kept (ofStr dst) (destination w dst) :=
  kept_checkIfExists (coherent_ofStr dst) w

/-- An object without a type fits everything, so a destination exists when its
full path leads somewhere. -/
theorem destination_mExists_iff :
    (destination w dst).mExists = true ↔ w.lookup (ofStr dst).fullPath ≠ none := by
  rw [destination, checkIfExists_of_not_mExists (coherent_ofStr dst) rfl, Present]
  constructor
  · rintro ⟨v, hv, -⟩ hnone
    rw [World.stat_eq_none_iff.2 hnone] at hv
    cases hv
  · intro hne
    obtain ⟨v, hv⟩ := Option.ne_none_iff_exists'.1 (mt World.stat_eq_none_iff.1 hne)
    exact ⟨v, hv, rfl⟩

/-- The destination after its directories were made. -/
def paved (sys : System) (w : World) (dst : Str) : Outcome :=
  makePath sys w (destination w dst) defaultMode

theorem kept_paved (sys : System) (w : World) (dst : Str) :
    Kept (ofStr dst) (paved sys w dst).obj :=
  (kept_destination w dst).trans (makePath_kept (kept_destination w dst).coherent)

theorem paved_mRealPath (sys : System) (w : World) (dst : Str) :
    (paved sys w dst).obj.mRealPath = [] := by
  rw [paved, makePath_mRealPath (kept_destination w dst).coherent, destination,
    checkIfExists_mRealPath]
  rfl

theorem paved_paved (sys : System) (w : World) (dst : Str) :
    Paved (ofStr dst).directoryPath w (paved sys w dst).world := by
  have h : Paved (destination w dst).directoryPath w (paved sys w dst).world :=
    makePath_paved (kept_destination w dst).coherent
  rwa [(kept_destination w dst).directoryPath (coherent_ofStr dst)] at h

/-- The directories of a destination are made by the time its absolute path is
asked for. -/
theorem paved_again (sys : System) (w : World) (l : Str) :
    ((paved sys w l).obj.getAbsolutePath sys (paved sys w l).world).2 = (paved sys w l).world := by
  rw [getAbsolutePath_world]
  exact makePath_again (kept_destination w l).coherent

/-- The absolute path of a destination is the one of its string. -/
theorem paved_absolute (sys : System) (w : World) (l : Str) :
    ((paved sys w l).obj.getAbsolutePath sys (paved sys w l).world).1.mRealPath
      = (located (paved sys w l).world (ofStr l)).getD [] := by
  have hkept := kept_paved sys w l
  rw [getAbsolutePath_mRealPath hkept.coherent, paved_again, paved_mRealPath, located, located,
    hkept.fullPath (coherent_ofStr l), hkept.directoryPath (coherent_ofStr l),
    hkept.fileName (coherent_ofStr l)]

/-- What is made for a destination is what is made for its string. -/
theorem paved_world (sys : System) (w : World) (l : Str) :
    (paved sys w l).world = (makePath sys w (ofStr l) defaultMode).world := by
  have hkept := kept_destination w l
  cases hm : (destination w l).mExists with
  | true =>
    have hagain : ((destination w l).checkIfExists w).mExists = true := by
      rw [checkIfExists_of_mExists hm]
      exact hm
    rw [paved, makePath_of_exists hagain, makePath_of_exists (o := ofStr l) hm]
  | false =>
    have hagain : ((destination w l).checkIfExists w).mExists = false := by
      rw [Bool.eq_false_iff, Ne, checkIfExists_of_not_mExists hkept.coherent hm,
        hkept.present_iff (coherent_ofStr l),
        ← checkIfExists_of_not_mExists (coherent_ofStr l) rfl, ← Ne, ← Bool.eq_false_iff]
      exact hm
    rw [paved, makePath_of_not_exists hkept.coherent hagain,
      makePath_of_not_exists (coherent_ofStr l) hm, hkept.directoryPath (coherent_ofStr l)]

/-- The mode that the directory of a destination gets. -/
def parentMode (w : World) (o : FsObject) : Nat :=
  (ofStr (o.checkIfExists w).directoryPath).getMode w &&& 0o777

/-- What a transfer has done when it comes to its command: nothing, when it
stops or the destination is there; otherwise the directories on the way to the
destination, and the destination itself where it has to be a directory. -/
inductive PrepareCases (sys : System) (w : World) (o : FsObject) (dst : Str) : Prepared → Prop
  | stops (newpath : FsObject) :
      PrepareCases sys w o dst ⟨false, o.checkIfExists w, newpath, w⟩
  | there (hexists : (o.checkIfExists w).mExists = true)
      (hdst : (destination w dst).mExists = true)
      (hfits : (destination w dst).getType w = .directory ∨
        (o.checkIfExists w).getType w ≠ .directory) :
      PrepareCases sys w o dst ⟨true, o.checkIfExists w, destination w dst, w⟩
  | fails (hexists : (o.checkIfExists w).mExists = true)
      (hdst : (destination w dst).mExists = false) :
      PrepareCases sys w o dst ⟨false, o.checkIfExists w,
        ((paved sys w dst).obj.getAbsolutePath sys (paved sys w dst).world).1,
        ((paved sys w dst).obj.getAbsolutePath sys (paved sys w dst).world).2⟩
  | directory {w' : World} (hexists : (o.checkIfExists w).mExists = true)
      (hdst : (destination w dst).mExists = false)
      (hneeded : (o.checkIfExists w).getType (paved sys w dst).world = .directory ∨
        (unify dst).getLast? = some '/')
      (hmkdir : sys.mkdir ((paved sys w dst).obj.getAbsolutePath sys (paved sys w dst).world).2
        ((paved sys w dst).obj.getAbsolutePath sys (paved sys w dst).world).1.mRealPath
        (parentMode w o) = some w') :
      PrepareCases sys w o dst ⟨true, o.checkIfExists w,
        ((paved sys w dst).obj.getAbsolutePath sys (paved sys w dst).world).1, w'⟩
  | parents (hexists : (o.checkIfExists w).mExists = true)
      (hdst : (destination w dst).mExists = false)
      (hplain : (o.checkIfExists w).getType (paved sys w dst).world ≠ .directory ∧
        (unify dst).getLast? ≠ some '/') :
      PrepareCases sys w o dst
        ⟨true, o.checkIfExists w, (paved sys w dst).obj, (paved sys w dst).world⟩

/-- What a transfer does before its command, with the directories of the
destination and the place of it named. -/
theorem prepare_eq (sys : System) (w : World) (o : FsObject) (dst : Str) :
    prepare sys w o dst =
      if !(o.checkIfExists w).mExists then ⟨false, o.checkIfExists w, ofStr dst, w⟩
      else if (destination w dst).mExists then
        if (destination w dst).getType w ≠ .directory ∧
            (o.checkIfExists w).getType w = .directory then
          ⟨false, o.checkIfExists w, destination w dst, w⟩
        else ⟨true, o.checkIfExists w, destination w dst, w⟩
      else if (o.checkIfExists w).getType (paved sys w dst).world = .directory ∨
          (unify dst).getLast? = some '/' then
        match sys.mkdir (paved sys w dst).world
            ((located (paved sys w dst).world (ofStr dst)).getD []) (parentMode w o) with
        | none => ⟨false, o.checkIfExists w,
            ((paved sys w dst).obj.getAbsolutePath sys (paved sys w dst).world).1,
            (paved sys w dst).world⟩
        | some w' => ⟨true, o.checkIfExists w,
            ((paved sys w dst).obj.getAbsolutePath sys (paved sys w dst).world).1, w'⟩
      else ⟨true, o.checkIfExists w, (paved sys w dst).obj, (paved sys w dst).world⟩ := by
  have htype : (destination w dst).mType = .uknown := (kept_destination w dst).type
  have hcreate : ∀ mode, create sys w (destination w dst) mode
      = ⟨false, (paved sys w dst).obj, (paved sys w dst).world, false⟩ :=
    fun mode => create_of_uknown htype (kept_destination w dst).coherent
  have hnative : (paved sys w dst).obj.toNative = unify dst := (kept_paved sys w dst).path
  rw [← paved_absolute, prepare]
  simp only [show (ofStr dst).checkIfExists w = destination w dst from rfl, hcreate, hnative,
    paved_again]
  rfl

/-- Those are all the ways in which a transfer comes to its command. -/
theorem prepare_cases (sys : System) (w : World) (o : FsObject) (dst : Str) :
    PrepareCases sys w o dst (prepare sys w o dst) := by
  rw [prepare_eq, ← paved_absolute]
  split
  · exact PrepareCases.stops _
  · rename_i hexists
    simp only [Bool.not_eq_true', Bool.not_eq_false] at hexists
    split
    · rename_i hdst
      split
      · exact PrepareCases.stops _
      · rename_i hfits
        refine PrepareCases.there hexists hdst ?_
        by_cases h : (destination w dst).getType w = .directory
        · exact Or.inl h
        · exact Or.inr fun hd => hfits ⟨h, hd⟩
    · rename_i hdst
      rw [Bool.not_eq_true] at hdst
      split
      · rename_i hneeded
        split
        · have hfails : PrepareCases sys w o dst _ := PrepareCases.fails hexists hdst
          rwa [paved_again] at hfails
        · rename_i w' hmkdir
          refine PrepareCases.directory hexists hdst hneeded ?_
          rwa [paved_again]
      · rename_i hplain
        exact PrepareCases.parents hexists hdst (not_or.1 hplain)

/-- The absolute path of a destination is asked for on the way that is made for
it already. -/
theorem absolute_paved (sys : System) (w : World) (dst : Str) :
    Paved (ofStr dst).fullPath w
      ((paved sys w dst).obj.getAbsolutePath sys (paved sys w dst).world).2 := by
  rw [paved_again]
  exact (paved_paved sys w dst).mono (coherent_ofStr dst).shape.prefix_full

namespace PrepareCases

variable {p : Prepared} (h : PrepareCases sys w o dst p)

include h

/-- Before its command, a transfer only makes directories on the way to the
destination. -/
theorem paved : Paved (ofStr dst).fullPath w p.world := by
  cases h with
  | stops => exact Paved.refl _ w
  | there => exact Paved.refl _ w
  | fails => exact absolute_paved sys w dst
  | parents =>
    exact (paved_paved sys w dst).mono (coherent_ofStr dst).shape.prefix_full
  | directory hexists hdst hneeded hmkdir =>
    have hkept := kept_paved sys w dst
    obtain ⟨q, n, -, -, -, hgrown, hdir, hother, hlookup⟩ :=
      mkdir_getAbsolutePath hkept.coherent (paved_mRealPath sys w dst) hmkdir
    rw [hkept.fullPath (coherent_ofStr dst)] at hlookup
    refine (absolute_paved sys w dst).trans ⟨hgrown, fun l hnone hne => ?_⟩
    rcases eq_or_ne l (q ++ [n]) with rfl | hl
    · exact ⟨hdir, _, List.prefix_rfl, hlookup⟩
    · rw [hother l hl] at hne
      exact absurd hnone hne

theorem obj_eq : p.obj = o.checkIfExists w := by
  cases h <;> rfl

/-- A transfer comes to its command only with a source that is cached as
there. -/
theorem mExists (hok : p.ok = true) : (o.checkIfExists w).mExists = true := by
  cases h with
  | stops => cases hok
  | there hexists => exact hexists
  | fails => cases hok
  | directory hexists => exact hexists
  | parents hexists => exact hexists

/-- The source is there, so its absolute path is asked for without making
anything. -/
theorem absolute_world (hok : p.ok = true) :
    (p.obj.getAbsolutePath sys p.world).2 = p.world := by
  have hexists := h.mExists hok
  refine getAbsolutePath_of_exists ?_
  rw [h.obj_eq, checkIfExists_of_mExists hexists]
  exact hexists

end PrepareCases

/-! ## Transfers that fail -/

/-- The other commands change nothing when they fail. -/
def FailsClean (sys : System) : Prop :=
  ∀ text w, (sys.other text w).1 = false → (sys.other text w).2.1 = w.tree

/-- A text that fails leaves the tree as it was. -/
theorem run_failed (hclean : FailsClean sys) {text : Str} (h : (sys.run w text).1 = false) :
    (sys.run w text).2.1.tree = w.tree ∧ (sys.run w text).2.1.cwd = w.cwd := by
  unfold System.run at h ⊢
  split at h
  · rename_i r hr
    obtain ⟨c, -, hcommand⟩ := Option.bind_eq_some_iff.1 hr
    unfold System.command at hcommand
    split at hcommand
    · split at hcommand
      · split at hcommand <;> obtain rfl := Option.some.inj hcommand <;> exact ⟨rfl, rfl⟩
      · cases hcommand
    · split at hcommand
      · obtain rfl := Option.some.inj hcommand
        rw [Option.isSome_eq_false_iff, Option.isNone_iff_eq_none] at h
        simp [h]
      · split at hcommand
        · obtain rfl := Option.some.inj hcommand
          rw [Option.isSome_eq_false_iff, Option.isNone_iff_eq_none] at h
          simp [h]
        · cases hcommand
    · cases hcommand
  · exact ⟨hclean text w h, rfl⟩

/-- A command that fails leaves the tree as it was. -/
theorem execCommand_failed (hclean : FailsClean sys) {cmd : Str}
    (h : (execCommand sys w cmd).ok = false) :
    (execCommand sys w cmd).world.tree = w.tree ∧ (execCommand sys w cmd).world.cwd = w.cwd := by
  unfold execCommand runShell at h ⊢
  generalize Shell.ofCommand sys.shellAvailable cmd = sh at h ⊢
  split
  · exact ⟨rfl, rfl⟩
  · rename_i hrun
    rw [if_neg hrun] at h
    generalize sh.handedText ((sys.pipe w.clock).getD 0) = text at h ⊢
    cases hok : (sys.run w text).1 with
    | false => simpa [hok] using run_failed hclean hok
    | true =>
      -- A text that succeeds gives a status that says so.
      simp only [not_or, Bool.not_eq_true', Bool.not_eq_false] at hrun
      have hcommand : sh.mCommand ≠ [] := by simpa using hrun.2.1
      have hstatus := fun a => Shell.execute_mExecStatus hrun.1 hcommand a
      dsimp only at h
      split at h <;> simp [hok, hstatus] at h

/-- The absolute path of the source, when the command is put together. -/
def sourcePath (sys : System) (p : Prepared) : Str :=
  (p.obj.getAbsolutePath sys p.world).1.mRealPath

/-- The path of the source in the command is the one of its location. -/
theorem sourcePath_eq {p : Prepared} (h : PrepareCases sys w o dst p) (hok : p.ok = true)
    (hc : o.Coherent) {l : Loc} (hl : w.lookup o.fullPath = some l) :
    sourcePath sys p = World.render l := by
  have hkept := kept_checkIfExists hc w
  have hexists := h.mExists hok
  have hagain : (p.obj.checkIfExists p.world).mExists = true := by
    rw [h.obj_eq, checkIfExists_of_mExists hexists]
    exact hexists
  refine (getAbsolutePath_of_lookup sys ?_ hagain ?_).1
  · rw [h.obj_eq]
    exact hkept.coherent
  · rw [h.obj_eq, hkept.fullPath hc]
    exact h.paved.toGrown.lookup hl

theorem move_of_stopped (h : (prepare sys w o dst).ok = false) :
    (move sys w o dst).ok = false ∧ (move sys w o dst).world = (prepare sys w o dst).world := by
  unfold move
  dsimp only
  rw [if_pos (by simp [h])]
  exact ⟨rfl, rfl⟩

theorem copy_of_stopped (h : (prepare sys w o dst).ok = false) :
    (copy sys w o dst).ok = false ∧ (copy sys w o dst).world = (prepare sys w o dst).world := by
  unfold copy
  dsimp only
  rw [if_pos (by simp [h])]
  exact ⟨rfl, rfl⟩

/-- When nothing stops it, `move` does what its command does. -/
theorem move_of_prepared {p : Prepared} (hp : prepare sys w o dst = p) (hok : p.ok = true) :
    (move sys w o dst).ok = (execCommand sys p.world
      (LibCommand.move (sourcePath sys p) p.newpath.toNative).text).ok ∧
    (move sys w o dst).world = (execCommand sys p.world
      (LibCommand.move (sourcePath sys p) p.newpath.toNative).text).world := by
  have hcases : PrepareCases sys w o dst p := hp ▸ prepare_cases sys w o dst
  unfold move sourcePath
  dsimp only
  rw [hp, if_neg (by simp [hok]), hcases.absolute_world hok]
  split
  · rename_i hcmd
    rw [Bool.not_eq_true'] at hcmd
    exact ⟨hcmd.symm, rfl⟩
  · rename_i hcmd
    rw [Bool.not_eq_true', Bool.not_eq_false] at hcmd
    exact ⟨hcmd.symm, rfl⟩

/-- When nothing stops it, `copy` does what its command does. -/
theorem copy_of_prepared {p : Prepared} (hp : prepare sys w o dst = p) (hok : p.ok = true) :
    (copy sys w o dst).ok = (execCommand sys p.world
      (LibCommand.copy (sourcePath sys p) p.newpath.toNative).text).ok ∧
    (copy sys w o dst).world = (execCommand sys p.world
      (LibCommand.copy (sourcePath sys p) p.newpath.toNative).text).world := by
  have hcases : PrepareCases sys w o dst p := hp ▸ prepare_cases sys w o dst
  unfold copy sourcePath
  dsimp only
  rw [hp, if_neg (by simp [hok]), hcases.absolute_world hok]
  exact ⟨rfl, rfl⟩

/-- A transfer that fails has only made directories on the way to its
destination. -/
theorem transfer_failed_paved (sys : System) (hclean : FailsClean sys) (w : World)
    (o : FsObject) (dst : Str) :
    ((move sys w o dst).ok = false → Paved (ofStr dst).fullPath w (move sys w o dst).world) ∧
    ((copy sys w o dst).ok = false → Paved (ofStr dst).fullPath w (copy sys w o dst).world) := by
  have hpaved := (prepare_cases sys w o dst).paved
  cases hok : (prepare sys w o dst).ok with
  | false =>
    rw [(move_of_stopped hok).2, (copy_of_stopped hok).2]
    exact ⟨fun _ => hpaved, fun _ => hpaved⟩
  | true =>
    obtain ⟨hmove, hmoved⟩ := move_of_prepared rfl hok
    obtain ⟨hcopy, hcopied⟩ := copy_of_prepared rfl hok
    rw [hmove, hmoved, hcopy, hcopied]
    constructor <;> intro hfail
    · obtain ⟨htree, hcwd⟩ := execCommand_failed hclean hfail
      exact hpaved.of_tree_eq htree hcwd
    · obtain ⟨htree, hcwd⟩ := execCommand_failed hclean hfail
      exact hpaved.of_tree_eq htree hcwd

theorem failsClean_granting : FailsClean System.granting := fun _ _ _ => rfl

/-- A tree that holds the directory `/dir`. -/
def dirWorld : World := World.ofList [(["dir"], .directory)]

/-- Moving `/dir` into itself fails after `/dir/sub` was made. -/
theorem not_untouched_of_failed_transfer :
    ¬ ∀ (sys : System), FailsClean sys → ∀ (w : World) (o : FsObject) (dst : Str),
      ((move sys w o dst).ok = false → (move sys w o dst).world.tree = w.tree) ∧
      ((copy sys w o dst).ok = false → (copy sys w o dst).world.tree = w.tree) := by
  intro h
  have hsame := (h System.granting failsClean_granting dirWorld (ofStr "/dir".toList)
    "/dir/sub/".toList).1 (by decide)
  have hbefore : dirWorld.tree.get (["dir", "sub"].filterMap fun s => Name.ofText s.toList)
      = none := by decide
  have hafter : (move System.granting dirWorld (ofStr "/dir".toList)
      "/dir/sub/".toList).world.tree.get
        (["dir", "sub"].filterMap fun s => Name.ofText s.toList) ≠ none := by decide
  rw [hsame] at hafter
  exact hafter hbefore

/-- The directory that is left is one on the way to the destination. -/
theorem transfer_failed_paved_dir :
    ((move System.granting dirWorld (ofStr "/dir".toList) "/dir/sub/".toList).ok = false →
      Paved (ofStr "/dir/sub/".toList).fullPath dirWorld
        (move System.granting dirWorld (ofStr "/dir".toList) "/dir/sub/".toList).world) ∧
    ((copy System.granting dirWorld (ofStr "/dir".toList) "/dir/sub/".toList).ok = false →
      Paved (ofStr "/dir/sub/".toList).fullPath dirWorld
        (copy System.granting dirWorld (ofStr "/dir".toList) "/dir/sub/".toList).world) :=
  transfer_failed_paved System.granting failsClean_granting dirWorld (ofStr "/dir".toList)
    "/dir/sub/".toList

end FsObject

end SysFs
