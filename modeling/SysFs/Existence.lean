import SysFs.Objects

/-!
# What an object says about its existence

`checkIfExists` looks at the filesystem only until it has seen the object once.
The answer is kept in the object, goes along with a copy of it, and is dropped
by `setPath`, by an assignment, and by `move`, `remove` and `removeSymLink` of
the object itself.

`isExist_there` says that the answer is right in every run in which no step
takes away an object that keeps it.  Only a step that runs a command or deletes
something can do that (`preserves_of_gives`).
-/

namespace SysFs

open Posix

namespace Obj

/-- The kinds of entry that the class stands for. -/
def Fits : Obj → Kind → Prop
  | fsObject _, _ => True
  | file _, kind => kind = .regular
  | dir _, kind => kind = .directory

/-- There is an entry at the full path that `stat` can reach, of a kind that
fits the class. -/
def There (w : World) (o : Obj) : Prop :=
  ∃ v, w.stat o.base.fullPath = some v ∧ o.Fits v.kind

variable {sys : System} {s : State} {w : World} {o o' : Obj}

theorem WellFormed.fits_iff (h : o.WellFormed) (kind : Kind) :
    o.Fits kind ↔ o.base.mType.unlike kind = false := by
  cases o with
  | fsObject o =>
    have htype : o.mType = .uknown := h.fsObject rfl
    simp [Fits, base, FileType.unlike, htype]
  | file f =>
    have htype : f.mType = .regularFile := h.file rfl
    simp [Fits, base, FileType.unlike, htype]
  | dir d =>
    have htype : d.mType = .directory := h.dir rfl
    simp [Fits, base, FileType.unlike, htype]

theorem WellFormed.there_iff (h : o.WellFormed) (w : World) : o.There w ↔ o.base.Present w := by
  simp only [There, FsObject.Present, h.fits_iff]

end Obj

namespace FsObject

/-- The world that the command of a method leaves, or its `unlink`, and whether
the object forgets then that it exists.  A method that comes to neither takes
nothing away. -/
def harm (sys : System) (w : World) (o : FsObject) : Method → Option (World × Bool)
  | .move dstPath =>
    let p := prepare sys w o dstPath
    let absolute := p.obj.getAbsolutePath sys p.world
    let done := execCommand sys absolute.2
      (LibCommand.move absolute.1.mRealPath p.newpath.toNative).text
    if p.ok then some (done.world, done.ok) else none
  | .copy dstPath =>
    let p := prepare sys w o dstPath
    let absolute := p.obj.getAbsolutePath sys p.world
    let done := execCommand sys absolute.2
      (LibCommand.copy absolute.1.mRealPath p.newpath.toNative).text
    if p.ok then some (done.world, false) else none
  | .remove =>
    let absolute := (o.checkIfExists w).getAbsolutePath sys w
    if !(o.checkIfExists w).mExists then none
    else if (o.checkIfExists w).getType w = .directory then
      let done := execCommand sys absolute.2 (LibCommand.remove absolute.1.mRealPath).text
      some (done.world, done.ok)
    else (sys.unlink absolute.2 absolute.1.mRealPath).map fun w' => (w', true)
  | .removeSymLink =>
    let absolute := (o.checkIfExists w).getAbsolutePath sys w
    if (o.checkIfExists w).mExists ∧ (o.checkIfExists w).isSymbolicLink w then
      (sys.unlink absolute.2 absolute.1.toNative).map fun w' => (w', true)
    else none
  | .setOwner owner =>
    let absolute := (o.checkIfExists w).getAbsolutePath sys w
    if !(o.checkIfExists w).mExists ∨ owner = [] then none
    else some ((execCommand sys absolute.2
      (LibCommand.setOwner owner absolute.1.mRealPath).text).world, false)
  | .setGroup group =>
    let absolute := (o.checkIfExists w).getAbsolutePath sys w
    if !(o.checkIfExists w).mExists ∨ group = [] then none
    else some ((execCommand sys absolute.2
      (LibCommand.setGroup group absolute.1.mRealPath).text).world, false)
  | _ => none

variable {sys : System} {w : World} {o : FsObject}

theorem prepare_preserves (sys : System) (w : World) (o : FsObject) (dst : Str) :
    Preserves w (prepare sys w o dst).world :=
  Preserves.of_grown (prepare_cases sys w o dst).paved.toGrown

/-- A method that takes nothing away keeps every entry. -/
theorem call_of_harmless (hc : o.Coherent) (m : Method) (h : o.harm sys w m = none) :
    Preserves w (call sys w o m).world := by
  have hkept := kept_checkIfExists hc w
  have habsolute : Preserves w ((o.checkIfExists w).getAbsolutePath sys w).2 :=
    getAbsolutePath_preserves hkept.coherent
  cases m with
  | move dstPath =>
    have hok : (prepare sys w o dstPath).ok = false := by simpa [harm] using h
    rw [call, (move_of_stopped hok).2]
    exact prepare_preserves sys w o dstPath
  | copy dstPath =>
    have hok : (prepare sys w o dstPath).ok = false := by simpa [harm] using h
    rw [call, (copy_of_stopped hok).2]
    exact prepare_preserves sys w o dstPath
  | remove =>
    simp only [harm] at h
    unfold call remove
    dsimp only
    split
    · exact Preserves.refl w
    · rename_i hm
      rw [if_neg hm] at h
      split
      · rename_i htype
        rw [if_pos htype] at h
        cases h
      · rename_i htype
        rw [if_neg htype, Option.map_eq_none_iff] at h
        rw [h]
        exact habsolute
  | removeSymLink =>
    simp only [harm] at h
    unfold call removeSymLink
    dsimp only
    split
    · exact Preserves.refl w
    · rename_i hm
      split
      · rename_i hlink
        rw [if_pos ⟨mExists_of_not hm, hlink⟩, Option.map_eq_none_iff] at h
        rw [h]
        exact habsolute
      · exact Preserves.refl w
  | setOwner owner =>
    simp only [harm] at h
    unfold call setOwner
    dsimp only
    split
    · exact Preserves.refl w
    · rename_i hm
      rw [if_neg hm] at h
      cases h
  | setGroup group =>
    simp only [harm] at h
    unfold call setGroup
    dsimp only
    split
    · exact Preserves.refl w
    · rename_i hm
      rw [if_neg hm] at h
      cases h
  | analyze | isExist | getAbsolutePath | create | createSymLink | changeMode =>
    exact call_preserves hc _ id

/-- What a method leaves that takes something away. -/
theorem call_of_harm {m : Method} {w' : World} {forgets : Bool}
    (h : o.harm sys w m = some (w', forgets)) :
    (call sys w o m).world = w' ∧ (forgets = true → (call sys w o m).obj.mExists = false) := by
  cases m with
  | move dstPath =>
    simp only [harm, Option.ite_none_right_eq_some, Option.some.injEq, Prod.mk.injEq] at h
    obtain ⟨hok, rfl, rfl⟩ := h
    unfold call move
    dsimp only
    rw [if_neg (by simp [hok])]
    split
    · rename_i hfails
      exact ⟨rfl, fun hdone => absurd hdone (by simpa using hfails)⟩
    · exact ⟨rfl, fun _ => rfl⟩
  | copy dstPath =>
    simp only [harm, Option.ite_none_right_eq_some, Option.some.injEq, Prod.mk.injEq] at h
    obtain ⟨hok, rfl, rfl⟩ := h
    unfold call copy
    dsimp only
    rw [if_neg (by simp [hok])]
    exact ⟨rfl, nofun⟩
  | remove =>
    simp only [harm, Option.ite_none_left_eq_some] at h
    obtain ⟨hm, h⟩ := h
    unfold call remove
    dsimp only
    rw [if_neg hm]
    split
    · rename_i htype
      rw [if_pos htype] at h
      obtain ⟨rfl, rfl⟩ := Prod.mk.inj (Option.some.inj h)
      split
      · rename_i hfails
        exact ⟨rfl, fun hdone => absurd hdone (by simpa using hfails)⟩
      · exact ⟨rfl, fun _ => rfl⟩
    · rename_i htype
      rw [if_neg htype] at h
      obtain ⟨w₁, hunlink, heq⟩ := Option.map_eq_some_iff.1 h
      obtain ⟨rfl, rfl⟩ := Prod.mk.inj heq
      rw [hunlink]
      exact ⟨rfl, fun _ => rfl⟩
  | removeSymLink =>
    simp only [harm, Option.ite_none_right_eq_some] at h
    obtain ⟨⟨hm, hlink⟩, h⟩ := h
    obtain ⟨w₁, hunlink, heq⟩ := Option.map_eq_some_iff.1 h
    obtain ⟨rfl, rfl⟩ := Prod.mk.inj heq
    unfold call removeSymLink
    dsimp only
    rw [if_neg (by simp [hm]), if_pos hlink, hunlink]
    exact ⟨rfl, fun _ => rfl⟩
  | setOwner owner =>
    simp only [harm, Option.ite_none_left_eq_some, Option.some.injEq, Prod.mk.injEq] at h
    obtain ⟨hm, rfl, rfl⟩ := h
    unfold call setOwner
    dsimp only
    rw [if_neg hm]
    exact ⟨rfl, nofun⟩
  | setGroup group =>
    simp only [harm, Option.ite_none_left_eq_some, Option.some.injEq, Prod.mk.injEq] at h
    obtain ⟨hm, rfl, rfl⟩ := h
    unfold call setGroup
    dsimp only
    rw [if_neg hm]
    exact ⟨rfl, nofun⟩
  | analyze | isExist | getAbsolutePath | create | createSymLink | changeMode => cases h

end FsObject

/-- The world that the `ls` of `getEntries` leaves. -/
def Dir.harm (sys : System) (w : World) (d : Dir) : Option World :=
  let absolute := d.toFsObject.getAbsolutePath sys w
  if d.mLastUpdate ≠ d.getLastUpdateTime w sys then
    some (FsObject.execCommand sys absolute.2
      (LibCommand.getEntries absolute.1.mRealPath).text).world
  else none

namespace Obj

/-- The entries that the path of the object needs are spared, in `w'`. -/
def Spared (w w' : World) (o : Obj) : Prop := w.Spares w' o.base.fullPath o.Fits

end Obj

namespace State

/-- What every object says about its existence is right. -/
def Sound (s : State) : Prop := ∀ i o, s.objs i = some o → o.base.Sound s.world

/-- In `w'`, what the objects say about their existence is right still: all of
them but the object `i`. -/
def SparesOthers (s : State) (i : Nat) (w' : World) : Prop :=
  ∀ j o, j ≠ i → s.objs j = some o → o.base.mExists = true → o.Spared s.world w'

/-- The condition on a step.  What it takes away is no entry that another object
needs which says that it exists.  The object that it works on may need it only if
that is not there, or forgets what it knew. -/
def LeavesCached (sys : System) (s : State) : Op → Prop
  | .call i m => ∀ o w' forgets, s.objs i = some o →
      o.base.harm sys s.world m = some (w', forgets) →
      s.SparesOthers i w' ∧
        (o.base.isExist s.world = true → forgets = false → o.Spared s.world w')
  | .getEntries i => ∀ d w', s.objs i = some (.dir d) → d.harm sys s.world = some w' →
      s.SparesOthers i w' ∧
        (d.toFsObject.isExist s.world = true → (Obj.dir d).Spared s.world w')
  | .outside w' => ∀ j o, s.objs j = some o → o.base.mExists = true → o.Spared s.world w'
  | _ => True

variable {sys : System} {s : State} {op : Op} {i : Nat} {o : Obj} {w : World}

/-- An object that is there is there still when it is spared. -/
theorem present_of_spared {o : Obj} (h : o.WellFormed) (hpresent : o.base.Present w) {w' : World}
    (hspared : o.Spared w w') : o.base.Present w' := by
  rw [← h.there_iff] at hpresent ⊢
  obtain ⟨v, hv, hfits⟩ := hpresent
  exact World.stat_of_spares hspared hv hfits

/-- The world after `getEntries`, whether or not it runs `ls`. -/
theorem world_getEntries (d : Dir) (sys : System) (w : World) :
    (d.getEntries sys w).2 = (d.harm sys w).getD w := by
  unfold Dir.getEntries Dir.harm
  dsimp only
  split <;> rfl

/-- A step keeps every entry, or it spares the other objects. -/
theorem preserves_or_spares (hs : s.WellFormed) (h : Gives sys s op i o w)
    (hleaves : LeavesCached sys s op) : Preserves s.world w ∨ s.SparesOthers i w := by
  cases h with
  | construct | copyConstruct | setPath | assign | close => exact Or.inl (Preserves.refl s.world)
  | @call _ o h m =>
    rw [(o.base_call m).2]
    cases hharm : o.base.harm sys s.world m with
    | none => exact Or.inl (FsObject.call_of_harmless (hs _ _ h).coherent m hharm)
    | some r =>
      obtain ⟨w', forgets⟩ := r
      rw [(FsObject.call_of_harm hharm).1]
      exact Or.inr (hleaves o w' forgets h hharm).1
  | openInit h mode => exact Or.inl (File.openInit_spec (hs _ _ h).coherent sys s.world mode).2
  | @«open» _ f h filename mode =>
    refine Or.inl (File.openInit_spec ?_ sys s.world mode).2
    rw [f.base_setPath]
    exact FsObject.coherent_setPath _ filename
  | @getEntries _ d h =>
    rw [world_getEntries]
    cases hharm : d.harm sys s.world with
    | none => exact Or.inl (Preserves.refl s.world)
    | some w' => exact Or.inr (hleaves d w' h hharm).1

/-- An object whose absolute path may have been asked for. -/
theorem present_of_absolute {o o' : FsObject}
    (hbase : o' = o ∨ o' = (o.getAbsolutePath sys w).1) (hc : o.Coherent) (h : o.Sound w)
    (hm : o'.mExists = true) : o'.Present w := by
  rcases hbase with rfl | rfl
  · exact h hm
  · rw [FsObject.getAbsolutePath_mExists hc] at hm
    exact ((FsObject.getAbsolutePath_kept hc).present_iff hc _).2 (h.checkIfExists hc hm)

/-- A call leaves its object right, when this is spared or forgets. -/
theorem present_of_call {m : Method} (hwf : o.WellFormed) (hsound : o.base.Sound w)
    (hspared : ∀ w' forgets, o.base.harm sys w m = some (w', forgets) →
      o.base.isExist w = true → forgets = false → o.Spared w w')
    (hm : (o.base.call sys w m).obj.mExists = true) :
    (o.base.call sys w m).obj.Present (o.base.call sys w m).world := by
  have hregular := FsObject.call_regular hwf.coherent sys w m
  rcases hregular.cached hm with ⟨hset, hexists⟩ | hpresent
  · have hbefore : o.base.Present w := hsound.checkIfExists hwf.coherent hexists
    rw [hregular.present_iff hwf.coherent hset]
    cases hharm : o.base.harm sys w m with
    | none => exact hbefore.preserves (FsObject.call_of_harmless hwf.coherent m hharm)
    | some r =>
      obtain ⟨w', forgets⟩ := r
      obtain ⟨hworld, hforgets⟩ := FsObject.call_of_harm hharm
      rw [hworld]
      cases forgets with
      | true =>
        rw [hforgets rfl] at hm
        cases hm
      | false => exact present_of_spared hwf hbefore (hspared w' false hharm hexists rfl)
  · exact hpresent

/-- What a step gives a new value is right about its existence. -/
theorem present_of_gives (hs : s.WellFormed) (hsound : s.Sound) (h : Gives sys s op i o w)
    (hleaves : LeavesCached sys s op) (hm : o.base.mExists = true) : o.base.Present w := by
  cases h with
  | construct i cls path =>
    cases path <;> cases cls <;> cases hm
  | @copyConstruct _ _ cls o' _ h hcopy =>
    have hpresent := hsound _ _ h
    unfold Obj.copyConstruct at hcopy
    split at hcopy
    · obtain rfl := Option.some.inj hcopy
      obtain ⟨v, hv, -⟩ := hpresent hm
      exact ⟨v, hv, rfl⟩
    · obtain rfl := Option.some.inj hcopy
      obtain ⟨v, hv, hfits⟩ := hpresent hm
      rw [(hs _ _ h).file rfl] at hfits
      exact ⟨v, hv, hfits⟩
    · obtain rfl := Option.some.inj hcopy
      obtain ⟨v, hv, hfits⟩ := hpresent hm
      rw [(hs _ _ h).dir rfl] at hfits
      exact ⟨v, hv, hfits⟩
    · cases hcopy
  | @setPath _ o' h path =>
    rw [(o'.base_setPath path).1] at hm
    cases hm
  | assign h hsrc hassign =>
    rw [(Obj.base_assign hassign).1] at hm
    cases hm
  | @call _ o' h m =>
    rw [(o'.base_call m).1] at hm ⊢
    rw [(o'.base_call m).2]
    exact present_of_call (hs _ _ h) (hsound _ _ h)
      (fun w' forgets hharm => (hleaves o' w' forgets h hharm).2) hm
  | @openInit _ f h mode =>
    have hc := (hs _ _ h).coherent
    obtain ⟨hbase, hpreserves⟩ := File.openInit_spec hc sys s.world mode
    exact (present_of_absolute hbase hc (hsound _ _ h) hm).preserves hpreserves
  | @«open» _ f h filename mode =>
    have hbase := f.base_setPath filename
    have hc : (f.setPath filename).toFsObject.Coherent := by
      rw [hbase]
      exact FsObject.coherent_setPath _ filename
    obtain ⟨hinit, hpreserves⟩ := File.openInit_spec hc sys s.world mode
    refine (present_of_absolute hinit hc ?_ hm).preserves hpreserves
    rw [hbase]
    exact fun hset => nomatch hset
  | @close _ f h => exact hsound _ (.file f) h hm
  | @getEntries _ d h =>
    have hwf := hs _ _ h
    have hkept := Dir.kept_getEntries hwf.coherent sys s.world
    have hbefore : d.toFsObject.Present s.world :=
      (hkept.present_iff hwf.coherent _).1
        (present_of_absolute (d.base_getEntries sys s.world) hwf.coherent (hsound _ _ h) hm)
    refine (hkept.present_iff hwf.coherent _).2 ?_
    rw [world_getEntries]
    cases hharm : d.harm sys s.world with
    | none => exact hbefore
    | some w' =>
      have hexists : d.toFsObject.isExist s.world = true :=
        (FsObject.checkIfExists_mExists_iff hwf.coherent).2 (Or.inr hbefore)
      exact present_of_spared hwf hbefore ((hleaves d w' h hharm).2 hexists)

/-- A step that leaves what is cached keeps every object right. -/
theorem sound_step (hs : s.WellFormed) (hsound : s.Sound)
    (h : LeavesCached sys s op) : (s.step sys op).Sound := by
  rcases step_cases sys s op with ⟨w, rfl, hstep⟩ | hstep | ⟨i, o, w, hg, hstep⟩
  · rw [hstep]
    intro j o hj hm
    exact present_of_spared (hs j o hj) (hsound j o hj hm) (h j o hj hm)
  · rw [hstep]
    exact hsound
  · rw [hstep]
    intro j o' hj hm
    unfold put at hj
    dsimp only at hj
    split at hj
    · obtain rfl := Option.some.inj hj
      exact present_of_gives hs hsound hg h hm
    · rename_i hji
      have hpresent := hsound j o' hj hm
      rcases preserves_or_spares hs hg h with hpreserves | hspares
      · exact hpresent.preserves hpreserves
      · exact present_of_spared (hs j o' hj) hpresent (hspares j o' hji hj hm)

/-- When no step takes away what an object needs that goes on saying that it
exists, `isExist` is right about every object, at every moment. -/
theorem isExist_there (sys : System) (w : World) (ops : List Op)
    (h : Run.Along (step sys) (LeavesCached sys) (initial w) ops) (i : Nat) (o : Obj)
    (hi : (Run.runs (step sys) (initial w) ops).objs i = some o)
    (hexists : o.base.isExist (Run.runs (step sys) (initial w) ops).world = true) :
    o.There (Run.runs (step sys) (initial w) ops).world := by
  obtain ⟨hwf, hsound⟩ := inv_of_along (I := Sound) (by intro i o h0; cases h0)
    (fun s op hs hsound hop => sound_step hs hsound hop) h
  rw [(hwf i o hi).there_iff]
  exact (hsound i o hi).checkIfExists (hwf i o hi).coherent hexists

/-- A method that never takes anything away. -/
theorem leavesCached_of_harmless {m : Method} (h : ∀ w o, FsObject.harm sys w o m = none) :
    LeavesCached sys s (.call i m) := by
  intro o w' forgets _ hharm
  rw [h] at hharm
  cases hharm

/-- A program that creates the file `/f` and asks whether it is there. -/
def created : List Op :=
  [.construct 0 .file (some ['/', 'f']), .call 0 (.create FsObject.defaultMode),
    .call 0 .isExist]

/-- The same with the file `/g`, before `/f` is removed. -/
def removed : List Op :=
  created ++ [.construct 1 .file (some ['/', 'g']), .call 1 (.create FsObject.defaultMode),
    .call 1 .isExist, .call 0 .remove]

/-- The file that was not removed is there. -/
theorem isExist_there_removed : ∃ o,
    (Run.runs (step System.granting) (initial (World.ofList [])) removed).objs 1 = some o ∧
      o.There (Run.runs (step System.granting) (initial (World.ofList [])) removed).world := by
  refine ⟨_, rfl, isExist_there System.granting (World.ofList []) removed
    ⟨trivial, leavesCached_of_harmless fun _ _ => rfl, leavesCached_of_harmless fun _ _ => rfl,
      trivial, leavesCached_of_harmless fun _ _ => rfl, leavesCached_of_harmless fun _ _ => rfl,
      ?_, trivial⟩ 1 _ rfl (by decide)⟩
  intro o w' forgets ho hharm
  obtain rfl := Option.some.inj ho
  obtain ⟨rfl, rfl⟩ := Prod.mk.inj (Option.some.inj hharm)
  refine ⟨fun j o' hj ho' hm => ?_, fun _ hforgets => nomatch hforgets⟩
  -- Of the other objects, there is the file `/g`.
  match j with
  | 0 => exact absurd rfl hj
  | 1 =>
    obtain rfl := Option.some.inj ho'
    refine ⟨rfl, Or.inr ⟨[[]], ⟨['g'], by decide⟩, [], [[]], .regular, rfl, ?_, ?_, ?_, ?_, rfl⟩⟩
    · exact .stay rfl (Or.inl rfl) (.done _ _)
    · exact List.forall_mem_singleton.2 rfl
    · decide
    · decide
  | j + 2 => cases ho'

/-- A copy of the object says that the file is there after it was removed. -/
theorem not_there_of_removed : ∃ o,
    (Run.runs (step System.granting) (initial (World.ofList []))
      (created ++ [.copyConstruct 1 .file 0, .call 0 .remove])).objs 1 = some o ∧
    o.base.isExist (Run.runs (step System.granting) (initial (World.ofList []))
      (created ++ [.copyConstruct 1 .file 0, .call 0 .remove])).world = true ∧
    ¬ o.There (Run.runs (step System.granting) (initial (World.ofList []))
      (created ++ [.copyConstruct 1 .file 0, .call 0 .remove])).world := by
  refine ⟨_, rfl, by decide, ?_⟩
  rintro ⟨v, hv, -⟩
  have hgone : (Run.runs (step System.granting) (initial (World.ofList []))
      (created ++ [.copyConstruct 1 .file 0, .call 0 .remove])).world.stat ['/', 'f'] = none := by
    decide
  cases hgone.symm.trans hv

end State

end SysFs
