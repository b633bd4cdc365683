import SysFs.Objects

/-!
# The stream of a file

A `File` is a path and a stream, and every operation has to keep the two
together.  `setPath`, `move` and `remove` do, and so does a `create` that goes on
to another name, because it calls the `setPath` of `File`.  Two operations do
not: `operator=` leaves the stream open at the old file, and `openInit` opens an
old absolute path when the path of the object cannot be resolved, and a file when
a separator at the end of the path asks for a directory.

`stream_names` says that in every run in which these two do no harm, an open
stream is attached to the file that the unified path of its object named when it
was opened.
-/

namespace SysFs

open Posix

namespace Obj

/-- A stream that is open is attached to the file of the path. -/
def Attached : Obj → Prop
  | file f => f.Attached
  | _ => True

theorem attached_of_cls {o : Obj} (h : o.cls ≠ .file) : o.Attached := by
  cases o with
  | fsObject => trivial
  | file => exact absurd rfl h
  | dir => trivial

end Obj

namespace State

/-- The condition on a step: an assignment to a file whose stream is open is
one of a path that names the same file, and a file is opened where its path and
what `openInit` makes of it name the same. -/
def StreamsFit (sys : System) (s : State) : Op → Prop
  | .assign i src _ => ∀ f o, s.objs i = some (.file f) → s.objs src = some o →
      f.AssignsOwn o.base
  | .openInit i mode => ∀ f, s.objs i = some (.file f) → f.OpensOwn sys s.world mode
  | .open i filename mode => ∀ f, s.objs i = some (.file f) →
      (f.setPath filename).OpensOwn sys s.world mode
  | _ => True

variable {sys : System} {s : State} {op : Op} {i : Nat} {o : Obj} {w : World}

/-- What a step gives is attached, when it fits. -/
theorem attached_of_gives (hs : s.WellFormed)
    (hattached : ∀ i o, s.objs i = some o → o.Attached) (h : Gives sys s op i o w)
    (hfits : StreamsFit sys s op) : o.Attached := by
  cases h with
  | construct i cls path =>
    cases cls with
    | fsObject => cases path <;> trivial
    | file => cases path <;> exact File.attached_of_closed rfl
    | dir => cases path <;> trivial
  | copyConstruct h hcopy =>
    unfold Obj.copyConstruct at hcopy
    split at hcopy
    · obtain rfl := Option.some.inj hcopy
      trivial
    · obtain rfl := Option.some.inj hcopy
      exact File.attached_of_closed rfl
    · obtain rfl := Option.some.inj hcopy
      trivial
    · cases hcopy
  | @setPath _ o h path =>
    cases o with
    | fsObject => trivial
    | file f => exact f.attached_setPath path
    | dir => trivial
  | @assign _ _ how o _ _ h hsrc hassign =>
    by_cases hcls : o.cls = .file
    · cases o with
      | fsObject => cases hcls
      | file f =>
        rw [Obj.assign_file hassign]
        exact File.attached_assign (hattached _ _ h) (hfits f _ h hsrc)
      | dir => cases hcls
    · refine Obj.attached_of_cls ?_
      rwa [(Obj.base_assign hassign).2]
  | @call _ o h m =>
    cases o with
    | fsObject => trivial
    | file f => exact File.attached_call (hs _ _ h).coherent (hattached _ _ h) m
    | dir => trivial
  | openInit h mode =>
    exact File.attached_openInit (hs _ _ h).coherent (hattached _ _ h) (hfits _ h)
  | @«open» _ f h filename mode =>
    refine File.attached_openInit ?_ (f.attached_setPath filename) (hfits _ h)
    rw [f.base_setPath]
    exact FsObject.coherent_setPath _ filename
  | @close _ f h => exact File.attached_of_closed rfl
  | getEntries => trivial

theorem attached_step (hs : s.WellFormed) (hattached : ∀ i o, s.objs i = some o → o.Attached)
    (hfits : StreamsFit sys s op) :
    ∀ i o, (s.step sys op).objs i = some o → o.Attached :=
  forall_step hattached fun _ _ _ hg => attached_of_gives hs hattached hg hfits

/-- When every step fits, an open stream is attached to the file that the unified
path of its object named when it was opened. -/
theorem stream_names (sys : System) (w : World) (ops : List Op)
    (h : Run.Along (step sys) (StreamsFit sys) (initial w) ops) (i : Nat) (f : File)
    (hi : (Run.runs (step sys) (initial w) ops).objs i = some (.file f)) (st : Stream)
    (hst : f.stream = some st) : st.opened.Names f.unifiedPath st.loc := by
  have hinv := inv_of_along (I := fun s : State => ∀ i o, s.objs i = some o → o.Attached)
    (by intro i o h0; cases h0) (fun _ _ hs hattached hop => attached_step hs hattached hop) h
  exact hinv.2 i (.file f) hi st hst

/-- A program that opens the file `/f` to write. -/
def opened : List Op :=
  [.construct 0 .file (some ['/', 'f']), .openInit 0 .write]

/-- The same, and then another path of `/f` is assigned. -/
def reassigned : List Op :=
  opened ++ [.construct 1 .file (some "/./f".toList), .assign 0 1 .copy]

/-- The stream is attached to what the new path names. -/
theorem stream_names_reassigned : ∃ f st,
    (Run.runs (step System.granting) (initial (World.ofList [])) reassigned).objs 0
      = some (.file f) ∧ f.stream = some st ∧ st.opened.Names f.unifiedPath st.loc := by
  refine ⟨_, _, rfl, rfl, stream_names System.granting (World.ofList []) reassigned
    ⟨trivial, fun f hf => ?_, trivial, fun f o hf ho => ?_, trivial⟩ 0 _ rfl _ rfl⟩
  · -- The root is there, so one of the two `realpath` calls succeeds.
    obtain rfl : File.ofStr ['/', 'f'] = f := Obj.file.inj (Option.some.inj hf)
    intro _ hslash
    exact absurd hslash (by decide)
  · obtain rfl := Obj.file.inj (Option.some.inj hf)
    obtain rfl := Option.some.inj ho
    rintro st hst l ⟨-, fuel, seen, hw⟩
    obtain rfl := Option.some.inj hst
    obtain ⟨seen', hw⟩ := Walks.inv_stay (Or.inl rfl) hw
    exact ⟨by decide, fuel, _, .stay rfl (Or.inl rfl) (.stay rfl (Or.inr rfl) hw)⟩

/-- After an assignment, the stream is attached to the file of the old path
still. -/
theorem not_names_of_assigned : ∃ f st,
    (Run.runs (step System.granting) (initial (World.ofList []))
      (opened ++ [.construct 1 .file (some ['/', 'g']), .assign 0 1 .copy])).objs 0
        = some (.file f) ∧ f.stream = some st ∧ ¬ st.opened.Names f.unifiedPath st.loc := by
  refine ⟨_, _, rfl, rfl, ?_⟩
  rintro ⟨-, fuel, seen, hw⟩
  change Walks _ false fuel [] [[], ['g']] seen _ at hw
  obtain ⟨_, hw⟩ := hw.inv_stay (Or.inl rfl)
  -- There is no `/g`.
  rcases hw.inv_name (n := ⟨['g'], by decide⟩) with
    ⟨hmiss, -⟩ | ⟨kind, _, hkind, -⟩ | ⟨target, _, _, hkind, -⟩
  · cases hmiss
  · exact absurd (Option.isSome_iff_exists.2 ⟨_, hkind⟩) (by decide)
  · exact absurd (Option.isSome_iff_exists.2 ⟨_, hkind⟩) (by decide)

end State

end SysFs
