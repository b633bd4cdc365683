import SysFs.Objects

/-!
# The entries of a directory

`Dir::getEntries` reads the directory again when its time stamp is not the one
of the last read.  The stamp does not say which directory it is from: `setPath`
keeps it, an assignment copies it without the entries, and before the first
read it is zero.

`getEntries_current` says that `getEntries` comes back with the listing of the
directory of the path at that moment, in every run in which the entries that are
reused were read from that directory and each read can work.
-/

namespace SysFs

open Posix

namespace Obj

/-- The entries of a directory that has read some are those of the path and the
world that they were read from. -/
def Remembers (worlds : World → Prop) : Obj → Prop
  | dir d => ∀ path w₀, d.readFrom = some (path, w₀) →
      worlds w₀ ∧ Current w₀ (Path.ofStr path).fullPath d.mEntries
  | _ => True

theorem remembers_of_cls {worlds : World → Prop} {o : Obj} (h : o.cls ≠ .dir) :
    o.Remembers worlds := by
  cases o with
  | fsObject => trivial
  | file => trivial
  | dir => exact absurd rfl h

/-- Nothing but the entries and their origin matters. -/
theorem Remembers.of_dir {worlds : World → Prop} {d d' : Dir} (h : (dir d).Remembers worlds)
    (hentries : d'.mEntries = d.mEntries) (hfrom : d'.readFrom = d.readFrom) :
    (dir d').Remembers worlds := by
  intro path w₀ hread
  rw [hfrom] at hread
  rw [hentries]
  exact h path w₀ hread

/-- A new directory has read nothing. -/
theorem remembers_of_new {worlds : World → Prop} {d : Dir} (h : d.readFrom = none) :
    (dir d).Remembers worlds := by
  intro path w₀ hread
  rw [h] at hread
  cases hread

/-- A call of `getEntries` that reads what it should remembers it. -/
theorem Remembers.getEntries {worlds : World → Prop} {sys : System} {w : World} {d : Dir}
    (h : (dir d).Remembers worlds) (hc : d.toFsObject.Coherent) (htype : d.mType = .directory)
    (hworld : worlds w) {capacity : Nat} (hfits : d.EntriesFit capacity sys w) :
    (dir (d.getEntries sys w).1).Remembers worlds := by
  unfold Dir.EntriesFit at hfits
  unfold Dir.getEntries
  split
  · rename_i hstale
    rw [if_pos hstale] at hfits
    intro path w₀ hfrom
    obtain ⟨rfl, rfl⟩ := Prod.mk.inj (Option.some.inj hfrom)
    refine ⟨hworld, ?_⟩
    have hfull : d.fullPath = (Path.ofStr d.mPath).fullPath := hc.fullPath_eq
    rw [← hfull]
    exact Dir.current_of_reads hc htype hfits
  · exact h

end Obj

namespace State

/-- The condition on a step: every call of `getEntries` reads what it should or
reuses what it may. -/
def EntriesFit (capacity : Nat) (sys : System) (s : State) : Op → Prop
  | .getEntries i => ∀ d, s.objs i = some (.dir d) → d.EntriesFit capacity sys s.world
  | _ => True

variable {sys : System} {s : State} {op : Op} {i : Nat} {o : Obj} {w : World}
  {worlds : World → Prop} {capacity : Nat}

/-- What a step gives remembers what it has read. -/
theorem remembers_of_gives (hs : s.WellFormed)
    (hremembers : ∀ i o, s.objs i = some o → o.Remembers worlds) (h : Gives sys s op i o w)
    (hworld : worlds s.world) (hfits : EntriesFit capacity sys s op) : o.Remembers worlds := by
  cases h with
  | construct i cls path =>
    cases cls with
    | fsObject => cases path <;> trivial
    | file => cases path <;> trivial
    | dir => cases path <;> exact Obj.remembers_of_new rfl
  | copyConstruct h hcopy =>
    unfold Obj.copyConstruct at hcopy
    split at hcopy
    · obtain rfl := Option.some.inj hcopy
      trivial
    · obtain rfl := Option.some.inj hcopy
      trivial
    · obtain rfl := Option.some.inj hcopy
      exact Obj.remembers_of_new rfl
    · cases hcopy
  | @setPath _ o h path =>
    cases o with
    | fsObject => trivial
    | file => trivial
    | dir d => exact (hremembers _ _ h).of_dir rfl rfl
  | @assign _ _ how o _ _ h hsrc hassign =>
    by_cases hcls : o.cls = .dir
    · cases o with
      | fsObject => cases hcls
      | file => cases hcls
      | dir d =>
        obtain ⟨d', rfl, hentries, hfrom⟩ := Obj.assign_dir hassign
        exact (hremembers _ _ h).of_dir hentries hfrom
    · refine Obj.remembers_of_cls ?_
      rwa [(Obj.base_assign hassign).2]
  | @call _ o h m =>
    cases o with
    | fsObject => trivial
    | file => trivial
    | dir d => exact (hremembers _ _ h).of_dir rfl rfl
  | openInit => trivial
  | «open» => trivial
  | close => trivial
  | @getEntries _ d h =>
    exact (hremembers _ _ h).getEntries (hs _ _ h).coherent ((hs _ _ h).dir rfl) hworld (hfits d h)

/-- The worlds that a run comes through. -/
def Visited (sys : System) (w : World) (ops : List Op) (w' : World) : Prop :=
  ∃ before, before <+: ops ∧ (Run.runs (step sys) (initial w) before).world = w'

/-- When the stamp of a directory tells its content, and every call before fits
as the last one does, `getEntries` comes back with the listing of the directory
that the path names now. -/
theorem getEntries_current (capacity : Nat) (sys : System) (w : World) (ops : List Op)
    (hstamps : StampsTell sys (Visited sys w ops))
    (h : Run.Along (step sys) (EntriesFit capacity sys) (initial w) ops) (i : Nat) (d : Dir)
    (hi : (Run.runs (step sys) (initial w) ops).objs i = some (.dir d))
    (hfits : d.EntriesFit capacity sys (Run.runs (step sys) (initial w) ops).world) :
    d.Returns capacity sys (Run.runs (step sys) (initial w) ops).world ∧
      Current (Run.runs (step sys) (initial w) ops).world d.fullPath
        (d.getEntries sys (Run.runs (step sys) (initial w) ops).world).1.mEntries := by
  have hvisited := Run.along_visited (step sys) (initial w) ops
  obtain ⟨hs, hremembers⟩ := inv_of_along
    (I := fun s : State => ∀ i o, s.objs i = some o → o.Remembers (Visited sys w ops))
    (by intro i o h0; cases h0)
    (fun s op hs hremembers hop => by
      obtain ⟨hfits, before, hbefore, rfl⟩ := hop
      exact forall_step hremembers fun _ _ _ hg =>
        remembers_of_gives hs hremembers hg ⟨before, hbefore, rfl⟩ hfits)
    (Run.along_and h hvisited)
  have hc : d.toFsObject.Coherent := (hs i _ hi).coherent
  have htype := (hs i _ hi).dir rfl
  unfold Dir.EntriesFit at hfits
  unfold Dir.getEntries
  split
  · rename_i hstale
    rw [if_pos hstale] at hfits
    exact ⟨Dir.returns_of_reads hc htype hstale hfits, Dir.current_of_reads hc htype hfits⟩
  · rename_i hsame
    rw [if_neg hsame] at hfits
    refine ⟨Dir.returns_of_reuses fun hstale => hsame hstale, ?_⟩
    rw [not_not] at hsame
    exact Dir.current_of_reuses hstamps ⟨ops, List.prefix_rfl, rfl⟩ hc (hremembers i _ hi) hsame
      hfits

/-- When the tree never changes, the stamps tell all there is. -/
theorem stampsTell_of_forall_eq (h : ∀ w', worlds w' → w' = w) : StampsTell sys worlds := by
  intro w₁ w₂ h₁ h₂ l l' v v' hv hv' _ _ hino _ n
  obtain rfl := h _ h₁
  obtain rfl := h _ h₂
  rw [FileTree.eq_of_ino hv hv' hino]

/-- Two directories, one with a file in it. -/
def twoDirs : World :=
  World.ofList [(["a"], .directory), (["a", "f"], .regular), (["b"], .directory)]

/-- A program with the directory `/a`. -/
def named : List Op := [.construct 0 .dir (some ['/', 'a'])]

/-- The same, which reads `/a` and then gets another path of it. -/
def renamed : List Op := named ++ [.getEntries 0, .setPath 0 "/b/../a".toList]

/-- `/a` can be read. -/
theorem readsDir_twoDirs :
    Dir.ReadsDir 65536 System.granting twoDirs [⟨['a'], by decide⟩] := by
  refine ⟨by decide, fun n hn => ?_, by decide⟩
  -- The only entry is `f`.
  have hnames : visibleNames twoDirs.tree [⟨['a'], by decide⟩] = [⟨['f'], by decide⟩] := by
    decide
  rw [hnames, List.mem_singleton] at hn
  subst hn
  refine ⟨by decide, ⟨by decide, by decide, fun c hc => ?_, fun c hc => ?_⟩, by decide⟩
  · obtain rfl : 'f' = c := Option.some.inj hc
    decide
  · obtain rfl : 'f' = c := Option.some.inj hc
    decide

/-- The entries that were read are returned again, and they are those that `/a` has. -/
theorem getEntries_current_renamed : ∃ d,
    (Run.runs (step System.granting) (initial twoDirs) renamed).objs 0 = some (.dir d) ∧
      d.mLastUpdate = d.getLastUpdateTime twoDirs System.granting ∧
      Current twoDirs "/b/../a".toList (d.getEntries System.granting twoDirs).1.mEntries := by
  have hstamps : StampsTell System.granting (Visited System.granting twoDirs renamed) := by
    refine stampsTell_of_forall_eq (w := twoDirs) ?_
    rintro _ ⟨before, hbefore, rfl⟩
    rcases List.prefix_cons_iff.1 hbefore with rfl | ⟨rest, rfl, hrest⟩
    · rfl
    rcases List.prefix_cons_iff.1 hrest with rfl | ⟨rest', rfl, hrest'⟩
    · rfl
    rcases List.prefix_cons_iff.1 hrest' with rfl | ⟨rest'', rfl, hrest''⟩
    · rfl
    obtain rfl := List.prefix_nil.1 hrest''
    rfl
  have hlookup : twoDirs.lookup ['/', 'a'] = some [⟨['a'], by decide⟩] := by decide
  have hreads : (Dir.ofStr ['/', 'a']).EntriesFit 65536 System.granting twoDirs := by
    unfold Dir.EntriesFit
    rw [if_pos (by decide)]
    refine ⟨fun l hl _ => ?_, fun hnone => absurd (by decide) (hnone _ hlookup)⟩
    obtain rfl := Option.some.inj (hlookup.symm.trans hl)
    exact readsDir_twoDirs
  refine ⟨_, rfl, by decide, (getEntries_current 65536 System.granting twoDirs renamed hstamps
    ⟨trivial, fun d hd => ?_, trivial, trivial⟩ 0 _ rfl ?_).2⟩
  · obtain rfl := Obj.dir.inj (Option.some.inj hd)
    exact hreads
  · unfold Dir.EntriesFit
    rw [if_neg (by decide)]
    refine Or.inl ⟨['/', 'a'], twoDirs, rfl, by decide, fun l v hl hv => ⟨v, hv, rfl, rfl, ?_⟩⟩
    rfl

/-- After `setPath` to a directory with the same stamp, `getEntries` returns the
entries of the old one. -/
theorem not_current_of_setPath : ∃ d,
    StampsTell System.granting (Visited System.granting twoDirs
      (named ++ [.getEntries 0, .setPath 0 ['/', 'b']])) ∧
    (Run.runs (step System.granting) (initial twoDirs)
      (named ++ [.getEntries 0, .setPath 0 ['/', 'b']])).objs 0 = some (.dir d) ∧
    ¬ Current twoDirs d.fullPath (d.getEntries System.granting twoDirs).1.mEntries := by
  refine ⟨_, ?_, rfl, ?_⟩
  · refine stampsTell_of_forall_eq (w := twoDirs) ?_
    rintro _ ⟨before, hbefore, rfl⟩
    rcases List.prefix_cons_iff.1 hbefore with rfl | ⟨rest, rfl, hrest⟩
    · rfl
    rcases List.prefix_cons_iff.1 hrest with rfl | ⟨rest', rfl, hrest'⟩
    · rfl
    rcases List.prefix_cons_iff.1 hrest' with rfl | ⟨rest'', rfl, hrest''⟩
    · rfl
    obtain rfl := List.prefix_nil.1 hrest''
    rfl
  · intro hcurrent
    have hlookup : twoDirs.lookup ['/', 'b'] = some [⟨['b'], by decide⟩] := by decide
    have hlisted := hcurrent.1 _ hlookup (by decide)
    -- The entry `f` of `/a` is none of `/b`.
    have hnames : visibleNames twoDirs.tree [⟨['b'], by decide⟩] = [] := by decide
    rw [ListsNames, hnames, List.map_nil, List.perm_nil] at hlisted
    exact absurd hlisted (by decide)

end State

end SysFs
