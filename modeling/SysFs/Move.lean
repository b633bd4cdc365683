import SysFs.Transfer

/-!
# Moving an object

`move` asks `stat` whether the source and the destination are there, takes the
path of the source from `realpath`, and gives the destination to `mv` as it is
written.  So for a source that is a symbolic link it is the target of the link
that is moved, and the link stays.

`move_relocates` says what a `move` that succeeds has done: it has made
directories on the way to the destination, and relocated the entry that the
full path of the source leads to.  `MovesExactly` is what it should do, and
`move_movesExactly_iff` says exactly when it does.
-/

namespace SysFs

open Posix

namespace FsObject

/-- The two paths can be written into a command. -/
def PlainMove (w : World) (o : FsObject) (dst : Str) : Prop :=
  ∀ r, w.realpath o.fullPath = some r → (LibCommand.move r dst).PlainArgs

/-- Whether the source has to go into the destination, under its own name. -/
def GoesInto (w : World) (o : FsObject) (dst : Str) : Prop :=
  ((w.stat dst).any fun v => v.kind = .directory) ∨ dst.getLast? = some '/' ∨
    o.getType w = .directory

instance (w : World) (o : FsObject) (dst : Str) : Decidable (GoesInto w o dst) :=
  inferInstanceAs (Decidable (_ ∨ _))

/-- The path at which the source should be afterwards. -/
def newPlace (w : World) (o : FsObject) (dst : Str) : Str :=
  if GoesInto w o dst then dst ++ slash ++ o.fileName else dst

/-- From `w` to `w₁` only directories on the way to the destination are made.
From `w₁` to `w'` the entry of the source, with everything below it, goes to
the new place, and everything else is as it was. -/
def MovesExactly (w w₁ w' : World) (o : FsObject) (dst : Str) : Prop :=
  Paved (ofStr dst).fullPath w w₁ ∧ w'.lstat o.fullPath = none ∧
    ∃ e d, w.lookupEntry o.fullPath = some e ∧ w₁.target (newPlace w o dst) = some d ∧
      (∀ r, w'.tree.get (d ++ r) = w₁.tree.get (e ++ r)) ∧
      ∀ l, ¬ e <+: l → ¬ d <+: l → w'.tree.get l = w₁.tree.get l

/-- When `move` does what it should: the source is no link, its path ends with
the name of what it leads to, and `mv` does not find a directory at a
destination where none was before.  `w₁` is the world with the directories for
the destination. -/
structure MoveFits (w w₁ : World) (o : FsObject) (dst : Str) : Prop where
  noLink : o.isSymbolicLink w = false
  named : ∃ q n, w.lookup o.fullPath = some (q ++ [n]) ∧ withoutSlash o.fileName = n.1
  direct : ¬ GoesInto w o dst → ∀ q, w₁.lookup dst = some q → w₁.tree.IsDir q →
    ∃ n, withoutSlash o.fileName = n.1 ∧ w₁.target dst = some (q ++ [n])

/-- The entry `s` of the source is relocated to `d`. -/
structure Relocates (w w₁ w' : World) (o : FsObject) (dst : Str) (s d : Loc) (v : Node) :
    Prop where
  paved : Paved (ofStr dst).fullPath w w₁
  source : w.lookup o.fullPath = some s
  node : w.tree.get s = some v
  target : System.mvTarget w₁ s dst = some d
  replaceable : w₁.tree.replaceable v.kind d = true
  cwd : w'.cwd = w₁.cwd
  canMove : w₁.tree.CanMove s d
  tree : w'.tree = w₁.tree.relocate s d canMove

variable {sys : System} {w w₁ w' : World} {o : FsObject} {dst : Str} {s d : Loc} {v : Node}

/-! ## What `move` does -/

theorem PrepareCases.newpath_eq {p : Prepared} (h : PrepareCases sys w o dst p)
    (hok : p.ok = true) : p.newpath.toNative = unify dst := by
  cases h with
  | stops => cases hok
  | there => exact (kept_destination w dst).path
  | fails => cases hok
  | directory =>
    exact ((kept_paved sys w dst).trans
      (getAbsolutePath_kept (kept_paved sys w dst).coherent)).path
  | parents => exact (kept_paved sys w dst).path

/-- A `move` that succeeds comes to its command, and the command succeeds. -/
theorem move_mv (hc : o.Coherent) (hm : o.mExists = false) (hplain : PlainMove w o dst)
    (hok : (move sys w o dst).ok = true) :
    ∃ s v, w.lookup o.fullPath = some s ∧ w.tree.get s = some v ∧ unify dst = dst ∧
      (prepare sys w o dst).ok = true ∧
      sys.mv (prepare sys w o dst).world (World.render s) dst
        = some (move sys w o dst).world := by
  have hcases := prepare_cases sys w o dst
  cases hp : (prepare sys w o dst).ok with
  | false =>
    rw [(move_of_stopped hp).1] at hok
    cases hok
  | true =>
    have hexists := hcases.mExists hp
    obtain ⟨v, hstat, -⟩ := (checkIfExists_of_not_mExists hc hm).1 hexists
    obtain ⟨s, hs, hv⟩ := World.stat_eq_some_iff.1 hstat
    have harg : (LibCommand.move (World.render s) dst).PlainArgs :=
      hplain _ (World.realpath_of_lookup hs)
    have hdst : unify dst = dst :=
      unify_of_plainWord (harg.1 dst (by simp [LibCommand.args, LibCommand.lastArg]))
    refine ⟨s, v, hs, hv, hdst, rfl, ?_⟩
    have hsource : sourcePath sys (prepare sys w o dst) = World.render s :=
      sourcePath_eq hcases hp hc hs
    obtain ⟨hmove, hmoved⟩ := move_of_prepared rfl hp
    rw [hsource, hcases.newpath_eq hp, hdst] at hmove hmoved
    rw [hok] at hmove
    rw [hmoved]
    obtain ⟨hdone, hafter⟩ := execCommand_move sys (prepare sys w o dst).world harg
    rw [hdone] at hmove
    obtain ⟨hcan, hsome⟩ := (Bool.and_eq_true _ _).mp hmove.symm
    obtain ⟨w', hw'⟩ := Option.isSome_iff_exists.1 hsome
    rw [hafter, if_pos (of_decide_eq_true hcan), hw']
    rfl

/-- A `move` that succeeds has relocated what the source leads to. -/
theorem move_relocates (hc : o.Coherent) (hm : o.mExists = false) (hplain : PlainMove w o dst)
    (hok : (move sys w o dst).ok = true) :
    ∃ s d v, Relocates w (prepare sys w o dst).world (move sys w o dst).world o dst s d v := by
  obtain ⟨s, v, hs, hv, -, -, hmv⟩ := move_mv hc hm hplain hok
  have hpaved := (prepare_cases sys w o dst).paved
  obtain ⟨d, hmove, htarget, hreplace, hcwd, htree⟩ :=
    System.mv_render_spec (hpaved.ext s v hv) hmv
  exact ⟨s, d, v, hpaved, hs, hv, htarget, hreplace, hcwd, hmove, htree⟩

/-! ## Where `mv` puts the source -/

/-- The full path of a destination leads to a directory exactly when its text
does. -/
theorem lookup_dir_ofStr (hdst : unify dst = dst) {q : Loc} (hdir : w.tree.IsDir q) :
    w.lookup (ofStr dst).fullPath = some q ↔ w.lookup dst = some q := by
  rcases eq_or_ne dst [] with rfl | hne
  · rfl
  · change w.lookup (Path.ofStr dst).fullPath = some q ↔ _
    rcases Path.fullPath_ofStr_cases hdst with h | h | ⟨h, -⟩
    · rw [h]
    · have hfull : (Path.ofStr dst).fullPath ≠ [] := by
        intro hnil
        rw [hnil] at h
        rw [h] at hnil
        exact absurd hnil (by decide)
      conv_rhs => rw [h]
      rw [World.lookup_append_slash hfull]
      exact ⟨fun hq => ⟨hq, hdir⟩, fun hq => hq.1⟩
    · rw [h, World.lookup_append_slash hne]
      exact ⟨fun hq => hq.1, fun hq => ⟨hq, hdir⟩⟩

/-- A destination that leads to no directory has the text of its full path, or
a separator more. -/
theorem lookup_file_ofStr (hdst : unify dst = dst) {q : Loc} (hfile : ¬ w.tree.IsDir q)
    (hq : w.lookup (ofStr dst).fullPath = some q) :
    w.lookup dst = some q ∨ (w.lookup dst = none ∧ dst.getLast? = some '/') := by
  rcases eq_or_ne dst [] with rfl | hne
  · exact Or.inl hq
  · change w.lookup (Path.ofStr dst).fullPath = some q at hq
    rcases Path.fullPath_ofStr_cases hdst with h | h | ⟨h, -⟩
    · rw [h] at hq
      exact Or.inl hq
    · have hfull : (Path.ofStr dst).fullPath ≠ [] := by
        intro hnil
        rw [hnil, World.lookup_nil] at hq
        cases hq
      refine Or.inr ⟨?_, by rw [h]; simp⟩
      cases hlookup : w.lookup dst with
      | none => rfl
      | some l =>
        rw [h, World.lookup_append_slash hfull] at hlookup
        rw [hq] at hlookup
        exact absurd (Option.some.inj hlookup.1 ▸ hlookup.2) hfile
    · rw [h, World.lookup_append_slash hne] at hq
      exact absurd hq.2 hfile

/-- `mv` into a directory keeps the name of the source. -/
theorem mvTarget_dir {q m : Loc} {n : Name} (hq : w.lookup dst = some q)
    (hdir : w.tree.IsDir q) : System.mvTarget w (m ++ [n]) dst = some (q ++ [n]) := by
  simp [System.mvTarget, hq, hdir]

/-- `mv` to anything else takes the name of the destination. -/
theorem mvTarget_of_target (hd : System.mvTarget w s dst = some d)
    (hnot : ∀ q, w.lookup dst = some q → w.tree.IsDir q → w.target dst = some d) :
    w.target dst = some d := by
  unfold System.mvTarget at hd
  split at hd
  · rename_i q hq
    split at hd
    · rename_i hdir
      exact hnot q hq hdir
    · exact World.target_of_entry hd
  · split at hd
    · cases hd
    · exact hd

/-- A file name, with or without a separator at its end, names the entry in a
directory. -/
theorem target_fileName {q : Loc} {n : Name} {f : Str} (hq : w.lookup dst = some q)
    (hdir : w.tree.IsDir q) (hf : withoutSlash f = n.1) :
    w.target (dst ++ slash ++ f) = some (q ++ [n]) := by
  have hne : dst ≠ [] := by
    rintro rfl
    rw [World.lookup_nil] at hq
    cases hq
  have hentry : w.entry (dst ++ '/' :: n.1) = some (q ++ [n]) :=
    World.entry_concat ((World.lookup_append_slash hne).2 ⟨hq, hdir⟩)
  have htarget := World.target_of_entry hentry
  unfold withoutSlash at hf
  split at hf
  · rename_i hlast
    have hconcat : f = n.1 ++ ['/'] := by
      rw [← hf]
      exact (List.dropLast_append_getLast? _ hlast).symm
    have htext : dst ++ slash ++ f = dst ++ '/' :: n.1 ++ ['/'] := by
      rw [hconcat]
      simp [slash]
    rw [htext, World.target_append_slash (by simp), htarget]
  · have htext : dst ++ slash ++ f = dst ++ '/' :: n.1 := by
      rw [hf]
      simp [slash]
    rw [htext, htarget]

/-- A source that is there has the type of what it leads to, as long as its
entry stays. -/
theorem getType_source (hc : o.Coherent) (hs : w.lookup o.fullPath = some s)
    (hv : w.tree.get s = some v) (hgrown : Grown w w₁) :
    (o.checkIfExists w).getType w₁ = .ofKind v.kind := by
  have hkept := kept_checkIfExists hc w
  refine getType_eq hkept.coherent ?_
  rw [hkept.fullPath hc]
  exact hgrown.stat (stat_of_lookup hs hv)

/-- A file goes into a destination that is there only if this is a directory. -/
theorem dir_of_goesInto_file {q : Loc} {u : Node} (hdst : unify dst = dst)
    (h : Relocates w w w' o dst s d v) (hq : w.lookup (ofStr dst).fullPath = some q)
    (hu : w.tree.get q = some u) (hdir : u.kind ≠ .directory)
    (hsource : o.getType w = .ofKind v.kind) (hfile : v.kind ≠ .directory)
    (hinto : GoesInto w o dst) : ∃ q, w.lookup dst = some q ∧ w.tree.IsDir q := by
  rcases hinto with hinto | hinto | hinto
  · exact dir_of_stat hinto
  · exfalso
    have hd := h.target
    have hs : ¬ w.tree.IsDir s := fun h' => hfile ((isDir_iff h.node).1 h')
    rcases lookup_file_ofStr hdst (mt (isDir_iff hu).1 hdir) hq with hl | ⟨hl, -⟩
    · obtain ⟨t, rfl⟩ := List.getLast?_eq_some_iff.1 hinto
      exact hdir ((isDir_iff hu).1 (World.lookup_dir_iff.1 hl).1)
    · simp [System.mvTarget, hl, hinto, hs] at hd
  · rw [hsource, ofKind_eq_directory] at hinto
    exact absurd hinto hfile

/-- When the source has to go into the destination, the destination is a
directory when it comes to the command. -/
theorem dir_of_goesInto {p : Prepared} (hp : PrepareCases sys w o dst p) (hok : p.ok = true)
    (hc : o.Coherent) (hdst : unify dst = dst) (h : Relocates w p.world w' o dst s d v)
    (hinto : GoesInto w o dst) : ∃ q, p.world.lookup dst = some q ∧ p.world.tree.IsDir q := by
  have htype : ∀ {w₁}, Grown w w₁ → (o.checkIfExists w).getType w₁ = .ofKind v.kind :=
    getType_source hc h.source h.node
  have hsource : o.getType w = .ofKind v.kind := getType_eq hc (stat_of_lookup h.source h.node)
  cases hp with
  | stops => cases hok
  | fails => cases hok
  | there hexists hdest hfits =>
    obtain ⟨q, hq⟩ := Option.ne_none_iff_exists'.1 (destination_mExists_iff.1 hdest)
    by_cases hdir : w.tree.IsDir q
    · exact ⟨q, (lookup_dir_ofStr hdst hdir).1 hq, hdir⟩
    · -- The destination is no directory, so neither is the source.
      obtain ⟨u, hu, -⟩ := World.lookup_result hq
      have hkept := kept_destination w dst
      have hdest : (destination w dst).getType w = .ofKind u.kind := by
        refine getType_eq hkept.coherent ?_
        rw [hkept.fullPath (coherent_ofStr dst)]
        exact stat_of_lookup hq hu
      rw [hdest, htype (Grown.refl w), ofKind_eq_directory, Ne, ofKind_eq_directory] at hfits
      rw [isDir_iff hu] at hdir
      exact dir_of_goesInto_file hdst h hq hu hdir hsource (hfits.resolve_left hdir) hinto
  | directory hexists hdest hneeded hmkdir =>
    have hkept := kept_paved sys w dst
    obtain ⟨q, n, -, -, -, -, hdir, -, hlookup⟩ :=
      mkdir_getAbsolutePath hkept.coherent (paved_mRealPath sys w dst) hmkdir
    rw [hkept.fullPath (coherent_ofStr dst)] at hlookup
    exact ⟨_, (lookup_dir_ofStr hdst hdir).1 hlookup, hdir⟩
  | parents hexists hdest hplain =>
    exfalso
    rw [htype (paved_paved sys w dst).toGrown] at hplain
    rw [hdst] at hplain
    rcases hinto with hinto | hinto | hinto
    · obtain ⟨q, hq, hdir⟩ := dir_of_stat hinto
      rw [← lookup_dir_ofStr hdst hdir] at hq
      rw [← Bool.not_eq_true, destination_mExists_iff, not_not, hq] at hdest
      cases hdest
    · exact hplain.2 hinto
    · rw [hsource] at hinto
      exact hplain.1 hinto

/-- When `move` fits, the source goes to its new place. -/
theorem target_newPlace {p : Prepared} (hp : PrepareCases sys w o dst p) (hok : p.ok = true)
    (hc : o.Coherent) (hdst : unify dst = dst) (h : Relocates w p.world w' o dst s d v)
    (hfits : MoveFits w p.world o dst) :
    p.world.target (newPlace w o dst) = some d := by
  obtain ⟨m, n, hs, hname⟩ := hfits.named
  obtain rfl : s = m ++ [n] := Option.some.inj (h.source.symm.trans hs)
  by_cases hinto : GoesInto w o dst
  · rw [newPlace, if_pos hinto]
    obtain ⟨q, hq, hdir⟩ := dir_of_goesInto hp hok hc hdst h hinto
    have hd := h.target
    rw [mvTarget_dir hq hdir] at hd
    rw [target_fileName hq hdir hname, hd]
  · rw [newPlace, if_neg hinto]
    refine mvTarget_of_target h.target fun q hq hdir => ?_
    obtain ⟨n', hname', htarget⟩ := hfits.direct hinto q hq hdir
    obtain rfl : n = n' := Subtype.ext (hname.symm.trans hname')
    have hd := h.target
    rw [mvTarget_dir hq hdir] at hd
    rw [htarget, hd]

/-! ## When `move` does what it should -/

/-- When `move` fits, everything is as it should be afterwards. -/
theorem movesExactly_of_fits {p : Prepared} (hp : PrepareCases sys w o dst p) (hok : p.ok = true)
    (hc : o.Coherent) (hdst : unify dst = dst) (h : Relocates w p.world w' o dst s d v)
    (hfits : MoveFits w p.world o dst) : MovesExactly w p.world w' o dst := by
  obtain ⟨e, u, he, hu, hes⟩ := World.lookupEntry_of_lookup h.source
  have hlink : ¬ u.kind.IsLink := by
    rw [← isSymbolicLink_iff rfl (isEmpty_of_lookup hc h.source) he hu, hfits.noLink]
    decide
  obtain rfl := hes hlink
  obtain rfl : v = u := Option.some.inj (h.node.symm.trans hu)
  have hgrown := h.paved.toGrown
  have hkind : p.world.tree.kindAt e = some v.kind := by
    rw [FileTree.kindAt_eq, show p.world.tree.get e = some v from hgrown.ext e v hu,
      Option.map_some]
  refine ⟨h.paved, ?_, e, d, he, target_newPlace hp hok hc hdst h hfits, ?_, ?_⟩
  · exact World.lstat_eq_none_of_relocate (World.lookupEntry_grow he hgrown.ext hgrown.cwd)
      hkind hlink h.replaceable h.tree h.cwd
  · intro r
    rw [h.tree, FileTree.get_relocate_target]
  · intro l hl hl'
    rw [h.tree, FileTree.get_relocate_other h.canMove hl hl']

/-- What a link leads to is lost when it is the link that should be moved. -/
theorem noLink_of_movesExactly (hc : o.Coherent) (h : Relocates w w₁ w' o dst s d v)
    (hexact : MovesExactly w w₁ w' o dst) : o.isSymbolicLink w = false := by
  rw [← Bool.not_eq_true]
  intro hlink
  obtain ⟨-, -, e, d', he, -, hheld, hframe⟩ := hexact
  obtain ⟨e', u, he', hu, -⟩ := World.lookupEntry_of_lookup h.source
  obtain rfl : e = e' := Option.some.inj (he.symm.trans he')
  rw [isSymbolicLink_iff rfl (isEmpty_of_lookup hc h.source) he hu] at hlink
  obtain ⟨v', hv', hnolink⟩ := World.lookup_result h.source
  obtain rfl : v = v' := Option.some.inj (h.node.symm.trans hv')
  have hs : w₁.tree.get s = some v := h.paved.ext s v h.node
  have he₁ : w₁.tree.get e = some u := h.paved.ext e u hu
  have hgone : w'.tree.get s = none := by
    rw [h.tree]
    exact FileTree.get_relocate_self h.canMove
  have hnew : w'.tree.get d' = some u := by
    have := hheld []
    rwa [List.append_nil, List.append_nil, he₁] at this
  by_cases hes : e <+: s
  · obtain rfl := FileTree.eq_of_prefix (not_isDir_of_link he₁ hlink) hes (by simp [hs])
    obtain rfl := Option.some.inj (hs.symm.trans he₁)
    exact hnolink hlink
  · by_cases hds : d' <+: s
    · rcases eq_or_ne s d' with rfl | hne
      · rw [hgone] at hnew
        cases hnew
      · -- The new place holds the source, so it is no link.
        have hdir : w₁.tree.IsDir d' := by
          by_contra hfile
          exact hne (FileTree.eq_of_prefix hfile hds (by simp [hs]))
        have hsame : w'.tree.get d' = w₁.tree.get d' := by
          rw [h.tree]
          refine FileTree.get_relocate_other h.canMove (fun hp => ?_) fun hp => ?_
          · exact hne (hp.eq_of_length_le hds.length_le)
          · exact h.canMove.above (hp.trans hds)
        rw [hsame] at hnew
        exact not_isDir_of_link hnew hlink hdir
    · rw [hframe s hes hds, hs] at hgone
      cases hgone

theorem withoutSlash_of_notMem {f : Str} (hf : '/' ∉ f) : withoutSlash f = f := by
  rw [withoutSlash, if_neg]
  exact fun h => hf (List.mem_of_getLast? h)

/-- The file name of a path that ends with a name. -/
theorem fileName_of_fields {dir name full : Str} {ws : List Str} {n : Name}
    (h : Path.Shape dir name full) (hfields : Lines.fields '/' full = ws ++ [n.1]) :
    withoutSlash name = n.1 := by
  cases h with
  | empty => simp at hfields
  | name f hf hne =>
    rw [Lines.fields_of_ne_nil hne, List.splitOn_eq_singleton hf] at hfields
    rw [withoutSlash_of_notMem hf]
    have hlast : [] ++ [_] = ws ++ [n.1] := hfields
    simpa using (List.append_inj' hlast rfl).2
  | root r hr hroot =>
    rw [Lines.fields_append_cons, List.splitOn_nil] at hfields
    exact absurd (by simpa using (List.append_inj' hfields rfl).2 : [] = n.1) n.ne_nil.symm
  | split d f hf =>
    rw [Lines.fields_append_cons, List.splitOn_eq_singleton hf] at hfields
    rw [withoutSlash_of_notMem hf]
    simpa using (List.append_inj' hfields rfl).2

/-- The file name of a source that goes into a directory under it. -/
theorem fileName_of_target {dir name full : Str} {q m : Loc} {n : Name}
    (h : Path.Shape dir name full) (hs : w.lookup full = some (m ++ [n]))
    (hq : w.lookup dst = some q) (hd : w.target (dst ++ slash ++ name) = some (q ++ [n]))
    (hreplace : w.tree.IsDir (m ++ [n]) →
      ∀ kind, w.tree.kindAt (q ++ [n]) = some kind → ¬ kind.IsLink) :
    withoutSlash name = n.1 := by
  have hplain : ∀ {f : Str}, '/' ∉ f → f ≠ [] →
      w.target (dst ++ '/' :: f) = some (q ++ [n]) → f = n.1 := by
    intro f hf hne htarget
    obtain ⟨q', n', heq, rfl⟩ := World.name_of_target hf hne htarget
    have := (List.append_inj' heq rfl).2
    rw [List.singleton_inj.1 this]
  cases h with
  | empty =>
    rw [World.lookup_nil] at hs
    cases hs
  | name f hf hne =>
    rw [withoutSlash_of_notMem hf]
    exact hplain hf hne (by simpa [slash] using hd)
  | root r hr hroot =>
    have hrne : r ≠ [] := by
      rintro rfl
      have hroot : w.lookup ([] ++ ['/']) = some [] :=
        World.lookup_render w.tree.isDir_root (by decide)
      rw [hroot] at hs
      simp at hs
    have htext : dst ++ slash ++ (r ++ ['/']) = dst ++ '/' :: r ++ ['/'] := by simp [slash]
    rw [htext, World.target_append_slash (by simp)] at hd
    rw [withoutSlash, if_pos (by simp), List.dropLast_concat]
    exact hplain hr hrne hd
  | split d _ hf =>
    rw [withoutSlash_of_notMem hf]
    rcases eq_or_ne name [] with rfl | hne
    · -- The source is a directory, and what it replaces would be a link.
      exfalso
      have hdst : dst ≠ [] := by
        rintro rfl
        rw [World.lookup_nil] at hq
        cases hq
      have htext : dst ++ slash ++ [] = dst ++ ['/'] := by simp [slash]
      rw [htext, World.target_append_slash hdst] at hd
      obtain ⟨kind, hkind, hlink⟩ := World.lookup_target hq hd
      have := hlink (hreplace (World.lookup_dir_iff.1 hs).1 kind hkind)
      simp at this
    · exact hplain hf hne (by simpa [slash] using hd)

/-- A `move` that does what it should fits. -/
theorem fits_of_movesExactly {p : Prepared} (hp : PrepareCases sys w o dst p)
    (hok : p.ok = true) (hc : o.Coherent) (hdst : unify dst = dst)
    (h : Relocates w p.world w' o dst s d v) (hexact : MovesExactly w p.world w' o dst) :
    MoveFits w p.world o dst := by
  have hnolink := noLink_of_movesExactly hc h hexact
  obtain ⟨-, -, e, d', he, hd', hheld, -⟩ := hexact
  obtain ⟨e', u, he', hu, hes⟩ := World.lookupEntry_of_lookup h.source
  obtain rfl : e = e' := Option.some.inj (he.symm.trans he')
  have hlink : ¬ u.kind.IsLink := by
    rw [← isSymbolicLink_iff rfl (isEmpty_of_lookup hc h.source) he hu, hnolink]
    decide
  obtain rfl := hes hlink
  obtain rfl : v = u := Option.some.inj (h.node.symm.trans hu)
  obtain ⟨m, n, rfl⟩ := (List.eq_nil_or_concat' e).resolve_left h.canMove.source
  have hgrown := h.paved.toGrown
  have hs₁ : p.world.tree.get (m ++ [n]) = some v := hgrown.ext _ v hu
  -- The node of the source is at one place only.
  obtain rfl : d' = d := by
    have hheld' : w'.tree.get d' = some v := by
      have := hheld []
      rwa [List.append_nil, List.append_nil, hs₁] at this
    have hmoved : w'.tree.get d = some v := by
      have := FileTree.get_relocate_target h.canMove []
      rwa [List.append_nil, List.append_nil, hs₁, ← h.tree] at this
    exact FileTree.eq_of_ino hheld' hmoved rfl
  have hname : withoutSlash o.fileName = n.1 := by
    by_cases hinto : GoesInto w o dst
    · obtain ⟨q, hq, hdir⟩ := dir_of_goesInto hp hok hc hdst h hinto
      have hd := h.target
      rw [mvTarget_dir hq hdir] at hd
      obtain rfl := Option.some.inj hd
      rw [newPlace, if_pos hinto] at hd'
      refine fileName_of_target hc.shape (hgrown.lookup h.source) hq hd' fun hsdir kind hkind => ?_
      rintro ⟨target, rfl⟩
      have hreplace := h.replaceable
      rw [(isDir_iff hs₁).1 hsdir, FileTree.replaceable, hkind] at hreplace
      cases hreplace
    · have hfile : ¬ w.tree.IsDir (m ++ [n]) := by
        rw [isDir_iff hu, ← ofKind_eq_directory,
          ← getType_eq hc (stat_of_lookup h.source hu)]
        exact fun hdir => hinto (Or.inr (Or.inr hdir))
      obtain ⟨ws, q, n', hfields, hqn⟩ := World.lastName_of_file h.source he hfile
      obtain rfl : n = n' := List.singleton_inj.1 (List.append_inj' hqn rfl).2
      exact fileName_of_fields hc.shape hfields
  refine ⟨hnolink, ⟨m, n, h.source, hname⟩, fun hinto q hq hdir => ⟨n, hname, ?_⟩⟩
  have hd := h.target
  rw [mvTarget_dir hq hdir] at hd
  rw [newPlace, if_neg hinto] at hd'
  rw [hd', hd]

/-- A `move` that succeeds does what it should exactly when it fits. -/
theorem move_movesExactly_iff (sys : System) (w : World) (t : FileType) (path dst : Str)
    (hplain : PlainMove w (fresh t path) dst)
    (hok : (move sys w (fresh t path) dst).ok = true) :
    MovesExactly w (prepare sys w (fresh t path) dst).world
        (move sys w (fresh t path) dst).world (fresh t path) dst ↔
      MoveFits w (prepare sys w (fresh t path) dst).world (fresh t path) dst := by
  have hc := coherent_fresh t path
  have hp := prepare_cases sys w (fresh t path) dst
  obtain ⟨-, -, -, -, hdst, hprepared, -⟩ := move_mv hc rfl hplain hok
  obtain ⟨s, d, v, hmoved⟩ := move_relocates hc rfl hplain hok
  exact ⟨fits_of_movesExactly hp hprepared hc hdst hmoved,
    movesExactly_of_fits hp hprepared hc hdst hmoved⟩

theorem plainMove_of_realpath {r : Str} (h : w.realpath o.fullPath = some r)
    (hplain : (LibCommand.move r dst).PlainArgs) : PlainMove w o dst := by
  intro r' hr'
  rw [h] at hr'
  rw [← Option.some.inj hr']
  exact hplain

/-- A tree with a file `/f`, a directory `/dir`, and `/link`, which leads to the
file. -/
def fileWorld : World :=
  World.ofList [(["f"], .regular), (["dir"], .directory), (["link"], .symlink ['/', 'f'])]

/-- The file goes into the directory. -/
theorem move_movesExactly_iff_file :
    MovesExactly fileWorld
        (prepare System.granting fileWorld (fresh .regularFile ['/', 'f']) "/dir".toList).world
        (move System.granting fileWorld (fresh .regularFile ['/', 'f']) "/dir".toList).world
        (fresh .regularFile ['/', 'f']) "/dir".toList ↔
      MoveFits fileWorld
        (prepare System.granting fileWorld (fresh .regularFile ['/', 'f']) "/dir".toList).world
        (fresh .regularFile ['/', 'f']) "/dir".toList :=
  move_movesExactly_iff System.granting fileWorld .regularFile ['/', 'f'] "/dir".toList
    (plainMove_of_realpath (by decide : _ = some ['/', 'f']) (by decide)) (by decide)

/-- Moving the link moves the file and leaves the link. -/
theorem not_movesExactly_of_link :
    ¬ ∀ (sys : System) (w : World) (t : FileType) (path dst : Str),
      (∀ c ∈ partsOf path, c ≠ dot ∧ c ≠ dotdot) → PlainMove w (fresh t path) dst →
      (move sys w (fresh t path) dst).ok = true →
      MovesExactly w (prepare sys w (fresh t path) dst).world
        (move sys w (fresh t path) dst).world (fresh t path) dst := by
  intro h
  have hplain : PlainMove fileWorld (fresh .uknown "/link".toList) "/new".toList :=
    plainMove_of_realpath (by decide : _ = some ['/', 'f']) (by decide)
  have hleft : (move System.granting fileWorld (fresh .uknown "/link".toList)
      "/new".toList).world.lstat (fresh .uknown "/link".toList).fullPath ≠ none := by decide
  exact hleft (h System.granting fileWorld .uknown "/link".toList "/new".toList (by decide)
    hplain (by decide)).2.1

end FsObject

end SysFs
