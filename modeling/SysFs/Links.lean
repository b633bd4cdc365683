import SysFs.Outcome

/-!
# Making a link and removing it again

`createSymLink` writes the path of the source into the link as it stands, and
the link is read in its own directory, not in the working directory.  So the
text of a relative source means something else there, unless the two happen to
agree.  A separator at the end of a path matters too: the calls that look at an
object leave it out, and the text of the link and the `unlink` call do not.

`createSymLink_spec` says where the link is made, `removeSymLink_spec` what its
removal does, and `createSymLink_roundTrip_iff` when the two together do what a
link is for.
-/

namespace SysFs

open Posix

namespace FsObject

variable {sys : System} {w w' : World} {s l : Str} {t e q : Loc} {n : Name}

/-! ## Making a link -/

/-- A link is not made over something that is there. -/
theorem symlink_render {text : Str} (hget : w.tree.get t ≠ none) :
    sys.symlink w text (World.render t) = none := by
  by_contra hne
  obtain ⟨w', hsymlink⟩ := Option.ne_none_iff_exists'.1 hne
  obtain ⟨-, -, -, -, e, he, hnone, -⟩ := System.symlink_spec hsymlink
  rcases eq_or_ne t [] with rfl | ht
  · exact absurd he (by simp [show w.entry (World.render []) = none from rfl])
  · rw [World.entry_render (FileTree.isDir_dropLast_of_get ht hget) ht] at he
    exact hget (Option.some.inj he ▸ hnone)

theorem symlink_of_lookup {text path : Str} (h : w.lookup path = some t) :
    sys.symlink w text (World.render t) = none := by
  obtain ⟨v, hv, -⟩ := World.lookup_result h
  exact symlink_render (by rw [hv]; exact Option.some_ne_none v)

/-- A link that is made is a name in a directory, where nothing was once the
parents of its path were made, and the source is there. -/
theorem createSymLink_spec (h : (createSymLink sys w (ofStr s) l).ok = true) :
    ∃ t q n, w.lookup (ofStr s).fullPath = some t ∧
      (paved sys w l).world.entry (ofStr l).fullPath = some (q ++ [n]) ∧
      sys.symlink (paved sys w l).world (unify s) (World.render q ++ '/' :: n.1)
        = some (createSymLink sys w (ofStr s) l).world := by
  have hkept := kept_checkIfExists (coherent_ofStr s) w
  have hnative : ((ofStr s).checkIfExists w).toNative = unify s := hkept.path
  have htype : (destination w l).mType = .uknown := (kept_destination w l).type
  have hcreate : create sys w (destination w l) defaultMode
      = ⟨false, (paved sys w l).obj, (paved sys w l).world, false⟩ :=
    create_of_uknown htype (kept_destination w l).coherent
  unfold createSymLink at h ⊢
  simp only [show (ofStr l).checkIfExists w = destination w l from rfl, hcreate, hnative] at h ⊢
  split at h
  · cases h
  · rename_i hexists
    rw [if_neg hexists]
    split at h
    · cases h
    · rename_i hfree
      rw [if_neg hfree]
      have hthere : (destination w s).mExists = true := mExists_of_not hexists
      obtain ⟨t, ht⟩ := Option.ne_none_iff_exists'.1 (destination_mExists_iff.1 hthere)
      cases hdst : (destination w l).mExists with
      | true =>
        -- A link cannot take the place of a directory.
        obtain ⟨m, hm⟩ := Option.ne_none_iff_exists'.1 (destination_mExists_iff.1 hdst)
        have hkeptl := kept_destination w l
        rw [← hkeptl.fullPath (coherent_ofStr l)] at hm
        have hexistsl : ((destination w l).checkIfExists w).mExists = true := by
          rw [checkIfExists_of_mExists hdst]
          exact hdst
        obtain ⟨hreal, hworld⟩ := getAbsolutePath_of_lookup sys hkeptl.coherent hexistsl hm
        simp only [hdst, if_true, hreal, hworld] at h
        rw [symlink_of_lookup hm] at h
        cases h
      | false =>
        simp only [hdst, Bool.false_eq_true, if_false, paved_again] at h ⊢
        rw [paved_absolute] at h ⊢
        cases hlocated : located (paved sys w l).world (ofStr l) with
        | none =>
          rw [hlocated] at h
          cases h
        | some r =>
          rw [hlocated, Option.getD_some] at h
          rw [Option.getD_some]
          rcases located_cases (coherent_ofStr l) hlocated with ⟨m, hm, rfl⟩ |
            ⟨-, q, n, -, hq, -, hentry, -, rfl⟩
          · rw [symlink_of_lookup hm] at h
            cases h
          · refine ⟨t, q, n, ht, hentry, ?_⟩
            cases hsymlink : sys.symlink (paved sys w l).world (unify s)
                (World.render q ++ '/' :: n.1) with
            | none =>
              rw [hsymlink] at h
              cases h
            | some w' => rfl

/-! ## Removing it -/

/-- A separator at the end is no name. -/
theorem entry_append_slash (w : World) (p : Str) : w.entry (p ++ ['/']) = none := by
  by_contra hne
  obtain ⟨e, he⟩ := Option.ne_none_iff_exists'.1 hne
  obtain ⟨ws, n, q, seen, hfields, -⟩ := entryAt_eq_some_iff.1 he
  rw [Lines.fields_append_cons, List.splitOn_nil] at hfields
  have hlast : [[]] = [n.1] := (List.append_inj' hfields rfl).2
  exact n.ne_nil (List.singleton_inj.1 hlast).symm

/-- The string of a path whose full path has an entry is the full path, unless
there is a separator at its end. -/
theorem unify_eq_fullPath (hentry : w.entry (ofStr l).fullPath = some e) :
    unify l = (ofStr l).fullPath ∨ unify l = (ofStr l).fullPath ++ ['/'] := by
  have hofStr := Path.ofStr_unify l
  rcases Path.fullPath_ofStr_cases (unify_unify l) with h | h | ⟨h, -, -⟩
  · rw [hofStr] at h
    exact Or.inl h.symm
  · rw [hofStr] at h
    exact Or.inr h
  · rw [hofStr] at h
    change (ofStr l).fullPath = unify l ++ ['/'] at h
    rw [h, entry_append_slash] at hentry
    cases hentry

/-- `unlink` of the string of a path removes the entry of the full path, which
is no directory, unless there is a separator at the end of the string. -/
theorem unlink_native (hentry : w.entry (ofStr l).fullPath = some e)
    (hfile : ¬ w.tree.IsDir e) :
    sys.unlink w (unify l)
      = if (unify l).getLast? = some '/' then none else sys.change w e (w.tree.remove e) := by
  split
  · rename_i hlast
    obtain ⟨p, hp⟩ := List.getLast?_eq_some_iff.1 hlast
    rw [System.unlink, hp, entry_append_slash]
    rfl
  · rename_i hlast
    have hfull : unify l = (ofStr l).fullPath := by
      refine (unify_eq_fullPath hentry).resolve_right fun h => hlast ?_
      rw [h, List.getLast?_concat]
    rw [hfull, System.unlink, hentry, Option.bind_eq_bind, Option.bind_some, if_neg hfile]

/-- For a link that leads somewhere, `removeSymLink` is one `unlink` call, and
the path of the object is the one of the location that the link leads to. -/
theorem removeSymLink_spec (sys : System) {v : Node}
    (hl : w.lookup (ofStr l).fullPath = some t)
    (hentry : w.lookupEntry (ofStr l).fullPath = some e) (hv : w.tree.get e = some v)
    (hlink : v.kind.IsLink) :
    ((removeSymLink sys w (ofStr l)).ok = true ↔ (sys.unlink w (unify l)).isSome) ∧
      ∀ w', sys.unlink w (unify l) = some w' → (removeSymLink sys w (ofStr l)).world = w' ∧
        (removeSymLink sys w (ofStr l)).obj.fullPath = (ofStr (World.render t)).fullPath := by
  have hkept := kept_checkIfExists (coherent_ofStr l) w
  have hl' : w.lookup ((ofStr l).checkIfExists w).fullPath = some t := by
    rwa [hkept.fullPath (coherent_ofStr l)]
  have hexists : ((ofStr l).checkIfExists w).mExists = true := by
    obtain ⟨u, hu, -⟩ := World.lookup_result hl
    exact (checkIfExists_of_not_mExists (coherent_ofStr l) rfl).2 ⟨u, stat_of_lookup hl hu, rfl⟩
  have hexists' : (((ofStr l).checkIfExists w).checkIfExists w).mExists = true := by
    rw [checkIfExists_of_mExists hexists]
    exact hexists
  have hsym : ((ofStr l).checkIfExists w).isSymbolicLink w = true :=
    (isSymbolicLink_iff (hkept.fullPath (coherent_ofStr l))
      (isEmpty_of_lookup hkept.coherent hl') hentry hv).2 hlink
  obtain ⟨hreal, hworld⟩ := getAbsolutePath_of_lookup sys hkept.coherent hexists' hl'
  have hnative : (((ofStr l).checkIfExists w).getAbsolutePath sys w).1.toNative = unify l :=
    (hkept.trans (getAbsolutePath_kept hkept.coherent)).path
  unfold removeSymLink
  simp only [hexists, hsym, hworld, hreal, hnative, Bool.not_true, Bool.false_eq_true, if_false,
    if_true]
  cases sys.unlink w (unify l) with
  | none => exact ⟨by simp, fun w' h => nomatch h⟩
  | some w' =>
    refine ⟨by simp, fun w'' h => ⟨Option.some.inj h, rfl⟩⟩

/-! ## A link that is made and removed -/

/-- The second world is the first one with a link at the path. -/
structure Linked (w w' : World) (text l : Str) (e : Loc) : Prop where
  grown : Grown w w'
  clock : w'.clock = w.clock + 1
  text_ne : text ≠ []
  entry : w.entry (ofStr l).fullPath = some e
  free : w.tree.get e = none
  link : w'.tree.kindAt e = some (.symlink text)
  same : ∀ x, x ≠ e → w'.tree.get x = w.tree.get x

theorem createSymLink_linked (h : (createSymLink sys w (ofStr s) l).ok = true) :
    ∃ t e, w.lookup (ofStr s).fullPath = some t ∧
      Linked (paved sys w l).world (createSymLink sys w (ofStr s) l).world (unify s) l e := by
  obtain ⟨t, q, n, ht, hentry, hsymlink⟩ := createSymLink_spec h
  obtain ⟨hext, hcwd, hclock, htext, e, he, hnone, hlink, hsame⟩ := System.symlink_spec hsymlink
  have hdir : (paved sys w l).world.tree.IsDir q := by
    have := World.isDir_of_entry hentry
    rwa [List.dropLast_concat] at this
  rw [World.entry_render_concat hdir] at he
  obtain rfl := Option.some.inj he
  exact ⟨t, q ++ [n], ht, ⟨hext, hcwd⟩, hclock, htext, hentry, hnone, hlink, hsame⟩

namespace Linked

variable {text : Str}

/-- The path leads to what the text of the link reads as. -/
theorem lookup_iff (h : Linked w w' text l e) :
    w'.lookup (ofStr l).fullPath = some t ↔ w.Reads (ofStr l).fullPath text t :=
  World.lookup_eq_some_iff_reads h.entry h.grown.ext h.grown.cwd h.link h.text_ne h.same

theorem lookupEntry (h : Linked w w' text l e) :
    w'.lookupEntry (ofStr l).fullPath = some e := by
  have hentry := World.entry_grow h.entry h.grown.ext h.grown.cwd
  obtain ⟨ws, n, q, seen, hws, -⟩ := entryAt_eq_some_iff.1 hentry
  rw [World.lookupEntry, if_pos, hentry]
  rw [lastName_eq_some_iff.2 ⟨ws, hws⟩]
  rfl

theorem not_isDir (h : Linked w w' text l e) : ¬ w'.tree.IsDir e := by
  intro hdir
  rw [FileTree.IsDir, h.link] at hdir
  cases hdir

/-- The link can be removed when its path has no separator at the end and the
system grants it. -/
theorem unlink_isSome_iff (h : Linked w w' text l e) :
    (sys.unlink w' (unify l)).isSome = true ↔
      (unify l).getLast? ≠ some '/' ∧ sys.allows (w.clock + 1) e = true := by
  have hentry := World.entry_grow h.entry h.grown.ext h.grown.cwd
  have hget : w'.tree.get e ≠ none := by
    rw [Ne, ← FileTree.kindAt_eq_none, h.link]
    exact Option.some_ne_none _
  rw [unlink_native hentry h.not_isDir, ← h.clock]
  split
  · rename_i hlast
    simp [hlast]
  · rename_i hlast
    rw [System.change_remove_isSome_iff hget]
    exact ⟨fun h => ⟨hlast, h.2⟩, fun h => ⟨ne_nil_of_entryAt hentry, h.2⟩⟩

/-- The world without the link is the one before it. -/
theorem unlink_spec {w'' : World} (h : Linked w w' text l e)
    (hunlink : sys.unlink w' (unify l) = some w'') :
    w''.cwd = w.cwd ∧ w''.tree.get e = none ∧ ∀ x, w''.tree.get x = w.tree.get x := by
  have hentry := World.entry_grow h.entry h.grown.ext h.grown.cwd
  rw [unlink_native hentry h.not_isDir] at hunlink
  split at hunlink
  · cases hunlink
  · obtain ⟨-, hcwd, hget⟩ := System.change_remove_spec hunlink
    have hgone : w''.tree.get e = none := by rw [hget, if_pos List.prefix_rfl]
    refine ⟨hcwd.trans h.grown.cwd, hgone, fun x => ?_⟩
    rcases eq_or_ne x e with rfl | hx
    · rw [hgone, h.free]
    · rw [hget, ← h.same x hx]
      split
      · rename_i hbelow
        -- A link has nothing below it.
        by_contra hne
        exact hx (FileTree.eq_of_prefix h.not_isDir hbelow (Ne.symm hne))
      · rfl

end Linked

/-- What a link is for, in the world in which it was made: it leads to its
source, and it can be removed, it alone, which leaves a path of the source. -/
structure RoundTrip (sys : System) (w : World) (s l : Str) : Prop where
  follows : w.lookup (ofStr l).fullPath = w.lookup (ofStr s).fullPath
  removed : (removeSymLink sys w (ofStr l)).ok = true
  gone : (removeSymLink sys w (ofStr l)).world.lstat (ofStr l).fullPath = none
  others : ∀ x, w.lookupEntry (ofStr l).fullPath ≠ some x →
    (removeSymLink sys w (ofStr l)).world.tree.get x = w.tree.get x
  names : (removeSymLink sys w (ofStr l)).world.lookup (removeSymLink sys w (ofStr l)).obj.fullPath
    = (removeSymLink sys w (ofStr l)).world.lookup (ofStr s).fullPath

/-- The string of the source, read in the directory of the link, leads to what
the source leads to, and so does its absolute path as the class keeps it.  The
path of the link has no separator at its end, and its removal is granted. -/
structure Faithful (sys : System) (w : World) (s l : Str) : Prop where
  reads : ∃ t, w.lookup (ofStr s).fullPath = some t ∧
    (paved sys w l).world.Reads (ofStr l).fullPath (unify s) t ∧
    (paved sys w l).world.lookup (ofStr (World.render t)).fullPath = some t
  name : (unify l).getLast? ≠ some '/'
  granted : ∀ e, (paved sys w l).world.entry (ofStr l).fullPath = some e →
    sys.allows ((paved sys w l).world.clock + 1) e = true

/-- Equal trees are looked up in the same way. -/
theorem lookup_of_get_eq {path : Str} (hget : ∀ x, w'.tree.get x = w.tree.get x)
    (hcwd : w'.cwd = w.cwd) : w'.lookup path = w.lookup path := by
  have hext : w.tree.Extends w'.tree := fun x v hx => (hget x).trans hx
  have hext' : w'.tree.Extends w.tree := fun x v hx => (hget x).symm.trans hx
  refine Option.ext fun t => ?_
  exact ⟨fun h => World.lookup_grow h hext' hcwd.symm, fun h => World.lookup_grow h hext hcwd⟩

/-- A link that was made is what a link is for exactly when its text says in its
own directory what the source says in the working directory. -/
theorem createSymLink_roundTrip_iff (sys : System) (w : World) (s l : Str)
    (h : (createSymLink sys w (ofStr s) l).ok = true) :
    RoundTrip sys (createSymLink sys w (ofStr s) l).world s l ↔ Faithful sys w s l := by
  obtain ⟨t, e, ht, hlinked⟩ := createSymLink_linked h
  generalize (createSymLink sys w (ofStr s) l).world = w' at hlinked ⊢
  have hpaved := (paved_paved sys w l).toGrown.lookup ht
  have hsource : w'.lookup (ofStr s).fullPath = some t := hlinked.grown.lookup hpaved
  obtain ⟨v, hv, hkind⟩ := Option.map_eq_some_iff.1 hlinked.link
  have hlink : v.kind.IsLink := ⟨unify s, hkind⟩
  constructor
  · intro hround
    have hfollows := hround.follows.trans hsource
    obtain ⟨hok, hafter⟩ := removeSymLink_spec sys hfollows hlinked.lookupEntry hv hlink
    have hunlink := hok.1 hround.removed
    obtain ⟨hname, hgranted⟩ := hlinked.unlink_isSome_iff.1 hunlink
    obtain ⟨w'', hw''⟩ := Option.isSome_iff_exists.1 hunlink
    obtain ⟨hworld, hobj⟩ := hafter w'' hw''
    obtain ⟨hcwd, -, hget⟩ := hlinked.unlink_spec hw''
    have hnames := hround.names
    rw [hworld, hobj, lookup_of_get_eq hget hcwd, lookup_of_get_eq hget hcwd, hpaved] at hnames
    refine ⟨⟨t, ht, hlinked.lookup_iff.1 hfollows, hnames⟩, hname, fun e' he' => ?_⟩
    rw [hlinked.entry] at he'
    rwa [← Option.some.inj he']
  · rintro ⟨⟨t', ht', hreads, hreal⟩, hname, hgranted⟩
    obtain rfl := Option.some.inj (ht.symm.trans ht')
    have hfollows := hlinked.lookup_iff.2 hreads
    obtain ⟨hok, hafter⟩ := removeSymLink_spec sys hfollows hlinked.lookupEntry hv hlink
    have hunlink := hlinked.unlink_isSome_iff.2 ⟨hname, hgranted e hlinked.entry⟩
    obtain ⟨w'', hw''⟩ := Option.isSome_iff_exists.1 hunlink
    obtain ⟨hworld, hobj⟩ := hafter w'' hw''
    obtain ⟨hcwd, hgone, hget⟩ := hlinked.unlink_spec hw''
    refine ⟨hfollows.trans hsource.symm, hok.2 hunlink, ?_, fun x hx => ?_, ?_⟩
    · rw [hworld]
      refine World.lstat_eq_none_of_gone hlinked.lookupEntry hgone ?_
        (hcwd.trans hlinked.grown.cwd.symm)
      intro x u hu
      exact hlinked.grown.ext x u ((hget x).symm.trans hu)
    · have hne : x ≠ e := fun heq => hx (heq ▸ hlinked.lookupEntry)
      rw [hworld, hget, hlinked.same x hne]
    · rw [hworld, hobj, lookup_of_get_eq hget hcwd, lookup_of_get_eq hget hcwd, hpaved, hreal]

/-- A file in the working directory, and another directory. -/
def siblingsWorld : World := World.ofList [(["file"], .regular), (["dir"], .directory)]

/-- A link to the file in the other directory, by its absolute path. -/
theorem createSymLink_roundTrip_iff_absolute :
    RoundTrip System.granting
        (createSymLink System.granting siblingsWorld (ofStr "/file".toList) "/dir/link".toList).world
        "/file".toList "/dir/link".toList ↔
      Faithful System.granting siblingsWorld "/file".toList "/dir/link".toList :=
  createSymLink_roundTrip_iff System.granting siblingsWorld "/file".toList "/dir/link".toList
    (by decide)

/-- By its relative path, the link leads nowhere. -/
theorem not_roundTrip_of_relative :
    ¬ ∀ (sys : System) (w : World) (s l : Str), w.lookup (ofStr s).fullPath ≠ none →
      w.lstat (ofStr l).fullPath = none → (createSymLink sys w (ofStr s) l).ok = true →
      RoundTrip sys (createSymLink sys w (ofStr s) l).world s l := by
  intro h
  have hround := h System.granting siblingsWorld "file".toList "/dir/link".toList
    (by decide) (by decide) (by decide)
  exact absurd hround.follows (by decide)

end FsObject

end SysFs
