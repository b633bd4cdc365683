import SysFs.Objects

/-!
# The names that `create` tries

As long as something of another kind is at the path, `create` goes on to the
next name: it puts a `#` before the extension and calls itself.  `Creates` is
one run of `create` without a bound, with the number of the names that it passes
over.

From the second name on, all of them are in one directory that is there, so
`makePath` makes nothing any more, and every name that is passed over is an
entry of the tree.  They get longer, so there are less and less entries left
that can still be met (`room`).  `exists_creates` draws the conclusion: every
run ends, and so the bound of the model is never what ends it
(`createLoop_eq_create`).

What a run leaves behind is then an induction on the run: it adds entries and
changes none (`Creates.grown`), and when it succeeds the object is at the first
name of the sequence that was free or taken by its own kind
(`create_first_free`).
-/

namespace SysFs

open Posix

/-! ## The next name -/

/-- The path that `create` goes on to. -/
def Path.nextPath (p : Path) : Str := p.directoryPath ++ p.baseName ++ ['#'] ++ p.extension

/-- The next path depends on the path alone. -/
theorem Path.nextPath_congr {p p' : Path} (h : p.Coherent) (h' : p'.Coherent)
    (hpath : p'.mPath = p.mPath) : p'.nextPath = p.nextPath := by
  obtain ⟨-, -, hdir, hbase, hext⟩ := h.parts
  obtain ⟨-, -, hdir', hbase', hext'⟩ := h'.parts
  rw [Path.nextPath, Path.nextPath, hdir, hbase, hext, hdir', hbase', hext', hpath]

/-- With a `#` in it, a name is no root. -/
theorem Path.isRootPart_next (s : Str) :
    isRootPart ((ofStr s).baseName ++ '#' :: (ofStr s).extension) = false := by
  rcases baseName_cases s with ⟨-, hext⟩ | ⟨hbase, hext, -⟩
  · rw [hext]
    match (ofStr s).baseName with
    | [] => rfl
    | [c] => simp [isRootPart]
    | c :: c' :: rest => simp [isRootPart]
  · have hlen := List.length_pos_iff.2 hbase
    have hlen' := List.length_pos_iff.2 hext
    unfold isRootPart
    rw [Bool.or_eq_false_iff, Bool.and_eq_false_iff]
    refine ⟨by simp, Or.inl ?_⟩
    rw [beq_eq_false_iff_ne, List.length_append, List.length_cons]
    omega

namespace FsObject

/-- The path of the object is a name with a `#` in a directory. -/
structure Named (o : FsObject) (d : Str) (n : Name) : Prop where
  coherent : o.Coherent
  dir : d = [] ∨ ∃ e, d = e ++ ['/']
  directoryPath : o.directoryPath = d
  fileName : o.fileName = n.1
  fullPath : o.fullPath = d ++ n.1

/-- A name with a `#` in a directory, as a new path. -/
theorem named_setPath (o : FsObject) (d base ext : Str) (hd : d = [] ∨ ∃ e, d = e ++ ['/'])
    (hback : '\\' ∉ d ++ base ++ ext) (hslash : '/' ∉ base ++ ext)
    (hroot : isRootPart (base ++ '#' :: ext) = false) :
    ∃ n : Name, n.1 = base ++ '#' :: ext ∧ Named (o.setPath (d ++ base ++ ['#'] ++ ext)) d n := by
  have htext : d ++ base ++ ['#'] ++ ext = d ++ (base ++ '#' :: ext) := by simp
  have hunify : unify (d ++ (base ++ '#' :: ext)) = d ++ (base ++ '#' :: ext) :=
    unify_of_notMem (by simpa using hback)
  have hslash' : '/' ∉ base ++ '#' :: ext := by simpa using hslash
  have hsharp : '#' ∈ base ++ '#' :: ext := by simp
  have hname : IsName (base ++ '#' :: ext) := by
    refine ⟨?_, ?_, ?_, hslash'⟩ <;>
      · intro h
        rw [h] at hsharp
        exact absurd hsharp (by decide)
  obtain ⟨hdir, hfile, hfull⟩ := Path.parts_ofStr_name hd hunify hslash' hname.1 hroot
  rw [htext]
  exact ⟨⟨_, hname⟩, rfl, Path.Coherent.of_setPath o.toPath _, hd, hdir, hfile, hfull⟩

variable {sys : System} {w : World} {o : FsObject} {d : Str} {n : Name} {q : Loc} {mode : Nat}

/-- The next path after a name in a directory is a longer name there. -/
theorem named_nextPath (hc : o.Coherent)
    (hd : o.directoryPath = [] ∨ ∃ e, o.directoryPath = e ++ ['/'])
    (hfull : o.fullPath = o.directoryPath ++ o.fileName) (hf : '/' ∉ o.fileName)
    (o' : FsObject) : ∃ n : Name, n.1.length = o.fileName.length + 1 ∧
      Named (o'.setPath o.nextPath) o.directoryPath n := by
  have hparts : o.baseName ++ o.extension = o.fileName := by
    rw [hc.parts.2.2.2.1, hc.parts.2.2.2.2, hc.fileName_eq]
    rcases Path.baseName_cases o.mPath with ⟨hbase, hext⟩ | ⟨-, -, h⟩
    · rw [hbase, hext, List.append_nil]
    · exact h
  have hroot : isRootPart (o.baseName ++ '#' :: o.extension) = false := by
    rw [hc.parts.2.2.2.1, hc.parts.2.2.2.2]
    exact Path.isRootPart_next o.mPath
  obtain ⟨n, hn, hnamed⟩ := named_setPath o' _ _ _ hd
    (by rw [List.append_assoc, hparts, ← hfull]; exact hc.backslash_notMem_fullPath)
    (by rwa [hparts]) hroot
  refine ⟨n, ?_, hnamed⟩
  rw [hn, ← hparts, List.length_append, List.length_append, List.length_cons]
  omega

/-! ## One round of `create` -/

/-- The kind of entry that `create` leaves as it is. -/
def Suits (o : FsObject) (kind : Kind) : Prop :=
  (kind = .directory ∧ o.mType = .directory) ∨ (kind = .regular ∧ o.mType = .regularFile)

/-- Something of another kind is at the path, so `create` goes on. -/
def Clashes (w : World) (o : FsObject) : Prop :=
  (o.mType = .regularFile ∨ o.mType = .directory) ∧
    ∃ v, o.getStat w = some v ∧ ¬ o.Suits v.kind

/-- What `create` does after `makePath`, when it does not go on. -/
def attempt (sys : System) (mode : Nat) (w : World) (o : FsObject) : Outcome :=
  if o.mType ≠ .regularFile ∧ o.mType ≠ .directory then ⟨false, o, w, false⟩
  else if (o.getStat w).isSome then ⟨true, o, w, false⟩
  else if o.mType = .directory then
    ⟨(sys.mkdir w o.fullPath mode).isSome, o, (sys.mkdir w o.fullPath mode).getD w, false⟩
  else
    ⟨(sys.creat w o.fullPath mode).isSome, o,
      ((sys.creat w o.fullPath mode).map Prod.snd).getD w, false⟩

/-- A run of `create` that passes over `k` names. -/
inductive Creates (sys : System) (mode : Nat) : Nat → World → FsObject → Outcome → Prop where
  | stop {w : World} {o : FsObject}
      (h : ¬ Clashes (makePath sys w o defaultMode).world (makePath sys w o defaultMode).obj) :
      Creates sys mode 0 w o
        (attempt sys mode (makePath sys w o defaultMode).world (makePath sys w o defaultMode).obj)
  | next {k : Nat} {w : World} {o : FsObject} {out : Outcome}
      (h : Clashes (makePath sys w o defaultMode).world (makePath sys w o defaultMode).obj)
      (rest : Creates sys mode k (makePath sys w o defaultMode).world
        ((makePath sys w o defaultMode).obj.setPath
          (makePath sys w o defaultMode).obj.nextPath) out) :
      Creates sys mode (k + 1) w o { out with pathSet := true }

/-- A bound that is large enough does not show. -/
theorem Creates.createLoop_eq {k : Nat} {out : Outcome} (h : Creates sys mode k w o out)
    {fuel : Nat} (hfuel : k < fuel) : createLoop sys mode fuel w o = out := by
  induction h generalizing fuel with
  | @stop w o hclash =>
    obtain ⟨fuel, rfl⟩ := Nat.exists_eq_succ_of_ne_zero (Nat.ne_of_gt hfuel)
    unfold createLoop attempt
    dsimp only
    split
    · rfl
    · rename_i htype
      cases hstat : (makePath sys w o defaultMode).obj.getStat
          (makePath sys w o defaultMode).world with
      | none =>
        simp only [Option.isSome_none, Bool.false_eq_true, if_false]
        split
        · cases sys.mkdir (makePath sys w o defaultMode).world
            (makePath sys w o defaultMode).obj.fullPath mode <;> rfl
        · cases sys.creat (makePath sys w o defaultMode).world
            (makePath sys w o defaultMode).obj.fullPath mode <;> rfl
      | some v =>
        have hsuits : (makePath sys w o defaultMode).obj.Suits v.kind := by
          by_contra hnot
          exact hclash ⟨by tauto, v, hstat, hnot⟩
        simp only [Option.isSome_some, if_true]
        exact if_pos hsuits
  | @next k w o out hclash rest ih =>
    obtain ⟨fuel, rfl⟩ := Nat.exists_eq_succ_of_ne_zero (Nat.ne_of_gt (Nat.zero_lt_of_lt hfuel))
    obtain ⟨htype, v, hstat, hnot⟩ := hclash
    have hrest := ih (Nat.lt_of_succ_lt_succ hfuel)
    unfold Suits at hnot
    unfold Path.nextPath at hrest
    unfold createLoop
    dsimp only
    rw [if_neg (by tauto), hstat]
    dsimp only
    rw [if_neg hnot, hrest]

/-- A name that is passed over leads somewhere. -/
theorem Clashes.lookup_ne_none {o' : FsObject} (hc : o.Coherent) (hkept : Kept o o')
    (h : Clashes w o') : w.lookup o.fullPath ≠ none := by
  obtain ⟨-, v, hstat, -⟩ := h
  rw [getStat_eq hkept.coherent, hkept.fullPath hc] at hstat
  rw [Ne, ← World.stat_eq_none_iff, hstat]
  exact Option.some_ne_none _

/-- The directory path, empty for the working directory, leads to a
directory. -/
def Leads (w : World) (d : Str) (q : Loc) : Prop := (d = [] ∧ q = w.cwd) ∨ w.lookup d = some q

/-- Nothing is made for a name in a directory that is there. -/
theorem makePath_world_of_leads (hn : Named o d n) (hq : Leads w d q) :
    (makePath sys w o mode).world = w := by
  cases h : (o.checkIfExists w).mExists with
  | true => rw [makePath_of_exists h]
  | false =>
    rw [makePath_of_not_exists hn.coherent h]
    change (makeParents sys w o.directoryPath mode).2 = w
    rcases hq with ⟨hd, -⟩ | hq
    · rw [hn.directoryPath, hd]
      rfl
    · rw [← hn.directoryPath] at hq
      exact makeParents_of_lookup hn.coherent.shape hq mode

/-- A name that leads somewhere is an entry of its directory. -/
theorem get_ne_none_of_leads (hd : d = [] ∨ ∃ e, d = e ++ ['/']) (hq : Leads w d q)
    (htaken : w.lookup (d ++ n.1) ≠ none) : w.tree.get (q ++ [n]) ≠ none := by
  obtain ⟨l, hl⟩ := Option.ne_none_iff_exists'.1 htaken
  have hname : n.1.splitOn '/' = [n.1] := List.splitOn_eq_singleton n.slash_notMem
  rcases hd with rfl | ⟨e, rfl⟩
  · obtain rfl : q = w.cwd := by
      rcases hq with ⟨-, hq⟩ | hq
      · exact hq
      · rw [World.lookup_nil] at hq
        cases hq
    rw [List.nil_append] at hl
    have hfields : Lines.fields '/' n.1 = [] ++ [n.1] := by
      rw [Lines.fields_of_ne_nil n.ne_nil, hname, List.nil_append]
    exact World.get_ne_none_of_entry [] hl (World.entry_name hl) hfields
  · have hq' : w.lookup (e ++ ['/']) = some q := by
      rcases hq with ⟨hnil, -⟩ | hq
      · exact absurd hnil (by simp)
      · exact hq
    rw [List.append_assoc, List.singleton_append] at hl
    have hfields : Lines.fields '/' (e ++ '/' :: n.1) = e.splitOn '/' ++ [n.1] := by
      rw [Lines.fields_append_cons, hname]
    exact World.get_ne_none_of_entry _ hl (World.entry_concat hq') hfields

/-! ## The names that are left -/

/-- The number of characters in the names of a location. -/
def width (l : Loc) : Nat := (l.flatMap Subtype.val).length

/-- How many of the entries of a tree have names with `k` characters or more. -/
def room (t : FileTree) (k : Nat) : Nat :=
  (t.entries.dom.filter fun l => k ≤ width l).length

theorem width_concat (q : Loc) (n : Name) : width (q ++ [n]) = width q + n.1.length := by
  simp [width]

/-- An entry makes room for one. -/
theorem room_succ_lt {t : FileTree} {l : Loc} (h : t.get l ≠ none) :
    room t (width l + 1) < room t (width l) := by
  have hsub : (t.entries.dom.filter fun x => width l + 1 ≤ width x)
      = (t.entries.dom.filter fun x => width l ≤ width x).filter
          fun x => width l + 1 ≤ width x := by
    rw [List.filter_filter]
    refine List.filter_congr fun x _ => ?_
    rw [← Bool.decide_and]
    exact decide_eq_decide.2 (by omega)
  rw [room, room, hsub, List.length_filter_lt_length_iff_exists]
  exact ⟨l, List.mem_filter.2 ⟨t.entries.mem_dom l h, by simp⟩, by simp⟩

/-- The root has no name. -/
theorem room_lt_length {t : FileTree} {k : Nat} (hk : 0 < k) :
    room t k < t.entries.dom.length := by
  have hroot : [] ∈ t.entries.dom := t.entries.mem_dom [] t.isDir_root.get_ne_none
  rw [room, List.length_filter_lt_length_iff_exists]
  exact ⟨[], hroot, by simp [width]; omega⟩

/-- Names in a directory that is there run out. -/
theorem creates_of_room (sys : System) (mode : Nat) (hn : Named o d n) (hq : Leads w d q)
    {bound : Nat} (hbound : room w.tree (width (q ++ [n])) ≤ bound) :
    ∃ k out, k ≤ bound ∧ Creates sys mode k w o out := by
  induction bound generalizing o n with
  | zero =>
    refine ⟨0, _, Nat.le_refl 0, Creates.stop fun hclash => ?_⟩
    have htaken := hclash.lookup_ne_none hn.coherent (makePath_kept hn.coherent)
    rw [makePath_world_of_leads hn hq, hn.fullPath] at htaken
    have hlt := room_succ_lt (get_ne_none_of_leads hn.dir hq htaken)
    omega
  | succ bound ih =>
    by_cases hclash : Clashes (makePath sys w o defaultMode).world
        (makePath sys w o defaultMode).obj
    · have hkept : Kept o (makePath sys w o defaultMode).obj := makePath_kept hn.coherent
      have htaken := hclash.lookup_ne_none hn.coherent hkept
      rw [makePath_world_of_leads hn hq, hn.fullPath] at htaken
      have hlt := room_succ_lt (get_ne_none_of_leads hn.dir hq htaken)
      obtain ⟨n', hlen, hn'⟩ := named_nextPath hn.coherent (hn.directoryPath ▸ hn.dir)
        (by rw [hn.fullPath, hn.directoryPath, hn.fileName])
        (by rw [hn.fileName]; exact n.slash_notMem) (makePath sys w o defaultMode).obj
      rw [hn.directoryPath] at hn'
      have hwidth : width (q ++ [n']) = width (q ++ [n]) + 1 := by
        rw [width_concat, width_concat, hlen, hn.fileName, Nat.add_assoc]
      obtain ⟨k, out, hk, hrest⟩ := ih hn' (by rw [hwidth]; omega)
      refine ⟨k + 1, { out with pathSet := true }, Nat.succ_le_succ hk, Creates.next hclash ?_⟩
      rw [makePath_world_of_leads hn hq, Path.nextPath_congr hn.coherent hkept.coherent hkept.path]
      exact hrest
    · exact ⟨0, _, Nat.zero_le _, Creates.stop hclash⟩

/-! ## The first name -/

/-- The file name of a root has no extension. -/
theorem nameParts_of_root (hc : o.Coherent) {r : Str} (hroot : isRootPart r = true)
    (hname : o.fileName = r ++ ['/']) : o.baseName = r ++ ['/'] ∧ o.extension = [] := by
  rw [hc.fileName_eq] at hname
  have hpos : extensionPos (Path.ofStr o.mPath).fileName = none := by
    rw [hname]
    rcases isRootPart_cases hroot with rfl | ⟨c, rfl⟩ <;> rfl
  rw [hc.parts.2.2.2.1, hc.parts.2.2.2.2, ← hname]
  exact Path.baseName_of_extensionPos hpos

/-- For the directory of a drive inside the drive, `makePath` makes that
directory or nothing. -/
theorem makeParents_drive (sys : System) (mode : Nat) {c : Char} {q₀ : Loc} (hc : c ≠ '/')
    (hq₀ : w.lookup [c, ':', '/'] = some q₀)
    (hnone : w.lookup [c, ':', '/', c, ':', '/'] = none) :
    (makeParents sys w [c, ':', '/', c, ':', '/'] mode).2 = w ∨
      ∃ w', sys.mkdir w [c, ':', '/', c, ':'] mode = some w' ∧
        (makeParents sys w [c, ':', '/', c, ':', '/'] mode).2 = w' := by
  have hne : [c, ':'] ≠ [] := List.cons_ne_nil _ _
  obtain ⟨hdrive, hdir⟩ := (World.lookup_append_slash hne).1 hq₀
  obtain ⟨v, hv, -⟩ := World.lookup_result hdrive
  have hstat : w.stat [c, ':'] = some v := stat_of_lookup hdrive hv
  have hnot : ∀ u, w.stat [c, ':', '/', c, ':'] = some u → u.kind ≠ .directory := by
    intro u hu hkind
    obtain ⟨l, hl, hget⟩ := World.stat_eq_some_iff.1 hu
    have := (World.lookup_append_slash (by simp)).2 ⟨hl, (isDir_iff hget).2 hkind⟩
    exact absurd (hnone.symm.trans this) (by simp)
  have hcuts : cuts [c, ':', '/', c, ':'] = [[c, ':'], [c, ':', '/', c, ':']] := by
    simp [cuts, List.range_succ, hc]
  -- The drive itself is there, so only the directory in it is left.
  have hmake : makeParents sys w [c, ':', '/', c, ':', '/'] mode
      = makeDirs sys mode w [[c, ':', '/', c, ':']] := by
    have hmissing : ¬ (w.stat [c, ':', '/', c, ':']).any (fun v => v.kind = .directory) := by
      rw [Option.any_eq_true_iff_get]
      rintro ⟨hsome, hkind⟩
      exact hnot _ (Option.some_get hsome).symm (of_decide_eq_true hkind)
    have hslash := makeParents_slash sys w [c, ':', '/', c, ':'] mode
    rw [if_neg hmissing, hcuts, makeDirs_cons_of_dir hstat ((isDir_iff hv).1 hdir)] at hslash
    exact hslash
  rw [hmake, makeDirs]
  cases hthere : w.stat [c, ':', '/', c, ':'] with
  | some u =>
    left
    dsimp only
    rw [if_neg (hnot u hthere)]
  | none =>
    cases hmkdir : sys.mkdir w [c, ':', '/', c, ':'] mode with
    | none => exact Or.inl rfl
    | some w' => exact Or.inr ⟨w', rfl, rfl⟩

/-- The next path of a drive is a `#` in a directory of the name of the drive,
inside it.  That directory is empty when `makePath` has just made it. -/
theorem lookup_makePath_drive {c : Char} {q₀ : Loc} (hc : c ≠ '/')
    (hq₀ : w.lookup [c, ':', '/'] = some q₀) (hn : Named o [c, ':', '/', c, ':', '/'] n)
    (hm : o.mExists = false) (hnone : w.lookup [c, ':', '/', c, ':', '/'] = none) :
    (makePath sys w o mode).world.lookup o.fullPath = none := by
  have hfull : o.fullPath = [c, ':', '/', c, ':'] ++ '/' :: n.1 := hn.fullPath
  have habsent : ∀ w' : World, w'.lookup [c, ':', '/', c, ':', '/'] = none →
      w'.lookup o.fullPath = none := by
    intro w' hnone'
    by_contra hne
    obtain ⟨l, hl⟩ := Option.ne_none_iff_exists'.1 hne
    rw [hfull] at hl
    obtain ⟨q, hq⟩ := World.lookup_dir_of_lookup hl
    exact absurd (hnone'.symm.trans hq) (by simp)
  have hmade : (o.checkIfExists w).mExists = false := by
    have hiff := checkIfExists_of_not_mExists (w := w) hn.coherent hm
    refine Bool.eq_false_iff.2 fun h => ?_
    obtain ⟨v, hv, -⟩ := hiff.1 h
    rw [World.stat_eq_none_iff.2 (habsent w hnone)] at hv
    cases hv
  rw [makePath_of_not_exists hn.coherent hmade, hn.directoryPath]
  rcases makeParents_drive sys mode hc hq₀ hnone with h | ⟨w', hmkdir, h⟩
  · rw [h]
    exact habsent w hnone
  · rw [h]
    -- The directory is new, so nothing is in it.
    obtain ⟨l, -, hnew, -, -, hdir, hother, hlookup⟩ := System.mkdir_spec hmkdir
    have hleads : Leads w' [c, ':', '/', c, ':', '/'] l :=
      Or.inr ((World.lookup_append_slash (List.cons_ne_nil _ _)).2 ⟨hlookup, hdir⟩)
    by_contra htaken
    rw [hn.fullPath] at htaken
    refine get_ne_none_of_leads hn.dir hleads htaken ?_
    rw [hother _ (by simp)]
    by_contra hheld
    exact (FileTree.isDir_parent hheld).get_ne_none hnew

/-- In a directory that is there, names run out. -/
theorem creates_of_leads (sys : System) (mode : Nat) (hn : Named o d n) (hq : Leads w d q) :
    ∃ k out, k < w.tree.entries.dom.length ∧ Creates sys mode k w o out := by
  have hpos : 0 < width (q ++ [n]) := by
    have hname := List.length_pos_iff.2 n.ne_nil
    rw [width_concat]
    omega
  have hlt : room w.tree (width (q ++ [n])) < w.tree.entries.dom.length := room_lt_length hpos
  obtain ⟨k, out, hk, hrun⟩ := creates_of_room sys mode hn hq (Nat.le_refl _)
  exact ⟨k, out, Nat.lt_of_le_of_lt hk hlt, hrun⟩

/-- The names after a root run out, for a drive with the second of them. -/
theorem creates_of_root (sys : System) (mode : Nat) {r : Str} {l : Loc} (hc : o.Coherent)
    (hr : '/' ∉ r) (hroot : isRootPart r = true) (hdir : o.directoryPath = r ++ ['/'])
    (hname : o.fileName = r ++ ['/']) (hfull : o.fullPath = r ++ ['/'])
    (hl : w.lookup (r ++ ['/']) = some l) (o' : FsObject) :
    ∃ k out, k < w.tree.entries.dom.length ∧
      Creates sys mode k w (o'.setPath o.nextPath) out := by
  obtain ⟨hbase, hext⟩ := nameParts_of_root hc hroot hname
  have hnext : o.nextPath = r ++ '/' :: r ++ ['/'] ++ [] ++ ['#'] ++ [] := by
    rw [Path.nextPath, hdir, hbase, hext]
    simp
  have hback : '\\' ∉ r := by
    have hnot := hc.backslash_notMem_fullPath
    rw [hfull] at hnot
    exact fun hmem => hnot (List.mem_append_left _ hmem)
  obtain ⟨n, -, hn⟩ := named_setPath o' (r ++ '/' :: r ++ ['/']) [] []
    (Or.inr ⟨_, rfl⟩) (by simpa using hback) (by simp) rfl
  rw [hnext]
  cases hq : w.lookup (r ++ '/' :: r ++ ['/']) with
  | some q => exact creates_of_leads sys mode hn (Or.inr hq)
  | none =>
    -- The second name is free, so there is no third.
    obtain ⟨c, rfl⟩ : ∃ c, r = [c, ':'] := by
      refine (isRootPart_cases hroot).resolve_left ?_
      rintro rfl
      have hthere : w.lookup (['/'] ++ ['/']) = some l :=
        (World.lookup_append_slash (List.cons_ne_nil _ _)).2 ⟨hl, (World.lookup_dir_iff.1 hl).1⟩
      exact absurd (hq.symm.trans hthere) (by simp)
    have hpos : 0 < w.tree.entries.dom.length :=
      Nat.zero_lt_of_lt (room_lt_length (t := w.tree) Nat.one_pos)
    refine ⟨0, _, hpos, Creates.stop fun hclash => ?_⟩
    refine absurd ?_ (hclash.lookup_ne_none hn.coherent (makePath_kept hn.coherent))
    exact lookup_makePath_drive (by simpa using Ne.symm (List.ne_of_not_mem_cons hr)) hl hn rfl hq

/-- Every run of `create` ends, and it passes over no more names than there are
entries once the first `makePath` is done. -/
theorem exists_creates (sys : System) (mode : Nat) (w : World) (hc : o.Coherent) :
    ∃ k out, k ≤ (makePath sys w o defaultMode).world.tree.entries.dom.length ∧
      Creates sys mode k w o out := by
  by_cases hclash : Clashes (makePath sys w o defaultMode).world
      (makePath sys w o defaultMode).obj
  swap
  · exact ⟨0, _, Nat.zero_le _, Creates.stop hclash⟩
  have hkept : Kept o (makePath sys w o defaultMode).obj := makePath_kept hc
  have htaken := hclash.lookup_ne_none hc hkept
  suffices hrest : ∃ k out, k < (makePath sys w o defaultMode).world.tree.entries.dom.length ∧
      Creates sys mode k (makePath sys w o defaultMode).world
        ((makePath sys w o defaultMode).obj.setPath o.nextPath) out by
    obtain ⟨k, out, hk, hrest⟩ := hrest
    refine ⟨k + 1, { out with pathSet := true }, hk, Creates.next hclash ?_⟩
    rw [Path.nextPath_congr hc hkept.coherent hkept.path]
    exact hrest
  generalize (makePath sys w o defaultMode).world = w' at htaken
  generalize (makePath sys w o defaultMode).obj = o'
  obtain ⟨l, hl⟩ := Option.ne_none_iff_exists'.1 htaken
  have hshape := hc.shape
  generalize hdir : o.directoryPath = dir, hname : o.fileName = name,
    hfull : o.fullPath = full at hshape
  rw [hfull] at hl
  cases hshape with
  | empty => exact absurd hl (by simp [World.lookup_nil])
  | name f hf hne =>
    obtain ⟨n, -, hn⟩ := named_nextPath hc (Or.inl hdir) (by rw [hfull, hdir, hname]; rfl)
      (by rwa [hname]) o'
    exact creates_of_leads sys mode hn (Or.inl ⟨hdir, rfl⟩)
  | split d f hf =>
    obtain ⟨q, hq⟩ := World.lookup_dir_of_lookup hl
    obtain ⟨n, -, hn⟩ := named_nextPath hc (Or.inr ⟨d, hdir⟩)
      (by rw [hfull, hdir, hname]; simp) (by rwa [hname]) o'
    exact creates_of_leads sys mode hn (Or.inr (by rwa [hdir]))
  | root r hr hroot => exact creates_of_root sys mode hc hr hroot hdir hname hfull hl o'

/-- `create` is a run of its own. -/
theorem creates_create (sys : System) (mode : Nat) (w : World) (hc : o.Coherent) :
    ∃ k, Creates sys mode k w o (create sys w o mode) := by
  obtain ⟨k, out, hk, hrun⟩ := exists_creates sys mode w hc
  refine ⟨k, ?_⟩
  rw [create, hrun.createLoop_eq (Nat.lt_succ_of_le hk)]
  exact hrun

/-- The bound of `create` is not what ends it: with a larger one, it does the
same. -/
theorem createLoop_eq_create (hc : o.Coherent) {fuel : Nat}
    (hfuel : (makePath sys w o defaultMode).world.tree.entries.dom.length < fuel) :
    createLoop sys mode fuel w o = create sys w o mode := by
  obtain ⟨k, out, hk, hrun⟩ := exists_creates sys mode w hc
  rw [create, hrun.createLoop_eq (Nat.lt_succ_of_le hk),
    hrun.createLoop_eq (Nat.lt_of_le_of_lt hk hfuel)]

/-! ## What a run leaves behind -/

/-- A last try adds an entry or none, and when it succeeds there is one of the
right kind. -/
theorem attempt_spec (sys : System) (mode : Nat) (hc : o.Coherent) (hclash : ¬ Clashes w o) :
    Grown w (attempt sys mode w o).world ∧ (attempt sys mode w o).obj = o ∧
      ((attempt sys mode w o).ok = true →
        ∃ v, (attempt sys mode w o).world.stat o.fullPath = some v ∧ o.Suits v.kind) := by
  unfold attempt
  split
  · exact ⟨Grown.refl w, rfl, fun h => nomatch h⟩
  · rename_i htype
    split
    · rename_i hsome
      obtain ⟨v, hv⟩ := Option.isSome_iff_exists.1 hsome
      have hsuits : o.Suits v.kind := by
        by_contra hnot
        exact hclash ⟨by tauto, v, hv, hnot⟩
      rw [getStat_eq hc] at hv
      exact ⟨Grown.refl w, rfl, fun _ => ⟨v, hv, hsuits⟩⟩
    · rename_i hnone
      have habsent : w.lookup o.fullPath = none := by
        rw [← World.stat_eq_none_iff, ← getStat_eq hc]
        exact Option.not_isSome_iff_eq_none.1 hnone
      split
      · rename_i hdirectory
        cases hmkdir : sys.mkdir w o.fullPath mode with
        | none => exact ⟨Grown.refl w, rfl, fun h => nomatch h⟩
        | some w' =>
          obtain ⟨l, -, -, hext, hcwd, hdir, -, hlookup⟩ := System.mkdir_spec hmkdir
          refine ⟨⟨hext, hcwd⟩, rfl, fun _ => ?_⟩
          obtain ⟨v, hv⟩ := Option.ne_none_iff_exists'.1 hdir.get_ne_none
          exact ⟨v, stat_of_lookup hlookup hv, Or.inl ⟨(isDir_iff hv).1 hdir, hdirectory⟩⟩
      · rename_i hdirectory
        cases hcreat : sys.creat w o.fullPath mode with
        | none => exact ⟨Grown.refl w, rfl, fun h => nomatch h⟩
        | some made =>
          obtain ⟨l, w'⟩ := made
          obtain ⟨hext, hcwd, hlookup, -, hkind⟩ := System.creat_spec hcreat
          refine ⟨⟨hext, hcwd⟩, rfl, fun _ => ?_⟩
          obtain ⟨v, hv, hreg⟩ := Option.map_eq_some_iff.1 (hkind habsent)
          exact ⟨v, stat_of_lookup hlookup hv, Or.inr ⟨hreg, by tauto⟩⟩

/-- What is called after a name that is taken: the world and the object. -/
def nextCall (sys : System) (c : World × FsObject) : World × FsObject :=
  ((makePath sys c.1 c.2 defaultMode).world,
    (makePath sys c.1 c.2 defaultMode).obj.setPath (makePath sys c.1 c.2 defaultMode).obj.nextPath)

/-- What `create` looks at in call `i`: the object, and the world in which the
parents of its path are made. -/
def parentsMade (sys : System) (w : World) (o : FsObject) (i : Nat) : Outcome :=
  makePath sys ((nextCall sys)^[i] (w, o)).1 ((nextCall sys)^[i] (w, o)).2 defaultMode

/-- The paths that `create` tries for an object whose path is `s`. -/
def tried (s : Str) : Nat → Path
  | 0 => .ofStr s
  | i + 1 => .ofStr (tried s i).nextPath

/-- The path `i` of the sequence is a fresh one. -/
theorem coherent_tried (s : Str) (i : Nat) : (tried s i).Coherent := by
  cases i with
  | zero => exact Path.Coherent.of_setPath Path.empty s
  | succ i => exact Path.Coherent.of_setPath Path.empty _

/-- Call `i` is for the path `i` of the sequence, in a world that has only
grown. -/
theorem nextCall_spec (sys : System) (w : World) (hc : o.Coherent) (i : Nat) :
    ((nextCall sys)^[i] (w, o)).2.Coherent ∧
      ((nextCall sys)^[i] (w, o)).2.mType = o.mType ∧
      ((nextCall sys)^[i] (w, o)).2.mPath = (tried o.mPath i).mPath ∧
      Grown w ((nextCall sys)^[i] (w, o)).1 := by
  induction i with
  | zero => exact ⟨hc, rfl, hc.unified.symm, Grown.refl w⟩
  | succ i ih =>
    obtain ⟨hci, htype, hpath, hgrown⟩ := ih
    rw [Function.iterate_succ_apply']
    generalize (nextCall sys)^[i] (w, o) = c at hci htype hpath hgrown
    have hkept : Kept c.2 (makePath sys c.1 c.2 defaultMode).obj := makePath_kept hci
    refine ⟨Path.Coherent.of_setPath Path.empty _, hkept.type.trans htype, ?_, ?_⟩
    · show unify (makePath sys c.1 c.2 defaultMode).obj.nextPath = _
      rw [Path.nextPath_congr (coherent_tried o.mPath i) hkept.coherent (hkept.path.trans hpath)]
      rfl
    · exact hgrown.trans (makePath_paved hci).toGrown

/-- What is looked at in call `i` is at the path `i` of the sequence. -/
theorem parentsMade_spec (sys : System) (w : World) (hc : o.Coherent) (i : Nat) :
    (parentsMade sys w o i).obj.Coherent ∧ (parentsMade sys w o i).obj.mType = o.mType ∧
      (parentsMade sys w o i).obj.mPath = (tried o.mPath i).mPath ∧
      Grown w (parentsMade sys w o i).world := by
  obtain ⟨hci, htype, hpath, hgrown⟩ := nextCall_spec sys w hc i
  have hkept : Kept _ (parentsMade sys w o i).obj := makePath_kept hci
  exact ⟨hkept.coherent, hkept.type.trans htype, hkept.path.trans hpath,
    hgrown.trans (makePath_paved hci).toGrown⟩

/-- A run passes over the names that clash, and ends at the first that does
not. -/
theorem Creates.rounds {k : Nat} {out : Outcome} (h : Creates sys mode k w o out) :
    (∀ i < k, Clashes (parentsMade sys w o i).world (parentsMade sys w o i).obj) ∧
      ¬ Clashes (parentsMade sys w o k).world (parentsMade sys w o k).obj ∧
      out.ok = (attempt sys mode (parentsMade sys w o k).world (parentsMade sys w o k).obj).ok ∧
      out.obj = (attempt sys mode (parentsMade sys w o k).world (parentsMade sys w o k).obj).obj ∧
      out.world
        = (attempt sys mode (parentsMade sys w o k).world (parentsMade sys w o k).obj).world := by
  induction h with
  | stop hclash => exact ⟨fun i hi => absurd hi (Nat.not_lt_zero i), hclash, rfl, rfl, rfl⟩
  | next hclash rest ih =>
    obtain ⟨hbefore, hlast⟩ := ih
    refine ⟨fun i hi => ?_, hlast⟩
    cases i with
    | zero => exact hclash
    | succ i => exact hbefore i (Nat.lt_of_succ_lt_succ hi)

end FsObject

/-! ## The first free name -/

/-- The kind of entry that an object of a class is for. -/
def Class.kind : Class → Option Kind
  | .fsObject => none
  | .file => some .regular
  | .dir => some .directory

/-- The type of a well-formed object asks for the kind of its class. -/
theorem Obj.WellFormed.suits_iff {o : Obj} (h : o.WellFormed) (kind : Kind) :
    o.base.Suits kind ↔ o.cls.kind = some kind := by
  unfold FsObject.Suits Class.kind
  cases hcls : o.cls with
  | fsObject =>
    have htype := h.fsObject hcls
    simp [htype]
  | file =>
    have htype := h.file hcls
    simp [htype, eq_comm]
  | dir =>
    have htype := h.dir hcls
    simp [htype, eq_comm]

open FsObject in
/-- Whatever a program has done with an object before, `create` ends for it in
every world, changes no entry that is there, and when it succeeds there is an
entry of the kind of the class at the path of the object, which is the first
path of the sequence that is free or taken by that kind once its parents are
made. -/
theorem State.create_first_free (sys : System) (w₀ : World) (ops : List Op) {i : Nat} {o : Obj}
    (h : (Run.runs (step sys) (initial w₀) ops).objs i = some o) (w : World) (mode : Nat) :
    ∃ k, Creates sys mode k w o.base (create sys w o.base mode) ∧
      w.tree.Extends (create sys w o.base mode).world.tree ∧
      ((create sys w o.base mode).ok = true →
        (∃ v, (create sys w o.base mode).world.stat (create sys w o.base mode).obj.fullPath = some v ∧
          o.cls.kind = some v.kind) ∧
        (create sys w o.base mode).obj.mPath = (tried o.base.mPath k).mPath ∧
        (∀ j < k, ∃ v, (parentsMade sys w o.base j).world.stat (tried o.base.mPath j).fullPath
            = some v ∧ o.cls.kind ≠ some v.kind) ∧
        ∀ v, (parentsMade sys w o.base k).world.stat (tried o.base.mPath k).fullPath = some v →
          o.cls.kind = some v.kind) := by
  have hwf : o.WellFormed := wellFormed_runs sys w₀ ops i o h
  have hc := hwf.coherent
  obtain ⟨k, hrun⟩ := creates_create sys mode w hc
  obtain ⟨hbefore, hlast, hok, hobj, hworld⟩ := hrun.rounds
  obtain ⟨hck, htype, hpath, hgrown⟩ := parentsMade_spec sys w hc k
  obtain ⟨hattempt, hkeep, hdone⟩ := attempt_spec sys mode hck hlast
  -- The status of a path of the sequence is the one of the object in that call.
  have hstat : ∀ j, (parentsMade sys w o.base j).obj.getStat (parentsMade sys w o.base j).world
      = (parentsMade sys w o.base j).world.stat (tried o.base.mPath j).fullPath := by
    intro j
    obtain ⟨hcj, -, hpathj, -⟩ := parentsMade_spec sys w hc j
    rw [getStat_eq hcj, hcj.fullPath_eq, hpathj, (coherent_tried _ j).fullPath_eq]
  have hsuits : ∀ j kind, (parentsMade sys w o.base j).obj.Suits kind ↔ o.cls.kind = some kind := by
    intro j kind
    obtain ⟨-, htypej, -, -⟩ := parentsMade_spec sys w hc j
    rw [← hwf.suits_iff, Suits, Suits, htypej]
  refine ⟨k, hrun, ?_, fun hcreated => ?_⟩
  · rw [hworld]
    exact (hgrown.trans hattempt).ext
  · rw [hok] at hcreated
    obtain ⟨v, hv, hvsuits⟩ := hdone hcreated
    refine ⟨⟨v, ?_, (hsuits k v.kind).1 hvsuits⟩, ?_, fun j hj => ?_, fun v' hv' => ?_⟩
    · rw [hworld, hobj, hkeep]
      exact hv
    · rw [hobj, hkeep]
      exact hpath
    · obtain ⟨-, u, hu, hnot⟩ := hbefore j hj
      rw [hstat j] at hu
      exact ⟨u, hu, fun hkind => hnot ((hsuits j u.kind).2 hkind)⟩
    · by_contra hkind
      refine hlast ⟨?_, v', (hstat k).trans hv', fun hs => hkind ((hsuits k v'.kind).1 hs)⟩
      unfold Suits at hvsuits
      tauto

open FsObject in
/-- A file with the path of a directory is made beside it. -/
theorem State.create_first_free_taken :
    ∃ k, Creates System.granting 0o644 k (World.ofList [(["dir"], .directory)])
        (Obj.construct .file (some "/dir".toList)).base
        (create System.granting (World.ofList [(["dir"], .directory)])
          (Obj.construct .file (some "/dir".toList)).base 0o644) ∧
      (World.ofList [(["dir"], .directory)]).tree.Extends
        (create System.granting (World.ofList [(["dir"], .directory)])
          (Obj.construct .file (some "/dir".toList)).base 0o644).world.tree ∧
      "/dir#".toList = (tried "/dir".toList k).mPath := by
  obtain ⟨k, hrun, hext, hdone⟩ := create_first_free System.granting (World.ofList [])
    [.construct 0 .file (some "/dir".toList)] (i := 0)
    (o := Obj.construct .file (some "/dir".toList)) rfl
    (World.ofList [(["dir"], .directory)]) 0o644
  obtain ⟨-, hpath, -⟩ := hdone (by decide)
  refine ⟨k, hrun, hext, ?_⟩
  rw [show "/dir#".toList = (create System.granting (World.ofList [(["dir"], .directory)])
    (Obj.construct .file (some "/dir".toList)).base 0o644).obj.mPath by decide]
  exact hpath

end SysFs
