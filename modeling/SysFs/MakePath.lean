import SysFs.Objects

/-!
# What `makePath` makes, and when it fails

The loop of `makePath` stops before every separator of the directory path
(`stops`), tests the beginning of the path that it has reached, and makes it
when it is not there.  So what is made are directories before separators
(`makeDirs_made`), and when the loop comes to its end, all that it has passed is
a directory (`makeDirs_true`).

When the system refuses nothing, the loop fails only at an entry that is no
directory (`makeDirs_stops_false`).  For the root, `makePath` takes away the only
character of the directory path, and then asks for the empty path, so that
`makePath_fails_iff` has to leave it out.
-/

namespace SysFs

open Posix

namespace FsObject

variable {sys : System} {w w' : World} {o : FsObject} {mode : Nat} {q tmp : Str} {qs : List Str}

/-! ## Where the loop stops -/

/-- The beginnings of a path before its separators, but for the first
character. -/
def stops (tmp : Str) : List Str :=
  ((List.range tmp.length).filter fun p => 1 ≤ p ∧ tmp[p]? = some '/').map tmp.take

theorem cuts_eq (tmp : Str) : cuts tmp = stops tmp ++ [tmp] := rfl

theorem mem_stops : q ∈ stops tmp ↔ q ≠ [] ∧ q ++ ['/'] <+: tmp := by
  simp only [stops, List.mem_map, List.mem_filter, List.mem_range, decide_eq_true_eq]
  constructor
  · rintro ⟨p, ⟨hp, hpos, hsep⟩, rfl⟩
    obtain ⟨hlt, hget⟩ := List.getElem?_eq_some_iff.1 hsep
    refine ⟨?_, tmp.drop (p + 1), ?_⟩
    · intro hnil
      have hlen := congrArg List.length hnil
      rw [List.length_take, List.length_nil] at hlen
      omega
    · rw [List.append_assoc, List.singleton_append, ← hget, ← List.drop_eq_getElem_cons hlt,
        List.take_append_drop]
  · rintro ⟨hne, t, rfl⟩
    refine ⟨q.length, ⟨?_, List.length_pos_iff.2 hne, ?_⟩, ?_⟩ <;> simp

/-- One character more is one stop more, if it is a separator. -/
theorem stops_concat (tmp : Str) (c : Char) :
    stops (tmp ++ [c]) = stops tmp ++ if tmp ≠ [] ∧ c = '/' then [tmp] else [] := by
  have hfilter : (List.range tmp.length).filter
        (fun p => decide (1 ≤ p ∧ (tmp ++ [c])[p]? = some '/'))
      = (List.range tmp.length).filter (fun p => decide (1 ≤ p ∧ tmp[p]? = some '/')) := by
    apply List.filter_congr
    intro p hp
    rw [List.getElem?_append_left (List.mem_range.1 hp)]
  have htake : ((List.range tmp.length).filter
        fun p => decide (1 ≤ p ∧ tmp[p]? = some '/')).map (tmp ++ [c]).take
      = stops tmp := by
    apply List.map_congr_left
    intro p hp
    have hlt := List.mem_range.1 (List.mem_filter.1 hp).1
    exact List.take_append_of_le_length (Nat.le_of_lt hlt)
  have hpos : 1 ≤ tmp.length ↔ tmp ≠ [] := List.length_pos_iff
  rw [stops, List.length_append, List.length_singleton, List.range_succ, List.filter_append,
    List.map_append, hfilter, htake]
  congr 1
  by_cases h : tmp ≠ [] ∧ c = '/'
  · rw [if_pos h, List.filter_singleton]
    simp [hpos, h]
  · rw [if_neg h, List.filter_singleton]
    simp [hpos, h]

/-! ## What the loop makes -/

theorem makeDirs_append (w : World) (qs qs' : List Str) :
    makeDirs sys mode w (qs ++ qs') = if (makeDirs sys mode w qs).1 then
      makeDirs sys mode (makeDirs sys mode w qs).2 qs' else makeDirs sys mode w qs := by
  induction qs generalizing w with
  | nil => rfl
  | cons q qs ih =>
    rw [List.cons_append]
    cases hstat : w.stat q with
    | none =>
      cases hmkdir : sys.mkdir w q mode with
      | none => simp [makeDirs, hstat, hmkdir]
      | some w' =>
        rw [makeDirs_cons_of_mkdir hstat hmkdir, makeDirs_cons_of_mkdir hstat hmkdir, ih]
    | some v =>
      by_cases hkind : v.kind = .directory
      · rw [makeDirs_cons_of_dir hstat hkind, makeDirs_cons_of_dir hstat hkind, ih]
      · simp [makeDirs, hstat, hkind]

/-- When the loop comes to its end, all that it has passed is a directory. -/
theorem makeDirs_true (h : (makeDirs sys mode w qs).1 = true) (hq : q ∈ qs) :
    ∃ l, (makeDirs sys mode w qs).2.lookup q = some l ∧
      (makeDirs sys mode w qs).2.tree.IsDir l := by
  induction qs generalizing w with
  | nil => cases hq
  | cons r qs ih =>
    -- A directory that is passed is still there when the loop ends.
    have hkeep : ∀ {w₁ : World} {l}, w₁.lookup r = some l → w₁.tree.IsDir l →
        ∃ l, (makeDirs sys mode w₁ qs).2.lookup r = some l ∧
          (makeDirs sys mode w₁ qs).2.tree.IsDir l := by
      intro w₁ l hl hdir
      have hgrown := (makeDirs_made sys mode w₁ qs).1
      exact ⟨l, hgrown.lookup hl, hgrown.ext.isDir hdir⟩
    cases hstat : w.stat r with
    | none =>
      cases hmkdir : sys.mkdir w r mode with
      | none => simp [makeDirs, hstat, hmkdir] at h
      | some w' =>
        rw [makeDirs_cons_of_mkdir hstat hmkdir] at h ⊢
        rcases List.mem_cons.1 hq with rfl | hq
        · obtain ⟨l, -, -, -, -, hdir, -, hlookup⟩ := System.mkdir_spec hmkdir
          exact hkeep hlookup hdir
        · exact ih h hq
    | some v =>
      by_cases hkind : v.kind = .directory
      · rw [makeDirs_cons_of_dir hstat hkind] at h ⊢
        rcases List.mem_cons.1 hq with rfl | hq
        · obtain ⟨l, hl, hv⟩ := World.stat_eq_some_iff.1 hstat
          exact hkeep hl ((isDir_iff hv).2 hkind)
        · exact ih h hq
      · simp [makeDirs, hstat, hkind] at h

/-- A directory path is empty, or ends with its separator. -/
theorem directoryPath_cases (hc : o.Coherent) :
    o.directoryPath = [] ∨ ∃ p, o.directoryPath = p ++ ['/'] := by
  have hshape := hc.shape
  generalize o.directoryPath = dir, o.fileName = name, o.fullPath = full at hshape ⊢
  cases hshape with
  | empty => exact Or.inl rfl
  | name f _ _ => exact Or.inl rfl
  | split d f _ => exact Or.inr ⟨d, rfl⟩
  | root r _ _ => exact Or.inr ⟨r, rfl⟩

/-- A path that leads to a directory does so with a separator, too. -/
theorem lookup_slash_of_isDir {l : Loc} (hl : w.lookup q = some l) (hdir : w.tree.IsDir l) :
    w.lookup (q ++ ['/']) = some l := by
  have hne : q ≠ [] := by
    rintro rfl
    rw [World.lookup_nil] at hl
    cases hl
  exact (World.lookup_append_slash hne).2 ⟨hl, hdir⟩

/-- What is made for a path with its separator is directories before separators,
and in the end the path leads to one. -/
theorem makeParents_made (sys : System) (w : World) (p : Str) (mode : Nat) :
    (∀ l, w.tree.get l = none → (makeParents sys w (p ++ ['/']) mode).2.tree.get l ≠ none →
      (makeParents sys w (p ++ ['/']) mode).2.tree.IsDir l ∧ ∃ q, q ++ ['/'] <+: p ++ ['/'] ∧
        (makeParents sys w (p ++ ['/']) mode).2.lookup q = some l) ∧
    ((makeParents sys w (p ++ ['/']) mode).1 = true →
      ∃ l, (makeParents sys w (p ++ ['/']) mode).2.lookup (p ++ ['/']) = some l ∧
        (makeParents sys w (p ++ ['/']) mode).2.tree.IsDir l) := by
  rw [makeParents_slash]
  split
  · rename_i hthere
    refine ⟨fun l hnone hne => absurd hnone hne, fun _ => ?_⟩
    obtain ⟨l, hl, hdir⟩ := dir_of_stat hthere
    exact ⟨l, lookup_slash_of_isDir hl hdir, hdir⟩
  · obtain ⟨-, hmade⟩ := makeDirs_made sys mode w (cuts p)
    constructor
    · intro l hnone hne
      obtain ⟨hdir, q, hq, hl⟩ := hmade l hnone hne
      refine ⟨hdir, q, ?_, hl⟩
      rcases List.mem_append.1 (cuts_eq p ▸ hq) with hstop | hself
      · exact (mem_stops.1 hstop).2.trans (List.prefix_append _ _)
      · rw [List.mem_singleton.1 hself]
    · intro hok
      have hself : p ∈ cuts p := List.mem_append_right _ (List.mem_singleton_self p)
      obtain ⟨l, hl, hdir⟩ := makeDirs_true hok hself
      exact ⟨l, lookup_slash_of_isDir hl hdir, hdir⟩

/-- `makePath` for an object that is not cached: it adds directories before the
separators of the directory path, and when it succeeds, the object is there or
its directory path leads to a directory. -/
theorem makePath_made (sys : System) (w : World) (mode : Nat) (hc : o.Coherent)
    (hcache : o.mExists = false) :
    (∀ l, w.tree.get l = none → (makePath sys w o mode).world.tree.get l ≠ none →
      (makePath sys w o mode).world.tree.IsDir l ∧ ∃ q, q ++ ['/'] <+: o.directoryPath ∧
        (makePath sys w o mode).world.lookup q = some l) ∧
    ((makePath sys w o mode).ok = true → o.Present (makePath sys w o mode).world ∨
      ∃ l, (makePath sys w o mode).world.lookup o.directoryPath = some l ∧
        (makePath sys w o mode).world.tree.IsDir l) := by
  cases hexists : (o.checkIfExists w).mExists with
  | true =>
    rw [makePath_of_exists hexists]
    refine ⟨fun l hnone hne => absurd hnone hne, fun _ => Or.inl ?_⟩
    exact (checkIfExists_of_not_mExists hc hcache).1 hexists
  | false =>
    rw [makePath_of_not_exists hc hexists]
    rcases directoryPath_cases hc with hnil | ⟨p, hp⟩
    · rw [hnil]
      exact ⟨fun l hnone hne => absurd hnone hne, fun hok => Bool.noConfusion hok⟩
    · rw [hp]
      obtain ⟨hmade, hdir⟩ := makeParents_made sys w p mode
      exact ⟨hmade, fun hok => Or.inr (hdir hok)⟩

/-! ## When it fails -/

/-- A path is a name, or has a name or dots behind its last separator. -/
theorem last_separator (q : Str) : '/' ∉ q ∨ ∃ d f, q = d ++ '/' :: f ∧ '/' ∉ f := by
  by_cases h : '/' ∈ q
  · obtain ⟨as, bs, hq, hnot⟩ := List.eq_append_cons_of_mem (List.mem_reverse.2 h)
    refine Or.inr ⟨bs.reverse, as.reverse, ?_, by simpa using hnot⟩
    rw [← List.reverse_reverse q, hq]
    simp
  · exact Or.inl h

/-- A path that leads nowhere, although its directory is there, names an entry
that is free or a link. -/
theorem entry_of_missing (hne : q ≠ []) (hstart : w.tree.IsDir (w.start q))
    (hparent : ∀ d f, q = d ++ '/' :: f → '/' ∉ f →
      d = [] ∨ ∃ l, w.lookup d = some l ∧ w.tree.IsDir l)
    (hnone : w.lookup q = none) :
    ∃ e, w.entry q = some e ∧ w.lookupEntry q = some e ∧
      ∀ kind, w.tree.kindAt e = some kind → kind.IsLink := by
  -- The last field is a name, so the entry is what `lstat` looks at.
  have hentry : ∀ {m : Loc} {n : Name} (cs : List Str), w.entry q = some (m ++ [n]) →
      Lines.fields '/' q = cs ++ [n.1] → w.lookupEntry q = some (m ++ [n]) := by
    intro m n cs he hfields
    rw [World.lookupEntry, hfields, lastName_concat, Name.ofText_val, if_pos (by rfl), he]
  rcases last_separator q with hsep | ⟨d, f, rfl, hf⟩
  · have hhead : q.head? ≠ some '/' := fun h => hsep (List.mem_of_head? h)
    have hcwd : w.start q = w.cwd := by rw [World.start, startAt, if_neg hhead]
    rw [hcwd] at hstart
    have hlookup : w.lookup (World.render w.cwd ++ ['/']) = some w.cwd :=
      (World.lookup_append_slash (World.render_ne_nil _)).2
        ⟨World.lookup_render hstart (by decide), hstart⟩
    rw [← World.lookup_under hstart hhead hne] at hnone
    obtain ⟨n, hn, he, hlink⟩ := World.name_of_lookup_eq_none hsep hlookup hnone
    have he' : w.entry q = some (w.cwd ++ [n]) := by
      rw [← World.entry_under hstart hhead hne]
      exact he
    refine ⟨w.cwd ++ [n], he', hentry [] he' ?_, hlink⟩
    rw [Lines.fields_of_ne_nil hne, List.splitOn_eq_singleton hsep, hn]
    rfl
  · have hdir : ∃ l, w.lookup (d ++ ['/']) = some l := by
      rcases hparent d f rfl hf with rfl | ⟨l, hl, hisDir⟩
      · exact ⟨[], World.lookup_render w.tree.isDir_root (by decide)⟩
      · exact ⟨l, lookup_slash_of_isDir hl hisDir⟩
    obtain ⟨m, hm⟩ := hdir
    obtain ⟨n, hn, he, hlink⟩ := World.name_of_lookup_eq_none hf hm hnone
    refine ⟨m ++ [n], he, hentry (d.splitOn '/') he ?_, hlink⟩
    rw [Lines.fields_append_cons, List.splitOn_eq_singleton hf, hn]

/-- The path names something that is there and no directory: what it leads to, or
a link in its place that leads nowhere. -/
def BlockedAt (w : World) (q : Str) : Prop :=
  ∃ l v, w.tree.get l = some v ∧ v.kind ≠ .directory ∧
    (w.lookup q = some l ∨ (w.lookup q = none ∧ w.lookupEntry q = some l))

/-- The system makes every directory whose name is free. -/
def MakesFree (sys : System) : Prop :=
  ∀ w path mode l, w.target path = some l → w.tree.get l = none →
    (sys.mkdir w path mode).isSome = true

/-- One round of the loop, behind a directory, fails only at an entry that is no
directory. -/
theorem makeDirs_singleton_false (hsys : MakesFree sys) (hne : q ≠ [])
    (hstart : w.tree.IsDir (w.start q))
    (hparent : ∀ d f, q = d ++ '/' :: f → '/' ∉ f →
      d = [] ∨ ∃ l, w.lookup d = some l ∧ w.tree.IsDir l)
    (h : (makeDirs sys mode w [q]).1 = false) :
    BlockedAt (makeDirs sys mode w [q]).2 q := by
  cases hstat : w.stat q with
  | some v =>
    have hkind : v.kind ≠ .directory := by
      intro hkind
      rw [makeDirs_cons_of_dir hstat hkind] at h
      cases h
    have hsame : (makeDirs sys mode w [q]).2 = w := by simp [makeDirs, hstat, hkind]
    obtain ⟨l, hl, hv⟩ := World.stat_eq_some_iff.1 hstat
    rw [hsame]
    exact ⟨l, v, hv, hkind, Or.inl hl⟩
  | none =>
    have hmkdir : sys.mkdir w q mode = none := by
      by_contra hsome
      obtain ⟨w', hw'⟩ := Option.ne_none_iff_exists'.1 hsome
      rw [makeDirs_cons_of_mkdir hstat hw'] at h
      cases h
    have hsame : (makeDirs sys mode w [q]).2 = w := by simp [makeDirs, hstat, hmkdir]
    have hnone := World.stat_eq_none_iff.1 hstat
    obtain ⟨e, he, hlentry, hlink⟩ := entry_of_missing hne hstart hparent hnone
    -- The name is taken, since the directory would be made otherwise.
    have htaken : w.tree.get e ≠ none := by
      intro hfree
      have hsome := hsys w q mode e (World.target_of_entry he) hfree
      rw [hmkdir] at hsome
      cases hsome
    obtain ⟨v, hv⟩ := Option.ne_none_iff_exists'.1 htaken
    rw [hsame]
    refine ⟨e, v, hv, ?_, Or.inr ⟨hnone, hlentry⟩⟩
    intro hkind
    have hislink := hlink v.kind (by rw [FileTree.kindAt_eq, hv, Option.map_some])
    rw [hkind] at hislink
    exact absurd hislink (by decide)

/-- Where the lookup of a path starts, that of a beginning of it starts. -/
theorem start_eq_start (hq : q ≠ []) (hp : q <+: tmp) : w.start q = w.start tmp := by
  obtain ⟨t, rfl⟩ := hp
  rw [World.start, World.start, startAt, startAt, List.head?_append_of_ne_nil _ hq]

/-- A round of the loop behind the rounds before it. -/
theorem makeDirs_concat_false (hsys : MakesFree sys) (hne : tmp ≠ [])
    (hstart : w.tree.IsDir (w.start tmp))
    (hbefore : (makeDirs sys mode w (stops tmp)).1 = true)
    (h : (makeDirs sys mode (makeDirs sys mode w (stops tmp)).2 [tmp]).1 = false) :
    BlockedAt (makeDirs sys mode (makeDirs sys mode w (stops tmp)).2 [tmp]).2 tmp := by
  have hgrown := (makeDirs_made sys mode w (stops tmp)).1
  have hstart' : (makeDirs sys mode w (stops tmp)).2.start tmp = w.start tmp := by
    rw [World.start, World.start, hgrown.cwd]
  apply makeDirs_singleton_false hsys hne
  · rw [hstart']
    exact hgrown.ext.isDir hstart
  · intro d f htmp _
    rcases eq_or_ne d [] with hd | hd
    · exact Or.inl hd
    · have hstop : d ∈ stops tmp := mem_stops.2 ⟨hd, f, by rw [htmp]; simp⟩
      exact Or.inr (makeDirs_true hbefore hstop)
  · exact h

/-- The loop fails only at an entry that is no directory. -/
theorem makeDirs_stops_false (hsys : MakesFree sys) (hstart : w.tree.IsDir (w.start tmp))
    (h : (makeDirs sys mode w (stops tmp)).1 = false) :
    ∃ q ∈ stops tmp, BlockedAt (makeDirs sys mode w (stops tmp)).2 q := by
  induction tmp using List.reverseRecOn with
  | nil => cases h
  | append_singleton tmp c ih =>
    rw [stops_concat] at h ⊢
    by_cases hstop : tmp ≠ [] ∧ c = '/'
    · have hsame : w.start tmp = w.start (tmp ++ [c]) :=
        start_eq_start hstop.1 (List.prefix_append _ _)
      rw [← hsame] at hstart
      rw [if_pos hstop, makeDirs_append] at h ⊢
      by_cases hbefore : (makeDirs sys mode w (stops tmp)).1 = true
      · rw [if_pos hbefore] at h ⊢
        exact ⟨tmp, by simp, makeDirs_concat_false hsys hstop.1 hstart hbefore h⟩
      · rw [if_neg hbefore]
        rw [Bool.not_eq_true] at hbefore
        obtain ⟨q, hq, hblocked⟩ := ih hstart hbefore
        exact ⟨q, List.mem_append_left _ hq, hblocked⟩
    · rw [if_neg hstop, List.append_nil] at h ⊢
      rcases eq_or_ne tmp [] with rfl | hne
      · cases h
      · rw [← start_eq_start hne (List.prefix_append tmp [c])] at hstart
        exact ih hstart h

/-- For a path with its separator, which is not the root, `makePath` fails only
at an entry that is no directory. -/
theorem makeParents_false {p : Str} (hsys : MakesFree sys) (hne : p ≠ [])
    (hstart : w.tree.IsDir (w.start p)) (h : (makeParents sys w (p ++ ['/']) mode).1 = false) :
    ∃ q, q <+: p ++ ['/'] ∧ BlockedAt (makeParents sys w (p ++ ['/']) mode).2 q := by
  rw [makeParents_slash] at h ⊢
  split at h
  · cases h
  · rename_i hthere
    rw [if_neg hthere, cuts_eq, makeDirs_append]
    rw [cuts_eq, makeDirs_append] at h
    by_cases hbefore : (makeDirs sys mode w (stops p)).1 = true
    · rw [if_pos hbefore] at h ⊢
      exact ⟨p, List.prefix_append _ _, makeDirs_concat_false hsys hne hstart hbefore h⟩
    · rw [if_neg hbefore]
      rw [Bool.not_eq_true] at hbefore
      obtain ⟨q, hq, hblocked⟩ := makeDirs_stops_false hsys hstart hbefore
      refine ⟨q, ?_, hblocked⟩
      exact ((List.prefix_append q ['/']).trans (mem_stops.1 hq).2).trans (List.prefix_append _ _)

/-! ## Where it cannot tell -/

/-- Without a directory to start from, a path names nothing. -/
theorem missing_of_start (hne : q ≠ []) (h : ¬ w.tree.IsDir (w.start q)) :
    w.lookup q = none ∧ w.lookupEntry q = none ∧ w.target q = none := by
  have hfields := Lines.fields_ne_nil (d := '/') hne
  have hwalks : ∀ {ws seen m}, Walks w.tree false maxLinks (w.start q) ws seen m →
      ¬ w.tree.IsDir m := by
    intro ws seen m hw hm
    rcases eq_or_ne ws [] with rfl | hws
    · rw [hw.inv_nil] at hm
      exact h hm
    · exact h (hw.isDir_start hws)
  have hlookup : w.lookup q = none := by
    by_contra hsome
    obtain ⟨l, hl⟩ := Option.ne_none_iff_exists'.1 hsome
    obtain ⟨-, seen, hw⟩ := World.lookup_eq_some_iff.1 hl
    exact h (hw.isDir_start hfields)
  refine ⟨hlookup, ?_, ?_⟩
  · rw [World.lookupEntry]
    split
    · by_contra hsome
      obtain ⟨l, hl⟩ := Option.ne_none_iff_exists'.1 hsome
      obtain ⟨ws, n, m, seen, -, -, hm, hw⟩ := entryAt_eq_some_iff.1 hl
      exact hwalks hw hm
    · exact hlookup
  · by_contra hsome
    obtain ⟨l, hl⟩ := Option.ne_none_iff_exists'.1 hsome
    obtain ⟨ws, n, m, seen, k, -, -, hm, hw⟩ := World.fields_of_target hl
    exact hwalks hw hm

/-- Without a directory to start from, nothing is made and nothing is in the
way. -/
theorem makeParents_of_start (sys : System) {p : Str} (hne : p ≠ [])
    (h : ¬ w.tree.IsDir (w.start p)) (mode : Nat) :
    makeParents sys w (p ++ ['/']) mode = (false, w) ∧
      ∀ q, q <+: p ++ ['/'] → ¬ BlockedAt w q := by
  have hmissing : ∀ {q}, q ≠ [] → q <+: p ++ ['/'] →
      w.lookup q = none ∧ w.lookupEntry q = none ∧ w.target q = none := by
    intro q hq hp
    apply missing_of_start hq
    rwa [start_eq_start hq hp, ← start_eq_start hne (List.prefix_append p ['/'])]
  constructor
  · rw [makeParents_slash, if_neg]
    · -- The first directory that the loop tries to make cannot be made.
      obtain ⟨c, cs, hcs⟩ := List.exists_cons_of_ne_nil
        (List.append_ne_nil_of_right_ne_nil (stops p) (List.cons_ne_nil p []))
      have hc : c ≠ [] ∧ c <+: p ++ ['/'] := by
        rcases List.mem_append.1 (hcs ▸ List.mem_cons_self : c ∈ stops p ++ [p]) with hstop | hself
        · obtain ⟨hcne, hpre⟩ := mem_stops.1 hstop
          exact ⟨hcne, ((List.prefix_append c ['/']).trans hpre).trans (List.prefix_append _ _)⟩
        · rw [List.mem_singleton.1 hself]
          exact ⟨hne, List.prefix_append _ _⟩
      obtain ⟨hlookup, -, htarget⟩ := hmissing hc.1 hc.2
      have hmkdir : sys.mkdir w c mode = none := by rw [System.mkdir, htarget]; rfl
      rw [cuts_eq, hcs, makeDirs, World.stat_eq_none_iff.2 hlookup]
      simp only [hmkdir]
    · rw [World.stat_eq_none_iff.2 (hmissing hne (List.prefix_append _ _)).1]
      simp
  · rintro q hp ⟨l, v, hv, -, hl⟩
    rcases eq_or_ne q [] with rfl | hq
    · rcases hl with hl | ⟨-, hl⟩ <;> cases hl
    · obtain ⟨hlookup, hlentry, -⟩ := hmissing hq hp
      rcases hl with hl | ⟨-, hl⟩
      · rw [hlookup] at hl
        cases hl
      · rw [hlentry] at hl
        cases hl

/-- For the root, the loop asks for the empty path, and nothing is in the
way. -/
theorem makeParents_root (sys : System) (w : World) (mode : Nat) :
    makeParents sys w slash mode = (false, w) ∧ ∀ q, q <+: slash → ¬ BlockedAt w q := by
  have hroot : w.lookup slash = some [] := World.lookup_render w.tree.isDir_root (by decide)
  refine ⟨rfl, ?_⟩
  rintro q ⟨t, ht⟩ ⟨l, v, hv, hkind, hl⟩
  rcases List.cons_eq_append_iff.1 ht.symm with ⟨rfl, -⟩ | ⟨r, rfl, hr⟩
  · rcases hl with hl | ⟨-, hl⟩ <;> cases hl
  · obtain ⟨rfl, -⟩ := List.append_eq_nil_iff.1 hr.symm
    rcases hl with hl | ⟨hl, -⟩
    · obtain rfl := Option.some.inj (hroot.symm.trans hl)
      exact hkind ((isDir_iff hv).1 w.tree.isDir_root)
    · cases hroot.symm.trans hl

/-- A failure with nothing in the way is not explained. -/
theorem not_blocked_of_free {dir : Str} (hfree : ∀ q, q <+: dir → ¬ BlockedAt w q) :
    ¬ (false = false → ∃ q, q <+: dir ∧ BlockedAt w q) := by
  intro hblocked
  obtain ⟨q, hq, hat⟩ := hblocked rfl
  exact hfree q hq hat

end FsObject

open FsObject in
/-- For every object of every program that is not cached as there, `makePath`
leaves every entry as it is, adds directories before the separators of the
directory path only, and when it succeeds, the object is there or its directory
path leads to a directory. -/
theorem State.makePath_builds (sys : System) (w₀ : World) (ops : List Op) {i : Nat} {o : Obj}
    (h : (Run.runs (step sys) (initial w₀) ops).objs i = some o) (hcache : o.base.mExists = false)
    (w : World) (mode : Nat) :
    (∀ l, w.tree.get l ≠ none →
      (makePath sys w o.base mode).world.tree.get l = w.tree.get l) ∧
    (∀ l, w.tree.get l = none → (makePath sys w o.base mode).world.tree.get l ≠ none →
      (makePath sys w o.base mode).world.tree.IsDir l ∧
        ∃ q, q ++ ['/'] <+: o.base.directoryPath ∧
          (makePath sys w o.base mode).world.lookup q = some l) ∧
    ((makePath sys w o.base mode).ok = true →
      o.base.Present (makePath sys w o.base mode).world ∨
        ∃ l, (makePath sys w o.base mode).world.lookup o.base.directoryPath = some l ∧
          (makePath sys w o.base mode).world.tree.IsDir l) := by
  have hc := (wellFormed_runs sys w₀ ops i o h).coherent
  obtain ⟨hmade, hok⟩ := makePath_made sys w mode hc hcache
  refine ⟨fun l hl => ?_, hmade, hok⟩
  exact (makePath_paved hc).toGrown.ext.get_eq hl

open FsObject in
/-- The parents of a file in a directory that is not there. -/
theorem State.makePath_builds_parents :
    (∀ l, (World.ofList [(["a"], .directory)]).tree.get l ≠ none →
      (makePath System.granting (World.ofList [(["a"], .directory)])
        (Obj.construct .file (some "/a/b/c".toList)).base 0o777).world.tree.get l
          = (World.ofList [(["a"], .directory)]).tree.get l) ∧
    ((Obj.construct .file (some "/a/b/c".toList)).base.Present
        (makePath System.granting (World.ofList [(["a"], .directory)])
          (Obj.construct .file (some "/a/b/c".toList)).base 0o777).world ∨
      ∃ l, (makePath System.granting (World.ofList [(["a"], .directory)])
          (Obj.construct .file (some "/a/b/c".toList)).base 0o777).world.lookup
            (Obj.construct .file (some "/a/b/c".toList)).base.directoryPath = some l ∧
        (makePath System.granting (World.ofList [(["a"], .directory)])
          (Obj.construct .file (some "/a/b/c".toList)).base 0o777).world.tree.IsDir l) := by
  obtain ⟨hsame, -, hdone⟩ := makePath_builds System.granting (World.ofList [])
    [.construct 0 .file (some "/a/b/c".toList)] (i := 0)
    (o := Obj.construct .file (some "/a/b/c".toList)) rfl rfl
    (World.ofList [(["a"], .directory)]) 0o777
  exact ⟨hsame, hdone (by decide)⟩

open FsObject in
/-- Where every free name can be made, `makePath` fails only at something that is
no directory exactly if the object is there, or cached as there, or its
directory path is not the root and starts from a directory. -/
theorem State.makePath_fails_iff (sys : System) (hsys : MakesFree sys) (w₀ : World)
    (ops : List Op) {i : Nat} {o : Obj}
    (h : (Run.runs (step sys) (initial w₀) ops).objs i = some o)
    (hdir : o.base.directoryPath ≠ []) (w : World) (mode : Nat) :
    ((makePath sys w o.base mode).ok = false → ∃ q, q <+: o.base.directoryPath ∧
        BlockedAt (makePath sys w o.base mode).world q) ↔
      o.base.mExists = true ∨ o.base.Present w ∨
        (o.base.directoryPath ≠ slash ∧ w.tree.IsDir (w.start o.base.directoryPath)) := by
  have hc := (wellFormed_runs sys w₀ ops i o h).coherent
  rw [← or_assoc, ← checkIfExists_mExists_iff hc]
  cases hexists : (o.base.checkIfExists w).mExists with
  | true =>
    rw [makePath_of_exists hexists]
    exact ⟨fun _ => Or.inl rfl, fun _ hok => Bool.noConfusion hok⟩
  | false =>
    obtain ⟨p, hp⟩ := (directoryPath_cases hc).resolve_left hdir
    rw [makePath_of_not_exists hc hexists, hp]
    rcases eq_or_ne p [] with rfl | hne
    · obtain ⟨hmade, hfree⟩ := makeParents_root sys w mode
      change ((makeParents sys w slash mode).1 = false → ∃ q, q <+: slash ∧
        BlockedAt (makeParents sys w slash mode).2 q) ↔ _
      rw [hmade]
      refine iff_of_false (not_blocked_of_free hfree) (not_or.2 ⟨Bool.false_ne_true, fun h => ?_⟩)
      exact h.1 rfl
    · have hslash : p ++ ['/'] ≠ slash := by simpa [slash] using hne
      have hstart : w.start (p ++ ['/']) = w.start p :=
        (start_eq_start hne (List.prefix_append p ['/'])).symm
      rw [hstart]
      by_cases hfrom : w.tree.IsDir (w.start p)
      · exact ⟨fun _ => Or.inr ⟨hslash, hfrom⟩, fun _ hok => makeParents_false hsys hne hfrom hok⟩
      · obtain ⟨hmade, hfree⟩ := makeParents_of_start sys hne hfrom mode
        rw [hmade]
        refine iff_of_false (not_blocked_of_free hfree) (not_or.2 ⟨Bool.false_ne_true, fun h => ?_⟩)
        exact hfrom h.2

/-- The system that grants every change makes every directory whose name is
free. -/
theorem FsObject.makesFree_granting : FsObject.MakesFree System.granting :=
  fun _ _ _ l hl hfree => System.mkdir_isSome_iff.2 ⟨l, hl, hfree, rfl⟩

open FsObject in
/-- A file below a regular file. -/
theorem State.makePath_fails_iff_below :
    ∃ q, q <+: "/f/a/".toList ∧ BlockedAt (makePath System.granting
      (World.ofList [(["f"], .regular)]) (Obj.construct .file (some "/f/a/b".toList)).base
        0o777).world q :=
  (makePath_fails_iff System.granting makesFree_granting (World.ofList [])
    [.construct 0 .file (some "/f/a/b".toList)] (i := 0)
    (o := Obj.construct .file (some "/f/a/b".toList)) rfl (by decide)
    (World.ofList [(["f"], .regular)]) 0o777).2 (Or.inr (Or.inr (by decide))) (by decide)

open FsObject in
/-- For a file that is missing in the root, `makePath` fails, and nothing is in
the way. -/
theorem State.not_makePath_fails_root :
    ¬ ∀ (sys : System), MakesFree sys → ∀ (w₀ : World) (ops : List Op) (i : Nat) (o : Obj),
      (Run.runs (step sys) (initial w₀) ops).objs i = some o → o.base.directoryPath ≠ [] →
      ∀ (w : World) (mode : Nat), (makePath sys w o.base mode).ok = false →
        ∃ q, q <+: o.base.directoryPath ∧ BlockedAt (makePath sys w o.base mode).world q := by
  intro h
  obtain ⟨q, hq, hblocked⟩ := h System.granting makesFree_granting (World.ofList [])
    [.construct 0 .file (some "/f".toList)] 0 (Obj.construct .file (some "/f".toList)) rfl
    (by decide) (World.ofList []) 0o777 (by decide)
  have hworld : (makePath System.granting (World.ofList [])
      (Obj.construct .file (some "/f".toList)).base 0o777).world = World.ofList [] := by
    rw [makePath_of_not_exists (Path.Coherent.of_setPath Path.empty _) (by decide)]
    rfl
  rw [hworld] at hblocked
  exact (makeParents_root System.granting (World.ofList []) 0o777).2 q hq hblocked

end SysFs
