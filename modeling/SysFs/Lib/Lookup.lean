import SysFs.Lib.FileTree
import SysFs.Lib.Lines

/-!
# Looking up a path in a file tree

A path is looked up field by field.  An empty field and `.` stay, `..` goes up
(and stays at the root), and a name goes down; each of them needs a directory
to start from.  When the entry at a name is a symbolic link, the lookup goes on
with the fields of its target before the rest.  `fuel` bounds the number of
links that are followed, as a kernel does.

`walk` is the lookup as a function, and `Walks` is its trace as a relation,
which also records every location that was looked at.  `walk_eq_some_iff` says
that they agree, and everything else is proved by induction on a trace:

* `Walks.append` and `Walks.split`: a lookup of a longer path is two lookups.
* `Walks.frame`: a lookup depends only on what it looks at.
* `Walks.grow`: a lookup that succeeds still does in a larger tree.
* `Walks.mono_or_blocked`: what a lookup can still reach after some of what it
  looks at is gone.
* `Walks.shrink` and `Walks.of_own_link`: what a lookup that succeeds in a larger
  tree, or in a tree with a new link, was before.

With `miss` the last name need not be there: this is how a file is created
through a path.
-/

namespace Posix

/-- Where the lookup of a text starts. -/
def startAt (cur : Loc) (text : List Char) : Loc := if text.head? = some '/' then [] else cur

section Walk

variable (t : FileTree) (miss : Bool)

/-- The lookup, where `follow` goes on at a link. -/
def walkWith (follow : Loc → List Char → List (List Char) → Option Loc) :
    Loc → List (List Char) → Option Loc
  | cur, [] => some cur
  | cur, c :: cs =>
    if t.IsDir cur then
      if c = [] ∨ c = ['.'] then walkWith follow cur cs
      else if c = ['.', '.'] then walkWith follow cur.dropLast cs
      else
        match Name.ofText c with
        | none => none
        | some n =>
          match t.kindAt (cur ++ [n]) with
          | none => if miss ∧ cs = [] then some (cur ++ [n]) else none
          | some (.symlink target) => follow cur target cs
          | some _ => walkWith follow (cur ++ [n]) cs
    else none

/-- Follow a link, with `fuel` more of them at most. -/
def follow : Nat → Loc → List Char → List (List Char) → Option Loc
  | 0, _, _, _ => none
  | fuel + 1, cur, target, cs =>
    if target = [] then none
    else walkWith t miss (follow fuel) (startAt cur target) (Lines.fields '/' target ++ cs)

/-- Where the fields lead to from a location. -/
def walk (fuel : Nat) (cur : Loc) (cs : List (List Char)) : Option Loc :=
  walkWith t miss (follow t miss fuel) cur cs

/-- A lookup that succeeds, with the locations it looks at. -/
inductive Walks : Nat → Loc → List (List Char) → List Loc → Loc → Prop
  | done (fuel : Nat) (cur : Loc) : Walks fuel cur [] [] cur
  | stay {fuel : Nat} {cur : Loc} {c : List Char} {cs : List (List Char)}
      {seen : List Loc} {l : Loc} (hdir : t.IsDir cur) (hc : c = [] ∨ c = ['.'])
      (rest : Walks fuel cur cs seen l) :
      Walks fuel cur (c :: cs) (cur :: seen) l
  | up {fuel : Nat} {cur : Loc} {cs : List (List Char)} {seen : List Loc} {l : Loc}
      (hdir : t.IsDir cur) (rest : Walks fuel cur.dropLast cs seen l) :
      Walks fuel cur (['.', '.'] :: cs) (cur :: seen) l
  | down {fuel : Nat} {cur : Loc} {n : Name} {kind : Kind} {cs : List (List Char)}
      {seen : List Loc} {l : Loc} (hdir : t.IsDir cur)
      (hkind : t.kindAt (cur ++ [n]) = some kind) (hlink : ¬ kind.IsLink)
      (rest : Walks fuel (cur ++ [n]) cs seen l) :
      Walks fuel cur (n.1 :: cs) (cur :: (cur ++ [n]) :: seen) l
  | link {fuel : Nat} {cur : Loc} {n : Name} {target : List Char}
      {cs : List (List Char)} {seen : List Loc} {l : Loc} (hdir : t.IsDir cur)
      (hkind : t.kindAt (cur ++ [n]) = some (.symlink target)) (htarget : target ≠ [])
      (rest : Walks fuel (startAt cur target) (Lines.fields '/' target ++ cs) seen l) :
      Walks (fuel + 1) cur (n.1 :: cs) (cur :: (cur ++ [n]) :: seen) l
  | missing {fuel : Nat} {cur : Loc} {n : Name} (hmiss : miss = true) (hdir : t.IsDir cur)
      (hkind : t.kindAt (cur ++ [n]) = none) :
      Walks fuel cur [n.1] [cur, cur ++ [n]] (cur ++ [n])

end Walk

variable {t t' : FileTree} {miss : Bool} {fuel fuel' : Nat} {cur l m : Loc}
  {cs ds : List (List Char)} {seen seen' : List Loc}

/-- Every lookup has a trace, as soon as every link it follows has one. -/
private theorem walks_of_walkWith {f : Loc → List Char → List (List Char) → Option Loc}
    (hf : ∀ cur target cs l, f cur target cs = some l → ∃ k seen, fuel = k + 1 ∧
      target ≠ [] ∧ Walks t miss k (startAt cur target) (Lines.fields '/' target ++ cs) seen l)
    (h : walkWith t miss f cur cs = some l) : ∃ seen, Walks t miss fuel cur cs seen l := by
  induction cs generalizing cur with
  | nil =>
    rw [walkWith, Option.some.injEq] at h
    exact ⟨[], h ▸ Walks.done fuel cur⟩
  | cons c cs ih =>
    rw [walkWith] at h
    split at h
    · rename_i hdir
      split at h
      · rename_i hc
        obtain ⟨seen, hw⟩ := ih h
        exact ⟨_, Walks.stay hdir hc hw⟩
      · split at h
        · rename_i hc
          obtain ⟨seen, hw⟩ := ih h
          rw [hc]
          exact ⟨_, Walks.up hdir hw⟩
        · split at h
          · cases h
          · rename_i n hn
            rw [Name.ofText_eq_some.1 hn]
            split at h
            · rename_i hkind
              split at h
              · rename_i hmiss
                rw [hmiss.2, ← Option.some.inj h]
                exact ⟨_, Walks.missing hmiss.1 hdir hkind⟩
              · cases h
            · rename_i target hkind
              obtain ⟨k, seen, rfl, htarget, hw⟩ := hf _ _ _ _ h
              exact ⟨_, Walks.link hdir hkind htarget hw⟩
            · rename_i kind hlink hkind
              obtain ⟨seen, hw⟩ := ih h
              refine ⟨_, Walks.down hdir hkind ?_ hw⟩
              rintro ⟨target, rfl⟩
              exact hlink target rfl
    · cases h

/-- A lookup succeeds exactly when it has a trace. -/
theorem walk_eq_some_iff :
    walk t miss fuel cur cs = some l ↔ ∃ seen, Walks t miss fuel cur cs seen l := by
  constructor
  · intro h
    induction fuel generalizing cur cs l with
    | zero => exact walks_of_walkWith (fun _ _ _ _ h => absurd h (by simp [follow])) h
    | succ k ih =>
      refine walks_of_walkWith (fun cur target cs l hfollow => ?_) h
      rw [follow] at hfollow
      split at hfollow
      · cases hfollow
      · rename_i htarget
        obtain ⟨seen, hw⟩ := ih hfollow
        exact ⟨k, seen, rfl, htarget, hw⟩
  · rintro ⟨seen, h⟩
    unfold walk
    induction h with
    | done fuel cur => rfl
    | stay hdir hc rest ih => rw [walkWith, if_pos hdir, if_pos hc, ih]
    | up hdir rest ih =>
      rw [walkWith, if_pos hdir, if_neg (by decide), if_pos rfl, ih]
    | @down fuel cur n kind cs seen l hdir hkind hlink rest ih =>
      rw [walkWith, if_pos hdir, if_neg (by simp [n.ne_nil, n.ne_dot]), if_neg n.ne_dotdot]
      simp only [Name.ofText_val, hkind]
      cases kind with
      | symlink target => exact absurd ⟨target, rfl⟩ hlink
      | _ => exact ih
    | @link fuel cur n target cs seen l hdir hkind htarget rest ih =>
      rw [walkWith, if_pos hdir, if_neg (by simp [n.ne_nil, n.ne_dot]), if_neg n.ne_dotdot]
      simp only [Name.ofText_val, hkind]
      rw [follow, if_neg htarget, ih]
    | @missing fuel cur n hmiss hdir hkind =>
      rw [walkWith, if_pos hdir, if_neg (by simp [n.ne_nil, n.ne_dot]), if_neg n.ne_dotdot]
      simp only [Name.ofText_val, hkind]
      rw [if_pos ⟨hmiss, trivial⟩]

/-- A location that a lookup cannot pass: nothing is there, or something that
is neither a directory nor a link. -/
def Blocks (t : FileTree) (x : Loc) : Prop :=
  ∀ kind, t.kindAt x = some kind → kind ≠ .directory ∧ ¬ kind.IsLink

/-- A move that replaces only what it may replace blocks every location whose
kind it changes. -/
theorem FileTree.kindAt_relocate_or_blocks {t : FileTree} {s d x : Loc} {source : Kind}
    (hmove : t.CanMove s d) (hsource : t.kindAt s = some source) (hlink : ¬ source.IsLink)
    (hreplace : t.replaceable source d = true) (hx : t.kindAt x ≠ none) :
    (t.relocate s d hmove).kindAt x = t.kindAt x ∨ Blocks (t.relocate s d hmove) x := by
  by_cases hd : d <+: x
  · obtain ⟨r, rfl⟩ := hd
    unfold replaceable at hreplace
    split at hreplace
    · rename_i hnone
      -- Nothing lies below a location where nothing is.
      rcases eq_or_ne r [] with rfl | hr
      · rw [List.append_nil] at hx
        exact absurd hnone hx
      · have hdir := isDir_above hr (fun h => hx (kindAt_eq_none.2 h))
        rw [IsDir, hnone] at hdir
        cases hdir
    · rename_i hdir
      simp only [Bool.and_eq_true, beq_iff_eq, List.isEmpty_iff] at hreplace
      rcases r with _ | ⟨n, r⟩
      · left
        rw [kindAt_eq, get_relocate_target, ← kindAt_eq, List.append_nil, List.append_nil,
          hsource, hdir, hreplace.1]
      · -- The directory that is replaced is empty.
        have hchild : t.get (d ++ [n]) ≠ none := by
          rw [List.append_cons] at hx
          rcases eq_or_ne r [] with rfl | hr
          · rw [List.append_nil] at hx
            exact fun h => hx (kindAt_eq_none.2 h)
          · exact (isDir_above hr (fun h => hx (kindAt_eq_none.2 h))).get_ne_none
        rw [← mem_children, hreplace.2] at hchild
        cases hchild
    · rename_i kind hnd hkind
      have hfile : source ≠ .directory := by simpa using hreplace
      have hr : r = [] := by
        by_contra hr
        have hdir := isDir_above hr (fun h => hx (kindAt_eq_none.2 h))
        exact hnd (Option.some.inj (hkind.symm.trans hdir))
      subst hr
      right
      intro kind' hkind'
      rw [kindAt_eq, get_relocate_target, ← kindAt_eq, List.append_nil, hsource] at hkind'
      obtain rfl := Option.some.inj hkind'
      exact ⟨hfile, hlink⟩
  · by_cases hs : s <+: x
    · right
      intro kind hkind
      rw [kindAt_eq, get_relocate_source hmove hs hd] at hkind
      cases hkind
    · left
      rw [kindAt_eq, get_relocate_other hmove hs hd, kindAt_eq]

namespace Walks

/-- More fuel does not hurt. -/
theorem mono_fuel (h : Walks t miss fuel cur cs seen l) (hle : fuel ≤ fuel') :
    Walks t miss fuel' cur cs seen l := by
  induction h generalizing fuel' with
  | done fuel cur => exact .done _ _
  | stay hdir hc rest ih => exact .stay hdir hc (ih hle)
  | up hdir rest ih => exact .up hdir (ih hle)
  | down hdir hkind hlink rest ih => exact .down hdir hkind hlink (ih hle)
  | link hdir hkind htarget rest ih =>
    obtain ⟨k, rfl⟩ : ∃ k, fuel' = k + 1 := ⟨fuel' - 1, by omega⟩
    exact .link hdir hkind htarget (ih (by omega))
  | missing hmiss hdir hkind => exact .missing hmiss hdir hkind

/-- A lookup from where another one ends. -/
theorem append (h : Walks t false fuel cur cs seen m) (h' : Walks t miss fuel' m ds seen' l) :
    Walks t miss (fuel + fuel') cur (cs ++ ds) (seen ++ seen') l := by
  induction h with
  | done k cur => exact h'.mono_fuel (by omega)
  | stay hdir hc rest ih => exact .stay hdir hc (ih h')
  | up hdir rest ih => exact .up hdir (ih h')
  | down hdir hkind hlink rest ih => exact .down hdir hkind hlink (ih h')
  | @link k cur n target cs seen l hdir hkind htarget rest ih =>
    have hrest := ih h'
    rw [List.append_assoc] at hrest
    have := Walks.link hdir hkind htarget hrest
    rwa [show k + 1 + fuel' = k + fuel' + 1 by omega]
  | missing hmiss => cases hmiss

/-- A lookup of a longer path passes through where its first part leads. -/
theorem split (h : Walks t miss fuel cur (cs ++ ds) seen l) (hds : ds ≠ []) :
    ∃ m k k' seen₁ seen₂, Walks t false k cur cs seen₁ m ∧ Walks t miss k' m ds seen₂ l ∧
      k + k' ≤ fuel ∧ seen = seen₁ ++ seen₂ := by
  generalize hw : cs ++ ds = ws at h
  induction h generalizing cs with
  | done fuel cur => exact absurd (List.append_eq_nil_iff.1 hw).2 hds
  | @stay fuel cur c ws seen l hdir hc rest ih =>
    rcases cs with _ | ⟨b, cs⟩
    · rw [List.nil_append] at hw
      subst hw
      exact ⟨cur, 0, fuel, [], _, .done 0 cur, .stay hdir hc rest, by omega, rfl⟩
    · obtain ⟨rfl, rfl⟩ := List.cons.inj hw
      obtain ⟨m, k, k', s₁, s₂, h₁, h₂, hle, rfl⟩ := ih rfl
      exact ⟨m, k, k', _, s₂, .stay hdir hc h₁, h₂, hle, rfl⟩
  | @up fuel cur ws seen l hdir rest ih =>
    rcases cs with _ | ⟨b, cs⟩
    · rw [List.nil_append] at hw
      subst hw
      exact ⟨cur, 0, fuel, [], _, .done 0 cur, .up hdir rest, by omega, rfl⟩
    · obtain ⟨rfl, rfl⟩ := List.cons.inj hw
      obtain ⟨m, k, k', s₁, s₂, h₁, h₂, hle, rfl⟩ := ih rfl
      exact ⟨m, k, k', _, s₂, .up hdir h₁, h₂, hle, rfl⟩
  | @down fuel cur n kind ws seen l hdir hkind hlink rest ih =>
    rcases cs with _ | ⟨b, cs⟩
    · rw [List.nil_append] at hw
      subst hw
      exact ⟨cur, 0, fuel, [], _, .done 0 cur, .down hdir hkind hlink rest, by omega, rfl⟩
    · obtain ⟨rfl, rfl⟩ := List.cons.inj hw
      obtain ⟨m, k, k', s₁, s₂, h₁, h₂, hle, rfl⟩ := ih rfl
      exact ⟨m, k, k', _, s₂, .down hdir hkind hlink h₁, h₂, hle, rfl⟩
  | @link fuel cur n target ws seen l hdir hkind htarget rest ih =>
    rcases cs with _ | ⟨b, cs⟩
    · rw [List.nil_append] at hw
      subst hw
      exact ⟨cur, 0, fuel + 1, [], _, .done 0 cur, .link hdir hkind htarget rest, by omega, rfl⟩
    · obtain ⟨rfl, rfl⟩ := List.cons.inj hw
      obtain ⟨m, k, k', s₁, s₂, h₁, h₂, hle, rfl⟩ :=
        ih (List.append_assoc (Lines.fields '/' target) cs ds)
      exact ⟨m, k + 1, k', _, s₂, .link hdir hkind htarget h₁, h₂, by omega, rfl⟩
  | @missing fuel cur n hmiss hdir hkind =>
    rcases cs with _ | ⟨b, cs⟩
    · rw [List.nil_append] at hw
      subst hw
      exact ⟨cur, 0, fuel, [], _, .done 0 cur, .missing hmiss hdir hkind, by omega, rfl⟩
    · have := (List.append_eq_nil_iff.1 (List.cons.inj hw).2).2
      exact absurd this hds

/-- Everything that a lookup looks at is there. -/
theorem kindAt_ne_none (h : Walks t false fuel cur cs seen l) :
    ∀ x ∈ seen, t.kindAt x ≠ none := by
  induction h with
  | done => simp
  | stay hdir hc rest ih =>
    rw [List.forall_mem_cons]
    exact ⟨by simp [show t.kindAt _ = _ from hdir], ih⟩
  | up hdir rest ih =>
    rw [List.forall_mem_cons]
    exact ⟨by simp [show t.kindAt _ = _ from hdir], ih⟩
  | down hdir hkind hlink rest ih =>
    rw [List.forall_mem_cons, List.forall_mem_cons]
    exact ⟨by simp [show t.kindAt _ = _ from hdir], by simp [hkind], ih⟩
  | link hdir hkind htarget rest ih =>
    rw [List.forall_mem_cons, List.forall_mem_cons]
    exact ⟨by simp [show t.kindAt _ = _ from hdir], by simp [hkind], ih⟩
  | missing hmiss => cases hmiss

/-- A lookup depends only on the kinds of what it looks at. -/
theorem frame (h : Walks t miss fuel cur cs seen l)
    (hsame : ∀ x ∈ seen, t'.kindAt x = t.kindAt x) : Walks t' miss fuel cur cs seen l := by
  induction h with
  | done fuel cur => exact .done _ _
  | stay hdir hc rest ih =>
    rw [List.forall_mem_cons] at hsame
    exact .stay (hsame.1.trans hdir) hc (ih hsame.2)
  | up hdir rest ih =>
    rw [List.forall_mem_cons] at hsame
    exact .up (hsame.1.trans hdir) (ih hsame.2)
  | down hdir hkind hlink rest ih =>
    rw [List.forall_mem_cons, List.forall_mem_cons] at hsame
    exact .down (hsame.1.trans hdir) (hsame.2.1.trans hkind) hlink (ih hsame.2.2)
  | link hdir hkind htarget rest ih =>
    rw [List.forall_mem_cons, List.forall_mem_cons] at hsame
    exact .link (hsame.1.trans hdir) (hsame.2.1.trans hkind) htarget (ih hsame.2.2)
  | missing hmiss hdir hkind =>
    rw [List.forall_mem_cons, List.forall_mem_cons] at hsame
    exact .missing hmiss (hsame.1.trans hdir) (hsame.2.1.trans hkind)

/-- A lookup that succeeds does so in every larger tree. -/
theorem grow (h : Walks t false fuel cur cs seen l) (hext : t.Extends t') :
    Walks t' false fuel cur cs seen l :=
  h.frame fun x hx => hext.kindAt_eq (h.kindAt_ne_none x hx)

/-- A lookup of at least one field starts in a directory. -/
theorem isDir_start (h : Walks t miss fuel cur cs seen l) (hcs : cs ≠ []) : t.IsDir cur := by
  cases h with
  | done => exact absurd rfl hcs
  | stay hdir => exact hdir
  | up hdir => exact hdir
  | down hdir => exact hdir
  | link hdir => exact hdir
  | missing _ hdir => exact hdir

private theorem result_aux (h : Walks t false fuel cur cs seen l)
    (hcur : ∃ kind, t.kindAt cur = some kind ∧ ¬ kind.IsLink) :
    ∃ kind, t.kindAt l = some kind ∧ ¬ kind.IsLink := by
  have hisDir : ∀ {x}, t.IsDir x → ∃ kind, t.kindAt x = some kind ∧ ¬ kind.IsLink :=
    fun hx => ⟨.directory, hx, by decide⟩
  induction h with
  | done => exact hcur
  | stay hdir hc rest ih => exact ih (hisDir hdir)
  | up hdir rest ih => exact ih (hisDir (FileTree.isDir_dropLast hdir))
  | down hdir hkind hlink rest ih => exact ih ⟨_, hkind, hlink⟩
  | @link fuel cur n target cs seen l hdir hkind htarget rest ih =>
    refine ih ?_
    unfold startAt
    split
    · exact hisDir t.isDir_root
    · exact hisDir hdir
  | missing hmiss => cases hmiss

/-- A lookup ends at an entry that is no link. -/
theorem result (h : Walks t false fuel cur cs seen l) (hcs : cs ≠ []) :
    ∃ kind, t.kindAt l = some kind ∧ ¬ kind.IsLink :=
  h.result_aux ⟨.directory, h.isDir_start hcs, by decide⟩

/-- The names of an entry that is no link lead to it. -/
theorem of_names {r : List Name} {kind : Kind} (hkind : t.kindAt (cur ++ r) = some kind)
    (hlink : ¬ kind.IsLink) :
    ∃ seen, Walks t miss fuel cur (r.map Subtype.val) seen (cur ++ r) := by
  induction r generalizing cur with
  | nil => exact ⟨[], by simpa using Walks.done fuel cur⟩
  | cons n r ih =>
    have hget : t.get (cur ++ n :: r) ≠ none := by
      rw [Ne, ← FileTree.kindAt_eq_none, hkind]
      simp
    have hdir : t.IsDir cur := FileTree.isDir_above (by simp) hget
    rw [List.append_cons] at hkind hget ⊢
    obtain ⟨seen, hrest⟩ := ih hkind
    rcases eq_or_ne r [] with rfl | hr
    · rw [List.append_nil] at hkind
      exact ⟨_, Walks.down hdir hkind hlink hrest⟩
    · exact ⟨_, Walks.down hdir (FileTree.isDir_above hr hget) (by decide) hrest⟩

/-- Empty fields at the end stay in a directory. -/
theorem stay_end (h : Walks t false fuel cur cs seen l) (hdir : t.IsDir l) (k : Nat) :
    ∃ seen', Walks t miss fuel cur (cs ++ List.replicate k []) seen' l := by
  have hstay : ∃ seen', Walks t miss 0 l (List.replicate k []) seen' l := by
    induction k with
    | zero => exact ⟨[], .done 0 l⟩
    | succ k ih =>
      obtain ⟨seen', ih⟩ := ih
      exact ⟨_, .stay hdir (Or.inl rfl) ih⟩
  obtain ⟨seen', hstay⟩ := hstay
  exact ⟨_, h.append hstay⟩

/-- What a lookup does at an empty field or a `.`. -/
theorem inv_stay {c : List Char} (hc : c = [] ∨ c = ['.'])
    (h : Walks t miss fuel cur (c :: cs) seen l) : ∃ seen', Walks t miss fuel cur cs seen' l := by
  generalize hw : c :: cs = ws at h
  cases h with
  | done => cases hw
  | stay hdir hc' rest =>
    obtain ⟨rfl, rfl⟩ := List.cons.inj hw
    exact ⟨_, rest⟩
  | up hdir rest =>
    obtain ⟨rfl, -⟩ := List.cons.inj hw
    exact absurd hc (by decide)
  | @down _ _ n _ _ _ _ hdir hkind hlink rest =>
    obtain ⟨rfl, -⟩ := List.cons.inj hw
    exact absurd hc (by simp [n.ne_nil, n.ne_dot])
  | @link _ _ n _ _ _ _ hdir hkind htarget rest =>
    obtain ⟨rfl, -⟩ := List.cons.inj hw
    exact absurd hc (by simp [n.ne_nil, n.ne_dot])
  | @missing _ _ n hmiss hdir hkind =>
    obtain ⟨rfl, -⟩ := List.cons.inj hw
    exact absurd hc (by simp [n.ne_nil, n.ne_dot])

/-- What a lookup does at `..`. -/
theorem inv_up (h : Walks t miss fuel cur (['.', '.'] :: cs) seen l) :
    ∃ seen', Walks t miss fuel cur.dropLast cs seen' l := by
  generalize hw : ['.', '.'] :: cs = ws at h
  cases h with
  | done => cases hw
  | stay hdir hc rest =>
    obtain ⟨rfl, -⟩ := List.cons.inj hw
    exact absurd hc (by decide)
  | up hdir rest =>
    obtain ⟨-, rfl⟩ := List.cons.inj hw
    exact ⟨_, rest⟩
  | @down _ _ n _ _ _ _ hdir hkind hlink rest =>
    exact absurd (List.cons.inj hw).1.symm n.ne_dotdot
  | @link _ _ n _ _ _ _ hdir hkind htarget rest =>
    exact absurd (List.cons.inj hw).1.symm n.ne_dotdot
  | @missing _ _ n hmiss hdir hkind =>
    exact absurd (List.cons.inj hw).1.symm n.ne_dotdot

/-- What a lookup does at a name. -/
theorem inv_name {n : Name} (h : Walks t miss fuel cur (n.1 :: cs) seen l) :
    (miss = true ∧ cs = [] ∧ t.kindAt (cur ++ [n]) = none ∧ l = cur ++ [n]) ∨
    (∃ kind seen', t.kindAt (cur ++ [n]) = some kind ∧ ¬ kind.IsLink ∧
      Walks t miss fuel (cur ++ [n]) cs seen' l) ∨
    ∃ target k seen', t.kindAt (cur ++ [n]) = some (.symlink target) ∧ fuel = k + 1 ∧
      Walks t miss k (startAt cur target) (Lines.fields '/' target ++ cs) seen' l := by
  generalize hw : n.1 :: cs = ws at h
  cases h with
  | done => cases hw
  | stay hdir hc rest =>
    obtain ⟨rfl, -⟩ := List.cons.inj hw
    exact absurd hc (by simp [n.ne_nil, n.ne_dot])
  | up hdir rest => exact absurd (List.cons.inj hw).1 n.ne_dotdot
  | down hdir hkind hlink rest =>
    obtain ⟨hn, rfl⟩ := List.cons.inj hw
    obtain rfl := Subtype.ext hn
    exact Or.inr (Or.inl ⟨_, _, hkind, hlink, rest⟩)
  | link hdir hkind htarget rest =>
    obtain ⟨hn, rfl⟩ := List.cons.inj hw
    obtain rfl := Subtype.ext hn
    exact Or.inr (Or.inr ⟨_, _, _, hkind, rfl, rest⟩)
  | missing hmiss hdir hkind =>
    obtain ⟨hn, rfl⟩ := List.cons.inj hw
    obtain rfl := Subtype.ext hn
    exact Or.inl ⟨hmiss, rfl, hkind, rfl⟩

/-- A lookup whose last field is no name ends at a directory. -/
theorem isDir_end {c : List Char} (h : Walks t miss fuel cur (cs ++ [c]) seen l)
    (hc : ¬ IsName c) : t.IsDir l := by
  obtain ⟨m, k, k', seen₁, seen₂, -, hlast, -, -⟩ := h.split (by simp)
  generalize hw : [c] = ws at hlast
  cases hlast with
  | done => cases hw
  | stay hdir hc' rest =>
    obtain ⟨-, rfl⟩ := List.cons.inj hw
    cases rest
    exact hdir
  | up hdir rest =>
    obtain ⟨-, rfl⟩ := List.cons.inj hw
    cases rest
    exact FileTree.isDir_dropLast hdir
  | @down _ _ n => exact absurd ((List.cons.inj hw).1 ▸ n.2) hc
  | @link _ _ n => exact absurd ((List.cons.inj hw).1 ▸ n.2) hc
  | @missing _ _ n => exact absurd ((List.cons.inj hw).1 ▸ n.2) hc

/-- The lookup of no field stays where it is. -/
theorem inv_nil (h : Walks t miss fuel cur [] seen l) : l = cur := by
  cases h
  rfl

/-- Empty fields at the end lead nowhere else. -/
theorem of_stay_end {k : Nat} (h : Walks t false fuel cur (cs ++ List.replicate k []) seen l) :
    ∃ seen', Walks t false fuel cur cs seen' l := by
  have hstay : ∀ {k fuel m seen}, Walks t false fuel m (List.replicate k []) seen l → l = m := by
    intro k
    induction k with
    | zero => exact fun h => h.inv_nil
    | succ k ih =>
      intro fuel m seen h
      obtain ⟨_, hrest⟩ := h.inv_stay (Or.inl rfl)
      exact ih hrest
  rcases eq_or_ne (List.replicate k ([] : List Char)) [] with hnil | hne
  · rw [hnil, List.append_nil] at h
    exact ⟨seen, h⟩
  · obtain ⟨m, k', k'', s₁, s₂, h₁, h₂, hle, -⟩ := h.split hne
    obtain rfl := hstay h₂
    exact ⟨s₁, h₁.mono_fuel (by omega)⟩

/-- The lookup of a name at the end of a path. -/
theorem of_name {n : Name} {kind : Kind} (h : Walks t false fuel cur cs seen m)
    (hdir : t.IsDir m) (hkind : t.kindAt (m ++ [n]) = some kind) (hlink : ¬ kind.IsLink) :
    ∃ seen', Walks t miss fuel cur (cs ++ [n.1]) seen' (m ++ [n]) :=
  ⟨_, h.append (.down hdir hkind hlink (.done 0 _))⟩

/-- Where a file is created, either something is there already, or nothing is,
in a directory, and the path leads there once there is something that is no
link. -/
theorem missing_cases (h : Walks t true fuel cur cs seen l) :
    Walks t false fuel cur cs seen l ∨
    (t.kindAt l = none ∧ (∃ q n, l = q ++ [n] ∧ t.IsDir q) ∧
      ∀ t', t.Extends t' → ∀ kind, t'.kindAt l = some kind → ¬ kind.IsLink →
        Walks t' false fuel cur cs seen l) := by
  induction h with
  | done fuel cur => exact Or.inl (.done fuel cur)
  | stay hdir hc rest ih =>
    rcases ih with ih | ⟨hnone, hparent, ih⟩
    · exact Or.inl (.stay hdir hc ih)
    · exact Or.inr ⟨hnone, hparent, fun t' hext kind hk hl =>
        .stay (hext.isDir hdir) hc (ih t' hext kind hk hl)⟩
  | up hdir rest ih =>
    rcases ih with ih | ⟨hnone, hparent, ih⟩
    · exact Or.inl (.up hdir ih)
    · exact Or.inr ⟨hnone, hparent, fun t' hext kind hk hl =>
        .up (hext.isDir hdir) (ih t' hext kind hk hl)⟩
  | down hdir hkind hlink rest ih =>
    rcases ih with ih | ⟨hnone, hparent, ih⟩
    · exact Or.inl (.down hdir hkind hlink ih)
    · exact Or.inr ⟨hnone, hparent, fun t' hext kind hk hl =>
        .down (hext.isDir hdir) (hext.kindAt_some hkind) hlink (ih t' hext kind hk hl)⟩
  | link hdir hkind htarget rest ih =>
    rcases ih with ih | ⟨hnone, hparent, ih⟩
    · exact Or.inl (.link hdir hkind htarget ih)
    · exact Or.inr ⟨hnone, hparent, fun t' hext kind hk hl =>
        .link (hext.isDir hdir) (hext.kindAt_some hkind) htarget (ih t' hext kind hk hl)⟩
  | @missing fuel cur n hmiss hdir hkind =>
    exact Or.inr ⟨hkind, ⟨cur, n, rfl, hdir⟩, fun t' hext kind hk hl =>
      .down (hext.isDir hdir) hk hl (.done fuel _)⟩

/-- When some of what a lookup looks at is blocked and the rest is unchanged,
the lookup leads to the same place or to no directory. -/
theorem mono_or_blocked (h : Walks t false fuel cur cs seen l)
    (hseen : ∀ x ∈ seen, t'.kindAt x = t.kindAt x ∨ Blocks t' x)
    (h' : Walks t' false fuel' cur cs seen' m) : m = l ∨ ¬ t'.IsDir m := by
  induction h generalizing fuel' seen' with
  | done fuel cur => exact Or.inl h'.inv_nil
  | stay hdir hc rest ih =>
    obtain ⟨_, hrest⟩ := h'.inv_stay hc
    exact ih (List.forall_mem_cons.1 hseen).2 hrest
  | up hdir rest ih =>
    obtain ⟨_, hrest⟩ := h'.inv_up
    exact ih (List.forall_mem_cons.1 hseen).2 hrest
  | @down fuel cur n kind cs seen l hdir hkind hlink rest ih =>
    rw [List.forall_mem_cons, List.forall_mem_cons] at hseen
    rcases h'.inv_name with ⟨hmiss, -⟩ | ⟨kind', _, hkind', hlink', hrest⟩ |
      ⟨target, _, _, hkind', -, -⟩
    · cases hmiss
    · rcases hseen.2.1 with hsame | hblocks
      · exact ih hseen.2.2 hrest
      · -- The walk stands on something that is no directory, so it ends here.
        have hnot : ¬ t'.IsDir (cur ++ [n]) := fun hd => (hblocks _ hd).1 rfl
        rcases eq_or_ne cs [] with rfl | hcs
        · rw [hrest.inv_nil]
          exact Or.inr hnot
        · exact absurd (hrest.isDir_start hcs) hnot
    · rcases hseen.2.1 with hsame | hblocks
      · rw [hsame, hkind] at hkind'
        exact absurd ⟨target, Option.some.inj hkind'⟩ hlink
      · exact absurd ⟨target, rfl⟩ (hblocks _ hkind').2
  | @link fuel cur n target cs seen l hdir hkind htarget rest ih =>
    rw [List.forall_mem_cons, List.forall_mem_cons] at hseen
    rcases h'.inv_name with ⟨hmiss, -⟩ | ⟨kind', _, hkind', hlink', hrest⟩ |
      ⟨target', _, _, hkind', -, hrest⟩
    · cases hmiss
    · rcases hseen.2.1 with hsame | hblocks
      · rw [hsame, hkind] at hkind'
        exact absurd ⟨target, (Option.some.inj hkind').symm⟩ hlink'
      · have hnot : ¬ t'.IsDir (cur ++ [n]) := fun hd => (hblocks _ hd).1 rfl
        rcases eq_or_ne cs [] with rfl | hcs
        · rw [hrest.inv_nil]
          exact Or.inr hnot
        · exact absurd (hrest.isDir_start hcs) hnot
    · rcases hseen.2.1 with hsame | hblocks
      · rw [hsame, hkind] at hkind'
        obtain rfl := Kind.symlink.inj (Option.some.inj hkind')
        exact ih hseen.2.2 hrest
      · exact absurd ⟨target', rfl⟩ (hblocks _ hkind').2
  | missing hmiss => cases hmiss

/-! ## Links in a tree that has grown -/

/-- A lookup that succeeds is made with the same number of links in a larger
tree. -/
theorem shrink (h : Walks t false fuel cur cs seen l) (hext : t.Extends t')
    (h' : Walks t' false fuel' cur cs seen' m) : m = l ∧ ∃ s, Walks t false fuel' cur cs s l := by
  induction h generalizing fuel' seen' with
  | done fuel cur => exact ⟨h'.inv_nil, [], .done fuel' cur⟩
  | stay hdir hc rest ih =>
    obtain ⟨_, hrest⟩ := h'.inv_stay hc
    obtain ⟨hm, s, hs⟩ := ih hrest
    exact ⟨hm, _, .stay hdir hc hs⟩
  | up hdir rest ih =>
    obtain ⟨_, hrest⟩ := h'.inv_up
    obtain ⟨hm, s, hs⟩ := ih hrest
    exact ⟨hm, _, .up hdir hs⟩
  | @down fuel cur n kind cs seen l hdir hkind hlink rest ih =>
    have hkind' := hext.kindAt_some hkind
    rcases h'.inv_name with ⟨hmiss, -⟩ | ⟨kind', _, -, -, hrest⟩ | ⟨target, _, _, htarget, -, -⟩
    · cases hmiss
    · obtain ⟨hm, s, hs⟩ := ih hrest
      exact ⟨hm, _, .down hdir hkind hlink hs⟩
    · rw [hkind'] at htarget
      exact absurd ⟨target, Option.some.inj htarget⟩ hlink
  | @link fuel cur n target cs seen l hdir hkind htarget rest ih =>
    have hkind' := hext.kindAt_some hkind
    rcases h'.inv_name with ⟨hmiss, -⟩ | ⟨kind', _, hk, hlink, -⟩ | ⟨target', k, _, hk, rfl, hrest⟩
    · cases hmiss
    · rw [hkind'] at hk
      exact absurd ⟨target, (Option.some.inj hk).symm⟩ hlink
    · rw [hkind'] at hk
      obtain rfl := Kind.symlink.inj (Option.some.inj hk)
      obtain ⟨hm, s, hs⟩ := ih hrest
      exact ⟨hm, _, .link hdir hkind htarget hs⟩
  | missing hmiss => cases hmiss

/-- A lookup that comes to a link goes on with the text of the link. -/
theorem of_mem_link {n : Name} {text : List Char} (h : Walks t false fuel cur cs seen l)
    (hmem : m ++ [n] ∈ seen) (hlink : t.kindAt (m ++ [n]) = some (.symlink text)) :
    ∃ k ds s, k < fuel ∧
      Walks t false k (startAt m text) (Lines.fields '/' text ++ ds) s l := by
  have hdirectory : ∀ {x}, t.IsDir x → m ++ [n] ≠ x := by
    intro x hx heq
    rw [← heq, FileTree.IsDir, hlink] at hx
    cases hx
  induction h with
  | done => cases hmem
  | stay hdir hc rest ih => exact ih ((List.mem_cons.1 hmem).resolve_left (hdirectory hdir))
  | up hdir rest ih => exact ih ((List.mem_cons.1 hmem).resolve_left (hdirectory hdir))
  | @down fuel cur n' kind cs seen l hdir hkind hnot rest ih =>
    rcases List.mem_cons.1 ((List.mem_cons.1 hmem).resolve_left (hdirectory hdir)) with heq | hmem
    · rw [← heq, hlink] at hkind
      exact absurd ⟨text, (Option.some.inj hkind).symm⟩ hnot
    · exact ih hmem
  | @link fuel cur n' target cs seen l hdir hkind htarget rest ih =>
    rcases List.mem_cons.1 ((List.mem_cons.1 hmem).resolve_left (hdirectory hdir)) with heq | hmem
    · obtain ⟨rfl, -⟩ := List.append_inj' heq rfl
      rw [← heq, hlink] at hkind
      obtain rfl := Kind.symlink.inj (Option.some.inj hkind)
      exact ⟨fuel, cs, seen, Nat.lt_succ_self fuel, rest⟩
    · obtain ⟨k, ds, s, hk, hs⟩ := ih hmem
      exact ⟨k, ds, s, Nat.lt_succ_of_lt hk, hs⟩
  | missing hmiss => cases hmiss

/-- The text of a new link leads through the link itself to nothing, so where
it leads, it led before. -/
theorem of_own_link {n : Name} {text : List Char}
    (h : Walks t' false fuel (startAt m text) (Lines.fields '/' text) seen l)
    (hlink : t'.kindAt (m ++ [n]) = some (.symlink text))
    (hsame : ∀ x, x ≠ m ++ [n] → t.kindAt x = t'.kindAt x) :
    ∃ s, Walks t false fuel (startAt m text) (Lines.fields '/' text) s l := by
  -- Through the link the same text is read again, with fewer links left.
  induction fuel using Nat.strong_induction_on generalizing seen with
  | _ fuel ih =>
    by_cases hmem : m ++ [n] ∈ seen
    · obtain ⟨k, ds, s, hk, hs⟩ := h.of_mem_link hmem hlink
      obtain ⟨p, j, s', hj, hp⟩ : ∃ p j s', j < fuel ∧
          Walks t' false j (startAt m text) (Lines.fields '/' text) s' p := by
        rcases eq_or_ne ds [] with rfl | hds
        · rw [List.append_nil] at hs
          exact ⟨l, k, s, hk, hs⟩
        · obtain ⟨p, j, j', s₁, s₂, h₁, -, hle, -⟩ := hs.split hds
          exact ⟨p, j, s₁, by omega, h₁⟩
      obtain ⟨rfl, -⟩ := h.shrink (FileTree.Extends.refl t') hp
      obtain ⟨s'', hs''⟩ := ih j hj hp
      exact ⟨s'', hs''.mono_fuel (Nat.le_of_lt hj)⟩
    · exact ⟨seen, h.frame fun x hx => hsame x fun heq => hmem (heq ▸ hx)⟩

end Walks

/-! ## The entry that a path names -/

/-- The name that the fields end with. -/
def lastName (cs : List (List Char)) : Option Name := cs.getLast?.bind Name.ofText

/-- Where the entry lies, or would lie, that the fields name: the links on the
way are followed, and one at the end is not. -/
def entryAt (t : FileTree) (fuel : Nat) (cur : Loc) (cs : List (List Char)) : Option Loc :=
  match lastName cs, walk t false fuel cur cs.dropLast with
  | some n, some q => if t.IsDir q then some (q ++ [n]) else none
  | _, _ => none

theorem lastName_concat (cs : List (List Char)) (c : List Char) :
    lastName (cs ++ [c]) = Name.ofText c := by
  simp [lastName]

theorem lastName_eq_some_iff {n : Name} :
    lastName cs = some n ↔ ∃ ws, cs = ws ++ [n.1] := by
  rcases List.eq_nil_or_concat' cs with rfl | ⟨ws, c, rfl⟩
  · simp [lastName]
  · rw [lastName_concat, Name.ofText_eq_some]
    constructor
    · rintro rfl
      exact ⟨ws, rfl⟩
    · rintro ⟨ws', h⟩
      simpa using (List.append_inj' h rfl).2

theorem entryAt_eq_some_iff :
    entryAt t fuel cur cs = some l ↔ ∃ ws n q seen, cs = ws ++ [n.1] ∧ l = q ++ [n] ∧
      t.IsDir q ∧ Walks t false fuel cur ws seen q := by
  constructor
  · intro h
    unfold entryAt at h
    split at h
    · rename_i n q hn hq
      obtain ⟨ws, rfl⟩ := lastName_eq_some_iff.1 hn
      rw [List.dropLast_concat] at hq
      obtain ⟨seen, hw⟩ := walk_eq_some_iff.1 hq
      split at h
      · rename_i hdir
        exact ⟨ws, n, q, seen, rfl, (Option.some.inj h).symm, hdir, hw⟩
      · cases h
    · cases h
  · rintro ⟨ws, n, q, seen, rfl, rfl, hdir, hw⟩
    have hn : lastName (ws ++ [n.1]) = some n := lastName_eq_some_iff.2 ⟨ws, rfl⟩
    have hq : walk t false fuel cur (ws ++ [n.1]).dropLast = some q := by
      rw [List.dropLast_concat]
      exact walk_eq_some_iff.2 ⟨seen, hw⟩
    simp only [entryAt, hn, hq]
    rw [if_pos hdir]

/-- A lookup of a path that ends with a name finds its entry.  When that is no
link, it is where the lookup ends. -/
theorem entryAt_of_walks {n : Name} (h : Walks t false fuel cur (cs ++ [n.1]) seen l) :
    ∃ q kind, entryAt t fuel cur (cs ++ [n.1]) = some (q ++ [n]) ∧
      t.kindAt (q ++ [n]) = some kind ∧ (¬ kind.IsLink → l = q ++ [n]) := by
  obtain ⟨q, k, k', seen₁, seen₂, h₁, h₂, hle, -⟩ := h.split (by simp)
  refine ⟨q, ?_⟩
  have hentry : entryAt t fuel cur (cs ++ [n.1]) = some (q ++ [n]) :=
    entryAt_eq_some_iff.2 ⟨cs, n, q, seen₁, rfl, rfl, h₂.isDir_start (by simp),
      h₁.mono_fuel (by omega)⟩
  rcases h₂.inv_name with ⟨hmiss, -⟩ | ⟨kind, _, hkind, -, hrest⟩ | ⟨target, _, _, hkind, -, -⟩
  · cases hmiss
  · exact ⟨kind, hentry, hkind, fun _ => hrest.inv_nil⟩
  · exact ⟨_, hentry, hkind, fun hlink => absurd ⟨target, rfl⟩ hlink⟩

/-- A larger tree has the same entry at a path. -/
theorem entryAt_grow (h : entryAt t fuel cur cs = some l) (hext : t.Extends t') :
    entryAt t' fuel cur cs = some l := by
  obtain ⟨ws, n, q, seen, rfl, rfl, hdir, hw⟩ := entryAt_eq_some_iff.1 h
  exact entryAt_eq_some_iff.2 ⟨ws, n, q, seen, rfl, rfl, hext.isDir hdir, hw.grow hext⟩

/-- An entry is never the root. -/
theorem ne_nil_of_entryAt (h : entryAt t fuel cur cs = some l) : l ≠ [] := by
  obtain ⟨ws, n, q, seen, rfl, rfl, -, -⟩ := entryAt_eq_some_iff.1 h
  simp

end Posix
