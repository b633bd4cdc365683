import Mathlib.Data.List.Induction
import SysFs.Lib.Calls
import SysFs.Path

/-!
# The texts of a path

`analyze` cuts the string of a path into a directory path and a file name, and
puts the full path together from the two.  Which shapes these three can have is
`Path.Shape`, and `Path.shape` says that there are no others.  The lookups that
`FsObject` makes with them differ only at the end, so what one finds follows
from what another finds (`lookup_append_slash`, `Posix.World.entry_concat`).

`Path.Coherent` says that the parts of an object, analyzed or not, are those of
its string.  It holds of every object that the class can build.
-/

namespace SysFs

open Posix

/-- A root is `/` or a drive. -/
theorem isRootPart_cases {r : Str} (h : isRootPart r = true) : r = [] ∨ ∃ c, r = [c, ':'] := by
  unfold isRootPart at h
  match r with
  | [] => exact Or.inl rfl
  | [c] => simp at h
  | [c, c'] => exact Or.inr ⟨c, by simpa using h⟩
  | _ :: _ :: _ :: _ => simp at h

namespace Path

/-- The directory path, the file name and the full path of a string. -/
inductive Shape : Str → Str → Str → Prop
  /-- the empty path -/
  | empty : Shape [] [] []
  /-- a directory and a file name, which is empty after a doubled separator -/
  | split (d f : Str) (hf : '/' ∉ f) : Shape (d ++ ['/']) f (d ++ '/' :: f)
  /-- a file name alone -/
  | name (f : Str) (hf : '/' ∉ f) (hne : f ≠ []) : Shape [] f f
  /-- a root alone -/
  | root (r : Str) (hr : '/' ∉ r) (hroot : isRootPart r = true) :
      Shape (r ++ ['/']) (r ++ ['/']) (r ++ ['/'])

/-- The directory path begins the full path. -/
theorem Shape.prefix_full {dir name full : Str} (h : Shape dir name full) : dir <+: full := by
  cases h with
  | empty => exact List.prefix_rfl
  | name f hf hne => exact List.nil_prefix
  | root => exact List.prefix_rfl
  | split d _ hf => exact ⟨name, by simp⟩

/-- A full path that leads nowhere while its directory is there ends with a
name. -/
theorem Shape.name_of_lookup {dir name full : Str} {w : World} {q : Loc}
    (h : Shape dir name full) (hfull : w.lookup full = none) (hdir : w.lookup dir = some q) :
    ∃ n : Name, name = n.1 ∧ w.tree.IsDir q ∧ w.entry full = some (q ++ [n]) ∧
      ∀ kind, w.tree.kindAt (q ++ [n]) = some kind → kind.IsLink := by
  cases h with
  | empty => exact absurd hdir (by simp [World.lookup_nil])
  | name f hf hne => exact absurd hdir (by simp [World.lookup_nil])
  | root =>
    rw [hfull] at hdir
    cases hdir
  | split d f hf =>
    obtain ⟨n, rfl, hentry, hkind⟩ := World.name_of_lookup_eq_none hf hdir hfull
    exact ⟨n, rfl, (World.lookup_dir_iff.1 hdir).1, hentry, hkind⟩

end Path

/-- With more than one component, all but the last get a separator. -/
theorem fixParts_concat {parts : List Str} (h : parts ≠ []) (f : Str) :
    fixParts (parts ++ [f]) = parts.map (· ++ slash) ++ [f] := by
  have hlen : 0 < parts.length := List.length_pos_iff.2 h
  rw [fixParts, List.mapIdx_concat]
  congr 1
  · refine List.ext_getElem (by simp) fun i hi hi' => ?_
    have hlt : i + 1 < (parts ++ [f]).length := by
      rw [List.length_mapIdx] at hi
      rw [List.length_append, List.length_singleton]
      omega
    rw [List.getElem_mapIdx, List.getElem_map, if_pos hlt]
    split <;> rfl
  · rw [if_neg (by omega), if_neg (by simp)]

theorem flatten_map_slash {parts : List Str} (h : parts ≠ []) :
    ∃ d, (parts.map (· ++ slash)).flatten = d ++ ['/'] := by
  obtain ⟨ws, c, rfl⟩ := (List.eq_nil_or_concat' parts).resolve_left h
  refine ⟨(ws.map (· ++ slash)).flatten ++ c, ?_⟩
  simp [slash]

namespace Path

/-! ## The three cases of `analyze` -/

section Cases

variable {p : Path} {ws : List Str} {f : Str}

/-- With no component, every part is empty. -/
theorem analyze_of_nil (h : p.mDetails = false) (hparts : partsOf p.mPath = []) :
    p.directoryPath = [] ∧ p.fileName = [] ∧ p.fullPath = [] ∧ p.isAbsolute = false := by
  unfold directoryPath fileName fullPath isAbsolute analyze
  rw [if_neg (by simp [h]), hparts]
  exact ⟨rfl, rfl, rfl, rfl⟩

/-- A root alone is the directory, the file name and the full path. -/
theorem analyze_of_root (h : p.mDetails = false) (hparts : partsOf p.mPath = [f])
    (hroot : isRootPart f = true) :
    p.directoryPath = f ++ ['/'] ∧ p.fileName = f ++ ['/'] ∧ p.fullPath = f ++ ['/'] ∧
      p.isAbsolute = true := by
  have hfix : fixParts [f] = [f ++ ['/']] := by simp [fixParts, hroot, slash]
  unfold directoryPath fileName fullPath isAbsolute analyze
  rw [if_neg (by simp [h]), hparts]
  simp [hfix, hroot]

/-- A name alone has no directory. -/
theorem analyze_of_name (h : p.mDetails = false) (hparts : partsOf p.mPath = [f])
    (hroot : isRootPart f = false) :
    p.directoryPath = [] ∧ p.fileName = f ∧ p.fullPath = f ∧ p.isAbsolute = false := by
  have hfix : fixParts [f] = [f] := by simp [fixParts, hroot]
  unfold directoryPath fileName fullPath isAbsolute analyze
  rw [if_neg (by simp [h]), hparts]
  simp [hfix, hroot]

/-- The last of several components is the file name, and the others make up the
directory. -/
theorem analyze_of_concat (h : p.mDetails = false) (hparts : partsOf p.mPath = ws ++ [f])
    (hne : ws ≠ []) :
    p.directoryPath = (ws.map (· ++ slash)).flatten ∧ p.fileName = f ∧
      p.fullPath = (ws.map (· ++ slash)).flatten ++ f ∧
      p.isAbsolute = ws.head?.any isRootPart := by
  have hlen : 1 < (ws.map (· ++ slash) ++ [f]).length := by
    have := List.length_pos_iff.2 hne
    simp only [List.length_append, List.length_map, List.length_singleton]
    omega
  have hhead : (ws ++ [f]).head? = ws.head? := List.head?_append_of_ne_nil _ hne
  unfold directoryPath fileName fullPath isAbsolute analyze
  rw [if_neg (by simp [h]), hparts, fixParts_concat hne, hhead]
  simp only [gt_iff_lt, if_pos hlen, List.dropLast_concat, List.getLast?_concat,
    Option.getD_some, and_self]

end Cases

/-- What `analyze` computes, for a path that is not analyzed: the three parts,
and the full path as the components joined again, where a root alone gets a
separator. -/
theorem analyze_parts {p : Path} (h : p.mDetails = false) :
    Shape p.analyze.mDirectoryPath p.analyze.mFilename p.analyze.mFullPath ∧
      (p.analyze.mFullPath = ['/'].intercalate (partsOf p.mPath) ∨
        (p.analyze.mFullPath = ['/'].intercalate (partsOf p.mPath) ++ ['/'] ∧
          '/' ∉ ['/'].intercalate (partsOf p.mPath) ∧
            isRootPart (['/'].intercalate (partsOf p.mPath)) = true)) := by
  have hsep : ∀ part ∈ partsOf p.mPath, '/' ∉ part :=
    fun part hm => Lines.notMem_of_mem_getlines hm
  change Shape p.directoryPath p.fileName p.fullPath ∧ (p.fullPath = _ ∨ p.fullPath = _ ∧ _)
  rcases List.eq_nil_or_concat' (partsOf p.mPath) with hnil | ⟨ws, f, hws⟩
  · obtain ⟨hdir, hfile, hfull, -⟩ := analyze_of_nil h hnil
    rw [hdir, hfile, hfull, hnil]
    exact ⟨Shape.empty, Or.inl rfl⟩
  have hf : '/' ∉ f := hsep f (by simp [hws])
  rcases eq_or_ne ws [] with rfl | hne
  · rw [hws, List.nil_append, List.intercalate_singleton]
    cases hroot : isRootPart f with
    | true =>
      obtain ⟨hdir, hfile, hfull, -⟩ := analyze_of_root h hws hroot
      rw [hdir, hfile, hfull]
      exact ⟨Shape.root f hf hroot, Or.inr ⟨rfl, hf, rfl⟩⟩
    | false =>
      obtain ⟨hdir, hfile, hfull, -⟩ := analyze_of_name h hws hroot
      rw [hdir, hfile, hfull]
      have hfne : f ≠ [] := by
        rintro rfl
        exact absurd hroot (by decide)
      exact ⟨Shape.name f hf hfne, Or.inl rfl⟩
  · obtain ⟨hdir, hfile, hfull, -⟩ := analyze_of_concat h hws hne
    obtain ⟨d, hd⟩ := flatten_map_slash hne
    have hjoin := Lines.flatten_append_eq_intercalate '/' ws f
    rw [hdir, hfile, hfull, hws]
    refine ⟨?_, Or.inl hjoin⟩
    have hcons : d ++ ['/'] ++ f = d ++ '/' :: f := by simp
    rw [hd, hcons]
    exact Shape.split d f hf

/-- Every path from a string has one of the shapes. -/
theorem shape (s : Str) :
    Shape (ofStr s).directoryPath (ofStr s).fileName (ofStr s).fullPath :=
  (analyze_parts rfl).1

/-- The parts that `analyze` computes depend on the string alone. -/
theorem analyze_congr {p p' : Path} (h : p.mDetails = false) (h' : p'.mDetails = false)
    (hpath : p.mPath = p'.mPath) :
    p.fullPath = p'.fullPath ∧ p.fileName = p'.fileName ∧
      p.directoryPath = p'.directoryPath ∧ p.baseName = p'.baseName ∧
      p.extension = p'.extension := by
  unfold fullPath fileName directoryPath baseName extension analyze
  rw [if_neg (by simp [h]), if_neg (by simp [h'])]
  simp only [hpath, and_self]

/-- The cache of `checkIfExists` is no part of the string. -/
theorem parts_exists (p : Path) (b : Bool) :
    ({ p with mExists := b } : Path).fullPath = p.fullPath ∧
      ({ p with mExists := b } : Path).fileName = p.fileName ∧
      ({ p with mExists := b } : Path).directoryPath = p.directoryPath ∧
      ({ p with mExists := b } : Path).baseName = p.baseName ∧
      ({ p with mExists := b } : Path).extension = p.extension := by
  unfold fullPath fileName directoryPath baseName extension analyze
  dsimp only
  split <;> simp

/-- Whether a path is absolute is not needed for its parts. -/
theorem parts_absolute (p : Path) (b : Bool) :
    ({ p with mAbsolute := b } : Path).fullPath = p.fullPath ∧
      ({ p with mAbsolute := b } : Path).fileName = p.fileName ∧
      ({ p with mAbsolute := b } : Path).directoryPath = p.directoryPath ∧
      ({ p with mAbsolute := b } : Path).baseName = p.baseName ∧
      ({ p with mAbsolute := b } : Path).extension = p.extension := by
  unfold fullPath fileName directoryPath baseName extension analyze
  dsimp only
  split <;> simp

/-- The parts of an object are those of its string, and an object whose
existence is cached has been analyzed. -/
structure Coherent (p : Path) : Prop where
  unified : unify p.mPath = p.mPath
  analyzed : p.mExists = true → p.mDetails = true
  parts : p.fullPath = (ofStr p.mPath).fullPath ∧ p.fileName = (ofStr p.mPath).fileName ∧
    p.directoryPath = (ofStr p.mPath).directoryPath ∧
    p.baseName = (ofStr p.mPath).baseName ∧ p.extension = (ofStr p.mPath).extension

namespace Coherent

variable {p p' : Path}

theorem fullPath_eq (h : p.Coherent) : p.fullPath = (ofStr p.mPath).fullPath := h.parts.1

theorem fileName_eq (h : p.Coherent) : p.fileName = (ofStr p.mPath).fileName := h.parts.2.1

theorem directoryPath_eq (h : p.Coherent) :
    p.directoryPath = (ofStr p.mPath).directoryPath := h.parts.2.2.1

/-- A path that is not analyzed and not cached is coherent. -/
theorem of_not_analyzed (hpath : unify p.mPath = p.mPath) (hdetails : p.mDetails = false)
    (hexists : p.mExists = false) : p.Coherent where
  unified := hpath
  analyzed h := by rw [hexists] at h; cases h
  parts := analyze_congr hdetails rfl (by rw [ofStr_mPath, hpath])

theorem of_setPath (p : Path) (s : Str) : (p.setPath s).Coherent :=
  of_not_analyzed (by simp) rfl rfl

theorem of_empty : Path.empty.Coherent := of_not_analyzed rfl rfl rfl

/-- Only the caches of a coherent path may change. -/
theorem of_caches (h : p.Coherent) (hpath : p'.mPath = p.mPath)
    (hanalyzed : p'.mExists = true → p'.mDetails = true)
    (hparts : p'.fullPath = p.fullPath ∧ p'.fileName = p.fileName ∧
      p'.directoryPath = p.directoryPath ∧ p'.baseName = p.baseName ∧
      p'.extension = p.extension) : p'.Coherent where
  unified := by rw [hpath, h.unified]
  analyzed := hanalyzed
  parts := by
    rw [hpath, hparts.1, hparts.2.1, hparts.2.2.1, hparts.2.2.2.1, hparts.2.2.2.2]
    exact h.parts

theorem analyze (h : p.Coherent) : p.analyze.Coherent := by
  refine h.of_caches (analyze_mPath p) (fun _ => analyze_mDetails p) ?_
  simp only [fullPath, fileName, directoryPath, baseName, extension, analyze_analyze, and_self]

theorem assign (h : p'.Coherent) (p : Path) : (p.assign p').Coherent :=
  h.of_caches rfl (fun h => nomatch h) (parts_exists p' false)

theorem shape (h : p.Coherent) : Shape p.directoryPath p.fileName p.fullPath := by
  rw [h.fullPath_eq, h.fileName_eq, h.directoryPath_eq]
  exact Path.shape _

end Coherent

/-! ## The string and its full path -/

/-- The constructor reads a string and its unified form alike. -/
theorem ofStr_unify (s : Str) : ofStr (unify s) = ofStr s := by
  unfold ofStr Path.setPath
  rw [unify_unify]

/-- The full path is the string, up to a separator at the end. -/
theorem fullPath_ofStr_cases {s : Str} (hs : unify s = s) :
    (ofStr s).fullPath = s ∨ s = (ofStr s).fullPath ++ ['/'] ∨
      ((ofStr s).fullPath = s ++ ['/'] ∧ '/' ∉ s ∧ isRootPart s = true) := by
  have hfull := (analyze_parts (Eq.refl (ofStr s).mDetails)).2
  rw [ofStr_mPath, hs] at hfull
  change (ofStr s).fullPath = _ ∨ (ofStr s).fullPath = _ ∧ _ at hfull
  rcases Lines.intercalate_getlines '/' s with h | h <;> rcases hfull with hf | ⟨hf, hsep⟩
  · exact Or.inl (hf.trans h.symm)
  · rw [partsOf, ← h] at hf hsep
    exact Or.inr (Or.inr ⟨hf, hsep⟩)
  · exact Or.inr (Or.inl (by rw [hf]; exact h))
  · exact Or.inl (hf.trans h.symm)

/-- The parts of a coherent path hold no backslash. -/
theorem Coherent.backslash_notMem_fullPath {p : Path} (h : p.Coherent) : '\\' ∉ p.fullPath := by
  have hs : '\\' ∉ p.mPath := by
    rw [← h.unified]
    exact backslash_notMem_unify _
  rw [h.fullPath_eq]
  intro hmem
  rcases fullPath_ofStr_cases h.unified with heq | heq | ⟨heq, -⟩
  · exact hs (heq ▸ hmem)
  · exact hs (heq ▸ List.mem_append_left _ hmem)
  · rw [heq] at hmem
    rcases List.mem_append.1 hmem with hmem | hmem
    · exact hs hmem
    · exact absurd hmem (by decide)

/-- A path that ends with a name is its own full path. -/
theorem fullPath_ofStr_name {d f : Str} (hs : unify (d ++ '/' :: f) = d ++ '/' :: f)
    (hf : '/' ∉ f) (hne : f ≠ []) : (ofStr (d ++ '/' :: f)).fullPath = d ++ '/' :: f := by
  rcases fullPath_ofStr_cases hs with h | h | ⟨-, hsep, -⟩
  · exact h
  · have hlast := congrArg List.getLast? h
    rw [List.getLast?_concat, List.getLast?_append, List.getLast?_cons_of_ne_nil hne] at hlast
    obtain ⟨c, hc⟩ := Option.ne_none_iff_exists'.1
      (mt List.getLast?_eq_none_iff.1 hne)
    rw [hc, Option.some_or, Option.some.injEq] at hlast
    exact absurd (hlast ▸ List.mem_of_getLast? hc) hf
  · simp at hsep

/-- Where the last separator is, the directory and the name come apart. -/
theorem eq_of_append_slash {d d' f f' : Str} (h : d ++ '/' :: f = d' ++ '/' :: f')
    (hf : '/' ∉ f) (hf' : '/' ∉ f') : d = d' ∧ f = f' := by
  have hfields : d.splitOn '/' ++ [f] = d'.splitOn '/' ++ [f'] := by
    rw [← List.splitOn_eq_singleton hf, ← List.splitOn_eq_singleton hf',
      ← Lines.fields_append_cons, ← Lines.fields_append_cons, h]
  have hname : f = f' := List.singleton_inj.1 (List.append_inj' hfields rfl).2
  rw [hname] at h
  exact ⟨List.append_cancel_right h, hname⟩

/-- The parts of a directory with a name, when the name is not taken for a
root. -/
theorem parts_ofStr_name {d f : Str} (hd : d = [] ∨ ∃ e, d = e ++ ['/'])
    (hs : unify (d ++ f) = d ++ f) (hf : '/' ∉ f) (hne : f ≠ [])
    (hroot : isRootPart f = false) :
    (ofStr (d ++ f)).directoryPath = d ∧ (ofStr (d ++ f)).fileName = f ∧
      (ofStr (d ++ f)).fullPath = d ++ f := by
  have hshape := shape (d ++ f)
  rcases hd with rfl | ⟨e, rfl⟩
  · have hfull : (ofStr f).fullPath = f := by
      rcases fullPath_ofStr_cases hs with h | h | ⟨-, -, h⟩
      · exact h
      · rw [List.nil_append] at h
        rw [h] at hf
        exact absurd (List.mem_append_right _ List.mem_cons_self) hf
      · exact absurd (hroot.symm.trans h) (by decide)
    rw [List.nil_append, hfull] at hshape ⊢
    generalize (ofStr f).directoryPath = dir, (ofStr f).fileName = name at hshape ⊢
    cases hshape with
    | empty => exact absurd rfl hne
    | name => exact ⟨rfl, rfl, rfl⟩
    | split => exact absurd (List.mem_append_right _ List.mem_cons_self) hf
    | root => exact absurd (List.mem_append_right _ List.mem_cons_self) hf
  · have hcons : e ++ ['/'] ++ f = e ++ '/' :: f := by simp
    rw [hcons] at hs hshape ⊢
    have hfull : (ofStr (e ++ '/' :: f)).fullPath = e ++ '/' :: f := fullPath_ofStr_name hs hf hne
    rw [hfull] at hshape ⊢
    generalize (ofStr (e ++ '/' :: f)).directoryPath = dir,
      (ofStr (e ++ '/' :: f)).fileName = name at hshape ⊢
    generalize hwhole : e ++ '/' :: f = full at hshape ⊢
    cases hshape with
    | empty => exact absurd hwhole (by simp)
    | name _ hname => exact absurd (hwhole ▸ by simp) hname
    | root r _ _ => exact absurd (eq_of_append_slash hwhole hf List.not_mem_nil).2 hne
    | split d f' hf' =>
      obtain ⟨rfl, rfl⟩ := eq_of_append_slash hwhole hf hf'
      exact ⟨rfl, rfl, rfl⟩

/-- Without an extension, the file name is the base name. -/
theorem baseName_of_extensionPos {s : Str} (h : extensionPos (ofStr s).fileName = none) :
    (ofStr s).baseName = (ofStr s).fileName ∧ (ofStr s).extension = [] := by
  have hwhole : (ofStr s).fileName = dot ∨ (ofStr s).fileName = dotdot ∨
      extensionPos (ofStr s).fileName = none := Or.inr (Or.inr h)
  exact ⟨if_pos hwhole, if_pos hwhole⟩

/-- The base name and the extension of a string make up its file name. -/
theorem baseName_cases (s : Str) :
    ((ofStr s).baseName = (ofStr s).fileName ∧ (ofStr s).extension = []) ∨
      ((ofStr s).baseName ≠ [] ∧ (ofStr s).extension ≠ [] ∧
        (ofStr s).baseName ++ (ofStr s).extension = (ofStr s).fileName) := by
  by_cases hwhole : (ofStr s).fileName = dot ∨ (ofStr s).fileName = dotdot ∨
      extensionPos (ofStr s).fileName = none
  · exact Or.inl ⟨if_pos hwhole, if_pos hwhole⟩
  · have hbase : (ofStr s).baseName
        = (ofStr s).fileName.take ((extensionPos (ofStr s).fileName).getD 0) := if_neg hwhole
    have hext : (ofStr s).extension
        = (ofStr s).fileName.drop ((extensionPos (ofStr s).fileName).getD 0) := if_neg hwhole
    obtain ⟨pos, hpos⟩ := Option.ne_none_iff_exists'.1 fun h => hwhole (Or.inr (Or.inr h))
    rw [hbase, hext, hpos, Option.getD_some]
    -- The extension starts behind the first character.
    obtain ⟨i, hi, rfl⟩ := Option.map_eq_some_iff.1 hpos
    have hlt : i < (ofStr s).fileName.tail.length := (List.findIdx?_eq_some_iff_getElem.1 hi).1
    rw [List.length_tail] at hlt
    refine Or.inr ⟨?_, ?_, List.take_append_drop _ _⟩
    · rw [← List.length_pos_iff, List.length_take]
      omega
    · rw [← List.length_pos_iff, List.length_drop]
      omega

end Path

end SysFs
