import SysFs.Create
import SysFs.Separators

/-!
# Putting a path together again

The directory path and the file name of a path make up its full path, and the
base name and the extension make up the file name.  A bare root is the one
exception that `analyze` makes: it is its own directory and its own file name,
and the full path has it once (`analyze_of_isRoot`).

`create` puts a number of `#` between the base name and the extension.  What it
builds is a `Sibling` of the path: another name in the same directory.
-/

namespace SysFs

namespace Path

/-- The text that `create` builds when it puts `suffix` before the extension. -/
def withSuffix (p : Path) (suffix : Str) : Str :=
  p.directoryPath ++ p.baseName ++ suffix ++ p.extension

example (p : Path) : p.nextPath = p.withSuffix ['#'] := rfl

/-- Another name in the directory of `p`. -/
structure Sibling (p q : Path) : Prop where
  directoryPath : q.directoryPath = p.directoryPath
  fullPath : q.fullPath = q.directoryPath ++ q.fileName
  notMem : '/' ∉ q.fileName
  fileName : q.fileName ≠ p.fileName

/-- The parts of a path make it up, and a suffix in its name gives a sibling. -/
structure Recomposes (p : Path) : Prop where
  fullPath : p.fullPath = p.directoryPath ++ p.fileName
  fileName : p.fileName = p.baseName ++ p.extension
  notMem : '/' ∉ p.fileName
  sibling : ∀ k, p.Sibling (ofStr (p.withSuffix (List.replicate (k + 1) '#')))

/-! ## Roots -/

/-- A root is a single component that makes the path absolute. -/
theorem isRoot_iff {s : Str} : IsRoot s ↔ ∃ r, partsOf s = [r] ∧ isRootPart r = true := by
  constructor
  · rintro (rfl | ⟨c, hc, rfl | rfl⟩)
    · exact ⟨[], rfl, rfl⟩
    · refine ⟨[c, ':'], Lines.getlines_of_notMem ?_ (by simp), by simp [isRootPart]⟩
      simp [hc.symm]
    · have hsep : '/' ∉ [c, ':'] := by simp [hc.symm]
      exact ⟨[c, ':'], Lines.getlines_append_cons hsep [], by simp [isRootPart]⟩
  · rintro ⟨r, hparts, hroot⟩
    have hsep : '/' ∉ r := Lines.notMem_of_mem_getlines (s := s) (by
      rw [show Lines.getlines '/' s = [r] from hparts]
      exact List.mem_singleton_self r)
    have hs := Lines.intercalate_getlines '/' s
    rw [show Lines.getlines '/' s = [r] from hparts, List.intercalate_singleton] at hs
    rcases isRootPart_cases hroot with rfl | ⟨c, rfl⟩
    · rcases hs with rfl | hs
      · cases hparts
      · exact Or.inl hs
    · refine Or.inr ⟨c, ?_, hs⟩
      rintro rfl
      exact hsep List.mem_cons_self

/-- A root alone is its directory, its file name and its full path. -/
theorem analyze_of_isRoot {s : Str} (h : IsRoot (unify s)) :
    ∃ r, isRootPart r = true ∧ (ofStr s).directoryPath = r ++ slash ∧
      (ofStr s).fileName = r ++ slash ∧ (ofStr s).fullPath = r ++ slash := by
  obtain ⟨r, hparts, hroot⟩ := isRoot_iff.1 h
  obtain ⟨hdir, hfile, hfull, -⟩ := analyze_of_root (p := ofStr s) rfl hparts hroot
  exact ⟨r, hroot, hdir, hfile, hfull⟩

/-! ## Names -/

/-- Unless the path is a root, its directory and its file name make it up. -/
theorem fullPath_eq_append {s : Str} (h : ¬ IsRoot (unify s)) :
    (ofStr s).fullPath = (ofStr s).directoryPath ++ (ofStr s).fileName ∧
      '/' ∉ (ofStr s).fileName ∧
      ((ofStr s).directoryPath = [] ∨ ∃ d, (ofStr s).directoryPath = d ++ ['/']) := by
  have hsep : ∀ part ∈ partsOf (unify s), '/' ∉ part :=
    fun part hm => Lines.notMem_of_mem_getlines hm
  rcases List.eq_nil_or_concat' (partsOf (unify s)) with hnil | ⟨ws, f, hws⟩
  · obtain ⟨hdir, hfile, hfull, -⟩ := analyze_of_nil (p := ofStr s) rfl hnil
    rw [hdir, hfile, hfull]
    exact ⟨rfl, List.not_mem_nil, Or.inl rfl⟩
  have hf : '/' ∉ f := hsep f (by simp [hws])
  rcases eq_or_ne ws [] with rfl | hne
  · have hroot : isRootPart f = false := by
      rw [Bool.eq_false_iff]
      intro hroot
      exact h (isRoot_iff.2 ⟨f, hws, hroot⟩)
    obtain ⟨hdir, hfile, hfull, -⟩ := analyze_of_name (p := ofStr s) rfl hws hroot
    rw [hdir, hfile, hfull]
    exact ⟨rfl, hf, Or.inl rfl⟩
  · obtain ⟨hdir, hfile, hfull, -⟩ := analyze_of_concat (p := ofStr s) rfl hws hne
    rw [hdir, hfile, hfull]
    exact ⟨rfl, hf, Or.inr (flatten_map_slash hne)⟩

/-- The base name and the extension make up the file name, of a root too. -/
theorem fileName_eq_append (s : Str) :
    (ofStr s).fileName = (ofStr s).baseName ++ (ofStr s).extension := by
  rcases baseName_cases s with ⟨hbase, hext⟩ | ⟨-, -, h⟩
  · rw [hbase, hext, List.append_nil]
  · exact h.symm

/-- With a row of `#` before its extension, a name is no root. -/
theorem isRootPart_withSuffix (s : Str) (k : ℕ) :
    isRootPart ((ofStr s).baseName ++ List.replicate (k + 1) '#' ++ (ofStr s).extension)
      = false := by
  cases k with
  | zero =>
    have hnext := isRootPart_next s
    rwa [List.append_cons] at hnext
  | succ k =>
    rcases eq_or_ne (ofStr s).baseName [] with hbase | hbase
    · rw [hbase]
      simp [isRootPart, List.replicate_succ]
    · have hlen := List.length_pos_iff.2 hbase
      unfold isRootPart
      rw [Bool.or_eq_false_iff, Bool.and_eq_false_iff]
      refine ⟨by simp [List.replicate_succ], Or.inl ?_⟩
      rw [beq_eq_false_iff_ne]
      simp only [List.length_append, List.length_replicate]
      omega

/-- Unless the path is a root, a row of `#` before the extension gives a
sibling. -/
theorem sibling_withSuffix {s : Str} (h : ¬ IsRoot (unify s)) (k : ℕ) :
    (ofStr s).Sibling (ofStr ((ofStr s).withSuffix (List.replicate (k + 1) '#'))) := by
  obtain ⟨hfull, hsep, hdir⟩ := fullPath_eq_append h
  have hname := fileName_eq_append s
  have hback := (Coherent.of_setPath Path.empty s).backslash_notMem_fullPath
  change '\\' ∉ (ofStr s).fullPath at hback
  rw [hfull, hname] at hback
  rw [hname] at hsep
  have htext : (ofStr s).withSuffix (List.replicate (k + 1) '#') = (ofStr s).directoryPath ++
      ((ofStr s).baseName ++ List.replicate (k + 1) '#' ++ (ofStr s).extension) := by
    unfold withSuffix
    simp only [List.append_assoc]
  have hunify : unify ((ofStr s).directoryPath ++
      ((ofStr s).baseName ++ List.replicate (k + 1) '#' ++ (ofStr s).extension))
        = (ofStr s).directoryPath ++
      ((ofStr s).baseName ++ List.replicate (k + 1) '#' ++ (ofStr s).extension) := by
    apply unify_of_notMem
    simp only [List.mem_append, List.mem_replicate, not_or] at hback ⊢
    exact ⟨hback.1, ⟨hback.2.1, by simp⟩, hback.2.2⟩
  have hsep' : '/' ∉ (ofStr s).baseName ++ List.replicate (k + 1) '#' ++ (ofStr s).extension := by
    simp only [List.mem_append, List.mem_replicate, not_or] at hsep ⊢
    exact ⟨⟨hsep.1, by simp⟩, hsep.2⟩
  obtain ⟨hdir', hfile', hfull'⟩ := parts_ofStr_name hdir hunify hsep' (by simp [List.replicate_succ])
    (isRootPart_withSuffix s k)
  rw [htext]
  refine ⟨hdir', by rw [hfull', hdir', hfile'], by rwa [hfile'], ?_⟩
  rw [hfile', hname]
  intro heq
  have hlen := congrArg List.length heq
  simp only [List.length_append, List.length_replicate] at hlen
  omega

/-- Every path but a root is put together again from its parts, and a root is
each of them. -/
theorem recomposes (s : Str) :
    (¬ IsRoot (unify s) → (ofStr s).Recomposes) ∧
      (IsRoot (unify s) → ∃ r, isRootPart r = true ∧ (ofStr s).directoryPath = r ++ slash ∧
        (ofStr s).fileName = r ++ slash ∧ (ofStr s).fullPath = r ++ slash ∧
        (ofStr s).fileName = (ofStr s).baseName ++ (ofStr s).extension) := by
  constructor
  · intro h
    obtain ⟨hfull, hsep, -⟩ := fullPath_eq_append h
    exact ⟨hfull, fileName_eq_append s, hsep, sibling_withSuffix h⟩
  · intro h
    obtain ⟨r, hroot, hdir, hfile, hfull⟩ := analyze_of_isRoot h
    exact ⟨r, hroot, hdir, hfile, hfull, fileName_eq_append s⟩

/-- The root is not its directory followed by its file name. -/
theorem not_recomposes_slash : ¬ ∀ s : Str, (ofStr s).Recomposes := by
  intro h
  exact absurd (h slash).fullPath (by decide)

end Path

end SysFs
