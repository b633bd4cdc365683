import Mathlib.Logic.Function.Iterate
import SysFs.Coherence

/-!
# Climbing to the top

A walk towards the root takes the directory of a path again and again.  `parent`
is one step of it: the string that `analyze` has joined from the components is
split anew by the `Path` that is made of it.

`directoryPath_eq` says what one step keeps: all components but the last one,
or, at the top of an absolute path, the root (`rootCount`).  What they are
joined to is split into the same components again (`partsOf_parent`), so the
number of components drops by one with every step (`partsOf_climb`), and
`climb_runs` puts together what that says about the walk.
-/

namespace SysFs

namespace Path

/-- The number of components, where one separator at the end makes no component
of its own. -/
def numComponents (p : Path) : ℕ := (partsOf p.mPath).length

/-- The path of the directory. -/
def parent (p : Path) : Path := ofStr p.directoryPath

/-- The path after some steps up. -/
def climb (p : Path) (k : ℕ) : Path := parent^[k] p

/-- The number of components that no step takes away: the root of an absolute
path. -/
def rootCount (p : Path) : ℕ := if p.isAbsolute then 1 else 0

variable {p : Path} {k : ℕ}

/-! ## One step -/

theorem Exact.directoryPath_eq_ofStr (h : p.Exact) :
    p.directoryPath = (ofStr p.mPath).directoryPath := congrArg Parts.directoryPath h.parts_eq

/-- A path is absolute when its first component is a root. -/
theorem Exact.isAbsolute_eq_head (h : p.Exact) :
    p.isAbsolute = (partsOf p.mPath).head?.any isRootPart := by
  have hsame : p.isAbsolute = (ofStr p.mPath).isAbsolute := congrArg Parts.isAbsolute h.parts_eq
  have hfresh : (ofStr p.mPath).isAbsolute
      = (partsOf (unify p.mPath)).head?.any isRootPart := rfl
  rw [hsame, hfresh, h.unified]

/-- The directory of a path is all its components but the last one, and for a
root alone the root, with a separator after each. -/
theorem Exact.directoryPath_eq (h : p.Exact) : p.directoryPath
    = ((partsOf p.mPath).take (max (p.numComponents - 1) p.rootCount)).flatMap (· ++ slash) := by
  have hparts : partsOf (ofStr p.mPath).mPath = partsOf p.mPath := by
    rw [ofStr_mPath, h.unified]
  have habs := h.isAbsolute_eq_head
  rw [h.directoryPath_eq_ofStr, rootCount, numComponents, habs]
  rcases List.eq_nil_or_concat' (partsOf p.mPath) with hnil | ⟨ws, f, hws⟩
  · rw [(analyze_of_nil (p := ofStr p.mPath) rfl (hparts.trans hnil)).1, hnil]
    rfl
  rcases eq_or_ne ws [] with rfl | hne
  · rw [hws]
    cases hroot : isRootPart f with
    | true =>
      rw [(analyze_of_root (p := ofStr p.mPath) rfl (hparts.trans hws) hroot).1]
      simp [hroot, slash]
    | false =>
      rw [(analyze_of_name (p := ofStr p.mPath) rfl (hparts.trans hws) hroot).1]
      simp [hroot]
  · have hpos : 1 ≤ ws.length := List.length_pos_iff.2 hne
    have hmax : ∀ b : Bool, max (ws.length + 1 - 1) (if b then 1 else 0) = ws.length := by
      intro b
      cases b with
      | true => exact Nat.max_eq_left hpos
      | false => exact Nat.max_eq_left (Nat.zero_le _)
    rw [(analyze_of_concat (p := ofStr p.mPath) rfl (hparts.trans hws) hne).1, hws,
      List.length_append, List.length_singleton, hmax, List.take_left, List.flatMap_def]

/-- What a step keeps is split as it was. -/
theorem Exact.partsOf_directoryPath (h : p.Exact) : partsOf p.directoryPath
    = (partsOf p.mPath).take (max (p.numComponents - 1) p.rootCount) := by
  rw [h.directoryPath_eq]
  apply Lines.getlines_flatMap
  intro part hpart
  exact Lines.notMem_of_mem_getlines (List.mem_of_mem_take hpart)

/-- A directory path is unified. -/
theorem Exact.unify_directoryPath (h : p.Exact) : unify p.directoryPath = p.directoryPath := by
  apply unify_of_notMem
  rw [h.directoryPath_eq, List.mem_flatMap]
  rintro ⟨part, hpart, hmem⟩
  have hpath : '\\' ∉ p.mPath := by
    rw [← h.unified]
    exact backslash_notMem_unify p.mPath
  rcases List.mem_append.1 hmem with hmem | hmem
  · exact hpath (Lines.mem_of_mem_getlines (List.mem_of_mem_take hpart) hmem)
  · exact absurd hmem (by decide)

theorem exact_parent (p : Path) : p.parent.Exact := Exact.setPath Path.empty p.directoryPath

/-- The string of the directory is the directory path. -/
theorem Exact.parent_mPath (h : p.Exact) : p.parent.mPath = p.directoryPath := by
  rw [parent, ofStr_mPath, h.unify_directoryPath]

theorem Exact.partsOf_parent (h : p.Exact) : partsOf p.parent.mPath
    = (partsOf p.mPath).take (max (p.numComponents - 1) p.rootCount) := by
  rw [h.parent_mPath, h.partsOf_directoryPath]

/-! ## All steps -/

/-- The root is one of the components. -/
theorem Exact.rootCount_le (h : p.Exact) : p.rootCount ≤ p.numComponents := by
  unfold rootCount numComponents
  rw [h.isAbsolute_eq_head]
  cases partsOf p.mPath with
  | nil => simp
  | cons part parts => split <;> simp

/-- The beginning of the components that holds the root, if there is one, makes
a path absolute exactly if all of them do. -/
theorem Exact.isAbsolute_of_take {q : Path} (h : p.Exact) (hq : q.Exact) {m : ℕ}
    (hm : p.rootCount ≤ m) (hparts : partsOf q.mPath = (partsOf p.mPath).take m) :
    q.isAbsolute = p.isAbsolute := by
  rw [hq.isAbsolute_eq_head, hparts]
  rw [rootCount] at hm
  cases habs : p.isAbsolute with
  | true =>
    rw [if_pos habs] at hm
    obtain ⟨m, rfl⟩ := Nat.exists_eq_add_of_le' hm
    rw [← habs, h.isAbsolute_eq_head]
    cases partsOf p.mPath <;> rfl
  | false =>
    have hhead := h.isAbsolute_eq_head
    rw [habs] at hhead
    cases m with
    | zero => rfl
    | succ m =>
      rw [hhead]
      cases partsOf p.mPath <;> rfl

theorem climb_succ (p : Path) (k : ℕ) : p.climb (k + 1) = (p.climb k).parent :=
  Function.iterate_succ_apply' parent k p

theorem Exact.climb (h : p.Exact) : ∀ k, (p.climb k).Exact
  | 0 => h
  | k + 1 => by
    rw [climb_succ]
    exact exact_parent _

/-- Every step takes one component away, but for the root. -/
theorem Exact.partsOf_climb (h : p.Exact) (k : ℕ) :
    partsOf (p.climb k).mPath = (partsOf p.mPath).take (max (p.numComponents - k) p.rootCount) ∧
      (p.climb k).isAbsolute = p.isAbsolute := by
  have hroot := h.rootCount_le
  induction k with
  | zero =>
    refine ⟨?_, rfl⟩
    rw [Nat.sub_zero, Nat.max_eq_left hroot]
    exact List.take_length.symm
  | succ k ih =>
    obtain ⟨hparts, habs⟩ := ih
    have hcount : (p.climb k).numComponents = max (p.numComponents - k) p.rootCount := by
      rw [numComponents, hparts, List.length_take]
      exact Nat.min_eq_left (Nat.max_le.2 ⟨Nat.sub_le _ _, hroot⟩)
    have hsame : (p.climb k).rootCount = p.rootCount := by rw [rootCount, rootCount, habs]
    have hnext : partsOf (p.climb (k + 1)).mPath
        = (partsOf p.mPath).take (max (p.numComponents - (k + 1)) p.rootCount) := by
      rw [climb_succ, (h.climb k).partsOf_parent, hparts, List.take_take, hcount, hsame]
      congr 1
      omega
    exact ⟨hnext, h.isAbsolute_of_take (h.climb (k + 1)) (Nat.le_max_right _ _) hnext⟩

/-- After a step, the string is the components that are left, each with its
separator. -/
theorem Exact.climb_succ_mPath (h : p.Exact) (k : ℕ) : (p.climb (k + 1)).mPath
    = ((partsOf p.mPath).take (max (p.numComponents - (k + 1)) p.rootCount)).flatMap
        (· ++ slash) := by
  have hk := h.climb k
  rw [← (h.partsOf_climb (k + 1)).1, climb_succ, hk.parent_mPath, hk.partsOf_directoryPath,
    hk.directoryPath_eq]

/-- The directory begins the full path. -/
theorem Exact.climb_prefix (h : p.Exact) (k : ℕ) :
    (p.climb (k + 1)).mPath <+: (p.climb k).fullPath := by
  have hk := h.climb k
  have hfull : (p.climb k).fullPath = (ofStr (p.climb k).mPath).fullPath :=
    congrArg Parts.fullPath hk.parts_eq
  rw [climb_succ, hk.parent_mPath, hk.directoryPath_eq_ofStr, hfull]
  exact (shape (p.climb k).mPath).prefix_full

/-! ## The top -/

/-- When the components are used up, the string is the root, if there is one, and
a step stays there. -/
theorem Exact.climb_top (h : p.Exact) (hk : p.numComponents ≤ k) :
    (p.climb k).mPath = ((partsOf p.mPath).take p.rootCount).flatMap (· ++ slash) ∧
      (p.climb k).directoryPath = (p.climb k).mPath := by
  have hmax : ∀ j, k ≤ j → max (p.numComponents - j) p.rootCount = p.rootCount := by
    intro j hj
    rw [Nat.sub_eq_zero_of_le (Nat.le_trans hk hj)]
    exact Nat.max_eq_right (Nat.zero_le _)
  have hnext : (p.climb k).directoryPath
      = ((partsOf p.mPath).take p.rootCount).flatMap (· ++ slash) := by
    rw [← (h.climb k).parent_mPath, ← climb_succ, h.climb_succ_mPath,
      hmax (k + 1) (Nat.le_succ k)]
  have hhere : (p.climb k).mPath
      = ((partsOf p.mPath).take p.rootCount).flatMap (· ++ slash) := by
    cases k with
    | zero =>
      have hnil : partsOf p.mPath = [] := List.length_eq_zero_iff.1 (Nat.le_zero.1 hk)
      rw [hnil, List.take_nil]
      exact Lines.getlines_eq_nil.1 hnil
    | succ k => rw [h.climb_succ_mPath, hmax (k + 1) (Nat.le_refl _)]
  exact ⟨hhere, hnext.trans hhere.symm⟩

/-- The root of a path: nothing, or `/`, or a drive with a separator. -/
theorem Exact.top_cases (h : p.Exact) :
    (p.isAbsolute = false ∧ ((partsOf p.mPath).take p.rootCount).flatMap (· ++ slash) = []) ∨
      (p.isAbsolute = true ∧
        (((partsOf p.mPath).take p.rootCount).flatMap (· ++ slash) = slash ∨
          ∃ c, ((partsOf p.mPath).take p.rootCount).flatMap (· ++ slash) = [c, ':', '/'])) := by
  rw [rootCount, h.isAbsolute_eq_head]
  cases partsOf p.mPath with
  | nil => exact Or.inl ⟨rfl, rfl⟩
  | cons r parts =>
    cases hroot : isRootPart r with
    | false =>
      refine Or.inl ⟨hroot, ?_⟩
      simp [hroot]
    | true =>
      refine Or.inr ⟨hroot, ?_⟩
      rcases isRootPart_cases hroot with rfl | ⟨c, rfl⟩
      · exact Or.inl rfl
      · refine Or.inr ⟨c, ?_⟩
        simp [hroot, slash]

end Path

namespace Store

open SysFs.Path

variable {ι : Type*} [DecidableEq ι]

/-- After any program, the walk up from an object that is not moved-from loses
one component with every step, but for the root of an absolute path.  It stays
among the ancestors of the path, it stays absolute or relative, and when the
components are used up, it stays at the empty path or at the root. -/
theorem climb_runs (ops : List (PathOp ι)) (i : ι) (p : Path)
    (h : Run.runs step (start ι) ops i = some ⟨p, false⟩) (k : ℕ) :
    (p.climb k).numComponents = max (p.numComponents - k) (if p.isAbsolute then 1 else 0) ∧
      (p.climb k).isAbsolute = p.isAbsolute ∧
      partsOf (p.climb k).mPath <+: partsOf p.mPath ∧
      (p.climb (k + 1)).mPath <+: (p.climb k).fullPath ∧
      (p.numComponents ≤ k →
        (p.climb k).directoryPath = (p.climb k).mPath ∧
          if p.isAbsolute then
            (p.climb k).mPath = slash ∨ ∃ c, (p.climb k).mPath = [c, ':', '/']
          else (p.climb k).mPath = []) := by
  have hexact : p.Exact :=
    Run.inv_of_step (I := Exact) (fun st o hst => hst.step o) exact_start ops i p h
  obtain ⟨hparts, habs⟩ := hexact.partsOf_climb k
  refine ⟨?_, habs, ?_, hexact.climb_prefix k, fun hk => ?_⟩
  · rw [numComponents, hparts, List.length_take]
    exact Nat.min_eq_left (Nat.max_le.2 ⟨Nat.sub_le _ _, hexact.rootCount_le⟩)
  · rw [hparts]
    exact List.take_prefix _ _
  · obtain ⟨hhere, hstay⟩ := hexact.climb_top hk
    refine ⟨hstay, ?_⟩
    rw [hhere]
    rcases hexact.top_cases with ⟨hrel, hnil⟩ | ⟨hroot, htop⟩
    · rw [if_neg (by simp [hrel])]
      exact hnil
    · rw [if_pos hroot]
      exact htop

/-- A doubled separator below a drive: three steps lead to the drive. -/
theorem climb_runs_drive :
    ((ofStr "C:\\a//b".toList).climb 4).numComponents
        = max ((ofStr "C:\\a//b".toList).numComponents - 4)
          (if (ofStr "C:\\a//b".toList).isAbsolute then 1 else 0) ∧
      ((ofStr "C:\\a//b".toList).climb 4).directoryPath
        = ((ofStr "C:\\a//b".toList).climb 4).mPath := by
  obtain ⟨hcount, -, -, -, htop⟩ := climb_runs [.constructFrom 0 (.text "C:\\a//b".toList)] 0
    (ofStr "C:\\a//b".toList) rfl 4
  exact ⟨hcount, (htop (by decide)).1⟩

end Store

end SysFs
