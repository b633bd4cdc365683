import SysFs.Coherence

/-!
# Separators at the end of a path

What the separators at the end of a string change.  `pointsToContent` is the
mark that `setPath` leaves: it is meant to say whether the string ends with a
separator, and does so for every string but the empty one, which `setPath`
marks and the default constructor does not.  `Store.Marked` is the invariant of
a program whose paths are never set to the empty string.

The parts of a path do not depend on one separator at the end, because the
`std::getline` loop reads no component after it.  A second one ends an empty
component, which is then the file name (`sameParts_append_separators`).
-/

namespace SysFs

namespace Path

/-! ## The mark -/

/-- The mark says whether the string ends with a separator. -/
def Marked (p : Path) : Prop := p.pointsToContent = true ↔ p.unifiedPath.getLast? = some '/'

theorem unify_eq_nil {s : Str} : unify s = [] ↔ s = [] := by
  rw [unify, List.map_eq_nil_iff]

namespace Marked

variable {p : Path}

theorem empty (garbage : Bool) : ({ Path.empty with mAbsolute := garbage } : Path).Marked := by
  show false = true ↔ ([] : Str).getLast? = some '/'
  simp

/-- `setPath` marks exactly the strings that end with a separator, and the empty
one. -/
theorem setPath (p : Path) {s : Str} (hs : s ≠ []) : (p.setPath s).Marked := by
  show endsWithSeparator (unify s) = true ↔ (unify s).getLast? = some '/'
  have hne : (unify s).isEmpty = false := by
    rw [List.isEmpty_eq_false_iff]
    exact mt unify_eq_nil.1 hs
  rw [endsWithSeparator, hne, Bool.false_or, decide_eq_true_iff]

theorem analyze (h : p.Marked) : p.analyze.Marked := by
  have hmark : p.analyze.mPointsToContent = p.mPointsToContent := by
    unfold Path.analyze
    split <;> rfl
  show p.analyze.mPointsToContent = true ↔ p.analyze.mPath.getLast? = some '/'
  rw [hmark, analyze_mPath]
  exact h

theorem assign (h : p.Marked) (target : Path) : (target.assign p).Marked := h

theorem component (h : p.Marked) (c : Component) : (p.component c).2.Marked := by
  cases c with
  | unifiedPath => exact h
  | fullPath | fileName | baseName | extension | directoryPath | driveLetter => exact h.analyze

/-- Two marked paths with the same string have the same mark. -/
theorem pointsToContent_eq {q : Path} (h : p.Marked) (hq : q.Marked)
    (hpath : p.unifiedPath = q.unifiedPath) : p.pointsToContent = q.pointsToContent := by
  rw [Bool.eq_iff_iff]
  exact h.trans (by rw [hpath]; exact hq.symm)

end Marked

end Path

/-! ## The marks of a program -/

/-- What the operation leaves in the source of a move is marked. -/
def PathOp.LeavesMarked {ι : Type*} : PathOp ι → Prop
  | .moveConstruct _ _ left | .moveAssign _ _ left => left.Marked
  | _ => True

namespace Store

variable {ι : Type*} [DecidableEq ι]

/-- The string that the operation sets is not empty. -/
def Fills (st : Store ι) : PathOp ι → Prop
  | .constructFrom _ path | .setPath _ path => (st.eval path).1 ≠ []
  | .setPathMove _ path => path ≠ []
  | _ => True

instance (st : Store ι) : DecidablePred st.Fills
  | .constructFrom _ path | .setPath _ path => inferInstanceAs (Decidable ((st.eval path).1 ≠ []))
  | .setPathMove _ path => inferInstanceAs (Decidable (path ≠ []))
  | .construct _ _ | .copyConstruct _ _ | .moveConstruct _ _ _ | .copyAssign _ _
  | .moveAssign _ _ _ | .access _ => isTrue trivial

/-- Every object is marked; a moved-from one is if `L` holds. -/
def Marked (L : Prop) (st : Store ι) : Prop :=
  ∀ i slot, st i = some slot → (slot.moved = true → L) → slot.obj.Marked

namespace Marked

variable {L : Prop} {st : Store ι}

theorem put (h : st.Marked L) {p : Path} {moved : Bool}
    (hp : (moved = true → L) → p.Marked) (i : ι) : (st.put i p moved).Marked L := by
  intro j slot hj hmoved
  unfold Store.put at hj
  by_cases hij : j = i
  · rw [hij, Function.update_self, Option.some.injEq] at hj
    rw [← hj] at hmoved ⊢
    exact hp hmoved
  · rw [Function.update_of_ne hij] at hj
    exact h j slot hj hmoved

theorem eval (h : st.Marked L) (path : Arg ι) : (st.eval path).2.Marked L := by
  cases path with
  | text s => exact h
  | component j c =>
    simp only [Store.eval]
    cases hj : st j with
    | none => exact h
    | some src => exact h.put (fun hmoved => (h j src hj hmoved).component c) j

/-- An operation that sets no empty string keeps the objects marked. -/
theorem step (h : st.Marked L) {o : PathOp ι} (hfills : st.Fills o) (hleft : L → o.LeavesMarked) :
    (st.step o).Marked L := by
  cases o with
  | construct i garbage => exact h.put (fun _ => Path.Marked.empty garbage) i
  | constructFrom i path => exact (h.eval path).put (fun _ => Path.Marked.setPath _ hfills) i
  | copyConstruct i j =>
    simp only [Store.step]
    cases hj : st j with
    | none => exact h
    | some src => exact h.put (h j src hj) i
  | moveConstruct i j left =>
    simp only [Store.step]
    cases hj : st j with
    | none => exact h
    | some src => exact (h.put (h j src hj) i).put (fun hmoved => hleft (hmoved rfl)) j
  | copyAssign i j =>
    simp only [Store.step]
    cases hi : st i with
    | none => exact h
    | some dst =>
      cases hj : st j with
      | none => exact h
      | some src => exact h.put (fun hmoved => (h j src hj hmoved).assign dst.obj) i
  | moveAssign i j left =>
    simp only [Store.step]
    cases hi : st i with
    | none => exact h
    | some dst =>
      cases hj : st j with
      | none => exact h
      | some src =>
        have hdst := h.put (fun hmoved => (h j src hj hmoved).assign dst.obj) i
        exact hdst.put (fun hmoved => hleft (hmoved rfl)) j
  | setPath i path =>
    simp only [Store.step]
    cases hi : (st.eval path).2 i with
    | none => exact h
    | some dst => exact (h.eval path).put (fun _ => Path.Marked.setPath _ hfills) i
  | setPathMove i path =>
    simp only [Store.step]
    cases hi : st i with
    | none => exact h
    | some dst => exact h.put (fun _ => Path.Marked.setPath _ hfills) i
  | access i =>
    simp only [Store.step]
    cases hi : st i with
    | none => exact h
    | some slot => exact h.put (fun hmoved => (h i slot hi hmoved).analyze) i

end Marked

omit [DecidableEq ι] in
theorem marked_start (L : Prop) : (start ι).Marked L := by
  intro i slot hi
  cases hi

/-- In a program that sets no empty string, a path points to content exactly
when its string ends with a separator, and two paths with one string agree.  Of
the source of a move this is only said where the move leaves it so. -/
theorem pointsToContent_iff (ops : List (PathOp ι)) (h : Run.Along step Fills (start ι) ops) :
    (∀ i slot, Run.runs step (start ι) ops i = some slot →
      (slot.moved = true → ∀ o ∈ ops, o.LeavesMarked) →
      (slot.obj.pointsToContent = true ↔ slot.obj.unifiedPath.getLast? = some '/')) ∧
    ∀ i j slot slot', Run.runs step (start ι) ops i = some slot →
      Run.runs step (start ι) ops j = some slot' →
      (slot.moved = true ∨ slot'.moved = true → ∀ o ∈ ops, o.LeavesMarked) →
      slot.obj.unifiedPath = slot'.obj.unifiedPath →
      slot.obj.pointsToContent = slot'.obj.pointsToContent := by
  have hall : Run.Along step (fun st o => Fills st o ∧ ((∀ o ∈ ops, o.LeavesMarked) →
      o.LeavesMarked)) (start ι) ops :=
    Run.along_and h (Run.along_of_mem fun o ho _ hleft => hleft o ho)
  have hmarked : Marked (∀ o ∈ ops, o.LeavesMarked) (Run.runs step (start ι) ops) :=
    Run.inv_of_along (fun st o hst ho => hst.step ho.1 ho.2) (marked_start _) hall
  refine ⟨hmarked, ?_⟩
  intro i j slot slot' hi hj hmoved hpath
  have hslot := hmarked i slot hi fun hm => hmoved (Or.inl hm)
  have hslot' := hmarked j slot' hj fun hm => hmoved (Or.inr hm)
  exact hslot.pointsToContent_eq hslot' hpath

/-- A path that ends with a separator, analyzed and copied. -/
theorem pointsToContent_iff_copy :
    (Path.empty.assign (Path.ofStr "a/b/".toList).analyze).pointsToContent = true ↔
      (Path.empty.assign (Path.ofStr "a/b/".toList).analyze).unifiedPath.getLast? = some '/' :=
  (pointsToContent_iff
    [.constructFrom 0 (.text "a/b/".toList), .construct 1 false, .access 0, .copyAssign 1 0,
      .setPath 0 (.component 1 .fileName)]
    ⟨by decide, trivial, trivial, trivial, by decide, trivial⟩).1 1 ⟨_, false⟩ rfl
      (fun hmoved => Bool.noConfusion hmoved)

/-- A path that is set to the empty string is marked, and a default-constructed
one is not. -/
theorem not_pointsToContent_iff :
    ¬ ∀ (ops : List (PathOp ℕ)) (i : ℕ) (p : Path),
      Run.runs step (start ℕ) ops i = some ⟨p, false⟩ →
      (p.pointsToContent = true ↔ p.unifiedPath.getLast? = some '/') := by
  intro h
  have hempty := h [.constructFrom 0 (.text [])] 0 (Path.ofStr []) rfl
  exact absurd (hempty.1 rfl) (by decide)

end Store

namespace Path

/-! ## The parts -/

/-- A separator, before the path is unified. -/
def IsSeparator (c : Char) : Prop := c = '/' ∨ c = '\\'

/-- A root: `/`, or a drive with or without a separator. -/
def IsRoot (s : Str) : Prop := s = slash ∨ ∃ c, c ≠ '/' ∧ (s = [c, ':'] ∨ s = [c, ':', '/'])

/-- The two paths have the same parts. -/
structure SameParts (p q : Path) : Prop where
  fullPath : p.fullPath = q.fullPath
  fileName : p.fileName = q.fileName
  baseName : p.baseName = q.baseName
  extension : p.extension = q.extension
  directoryPath : p.directoryPath = q.directoryPath
  isAbsolute : p.isAbsolute = q.isAbsolute

/-- The parts depend on the components alone. -/
theorem sameParts_of_partsOf {p q : Path} (hp : p.mDetails = false) (hq : q.mDetails = false)
    (h : partsOf p.mPath = partsOf q.mPath) : SameParts p q := by
  have hparts : p.fullPath = q.fullPath ∧ p.fileName = q.fileName ∧ p.baseName = q.baseName ∧
      p.extension = q.extension ∧ p.directoryPath = q.directoryPath ∧
      p.isAbsolute = q.isAbsolute := by
    unfold fullPath fileName baseName extension directoryPath isAbsolute analyze
    rw [if_neg (by simp [hp]), if_neg (by simp [hq])]
    simp only [h, and_self]
  exact ⟨hparts.1, hparts.2.1, hparts.2.2.1, hparts.2.2.2.1, hparts.2.2.2.2.1, hparts.2.2.2.2.2⟩

/-- Unified, separators are all the same. -/
theorem unify_separators {seps : Str} (h : ∀ c ∈ seps, IsSeparator c) :
    unify seps = List.replicate seps.length '/' := by
  induction seps with
  | nil => rfl
  | cons c seps ih =>
    rw [List.forall_mem_cons] at h
    have hc : (if c = '\\' then '/' else c) = '/' := by
      rcases h.1 with rfl | rfl <;> decide
    rw [List.length_cons, List.replicate_succ, ← ih h.2, unify, List.map_cons, hc]
    rfl

/-- A string that does not end with a separator does not when it is unified. -/
theorem getLast?_unify_ne {s : Str} (h : ∀ c, s.getLast? = some c → ¬ IsSeparator c) :
    (unify s).getLast? ≠ some '/' := by
  rw [unify, List.getLast?_map]
  cases hc : s.getLast? with
  | none => simp
  | some c =>
    have hsep := not_or.1 (h c hc)
    simpa [hsep.2] using hsep.1

/-- A path that does not end with a separator has a file name. -/
theorem fileName_ne_nil {s : Str} (hne : unify s ≠ []) (hlast : (unify s).getLast? ≠ some '/') :
    (ofStr s).fileName ≠ [] := by
  have hparts : partsOf (unify s) ≠ [] := mt Lines.getlines_eq_nil.1 hne
  have hname : (partsOf (unify s)).getLast? ≠ some [] := Lines.getLast?_getlines_ne hlast
  obtain ⟨ws, f, hws⟩ := (List.eq_nil_or_concat' _).resolve_left hparts
  rw [hws, List.getLast?_concat] at hname
  have hf : f ≠ [] := fun h => hname (congrArg some h)
  rcases eq_or_ne ws [] with rfl | hws'
  · cases hroot : isRootPart f with
    | true =>
      rw [(analyze_of_root rfl hws hroot).2.1]
      simp
    | false =>
      rw [(analyze_of_name rfl hws hroot).2.1]
      exact hf
  · rw [(analyze_of_concat rfl hws hws').2.1]
    exact hf

/-- Two separators at the end leave no file name. -/
theorem fileName_of_two_separators {s t : Str} {k : ℕ}
    (h : unify t = unify s ++ List.replicate (k + 2) '/') : (ofStr t).fileName = [] := by
  have hparts : partsOf (unify t)
      = ((unify s).splitOn '/' ++ List.replicate k []) ++ [[]] := by
    rw [h, List.replicate_succ, partsOf, Lines.getlines_append_cons_eq, Lines.getlines_replicate,
      List.replicate_succ', List.append_assoc]
  have hne : (unify s).splitOn '/' ++ List.replicate k [] ≠ [] :=
    List.append_ne_nil_of_left_ne_nil (List.splitOn_ne_nil _ _) _
  exact (analyze_of_concat rfl hparts hne).2.1

/-- A full path ends with a separator only if the string does, or it is a
root. -/
theorem isRoot_of_getLast?_fullPath {s : Str} (hlast : (unify s).getLast? ≠ some '/')
    (hne : unify s ≠ []) (h : (ofStr s).fullPath.getLast? = some '/') :
    IsRoot (ofStr s).fullPath := by
  have hcases := fullPath_ofStr_cases (unify_unify s)
  rw [ofStr_unify] at hcases
  rcases hcases with hfull | hfull | ⟨hfull, hsep, hroot⟩
  · exact absurd (hfull ▸ h) hlast
  · exact absurd (by rw [hfull, List.getLast?_concat]) hlast
  · obtain ⟨c, hc⟩ := (isRootPart_cases hroot).resolve_left hne
    rw [hc] at hfull hsep
    rw [hfull]
    refine Or.inr ⟨c, ?_, Or.inr rfl⟩
    rintro rfl
    exact hsep List.mem_cons_self

/-- Separators after a path that does not end with one do not change its parts
exactly if there is at most one of them. -/
theorem sameParts_append_separators (p seps : Str) (hne : p ≠ [])
    (hlast : ∀ c, p.getLast? = some c → ¬ IsSeparator c) (hseps : ∀ c ∈ seps, IsSeparator c) :
    (SameParts (ofStr (p ++ seps)) (ofStr p) ∧
      ((ofStr (p ++ seps)).fullPath.getLast? = some '/' → IsRoot (ofStr (p ++ seps)).fullPath)) ↔
      seps.length ≤ 1 := by
  have hunify : unify (p ++ seps) = unify p ++ List.replicate seps.length '/' := by
    rw [← unify_separators hseps, unify, List.map_append]
    rfl
  have hpne : unify p ≠ [] := mt unify_eq_nil.1 hne
  have hplast := getLast?_unify_ne hlast
  constructor
  · rintro ⟨hsame, -⟩
    by_contra hlen
    obtain ⟨k, hk⟩ := Nat.exists_eq_add_of_lt (Nat.lt_of_not_le hlen)
    have hk' : seps.length = k + 2 := by omega
    rw [hk'] at hunify
    have hfile := hsame.fileName
    rw [fileName_of_two_separators hunify] at hfile
    exact fileName_ne_nil hpne hplast hfile.symm
  · intro hlen
    have hparts : partsOf (unify (p ++ seps)) = partsOf (unify p) := by
      rcases Nat.le_one_iff_eq_zero_or_eq_one.1 hlen with hzero | hone
      · rw [hunify, hzero, List.replicate_zero, List.append_nil]
      · rw [hunify, hone, List.replicate_one]
        exact Lines.getlines_concat_self hpne hplast
    have hsame : SameParts (ofStr (p ++ seps)) (ofStr p) := sameParts_of_partsOf rfl rfl hparts
    refine ⟨hsame, ?_⟩
    rw [hsame.fullPath]
    exact isRoot_of_getLast?_fullPath hplast hpne

/-- One backslash after a path. -/
theorem sameParts_append_separators_one :
    (SameParts (ofStr ("a/b.c".toList ++ ['\\'])) (ofStr "a/b.c".toList) ∧
      ((ofStr ("a/b.c".toList ++ ['\\'])).fullPath.getLast? = some '/' →
        IsRoot (ofStr ("a/b.c".toList ++ ['\\'])).fullPath)) ↔ ['\\'].length ≤ 1 :=
  sameParts_append_separators _ _ (by decide)
    (by
      intro c hc
      obtain rfl : 'c' = c := by simpa using hc
      exact not_or.2 ⟨by decide, by decide⟩)
    (fun c hc => Or.inr (List.mem_singleton.1 hc))

/-- With two separators after it, the path `a` has no file name. -/
theorem not_sameParts_append_separators :
    ¬ ∀ p seps : Str, p ≠ [] → (∀ c, p.getLast? = some c → ¬ IsSeparator c) →
      (∀ c ∈ seps, IsSeparator c) → SameParts (ofStr (p ++ seps)) (ofStr p) := by
  intro h
  have hsame := h ['a'] ['/', '/'] (by decide)
    (by
      intro c hc
      obtain rfl : 'a' = c := by simpa using hc
      exact not_or.2 ⟨by decide, by decide⟩)
    (fun c hc => Or.inl (by simpa using hc))
  exact absurd hsame.fileName (by decide)

end Path

end SysFs
