import Mathlib.Data.List.Basic

/-!
# Cutting a list into lines

Two ways to cut a list at a separator.  `List.splitOn` gives the fields
between the separators, so a separator at the end is followed by an empty
field.  `getlines` is what repeated `std::getline` calls give: a separator
ends a line, so nothing follows a separator at the end, and the empty list
has no line at all.

`splitOn_eq_getlines` relates the two, and `getlines_joined` reads a list back
that was joined with the separator.  `fields` is the field split of a text that
may be empty, and then has no field.
-/

namespace Lines

variable {α : Type*} [DecidableEq α]

/-- The lines that repeated `std::getline` calls with the delimiter `d` read
from `s`. -/
def getlines (d : α) : List α → List (List α)
  | [] => []
  | c :: s =>
    if c = d then [] :: getlines d s
    else
      match getlines d s with
      | [] => [[c]]
      | l :: ls => (c :: l) :: ls

@[simp] theorem getlines_nil (d : α) : getlines d [] = [] := rfl

@[simp] theorem getlines_cons_self (d : α) (s : List α) :
    getlines d (d :: s) = [] :: getlines d s := by
  simp [getlines]

/-- A list has no line exactly when it is empty. -/
@[simp] theorem getlines_eq_nil {d : α} {s : List α} :
    getlines d s = [] ↔ s = [] := by
  cases s with
  | nil => simp
  | cons c s =>
    simp only [getlines]
    split
    · simp
    · split <;> simp

/-- No line holds the separator. -/
theorem notMem_of_mem_getlines {d : α} {s l : List α}
    (h : l ∈ getlines d s) : d ∉ l := by
  induction s generalizing l with
  | nil => simp at h
  | cons c s ih =>
    simp only [getlines] at h
    split at h
    · rcases List.mem_cons.1 h with rfl | h
      · simp
      · exact ih h
    · rename_i hc
      have hdc : d ≠ c := fun hd => hc hd.symm
      split at h
      · rw [List.mem_singleton.1 h]
        simpa using hdc
      · rename_i l' ls hs
        rcases List.mem_cons.1 h with rfl | h
        · have hl' : d ∉ l' := ih (by rw [hs]; exact List.mem_cons_self)
          simp [hdc, hl']
        · exact ih (by rw [hs]; exact List.mem_cons_of_mem _ h)

/-- The lines hold nothing that is not in the list. -/
theorem mem_of_mem_getlines {d : α} {s l : List α} (h : l ∈ getlines d s)
    {c : α} (hc : c ∈ l) : c ∈ s := by
  induction s generalizing l with
  | nil => simp at h
  | cons b s ih =>
    simp only [getlines] at h
    split at h
    · rcases List.mem_cons.1 h with rfl | h
      · cases hc
      · exact List.mem_cons_of_mem _ (ih h hc)
    · split at h
      · rw [List.mem_singleton.1 h] at hc
        rw [List.mem_singleton.1 hc]
        exact List.mem_cons_self
      · rename_i l' ls hs
        rcases List.mem_cons.1 h with rfl | h
        · rcases List.mem_cons.1 hc with rfl | hc
          · exact List.mem_cons_self
          · exact List.mem_cons_of_mem _
              (ih (by rw [hs]; exact List.mem_cons_self) hc)
        · exact List.mem_cons_of_mem _
            (ih (by rw [hs]; exact List.mem_cons_of_mem _ h) hc)

/-- A line without a separator in it is one line. -/
theorem getlines_of_notMem {d : α} {l : List α} (h : d ∉ l) (hne : l ≠ []) :
    getlines d l = [l] := by
  induction l with
  | nil => exact absurd rfl hne
  | cons c l ih =>
    obtain ⟨hc, hl⟩ := not_or.1 (fun hm => h (List.mem_cons.2 hm))
    simp only [getlines, if_neg (Ne.symm hc)]
    cases l with
    | nil => simp
    | cons b l => rw [ih hl (by simp)]

/-- A separator ends the line before it. -/
theorem getlines_append_cons {d : α} {l : List α} (h : d ∉ l) (s : List α) :
    getlines d (l ++ d :: s) = l :: getlines d s := by
  induction l with
  | nil => simp
  | cons c l ih =>
    obtain ⟨hc, hl⟩ := not_or.1 (fun hm => h (List.mem_cons.2 hm))
    simp only [List.cons_append, getlines, if_neg (Ne.symm hc), ih hl]

/-- A separator ends the last field before it. -/
theorem getlines_append_cons_eq (d : α) (s s' : List α) :
    getlines d (s ++ d :: s') = s.splitOn d ++ getlines d s' := by
  induction s with
  | nil => simp [List.splitOn_nil]
  | cons c s ih =>
    rw [List.splitOn_cons_eq_if_modifyHead]
    by_cases hc : c = d
    · simp [hc, ih]
    · obtain ⟨l, ls, hl⟩ := List.exists_cons_of_ne_nil (List.splitOn_ne_nil d s)
      rw [hl] at ih ⊢
      simp [getlines, hc, ih]

/-- Lines that are written with a separator after each are read back. -/
theorem getlines_flatMap {d : α} {ls : List (List α)} (h : ∀ l ∈ ls, d ∉ l) :
    getlines d (ls.flatMap (· ++ [d])) = ls := by
  induction ls with
  | nil => rfl
  | cons l ls ih =>
    rw [List.forall_mem_cons] at h
    rw [List.flatMap_cons, List.append_assoc, List.singleton_append,
      getlines_append_cons h.1, ih h.2]

/-! ## Lines of which some are written without a separator -/

/-- A line is joined with what follows it. -/
theorem length_getlines_append {d : α} {l s : List α} (h : d ∉ l) (hs : s ≠ []) :
    (getlines d (l ++ s)).length = (getlines d s).length := by
  induction l with
  | nil => rfl
  | cons c l ih =>
    obtain ⟨hc, hl⟩ := not_or.1 (fun hm => h (List.mem_cons.2 hm))
    have hne : getlines d (l ++ s) ≠ [] := by simp [hs]
    obtain ⟨m, ms, hms⟩ := List.exists_cons_of_ne_nil hne
    have hlen := ih hl
    rw [hms] at hlen
    rw [List.cons_append, getlines, if_neg (Ne.symm hc), hms, ← hlen]
    rfl

/-- The lines, each with a separator after it if `p` says so. -/
def writeLines (d : α) (p : List α → Prop) [DecidablePred p] (ls : List (List α)) : List α :=
  ls.flatMap fun l => if p l then l ++ [d] else l

section WriteLines

variable {d : α} {p : List α → Prop} [DecidablePred p] {ls : List (List α)}

omit [DecidableEq α] in
theorem writeLines_cons (l : List α) :
    writeLines d p (l :: ls) = (if p l then l ++ [d] else l) ++ writeLines d p ls :=
  List.flatMap_cons

omit [DecidableEq α] in
/-- Every line leaves something behind when the empty one gets a separator. -/
theorem writeLines_ne_nil (hp : p []) (hne : ls ≠ []) : writeLines d p ls ≠ [] := by
  obtain ⟨l, ls', rfl⟩ := List.exists_cons_of_ne_nil hne
  rw [writeLines_cons]
  apply List.append_ne_nil_of_left_ne_nil
  split
  · simp
  · rintro rfl
    exact absurd hp ‹_›

/-- A line without a separator is lost in the next one, so no more lines are read
than were written. -/
theorem length_getlines_writeLines_le (hls : ∀ l ∈ ls, d ∉ l) :
    (getlines d (writeLines d p ls)).length ≤ ls.length := by
  induction ls with
  | nil => exact Nat.le_refl 0
  | cons l ls ih =>
    rw [List.forall_mem_cons] at hls
    have hrest := ih hls.2
    rw [writeLines_cons, List.length_cons]
    split
    · rw [List.append_assoc, List.singleton_append, getlines_append_cons hls.1, List.length_cons]
      omega
    · rcases eq_or_ne (writeLines d p ls) [] with hnil | hne
      · rw [hnil, List.append_nil]
        rcases eq_or_ne l [] with rfl | hl
        · exact Nat.zero_le _
        · rw [getlines_of_notMem hls.1 hl, List.length_singleton]
          omega
      · rw [length_getlines_append hls.1 hne]
        omega

/-- The lines are read back exactly if every line but the last got its
separator. -/
theorem getlines_writeLines_iff (hp : p []) (hls : ∀ l ∈ ls, d ∉ l) :
    getlines d (writeLines d p ls) = ls ↔ ∀ l ∈ ls.dropLast, p l := by
  induction ls with
  | nil => exact ⟨fun _ l hl => (List.not_mem_nil hl).elim, fun _ => rfl⟩
  | cons l ls ih =>
    rw [List.forall_mem_cons] at hls
    rw [writeLines_cons]
    by_cases hl : p l
    · rw [if_pos hl, List.append_assoc, List.singleton_append, getlines_append_cons hls.1,
        List.cons_inj_right, ih hls.2]
      cases ls with
      | nil => simp
      | cons m ls => rw [List.dropLast_cons_cons, List.forall_mem_cons, and_iff_right hl]
    · rw [if_neg hl]
      cases ls with
      | nil =>
        have hne : l ≠ [] := by
          rintro rfl
          exact hl hp
        rw [writeLines, List.flatMap_nil, List.append_nil, getlines_of_notMem hls.1 hne]
        simp
      | cons m ls =>
        -- The line runs into the next one, so one line is missing.
        constructor
        · intro heq
          have hlen := congrArg List.length heq
          rw [length_getlines_append hls.1 (writeLines_ne_nil hp (by simp)),
            List.length_cons] at hlen
          have hle := length_getlines_writeLines_le (p := p) hls.2
          omega
        · intro hall
          exact absurd (hall l (by rw [List.dropLast_cons_cons]; exact List.mem_cons_self)) hl

end WriteLines

/-- The fields of a list are its lines, and one empty field after a separator
at the end. -/
theorem splitOn_eq_getlines (d : α) (s : List α) :
    s.splitOn d = getlines d s ++ (if s.getLast? = some d ∨ s = [] then [[]] else []) := by
  induction s with
  | nil => simp [List.splitOn_nil]
  | cons c s ih =>
    rw [List.splitOn_cons_eq_if_modifyHead, ih]
    by_cases hc : c = d
    · subst hc
      cases s with
      | nil => simp
      | cons b s => simp
    · simp only [getlines, hc, if_false, beq_iff_eq]
      cases s with
      | nil => simp [hc]
      | cons b s =>
        have hne : getlines d (b :: s) ≠ [] := by simp
        obtain ⟨l, ls, hl⟩ := List.exists_cons_of_ne_nil hne
        simp [hl, List.getLast?_cons_cons]

/-- Without a separator at the end, the fields are the lines. -/
theorem splitOn_eq_getlines_of_getLast? {d : α} {s : List α} (hne : s ≠ [])
    (hlast : s.getLast? ≠ some d) : s.splitOn d = getlines d s := by
  rw [splitOn_eq_getlines, if_neg (not_or.2 ⟨hlast, hne⟩), List.append_nil]

/-- One separator at the end makes no line of its own. -/
theorem getlines_concat_self {d : α} {s : List α} (hne : s ≠ []) (hlast : s.getLast? ≠ some d) :
    getlines d (s ++ [d]) = getlines d s := by
  rw [getlines_append_cons_eq, getlines_nil, List.append_nil,
    splitOn_eq_getlines_of_getLast? hne hlast]

/-- The lines, each with a separator after it, are the list, where a list that
does not end with a separator gets one. -/
theorem flatMap_getlines (d : α) (s : List α) : (getlines d s).flatMap (· ++ [d])
    = s ++ if s.getLast? = some d ∨ s = [] then [] else [d] := by
  induction s with
  | nil => rfl
  | cons c s ih =>
    rcases eq_or_ne s [] with rfl | hs
    · by_cases hc : c = d
      · simp [hc]
      · simp [getlines, hc]
    have hlast : (c :: s).getLast? = s.getLast? := by
      obtain ⟨b, s', rfl⟩ := List.exists_cons_of_ne_nil hs
      exact List.getLast?_cons_cons
    have hend : ((c :: s).getLast? = some d ∨ c :: s = []) ↔ (s.getLast? = some d ∨ s = []) := by
      simp [hlast, hs]
    simp only [hend, List.cons_append, ← ih]
    by_cases hc : c = d
    · rw [hc, getlines_cons_self, List.flatMap_cons, List.nil_append, List.singleton_append]
    · have hne : getlines d s ≠ [] := fun h => hs (getlines_eq_nil.1 h)
      obtain ⟨l, ls, hl⟩ := List.exists_cons_of_ne_nil hne
      simp only [getlines, hc, if_false, hl, List.flatMap_cons, List.cons_append]

/-- What is not a separator is in one of the lines. -/
theorem exists_mem_getlines {d c : α} {s : List α} (hc : c ∈ s) (hne : c ≠ d) :
    ∃ l ∈ getlines d s, c ∈ l := by
  have hmem : c ∈ (getlines d s).flatMap (· ++ [d]) := by
    rw [flatMap_getlines]
    exact List.mem_append_left _ hc
  obtain ⟨l, hl, hcl⟩ := List.mem_flatMap.1 hmem
  rcases List.mem_append.1 hcl with h | h
  · exact ⟨l, hl, h⟩
  · exact absurd (List.mem_singleton.1 h) hne

/-- Lists with the same lines are the same up to one separator, which terminates
the last line of the longer one. -/
theorem getlines_eq_getlines_iff {d : α} {s t : List α} (hlen : t.length ≤ s.length) :
    getlines d s = getlines d t ↔ s = t ∨ (s = t ++ [d] ∧ t ≠ [] ∧ t.getLast? ≠ some d) := by
  constructor
  · intro h
    have hflat : (getlines d s).flatMap (· ++ [d]) = (getlines d t).flatMap (· ++ [d]) := by rw [h]
    rw [flatMap_getlines, flatMap_getlines] at hflat
    split_ifs at hflat with hs ht ht
    · exact Or.inl (by simpa using hflat)
    · rw [List.append_nil] at hflat
      rw [not_or] at ht
      exact Or.inr ⟨hflat, ht.2, ht.1⟩
    · have hlonger := congrArg List.length hflat
      rw [List.append_nil, List.length_append, List.length_singleton] at hlonger
      omega
    · exact Or.inl (List.append_cancel_right hflat)
  · rintro (rfl | ⟨rfl, hne, hlast⟩)
    · rfl
    · exact getlines_concat_self hne hlast

/-- Separators alone are empty lines. -/
theorem getlines_replicate (d : α) (k : ℕ) :
    getlines d (List.replicate k d) = List.replicate k [] := by
  induction k with
  | zero => rfl
  | succ k ih => rw [List.replicate_succ, getlines_cons_self, ih, List.replicate_succ]

/-- The fields of a list, where the empty list has none. -/
def fields (d : α) (s : List α) : List (List α) := if s = [] then [] else s.splitOn d

@[simp] theorem fields_nil (d : α) : fields d [] = [] := rfl

theorem fields_of_ne_nil {d : α} {s : List α} (h : s ≠ []) : fields d s = s.splitOn d :=
  if_neg h

theorem fields_ne_nil {d : α} {s : List α} (h : s ≠ []) : fields d s ≠ [] := by
  rw [fields_of_ne_nil h]
  exact List.splitOn_ne_nil d s

/-- A separator ends a field. -/
theorem fields_append_cons (d : α) (s s' : List α) :
    fields d (s ++ d :: s') = s.splitOn d ++ s'.splitOn d := by
  rw [fields_of_ne_nil (by simp), List.splitOn_append_cons_self]

/-- Fields joined by the separator are read back, unless nothing was written. -/
theorem fields_joined {d : α} {ls : List (List α)} (h : ∀ l ∈ ls, d ∉ l)
    (hne : [d].intercalate ls ≠ []) : fields d ([d].intercalate ls) = ls := by
  rw [fields_of_ne_nil hne]
  refine List.splitOn_intercalate d h ?_
  rintro rfl
  exact hne rfl

/-- Lines joined by the separator are read back as lines, as soon as the last
one is not empty. -/
theorem getlines_joined {d : α} {ls : List (List α)} (h : ∀ l ∈ ls, d ∉ l)
    (hlast : ls.getLast? ≠ some []) : getlines d ([d].intercalate ls) = ls := by
  induction ls with
  | nil => rfl
  | cons l ls ih =>
    cases ls with
    | nil =>
      rw [List.intercalate_singleton]
      exact getlines_of_notMem (h l (by simp)) (by simpa using hlast)
    | cons m ls =>
      rw [List.intercalate_cons_cons, List.append_assoc, List.singleton_append,
        getlines_append_cons (h l (by simp)),
        ih (fun k hk => h k (List.mem_cons_of_mem _ hk))
          (by simpa [List.getLast?_cons_cons] using hlast)]

/-- The lines joined by the separator are the list again, up to a separator at
the end. -/
theorem intercalate_getlines (d : α) (s : List α) :
    s = [d].intercalate (getlines d s) ∨ s = [d].intercalate (getlines d s) ++ [d] := by
  induction s with
  | nil => exact Or.inl rfl
  | cons c s ih =>
    rcases eq_or_ne s [] with rfl | hs
    · by_cases hc : c = d
      · rw [hc]
        exact Or.inr (by simp)
      · exact Or.inl (by simp [getlines, hc])
    obtain ⟨l, ls, hl⟩ := List.exists_cons_of_ne_nil (fun h => hs (getlines_eq_nil.1 h))
    rw [hl] at ih
    by_cases hc : c = d
    · rw [hc, getlines_cons_self, hl, List.intercalate_cons_cons, List.nil_append,
        List.singleton_append, List.cons_append]
      rcases ih with ih | ih
      · exact Or.inl (congrArg (d :: ·) ih)
      · exact Or.inr (congrArg (d :: ·) ih)
    · simp only [getlines, hc, if_false, hl]
      rw [List.intercalate_cons_cons_left, List.cons_append]
      rcases ih with ih | ih
      · exact Or.inl (congrArg (c :: ·) ih)
      · exact Or.inr (congrArg (c :: ·) ih)

omit [DecidableEq α] in
/-- Two joins are joined by one more separator. -/
theorem intercalate_append (d : α) {ls ls' : List (List α)} (h : ls ≠ []) (h' : ls' ≠ []) :
    [d].intercalate (ls ++ ls') = [d].intercalate ls ++ d :: [d].intercalate ls' := by
  induction ls with
  | nil => exact absurd rfl h
  | cons l ls ih =>
    cases ls with
    | nil =>
      rw [List.singleton_append, List.intercalate_cons_of_ne_nil h', List.intercalate_singleton,
        List.append_assoc, List.singleton_append]
    | cons m ls =>
      have hrest : m :: ls ≠ [] := by simp
      rw [List.cons_append, List.intercalate_cons_of_ne_nil (by simp), ih hrest,
        List.intercalate_cons_of_ne_nil hrest]
      simp

/-- Without a separator at the end, the last line is not empty. -/
theorem getLast?_getlines_ne {d : α} {s : List α} (hlast : s.getLast? ≠ some d) :
    (getlines d s).getLast? ≠ some [] := by
  intro h
  obtain ⟨ls, hls⟩ := List.getLast?_eq_some_iff.1 h
  rcases intercalate_getlines d s with hs | hs
  · rcases eq_or_ne ls [] with rfl | hne
    · rw [hls] at hs
      rw [getlines_eq_nil.2 (by simpa using hs)] at hls
      simp at hls
    · rw [hls, intercalate_append d hne (by simp), List.intercalate_singleton] at hs
      exact hlast (by rw [hs, List.getLast?_concat])
  · exact hlast (by rw [hs, List.getLast?_concat])

omit [DecidableEq α] in
/-- Lines that each end with the separator, and one more, are a join. -/
theorem flatten_append_eq_intercalate (d : α) (ls : List (List α)) (l : List α) :
    (ls.map (· ++ [d])).flatten ++ l = [d].intercalate (ls ++ [l]) := by
  induction ls with
  | nil => simp
  | cons k ls ih =>
    rw [List.map_cons, List.flatten_cons, List.append_assoc, ih, List.cons_append,
      List.intercalate_cons_of_ne_nil (by simp)]

end Lines
