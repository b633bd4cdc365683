import Mathlib.Data.List.Induction
import SysFs.Location

/-!
# `resolved` against the walk of a path

`resolved` is a stack machine: a component is pushed, and `..` pops what was
pushed last.  The machine counts an empty component as a name, while a walk
stays where it is.  `stackWalk` is the walk as the machine sees it, with empty
components as names, and `resolveLoop_eq` says that the loop of the source
computes its normal form.

The two readings differ in two ways.

* A `..` that pops an empty component is lost: the walk would have climbed.
  `LosesClimb` is that situation.  For an absolute path the loss is made good
  when the path later climbs back to its root, and `Settles` says that nothing
  but empty components is left on the stack.
* The first component left on the stack of a relative path can be empty or of
  the form `X:`, and then the result starts at a root.  `HeadsRoot` is that
  situation.

`Faithful` puts the two together, and `resolved_keepsLocation_iff` is the main
result: `resolved` keeps the location of a path, and whether it is absolute,
exactly when its components are `Faithful`.
-/

namespace SysFs

/-! ## The walk that the stack machine sees -/

/-- What one component does to the stack. -/
def stackStep (part : Str) : Walk Str :=
  if part = dot then 1 else if part = dotdot then Walk.up else Walk.down part

/-- What a list of components does to the stack. -/
def stackWalk (parts : List Str) : Walk Str := (parts.map stackStep).prod

/-- The components take each other back: nothing of them is left on the stack
and nothing below them is popped. -/
def Cancels (parts : List Str) : Prop := stackWalk parts = 1

/-- The component right before `parts` is popped by a `..` of `parts`. -/
def TakenBack (parts : List Str) : Prop :=
  ∃ w v, parts = w ++ dotdot :: v ∧ Cancels w

/-- Some `..` pops an empty component. -/
def LosesClimb (parts : List Str) : Prop :=
  ∃ u v, parts = u ++ [] :: v ∧ TakenBack v

/-- Every name of `parts` is popped again within `parts`. -/
def Settles (parts : List Str) : Prop :=
  ∀ u part v, parts = u ++ part :: v → part ≠ [] → part ≠ dot →
    part ≠ dotdot → TakenBack v

/-- The first component that is left of a relative path reads as a root.  An
empty one that is left alone does not, because the result is then `.`. -/
def HeadsRoot (parts : List Str) : Prop :=
  ∃ u part v, parts = u ++ part :: v ∧ Cancels u ∧ isRootPart part = true ∧
    ¬ TakenBack v ∧ (part = [] → ¬ Cancels v)

/-- Below a root the components settle, and no climb is lost after that. -/
def SettlesThenKeeps (parts : List Str) : Prop :=
  ∃ u v, parts = u ++ v ∧ Settles u ∧ ¬ LosesClimb v

/-- The components on which `resolved` keeps the location. -/
def Faithful : List Str → Prop
  | [] => True
  | part :: parts =>
    if isRootPart part then SettlesThenKeeps parts
    else ¬ LosesClimb (part :: parts) ∧ ¬ HeadsRoot (part :: parts)

@[simp] theorem stackWalk_nil : stackWalk [] = 1 := rfl

@[simp] theorem stackWalk_cons (part : Str) (parts : List Str) :
    stackWalk (part :: parts) = stackStep part * stackWalk parts := by
  simp [stackWalk]

@[simp] theorem stackWalk_append (parts parts' : List Str) :
    stackWalk (parts ++ parts') = stackWalk parts * stackWalk parts' := by
  simp [stackWalk]

@[simp] theorem stackStep_dot : stackStep dot = 1 := rfl

@[simp] theorem stackStep_dotdot : stackStep dotdot = Walk.up := rfl

theorem stackStep_name {part : Str} (h1 : part ≠ dot) (h2 : part ≠ dotdot) :
    stackStep part = Walk.down part := by
  rw [stackStep, if_neg h1, if_neg h2]

theorem nil_ne_dot : ([] : Str) ≠ dot := by decide

theorem nil_ne_dotdot : ([] : Str) ≠ dotdot := by decide

/-- What is left on the stack is neither `.` nor `..`. -/
theorem ne_dots_of_mem_downs {parts : List Str} {part : Str}
    (h : part ∈ (stackWalk parts).downs) : part ≠ dot ∧ part ≠ dotdot := by
  induction parts with
  | nil => simp at h
  | cons c parts ih =>
    simp only [stackWalk_cons, Walk.mul_downs, List.mem_append] at h
    rcases h with h | h
    · have hc := List.mem_of_mem_take h
      by_cases h1 : c = dot
      · simp [h1] at hc
      · by_cases h2 : c = dotdot
        · simp [h2] at hc
        · rw [stackStep_name h1 h2] at hc
          obtain rfl : part = c := by simpa using hc
          exact ⟨h1, h2⟩
    · exact ih h

/-! ## What is popped entirely -/

namespace Cancels

variable {u v : List Str}

/-- What is popped entirely leaves the stack as it was. -/
theorem stackWalk_append (hu : Cancels u) (v : List Str) : stackWalk (u ++ v) = stackWalk v := by
  rw [SysFs.stackWalk_append, show stackWalk u = 1 from hu, one_mul]

theorem append (hu : Cancels u) (hv : Cancels v) : Cancels (u ++ v) :=
  (hu.stackWalk_append v).trans hv

theorem dot_cons (hu : Cancels u) : Cancels (dot :: u) := append (u := [dot]) rfl hu

/-- A name with a `..` behind it, and between them what is popped. -/
theorem popped {c : Str} (h1 : c ≠ dot) (h2 : c ≠ dotdot) (hu : Cancels u) :
    Cancels (c :: (u ++ [dotdot])) := by
  have hup : stackWalk (u ++ [dotdot]) = Walk.up := by
    rw [hu.stackWalk_append, stackWalk_cons, stackStep_dotdot, stackWalk_nil, mul_one]
  rw [Cancels, stackWalk_cons, stackStep_name h1 h2, hup,
    Walk.mul_up_of_ne_nil (List.cons_ne_nil c [])]
  rfl

end Cancels

/-! ## Which component a `..` pops -/

theorem takenBack_snoc (parts : List Str) (c : Str) :
    TakenBack (parts ++ [c]) ↔
      TakenBack parts ∨ (c = dotdot ∧ Cancels parts) := by
  constructor
  · rintro ⟨w, v, h, hw⟩
    rcases List.eq_nil_or_concat' v with rfl | ⟨v, b, rfl⟩
    · obtain ⟨rfl, hc⟩ := List.append_inj' h rfl
      exact Or.inr ⟨by simpa using hc, hw⟩
    · left
      have h' : parts ++ [c] = (w ++ dotdot :: v) ++ [b] := by simp [h]
      exact ⟨w, v, (List.append_inj' h' rfl).1, hw⟩
  · rintro (⟨w, v, rfl, hw⟩ | ⟨rfl, hw⟩)
    · exact ⟨w, v ++ [c], by simp, hw⟩
    · exact ⟨parts, [], rfl, hw⟩

/-- A component is popped later exactly when the walk of what follows it
climbs. -/
theorem takenBack_iff (parts : List Str) :
    TakenBack parts ↔ (stackWalk parts).ups ≠ 0 := by
  induction parts using List.reverseRecOn with
  | nil =>
    constructor
    · rintro ⟨w, v, h, -⟩
      simp at h
    · simp
  | append_singleton parts c ih =>
    rw [takenBack_snoc, ih]
    by_cases h1 : c = dot
    · have hc : c ≠ dotdot := by
        rw [h1]
        decide
      simp [h1, show dot ≠ dotdot by decide]
    · by_cases h2 : c = dotdot
      · subst h2
        by_cases hd : (stackWalk parts).downs = []
        · simp only [stackWalk_append, stackWalk_cons, stackStep_dotdot,
            stackWalk_nil, mul_one, Walk.mul_up_of_nil hd]
          constructor
          · intro _
            omega
          · intro _
            by_cases hu : (stackWalk parts).ups = 0
            · exact Or.inr ⟨trivial, Walk.ext hu hd⟩
            · exact Or.inl hu
        · simp only [stackWalk_append, stackWalk_cons, stackStep_dotdot,
            stackWalk_nil, mul_one, Walk.mul_up_of_ne_nil hd]
          constructor
          · rintro (h | ⟨-, h⟩)
            · exact h
            · exact absurd (congrArg Walk.downs h) hd
          · exact Or.inl
      · simp [stackStep_name h1 h2, h2]

/-- A component that is not popped by what follows is left on top. -/
private theorem getLast?_downs_of_split {u v : List Str} {part : Str}
    (h1 : part ≠ dot) (h2 : part ≠ dotdot) (hv : Cancels v) :
    (stackWalk (u ++ part :: v)).downs = (stackWalk u).downs ++ [part] := by
  have hv' : stackWalk v = 1 := hv
  simp [hv', stackStep_name h1 h2]

private theorem exists_split_of_getLast? :
    ∀ (n : Nat) (parts : List Str) (part : Str), parts.length ≤ n →
      (stackWalk parts).downs.getLast? = some part →
      ∃ u v, parts = u ++ part :: v ∧ Cancels v := by
  intro n
  induction n with
  | zero =>
    intro parts part hn h
    obtain rfl := List.length_eq_zero_iff.1 (Nat.le_zero.1 hn)
    simp at h
  | succ n ih =>
    intro parts part hn h
    rcases List.eq_nil_or_concat' parts with rfl | ⟨parts, c, rfl⟩
    · simp at h
    have hlen : parts.length ≤ n := by
      simp only [List.length_append, List.length_singleton] at hn
      omega
    simp only [stackWalk_append, stackWalk_cons, stackWalk_nil, mul_one] at h
    by_cases hc1 : c = dot
    · rw [hc1, stackStep_dot, mul_one] at h
      obtain ⟨u, v, rfl, hv⟩ := ih parts part hlen h
      refine ⟨u, v ++ [c], by simp, ?_⟩
      rw [hc1]
      exact hv.append (Cancels.dot_cons rfl)
    by_cases hc2 : c = dotdot
    · subst hc2
      rw [stackStep_dotdot] at h
      by_cases hd : (stackWalk parts).downs = []
      · rw [Walk.mul_up_of_nil hd] at h
        cases h
      -- The `..` pops `b`, and `part` is on top of what is left before `b`.
      rw [Walk.mul_up_of_ne_nil hd] at h
      obtain ⟨o, b, ho⟩ := (List.eq_nil_or_concat' _).resolve_left hd
      have hb : b ∈ (stackWalk parts).downs := by rw [ho]; simp
      obtain ⟨hb1, hb2⟩ := ne_dots_of_mem_downs hb
      rw [ho, List.dropLast_concat] at h
      obtain ⟨u, v, rfl, hv⟩ := ih parts b hlen (by rw [ho]; simp)
      have hu : (stackWalk u).downs = o := by
        rw [getLast?_downs_of_split hb1 hb2 hv] at ho
        exact (List.append_inj' ho rfl).1
      have hulen : u.length ≤ n := by
        simp only [List.length_append, List.length_cons] at hlen
        omega
      obtain ⟨u', v', rfl, hv'⟩ := ih u part hulen (by rw [hu, h])
      exact ⟨u', v' ++ b :: (v ++ [dotdot]), by simp, hv'.append (hv.popped hb1 hb2)⟩
    · rw [stackStep_name hc1 hc2, Walk.mul_down] at h
      obtain rfl : c = part := by simpa using h
      exact ⟨parts, [], rfl, rfl⟩

/-- What is on top of the stack is the last component that is not popped. -/
theorem getLast?_downs_iff {part : Str} (h1 : part ≠ dot) (h2 : part ≠ dotdot)
    (parts : List Str) :
    (stackWalk parts).downs.getLast? = some part ↔
      ∃ u v, parts = u ++ part :: v ∧ Cancels v := by
  constructor
  · exact exists_split_of_getLast? parts.length parts part (Nat.le_refl _)
  · rintro ⟨u, v, rfl, hv⟩
    rw [getLast?_downs_of_split h1 h2 hv]
    simp

/-- What is left on the stack is what is not popped. -/
theorem mem_downs_iff {part : Str} (h1 : part ≠ dot) (h2 : part ≠ dotdot)
    (parts : List Str) :
    part ∈ (stackWalk parts).downs ↔
      ∃ u v, parts = u ++ part :: v ∧ ¬ TakenBack v := by
  constructor
  · intro h
    induction parts with
    | nil => simp at h
    | cons c parts ih =>
      simp only [stackWalk_cons, Walk.mul_downs, List.mem_append] at h
      rcases h with h | h
      · by_cases hc1 : c = dot
        · simp [hc1] at h
        · by_cases hc2 : c = dotdot
          · simp [hc2] at h
          · rw [stackStep_name hc1 hc2] at h
            have hc : part = c := by simpa using List.mem_of_mem_take h
            subst hc
            refine ⟨[], parts, rfl, ?_⟩
            rw [takenBack_iff, Classical.not_not]
            by_contra hups
            have hlen : [part].length - (stackWalk parts).ups = 0 := by
              simp only [List.length_singleton]
              omega
            simp only [Walk.down_downs, hlen, List.take_zero] at h
            cases h
      · obtain ⟨u, v, rfl, hv⟩ := ih h
        exact ⟨c :: u, v, rfl, hv⟩
  · rintro ⟨u, v, rfl, hv⟩
    rw [takenBack_iff, Classical.not_not] at hv
    simp [stackStep_name h1 h2, hv]

/-- What is at the bottom of the stack is the first component that is not
popped. -/
theorem eq_zero_cons_iff {part : Str} (h1 : part ≠ dot) (h2 : part ≠ dotdot) :
    ∀ (n : Nat) (parts : List Str) (o : List Str), parts.length ≤ n →
      (stackWalk parts = ⟨0, part :: o⟩ ↔
        ∃ u v, parts = u ++ part :: v ∧ Cancels u ∧ stackWalk v = ⟨0, o⟩) := by
  intro n
  induction n with
  | zero =>
    intro parts o hn
    obtain rfl := List.length_eq_zero_iff.1 (Nat.le_zero.1 hn)
    constructor
    · intro h
      cases h
    · rintro ⟨u, v, h, -⟩
      simp at h
  | succ n ih =>
    intro parts o hn
    constructor
    · intro h
      rcases parts with _ | ⟨c, parts⟩
      · cases h
      have hlen : parts.length ≤ n := by simpa using hn
      by_cases hc1 : c = dot
      · rw [hc1, stackWalk_cons, stackStep_dot, one_mul] at h
        obtain ⟨u, v, rfl, hu, hv⟩ := (ih parts o hlen).1 h
        rw [hc1]
        exact ⟨dot :: u, v, rfl, hu.dot_cons, hv⟩
      by_cases hc2 : c = dotdot
      · have hups := congrArg Walk.ups h
        simp [hc2] at hups
      by_cases hback : TakenBack parts
      · -- `c` is popped, and what is left comes from after its `..`
        obtain ⟨w, v, rfl, hw⟩ := hback
        have hpopped : Cancels (c :: (w ++ [dotdot])) := hw.popped hc1 hc2
        have hsplit : ∀ x, c :: (w ++ dotdot :: x) = c :: (w ++ [dotdot]) ++ x := by simp
        rw [hsplit, hpopped.stackWalk_append] at h
        have hvlen : v.length ≤ n := by
          simp only [List.length_append, List.length_cons] at hlen
          omega
        obtain ⟨u, v, rfl, hu, hv⟩ := (ih v o hvlen).1 h
        exact ⟨c :: (w ++ [dotdot]) ++ u, v, by simp, hpopped.append hu, hv⟩
      · rw [stackWalk_cons, stackStep_name hc1 hc2] at h
        rw [takenBack_iff, Classical.not_not] at hback
        have hdowns := congrArg Walk.downs h
        simp only [Walk.mul_downs, Walk.down_downs, hback, Nat.sub_zero,
          List.take_length, List.singleton_append, List.cons.injEq] at hdowns
        obtain ⟨rfl, ho⟩ := hdowns
        exact ⟨[], parts, rfl, rfl, Walk.ext hback ho⟩
    · rintro ⟨u, v, rfl, hu, hv⟩
      rw [hu.stackWalk_append, stackWalk_cons, hv, stackStep_name h1 h2]
      rfl

/-- The two readings of a first component that is left and reads as a root. -/
theorem headsRoot_iff (parts : List Str) :
    HeadsRoot parts ↔ ∃ part o, stackWalk parts = ⟨0, part :: o⟩ ∧
      isRootPart part = true ∧ (part = [] → o ≠ []) := by
  constructor
  · rintro ⟨u, part, v, rfl, hu, hroot, hv, hempty⟩
    obtain ⟨h1, h2⟩ := not_dots_of_isRootPart hroot
    rw [takenBack_iff, Classical.not_not] at hv
    refine ⟨part, (stackWalk v).downs, ?_, hroot, fun hp ho => ?_⟩
    · exact (eq_zero_cons_iff h1 h2 _ _ _ (Nat.le_refl _)).2
        ⟨u, v, rfl, hu, Walk.ext hv rfl⟩
    · exact hempty hp (Walk.ext hv ho)
  · rintro ⟨part, o, h, hroot, hempty⟩
    obtain ⟨h1, h2⟩ := not_dots_of_isRootPart hroot
    obtain ⟨u, v, rfl, hu, hv⟩ :=
      (eq_zero_cons_iff h1 h2 _ _ _ (Nat.le_refl _)).1 h
    refine ⟨u, part, v, rfl, hu, hroot, ?_, fun hp hc => ?_⟩
    · rw [takenBack_iff, hv]
      simp
    · have hc' : stackWalk v = 1 := hc
      rw [hv] at hc'
      exact hempty hp (congrArg Walk.downs hc')

/-! ## The machine against the walk

`named a` drops the empty components from a walk of the machine.  Up to the
climbs that are lost it is the walk of the path. -/

/-- The walk without the empty components. -/
def named (a : Walk Str) : Walk Str := a.keep fun part => !part.isEmpty

/-- A lost climb shows when its `..` is read. -/
theorem losesClimb_snoc (parts : List Str) (c : Str) :
    LosesClimb (parts ++ [c]) ↔ LosesClimb parts ∨
      (c = dotdot ∧ (stackWalk parts).downs.getLast? = some []) := by
  rw [getLast?_downs_iff nil_ne_dot nil_ne_dotdot]
  constructor
  · rintro ⟨u, v, h, hv⟩
    rcases List.eq_nil_or_concat' v with rfl | ⟨v, b, rfl⟩
    · obtain ⟨w, v, hw, -⟩ := hv
      simp at hw
    · have h' : parts ++ [c] = (u ++ [] :: v) ++ [b] := by simp [h]
      obtain ⟨rfl, hb⟩ := List.append_inj' h' rfl
      obtain rfl : c = b := by simpa using hb
      rcases (takenBack_snoc v c).1 hv with hv | ⟨hc, hv⟩
      · exact Or.inl ⟨u, v, rfl, hv⟩
      · exact Or.inr ⟨hc, u, v, rfl, hv⟩
  · rintro (⟨u, v, rfl, hv⟩ | ⟨hc, u, v, rfl, hv⟩)
    · exact ⟨u, v ++ [c], by simp, (takenBack_snoc v c).2 (Or.inl hv)⟩
    · exact ⟨u, v ++ [c], by simp, (takenBack_snoc v c).2 (Or.inr ⟨hc, hv⟩)⟩

/-- One component, for the machine without its empty components and for the
walk.  They take the same step, unless the component is a `..` that pops an
empty component: the machine then stays where it is. -/
theorem named_mul_stackStep (a : Walk Str) (c : Str) :
    (¬ (c = dotdot ∧ a.downs.getLast? = some []) ∧
      named (a * stackStep c) = named a * stepOf c) ∨
    ((c = dotdot ∧ a.downs.getLast? = some []) ∧
      named (a * stackStep c) = named a) := by
  by_cases hc1 : c = dot
  · left
    subst hc1
    simp [show dot ≠ dotdot by decide]
  by_cases hc2 : c = dotdot
  · subst hc2
    by_cases hd : a.downs = []
    · left
      have hn : (named a).downs = [] := by simp [named, hd]
      refine ⟨by simp [hd], ?_⟩
      rw [stackStep_dotdot, stepOf_dotdot, Walk.mul_up_of_nil hd,
        Walk.mul_up_of_nil hn]
      rfl
    · obtain ⟨o, b, ho⟩ := (List.eq_nil_or_concat' _).resolve_left hd
      rw [stackStep_dotdot, Walk.mul_up_of_ne_nil hd, ho, List.dropLast_concat]
      by_cases hb : b = []
      · right
        subst hb
        refine ⟨by simp, ?_⟩
        ext1 <;> simp [named, ho]
      · left
        have hn : (named a).downs = o.filter (fun part => !part.isEmpty) ++ [b] := by
          simp [named, ho, List.filter_append, hb]
        refine ⟨by simp [hb], ?_⟩
        rw [stepOf_dotdot, Walk.mul_up_of_ne_nil (by simp [hn]), hn,
          List.dropLast_concat]
        rfl
  · left
    refine ⟨fun h => hc2 h.1, ?_⟩
    rw [stackStep_name hc1 hc2, Walk.mul_down]
    by_cases hc : c = []
    · subst hc
      rw [stepOf_nil, mul_one]
      ext1 <;> simp [named]
    · rw [stepOf_name hc hc1 hc2, Walk.mul_down]
      ext1 <;> simp [named, hc]

/-- Without a lost climb the machine follows the walk.  With one it ends too
deep: every lost climb leaves it one level below the walk for good. -/
theorem named_stackWalk (parts : List Str) :
    (¬ LosesClimb parts → named (stackWalk parts) = walkOf parts) ∧
    (LosesClimb parts →
      (walkOf parts).height < (named (stackWalk parts)).height) := by
  induction parts using List.reverseRecOn with
  | nil =>
    refine ⟨fun _ => rfl, ?_⟩
    rintro ⟨u, v, h, -⟩
    simp at h
  | append_singleton parts c ih =>
    rw [losesClimb_snoc]
    have hstep := named_mul_stackStep (stackWalk parts) c
    simp only [stackWalk_append, stackWalk_cons, stackWalk_nil, mul_one,
      walkOf_append, walkOf_cons, walkOf_nil]
    rcases hstep with ⟨hn, hs⟩ | ⟨hy, hs⟩
    · rw [hs, or_iff_left hn]
      refine ⟨fun h => by rw [ih.1 h], fun h => ?_⟩
      have := ih.2 h
      rw [Walk.height_mul, Walk.height_mul]
      omega
    · refine ⟨fun h => absurd (Or.inr hy) h, fun _ => ?_⟩
      rw [hs, Walk.height_mul, hy.1, stepOf_dotdot, Walk.height_up]
      by_cases hl : LosesClimb parts
      · have := ih.2 hl
        omega
      · rw [ih.1 hl]
        omega

/-- Without a root the machine follows the walk exactly when it loses no
climb. -/
theorem named_eq_walkOf_iff (parts : List Str) :
    named (stackWalk parts) = walkOf parts ↔ ¬ LosesClimb parts := by
  constructor
  · intro h hl
    have := (named_stackWalk parts).2 hl
    rw [h] at this
    omega
  · exact (named_stackWalk parts).1

/-- The names that are left are popped exactly when the path settles. -/
theorem settles_iff (parts : List Str) :
    Settles parts ↔ (named (stackWalk parts)).downs = [] := by
  simp only [named, Walk.keep_downs, List.filter_eq_nil_iff]
  constructor
  · intro h part hmem
    obtain ⟨h1, h2⟩ := ne_dots_of_mem_downs hmem
    by_cases h0 : part = []
    · simp [h0]
    · obtain ⟨u, v, hp, hv⟩ := (mem_downs_iff h1 h2 parts).1 hmem
      exact absurd (h u part v hp h0 h1 h2) hv
  · intro h u part v hp h0 h1 h2
    by_contra hv
    have := h part ((mem_downs_iff h1 h2 parts).2 ⟨u, v, hp, hv⟩)
    simp [h0] at this

/-! ## Under a root

A climb at a root stays there, so only the names that are left count, and a
lost climb is made good when everything is popped again. -/

/-- The walk never leaves more names than the machine. -/
theorem length_walkOf_le (parts : List Str) :
    (walkOf parts).downs.length ≤ (named (stackWalk parts)).downs.length := by
  induction parts using List.reverseRecOn with
  | nil => simp
  | append_singleton parts c ih =>
    have hstep := named_mul_stackStep (stackWalk parts) c
    simp only [stackWalk_append, stackWalk_cons, stackWalk_nil, mul_one,
      walkOf_append, walkOf_cons, walkOf_nil]
    rcases hstep with ⟨-, hs⟩ | ⟨hy, hs⟩
    · rw [hs]
      simp only [Walk.mul_downs, List.length_append, List.length_take]
      omega
    · rw [hs, hy.1, stepOf_dotdot]
      simp only [Walk.mul_downs, Walk.up_downs, List.append_nil, List.length_take]
      omega

/-- After components that settle, the machine and the walk both stand at the
root, and they only differ by what the rest loses. -/
theorem downs_eq_of_settlesThenKeeps {parts : List Str}
    (h : SettlesThenKeeps parts) :
    (named (stackWalk parts)).downs = (walkOf parts).downs := by
  obtain ⟨u, v, rfl, hu, hv⟩ := h
  have hnames := (settles_iff u).1 hu
  have hwalk : (walkOf u).downs = [] := by
    have := length_walkOf_le u
    rw [hnames, List.length_nil, Nat.le_zero] at this
    exact List.length_eq_zero_iff.1 this
  have hleft : (walkOf (u ++ v)).downs = (walkOf v).downs := by
    simp [hwalk]
  have hempty : ∀ part ∈ (stackWalk u).downs, part.isEmpty = true := by
    intro part hmem
    simp only [named, Walk.keep_downs, List.filter_eq_nil_iff] at hnames
    simpa using hnames part hmem
  have hright : (named (stackWalk (u ++ v))).downs = (named (stackWalk v)).downs := by
    simp only [named, Walk.keep_downs, stackWalk_append, Walk.mul_downs,
      List.filter_append]
    rw [List.filter_eq_nil_iff.2, List.nil_append]
    intro part hmem
    simp [hempty part (List.mem_of_mem_take hmem)]
  rw [hleft, hright, (named_stackWalk v).1 hv]

/-- Otherwise the machine has more names left than the walk. -/
theorem length_lt_or_settlesThenKeeps (parts : List Str) :
    SettlesThenKeeps parts ∨
      (walkOf parts).downs.length < (named (stackWalk parts)).downs.length := by
  induction parts using List.reverseRecOn with
  | nil =>
    refine Or.inl ⟨[], [], rfl, (settles_iff []).2 rfl, ?_⟩
    rintro ⟨u, v, h, -⟩
    simp at h
  | append_singleton parts c ih =>
    by_cases hsettle : Settles (parts ++ [c])
    · refine Or.inl ⟨parts ++ [c], [], by simp, hsettle, ?_⟩
      rintro ⟨u, v, h, -⟩
      simp at h
    have hleft : (named (stackWalk (parts ++ [c]))).downs ≠ [] :=
      fun h => hsettle ((settles_iff _).2 h)
    have hpos := List.length_pos_iff.2 hleft
    have hstep := named_mul_stackStep (stackWalk parts) c
    simp only [stackWalk_append, stackWalk_cons, stackWalk_nil, mul_one,
      walkOf_append, walkOf_cons, walkOf_nil] at hpos ⊢
    rcases hstep with ⟨hn, hs⟩ | ⟨hy, hs⟩
    · rcases ih with ⟨u, v, rfl, hu, hv⟩ | hlt
      · left
        refine ⟨u, v ++ [c], by simp, hu, fun hl => ?_⟩
        rcases (losesClimb_snoc v c).1 hl with hl | ⟨hc, hlast⟩
        · exact hv hl
        · refine hn ⟨hc, ?_⟩
          have hne : (stackWalk v).downs ≠ [] := by
            intro h
            rw [h] at hlast
            cases hlast
          rw [stackWalk_append, Walk.mul_downs, List.getLast?_append_of_ne_nil _ hne,
            hlast]
      · right
        rw [hs] at hpos ⊢
        simp only [Walk.mul_downs, List.length_append, List.length_take] at hpos ⊢
        rcases stepOf_cases c with h0 | ⟨h0, h1⟩
        · omega
        · rw [h1, List.length_nil] at hpos ⊢
          omega
    · right
      rw [hs, hy.1, stepOf_dotdot]
      rw [hs] at hpos
      simp only [Walk.mul_downs, Walk.up_ups, Walk.up_downs, List.append_nil,
        List.length_take]
      rcases ih with hk | hlt
      · rw [downs_eq_of_settlesThenKeeps hk] at hpos ⊢
        omega
      · omega

/-- Under a root the machine ends where the walk ends exactly when no climb is
lost after the last time it settles. -/
theorem downs_eq_iff (parts : List Str) :
    (named (stackWalk parts)).downs = (walkOf parts).downs ↔
      SettlesThenKeeps parts := by
  constructor
  · intro h
    refine (length_lt_or_settlesThenKeeps parts).resolve_right fun hlt => ?_
    rw [h] at hlt
    exact Nat.lt_irrefl _ hlt
  · exact downs_eq_of_settlesThenKeeps

/-! ## The loop of the source is the machine -/

/-- The stack that a walk of the machine stands for. -/
def stackOf (a : Walk Str) : List Str := List.replicate a.ups dotdot ++ a.downs

/-- One round of the loop on a component that is not the start of an absolute
path. -/
theorem resolveStep_eq (h : List Str) (a : Walk Str) (b : Bool) (i : Nat)
    (c : Str) (hi : i = 0 → isRootPart c = false ∧ b = false) :
    resolveStep ⟨h ++ stackOf a, a.downs.length, b⟩ i c =
      ⟨h ++ stackOf (a * stackStep c), (a * stackStep c).downs.length, b⟩ := by
  have habs : (b || (i == 0 && isRootPart c)) = b := by
    by_cases h0 : i = 0
    · simp [h0, (hi h0).1]
    · simp [h0]
  have hnot : ¬ (i = 0 ∧ b = true) := fun hb => by
    have := (hi hb.1).2
    rw [hb.2] at this
    cases this
  unfold resolveStep
  simp only [habs]
  by_cases hc1 : c = dot
  · subst hc1
    simp
  rw [if_neg hc1]
  by_cases hc2 : c = dotdot
  · subst hc2
    by_cases hd : a.downs = []
    · simp [hd, Walk.mul_up_of_nil, stackOf, List.replicate_succ']
    · have hpos := List.length_pos_iff.2 hd
      rw [if_pos ⟨rfl, hpos⟩, stackStep_dotdot, Walk.mul_up_of_ne_nil hd]
      simp [stackOf, List.dropLast_append_of_ne_nil, hd]
  · rw [if_neg (fun h => hc2 h.1), if_pos ⟨hnot, hc2⟩, stackStep_name hc1 hc2,
      Walk.mul_down]
    simp [stackOf]

/-- The loop from a component on that is not the start of an absolute path. -/
theorem resolveLoop_eq (h : List Str) (b : Bool) (parts : List Str) :
    ∀ (a : Walk Str) (i : Nat),
      (i = 0 → parts.head?.any isRootPart = false ∧ b = false) →
      resolveLoop ⟨h ++ stackOf a, a.downs.length, b⟩ i parts =
        ⟨h ++ stackOf (a * stackWalk parts),
          (a * stackWalk parts).downs.length, b⟩ := by
  induction parts with
  | nil =>
    intro a i _
    simp [resolveLoop]
  | cons c parts ih =>
    intro a i hi
    rw [resolveLoop, resolveStep_eq h a b i c (fun h0 => by simpa using hi h0),
      ih (a * stackStep c) (i + 1) (fun h0 => absurd h0 (Nat.succ_ne_zero i)),
      mul_assoc, stackWalk_cons]

/-- The loop on a relative path. -/
theorem resolveLoop_relative {parts : List Str}
    (h : parts.head?.any isRootPart = false) :
    resolveLoop ⟨[], 0, false⟩ 0 parts =
      ⟨stackOf (stackWalk parts), (stackWalk parts).downs.length, false⟩ := by
  have := resolveLoop_eq [] false parts 1 0 (fun _ => ⟨h, rfl⟩)
  simpa [stackOf] using this

/-- The loop on an absolute path: its root stays at the bottom. -/
theorem resolveLoop_absolute {c : Str} (h : isRootPart c = true)
    (parts : List Str) :
    resolveLoop ⟨[], 0, false⟩ 0 (c :: parts) =
      ⟨c :: stackOf (stackWalk parts), (stackWalk parts).downs.length, true⟩ := by
  obtain ⟨h1, h2⟩ := not_dots_of_isRootPart h
  have hfirst : resolveStep ⟨[], 0, false⟩ 0 c = ⟨[c], 0, true⟩ := by
    simp [resolveStep, h, h1]
  have := resolveLoop_eq [c] true parts 1 1
    (fun h0 => absurd h0 Nat.one_ne_zero)
  rw [resolveLoop, hfirst]
  simpa [stackOf] using this

/-! ## The recomposed string -/

/-- Every component but the last one followed by `/` is the join with `/`. -/
theorem flatten_mapIdx_slash (stack : List Str) :
    (stack.mapIdx fun i part =>
      if i + 1 < stack.length then part ++ slash else part).flatten
      = ['/'].intercalate stack := by
  induction stack with
  | nil => rfl
  | cons c stack ih =>
    rcases stack with _ | ⟨b, stack⟩
    · simp
    · rw [List.intercalate_cons_cons, ← ih, List.mapIdx_cons]
      simp [slash]

/-- The recomposition of a relative path joins the stack with `/`. -/
theorem compose_relative (stack : List Str) (n : Nat) :
    compose ⟨stack, n, false⟩ = ['/'].intercalate stack := by
  rw [← flatten_mapIdx_slash]
  simp [compose]

/-- The recomposition of an absolute path does too, with a `/` after a root
that stands alone. -/
theorem compose_absolute (c : Str) (stack : List Str) (n : Nat) :
    compose ⟨c :: stack, n, true⟩ =
      ['/'].intercalate (c :: if stack = [] then [[]] else stack) := by
  rcases stack with _ | ⟨b, stack⟩
  · simp [compose, slash, List.intercalate_cons_cons]
  · rw [if_neg (by simp), ← flatten_mapIdx_slash]
    simp [compose, List.mapIdx_cons]

/-- No component that is left holds a separator. -/
theorem notMem_of_mem_stackOf {parts : List Str}
    (h : ∀ part ∈ parts, '/' ∉ part) :
    ∀ part ∈ stackOf (stackWalk parts), '/' ∉ part := by
  intro part hmem
  rcases List.mem_append.1 hmem with hmem | hmem
  · rw [(List.mem_replicate.1 hmem).2]
    decide
  · obtain ⟨h1, h2⟩ := ne_dots_of_mem_downs hmem
    obtain ⟨u, v, rfl, -⟩ := (mem_downs_iff h1 h2 parts).1 hmem
    exact h part (by simp)

/-- A join is empty only for nothing, or for one empty component. -/
theorem intercalate_eq_nil_iff (stack : List Str) :
    ['/'].intercalate stack = [] ↔ stack = [] ∨ stack = [[]] := by
  rcases stack with _ | ⟨c, _ | ⟨b, stack⟩⟩
  · simp
  · simp
  · simp [List.intercalate_cons_cons]

/-- The walk of what the machine leaves is the walk of the machine, without
the empty components. -/
theorem walkOf_stackOf (parts : List Str) :
    walkOf (stackOf (stackWalk parts)) = named (stackWalk parts) := by
  have hups : ∀ n : Nat, walkOf (List.replicate n dotdot) = ⟨n, []⟩ := by
    intro n
    induction n with
    | zero => rfl
    | succ n ih =>
      rw [List.replicate_succ', walkOf_append, ih, walkOf_cons, walkOf_nil,
        mul_one, stepOf_dotdot, Walk.mul_up_of_nil rfl]
  have hdowns : ∀ ds : List Str, (∀ d ∈ ds, d ≠ dot ∧ d ≠ dotdot) →
      walkOf ds = ⟨0, ds.filter fun part => !part.isEmpty⟩ := by
    intro ds
    induction ds with
    | nil => exact fun _ => rfl
    | cons d ds ih =>
      intro h
      rw [walkOf_cons, ih fun e he => h e (List.mem_cons_of_mem _ he)]
      obtain ⟨h1, h2⟩ := h d (by simp)
      by_cases h0 : d = []
      · subst h0
        simp
      · rw [stepOf_name h0 h1 h2]
        ext1 <;> simp [h0]
  rw [stackOf, walkOf_append, hups,
    hdowns _ (fun d hd => ne_dots_of_mem_downs hd)]
  ext1 <;> simp [named]

/-- A root can only be the first name of a stack, behind no `..`. -/
theorem eq_of_stackOf_root {w : Walk Str} {part : Str} {rest : List Str}
    (hs : stackOf w = part :: rest) (hroot : isRootPart part = true) : w = ⟨0, part :: rest⟩ := by
  obtain ⟨ups, downs⟩ := w
  cases ups with
  | succ n =>
    rw [stackOf, List.replicate_succ, List.cons_append] at hs
    exact absurd (List.cons.inj hs).1.symm (not_dots_of_isRootPart hroot).2
  | zero =>
    obtain rfl : downs = part :: rest := by simpa [stackOf] using hs
    rfl

/-- Where the result of `resolved` leads, for a relative path: along the walk
of the machine, unless the first component that is left reads as a root. -/
theorem routeOf_resolved_relative {path : Str}
    (h : (partsOf (unify path)).head?.any isRootPart = false) :
    (¬ HeadsRoot (partsOf (unify path)) →
      routeOf (components (Path.ofStr path).resolved)
        = ⟨none, named (stackWalk (partsOf (unify path)))⟩) ∧
    (HeadsRoot (partsOf (unify path)) →
      (routeOf (components (Path.ofStr path).resolved)).root.isSome = true) := by
  have hsep : ∀ part ∈ partsOf (unify path), '/' ∉ part :=
    fun part hp => Lines.notMem_of_mem_getlines hp
  have hstack := notMem_of_mem_stackOf hsep
  have hwalk := walkOf_stackOf (partsOf (unify path))
  rw [headsRoot_iff]
  simp only [Path.resolved, Path.ofStr_mPath, resolveLoop_relative h,
    compose_relative, List.isEmpty_iff]
  generalize hw : stackWalk (partsOf (unify path)) = w at *
  split
  · rename_i hnil
    have hdot : routeOf (components dot) = ⟨none, 1⟩ := rfl
    rw [hdot]
    have hcases : stackOf w = [] ∨ stackOf w = [[]] :=
      (intercalate_eq_nil_iff _).1 hnil
    have hnamed : named w = 1 := by
      rw [← hwalk]
      rcases hcases with hc | hc <;> rw [hc] <;> rfl
    refine ⟨fun _ => by rw [hnamed], ?_⟩
    rintro ⟨part, o, rfl, hroot, hempty⟩
    rcases hcases with hc | hc
    · simp [stackOf] at hc
    · obtain ⟨rfl, rfl⟩ : part = [] ∧ o = [] := by simpa [stackOf] using hc
      exact absurd rfl (hempty rfl)
  · rename_i hnil
    rw [components, Lines.fields_joined hstack hnil]
    have hnot := fun hc => hnil ((intercalate_eq_nil_iff _).2 hc)
    obtain ⟨part, rest, hs⟩ :=
      List.exists_cons_of_ne_nil (fun hc => hnot (Or.inl hc))
    rw [hs]
    constructor
    · intro hhead
      have hrel : isRootPart part = false := by
        rw [← Bool.not_eq_true]
        intro hroot
        refine hhead ⟨part, rest, eq_of_stackOf_root hs hroot, hroot, ?_⟩
        rintro rfl rfl
        exact hnot (Or.inr hs)
      rw [routeOf_cons_of_relative hrel, ← hs, hwalk]
    · rintro ⟨part', o, rfl, hroot, -⟩
      obtain ⟨rfl, rfl⟩ : part' = part ∧ o = rest := by simpa [stackOf] using hs
      rw [isSome_root_routeOf]
      simpa using hroot

/-- Behind a root, the result is not empty. -/
theorem composed_ne_nil (c : Str) (a : Walk Str) :
    ['/'].intercalate (c :: if stackOf a = [] then [[]] else stackOf a) ≠ [] := by
  rw [Ne, intercalate_eq_nil_iff]
  split
  · simp
  · rename_i hne
    simp [hne]

/-- Where the result of `resolved` leads, for an absolute path: to its root
and from there along the walk of the machine. -/
theorem routeOf_resolved_absolute {path c : Str} {parts : List Str} {r : Root}
    (hp : partsOf (unify path) = c :: parts) (h : rootOf c = some r) :
    routeOf (components (Path.ofStr path).resolved)
      = ⟨some r, named (stackWalk parts)⟩ := by
  have hroot : isRootPart c = true := (isRootPart_iff c).2 ⟨r, h⟩
  have hsep : ∀ part ∈ c :: parts, '/' ∉ part := by
    rw [← hp]
    exact fun part hm => Lines.notMem_of_mem_getlines hm
  have hparts : ∀ part ∈ parts, '/' ∉ part :=
    fun part hm => hsep part (List.mem_cons_of_mem _ hm)
  have hstack := notMem_of_mem_stackOf hparts
  have hrest : ∀ part ∈ c :: (if stackOf (stackWalk parts) = [] then [[]]
      else stackOf (stackWalk parts)), '/' ∉ part := by
    intro part hm
    rcases List.mem_cons.1 hm with rfl | hm
    · exact hsep part (by simp)
    · split at hm
      · rw [List.mem_singleton.1 hm]
        simp
      · exact hstack part hm
  have hne := composed_ne_nil c (stackWalk parts)
  simp only [Path.resolved, Path.ofStr_mPath, hp, resolveLoop_absolute hroot,
    compose_absolute, List.isEmpty_iff, if_neg hne]
  rw [components, Lines.fields_joined hrest hne, routeOf_cons_of_rootOf h,
    ← walkOf_stackOf]
  split
  · rename_i hnil
    rw [hnil]
    rfl
  · rfl

/-! ## The main result -/

/-- `resolved` keeps what the path denotes: the result leads to the same place
from every start directory, and it is absolute when the path is. -/
def KeepsLocation (path : Str) : Prop :=
  (∀ start, location (Path.ofStr path).resolved start
    = location (Path.ofStr path).unifiedPath start) ∧
  (Path.ofStr (Path.ofStr path).resolved).isAbsolute
    = (Path.ofStr path).isAbsolute

/-- What is left on the stack comes from the path, or is a `..`. -/
theorem mem_stackOf {parts : List Str} {part : Str}
    (h : part ∈ stackOf (stackWalk parts)) : part = dotdot ∨ part ∈ parts := by
  rcases List.mem_append.1 h with h | h
  · exact Or.inl (List.mem_replicate.1 h).2
  · obtain ⟨h1, h2⟩ := ne_dots_of_mem_downs h
    obtain ⟨u, v, rfl, -⟩ := (mem_downs_iff h1 h2 parts).1 h
    exact Or.inr (by simp)

/-- The stack at the end of the loop holds only components of the path and
`..`. -/
theorem mem_stack_resolveLoop {parts : List Str} {part : Str}
    (h : part ∈ (resolveLoop ⟨[], 0, false⟩ 0 parts).stack) :
    part = dotdot ∨ part ∈ parts := by
  cases habs : parts.head?.any isRootPart with
  | false =>
    rw [resolveLoop_relative habs] at h
    exact mem_stackOf h
  | true =>
    obtain ⟨c, parts, rfl⟩ : ∃ c cs, parts = c :: cs := by
      cases parts with
      | nil => cases habs
      | cons c cs => exact ⟨c, cs, rfl⟩
    rw [resolveLoop_absolute (by simpa using habs)] at h
    rcases List.mem_cons.1 h with rfl | h
    · exact Or.inr (by simp)
    · exact (mem_stackOf h).imp_right (List.mem_cons_of_mem _)

/-- The result is in unified form again. -/
theorem unify_resolved (p : Path) (h : '\\' ∉ p.mPath) :
    unify p.resolved = p.resolved := by
  apply unify_of_notMem
  unfold Path.resolved
  dsimp only
  split
  · decide
  · intro hmem
    obtain ⟨l, hl, hc⟩ := List.mem_flatten.1 hmem
    obtain ⟨i, hi, rfl⟩ := List.mem_mapIdx.1 hl
    have hpart := mem_stack_resolveLoop (List.getElem_mem hi)
    generalize (resolveLoop ⟨[], 0, false⟩ 0 (partsOf p.mPath)).stack[i] = part
      at hc hpart
    have hin : '\\' ∈ part := by
      split at hc
      · rcases List.mem_append.1 hc with hc | hc
        · exact hc
        · exact absurd hc (by decide)
      · exact hc
    rcases hpart with rfl | hpart
    · exact absurd hin (by decide)
    · exact h (Lines.mem_of_mem_getlines hpart hin)

/-- Two paths that lead to the same place from everywhere agree on whether
they are absolute. -/
theorem isAbsolute_resolved_of_location {path : Str}
    (h : ∀ start, location (Path.ofStr path).resolved start
      = location (Path.ofStr path).unifiedPath start) :
    (Path.ofStr (Path.ofStr path).resolved).isAbsolute
      = (Path.ofStr path).isAbsolute := by
  have hroot := isSome_root_eq_of_forall_lead_eq h
  rw [routeOf_components, routeOf_components, isSome_root_routeOf,
    isSome_root_routeOf] at hroot
  rw [isAbsolute_ofStr, isAbsolute_ofStr,
    unify_resolved _ (backslash_notMem_unify path)]
  exact hroot

/-- `resolved` keeps the location of a path, and whether the path is absolute,
exactly when no `..` of it is lost on an empty component and nothing that reads
as a root comes first in the result. -/
theorem resolved_keepsLocation_iff (path : Str) :
    KeepsLocation path ↔ Faithful (partsOf (Path.ofStr path).unifiedPath) := by
  have hunified : routeOf (components (Path.ofStr path).unifiedPath)
      = routeOf (partsOf (unify path)) := routeOf_components _
  have hsplit : KeepsLocation path ↔
      ∀ start, location (Path.ofStr path).resolved start
        = location (Path.ofStr path).unifiedPath start :=
    ⟨And.left, fun h => ⟨h, isAbsolute_resolved_of_location h⟩⟩
  rw [hsplit]
  simp only [location, hunified]
  show _ ↔ Faithful (partsOf (unify path))
  cases hp : partsOf (unify path) with
  | nil =>
    have hrel : (partsOf (unify path)).head?.any isRootPart = false := by
      rw [hp]
      rfl
    have hnone : ¬ HeadsRoot ([] : List Str) := by
      rintro ⟨u, part, v, h, -⟩
      simp at h
    have hres := (routeOf_resolved_relative hrel).1 (by rwa [hp])
    rw [hp] at hres
    rw [hres]
    exact ⟨fun _ => trivial, fun _ _ => rfl⟩
  | cons c parts =>
    cases hr : rootOf c with
    | some r =>
      have hroot : isRootPart c = true := (isRootPart_iff c).2 ⟨r, hr⟩
      rw [routeOf_resolved_absolute hp hr, routeOf_cons_of_rootOf hr,
        Route.forall_lead_eq_iff_of_root, downs_eq_iff, Faithful, if_pos hroot]
    | none =>
      have hc : isRootPart c = false := (rootOf_eq_none_iff c).1 hr
      have hrel : (partsOf (unify path)).head?.any isRootPart = false := by
        rw [hp]
        simpa using hc
      obtain ⟨hstay, hjump⟩ := routeOf_resolved_relative hrel
      rw [hp] at hstay hjump
      rw [routeOf_cons_of_relative hc, Faithful, if_neg (by simp [hc])]
      by_cases hhead : HeadsRoot (c :: parts)
      · refine ⟨fun h => ?_, fun h => absurd hhead h.2⟩
        have := isSome_root_eq_of_forall_lead_eq h
        rw [hjump hhead] at this
        cases this
      · rw [hstay hhead, Route.forall_lead_eq_iff_of_relative,
          named_eq_walkOf_iff]
        exact ⟨fun h => ⟨h, hhead⟩, And.left⟩

/-- `a//..` leads to the directory it starts from, but `resolved` makes it
`a`: its `..` pops the empty component between the separators. -/
theorem not_keepsLocation_lost_climb : ¬ KeepsLocation "a//..".toList := by
  rintro ⟨h, -⟩
  exact absurd (h ⟨.slash, []⟩) (by decide)

end SysFs
