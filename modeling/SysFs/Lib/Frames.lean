import Mathlib.Data.List.Basic
import Mathlib.Data.Nat.Notation
import Mathlib.Tactic.Common

/-!
# Frames in a stream

A frame is a header of a fixed size and a body whose size the header announces.
`Framing.cut` takes the first frame off a sequence, and `Framing.frames` all of
them, with the incomplete one that is left at the end.

* `cut_eq_some_iff`: what a frame is, without the arithmetic.
* `cut_append`: what comes later does not change a frame that is complete, so a stream
  can be cut into frames as it arrives.
* `Framing.Begins` says which frames a stream begins with, and what comes then.
* `Framing.Call` is one call of a reader that keeps what it has read in a queue
  of bounded size until it is a frame.  `Framing.Calls` is a sequence of them.
* `Calls.begins`: what was read, and what comes then, begins with the frames that
  the calls have given, and goes on with the queue.
* `Calls.given_begins`: behind a header that announces too much, no call gives a
  frame.
-/

/-- How a stream is cut: the size of a header, and the size of the body that a
header announces. -/
structure Framing (β : Type*) where
  header : ℕ
  header_pos : 0 < header
  size : List β → ℕ

namespace Framing

variable {β : Type*} (F : Framing β)

/-- The body of the first frame, and what comes after it. -/
def cut (bs : List β) : Option (List β × List β) :=
  if bs.length < F.header then none
  else
    let n := F.size (bs.take F.header)
    if bs.length < F.header + n then none
    else some ((bs.drop F.header).take n, bs.drop (F.header + n))

variable {F} {bs more r rest : List β}

/-- A frame is a header and a body of the size that the header announces. -/
theorem cut_eq_some_iff : F.cut bs = some (r, rest) ↔
    ∃ h, h.length = F.header ∧ F.size h = r.length ∧ bs = h ++ r ++ rest := by
  unfold cut
  constructor
  · intro hcut
    split at hcut
    · cases hcut
    rename_i hheader
    dsimp only at hcut
    split at hcut
    · cases hcut
    rename_i hbody
    obtain ⟨rfl, rfl⟩ := Prod.mk.inj (Option.some.inj hcut)
    refine ⟨bs.take F.header, ?_, ?_, ?_⟩
    · rw [List.length_take]
      omega
    · rw [List.length_take, List.length_drop]
      omega
    · rw [List.append_assoc, ← List.drop_drop, List.take_append_drop, List.take_append_drop]
  · rintro ⟨h, hheader, hsize, rfl⟩
    have htake : (h ++ r ++ rest).take F.header = h := by
      rw [List.append_assoc, ← hheader, List.take_left]
    have hdrop : (h ++ r ++ rest).drop F.header = r ++ rest := by
      rw [List.append_assoc, ← hheader, List.drop_left]
    have hlen : (h ++ r ++ rest).length = F.header + r.length + rest.length := by
      rw [List.length_append, List.length_append, hheader]
    have htail : (h ++ r ++ rest).drop (F.header + r.length) = rest := by
      rw [← List.drop_drop, hdrop, List.drop_left]
    rw [htake, hsize, hdrop, if_neg (by omega)]
    dsimp only
    rw [if_neg (by omega), List.take_left, htail]

/-- A frame is not empty. -/
theorem length_of_cut (h : F.cut bs = some (r, rest)) :
    bs.length = F.header + r.length + rest.length := by
  obtain ⟨hd, hlen, -, rfl⟩ := cut_eq_some_iff.1 h
  rw [List.length_append, List.length_append, hlen]

theorem length_rest_lt (h : F.cut bs = some (r, rest)) : rest.length < bs.length := by
  have hlen := length_of_cut h
  have hpos := F.header_pos
  omega

/-- What comes later does not change the first frame. -/
theorem cut_append (h : F.cut bs = some (r, rest)) (more : List β) :
    F.cut (bs ++ more) = some (r, rest ++ more) := by
  obtain ⟨hd, hlen, hsize, rfl⟩ := cut_eq_some_iff.1 h
  exact cut_eq_some_iff.2 ⟨hd, hlen, hsize, List.append_assoc _ _ _⟩

@[simp] theorem cut_nil : F.cut ([] : List β) = none := by
  rw [cut, if_pos]
  exact F.header_pos

/-- Where no frame is complete, the header is not there, or it announces more than
there is. -/
theorem cut_eq_none_iff : F.cut bs = none ↔
    bs.length < F.header ∨ bs.length < F.header + F.size (bs.take F.header) := by
  unfold cut
  split
  · rename_i hheader
    exact iff_of_true rfl (Or.inl hheader)
  · rename_i hheader
    dsimp only
    split
    · rename_i hbody
      exact iff_of_true rfl (Or.inr hbody)
    · rename_i hbody
      exact iff_of_false (Option.some_ne_none _) (not_or.2 ⟨hheader, hbody⟩)

/-! ## All frames -/

variable (F) in
/-- The bodies of all complete frames, and what is left. -/
def frames (bs : List β) : List (List β) × List β :=
  match _ : F.cut bs with
  | none => ([], bs)
  | some (r, rest) => (r :: (frames rest).1, (frames rest).2)
termination_by bs.length
decreasing_by all_goals exact length_rest_lt ‹_›

theorem frames_of_none (h : F.cut bs = none) : F.frames bs = ([], bs) := by
  rw [frames]
  split
  · rfl
  · rename_i hsome
    rw [h] at hsome
    cases hsome

theorem frames_of_some (h : F.cut bs = some (r, rest)) :
    F.frames bs = (r :: (F.frames rest).1, (F.frames rest).2) := by
  rw [frames]
  split
  · rename_i hnone
    rw [h] at hnone
    cases hnone
  · rename_i hsome
    rw [h] at hsome
    obtain ⟨rfl, rfl⟩ := Prod.mk.inj (Option.some.inj hsome)
    rfl

/-! ## The frames that a stream begins with -/

/-- The stream begins with these frames, and goes on with `rest`. -/
inductive Begins {β : Type*} (F : Framing β) : List β → List (List β) → List β → Prop
  | nil (bs : List β) : Begins F bs [] bs
  | cons {bs r rest rest' : List β} {rs : List (List β)} (hcut : F.cut bs = some (r, rest))
      (h : Begins F rest rs rest') : Begins F bs (r :: rs) rest'

variable {rs rs' : List (List β)} {rest' : List β}

theorem Begins.frames (h : F.Begins bs rs rest) :
    F.frames bs = (rs ++ (F.frames rest).1, (F.frames rest).2) := by
  induction h with
  | nil bs => rfl
  | cons hcut h ih =>
    rw [frames_of_some hcut, ih]
    rfl

theorem Begins.trans (h : F.Begins bs rs rest) (h' : F.Begins rest rs' rest') :
    F.Begins bs (rs ++ rs') rest' := by
  induction h with
  | nil bs => exact h'
  | cons hcut h ih => exact .cons hcut (ih h')

theorem Begins.eq_of_nil (h : F.Begins bs [] rest) : bs = rest := by
  cases h with
  | nil => rfl

/-- A stream without a complete frame begins with none. -/
theorem Begins.eq_nil (h : F.Begins bs rs rest) (hcut : F.cut bs = none) : rs = [] := by
  cases h with
  | nil => rfl
  | cons hsome h =>
    rw [hcut] at hsome
    cases hsome

theorem Begins.length_le (h : F.Begins bs rs rest) : rest.length ≤ bs.length := by
  induction h with
  | nil bs => exact Nat.le_refl _
  | cons hcut h ih => exact Nat.le_trans ih (Nat.le_of_lt (length_rest_lt hcut))

/-- Of two beginnings of a stream, one goes on where the other ends. -/
theorem Begins.prefix_or (h : F.Begins bs rs rest) (h' : F.Begins bs rs' rest') :
    (∃ ts, rs' = rs ++ ts ∧ F.Begins rest ts rest') ∨
      ∃ t ts, rs = rs' ++ t :: ts ∧ F.Begins rest' (t :: ts) rest := by
  induction h generalizing rs' with
  | nil bs => exact Or.inl ⟨rs', rfl, h'⟩
  | @cons bs r rest₁ rest rs hcut h ih =>
    cases h' with
    | nil => exact Or.inr ⟨r, rs, rfl, .cons hcut h⟩
    | cons hcut' h' =>
      rw [hcut] at hcut'
      obtain ⟨rfl, rfl⟩ := Prod.mk.inj (Option.some.inj hcut')
      rcases ih h' with ⟨ts, rfl, hts⟩ | ⟨t, ts, rfl, hts⟩
      · exact Or.inl ⟨ts, rfl, hts⟩
      · exact Or.inr ⟨t, ts, rfl, hts⟩

/-- A stream begins with the frames that were written to it. -/
theorem begins_flatMap {enc : List β → List β} (henc : ∀ r ∈ rs, ∀ rest,
    F.cut (enc r ++ rest) = some (r, rest)) (rest : List β) :
    F.Begins (rs.flatMap enc ++ rest) rs rest := by
  induction rs with
  | nil => exact .nil rest
  | cons r rs ih =>
    rw [List.flatMap_cons, List.append_assoc]
    exact .cons (henc r List.mem_cons_self _) (ih fun r' hr' => henc r' (List.mem_cons_of_mem _ hr'))

/-! ## A reader with a bounded queue -/

/-- What one call of a reader gives. -/
inductive Outcome (β ε : Type*) where
  | frame (r : List β)
  /-- no frame is complete yet -/
  | again
  /-- the stream has ended -/
  | ended
  | failed (e : ε)
  /-- the queue is full, and no frame is complete -/
  | tooLarge
deriving DecidableEq, Repr

/-- The frame that an outcome gives. -/
def Outcome.given {ε : Type*} : Outcome β ε → Option (List β)
  | .frame r => some r
  | _ => none

/-- One call: the queue before it, what it gives, what it reads, and the queue
after it.  It reads only when the queue holds no complete frame, and only what
there is room for. -/
inductive Call {β ε : Type*} (F : Framing β) (capacity : ℕ) :
    List β → Outcome β ε → List β → List β → Prop
  | ready {q r rest : List β} (hcut : F.cut q = some (r, rest)) :
      Call F capacity q (.frame r) [] rest
  | tooLarge {q : List β} (hcut : F.cut q = none) (hfull : capacity ≤ q.length) :
      Call F capacity q .tooLarge [] q
  | failed {q : List β} (e : ε) (hcut : F.cut q = none) (hroom : q.length < capacity) :
      Call F capacity q (.failed e) [] q
  | ended {q : List β} (hcut : F.cut q = none) (hroom : q.length < capacity) :
      Call F capacity q .ended [] q
  | completed {q got r rest : List β} (hcut : F.cut q = none) (hgot : got ≠ [])
      (hroom : q.length + got.length ≤ capacity) (hnext : F.cut (q ++ got) = some (r, rest)) :
      Call F capacity q (.frame r) got rest
  | again {q got : List β} (hcut : F.cut q = none) (hgot : got ≠ [])
      (hroom : q.length + got.length ≤ capacity) (hnext : F.cut (q ++ got) = none) :
      Call F capacity q .again got (q ++ got)

/-- Some calls, one after the other. -/
inductive Calls {β ε : Type*} (F : Framing β) (capacity : ℕ) :
    List β → List (Outcome β ε) → List β → List β → Prop
  | nil (q : List β) : Calls F capacity q [] [] q
  | cons {q q₁ q₂ got got' : List β} {out : Outcome β ε} {outs : List (Outcome β ε)}
      (hcall : F.Call capacity q out got q₁) (hcalls : Calls F capacity q₁ outs got' q₂) :
      Calls F capacity q (out :: outs) (got ++ got') q₂

variable {ε : Type*} {q q' got got' : List β} {out : Outcome β ε} {outs : List (Outcome β ε)}
  {capacity : ℕ}

/-- One call takes the frame that it gives from the start. -/
theorem Call.begins (h : F.Call capacity q out got q') (more : List β) :
    F.Begins (q ++ (got ++ more)) out.given.toList (q' ++ more) := by
  cases h with
  | ready hcut => exact .cons (cut_append hcut more) (.nil _)
  | tooLarge hcut hfull => exact .nil _
  | failed e hcut hroom => exact .nil _
  | ended hcut hroom => exact .nil _
  | completed hcut hgot hroom hnext =>
    rw [← List.append_assoc]
    exact .cons (cut_append hnext more) (.nil _)
  | again hcut hgot hroom hnext =>
    rw [← List.append_assoc]
    exact .nil _

/-- The calls lose no frame, and give none twice or in another order. -/
theorem Calls.begins (h : F.Calls capacity q outs got q') (more : List β) :
    F.Begins (q ++ (got ++ more)) (outs.filterMap Outcome.given) (q' ++ more) := by
  induction h with
  | nil q => exact .nil _
  | @cons q q₁ q₂ got got' out outs hcall hcalls ih =>
    have hbegins := (hcall.begins (got' ++ more)).trans ih
    rw [List.append_assoc]
    cases out <;> exact hbegins

theorem Call.length_le (h : F.Call capacity q out got q') (hq : q.length ≤ capacity) :
    q'.length ≤ capacity := by
  cases h with
  | ready hcut => exact Nat.le_trans (Nat.le_of_lt (length_rest_lt hcut)) hq
  | tooLarge => exact hq
  | failed => exact hq
  | ended => exact hq
  | completed hcut hgot hroom hnext =>
    have hlt := length_rest_lt hnext
    rw [List.length_append] at hlt
    omega
  | again hcut hgot hroom hnext => rwa [List.length_append]

theorem Calls.length_le (h : F.Calls capacity q outs got q') (hq : q.length ≤ capacity) :
    q'.length ≤ capacity := by
  induction h with
  | nil q => exact hq
  | cons hcall hcalls ih => exact ih (hcall.length_le hq)

/-! ## Progress -/

/-- The outcomes after which the reader is called again. -/
def Outcome.goesOn : Outcome β ε → Bool
  | .frame _ => true
  | .again => true
  | _ => false

/-- A call that goes on gives a frame, or it reads something. -/
theorem Call.progress (h : F.Call capacity q out got q') (hgoes : out.goesOn = true) :
    1 + q'.length ≤ out.given.toList.length + q'.length + got.length ∧
      out.given.toList.length + q'.length ≤ q.length + got.length := by
  cases h with
  | ready hcut =>
    have hlt := length_rest_lt hcut
    refine ⟨Nat.le_add_right _ _, ?_⟩
    show 1 + _ ≤ _
    omega
  | tooLarge => cases hgoes
  | failed => cases hgoes
  | ended => cases hgoes
  | completed hcut hgot hroom hnext =>
    have hlt := length_rest_lt hnext
    rw [List.length_append] at hlt
    refine ⟨Nat.le_add_right _ _, ?_⟩
    show 1 + _ ≤ _
    omega
  | again hcut hgot hroom hnext =>
    have hpos := List.length_pos_iff.2 hgot
    rw [List.length_append]
    constructor
    · omega
    · exact Nat.le_of_eq (Nat.zero_add _)

/-- As many calls as that have taken the reader to the end, or one has failed. -/
theorem Calls.length_outs_le (h : F.Calls capacity q outs got q')
    (hgoes : ∀ out ∈ outs, out.goesOn = true) :
    outs.length + q'.length ≤ q.length + 2 * got.length := by
  have hboth : outs.length ≤ (outs.filterMap Outcome.given).length + got.length ∧
      (outs.filterMap Outcome.given).length + q'.length ≤ q.length + got.length := by
    induction h with
    | nil q => simp
    | @cons q q₁ q₂ got got' out outs hcall hcalls ih =>
      obtain ⟨houts, hgiven⟩ := ih fun o ho => hgoes o (List.mem_cons_of_mem _ ho)
      obtain ⟨hread, hcut⟩ := hcall.progress (hgoes out List.mem_cons_self)
      have hlen : ((out :: outs).filterMap Outcome.given).length
          = out.given.toList.length + (outs.filterMap Outcome.given).length := by
        rw [List.filterMap_cons]
        cases out <;> simp [Outcome.given, Nat.add_comm]
      rw [hlen, List.length_cons, List.length_append]
      omega
  omega

/-! ## Frames that do not fit -/

variable (F) in
/-- The header at the start of the queue announces a frame that is larger than the
queue can be. -/
def Oversized (capacity : ℕ) (q : List β) : Prop :=
  F.header ≤ q.length ∧ capacity < F.header + F.size (q.take F.header)

/-- A stream with such a header begins with no frame that fits. -/
theorem Oversized.not_cut (h : F.Oversized capacity (q ++ more)) (hq : q.length ≤ capacity) :
    F.cut q ≠ some (r, rest) := by
  intro hcut
  obtain ⟨hd, hlen, hsize, rfl⟩ := cut_eq_some_iff.1 hcut
  have hover := h.2
  rw [List.append_assoc, List.append_assoc, ← hlen, List.take_left, hsize] at hover
  rw [List.length_append, List.length_append] at hq
  omega

/-- Before such a header, a call gives nothing. -/
theorem Call.of_oversized (h : F.Call capacity q out got q')
    (hover : F.Oversized capacity (q ++ (got ++ more))) (hq : q.length ≤ capacity) :
    out.given = none := by
  cases h with
  | ready hcut => exact absurd hcut (hover.not_cut hq)
  | tooLarge => rfl
  | failed => rfl
  | ended => rfl
  | completed hcut hgot hroom hnext =>
    rw [← List.append_assoc] at hover
    exact absurd hnext (hover.not_cut (by rwa [List.length_append]))
  | again => rfl

/-- Before such a header, no call gives a frame: the reader never gets past it. -/
theorem Calls.given_begins (h : F.Calls capacity q outs got q') (hq : q.length ≤ capacity)
    (hbegins : F.Begins (q ++ (got ++ more)) rs rest) (hover : F.Oversized capacity rest) :
    outs.filterMap Outcome.given <+: rs := by
  induction h generalizing rs with
  | nil q => exact List.nil_prefix
  | @cons q q₁ q₂ got got' out outs hcall hcalls ih =>
    rw [List.append_assoc] at hbegins
    have hfirst := hcall.begins (got' ++ more)
    rcases hfirst.prefix_or hbegins with ⟨ts, rfl, hts⟩ | ⟨t, ts, hgiven, hts⟩
    · have hbegin := ih (hcall.length_le hq) hts
      cases hout : out.given with
      | none =>
        rw [List.filterMap_cons, hout]
        exact hbegin
      | some r =>
        rw [List.filterMap_cons, hout]
        exact List.cons_prefix_cons.2 ⟨rfl, hbegin⟩
    · -- the call gives more than the frames before the header
      have hnil : rs = [] ∧ t :: ts = out.given.toList := by
        cases hout : out.given with
        | none =>
          rw [hout] at hgiven
          simp at hgiven
        | some r =>
          rw [hout] at hgiven
          cases rs with
          | nil => exact ⟨rfl, hgiven.symm⟩
          | cons r' rs => simp at hgiven
      obtain ⟨rfl, hgiven⟩ := hnil
      cases hbegins with
      | nil =>
        rw [hcall.of_oversized hover hq] at hgiven
        cases hgiven

/-- The reader complains only about such a header. -/
theorem Call.oversized (h : F.Call capacity q (.tooLarge : Outcome β ε) got q')
    (hheader : F.header ≤ capacity) : F.Oversized capacity q := by
  cases h with
  | tooLarge hcut hfull =>
    rcases cut_eq_none_iff.1 hcut with hshort | hlong
    · omega
    · exact ⟨Nat.le_trans hheader hfull, Nat.lt_of_le_of_lt hfull hlong⟩

end Framing
