import Mathlib.Data.List.Basic

/-!
# Calls that move a part

A call that reads or writes may move less than it was asked to, and may fail.
Programs repeat it until everything is moved.  A `Reply` says what the system
makes of one call: it fails, or moves about `n` things, where a read gives at least
one thing as long as there is one.  Failures for which `again` holds are followed by
the same call.

* `writeAll` writes everything.  What was written is always a beginning
  (`writeAll_begins`), and all of it exactly when the loop is complete.
* `readExactly` reads a given number of things, and `readToEnd` everything.
* `writeAll_of_moved` and its like: without failures, as many calls are enough as
  there are things to move.  `readToEnd_of_goes` allows the failures that are retried.
* `readExactly_writeAll`: what is written in some parts and read in others is the
  same.
-/

namespace Partial

variable {α : Type*}

/-- What the system makes of a call. -/
inductive Reply where
  | failed (errno : ℕ)
  | moved (n : ℕ)
deriving DecidableEq, Repr

/-- The call has moved something. -/
def Reply.isMoved : Reply → Bool
  | .failed _ => false
  | .moved _ => true

/-- How a loop has ended, if it has. -/
inductive Ending where
  | running
  | complete
  | failed (errno : ℕ)
  | ended
deriving DecidableEq, Repr

/-- One call that reads at most `asked` things of `src`. -/
def readCall (asked : ℕ) (src : List α) : Reply → Except ℕ (List α)
  | .failed errno => .error errno
  | .moved n => .ok (src.take (min asked (max n 1)))

/-- One call that writes of `left`: how much was written. -/
def writeCall (left : List α) : Reply → Except ℕ ℕ
  | .failed errno => .error errno
  | .moved n => .ok (min n left.length)

variable (again : ℕ → Bool)

/-- After this reply the loop calls again. -/
def Reply.Goes : Reply → Prop
  | .failed errno => again errno = true
  | .moved _ => True

/-- Write all of `left`: what was written, and how it ended. -/
def writeAll : List α → List Reply → List α × Ending
  | [], _ => ([], .complete)
  | _ :: _, [] => ([], .running)
  | c :: left, a :: replies =>
    match writeCall (c :: left) a with
    | .error errno => if again errno then writeAll (c :: left) replies else ([], .failed errno)
    | .ok n =>
      let r := writeAll ((c :: left).drop n) replies
      ((c :: left).take n ++ r.1, r.2)

/-- Read `remaining` things of `src`: what was read, and how it ended. -/
def readExactly : ℕ → List α → List Reply → List α × Ending
  | 0, _, _ => ([], .complete)
  | _ + 1, _, [] => ([], .running)
  | remaining + 1, src, a :: replies =>
    match readCall (remaining + 1) src a with
    | .error errno =>
      if again errno then readExactly (remaining + 1) src replies else ([], .failed errno)
    | .ok [] => ([], .ended)
    | .ok (c :: chunk) =>
      let n := (c :: chunk).length
      let r := readExactly (remaining + 1 - n) (src.drop n) replies
      (c :: chunk ++ r.1, r.2)

/-- Read all of `src`, at most `size` things at once. -/
def readToEnd (size : ℕ) : List α → List Reply → List α × Ending
  | _, [] => ([], .running)
  | src, a :: replies =>
    match readCall size src a with
    | .error errno => if again errno then readToEnd size src replies else ([], .failed errno)
    | .ok [] => ([], .complete)
    | .ok (c :: chunk) =>
      let r := readToEnd size (src.drop (c :: chunk).length) replies
      (c :: chunk ++ r.1, r.2)

variable {again} {left src : List α} {replies : List Reply} {asked size remaining : ℕ}

theorem readCall_eq_nil {n : ℕ} (hasked : 0 < asked)
    (h : readCall asked src (.moved n) = .ok []) : src = [] := by
  rw [readCall, Except.ok.injEq, List.take_eq_nil_iff] at h
  exact h.resolve_left (by omega)

/-- A call gives a beginning of what there is, and not too much. -/
theorem readCall_spec {a : Reply} {chunk : List α} (h : readCall asked src a = .ok chunk) :
    src = chunk ++ src.drop chunk.length ∧ chunk.length ≤ asked := by
  cases a with
  | failed errno => cases h
  | moved n =>
    rw [readCall, Except.ok.injEq] at h
    subst h
    constructor
    · rw [List.length_take]
      rcases Nat.le_total (min asked (max n 1)) src.length with hle | hle
      · rw [Nat.min_eq_left hle, List.take_append_drop]
      · rw [Nat.min_eq_right hle, List.take_of_length_le hle, List.drop_length, List.append_nil]
    · rw [List.length_take]
      omega

/-! ## Writing -/

/-- What was written is a beginning, and everything exactly when the loop is
complete. -/
theorem writeAll_begins (again : ℕ → Bool) (left : List α) (replies : List Reply) :
    ∃ rest, left = (writeAll again left replies).1 ++ rest ∧
      ((writeAll again left replies).2 = .complete ↔ rest = []) := by
  induction replies generalizing left with
  | nil =>
    cases left with
    | nil => exact ⟨[], rfl, by simp [writeAll]⟩
    | cons c left => exact ⟨c :: left, rfl, by simp [writeAll]⟩
  | cons a replies ih =>
    cases left with
    | nil => exact ⟨[], rfl, by simp [writeAll]⟩
    | cons c left =>
      rw [writeAll]
      cases hcall : writeCall (c :: left) a with
      | error errno =>
        dsimp only
        split
        · exact ih (c :: left)
        · exact ⟨c :: left, rfl, by simp⟩
      | ok n =>
        obtain ⟨rest, hrest, hcomplete⟩ := ih ((c :: left).drop n)
        refine ⟨rest, ?_, hcomplete⟩
        dsimp only
        rw [List.append_assoc, ← hrest, List.take_append_drop]

theorem writeAll_complete (h : (writeAll again left replies).2 = .complete) :
    (writeAll again left replies).1 = left := by
  obtain ⟨rest, hrest, hcomplete⟩ := writeAll_begins again left replies
  rw [hcomplete.1 h, List.append_nil] at hrest
  exact hrest.symm

/-- Without failures, as many calls are enough as there are things to write. -/
theorem writeAll_of_moved (hmoved : ∀ a ∈ replies, ∃ n, a = .moved n ∧ 0 < n)
    (hlen : left.length ≤ replies.length) : (writeAll again left replies).2 = .complete := by
  induction replies generalizing left with
  | nil =>
    rw [List.length_eq_zero_iff.1 (Nat.le_zero.1 hlen)]
    rfl
  | cons a replies ih =>
    cases left with
    | nil => rfl
    | cons c left =>
      obtain ⟨n, rfl, hn⟩ := hmoved a List.mem_cons_self
      refine ih (fun a ha => hmoved a (List.mem_cons_of_mem _ ha)) ?_
      simp only [List.length_cons] at hlen
      rw [List.length_drop, List.length_cons]
      omega

/-! ## Reading -/

/-- What was read is a beginning and not too much; it is enough exactly when the
loop is complete; and only the end of what there is ends the loop. -/
theorem readExactly_spec (again : ℕ → Bool) (remaining : ℕ) (src : List α) (replies : List Reply) :
    ∃ rest, src = (readExactly again remaining src replies).1 ++ rest ∧
      (readExactly again remaining src replies).1.length ≤ remaining ∧
      ((readExactly again remaining src replies).2 = .complete ↔
        (readExactly again remaining src replies).1.length = remaining) ∧
      ((readExactly again remaining src replies).2 = .ended →
        rest = [] ∧ (readExactly again remaining src replies).1.length < remaining) := by
  induction replies generalizing remaining src with
  | nil => cases remaining <;> exact ⟨src, rfl, by simp [readExactly]⟩
  | cons a replies ih =>
    cases remaining with
    | zero => exact ⟨src, rfl, by simp [readExactly]⟩
    | succ remaining =>
      rw [readExactly]
      cases hcall : readCall (remaining + 1) src a with
      | error errno =>
        dsimp only
        split
        · exact ih (remaining + 1) src
        · exact ⟨src, rfl, by simp⟩
      | ok chunk =>
        obtain ⟨hsrc, hlen⟩ := readCall_spec hcall
        cases chunk with
        | nil =>
          have hnil : src = [] := by
            cases a with
            | failed errno => cases hcall
            | moved n => exact readCall_eq_nil (Nat.succ_pos _) hcall
          exact ⟨[], hnil, by simp⟩
        | cons c chunk =>
          obtain ⟨rest, hrest, hle, hcomplete, hended⟩ :=
            ih (remaining + 1 - (c :: chunk).length) (src.drop (c :: chunk).length)
          dsimp only
          refine ⟨rest, ?_, ?_, ?_, fun h => ⟨(hended h).1, ?_⟩⟩
          · rw [List.append_assoc, ← hrest]
            exact hsrc
          · rw [List.length_append]
            omega
          · rw [hcomplete, List.length_append]
            omega
          · have hlt := (hended h).2
            rw [List.length_append]
            omega

/-- A complete loop has read the first things. -/
theorem readExactly_complete (h : (readExactly again remaining src replies).2 = .complete) :
    (readExactly again remaining src replies).1 = src.take remaining := by
  obtain ⟨rest, hrest, -, hcomplete, -⟩ := readExactly_spec again remaining src replies
  have hlen := hcomplete.1 h
  generalize (readExactly again remaining src replies).1 = data at hrest hlen
  rw [hrest, ← hlen, List.take_left]

/-- What was read is a beginning, and everything when the loop is complete. -/
theorem readToEnd_begins (again : ℕ → Bool) (hsize : 0 < size) (src : List α)
    (replies : List Reply) :
    ∃ rest, src = (readToEnd again size src replies).1 ++ rest ∧
      ((readToEnd again size src replies).2 = .complete → rest = []) := by
  induction replies generalizing src with
  | nil => exact ⟨src, rfl, by simp [readToEnd]⟩
  | cons a replies ih =>
    rw [readToEnd]
    cases hcall : readCall size src a with
    | error errno =>
      dsimp only
      split
      · exact ih src
      · exact ⟨src, rfl, by simp⟩
    | ok chunk =>
      obtain ⟨hsrc, -⟩ := readCall_spec hcall
      cases chunk with
      | nil =>
        have hnil : src = [] := by
          cases a with
          | failed errno => cases hcall
          | moved n => exact readCall_eq_nil hsize hcall
        exact ⟨[], hnil, by simp⟩
      | cons c chunk =>
        obtain ⟨rest, hrest, hcomplete⟩ := ih (src.drop (c :: chunk).length)
        refine ⟨rest, ?_, hcomplete⟩
        dsimp only
        rw [List.append_assoc, ← hrest]
        exact hsrc

theorem readToEnd_complete (hsize : 0 < size)
    (h : (readToEnd again size src replies).2 = .complete) :
    (readToEnd again size src replies).1 = src := by
  obtain ⟨rest, hrest, hcomplete⟩ := readToEnd_begins again hsize src replies
  rw [hcomplete h, List.append_nil] at hrest
  exact hrest.symm

/-- Without failures other than those after which the loop calls again, one call more
that moves something than there are things is enough. -/
theorem readToEnd_of_goes (hgoes : ∀ a ∈ replies, Reply.Goes again a)
    (hlen : src.length < replies.countP Reply.isMoved) :
    (readToEnd again size src replies).2 = .complete := by
  induction replies generalizing src with
  | nil => cases hlen
  | cons a replies ih =>
    have ih' := fun {src} => @ih src fun a ha => hgoes a (List.mem_cons_of_mem _ ha)
    rw [readToEnd]
    cases a with
    | failed errno =>
      have hagain : again errno = true := hgoes _ List.mem_cons_self
      rw [List.countP_cons_of_neg (by simp [Reply.isMoved])] at hlen
      rw [readCall]
      dsimp only
      rw [if_pos hagain]
      exact ih' hlen
    | moved n =>
      rw [List.countP_cons_of_pos rfl] at hlen
      cases hcall : readCall size src (.moved n) with
      | error errno => cases hcall
      | ok chunk =>
        cases chunk with
        | nil => rfl
        | cons c chunk =>
          obtain ⟨hsrc, -⟩ := readCall_spec hcall
          have hlength := congrArg List.length hsrc
          rw [List.length_append, List.length_cons] at hlength
          refine ih' ?_
          rw [List.length_cons]
          omega

/-- Without failures, as many calls are enough as there are things to read. -/
theorem readExactly_of_moved (hmoved : ∀ a ∈ replies, ∃ n, a = .moved n)
    (hlen : remaining ≤ replies.length) (hsrc : remaining ≤ src.length) :
    (readExactly again remaining src replies).2 = .complete := by
  induction replies generalizing remaining src with
  | nil =>
    rw [Nat.le_zero.1 hlen]
    rfl
  | cons a replies ih =>
    cases remaining with
    | zero => rfl
    | succ remaining =>
      obtain ⟨n, rfl⟩ := hmoved a List.mem_cons_self
      rw [readExactly]
      cases hcall : readCall (remaining + 1) src (.moved n) with
      | error errno => cases hcall
      | ok chunk =>
        cases chunk with
        | nil =>
          rw [readCall_eq_nil (Nat.succ_pos _) hcall] at hsrc
          exact absurd hsrc (Nat.not_succ_le_zero _)
        | cons c chunk =>
          refine ih (fun a ha => hmoved a (List.mem_cons_of_mem _ ha)) ?_ ?_
          · simp only [List.length_cons] at hlen ⊢
            omega
          · rw [List.length_drop, List.length_cons]
            omega

/-- Things that were written, in some parts, are read in other parts as they are. -/
theorem readExactly_writeAll {replies' : List Reply} (more : List α)
    (hwrite : ∀ a ∈ replies, ∃ n, a = .moved n ∧ 0 < n) (hwrites : left.length ≤ replies.length)
    (hread : ∀ a ∈ replies', ∃ n, a = .moved n) (hreads : left.length ≤ replies'.length) :
    readExactly again left.length ((writeAll again left replies).1 ++ more) replies'
      = (left, .complete) := by
  have hcomplete : (writeAll again left replies).2 = .complete := writeAll_of_moved hwrite hwrites
  rw [writeAll_complete hcomplete]
  have hdone : (readExactly again left.length (left ++ more) replies').2 = .complete :=
    readExactly_of_moved hread hreads (by simp)
  refine Prod.ext ?_ hdone
  rw [readExactly_complete hdone, List.take_left]

end Partial
