import Mathlib.Logic.Relation
import Mathlib.Tactic.Linarith

/-!
# The pipe of `Shell::execCommand`

`execCommand` makes a pipe, hands its write end to the command as standard
output and standard error, calls `system`, and reads the pipe after `system`
has returned.  So the parent waits for the child to exit before it reads the
first byte, and the child waits for room in the pipe before it writes the next
one.

`Exec` holds what a run depends on: the capacity of the pipe, the number of
bytes the command writes, and whether it exits with a status other than zero.
`Step` is one step of either process, in any order, and `Reachable` is every
interleaving of them.

* `bytes_conserved`: no byte is lost or made up.
* `Deadlock.stuck`: a run that is blocked stays blocked, so `execCommand` never
  returns.
* `reaches_done`: when the output fits, the parent can always go on to the end.
* `deadlock_free_iff`: so the two processes cannot block each other exactly when
  the output fits into the pipe.
-/

namespace SysFs.Pipe

/-- The size of one `read`: `max_buf_size - 1`. -/
def readSize : Nat := 4095

/-- What a call of `execCommand` depends on. -/
structure Exec where
  capacity : Nat
  output : Nat
  fails : Bool

/-- Where the child is. -/
inductive Child where
  /-- still has `left` bytes to write -/
  | writing (left : Nat)
  | exited
deriving DecidableEq, Repr

/-- Where the parent is. -/
inductive Parent where
  /-- inside `system`, until the child exits -/
  | waiting
  /-- in the loop around `read` -/
  | reading
  /-- past the loop -/
  | done
deriving DecidableEq, Repr

/-- The two processes, the bytes in the pipe, and the bytes read so far. -/
structure State where
  child : Child
  parent : Parent
  inPipe : Nat
  captured : Nat
deriving DecidableEq, Repr

/-- Before the first step. -/
def start (e : Exec) : State := ⟨.writing e.output, .waiting, 0, 0⟩

/-- One step of the child or of the parent. -/
inductive Step (e : Exec) : State → State → Prop
  /-- The child writes some bytes, as many as there is room for. -/
  | write {left k : Nat} {parent : Parent} {inPipe captured : Nat}
      (hpos : 0 < k) (hleft : k ≤ left) (hroom : inPipe + k ≤ e.capacity) :
      Step e ⟨.writing left, parent, inPipe, captured⟩
        ⟨.writing (left - k), parent, inPipe + k, captured⟩
  /-- The child has written everything and exits. -/
  | exit {parent : Parent} {inPipe captured : Nat} :
      Step e ⟨.writing 0, parent, inPipe, captured⟩
        ⟨.exited, parent, inPipe, captured⟩
  /-- `system` returns. -/
  | system {inPipe captured : Nat} :
      Step e ⟨.exited, .waiting, inPipe, captured⟩
        ⟨.exited, .reading, inPipe, captured⟩
  /-- `read` gives what is there, and a failed command is read only once. -/
  | read {child : Child} {inPipe captured : Nat} (hpos : 0 < inPipe) :
      Step e ⟨child, .reading, inPipe, captured⟩
        ⟨child, if e.fails then .done else .reading,
          inPipe - min inPipe readSize, captured + min inPipe readSize⟩
  /-- The read end does not block, so `read` on an empty pipe ends the loop. -/
  | finish {child : Child} {captured : Nat} :
      Step e ⟨child, .reading, 0, captured⟩ ⟨child, .done, 0, captured⟩

/-- The states that some interleaving reaches. -/
def Reachable (e : Exec) (s : State) : Prop :=
  Relation.ReflTransGen (Step e) (start e) s

/-- The child is blocked on a full pipe while the parent still waits for it. -/
def Deadlock (e : Exec) (s : State) : Prop :=
  s.parent = .waiting ∧ s.inPipe = e.capacity ∧
    ∃ left, s.child = .writing left ∧ 0 < left

/-- The bytes that the child still has to write. -/
def Child.left : Child → Nat
  | .writing left => left
  | .exited => 0

/-- The invariant of a run: every byte of the output is still to be written, in
the pipe, or read, and a parent that waits has read nothing. -/
structure Inv (e : Exec) (s : State) : Prop where
  bytes : s.child.left + s.inPipe + s.captured = e.output
  room : s.inPipe ≤ e.capacity
  waiting : s.parent = .waiting → s.captured = 0
  exited : s.parent ≠ .waiting → s.child = .exited

theorem inv_start (e : Exec) : Inv e (start e) where
  bytes := by simp [start, Child.left]
  room := Nat.zero_le _
  waiting _ := rfl
  exited h := absurd rfl h

/-- Every step keeps the invariant. -/
theorem inv_step {e : Exec} {s s' : State} (h : Inv e s) (hs : Step e s s') :
    Inv e s' := by
  obtain ⟨hbytes, hroom, hwaiting, hexited⟩ := h
  cases hs with
  | write hpos hleft hk =>
    simp only [Child.left] at hbytes
    exact ⟨by simp only [Child.left]; omega, hk, hwaiting,
      fun hp => absurd (hexited hp) (by simp)⟩
  | exit => exact ⟨hbytes, hroom, hwaiting, fun _ => rfl⟩
  | system => exact ⟨hbytes, hroom, fun h => (nomatch h), fun _ => rfl⟩
  | read hpos =>
    have hchild := hexited (by simp)
    refine ⟨?_, by dsimp only at *; omega, fun h => ?_, fun _ => hchild⟩
    · dsimp only at *
      omega
    · split at h <;> cases h
  | finish => exact ⟨hbytes, hroom, fun h => (nomatch h), fun _ => hexited (by simp)⟩

/-- The invariant holds in every reachable state. -/
theorem inv_of_reachable {e : Exec} {s : State} (h : Reachable e s) : Inv e s := by
  induction h with
  | refl => exact inv_start e
  | tail _ hs ih => exact inv_step ih hs

/-- No byte is lost or made up, in any interleaving. -/
theorem bytes_conserved {e : Exec} {s : State} (h : Reachable e s) :
    s.child.left + s.inPipe + s.captured = e.output :=
  (inv_of_reachable h).bytes

/-- A deadlock is final: neither process can take a step. -/
theorem Deadlock.stuck {e : Exec} {s s' : State} (h : Deadlock e s) :
    ¬ Step e s s' := by
  obtain ⟨hparent, hfull, left, hchild, hleft⟩ := h
  intro hs
  cases hs with
  | write hpos _ hroom =>
    dsimp only at hfull
    omega
  | exit =>
    obtain rfl := Child.writing.inj hchild
    omega
  | system => cases hchild
  | read => cases hparent
  | finish => cases hparent

/-- Filling the pipe in one write blocks the child, when there is more to
write. -/
theorem reachable_full {e : Exec} (h : e.capacity < e.output) :
    Reachable e ⟨.writing (e.output - e.capacity), .waiting, e.capacity, 0⟩ := by
  rcases Nat.eq_zero_or_pos e.capacity with h0 | hpos
  · have hstart : start e
        = ⟨.writing (e.output - e.capacity), .waiting, e.capacity, 0⟩ := by
      simp [start, h0]
    rw [← hstart]
    exact Relation.ReflTransGen.refl
  · refine Relation.ReflTransGen.single ?_
    have hw : Step e ⟨.writing e.output, .waiting, 0, 0⟩
        ⟨.writing (e.output - e.capacity), .waiting, 0 + e.capacity, 0⟩ :=
      .write hpos (Nat.le_of_lt h) (by omega)
    rwa [Nat.zero_add] at hw

/-- The read loop empties the pipe, or stops after the first read of a command
that failed. -/
theorem reading_reaches_done (e : Exec) (child : Child) :
    ∀ (n inPipe captured : Nat), inPipe ≤ n →
      ∃ s, Relation.ReflTransGen (Step e) ⟨child, .reading, inPipe, captured⟩ s ∧
        s.parent = .done ∧
        (e.fails = false → s.captured = captured + inPipe) := by
  intro n
  induction n with
  | zero =>
    intro inPipe captured h
    obtain rfl := Nat.le_zero.1 h
    exact ⟨_, Relation.ReflTransGen.single .finish, rfl, fun _ => rfl⟩
  | succ n ih =>
    intro inPipe captured h
    rcases Nat.eq_zero_or_pos inPipe with rfl | hpos
    · exact ⟨_, Relation.ReflTransGen.single .finish, rfl, fun _ => rfl⟩
    have hread : Step e ⟨child, .reading, inPipe, captured⟩
        ⟨child, if e.fails then .done else .reading,
          inPipe - min inPipe readSize, captured + min inPipe readSize⟩ :=
      .read hpos
    cases hf : e.fails with
    | true =>
      rw [hf, if_pos rfl] at hread
      exact ⟨_, Relation.ReflTransGen.single hread, rfl, fun h => nomatch h⟩
    | false =>
      rw [hf, if_neg (by simp)] at hread
      have hsize : 0 < readSize := by decide
      obtain ⟨s, hreach, hdone, hcap⟩ :=
        ih (inPipe - min inPipe readSize) (captured + min inPipe readSize) (by omega)
      refine ⟨s, Relation.ReflTransGen.head hread hreach, hdone, fun _ => ?_⟩
      rw [hcap hf]
      omega

/-- When the output fits, every state of every interleaving can go on to the
end of `execCommand`, and a command that succeeded is captured whole. -/
theorem reaches_done {e : Exec} (h : e.output ≤ e.capacity) {s : State}
    (hs : Reachable e s) :
    ∃ s', Relation.ReflTransGen (Step e) s s' ∧ s'.parent = .done ∧
      (s.parent ≠ .done → e.fails = false → s'.captured = e.output) := by
  have hinv := inv_of_reachable hs
  obtain ⟨child, parent, inPipe, captured⟩ := s
  have hreading : ∀ inPipe captured, captured + inPipe = e.output →
      ∃ s', Relation.ReflTransGen (Step e) ⟨.exited, .reading, inPipe, captured⟩ s' ∧
        s'.parent = .done ∧ (e.fails = false → s'.captured = e.output) := by
    intro inPipe captured hsum
    obtain ⟨s', hreach, hdone, hcap⟩ :=
      reading_reaches_done e .exited inPipe inPipe captured (Nat.le_refl _)
    exact ⟨s', hreach, hdone, fun hf => by rw [hcap hf, hsum]⟩
  have hexited : ∀ inPipe, inPipe = e.output →
      ∃ s', Relation.ReflTransGen (Step e) ⟨.exited, .waiting, inPipe, 0⟩ s' ∧
        s'.parent = .done ∧ (e.fails = false → s'.captured = e.output) := by
    intro inPipe hsum
    obtain ⟨s', hreach, hdone, hcap⟩ := hreading inPipe 0 (by omega)
    exact ⟨s', Relation.ReflTransGen.head .system hreach, hdone, hcap⟩
  cases parent with
  | waiting =>
    have hcaptured : captured = 0 := hinv.waiting rfl
    subst hcaptured
    have hbytes := bytes_conserved hs
    cases child with
    | exited =>
      obtain ⟨s', hreach, hdone, hcap⟩ :=
        hexited inPipe (by simp only [Child.left] at hbytes; omega)
      exact ⟨s', hreach, hdone, fun _ => hcap⟩
    | writing left =>
      simp only [Child.left] at hbytes
      obtain ⟨s', hreach, hdone, hcap⟩ := hexited (inPipe + left) (by omega)
      have hall : Relation.ReflTransGen (Step e)
          ⟨.writing left, .waiting, inPipe, 0⟩
          ⟨.writing 0, .waiting, inPipe + left, 0⟩ := by
        rcases Nat.eq_zero_or_pos left with rfl | hpos
        · exact Relation.ReflTransGen.refl
        · have hw : Step e ⟨.writing left, .waiting, inPipe, 0⟩
              ⟨.writing (left - left), .waiting, inPipe + left, 0⟩ :=
            .write hpos (Nat.le_refl _) (by omega)
          rw [Nat.sub_self] at hw
          exact Relation.ReflTransGen.single hw
      exact ⟨s', hall.trans (Relation.ReflTransGen.head .exit hreach), hdone,
        fun _ => hcap⟩
  | reading =>
    have hchild : child = .exited := hinv.exited (by simp)
    subst hchild
    obtain ⟨s', hreach, hdone, hcap⟩ := hreading inPipe captured (by
      have hbytes := bytes_conserved hs
      simp only [Child.left] at hbytes
      omega)
    exact ⟨s', hreach, hdone, fun _ => hcap⟩
  | done => exact ⟨_, Relation.ReflTransGen.refl, rfl, fun hp => absurd rfl hp⟩

/-- `execCommand` cannot deadlock on its own pipe exactly when the output of
the command fits into the pipe. -/
theorem deadlock_free_iff (e : Exec) :
    (∀ s, Reachable e s → ¬ Deadlock e s) ↔ e.output ≤ e.capacity := by
  constructor
  · intro h
    by_contra hlt
    have hlt' : e.capacity < e.output := Nat.lt_of_not_le hlt
    exact h _ (reachable_full hlt')
      ⟨rfl, rfl, e.output - e.capacity, rfl, by omega⟩
  · intro hle s hs hdead
    obtain ⟨s', hreach, hdone, -⟩ := reaches_done hle hs
    -- A blocked state goes nowhere, but the parent comes to its end.
    rcases Relation.ReflTransGen.cases_head hreach with rfl | ⟨t, ht, -⟩
    · rw [hdead.1] at hdone
      cases hdone
    · exact hdead.stuck ht

/-- One byte more than the pipe of Linux holds blocks both processes. -/
theorem not_deadlock_free_of_large_output :
    ¬ ∀ s, Reachable ⟨65536, 65537, false⟩ s → ¬ Deadlock ⟨65536, 65537, false⟩ s :=
  fun h => h _ (reachable_full (by decide)) ⟨rfl, rfl, 1, rfl, by decide⟩

end SysFs.Pipe
