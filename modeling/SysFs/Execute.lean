import SysFs.Methods

/-!
# Running the commands of `libfs`

`execCommand` gives a text to the shell, and the shell runs what it reads.  When
the arguments are plain, that is the command that is meant
(`LibCommand.readCommand_of_plainArgs`), so the outcome of `execCommand` is the
one of the command itself, provided that there is a shell and a pipe.
-/

namespace SysFs

open Posix

namespace FsObject

variable {sys : System} {w : World}

/-- Whether `execCommand` gets as far as calling `system`. -/
def CanExecute (sys : System) (w : World) : Prop :=
  sys.shellAvailable = true ∧ sys.pipe w.clock ≠ none

instance (sys : System) (w : World) : Decidable (CanExecute sys w) :=
  inferInstanceAs (Decidable (_ ∧ _))

theorem mShellAvailable_ofCommand (available : Bool) (command : Str) :
    (Shell.ofCommand available command).mShellAvailable = available := by
  unfold Shell.ofCommand Shell.updateCommand
  dsimp only
  split
  · split <;> rfl
  · rfl

theorem mCommand_ne_nil {c : LibCommand} (h : c.PlainArgs) : c.shell.mCommand ≠ [] := by
  rw [(LibCommand.shell_of_plainArgs h).1]
  cases c <;> exact List.cons_ne_nil _ _

/-- A plain word has no backslash, so unifying changes nothing. -/
theorem unify_of_plainWord {s : Str} (h : Sh.PlainWord s) : unify s = s :=
  unify_of_notMem fun hmem => absurd (h.isOrdinary _ hmem) (by decide)

/-- Without a shell or a pipe, nothing is run. -/
theorem execCommand_of_not_canExecute {c : LibCommand} (hplain : c.PlainArgs)
    (h : ¬ CanExecute sys w) :
    (execCommand sys w c.text).ok = false ∧ (execCommand sys w c.text).world = w := by
  unfold execCommand runShell
  cases havail : sys.shellAvailable with
  | false =>
    have hsh : (Shell.ofCommand false c.text).mShellAvailable = false :=
      mShellAvailable_ofCommand false c.text
    rw [if_pos (by simp [hsh])]
    refine ⟨?_, rfl⟩
    simp [Shell.execute, Shell.execCommand, hsh]
  | true =>
    have hpipe : sys.pipe w.clock = none := by
      by_contra hne
      exact h ⟨havail, hne⟩
    have hout := (LibCommand.shell_of_plainArgs hplain).2
    have hshell : Shell.ofCommand true c.text = c.shell := rfl
    rw [hshell, if_pos (by simp [Shell.toDevNull_of_noOutput hout, hpipe])]
    refine ⟨?_, rfl⟩
    have hstatus := Shell.execute_mExecStatus (mShellAvailable_ofCommand true c.text)
      (mCommand_ne_nil hplain) ⟨1, [], false, false⟩
    rw [hshell, Shell.toDevNull_of_noOutput hout] at hstatus
    exact hstatus

/-- The outcome of a plain command is the one of the text that the shell gets,
and its output is cut into lines. -/
theorem execCommand_of_run {c : LibCommand} (hplain : c.PlainArgs) {fd : Nat}
    {r : Bool × World × Str} (havail : sys.shellAvailable = true)
    (hfd : sys.pipe w.clock = some fd) (hrun : sys.run w (c.shell.handedText fd) = r) :
    (execCommand sys w c.text).ok = r.1 ∧ (execCommand sys w c.text).world = r.2.1 ∧
      (r.1 = true → (execCommand sys w c.text).lines = Lines.getlines '\n' r.2.2) := by
  have hout := (LibCommand.shell_of_plainArgs hplain).2
  have hsh : c.shell.mShellAvailable = true := mShellAvailable_ofCommand true c.text
  have hne := mCommand_ne_nil hplain
  have hshell : Shell.ofCommand true c.text = c.shell := rfl
  unfold execCommand runShell
  rw [havail, hshell, if_neg (by simp [hsh, hne, hfd])]
  simp only [hfd, Option.getD_some, hrun, hout, List.isEmpty_nil, Bool.not_true,
    Bool.false_eq_true, false_and, and_false, if_false, Option.isSome_none]
  rw [Shell.execute_mExecStatus hsh hne, Shell.toDevNull_of_noOutput hout]
  refine ⟨by cases r.1 <;> rfl, trivial, fun hok => ?_⟩
  rw [Shell.execute_mOutputLines hsh hne (Shell.toDevNull_of_noOutput hout) rfl
    (by simp [hok])]
  simp

/-- A plain command is run as it is meant. -/
theorem execCommand_of_canExecute {c : LibCommand} (hplain : c.PlainArgs)
    (h : CanExecute sys w) {r : Bool × World × Str} (hr : sys.command w c.argv = some r) :
    (execCommand sys w c.text).ok = r.1 ∧ (execCommand sys w c.text).world = r.2.1 ∧
      (r.1 = true → (execCommand sys w c.text).lines = Lines.getlines '\n' r.2.2) := by
  obtain ⟨havail, hpipe⟩ := h
  obtain ⟨fd, hfd⟩ := Option.ne_none_iff_exists'.1 hpipe
  exact execCommand_of_run hplain havail hfd
    (System.run_of_command (LibCommand.readCommand_of_plainArgs hplain fd) hr)

/-- A plain command that is not modelled does what the system says. -/
theorem execCommand_of_other {c : LibCommand} (hplain : c.PlainArgs) {fd : Nat}
    (havail : sys.shellAvailable = true) (hfd : sys.pipe w.clock = some fd)
    (hr : sys.command w c.argv = none) :
    (execCommand sys w c.text).ok = (sys.other (c.shell.handedText fd) w).1 ∧
      (execCommand sys w c.text).world
        = System.changed w (sys.other (c.shell.handedText fd) w).2.1 := by
  have hrun : sys.run w (c.shell.handedText fd) = ((sys.other (c.shell.handedText fd) w).1,
      System.changed w (sys.other (c.shell.handedText fd) w).2.1,
      (sys.other (c.shell.handedText fd) w).2.2) := by
    have hnone : ((Sh.readCommand (c.shell.handedText fd)).bind
        fun c => sys.command w c.argv) = none := by
      rw [LibCommand.readCommand_of_plainArgs hplain fd]
      exact hr
    rw [System.run, hnone]
  obtain ⟨hok, hworld, -⟩ := execCommand_of_run hplain havail hfd hrun
  exact ⟨hok, hworld⟩

/-- What `mv` does through the shell. -/
theorem execCommand_move (sys : System) (w : World) {a b : Str}
    (hplain : (LibCommand.move a b).PlainArgs) :
    (execCommand sys w (LibCommand.move a b).text).ok
        = (decide (CanExecute sys w) && (sys.mv w a b).isSome) ∧
      (execCommand sys w (LibCommand.move a b).text).world
        = if CanExecute sys w then (sys.mv w a b).getD w else w := by
  by_cases hcan : CanExecute sys w
  · have hcommand : sys.command w (LibCommand.move a b).argv
        = some ((sys.mv w a b).isSome, (sys.mv w a b).getD w, []) := rfl
    obtain ⟨hok, hworld, -⟩ := execCommand_of_canExecute hplain hcan hcommand
    rw [if_pos hcan, decide_eq_true hcan, Bool.true_and]
    exact ⟨hok, hworld⟩
  · obtain ⟨hok, hworld⟩ := execCommand_of_not_canExecute hplain hcan
    rw [if_neg hcan, decide_eq_false hcan, Bool.false_and]
    exact ⟨hok, hworld⟩

end FsObject

end SysFs
