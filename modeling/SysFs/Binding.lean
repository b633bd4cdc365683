import SysFs.Capture
import SysFs.Command
import SysFs.Lib.Sequence

/-!
# What the redirections of `execCommand` bind to

`execCommand` captures the output of a command by writing ` 2>&fd >&fd` behind its
text.  When the text is a sequence of commands, the shell takes this for a part of
the last one (`Shell.sequenceOf_handedText`).  So the pipe gets what the last
command writes (`Caught`), and what the others write goes where the output of the
caller goes (`Missed`), unless it goes into a pipe to the next command, or the
write end of the pipe is that very descriptor.

`Shell.captures_iff` says when the captured lines are those of the whole sequence
all the same.
-/

namespace SysFs

/-- What a run of the command writes into the pipe of `execCommand`, whose write
end is `fd`. -/
def Shell.pipeText (sh : Shell) (fd : Nat) (ws : List Sh.Write) : Str :=
  match Sh.sequenceOf (sh.handedText fd) with
  | some q => q.received (fun target => target == .shell fd) ws
  | none => []

/-- The write is one of the last command, or it goes to the descriptor `fd`
anyway. -/
def Caught (q : Sh.Sequence) (fd : Nat) (w : Sh.Write) : Prop :=
  w.command = q.last ∨ q.target w.command w.stream = some (.shell fd)

instance (q : Sh.Sequence) (fd : Nat) : DecidablePred (Caught q fd) :=
  fun _ => inferInstanceAs (Decidable (_ ∨ _))

/-- The write goes to the standard output or error, and is not caught. -/
def Missed (q : Sh.Sequence) (fd : Nat) (w : Sh.Write) : Prop :=
  (q.target w.command w.stream).any Sh.isStandard ∧ ¬ Caught q fd w

instance (q : Sh.Sequence) (fd : Nat) : DecidablePred (Missed q fd) :=
  fun _ => inferInstanceAs (Decidable (_ ∧ _))

/-- The text of the writes that are caught. -/
def caughtText (q : Sh.Sequence) (fd : Nat) (ws : List Sh.Write) : Str :=
  Sh.textOf (Caught q fd) ws

/-- The text of the writes that are missed. -/
def missedText (q : Sh.Sequence) (fd : Nat) (ws : List Sh.Write) : Str :=
  Sh.textOf (Missed q fd) ws

variable {q : Sh.Sequence} {fd : Nat} {w : Sh.Write} {sh : Shell}

/-! ## Where the writes go -/

/-- What is caught belongs to the output of the sequence. -/
theorem Caught.isStandard (hplain : q.Plain) (h : Caught q fd w) :
    (q.target w.command w.stream).any Sh.isStandard = true := by
  have hstream : Sh.isStandard (.shell w.stream.number) = true := by
    cases w.stream <;> rfl
  rcases h with hlast | htarget
  · rw [hlast, Sh.Sequence.target_last w.stream q hplain]
    exact hstream
  · rcases Sh.Sequence.target_of_plain w.stream q w.command hplain with hq | hq | hq
    · rw [hq] at htarget
      cases htarget
    · rw [hq] at htarget
      cases htarget
    · rw [hq]
      exact hstream

/-- A write belongs to the output exactly if it is caught or missed. -/
theorem isStandard_iff (hplain : q.Plain) :
    (q.target w.command w.stream).any Sh.isStandard = true ↔ Caught q fd w ∨ Missed q fd w := by
  constructor
  · intro h
    by_cases hcaught : Caught q fd w
    · exact Or.inl hcaught
    · exact Or.inr ⟨h, hcaught⟩
  · rintro (h | h)
    · exact h.isStandard hplain
    · exact h.1

/-- The output is what is caught and what is missed. -/
theorem output_eq (hplain : q.Plain) (fd : Nat) (ws : List Sh.Write) :
    q.output ws = Sh.textOf (fun w => Caught q fd w ∨ Missed q fd w) ws :=
  Sh.textOf_congr (fun _ => isStandard_iff hplain) ws

theorem length_output (hplain : q.Plain) (fd : Nat) (ws : List Sh.Write) :
    (q.output ws).length = (caughtText q fd ws).length + (missedText q fd ws).length := by
  rw [output_eq hplain fd]
  exact Sh.length_textOf_or (fun w hcaught hmissed => hmissed.2 hcaught) ws

/-- What is caught is all of the output exactly if nothing is missed. -/
theorem output_eq_caughtText_iff (hplain : q.Plain) (fd : Nat) (ws : List Sh.Write) :
    q.output ws = caughtText q fd ws ↔ missedText q fd ws = [] := by
  constructor
  · intro h
    have hlen := length_output hplain fd ws
    rw [h] at hlen
    exact List.length_eq_zero_iff.1 (by omega)
  · intro h
    rw [output_eq hplain fd]
    exact Sh.textOf_or_eq_left h

/-- What is caught is in the output. -/
theorem mem_output_of_mem_caughtText (hplain : q.Plain) {ws : List Sh.Write} {c : Char}
    (h : c ∈ caughtText q fd ws) : c ∈ q.output ws := by
  obtain ⟨w, hw, hcaught, hc⟩ := Sh.mem_textOf.1 h
  exact Sh.mem_textOf.2 ⟨w, hw, hcaught.isStandard hplain, hc⟩

/-! ## The text that the shell gets -/

namespace Shell

theorem isDup_dups (fd : Nat) : ∀ d ∈ LibCommand.dups fd, Sh.IsDup d := by
  have hfd : Sh.IsFd (toString fd) :=
    ⟨LibCommand.toString_ne_nil fd, fun c hc => LibCommand.isDigit_of_mem_toString hc⟩
  rw [LibCommand.dups, List.forall_mem_cons, List.forall_mem_singleton]
  exact ⟨⟨List.forall_mem_singleton.2 rfl, hfd⟩, ⟨List.forall_mem_nil _, hfd⟩⟩

/-- What `execCommand` writes behind a sequence belongs to its last command. -/
theorem sequenceOf_handedText (hnull : sh.toDevNull = false)
    (hq : Sh.sequenceOf sh.mCommand = some q) (fd : Nat) :
    Sh.sequenceOf (sh.handedText fd) = some (q.addLast (LibCommand.dups fd)) := by
  have htext : sh.handedText fd
      = sh.mCommand ++ (LibCommand.dups fd).flatMap Sh.dupText := by
    rw [handedText, hnull, if_neg (by decide)]
    simp [LibCommand.dups, Sh.dupText]
  rw [htext]
  exact Sh.sequenceOf_append hq (isDup_dups fd)

/-- The pipe gets what is caught. -/
theorem pipeText_eq (hnull : sh.toDevNull = false)
    (hq : Sh.sequenceOf sh.mCommand = some q) (hplain : q.Plain) (fd : Nat)
    (ws : List Sh.Write) : sh.pipeText fd ws = caughtText q fd ws := by
  simp only [pipeText, sequenceOf_handedText hnull hq fd]
  apply Sh.textOf_congr
  intro w
  by_cases hlast : w.command = q.last
  · rw [hlast, Sh.Sequence.target_addLast_last _ _ q hplain, LibCommand.dups,
      Sh.duplicate_both, toString, Nat.ofDigitChars_ten_toDigits]
    simp [Caught, hlast]
  · rw [Sh.Sequence.target_addLast_of_ne _ _ q _ hlast, Caught, or_iff_right hlast]
    cases q.target w.command w.stream <;> simp

/-- A sequence is not the empty text. -/
theorem mCommand_ne_nil_of_sequence (hq : Sh.sequenceOf sh.mCommand = some q) :
    sh.mCommand ≠ [] := by
  intro hnil
  rw [hnil] at hq
  cases hq

/-! ## The captured lines -/

/-- No captured line has a zero character. -/
theorem zero_notMem_mOutputLines (havail : sh.mShellAvailable = true)
    (hcommand : sh.mCommand ≠ []) (hnull : sh.toDevNull = false) {a : Reads}
    (hpipe : a.pipeOk = true) (hret : a.ret = 0) :
    ∀ line ∈ (sh.execute false a.answer).1.mOutputLines, '\x00' ∉ line := by
  rw [execute_mOutputLines (a := a.answer) havail hcommand hnull hpipe hret]
  intro line hline hmem
  exact zero_notMem_cStrings a.chunks a.tbuf (Lines.mem_of_mem_getlines hline hmem)

/-- Where a sequence of commands succeeds, the captured lines are those of its
whole output exactly if this has no zero character, and the commands before the
last write nothing to it, or only a newline after everything else that terminates
its last line. -/
theorem captures_iff (havail : sh.mShellAvailable = true) (hnull : sh.toDevNull = false)
    (hq : Sh.sequenceOf sh.mCommand = some q) (hplain : q.Plain) (fd : Nat)
    (ws : List Sh.Write) {a : Reads} (hpipe : a.pipeOk = true) (hret : a.ret = 0)
    (hcut : cutText a.chunks = sh.pipeText fd ws) :
    (sh.execute false a.answer).1.mOutputLines = textLines (q.output ws) ↔
      '\x00' ∉ q.output ws ∧
        (missedText q fd ws = [] ∨
          (q.output ws = caughtText q fd ws ++ ['\n'] ∧ caughtText q fd ws ≠ [] ∧
            (caughtText q fd ws).getLast? ≠ some '\n')) := by
  have hcommand := mCommand_ne_nil_of_sequence hq
  rw [pipeText_eq hnull hq hplain fd ws] at hcut
  by_cases hzero : '\x00' ∈ q.output ws
  · -- the zero character is in one of the lines, but it is in no captured line
    constructor
    · intro hlines
      obtain ⟨line, hline, hmem⟩ := Lines.exists_mem_getlines (d := '\n') hzero (by decide)
      rw [getlines_eq_textLines, ← hlines] at hline
      exact absurd hmem (zero_notMem_mOutputLines havail hcommand hnull hpipe hret line hline)
    · intro h
      exact absurd hzero h.1
  · have hcaught : '\x00' ∉ caughtText q fd ws :=
      fun hmem => hzero (mem_output_of_mem_caughtText hplain hmem)
    have hcaptured : (sh.execute false a.answer).1.mOutputLines
        = Lines.getlines '\n' (caughtText q fd ws) := by
      rw [execute_mOutputLines (a := a.answer) havail hcommand hnull hpipe hret, ← hcut]
      exact congrArg _ (flatten_cStrings (hcut ▸ hcaught) a.tbuf)
    have hlen : (caughtText q fd ws).length ≤ (q.output ws).length := by
      rw [length_output hplain fd]
      exact Nat.le_add_right _ _
    rw [hcaptured, ← getlines_eq_textLines, eq_comm, Lines.getlines_eq_getlines_iff hlen,
      output_eq_caughtText_iff hplain]
    exact ⟨fun h => ⟨hzero, h⟩, fun h => h.2⟩

/-- Two commands, of which the first writes nothing. -/
theorem captures_iff_cd :
    (Shell.execute ⟨"cd /tmp && ls".toList, [], [], [], true, true⟩ false
        (Reads.answer ⟨0, ⟨List.replicate maxBufSize '?', List.length_replicate⟩,
          [⟨"f\n".toList, by decide, by decide⟩], true, true⟩)).1.mOutputLines
      = textLines "f\n".toList :=
  (@captures_iff (.cons ⟨["cd".toList, "/tmp".toList], []⟩ .and (.one ⟨["ls".toList], []⟩))
    ⟨"cd /tmp && ls".toList, [], [], [], true, true⟩ rfl rfl rfl (by decide) 4
    [⟨1, .out, "f\n".toList⟩] _ rfl rfl rfl).2 (by decide)

/-- Of `echo a; echo b`, only the output of the second command is captured. -/
theorem not_captures_semi :
    ¬ ∀ (sh : Shell) (q : Sh.Sequence), sh.mShellAvailable = true → sh.toDevNull = false →
      Sh.sequenceOf sh.mCommand = some q → q.Plain →
      ∀ (fd : Nat) (ws : List Sh.Write) (a : Reads), a.pipeOk = true → a.ret = 0 →
        cutText a.chunks = sh.pipeText fd ws →
        (sh.execute false a.answer).1.mOutputLines = textLines (q.output ws) := by
  intro h
  have hlines := h ⟨"echo a; echo b".toList, [], [], [], true, true⟩
    (.cons ⟨["echo".toList, "a".toList], []⟩ .semi (.one ⟨["echo".toList, "b".toList], []⟩))
    rfl rfl rfl (by decide) 4 [⟨0, .out, "a\n".toList⟩, ⟨1, .out, "b\n".toList⟩]
    ⟨0, ⟨List.replicate maxBufSize '?', List.length_replicate⟩,
      [⟨"b\n".toList, by decide, by decide⟩], true, true⟩ rfl rfl rfl
  have hcaptured : (Shell.execute ⟨"echo a; echo b".toList, [], [], [], true, true⟩ false
      (Reads.answer ⟨0, ⟨List.replicate maxBufSize '?', List.length_replicate⟩,
        [⟨"b\n".toList, by decide, by decide⟩], true, true⟩)).1.mOutputLines
      = ["b".toList] := by decide
  rw [hcaptured] at hlines
  exact absurd hlines (by decide)

end Shell

end SysFs
