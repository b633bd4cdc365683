import SysFs.History

/-!
# The output file of a command

`execCommand` keeps the lines of the output, and writes them to the file at the
output path.  A line that fills the buffer of the read loop gets no newline
there, so it runs into the next line, and a file that cannot be opened is only
logged.  `agrees_iff` says when the file and the captured lines agree all the
same.
-/

namespace SysFs

namespace Shell

/-- What `fileContent` writes is read back exactly if every line but the last is
shorter than the buffer. -/
theorem getlines_fileContent_iff {lines : List Str} (h : ∀ line ∈ lines, '\n' ∉ line) :
    Lines.getlines '\n' (fileContent lines) = lines ↔
      ∀ line ∈ lines.dropLast, line.length < 4095 :=
  Lines.getlines_writeLines_iff (p := fun line => line.length < 4095) (by decide) h

/-- What is in the file at the output path after an execution, where `stale` is
what the command itself has left there. -/
def outFile (sh : Shell) (toDevNull : Bool) (a : Answer) (stale : Option Str) : Option Str :=
  match (sh.execute toDevNull a).2 with
  | some (_, content) => some content
  | none => stale

/-- The file at the output path holds the captured lines. -/
def Agrees (sh : Shell) (toDevNull : Bool) (a : Answer) (stale : Option Str) : Prop :=
  ∃ content, sh.outFile toDevNull a stale = some content ∧
    Lines.getlines '\n' content = (sh.execute toDevNull a).1.mOutputLines

variable {sh : Shell} {toDevNull : Bool} {a : Answer}

/-- An execution that succeeds with an output path other than `/dev/null` keeps
the lines of the output, and writes them if the file can be opened. -/
theorem execCommand_of_success (hok : (sh.execCommand a).1.mExecStatus = true)
    (hout : sh.mOutputPath ≠ []) (hnull : ¬ "/dev/null".toList <:+: sh.mOutputPath) :
    (sh.execCommand a).1.mOutputLines = Lines.getlines '\n' a.chunks.flatten ∧
      (sh.execCommand a).2 = if a.fopenOk then
        some (sh.mOutputPath, fileContent (Lines.getlines '\n' a.chunks.flatten)) else none := by
  obtain ⟨command, out, lines, msg, status, avail⟩ := sh
  have hdev : ∀ l m s v, (Shell.mk command out l m s v).toDevNull = false := by
    intro l m s v
    rw [toDevNull, decide_eq_false hnull, Bool.and_false]
  have hempty : out.isEmpty = false := by simpa using hout
  unfold execCommand at hok ⊢
  simp only [hdev, hempty] at hok ⊢
  cases avail with
  | false => simp at hok
  | true =>
    cases hcommand : command.isEmpty with
    | true => simp [hcommand] at hok
    | false =>
      cases hpipe : a.pipeOk with
      | false => simp [hcommand, hpipe] at hok
      | true =>
        have hret : a.ret = 0 := by simpa [hcommand, hpipe] using hok
        simp [hret]

theorem execute_of_success (hok : (sh.execute toDevNull a).1.mExecStatus = true)
    (hout : (sh.execute toDevNull a).1.mOutputPath ≠ [])
    (hnull : ¬ "/dev/null".toList <:+: (sh.execute toDevNull a).1.mOutputPath) :
    (sh.execute toDevNull a).1.mOutputLines = Lines.getlines '\n' a.chunks.flatten ∧
      (sh.execute toDevNull a).2 = if a.fopenOk then
        some ((sh.execute toDevNull a).1.mOutputPath,
          fileContent (Lines.getlines '\n' a.chunks.flatten)) else none := by
  have hpath := (execute_fields sh toDevNull a).2.1
  rw [hpath] at hout hnull ⊢
  cases toDevNull with
  | true => exact absurd (List.infix_refl _) hnull
  | false => exact execCommand_of_success hok hout hnull

/-- After a successful execution with an output path other than `/dev/null`, the
file holds the captured lines exactly if it could be opened and no line before
the last fills the buffer, or it could not be opened and holds them anyway. -/
theorem agrees_iff (sh : Shell) (toDevNull : Bool) (a : Answer) (stale : Option Str)
    (hok : (sh.execute toDevNull a).1.mExecStatus = true)
    (hout : (sh.execute toDevNull a).1.mOutputPath ≠ [])
    (hnull : ¬ "/dev/null".toList <:+: (sh.execute toDevNull a).1.mOutputPath) :
    sh.Agrees toDevNull a stale ↔
      (a.fopenOk = true ∧
          ∀ line ∈ (Lines.getlines '\n' a.chunks.flatten).dropLast, line.length < 4095) ∨
        (a.fopenOk = false ∧ ∃ content, stale = some content ∧
          Lines.getlines '\n' content = Lines.getlines '\n' a.chunks.flatten) := by
  obtain ⟨hlines, hfile⟩ := execute_of_success hok hout hnull
  unfold Agrees outFile
  rw [hlines, hfile]
  cases a.fopenOk with
  | true =>
    have hclean : ∀ line ∈ Lines.getlines '\n' a.chunks.flatten, '\n' ∉ line :=
      fun line hline => Lines.notMem_of_mem_getlines hline
    have hread := getlines_fileContent_iff hclean
    simp only [if_true, Option.some.injEq, exists_eq_left', true_and, Bool.true_eq_false,
      false_and, or_false]
    exact hread
  | false =>
    simp only [Bool.false_eq_true, if_false, false_and, false_or, true_and]

/-- Two short lines, written to a file that was not there. -/
theorem agrees_iff_two :
    Shell.Agrees ⟨"printf".toList, "/out".toList, [], [], true, true⟩ false
        ⟨0, ["a\nb\n".toList], true, true⟩ none ↔
      (true = true ∧ ∀ line ∈ (Lines.getlines '\n' ["a\nb\n".toList].flatten).dropLast,
          line.length < 4095) ∨
        (true = false ∧ ∃ content, (none : Option Str) = some content ∧
          Lines.getlines '\n' content = Lines.getlines '\n' ["a\nb\n".toList].flatten) :=
  agrees_iff _ false ⟨0, ["a\nb\n".toList], true, true⟩ none rfl (by decide) (by decide)

/-- A line of 4095 characters runs into the next one. -/
theorem not_agrees_long_line :
    ¬ ∀ (sh : Shell) (toDevNull : Bool) (a : Answer) (stale : Option Str),
      (sh.execute toDevNull a).1.mExecStatus = true →
      (sh.execute toDevNull a).1.mOutputPath ≠ [] →
      ¬ "/dev/null".toList <:+: (sh.execute toDevNull a).1.mOutputPath →
      sh.Agrees toDevNull a stale := by
  intro h
  have hsep : '\n' ∉ List.replicate 4095 'a' :=
    fun hmem => absurd (List.eq_of_mem_replicate hmem) (by decide)
  have hlong : (List.replicate 4095 'a').length = 4095 := List.length_replicate
  let sh : Shell := ⟨"cat /in".toList, "/out".toList, [], [], true, true⟩
  have hfail := h sh false ⟨0, [List.replicate 4095 'a' ++ '\n' :: ['b']], true, true⟩ none
  generalize List.replicate 4095 'a' = long at hsep hlong hfail
  let a : Answer := ⟨0, [long ++ '\n' :: ['b']], true, true⟩
  have hlines : Lines.getlines '\n' a.chunks.flatten = [long, ['b']] := by
    rw [List.flatten_singleton, Lines.getlines_append_cons hsep]
    rfl
  have hpath : (sh.execute false a).1.mOutputPath = "/out".toList :=
    (execute_fields sh false a).2.1
  have hout : (sh.execute false a).1.mOutputPath ≠ [] := by rw [hpath]; decide
  have hnull : ¬ "/dev/null".toList <:+: (sh.execute false a).1.mOutputPath := by
    rw [hpath]; decide
  obtain ⟨content, hfile, hread⟩ := hfail rfl hout hnull
  obtain ⟨hkept, hwritten⟩ := execute_of_success (a := a) rfl hout hnull
  rw [outFile, hwritten, hlines] at hfile
  rw [hkept, hlines, ← Option.some.inj hfile, getlines_fileContent_iff] at hread
  · have hlt := hread long List.mem_cons_self
    omega
  · rw [List.forall_mem_cons, List.forall_mem_singleton]
    exact ⟨hsep, by decide⟩

end Shell

end SysFs
