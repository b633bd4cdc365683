import SysFs.Lib.Run
import SysFs.Shell

/-!
# What a `Shell` remembers

One `Shell` is used for many commands: `updateCommand` and `setOutPath` choose
a command and an output path, and `execute` runs it.  This file compares an
execution at the end of any history of calls with the same execution on a fresh
`Shell` that was given the last command and the last output path alone.

Two fields carry something over.  `execute(true)` writes `/dev/null` into
`mOutputPath`, where the next `execute(false)` finds it (`Redirected`), and a
command that fails leaves its text in `mErrorMsg`, which nothing clears
(`LeavesText`).  `independent_iff` says that these are the only two, and when
they show.
-/

namespace SysFs

namespace Shell

/-- A call on a `Shell`, with the answer of the system to an execution. -/
inductive Call where
  | updateCommand (newCommand : Str)
  | setOutPath (path : Str)
  | execute (toDevNull : Bool) (a : Answer)

/-- The `Shell` after a call. -/
def step (sh : Shell) : Call → Shell
  | .updateCommand newCommand => sh.updateCommand newCommand
  | .setOutPath path => sh.setOutPath path
  | .execute toDevNull a => (sh.execute toDevNull a).1

/-- The `Shell` after a history of calls. -/
def after (available : Bool) (calls : List Call) : Shell := Run.runs step (empty available) calls

/-- The command and the output path after a call that chooses one. -/
def choose (chosen : Str × Str) : Call → Str × Str
  | .updateCommand newCommand =>
    (((empty true).updateCommand newCommand).mCommand,
      ((empty true).updateCommand newCommand).mOutputPath)
  | .setOutPath path => (chosen.1, path)
  | .execute _ _ => chosen

/-- The last command given to `updateCommand`, and the last output path chosen
by `updateCommand` or `setOutPath`. -/
def chosen (calls : List Call) : Str × Str := Run.runs choose ([], []) calls

/-- A fresh `Shell` with that command and that output path. -/
def fresh (available : Bool) (calls : List Call) : Shell :=
  { empty available with mCommand := (chosen calls).1, mOutputPath := (chosen calls).2 }

/-- What an `execute(false)` shows: the status, `getOutputLines`,
`getErrorMessage`, and the output file it writes. -/
structure Effect where
  status : Bool
  outputLines : List Str
  errorMessage : Str
  file : Option (Str × Str)

/-- The effect of an `execute(false)`. -/
def effect (sh : Shell) (a : Answer) : Effect where
  status := (sh.execute false a).1.mExecStatus
  outputLines := (sh.execute false a).1.mOutputLines
  errorMessage := (sh.execute false a).1.mErrorMsg
  file := (sh.execute false a).2

/-- Whatever the system answers, an execution after the history has the effect
it has on a fresh `Shell`. -/
def Independent (available : Bool) (calls : List Call) : Prop :=
  ∀ a, (after available calls).effect a = (fresh available calls).effect a

/-! ## The fields that the calls write -/

/-- The text that an execution leaves in `mErrorMsg`. -/
def complaint (sh : Shell) : Call → Option Str
  | .updateCommand _ => none
  | .setOutPath _ => none
  | .execute toDevNull a =>
    if sh.mShellAvailable ∧ sh.mCommand ≠ [] ∧ toDevNull = false ∧ sh.toDevNull = false ∧
        a.pipeOk ∧ a.ret ≠ 0 then
      a.chunks.head?
    else none

/-- The last command of the history that failed with a text on the pipe left a
text that is not empty. -/
def LeavesText (available : Bool) (calls : List Call) : Prop :=
  ∃ text, text ≠ [] ∧ Run.LastWrite step complaint (empty available) calls text

/-- Whether the call is an execution. -/
def Call.isExecute : Call → Bool
  | .updateCommand _ => false
  | .setOutPath _ => false
  | .execute _ _ => true

/-- After the last choice of an output path, there is an `execute(true)`. -/
def Redirected (calls : List Call) : Prop :=
  ∃ before a later, calls = before ++ .execute true a :: later ∧
    ∀ c ∈ later, c.isExecute = true

/-- What `updateCommand` writes does not depend on the `Shell`. -/
theorem updateCommand_eq (sh : Shell) (s : Str) :
    sh.updateCommand s =
      { sh with
        mCommand := ((empty true).updateCommand s).mCommand
        mOutputPath := ((empty true).updateCommand s).mOutputPath
        mOutputLines := [] } := by
  unfold updateCommand
  cases rfind '>' s with
  | none => rfl
  | some f =>
    dsimp only
    split <;> rfl

theorem toDevNull_of_devNull {sh : Shell} (h : sh.mOutputPath = "/dev/null".toList) :
    sh.toDevNull = true := by
  rw [toDevNull, h]
  decide

/-- What `execCommand` leaves alone, and the error message it leaves. -/
theorem execCommand_fields (sh : Shell) (a : Answer) :
    (sh.execCommand a).1.mCommand = sh.mCommand ∧
      (sh.execCommand a).1.mOutputPath = sh.mOutputPath ∧
      (sh.execCommand a).1.mShellAvailable = sh.mShellAvailable ∧
      (sh.execCommand a).1.mErrorMsg
        = (sh.complaint (.execute false a)).getD sh.mErrorMsg := by
  obtain ⟨command, out, lines, msg, status, avail⟩ := sh
  have hnull : ∀ s l, (Shell.mk command out l msg s avail).toDevNull
      = (Shell.mk command out lines msg status avail).toDevNull := fun s l => rfl
  unfold execCommand complaint
  simp only [hnull]
  cases avail with
  | false => simp
  | true =>
    by_cases hcommand : command = []
    · simp [hcommand]
    cases hdev : (Shell.mk command out lines msg status true).toDevNull with
    | true => simp [hcommand]
    | false =>
      cases hpipe : a.pipeOk with
      | false => simp [hcommand]
      | true =>
        by_cases hret : a.ret = 0
        · simp [hcommand, hret]
        · simp [hcommand, hret]

/-- What an execution writes. -/
theorem execute_fields (sh : Shell) (toDevNull : Bool) (a : Answer) :
    (sh.execute toDevNull a).1.mCommand = sh.mCommand ∧
      (sh.execute toDevNull a).1.mOutputPath
        = (if toDevNull then "/dev/null".toList else sh.mOutputPath) ∧
      (sh.execute toDevNull a).1.mShellAvailable = sh.mShellAvailable ∧
      (sh.execute toDevNull a).1.mErrorMsg
        = (sh.complaint (.execute toDevNull a)).getD sh.mErrorMsg := by
  cases toDevNull with
  | false => exact execCommand_fields sh a
  | true =>
    obtain ⟨h1, h2, h3, h4⟩ := execCommand_fields { sh with mOutputPath := "/dev/null".toList } a
    refine ⟨h1, h2, h3, h4.trans ?_⟩
    -- The output path sends the text away, so none is left.
    have hdev : Shell.toDevNull { sh with mOutputPath := "/dev/null".toList } = true :=
      toDevNull_of_devNull rfl
    have hnone : Shell.complaint { sh with mOutputPath := "/dev/null".toList }
        (.execute false a) = none :=
      if_neg fun h => Bool.noConfusion (hdev.symm.trans h.2.2.2.1)
    have hnone' : sh.complaint (.execute true a) = none :=
      if_neg fun h => Bool.noConfusion h.2.2.1
    rw [hnone, hnone']

/-- The error message is a register of the calls. -/
theorem step_mErrorMsg (sh : Shell) (c : Call) :
    (sh.step c).mErrorMsg = (sh.complaint c).getD sh.mErrorMsg := by
  cases c with
  | updateCommand newCommand =>
    rw [step, updateCommand_eq]
    rfl
  | setOutPath path => rfl
  | execute toDevNull a => exact (execute_fields sh toDevNull a).2.2.2

theorem step_mShellAvailable (sh : Shell) (c : Call) :
    (sh.step c).mShellAvailable = sh.mShellAvailable := by
  cases c with
  | updateCommand newCommand =>
    rw [step, updateCommand_eq]
  | setOutPath path => rfl
  | execute toDevNull a => exact (execute_fields sh toDevNull a).2.2.1

/-! ## After a history -/

theorem after_append (available : Bool) (calls : List Call) (c : Call) :
    after available (calls ++ [c]) = (after available calls).step c :=
  Run.runs_append step _ calls [c]

theorem chosen_append (calls : List Call) (c : Call) :
    chosen (calls ++ [c]) = choose (chosen calls) c :=
  Run.runs_append choose _ calls [c]

theorem after_mShellAvailable (available : Bool) (calls : List Call) :
    (after available calls).mShellAvailable = available :=
  Run.inv_of_step (I := fun sh => sh.mShellAvailable = available)
    (fun sh c h => (step_mShellAvailable sh c).trans h) rfl calls

/-- The command is the last one that was given. -/
theorem after_mCommand (available : Bool) (calls : List Call) :
    (after available calls).mCommand = (chosen calls).1 := by
  induction calls using List.reverseRecOn with
  | nil => rfl
  | append_singleton calls c ih =>
    rw [after_append, chosen_append]
    cases c with
    | updateCommand newCommand =>
      rw [step, updateCommand_eq]
      rfl
    | setOutPath path => exact ih
    | execute toDevNull a => exact (execute_fields _ toDevNull a).1.trans ih

/-- A call behind the history redirects it, chooses a path, or leaves both
alone. -/
theorem redirected_append (calls : List Call) (c : Call) :
    Redirected (calls ++ [c]) ↔
      (∃ a, c = .execute true a) ∨ (c.isExecute = true ∧ Redirected calls) := by
  constructor
  · rintro ⟨before, a, later, h, hlater⟩
    rcases List.eq_nil_or_concat' later with rfl | ⟨later, b, rfl⟩
    · obtain ⟨-, hc⟩ := List.append_inj' h rfl
      exact Or.inl ⟨a, List.singleton_inj.1 hc⟩
    · have h' : calls ++ [c] = (before ++ .execute true a :: later) ++ [b] := by simp [h]
      obtain ⟨rfl, hc⟩ := List.append_inj' h' rfl
      obtain rfl : c = b := List.singleton_inj.1 hc
      exact Or.inr ⟨hlater c (by simp), before, a, later, rfl,
        fun c' hc' => hlater c' (List.mem_append_left _ hc')⟩
  · rintro (⟨a, rfl⟩ | ⟨hc, before, a, later, rfl, hlater⟩)
    · exact ⟨calls, a, [], rfl, fun c hc => nomatch hc⟩
    · refine ⟨before, a, later ++ [c], by simp, fun c' hc' => ?_⟩
      rcases List.mem_append.1 hc' with hc' | hc'
      · exact hlater c' hc'
      · rwa [List.mem_singleton.1 hc']

/-- The output path is the last one that was chosen, or the `/dev/null` of an
`execute(true)` since then. -/
theorem after_mOutputPath (available : Bool) (calls : List Call) :
    (Redirected calls → (after available calls).mOutputPath = "/dev/null".toList) ∧
      (¬ Redirected calls → (after available calls).mOutputPath = (chosen calls).2) := by
  induction calls using List.reverseRecOn with
  | nil =>
    refine ⟨?_, fun _ => rfl⟩
    rintro ⟨before, a, later, h, -⟩
    simp at h
  | append_singleton calls c ih =>
    rw [after_append, chosen_append, redirected_append]
    cases c with
    | updateCommand newCommand =>
      rw [step, updateCommand_eq]
      refine ⟨?_, fun _ => rfl⟩
      rintro (⟨a, ha⟩ | ⟨hc, -⟩)
      · cases ha
      · cases hc
    | setOutPath path =>
      refine ⟨?_, fun _ => rfl⟩
      rintro (⟨a, ha⟩ | ⟨hc, -⟩)
      · cases ha
      · cases hc
    | execute toDevNull a =>
      have hpath := (execute_fields (after available calls) toDevNull a).2.1
      cases toDevNull with
      | true =>
        refine ⟨fun _ => hpath, fun hnot => ?_⟩
        exact absurd (Or.inl ⟨a, rfl⟩) hnot
      | false =>
        refine ⟨fun h => hpath.trans (ih.1 ?_), fun h => hpath.trans (ih.2 fun hred => ?_)⟩
        · rcases h with ⟨a', ha'⟩ | ⟨-, hred⟩
          · cases ha'
          · exact hred
        · exact h (Or.inr ⟨rfl, hred⟩)

/-- The error message is empty unless a failure has left a text. -/
theorem after_mErrorMsg (available : Bool) (calls : List Call) :
    (after available calls).mErrorMsg = [] ↔ ¬ LeavesText available calls := by
  have hfield : ∀ sh c, (step sh c).mErrorMsg = (complaint sh c).getD sh.mErrorMsg :=
    step_mErrorMsg
  constructor
  · rintro hnil ⟨text, hne, hlast⟩
    exact hne ((Run.field_runs_of_lastWrite hfield hlast).symm.trans hnil)
  · intro hnot
    rcases Run.along_or_lastWrite step complaint (empty available) calls with hnone | ⟨text, hlast⟩
    · exact Run.field_runs_of_along hfield hnone
    · have htext : (after available calls).mErrorMsg = text :=
        Run.field_runs_of_lastWrite hfield hlast
      rw [htext]
      by_contra hne
      exact hnot ⟨text, hne, hlast⟩

/-- Without a shell, nothing is ever read. -/
theorem after_false (calls : List Call) :
    (after false calls).mOutputLines = [] ∧ (after false calls).mErrorMsg = [] := by
  have hstep : ∀ (sh : Shell) (c : Call),
      sh.mShellAvailable = false ∧ sh.mOutputLines = [] ∧ sh.mErrorMsg = [] →
        (step sh c).mShellAvailable = false ∧ (step sh c).mOutputLines = [] ∧
          (step sh c).mErrorMsg = [] := by
    rintro sh c ⟨havail, hlines, hmsg⟩
    refine ⟨(step_mShellAvailable sh c).trans havail, ?_, ?_⟩
    · cases c with
      | updateCommand newCommand =>
        rw [step, updateCommand_eq]
      | setOutPath path => exact hlines
      | execute toDevNull a =>
        cases toDevNull <;> simp [step, execute, execCommand, havail, hlines]
    · have hnone : sh.complaint c = none := by
        cases c with
        | updateCommand newCommand => rfl
        | setOutPath path => rfl
        | execute toDevNull a => exact if_neg fun h => Bool.noConfusion (havail.symm.trans h.1)
      rw [step_mErrorMsg, hnone]
      exact hmsg
  exact (Run.inv_of_step (I := fun sh : Shell => sh.mShellAvailable = false ∧
    sh.mOutputLines = [] ∧ sh.mErrorMsg = []) hstep ⟨rfl, rfl, rfl⟩ calls).2

/-! ## The last execution -/

/-- What an execution shows without a shell. -/
theorem effect_of_unavailable {sh : Shell} (h : sh.mShellAvailable = false) (a : Answer) :
    sh.effect a = ⟨false, sh.mOutputLines, sh.mErrorMsg, none⟩ := by
  unfold effect execute execCommand
  simp [h]

/-- What an execution shows on a `Shell` that runs nothing or reads nothing. -/
theorem effect_of_noPipe {sh : Shell}
    (h : sh.mShellAvailable = true ∧ (sh.mCommand = [] ∨ sh.toDevNull = true)) (a : Answer) :
    sh.effect a = ⟨!sh.mCommand.isEmpty && a.ret == 0, [], sh.mErrorMsg, none⟩ := by
  obtain ⟨command, out, lines, msg, status, avail⟩ := sh
  obtain ⟨havail, h⟩ := h
  obtain rfl : avail = true := havail
  have hnull : ∀ s l, (Shell.mk command out l msg s true).toDevNull
      = (Shell.mk command out lines msg status true).toDevNull := fun s l => rfl
  unfold effect execute execCommand
  simp only [Bool.false_eq_true, if_false, Bool.not_true, hnull]
  by_cases hcommand : command = []
  · simp [hcommand]
  · simp [hcommand, h.resolve_left hcommand]

/-- With a shell, an execution shows what the command, the output path and the
error message say. -/
theorem effect_congr {sh sh' : Shell} (havail : sh.mShellAvailable = true)
    (havail' : sh'.mShellAvailable = true) (hcommand : sh.mCommand = sh'.mCommand)
    (hout : sh.mOutputPath = sh'.mOutputPath) (hmsg : sh.mErrorMsg = sh'.mErrorMsg) (a : Answer) :
    sh.effect a = sh'.effect a := by
  obtain ⟨command, out, lines, msg, status, avail⟩ := sh
  obtain ⟨command', out', lines', msg', status', avail'⟩ := sh'
  obtain rfl : avail = true := havail
  obtain rfl : avail' = true := havail'
  obtain rfl : command = command' := hcommand
  obtain rfl : out = out' := hout
  obtain rfl : msg = msg' := hmsg
  rfl

/-- A command that succeeds on the pipe leaves the error message alone, and its
lines are those of what it has written. -/
theorem effect_of_success {sh : Shell} (havail : sh.mShellAvailable = true) (chunks : List Str) :
    (sh.effect ⟨0, chunks, true, false⟩).errorMessage = sh.mErrorMsg ∧
      (sh.mCommand ≠ [] → sh.toDevNull = false →
        (sh.effect ⟨0, chunks, true, false⟩).outputLines = Lines.getlines '\n' chunks.flatten) := by
  refine ⟨?_, fun hcommand hnull => execute_mOutputLines havail hcommand hnull rfl rfl⟩
  have hnone : sh.complaint (.execute false ⟨0, chunks, true, false⟩) = none :=
    if_neg fun h => h.2.2.2.2.2 rfl
  have hmsg := (execute_fields sh false ⟨0, chunks, true, false⟩).2.2.2
  rwa [hnone] at hmsg

/-- An execution at the end of a history is one on a fresh `Shell` exactly when
there is no shell, or no failure has left a text and no `execute(true)` shows in
the output path. -/
theorem independent_iff (available : Bool) (calls : List Call) :
    Independent available calls ↔
      available = false ∨
        (¬ LeavesText available calls ∧
          (Redirected calls →
            (chosen calls).1 = [] ∨ (fresh available calls).toDevNull = true)) := by
  have havail := after_mShellAvailable available calls
  have hcommand := after_mCommand available calls
  obtain ⟨hred, hnotred⟩ := after_mOutputPath available calls
  have hmsg := after_mErrorMsg available calls
  cases available with
  | false =>
    refine ⟨fun _ => Or.inl rfl, fun _ a => ?_⟩
    obtain ⟨hlines, hnil⟩ := after_false calls
    rw [effect_of_unavailable havail, effect_of_unavailable rfl, hlines, hnil]
    rfl
  | true =>
    rw [← hmsg]
    constructor
    · intro h
      refine Or.inr ⟨?_, fun hr => ?_⟩
      · have heffect := congrArg Effect.errorMessage (h ⟨0, [], true, false⟩)
        rw [(effect_of_success havail []).1, (effect_of_success rfl []).1] at heffect
        exact heffect
      · by_contra hnot
        rw [not_or, Bool.not_eq_true] at hnot
        -- The history sends the text of the command away, and the fresh one shows it.
        have heffect := congrArg Effect.outputLines (h ⟨0, [['x']], true, false⟩)
        rw [(effect_of_success rfl [['x']]).2 hnot.1 hnot.2,
          effect_of_noPipe ⟨havail, Or.inr (toDevNull_of_devNull (hred hr))⟩] at heffect
        have hlines : ([] : List Str) = Lines.getlines '\n' [['x']].flatten := heffect
        exact absurd hlines (by decide)
    · rintro (hfalse | ⟨hnil, hr⟩) a
      · cases hfalse
      by_cases hredirected : Redirected calls
      · have hquiet : (fresh true calls).mCommand = [] ∨ (fresh true calls).toDevNull = true :=
          hr hredirected
        rw [effect_of_noPipe ⟨havail, Or.inr (toDevNull_of_devNull (hred hredirected))⟩,
          effect_of_noPipe ⟨rfl, hquiet⟩, hcommand, hnil]
        rfl
      · exact effect_congr havail rfl hcommand (hnotred hredirected) hnil a

/-- A command fails with a text, and the next one succeeds: its error message
is the text of the first. -/
theorem not_independent_complaint :
    ¬ Independent true
      [.updateCommand "ls /missing".toList, .execute false ⟨1, ["no such file".toList], true, false⟩,
        .updateCommand "true".toList] := by
  intro h
  have hmsg := congrArg Effect.errorMessage (h ⟨0, [], true, false⟩)
  exact absurd hmsg (by decide)

end Shell

end SysFs
