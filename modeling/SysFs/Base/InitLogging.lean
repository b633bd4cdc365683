import SysFs.Lib.Run
import SysFs.Base.LogMessage

/-!
# Setting up the logger

`InitLogging` sets the logger and the aborter, and when it is called for the first time
also the default tag and the minimum severity.  The latter comes from the environment
variable `ANDROID_LOG_TAGS`, in which every field between spaces has to be `*:` and a
letter: a field that is anything else, an empty one included, is a fatal message, after
which the aborter may still return.  Such a message has no tag of its own, so that it
makes the name of the program the default tag when there is none yet.

* `specLoop_of_not_ended`: while the process goes on, all specs are read.  `ended_iff`:
  it ends exactly when a spec is not supported, and the aborter does not return.
* `InitLogging_runs`: after any calls of `InitLogging` that leave the process running,
  the minimum severity and the default tag are those of the first call, and the logger
  and the aborter those of the last.
-/

namespace SysFs.Base

/-- The state of the logger outside of its messages. -/
structure LoggerState where
  gInitialized : Bool
  gMinimumLogSeverity : LogSeverity
  /-- `gDefaultTag`, or `none` for a null pointer -/
  gDefaultTag : Option Str
  logger : ℕ
  aborter : ℕ
deriving DecidableEq, Repr

/-- The arguments of an `InitLogging` call, and the value of `ANDROID_LOG_TAGS`. -/
structure InitCall where
  /-- `argv[0]`, or `none` for a null pointer -/
  argv : Option Str
  logger : ℕ
  aborter : ℕ
  tags : Option Str
deriving DecidableEq, Repr

/-- `basename` of the C library. -/
def basename (path : Str) : Str :=
  let stripped := path.rdropWhile (· = '/')
  if path = [] then ['.']
  else if stripped = [] then ['/']
  else GetFileBasename stripped

/-- `SetDefaultTag`. -/
def LoggerState.SetDefaultTag (st : LoggerState) (tag : Str) : LoggerState :=
  { st with gDefaultTag := if tag = [] then none else some tag }

/-- The cases of the `switch`. -/
def severityOf : Char → Option LogSeverity
  | 'v' => some .VERBOSE
  | 'd' => some .DEBUG
  | 'i' => some .INFO
  | 'w' => some .WARNING
  | 'e' => some .ERROR
  | 'f' => some .FATAL_WITHOUT_ABORT
  | 's' => some .FATAL_WITHOUT_ABORT
  | _ => none

/-- The severity that a spec `tag-pattern:[vdiwefs]` asks for, if it is supported. -/
def specSeverity (spec : Str) : Option LogSeverity :=
  if spec.length = 3 ∧ StartsWith spec ['*', ':'] = true then spec[2]?.bind severityOf else none

/-- The fatal message about a spec. -/
def unsupported (tags spec : Str) : Str :=
  "unsupported '".toList ++ spec ++ "' in ANDROID_LOG_TAGS (".toList ++ tags ++ ")".toList

/-- What `LogLine` does for a message without a tag: the default tag is the name of the
program when there is none. -/
def LoggerState.LogLine (progname : Str) (st : LoggerState) : LoggerState :=
  { st with gDefaultTag := some (st.gDefaultTag.getD progname) }

/-- The loop over the specs: the state after it, the fatal messages, and whether the
aborter ended the process. -/
def specLoop (progname : Str) (returns : Bool) (tags : Str) :
    List Str → LoggerState → LoggerState × List Str × Bool
  | [], st => (st, [], false)
  | spec :: specs, st =>
    match specSeverity spec with
    | some severity =>
      specLoop progname returns tags specs { st with gMinimumLogSeverity := severity }
    | none =>
      let st := st.LogLine progname
      if returns then
        let (st, messages, ended) := specLoop progname returns tags specs st
        (st, unsupported tags spec :: messages, ended)
      else (st, [unsupported tags spec], true)

/-- `InitLogging`, where `progname` is what `getprogname` says and `returns` which aborters
return: the state after it, the fatal messages, and whether the process ended. -/
def InitLogging (progname : Str) (returns : ℕ → Bool) (st : LoggerState) (c : InitCall) :
    LoggerState × List Str × Bool :=
  let st := { st with logger := c.logger, aborter := c.aborter }
  if st.gInitialized then (st, [], false)
  else
    let st := { st with gInitialized := true }
    let st := match c.argv with
      | some argv0 => st.SetDefaultTag (basename argv0)
      | none => st
    match c.tags with
    | none => (st, [], false)
    | some tags =>
      specLoop progname (returns c.aborter) tags ((Split tags [' ']).getD []) st

/-! ## The specs -/

variable {progname : Str} {returns : ℕ → Bool} {st : LoggerState} {c : InitCall} {tags : Str}

/-- The minimum severity that the specs ask for. -/
def lastSeverity (specs : List Str) (minimum : LogSeverity) : LogSeverity :=
  (specs.filterMap specSeverity).getLastD minimum

/-- The specs that are not supported. -/
def unsupportedSpecs (specs : List Str) : List Str :=
  specs.filter fun spec => specSeverity spec = none

/-- The default tag after the specs: that of the program when there is a message and no
tag yet. -/
def tagAfter (progname : Str) (specs : List Str) (tag : Option Str) : Option Str :=
  if unsupportedSpecs specs = [] then tag else some (tag.getD progname)

theorem tagAfter_cons_of_some {spec : Str} {severity : LogSeverity}
    (h : specSeverity spec = some severity) (specs : List Str) (tag : Option Str) :
    tagAfter progname (spec :: specs) tag = tagAfter progname specs tag := by
  rw [tagAfter, unsupportedSpecs, List.filter_cons_of_neg (by simp [h])]
  rfl

/-- Further messages leave the tag alone. -/
theorem tagAfter_cons_of_none {spec : Str} (h : specSeverity spec = none) (specs : List Str)
    (tag : Option Str) : tagAfter progname (spec :: specs) tag
      = tagAfter progname specs (some (tag.getD progname)) := by
  rw [tagAfter, unsupportedSpecs, List.filter_cons_of_pos (by simp [h]),
    if_neg (List.cons_ne_nil _ _), tagAfter]
  split <;> rfl

/-- The process ends when a spec is not supported and the aborter does not return. -/
theorem ended_iff (progname : Str) (r : Bool) (tags : Str) (specs : List Str) (st : LoggerState) :
    (specLoop progname r tags specs st).2.2 = true ↔
      r = false ∧ ∃ spec ∈ specs, specSeverity spec = none := by
  induction specs generalizing st with
  | nil => simp [specLoop]
  | cons spec specs ih =>
    rw [specLoop]
    cases hspec : specSeverity spec with
    | some severity =>
      dsimp only
      rw [ih]
      simp [hspec]
    | none =>
      cases r with
      | true => simpa [hspec] using ih _
      | false => simp [hspec]

/-- While the process goes on, all specs are read. -/
theorem specLoop_of_not_ended {r : Bool} {specs : List Str} {st : LoggerState}
    (h : (specLoop progname r tags specs st).2.2 = false) :
    specLoop progname r tags specs st
      = ({ st with
            gMinimumLogSeverity := lastSeverity specs st.gMinimumLogSeverity
            gDefaultTag := tagAfter progname specs st.gDefaultTag },
        (unsupportedSpecs specs).map (unsupported tags), false) := by
  induction specs generalizing st with
  | nil => rfl
  | cons spec specs ih =>
    rw [specLoop] at h ⊢
    cases hspec : specSeverity spec with
    | some severity =>
      simp only [hspec] at h ⊢
      rw [ih h, tagAfter_cons_of_some hspec]
      simp only [lastSeverity, unsupportedSpecs]
      rw [List.filterMap_cons_some hspec, List.filter_cons_of_neg (by simp [hspec]),
        List.getLastD_cons]
    | none =>
      simp only [hspec] at h ⊢
      -- The aborter has returned.
      cases r with
      | false => cases h
      | true =>
        simp only [if_true] at h ⊢
        rw [ih h, tagAfter_cons_of_none hspec]
        simp only [lastSeverity, unsupportedSpecs, LoggerState.LogLine]
        rw [List.filterMap_cons_none hspec, List.filter_cons_of_pos (by simp [hspec]),
          List.map_cons]

/-! ## Runs of calls -/

/-- The state before the first call. -/
def LoggerState.initial (logger aborter : ℕ) : LoggerState where
  gInitialized := false
  gMinimumLogSeverity := .INFO
  gDefaultTag := none
  logger := logger
  aborter := aborter

/-- The minimum severity that a first call asks for. -/
def InitCall.minimum (c : InitCall) (before : LogSeverity) : LogSeverity :=
  match c.tags with
  | none => before
  | some tags => lastSeverity (tags.splitOn ' ') before

/-- The default tag after a first call: the base name of `argv[0]`, and when this is not
given or empty and a message was logged the name of the program. -/
def InitCall.tag (c : InitCall) (progname : Str) (before : Option Str) : Option Str :=
  let tag := match c.argv with
    | none => before
    | some argv0 => if basename argv0 = [] then none else some (basename argv0)
  match c.tags with
  | none => tag
  | some tags => tagAfter progname (tags.splitOn ' ') tag

theorem Split_space (tags : Str) : Split tags [' '] = some (tags.splitOn ' ') := by
  rw [Split_eq tags (List.cons_ne_nil _ _), List.splitOn_eq_splitOnP]
  congr 2
  funext c
  by_cases hc : c = ' ' <;> simp [hc]

/-- The first call. -/
theorem InitLogging_of_first (hfirst : st.gInitialized = false)
    (hrunning : (InitLogging progname returns st c).2.2 = false) :
    (InitLogging progname returns st c).1 =
      ⟨true, c.minimum st.gMinimumLogSeverity, c.tag progname st.gDefaultTag, c.logger,
        c.aborter⟩ := by
  obtain ⟨argv, logger, aborter, tags⟩ := c
  rw [InitLogging] at hrunning ⊢
  simp only [hfirst, Bool.false_eq_true, if_false] at hrunning ⊢
  cases tags with
  | none => cases argv <;> rfl
  | some tags =>
    simp only [Split_space, Option.getD_some] at hrunning ⊢
    rw [specLoop_of_not_ended hrunning]
    cases argv <;> rfl

/-- A later call sets the logger and the aborter and nothing else. -/
theorem InitLogging_of_later (hlater : st.gInitialized = true) :
    InitLogging progname returns st c
      = ({ st with logger := c.logger, aborter := c.aborter }, [], false) := by
  rw [InitLogging]
  exact if_pos hlater

/-- After any calls that leave the process running, the minimum severity and the default
tag are those of the first call, and the logger and the aborter those of the last. -/
theorem InitLogging_runs (progname : Str) (returns : ℕ → Bool) (first : InitCall)
    (later : List InitCall) (logger aborter : ℕ)
    (hrunning : Run.Along (fun st c => (InitLogging progname returns st c).1)
      (fun st c => (InitLogging progname returns st c).2.2 = false) (.initial logger aborter)
      (first :: later)) :
    Run.runs (fun st c => (InitLogging progname returns st c).1) (.initial logger aborter)
        (first :: later)
      = ⟨true, first.minimum .INFO, first.tag progname none, (later.getLastD first).logger,
          (later.getLastD first).aborter⟩ := by
  have hlater : ∀ (later : List InitCall) (st : LoggerState) (c : InitCall),
      st.gInitialized = true → st.logger = c.logger → st.aborter = c.aborter →
      Run.runs (fun st c => (InitLogging progname returns st c).1) st later
        = { st with
            logger := (later.getLastD c).logger
            aborter := (later.getLastD c).aborter } := by
    intro later
    induction later with
    | nil =>
      intro st c _ hlogger haborter
      rw [Run.runs_nil, List.getLastD_nil, ← hlogger, ← haborter]
    | cons c' later ih =>
      intro st c hinit _ _
      have hrest := ih { st with logger := c'.logger, aborter := c'.aborter } c' hinit rfl rfl
      rw [Run.runs_cons, InitLogging_of_later hinit, List.getLastD_cons]
      exact hrest
  rw [Run.runs_cons, InitLogging_of_first rfl hrunning.1, hlater later _ first rfl rfl rfl]
  rfl

/-- A first call without arguments, whose aborter returns. -/
theorem InitLogging_runs_two :
    Run.runs (fun st c => (InitLogging "app".toList (· == 1) st c).1) (.initial 0 0)
      [⟨none, 1, 1, some "*:v x *:w".toList⟩, ⟨some "/bin/other".toList, 2, 3, some "y".toList⟩]
      = ⟨true, .WARNING, some "app".toList, 2, 3⟩ :=
  InitLogging_runs _ _ _ _ 0 0 ⟨by decide, by decide, trivial⟩

end SysFs.Base
