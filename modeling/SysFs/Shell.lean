import Mathlib.Data.List.DropRight
import Mathlib.Data.List.Infix
import SysFs.Lib.Lines
import SysFs.Path

/-!
# Running a command through the shell

The model of `cpputils::base::Unix::Shell` and of the `Trim` it uses.

`updateCommand` cuts a text at its last `>` unless a `"` comes after it, and
takes what follows for the output path.  `execCommand` hands a text to
`system`, reads the pipe after `system` has returned, and cuts what it read
into lines.  What the kernel and `/bin/sh` answer is an `Answer`: the status,
and the pieces that the successive `read` calls give.  `handedText` is the text
that `/bin/sh` gets, with the redirections that `execCommand` appends.

The lemmas say when `Trim` and `updateCommand` leave a text as it is.
-/

namespace SysFs

/-- `isspace` in the C locale. -/
def isspace (c : Char) : Bool :=
  c == ' ' || c == '\t' || c == '\n' || c == '\x0b' || c == '\x0c' || c == '\r'

/-- `Trim`: the string without the white space at its two ends. -/
def Trim (s : Str) : Str := (s.dropWhile isspace).rdropWhile isspace

/-- `std::string::rfind` of one character. -/
def rfind (c : Char) (s : Str) : Option Nat :=
  (s.reverse.findIdx? (· = c)).map fun i => s.length - 1 - i

/-- `std::to_string` of a descriptor. -/
def toString (n : Nat) : Str := Nat.toDigits 10 n

/-- An object of class `Shell`. -/
structure Shell where
  mCommand : Str
  mOutputPath : Str
  mOutputLines : List Str
  mErrorMsg : Str
  mExecStatus : Bool
  mShellAvailable : Bool
deriving DecidableEq, Repr

/-- What the system answers to one call of `execCommand`. -/
structure Answer where
  /-- what `system` returns -/
  ret : Nat
  /-- what the successive `read` calls give, each up to a zero character, up to
  the one that finds nothing -/
  chunks : List Str
  /-- whether `pipe` and `fcntl` succeed -/
  pipeOk : Bool
  /-- whether `fopen` of the output path succeeds -/
  fopenOk : Bool
deriving DecidableEq, Repr

namespace Shell

/-- The default constructor, where `available` is what `system(NULL)` says. -/
def empty (available : Bool) : Shell := ⟨[], [], [], [], true, available⟩

/-- `updateCommand`. -/
def updateCommand (sh : Shell) (newCommand : Str) : Shell :=
  let found := rfind '>' newCommand
  let quot := rfind '"' newCommand
  match found with
  | some f =>
    if quot = none ∨ quot.getD 0 < f then
      { sh with
        mCommand := Trim (newCommand.take f)
        mOutputPath := Trim (newCommand.drop (f + 1))
        mOutputLines := [] }
    else
      { sh with
        mCommand := Trim newCommand, mOutputPath := [], mOutputLines := [] }
  | none =>
    { sh with
      mCommand := Trim newCommand, mOutputPath := [], mOutputLines := [] }

/-- The constructor from a command. -/
def ofCommand (available : Bool) (command : Str) : Shell :=
  (empty available).updateCommand command

/-- `setOutPath`. -/
def setOutPath (sh : Shell) (path : Str) : Shell := { sh with mOutputPath := path }

/-- Whether the output goes to `/dev/null`. -/
def toDevNull (sh : Shell) : Bool :=
  !sh.mOutputPath.isEmpty && decide ("/dev/null".toList <:+: sh.mOutputPath)

/-- The text that `execCommand` hands to `system`, when `fd` is the write end
of its pipe. -/
def handedText (sh : Shell) (fd : Nat) : Str :=
  if sh.toDevNull then sh.mCommand ++ " > /dev/null".toList
  else sh.mCommand ++ " 2>&".toList ++ toString fd ++ " >&".toList ++ toString fd

/-- The output file that `execCommand` writes for some lines.  A line of
`max_buf_size - 1` characters or more gets no newline. -/
def fileContent (lines : List Str) : Str :=
  lines.flatMap fun line => if line.length < 4095 then line ++ ['\n'] else line

/-- `execCommand`, and the output file it writes: its path and its content. -/
def execCommand (sh : Shell) (a : Answer) : Shell × Option (Str × Str) :=
  let sh := { sh with mExecStatus := false }
  if !sh.mShellAvailable then (sh, none)
  else
    let sh := { sh with mOutputLines := [] }
    if sh.mCommand.isEmpty then (sh, none)
    else if sh.toDevNull then ({ sh with mExecStatus := a.ret == 0 }, none)
    else if !a.pipeOk then (sh, none)
    else
      let text := if a.ret = 0 then a.chunks.flatten else []
      let lines := Lines.getlines '\n' text
      let errorMsg := if a.ret = 0 then sh.mErrorMsg else a.chunks.head?.getD sh.mErrorMsg
      ({ sh with
          mOutputLines := lines, mErrorMsg := errorMsg, mExecStatus := a.ret == 0 },
        if !sh.mOutputPath.isEmpty ∧ a.ret = 0 ∧ a.fopenOk then
          some (sh.mOutputPath, fileContent lines)
        else none)

/-- `execute`. -/
def execute (sh : Shell) (toDevNull : Bool) (a : Answer) : Shell × Option (Str × Str) :=
  (if toDevNull then { sh with mOutputPath := "/dev/null".toList } else sh).execCommand a

end Shell

/-! ## Texts that are left as they are -/

theorem length_Trim_le (s : Str) : (Trim s).length ≤ s.length :=
  Nat.le_trans (List.rdropWhile_prefix isspace _).length_le
    (List.dropWhile_suffix _).length_le

/-- `Trim` leaves a string alone that neither starts nor ends with white
space. -/
theorem Trim_of_ends {s : Str} (hhead : ∀ c, s.head? = some c → isspace c = false)
    (hlast : ∀ c, s.getLast? = some c → isspace c = false) : Trim s = s := by
  have hdrop : s.dropWhile isspace = s := by
    cases s with
    | nil => rfl
    | cons c s =>
      rw [List.dropWhile_cons_of_neg]
      simp [hhead c rfl]
  rw [Trim, hdrop, List.rdropWhile_eq_self_iff]
  intro hne
  simp [hlast _ (List.getLast?_eq_some_getLast hne)]

/-- `Trim` leaves no white space at the end. -/
theorem isspace_getLast?_Trim {s : Str} {c : Char}
    (h : (Trim s).getLast? = some c) : isspace c = false := by
  have hne : Trim s ≠ [] := by
    intro hnil
    rw [hnil] at h
    cases h
  have hlast : ¬ isspace ((Trim s).getLast hne) = true :=
    List.rdropWhile_last_not isspace _ hne
  rw [List.getLast?_eq_some_getLast hne] at h
  rw [Option.some.inj h] at hlast
  simpa using hlast

/-- What is left after trimming has no blank at either end. -/
theorem isspace_ends_Trim (s : Str) : (∀ c, (Trim s).head? = some c → isspace c = false) ∧
    ∀ c, (Trim s).getLast? = some c → isspace c = false := by
  refine ⟨fun c hc => ?_, fun c hc => isspace_getLast?_Trim hc⟩
  have hpre : Trim s <+: s.dropWhile isspace := List.rdropWhile_prefix isspace _
  obtain ⟨t, ht⟩ := hpre
  have hhead : (s.dropWhile isspace).head? = some c := by
    rw [← ht, List.head?_append, hc, Option.some_or]
  have hnot := List.head?_dropWhile_not isspace s
  rw [hhead] at hnot
  simpa using hnot

theorem rfind_eq_none {c : Char} {s : Str} : rfind c s = none ↔ c ∉ s := by
  simp only [rfind, Option.map_eq_none_iff, List.findIdx?_eq_none_iff,
    List.mem_reverse, decide_eq_false_iff_not]
  constructor
  · intro h hc
    exact h c hc rfl
  · rintro h d hd rfl
    exact h hd

namespace Shell

/-- Without a `>` the text becomes the command. -/
theorem updateCommand_of_notMem {sh : Shell} {s : Str} (h : '>' ∉ s) :
    sh.updateCommand s =
      { sh with mCommand := Trim s, mOutputPath := [], mOutputLines := [] } := by
  simp [updateCommand, rfind_eq_none.2 h]

/-- The command is a trimmed beginning of the text, and no longer than it. -/
theorem mCommand_updateCommand (sh : Shell) (s : Str) :
    ∃ f, (sh.updateCommand s).mCommand = Trim (s.take f) := by
  have hall : s.take s.length = s := List.take_length
  unfold updateCommand
  cases rfind '>' s with
  | none => exact ⟨s.length, by rw [hall]⟩
  | some f =>
    dsimp only
    split
    · exact ⟨f, rfl⟩
    · exact ⟨s.length, by rw [hall]⟩

/-- A command as long as the text is the text. -/
theorem eq_of_length_mCommand {sh : Shell} {s : Str}
    (h : s.length ≤ (sh.updateCommand s).mCommand.length) :
    (sh.updateCommand s).mCommand = s ∧
      ∀ c, s.getLast? = some c → isspace c = false := by
  obtain ⟨f, hf⟩ := mCommand_updateCommand sh s
  rw [hf] at h ⊢
  have hle := length_Trim_le (s.take f)
  have htake : s.take f = s := by
    refine List.take_of_length_le ?_
    rw [List.length_take] at hle
    omega
  rw [htake] at h ⊢
  have hdrop : s.dropWhile isspace = s := by
    refine (List.dropWhile_suffix isspace).eq_of_length_le ?_
    exact Nat.le_trans h (List.rdropWhile_prefix isspace _).length_le
  have htrim : Trim s = s := by
    have hpre : Trim s <+: s := by
      rw [Trim, hdrop]
      exact List.rdropWhile_prefix isspace _
    exact hpre.eq_of_length_le h
  refine ⟨htrim, fun c hc => ?_⟩
  rw [← htrim] at hc
  exact isspace_getLast?_Trim hc

/-- The output goes to `/dev/null` only through the output path. -/
theorem toDevNull_of_noOutput {sh : Shell} (h : sh.mOutputPath = []) :
    sh.toDevNull = false := by
  rw [toDevNull, h]
  rfl

/-- The status of a command that is run, or that finds no pipe. -/
theorem execute_mExecStatus {sh : Shell} (havail : sh.mShellAvailable = true)
    (hcommand : sh.mCommand ≠ []) (a : Answer) :
    (sh.execute false a).1.mExecStatus = ((sh.toDevNull || a.pipeOk) && a.ret == 0) := by
  obtain ⟨command, out, lines, msg, status, avail⟩ := sh
  obtain rfl : avail = true := havail
  have hempty : command.isEmpty = false := by simpa using hcommand
  have hnull : ∀ s l, (Shell.mk command out l msg s true).toDevNull
      = (Shell.mk command out lines msg status true).toDevNull := fun s l => rfl
  unfold execute execCommand
  simp only [Bool.false_eq_true, if_false, Bool.not_true, hempty, hnull]
  cases (Shell.mk command out lines msg status true).toDevNull <;> cases a.pipeOk <;> simp

/-- The lines of a command that succeeds are those of what it has written. -/
theorem execute_mOutputLines {sh : Shell} (havail : sh.mShellAvailable = true)
    (hcommand : sh.mCommand ≠ []) (hnull : sh.toDevNull = false) {a : Answer}
    (hpipe : a.pipeOk = true) (hret : a.ret = 0) :
    (sh.execute false a).1.mOutputLines = Lines.getlines '\n' a.chunks.flatten := by
  obtain ⟨command, out, lines, msg, status, avail⟩ := sh
  obtain rfl : avail = true := havail
  have hempty : command.isEmpty = false := by simpa using hcommand
  have hnull' : ∀ s l, (Shell.mk command out l msg s true).toDevNull = false :=
    fun s l => hnull
  unfold execute execCommand
  simp [hempty, hnull', hpipe, hret]

end Shell

end SysFs
