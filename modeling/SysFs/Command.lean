import Mathlib.Algebra.BigOperators.Group.List.Basic
import SysFs.Lib.Sh
import SysFs.Shell

/-!
# The shell commands of `libfs`

`FsObject` and `Dir` leave six jobs to programs: moving, copying and removing a
tree, changing its owner or its group, and listing a directory.  Each call site
puts a command text together with `+`, without quoting, and gives it to a
`Shell`.  A `LibCommand` is one such call: what the call site means to say
(`argv`), and the text it builds (`text`).

`ArgumentIntegrity` says that nothing is lost on the way: the output path stays
empty, and the shell reads the handed text as one simple command with the
arguments of `argv`.  `argumentIntegrity_iff` gives the exact condition.  The
argument for the hard direction is one of room: none of the layers can make a
text longer, every layer that changes something makes it shorter, and the
arguments written out with blanks need all the room there is.
-/

namespace SysFs

/-- A call of `execCommand`, with the strings that the call site fills in. -/
inductive LibCommand where
  /-- `FsObject::move` -/
  | move (src dst : Str)
  /-- `FsObject::copy` -/
  | copy (src dst : Str)
  /-- `FsObject::remove`, for a directory -/
  | remove (path : Str)
  /-- `FsObject::setOwner` -/
  | setOwner (owner path : Str)
  /-- `FsObject::setGroup` -/
  | setGroup (group path : Str)
  /-- `Dir::getEntries` -/
  | getEntries (path : Str)
deriving DecidableEq, Repr

namespace LibCommand

/-- The blank that the call sites put between the words. -/
def blank : Str := [' ']

def mv : Str := ['m', 'v']
def cp : Str := ['c', 'p']
def rm : Str := ['r', 'm']
def chown : Str := ['c', 'h', 'o', 'w', 'n']
def chgrp : Str := ['c', 'h', 'g', 'r', 'p']
def ls : Str := ['l', 's']

/-- The flags of `cp` and `rm`. -/
def rf : Str := ['-', 'r', 'f']

/-- The command text, as the call site puts it together. -/
def text : LibCommand → Str
  | move src dst => mv ++ blank ++ src ++ blank ++ dst
  | copy src dst => cp ++ blank ++ rf ++ blank ++ src ++ blank ++ dst
  | remove path => rm ++ blank ++ rf ++ blank ++ path
  | setOwner owner path => chown ++ blank ++ (owner ++ blank ++ path)
  | setGroup group path => chgrp ++ blank ++ (group ++ blank ++ path)
  | getEntries path => ls ++ blank ++ path ++ slash

/-- The fixed words of the command: the program and its flags. -/
def program : LibCommand → List Str
  | move _ _ => [mv]
  | copy _ _ => [cp, rf]
  | remove _ => [rm, rf]
  | setOwner _ _ => [chown]
  | setGroup _ _ => [chgrp]
  | getEntries _ => [ls]

/-- The arguments but the last one. -/
def firstArgs : LibCommand → List Str
  | move src _ => [src]
  | copy src _ => [src]
  | remove _ => []
  | setOwner owner _ => [owner]
  | setGroup group _ => [group]
  | getEntries _ => []

/-- The last argument. -/
def lastArg : LibCommand → Str
  | move _ dst => dst
  | copy _ dst => dst
  | remove path => path
  | setOwner _ path => path
  | setGroup _ path => path
  | getEntries path => path ++ slash

/-- The strings that come from outside. -/
def args (c : LibCommand) : List Str := c.firstArgs ++ [c.lastArg]

/-- What the call site means to run. -/
def argv (c : LibCommand) : List Str := c.program ++ c.args

/-- The descriptor duplications that `execCommand` appends. -/
def dups (fd : Nat) : List (Str × Str) := [(['2'], toString fd), ([], toString fd)]

/-- The command that is meant, as the shell should read it. -/
def command (c : LibCommand) (fd : Nat) : Sh.Command := ⟨c.argv, dups fd⟩

/-- The `Shell` that `FsObject::execCommand` makes for the text. -/
def shell (c : LibCommand) : Shell := Shell.ofCommand true c.text

/-- `updateCommand` has moved nothing into the output path, and the shell reads
the text it gets as the command that is meant. -/
def ArgumentIntegrity (c : LibCommand) (fd : Nat) : Prop :=
  c.shell.mOutputPath = [] ∧
    Sh.readCommand (c.shell.handedText fd) = some (c.command fd)

instance (c : LibCommand) (fd : Nat) : Decidable (c.ArgumentIntegrity fd) :=
  inferInstanceAs (Decidable (_ ∧ _))

/-- No string from outside says anything to the shell, and the last one does
not end with white space, which `Trim` would drop. -/
def PlainArgs (c : LibCommand) : Prop :=
  (∀ w ∈ c.args, Sh.PlainWord w) ∧
    ∀ b, c.lastArg.getLast? = some b → isspace b = false

instance (c : LibCommand) : Decidable c.PlainArgs :=
  decidable_of_iff
    ((∀ w ∈ c.args, Sh.PlainWord w) ∧ c.lastArg.getLast?.all fun b => !isspace b)
    (and_congr_right fun _ => by
      rw [Option.all_eq_true]
      simp)

/-! ## The text and its words -/

/-- The text is the words, each followed by a blank, but for the last blank. -/
theorem text_append_blank (c : LibCommand) :
    c.text ++ [' '] = c.argv.flatMap (· ++ [' ']) := by
  cases c <;> simp [text, argv, args, program, firstArgs, lastArg, slash, blank]

/-- The text is as long as its words with the blanks between them. -/
theorem length_text (c : LibCommand) :
    c.text.length + 1 = (c.argv.map fun w => w.length + 1).sum := by
  have h := congrArg List.length (text_append_blank c)
  rw [List.length_append, List.length_flatMap] at h
  simpa using h

/-- The last argument ends the text. -/
theorem lastArg_suffix (c : LibCommand) : c.lastArg <:+ c.text := by
  cases c with
  | move src dst => exact List.suffix_append _ _
  | copy src dst => exact List.suffix_append _ _
  | remove path => exact List.suffix_append _ _
  | setOwner owner path => exact ⟨chown ++ blank ++ (owner ++ blank), by simp [text, lastArg]⟩
  | setGroup group path => exact ⟨chgrp ++ blank ++ (group ++ blank), by simp [text, lastArg]⟩
  | getEntries path => exact ⟨ls ++ blank, by simp [text, lastArg]⟩

/-- The text starts with a letter. -/
theorem isspace_head?_text (c : LibCommand) {b : Char} (h : c.text.head? = some b) :
    isspace b = false := by
  cases c <;> obtain rfl := Option.some.inj h <;> decide

theorem plain_program (c : LibCommand) : ∀ w ∈ c.program, Sh.PlainWord w := by
  cases c <;> simp only [program] <;> decide

theorem getLast?_of_suffix {α : Type*} {l m : List α} (h : l <:+ m) (hne : l ≠ []) :
    m.getLast? = l.getLast? := by
  obtain ⟨k, rfl⟩ := h
  rw [List.getLast?_append, List.getLast?_eq_some_getLast hne, Option.some_or]

theorem toString_ne_nil (n : Nat) : toString n ≠ [] := Nat.toDigits_ne_nil

theorem isDigit_of_mem_toString {n : Nat} {c : Char} (h : c ∈ toString n) :
    c.isDigit = true :=
  Nat.isDigit_of_mem_toDigits (by decide) (by decide) h

/-- A digit is no special character. -/
theorem isOrdinary_of_isDigit {c : Char} (h : c.isDigit = true) :
    Sh.isOrdinary c = true ∧ Sh.isLeader c = false := by
  have hne : ∀ b : Char, b.isDigit = false → c ≠ b := fun b => Sh.ne_of_isDigit h
  have hspecial : c ∉ ['\n', ';', '&', '|', '<', '>', '(', ')', '$', '`', '*', '?', '['] := by
    simp only [List.mem_cons, List.not_mem_nil, or_false, not_or]
    refine ⟨?_, ?_, ?_, ?_, ?_, ?_, ?_, ?_, ?_, ?_, ?_, ?_, ?_⟩ <;>
      exact hne _ (by decide)
  constructor
  · have hactive : Sh.isActive c = false := by
      rw [Sh.isActive, List.contains_eq_mem]
      exact decide_eq_false hspecial
    simp [Sh.isOrdinary, Sh.isBlank, Sh.isQuote, hactive, hne ' ' (by decide),
      hne '\t' (by decide), hne '\'' (by decide), hne '"' (by decide),
      hne '\\' (by decide)]
  · simp [Sh.isLeader, hne '#' (by decide), hne '~' (by decide)]

/-- A number is a plain word. -/
theorem plain_toString (n : Nat) : Sh.PlainWord (toString n) := by
  obtain ⟨c, s, hs⟩ := List.exists_cons_of_ne_nil (toString_ne_nil n)
  have hdigit : ∀ b ∈ c :: s, b.isDigit = true :=
    fun b hb => isDigit_of_mem_toString (hs ▸ hb)
  rw [hs]
  exact ⟨(isOrdinary_of_isDigit (hdigit c List.mem_cons_self)).2,
    fun b hb => (isOrdinary_of_isDigit (hdigit b hb)).1⟩

/-! ## When the command arrives as it is meant -/

/-- The handed text, when nothing has gone into the output path. -/
theorem handedText_of_noOutput {sh : Shell} (h : sh.mOutputPath = []) (fd : Nat) :
    sh.handedText fd
      = sh.mCommand ++ " 2>&".toList ++ toString fd ++ " >&".toList ++ toString fd := by
  simp [Shell.handedText, Shell.toDevNull, h]

/-- A text of plain words goes through `updateCommand` unchanged. -/
theorem shell_of_plainArgs {c : LibCommand} (h : c.PlainArgs) :
    c.shell.mCommand = c.text ∧ c.shell.mOutputPath = [] := by
  have hplain : ∀ w ∈ c.argv, Sh.PlainWord w := by
    intro w hw
    rcases List.mem_append.1 hw with hw | hw
    · exact plain_program c w hw
    · exact h.1 w hw
  have hgt : '>' ∉ c.text := by
    intro hmem
    have hmem' : '>' ∈ c.argv.flatMap (· ++ [' ']) := by
      rw [← text_append_blank]
      exact List.mem_append_left _ hmem
    obtain ⟨w, hw, hc⟩ := List.mem_flatMap.1 hmem'
    rcases List.mem_append.1 hc with hc | hc
    · exact absurd ((hplain w hw).isOrdinary _ hc) (by decide)
    · exact absurd (List.mem_singleton.1 hc) (by decide)
  have hne : c.lastArg ≠ [] := (h.1 c.lastArg (by simp [args])).ne_nil
  have htrim : Trim c.text = c.text := by
    refine Trim_of_ends (fun b hb => isspace_head?_text c hb) (fun b hb => ?_)
    rw [getLast?_of_suffix (lastArg_suffix c) hne] at hb
    exact h.2 b hb
  rw [shell, Shell.ofCommand, Shell.updateCommand_of_notMem hgt]
  exact ⟨htrim, rfl⟩

/-- Plain words are read as the command that is meant. -/
theorem readCommand_of_plainArgs {c : LibCommand} (h : c.PlainArgs) (fd : Nat) :
    Sh.readCommand (c.shell.handedText fd) = some (c.command fd) := by
  have hplain : ∀ w ∈ c.argv, Sh.PlainWord w := by
    intro w hw
    rcases List.mem_append.1 hw with hw | hw
    · exact plain_program c w hw
    · exact h.1 w hw
  obtain ⟨hcmd, hout⟩ := shell_of_plainArgs h
  have htext : c.shell.handedText fd
      = c.argv.flatMap (· ++ [' ']) ++ (['2'] ++ '>' :: '&' ::
          (toString fd ++ ' ' :: '>' :: '&' :: toString fd)) := by
    rw [handedText_of_noOutput hout, hcmd, ← text_append_blank]
    simp
  have hdigit : ∀ c ∈ ['2'], c.isDigit = true := by
    intro c hc
    obtain rfl := List.mem_singleton.1 hc
    decide
  rw [htext, Sh.readCommand_join hplain (Or.inr (by decide)) hdigit (plain_toString fd)
    (plain_toString fd)]
  rfl

/-- The shell reads the command that is meant exactly when the strings from
outside are plain words and the last one does not end with white space. -/
theorem argumentIntegrity_iff (c : LibCommand) (fd : Nat) :
    c.ArgumentIntegrity fd ↔ c.PlainArgs := by
  constructor
  · rintro ⟨hout, hread⟩
    obtain ⟨hle, hplain⟩ := Sh.readCommand_width hread
    have hwidth : (c.command fd).width
        = c.text.length + 1 + (7 + 2 * (toString fd).length) := by
      simp only [Sh.Command.width, command, dups, ← length_text, List.map_cons,
        List.map_nil, List.sum_cons, List.sum_nil]
      rw [List.length_nil, List.length_singleton]
      omega
    have hlen : (c.shell.handedText fd).length
        = c.shell.mCommand.length + 7 + 2 * (toString fd).length := by
      rw [handedText_of_noOutput hout]
      simp only [List.length_append]
      have h1 : " 2>&".toList.length = 4 := rfl
      have h2 : " >&".toList.length = 3 := rfl
      omega
    have hroom : c.text.length ≤ c.shell.mCommand.length := by omega
    obtain ⟨hcmd, hlast⟩ : c.shell.mCommand = c.text ∧
        ∀ b, c.text.getLast? = some b → isspace b = false :=
      Shell.eq_of_length_mCommand hroom
    have hargs : ∀ w ∈ c.args, Sh.PlainWord w := by
      intro w hw
      refine hplain ?_ w (List.mem_append_right _ hw)
      rw [hwidth, hlen, hcmd]
      omega
    refine ⟨hargs, fun b hb => hlast b ?_⟩
    have hne : c.lastArg ≠ [] := (hargs c.lastArg (by simp [args])).ne_nil
    rw [getLast?_of_suffix (lastArg_suffix c) hne, hb]
  · intro h
    exact ⟨(shell_of_plainArgs h).2, readCommand_of_plainArgs h fd⟩

/-- A blank in the name of a directory makes `rm -rf` remove two other
things. -/
theorem not_argumentIntegrity_of_blank :
    ¬ ∀ (c : LibCommand) (fd : Nat), c.ArgumentIntegrity fd :=
  fun h => absurd (h (remove "/tmp/my dir".toList) 4) (by decide)

end LibCommand

end SysFs
