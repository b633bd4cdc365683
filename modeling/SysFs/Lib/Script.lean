import Mathlib.Data.List.DropRight
import SysFs.Lib.Sequence

/-!
# What a text of simple commands makes the shell do

A text whose simple commands are joined by `;`, `&`, `&&`, `||`, `|` and newlines
is a `Script`.  `scriptOf` reads it; it takes no compound command, no definition
of a function, no here-document, and no word with a pattern, an arithmetic
expansion or a `${…}` that is more than a name.

A simple command expands its words, then makes its redirections from left to
right, then runs its program.  `Script.Runs` are the orders in which all commands
of a script can do this: the commands of a pipeline run at the same time, and
what comes after a `&` does not wait for what is before it.

* `Script.SentTo`: what a script does when its standard output is sent to a file
  is something that another script does.
* `scriptOf_redirect`: a redirection behind a text belongs to its last command.
* `Script.sentTo_addLast_iff` says for which scripts such a redirection is the
  same as sending the output of the whole script to the file.
-/

namespace Sh

/-! ## Words -/

/-- What the shell has to do for a word. -/
inductive Expansion where
  /-- nothing that depends on more than the variables -/
  | plain
  /-- it runs a command, or it looks for files -/
  | active
  /-- an expansion that is not modelled -/
  | unread
deriving DecidableEq, Repr

/-- Where a place in a word is. -/
inductive Quoting where
  /-- in double quotes or in none -/
  | text (double : Bool)
  | single
  | escaped (double : Bool)
deriving DecidableEq, Repr

/-- A character of the name of a variable. -/
def isName (c : Char) : Bool := c.isAlphanum || c == '_'

/-- What a `$` before a text means.  Without quotes, the value of a variable can
be a pattern. -/
def afterDollar (quoted : Bool) : List Char → Expansion
  | '(' :: '(' :: _ => .unread
  | '(' :: _ => .active
  | '{' :: t =>
    if t.takeWhile isName = [] ∨ (t.dropWhile isName).head? ≠ some '}' then .unread
    else if quoted then .plain else .active
  | c :: _ =>
    if quoted then .plain
    else if isName c || "@*#?-$!".toList.contains c then .active
    else if isQuote c then .unread else .plain
  | [] => .plain

/-- What a word means.  `patterns` is whether it can be a pattern for names of
files. -/
def expansion (patterns : Bool) : Quoting → List Char → Expansion
  | _, [] => .plain
  | .single, c :: t => expansion patterns (if c = '\'' then .text false else .single) t
  | .escaped d, _ :: t => expansion patterns (.text d) t
  | .text d, c :: t =>
    if c = '\\' then expansion patterns (.escaped d) t
    else if c = '`' then .active
    else if c = '"' then expansion patterns (.text !d) t
    else if c = '\'' ∧ d = false then expansion patterns .single t
    else if c = '$' ∧ afterDollar (d || !patterns) t ≠ .plain then
      afterDollar (d || !patterns) t
    else if patterns ∧ d = false ∧ (c = '*' ∨ c = '?' ∨ c = '[' ∧ ']' ∈ t) then .unread
    else expansion patterns (.text d) t

/-- An argument of a command. -/
def argument (t : List Char) : Expansion := expansion true (.text false) t

/-- The name of a file, or the value of a variable. -/
def value (t : List Char) : Expansion := expansion false (.text false) t

/-- A variable and its value. -/
def isAssignment (t : List Char) : Bool :=
  (t.takeWhile isName).head?.any (fun c => !c.isDigit) && (t.dropWhile isName).head? == some '='

/-! ## Commands -/

/-- A redirection: the descriptor, the operator and the word behind it. -/
structure Redir where
  fd : ℕ
  op : List Char
  target : List Char
deriving DecidableEq, Repr

/-- The redirection that an operator and the word behind it are. -/
def redirOf (o t : List Char) : Option Redir :=
  let number := o.takeWhile Char.isDigit
  let op := o.dropWhile Char.isDigit
  let fd :=
    if number ≠ [] then Nat.ofDigitChars 10 number 0 else if op.head? = some '<' then 0 else 1
  if joined t = [] ∨ value t = .unread then none
  else if (["<", ">", ">>", "<>", ">|"].map String.toList).contains op then some ⟨fd, op, t⟩
  else if (["<&", ">&"].map String.toList).contains op ∧ IsFd t then some ⟨fd, op, t⟩
  else none

/-- A simple command, as it is written. -/
structure Simple where
  words : List (List Char)
  redirs : List Redir
deriving DecidableEq, Repr

/-- Nothing has been read. -/
instance : EmptyCollection Simple := ⟨⟨[], []⟩⟩

/-- Whether a further word of a command is read.  A variable at its start that
gets the output of a command is not: shells do this before the redirections or
after them. -/
def Simple.takes (c : Simple) (t : List Char) : Bool :=
  if c.words.all isAssignment && isAssignment t then value t == .plain
  else argument t != .unread

/-- How a simple command is joined to the next one. -/
inductive Link where
  | semi
  | amp
  | and
  | or
  | pipe
  | newline
deriving DecidableEq, Repr

/-- The link that an operator is. -/
def Link.ofOp (o : List Char) : Option Link :=
  if o = [';'] then some .semi
  else if o = ['&'] then some .amp
  else if o = ['&', '&'] then some .and
  else if o = ['|', '|'] then some .or
  else if o = ['|'] then some .pipe
  else none

/-- Whether a command has to come after it. -/
def Link.needs : Link → Bool
  | .and | .or | .pipe => true
  | .semi | .amp | .newline => false

/-- Simple commands, one after the other. -/
inductive Script where
  | nil
  | one (c : Simple)
  | cons (c : Simple) (l : Link) (rest : Script)
deriving DecidableEq, Repr

/-- The script that pieces make, where `c` is what has been read of its first
command, and `needs` is whether there has to be one. -/
def commands : Bool → Simple → List Piece → Option Script
  | needs, c, [] =>
    if c ≠ ∅ then some (.one c) else if needs then none else some .nil
  | needs, c, .word t :: ps =>
    -- a line continuation alone is no word
    if joined t = [] then commands needs c ps
    else if c = ∅ ∧ reservedWords.contains (joined t) then none
    else if c.takes t then commands needs ⟨c.words ++ [t], c.redirs⟩ ps
    else none
  | needs, c, .op o :: ps =>
    match Link.ofOp o with
    | some l => if c = ∅ then none else (commands l.needs ∅ ps).map (.cons c l)
    | none =>
      match ps with
      | .word t :: ps' =>
        match redirOf o t with
        | some r => commands needs ⟨c.words, c.redirs ++ [r]⟩ ps'
        | none => none
      | _ => none
  | needs, c, .newline :: ps =>
    if c = ∅ then commands needs c ps else (commands false ∅ ps).map (.cons c .newline)
  | needs, c, .comment _ :: ps => commands needs c ps
  | needs, c, .blank _ :: ps => commands needs c ps

/-- All quotations and substitutions are closed. -/
def Reader.Closed : Reader → Prop
  | .word _ ns => settled ' ' ns = []
  | _ => True

instance : DecidablePred Reader.Closed
  | .idle => inferInstanceAs (Decidable True)
  | .comment _ => inferInstanceAs (Decidable True)
  | .op _ _ => inferInstanceAs (Decidable True)
  | .word _ ns => inferInstanceAs (Decidable (settled ' ' ns = []))

/-- Pieces without the newlines at their end. -/
def stripped (ps : List Piece) : List Piece := ps.rdropWhile (· = .newline)

/-- The script that a text is. -/
def scriptOf (text : List Char) : Option Script :=
  if (reached text).Closed then
    commands false ∅ (stripped ((pieces text).filter Piece.counts))
  else none

/-- There are lines in the text that the shell gives to a command and does not
read as commands. -/
def HereDocument (text : List Char) : Prop :=
  ∃ o, .op o ∈ pieces text ∧ ("<<".toList <:+ o ∨ "<<-".toList <:+ o)

/-! ## What commands do -/

/-- What is done to a descriptor of a command. -/
inductive Setting where
  | pipeIn
  | pipeOut
  | redir (r : Redir)
deriving DecidableEq, Repr

/-- What the shell does for a command. -/
inductive Effect where
  | expands (word : List Char)
  | opens (r : Redir)
  /-- runs a program, or sets variables -/
  | runs (words : List (List Char)) (settings : List Setting)
deriving DecidableEq, Repr

namespace Simple

/-- The words that need more than the variables. -/
def expanded (c : Simple) : List (List Char) :=
  (c.words.dropWhile isAssignment).filter fun w => argument w = .active

/-- What the shell does for a redirection. -/
def effect (r : Redir) : List Effect :=
  (if value r.target = .active then [.expands r.target] else []) ++ [.opens r]

/-- What the shell does for a command, where `base` has been done to its
descriptors before. -/
def effects (base : List Setting) (c : Simple) : List Effect :=
  c.expanded.map .expands ++ c.redirs.flatMap effect ++
    if c.words = [] then [] else [.runs c.words (base ++ c.redirs.map .redir)]

/-- The shell does nothing for a command before it opens files, and these are
what `r` opens. -/
def OnlyTo (r : Redir) (c : Simple) : Prop := c.expanded = [] ∧ ∀ x ∈ c.redirs, x = r

end Simple

namespace Script

/-- What each command does.  `piped` is whether the first one reads from a pipe,
and `out` is what has been done to the standard output of the script. -/
def effects (out : List Setting) : Bool → Script → List (List Effect)
  | _, nil => []
  | piped, one c => [c.effects ((if piped then [.pipeIn] else []) ++ out)]
  | piped, cons c l rest =>
    c.effects ((if piped then [.pipeIn] else []) ++ if l = .pipe then [.pipeOut] else out) ::
      rest.effects out (l = .pipe)

/-- What is between the commands. -/
def links : Script → List Link
  | cons _ l rest => l :: rest.links
  | _ => []

/-- The number of the last command, from 0 on, or of the one that comes after the
last link. -/
def last : Script → ℕ
  | cons _ _ rest => rest.last + 1
  | _ => 0

/-- A redirection of the last command. -/
def addLast (r : Redir) : Script → Script
  | nil => one ⟨[], [r]⟩
  | one c => one ⟨c.words, c.redirs ++ [r]⟩
  | cons c l rest => cons c l (rest.addLast r)

/-- There is something of each command. -/
def Proper : Script → Prop
  | nil => True
  | one c => c ≠ ∅
  | cons c _ rest => c ≠ ∅ ∧ rest.Proper

end Script

/-- Whether the shell waits for the first command before the command behind the
links.  `ended` is whether the pipeline of the first one has ended. -/
def waitsFrom : Bool → List Link → Bool
  | ended, [] => ended
  | ended, .pipe :: ls => waitsFrom ended ls
  | _, .and :: ls | _, .or :: ls => waitsFrom true ls
  | _, .semi :: _ | _, .newline :: _ => true
  | _, .amp :: _ => false

/-- The shell waits for the command `i` before the command `j`. -/
def Waits (ls : List Link) (i j : ℕ) : Prop :=
  i < j ∧ waitsFrom false ((ls.drop i).take (j - i)) = true

namespace Script

/-- What all commands of a script do, with their numbers, in an order that is
possible. -/
structure Runs (q : Script) (out : List Setting) (es : List (ℕ × Effect)) : Prop where
  effects : ∀ i, (es.filter (·.1 = i)).map Prod.snd = (q.effects out false).getD i []
  order : es.Pairwise fun a b => ¬ Waits q.links b.1 a.1

/-- When the file is opened and the script `q` is run with its standard output
there, the shell does something that it does for the script `p`. -/
def SentTo (r : Redir) (q p : Script) : Prop :=
  q.links = p.links ∧ ∃ k, ∀ es, q.Runs [.redir r] es → p.Runs [] ((k, .opens r) :: es)

/-- Each command but the last one writes into a pipe, or has no program, and the
last one opens nothing but the file. -/
def Hands (r : Redir) : Script → Prop
  | nil => True
  | one c => c.OnlyTo r
  | cons c l rest => (l = .pipe ∨ c.words = []) ∧ rest.Hands r

/-- The output of a script is that of its last command, and this need not wait
for another one. -/
structure Sends (r : Redir) (q : Script) : Prop where
  hands : q.Hands r
  free : ∀ i < q.last, ¬ Waits q.links i q.last

end Script

variable {q : Script} {r : Redir} {c : Simple} {out : List Setting} {ps : List Piece}

/-! ## A redirection behind a text -/

theorem commands_link {o : List Char} {l : Link} (h : Link.ofOp o = some l) (needs : Bool)
    (hc : c ≠ ∅) (ps : List Piece) :
    commands needs c (.op o :: ps) = (commands l.needs ∅ ps).map (.cons c l) := by
  rw [commands.eq_def]
  simp only [h, if_neg hc]

theorem commands_redir {o t : List Char} (h : Link.ofOp o = none) (hr : redirOf o t = some r)
    (needs : Bool) (c : Simple) (ps : List Piece) :
    commands needs c (.op o :: .word t :: ps)
      = commands needs ⟨c.words, c.redirs ++ [r]⟩ ps := by
  rw [commands.eq_def]
  simp only [h, hr]

/-- What has a redirection is something. -/
theorem ne_empty_of_redir (ws : List (List Char)) (rs : List Redir) (r : Redir) :
    (⟨ws, rs ++ [r]⟩ : Simple) ≠ ∅ := by
  intro h
  have hredirs : rs ++ [r] = [] := congrArg Simple.redirs h
  simp at hredirs

/-- A redirection behind pieces belongs to the last command. -/
theorem commands_append {o t : List Char} (ho : Link.ofOp o = none) (hr : redirOf o t = some r)
    (needs : Bool) (c : Simple) (ps : List Piece) (h : commands needs c ps = some q) :
    commands needs c (ps ++ [.op o, .word t]) = some (q.addLast r) := by
  have hlast : ∀ (needs : Bool) (c : Simple), commands needs c [.op o, .word t]
      = some (.one ⟨c.words, c.redirs ++ [r]⟩) := by
    intro needs c
    rw [commands_redir ho hr]
    exact if_pos (ne_empty_of_redir _ _ _)
  fun_induction commands needs c ps generalizing q with
  | case1 needs c hc =>
    cases h
    exact hlast needs c
  | case2 => cases h
  | case3 needs c hc hneeds =>
    cases h
    obtain rfl := not_not.1 hc
    exact hlast needs ∅
  | case4 needs c t' ps ht ih =>
    rw [List.cons_append, commands, if_pos ht]
    exact ih h
  | case5 => cases h
  | case6 needs c t' ps ht hreserved htakes ih =>
    rw [List.cons_append, commands, if_neg ht, if_neg hreserved, if_pos htakes]
    exact ih h
  | case7 => cases h
  | case8 => cases h
  | case9 needs c o' ps l hl hc ih =>
    obtain ⟨rest, hrest, rfl⟩ := Option.map_eq_some_iff.1 h
    rw [List.cons_append, commands_link hl needs hc, ih hrest]
    rfl
  | case10 needs c o' hl t' ps r' hr' ih =>
    rw [List.cons_append, List.cons_append, commands_redir hl hr']
    exact ih h
  | case11 => cases h
  | case12 => cases h
  | case13 needs ps ih =>
    rw [List.cons_append, commands, if_pos rfl]
    exact ih h
  | case14 needs c ps hc ih =>
    obtain ⟨rest, hrest, rfl⟩ := Option.map_eq_some_iff.1 h
    rw [List.cons_append, commands, if_neg hc, ih hrest]
    rfl
  | case15 needs c t' ps ih =>
    rw [List.cons_append, commands]
    exact ih h
  | case16 needs c b ps ih =>
    rw [List.cons_append, commands]
    exact ih h

/-- Newlines before a script are no part of it. -/
theorem commands_newlines (needs : Bool) (k : ℕ) (ps : List Piece) :
    commands needs ∅ (List.replicate k .newline ++ ps) = commands needs ∅ ps := by
  induction k with
  | zero => rfl
  | succ k ih =>
    rw [List.replicate_succ, List.cons_append, commands, if_pos rfl]
    exact ih

/-- No command is read from nothing. -/
theorem commands_proper (needs : Bool) (c : Simple) (ps : List Piece)
    (h : commands needs c ps = some q) : q.Proper := by
  fun_induction commands needs c ps generalizing q with
  | case1 needs c hc =>
    cases h
    exact hc
  | case2 => cases h
  | case3 => cases h; trivial
  | case4 needs c t' ps ht ih => exact ih h
  | case5 => cases h
  | case6 needs c t' ps ht hreserved htakes ih => exact ih h
  | case7 => cases h
  | case8 => cases h
  | case9 needs c o' ps l hl hc ih =>
    obtain ⟨rest, hrest, rfl⟩ := Option.map_eq_some_iff.1 h
    exact ⟨hc, ih hrest⟩
  | case10 needs c o' hl t' ps r' hr' ih => exact ih h
  | case11 => cases h
  | case12 => cases h
  | case13 needs ps ih => exact ih h
  | case14 needs c ps hc ih =>
    obtain ⟨rest, hrest, rfl⟩ := Option.map_eq_some_iff.1 h
    exact ⟨hc, ih hrest⟩
  | case15 needs c t' ps ih => exact ih h
  | case16 needs c b ps ih => exact ih h

/-! ## The redirection of the last command -/

namespace Script

@[simp] theorem links_addLast (r : Redir) (q : Script) : (q.addLast r).links = q.links := by
  induction q with
  | nil => rfl
  | one c => rfl
  | cons c l rest ih => exact congrArg (l :: ·) ih

end Script

/-- What is in front of a list as well as behind it is all that is in it. -/
theorem eq_replicate_of_cons_eq_concat {α : Type*} {a : α} {xs : List α} (h : a :: xs = xs ++ [a]) :
    ∀ x ∈ xs, x = a := by
  induction xs with
  | nil => exact List.forall_mem_nil _
  | cons x xs ih =>
    rw [List.cons_append, List.cons.injEq] at h
    obtain ⟨rfl, h⟩ := h
    exact List.forall_mem_cons.2 ⟨rfl, ih h⟩

namespace Simple

theorem effect_append (hr : value r.target ≠ .active) (rs : List Redir) :
    (rs ++ [r]).flatMap effect = rs.flatMap effect ++ [.opens r] := by
  rw [List.flatMap_append, List.flatMap_singleton, effect, if_neg hr, List.nil_append]

/-- The redirection is made after all other things, or before them. -/
theorem effects_eq_iff (hr : value r.target ≠ .active) (base : List Setting) (c : Simple) :
    .opens r :: c.effects (base ++ [.redir r])
        = (⟨c.words, c.redirs ++ [r]⟩ : Simple).effects base ↔ c.OnlyTo r := by
  have hexpanded : (⟨c.words, c.redirs ++ [r]⟩ : Simple).expanded = c.expanded := rfl
  constructor
  · intro h
    rw [effects, effects, hexpanded, effect_append hr, ← List.append_assoc,
      ← List.cons_append] at h
    obtain ⟨hbefore, -⟩ := List.append_inj h (by simp [Nat.add_assoc])
    have hall := eq_replicate_of_cons_eq_concat hbefore
    constructor
    · rw [List.eq_nil_iff_forall_not_mem]
      intro w hw
      have heq := hall _ (List.mem_append_left _ (List.mem_map_of_mem hw))
      cases heq
    · intro x hx
      have hmem : Effect.opens x ∈ c.redirs.flatMap effect :=
        List.mem_flatMap.2 ⟨x, hx, by simp [effect]⟩
      exact Effect.opens.inj (hall _ (List.mem_append_right _ hmem))
  · rintro ⟨hnone, hall⟩
    have hsame : r :: c.redirs = c.redirs ++ [r] := by
      rw [List.eq_replicate_of_mem hall, ← List.replicate_succ, List.replicate_succ']
    have hopens : Effect.opens r :: c.redirs.flatMap effect
        = c.redirs.flatMap effect ++ [.opens r] := by
      rw [← effect_append hr, ← hsame, List.flatMap_cons, effect, if_neg hr]
      rfl
    rw [effects, effects, hexpanded, hnone, effect_append hr, ← hopens, ← hsame]
    simp

/-- The start of the descriptors matters to a program only. -/
theorem effects_base_iff (b b' : List Setting) (c : Simple) :
    c.effects b = c.effects b' ↔ b = b' ∨ c.words = [] := by
  rw [effects, effects, List.append_right_inj]
  split
  · simp [*]
  · simp [*]

theorem length_effects (b b' : List Setting) (c : Simple) :
    (c.effects b).length = (c.effects b').length := by
  rw [effects, effects]
  split <;> simp

theorem effects_ne_nil (base : List Setting) (hc : c ≠ ∅) : c.effects base ≠ [] := by
  intro h
  rw [effects, List.append_eq_nil_iff, List.append_eq_nil_iff] at h
  obtain ⟨⟨-, hredirs⟩, hruns⟩ := h
  apply hc
  have hwords : c.words = [] := by
    by_contra hne
    rw [if_neg hne] at hruns
    cases hruns
  have hnone : c.redirs = [] := by
    rw [List.flatMap_eq_nil_iff] at hredirs
    rw [List.eq_nil_iff_forall_not_mem]
    intro x hx
    have hx' := hredirs x hx
    simp [effect] at hx'
  obtain ⟨words, redirs⟩ := c
  obtain rfl : words = [] := hwords
  obtain rfl : redirs = [] := hnone
  rfl

end Simple


/-! ## One run of a script -/

/-- What is done for the commands from `n` on, one command after the other. -/
def inOrder {α : Type*} : ℕ → List (List α) → List (ℕ × α)
  | _, [] => []
  | n, es :: ess => es.map (n, ·) ++ inOrder (n + 1) ess

section InOrder

variable {α : Type*}

theorem le_of_mem_inOrder {ess : List (List α)} {n : ℕ} {x : ℕ × α} (h : x ∈ inOrder n ess) :
    n ≤ x.1 := by
  induction ess generalizing n with
  | nil => cases h
  | cons es ess ih =>
    rcases List.mem_append.1 h with h | h
    · obtain ⟨e, -, rfl⟩ := List.mem_map.1 h
      exact le_refl _
    · exact (Nat.le_succ n).trans (ih h)

theorem pairwise_inOrder (ess : List (List α)) (n : ℕ) :
    (inOrder n ess).Pairwise fun a b => a.1 ≤ b.1 := by
  induction ess generalizing n with
  | nil => exact List.Pairwise.nil
  | cons es ess ih =>
    rw [inOrder, List.pairwise_append]
    refine ⟨?_, ih (n + 1), ?_⟩
    · rw [List.pairwise_map]
      exact List.pairwise_of_forall fun _ _ => le_refl n
    · intro a ha b hb
      obtain ⟨e, -, rfl⟩ := List.mem_map.1 ha
      exact (Nat.le_succ n).trans (le_of_mem_inOrder hb)

theorem filter_inOrder (ess : List (List α)) (n i : ℕ) :
    ((inOrder n ess).filter (·.1 = n + i)).map Prod.snd = ess.getD i [] := by
  induction ess generalizing n i with
  | nil => rfl
  | cons es ess ih =>
    rw [inOrder, List.filter_append, List.map_append]
    cases i with
    | zero =>
      have hfirst : (es.map (n, ·)).filter (·.1 = n + 0) = es.map (n, ·) := by
        rw [List.filter_eq_self]
        intro x hx
        obtain ⟨e, -, rfl⟩ := List.mem_map.1 hx
        simp
      have hrest : (inOrder (n + 1) ess).filter (·.1 = n + 0) = [] := by
        rw [List.filter_eq_nil_iff]
        intro x hx
        have hle := le_of_mem_inOrder hx
        simp only [decide_eq_true_eq]
        omega
      rw [hfirst, hrest, List.map_map]
      simp [Function.comp_def]
    | succ i =>
      have hfirst : (es.map (n, ·)).filter (·.1 = n + (i + 1)) = [] := by
        rw [List.filter_eq_nil_iff]
        intro x hx
        obtain ⟨e, -, rfl⟩ := List.mem_map.1 hx
        simp
      have hnext : n + (i + 1) = n + 1 + i := by omega
      rw [hfirst, hnext, ih (n + 1) i]
      rfl

end InOrder

namespace Script

/-- One command after the other is a possible order. -/
theorem runs_inOrder (q : Script) (out : List Setting) :
    q.Runs out (inOrder 0 (q.effects out false)) := by
  constructor
  · intro i
    have h := filter_inOrder (q.effects out false) 0 i
    rwa [Nat.zero_add] at h
  · exact (pairwise_inOrder _ 0).imp fun hle hwaits => absurd hwaits.1 (Nat.not_lt.2 hle)

/-- Each command does something. -/
theorem effects_ne_nil (hq : q.Proper) (out : List Setting) (piped : Bool) {i : ℕ}
    (hi : i < q.last) : (q.effects out piped).getD i [] ≠ [] := by
  induction q generalizing piped i with
  | nil => cases hi
  | one c => cases hi
  | cons c l rest ih =>
    cases i with
    | zero => exact c.effects_ne_nil _ hq.1
    | succ i => exact ih hq.2 _ (Nat.lt_of_succ_lt_succ hi)

/-- The commands do the same, but for the opening of the file, exactly if only
the last one writes to the standard output of the script. -/
theorem effects_addLast_iff (hr : value r.target ≠ .active) (q : Script) (piped : Bool) (k : ℕ) :
    (∀ i, (if k = i then [.opens r] else []) ++ (q.effects [.redir r] piped).getD i []
        = ((q.addLast r).effects [] piped).getD i [])
      ↔ k = q.last ∧ q.Hands r := by
  -- The file is opened for none of the commands behind the last one.
  have hbehind : ∀ k : ℕ,
      (∀ i, (if k = i + 1 then [Effect.opens r] else []) ++ [] = []) ↔ k = 0 := by
    intro k
    cases k with
    | zero => simp
    | succ k => simp
  induction q generalizing piped k with
  | nil =>
    rw [← Nat.and_forall_add_one]
    refine (and_congr_right fun _ => hbehind k).trans ⟨fun h => ⟨h.2, trivial⟩, fun h => ⟨?_, h.1⟩⟩
    obtain rfl : k = 0 := h.1
    simp [effects, addLast, Simple.effects, Simple.effect, Simple.expanded, hr]
  | one c =>
    rw [← Nat.and_forall_add_one, and_comm]
    refine (and_congr_left fun _ => hbehind k).trans (and_congr_right ?_)
    rintro rfl
    simpa [effects, addLast, Hands] using
      Simple.effects_eq_iff hr (if piped then [.pipeIn] else []) c
  | cons c l rest ih =>
    rw [← Nat.and_forall_add_one]
    have hbase := c.effects_base_iff
      ((if piped then [.pipeIn] else []) ++ if l = .pipe then [.pipeOut] else [.redir r])
      ((if piped then [.pipeIn] else []) ++ if l = .pipe then [.pipeOut] else [])
    have hpipe : (if l = .pipe then [Setting.pipeOut] else [.redir r])
        = (if l = .pipe then [.pipeOut] else []) ↔ l = .pipe := by
      split <;> simp [*]
    rw [List.append_right_inj, hpipe] at hbase
    cases k with
    | zero =>
      constructor
      · rintro ⟨h, -⟩
        have hlength := congrArg List.length h
        rw [if_pos rfl, List.length_append] at hlength
        have hsame : ((effects [.redir r] piped (cons c l rest)).getD 0 []).length
            = ((effects [] piped (addLast r (cons c l rest))).getD 0 []).length :=
          c.length_effects _ _
        rw [List.length_singleton] at hlength
        omega
      · rintro ⟨h, -⟩
        cases h
    | succ k =>
      have hrest := ih (l = .pipe) k
      simp only [effects, addLast, last, Hands, List.getD_cons_zero, List.getD_cons_succ,
        Nat.succ_ne_zero, if_false, List.nil_append, Nat.add_right_cancel_iff, hbase]
      exact (and_congr_right fun _ => hrest).trans and_left_comm

end Script

/-- Sending the output of a script to a file is the same as a redirection of its
last command exactly if the output of the script is that of this command, and
nothing has to be done before the file is opened. -/
theorem Script.sentTo_addLast_iff (hq : q.Proper) (hr : value r.target ≠ .active) :
    q.SentTo r (q.addLast r) ↔ q.Sends r := by
  constructor
  · rintro ⟨-, k, hruns⟩
    have hrun := q.runs_inOrder [.redir r]
    have h := hruns _ hrun
    have heffects : ∀ i, (if k = i then [.opens r] else []) ++
        (q.effects [.redir r] false).getD i [] = ((q.addLast r).effects [] false).getD i [] := by
      intro i
      rw [← h.effects i, ← hrun.effects i, List.filter_cons]
      split <;> simp_all
    obtain ⟨rfl, hhands⟩ := (effects_addLast_iff hr q false k).1 heffects
    refine ⟨hhands, fun i hi => ?_⟩
    -- The command `i` does something, and not before the file is opened.
    obtain ⟨e, he⟩ := List.exists_mem_of_ne_nil _ (effects_ne_nil hq [.redir r] false hi)
    rw [← hrun.effects i] at he
    obtain ⟨x, hx, rfl⟩ := List.mem_map.1 he
    obtain ⟨hmem, hfst⟩ := List.mem_filter.1 hx
    have hnot := (List.pairwise_cons.1 h.order).1 x hmem
    rw [of_decide_eq_true hfst, links_addLast] at hnot
    exact hnot
  · intro h
    refine ⟨(links_addLast r q).symm, q.last, fun es hes => ⟨fun i => ?_, ?_⟩⟩
    · rw [← (effects_addLast_iff hr q false q.last).2 ⟨rfl, h.hands⟩ i, ← hes.effects i,
        List.filter_cons]
      split <;> simp_all
    · rw [links_addLast, List.pairwise_cons]
      refine ⟨fun b _ hwaits => ?_, hes.order⟩
      exact h.free b.1 hwaits.1 hwaits

/-! ## Reading a redirection behind a text -/

theorem Reader.Top.closed {st : Reader} (h : st.Top) : st.Closed := by
  cases st with
  | comment t => trivial
  | idle => trivial
  | op n o => trivial
  | word t ns => exact h

/-- Blanks and newlines open nothing. -/
theorem top_run_gaps {s : List Char} {st : Reader} (hst : st.Top) (hs : ∀ x ∈ s, IsGap x) :
    (run st s).2.Top := by
  by_cases hne : s = []
  · rw [hne]
    exact hst
  · rw [run_gaps s st hst hne hs]
    trivial

/-- The name of a file needs no expansion. -/
theorem value_fileWord {t : List Char} (ht : FileWord t) : value t = .plain := by
  have hbare : ∀ s : List Char, (∀ c ∈ s, isBare c = true) →
      expansion false (.text false) s = .plain := by
    intro s hs
    induction s with
    | nil => rfl
    | cons c s ih =>
      rw [List.forall_mem_cons] at hs
      obtain ⟨-, hquote, -, -, hdollar, hback⟩ := isBare_iff.1 hs.1
      simp only [isQuote, Bool.or_eq_false_iff, beq_eq_false_iff_ne] at hquote
      simp [expansion, hquote, hdollar, hback, ih hs.2]
  exact hbare t fun c hc => ht.isBare hc

theorem redirOf_fileWord {t : List Char} (ht : FileWord t) :
    redirOf ['>'] t = some ⟨1, ['>'], t⟩ := by
  have hjoined : joined t ≠ [] := by
    rw [joined_of_notMem (backslash_notMem_of_bare fun b hb => ht.isBare hb)]
    exact ht.ne_nil
  have hvalue : value t ≠ .unread := by
    rw [value_fileWord ht]
    simp
  unfold redirOf
  simp [hjoined, hvalue, List.takeWhile, List.dropWhile]

/-- The pieces of a text that does not end with a blank or a newline do not end
with a newline. -/
theorem stripped_pieces {s : List Char} (hend : ∀ c, s.getLast? = some c → ¬ IsGap c) :
    stripped ((pieces s).filter Piece.counts) = (pieces s).filter Piece.counts := by
  rw [stripped, List.rdropWhile_eq_self_iff]
  intro hne hlast
  have hsplit := List.dropLast_append_getLast hne
  rw [of_decide_eq_true hlast] at hsplit
  obtain ⟨ps, qs, hpieces, -, hnewline⟩ := List.filter_eq_append_iff.1 hsplit.symm
  have hformed := formed_pieces s
  rw [hpieces] at hformed
  have hgap := isGap_of_mem_written (j := 1)
    (fun p hp => hformed p (List.mem_append_right _ hp)) hnewline
  have hwritten : s = written ps ++ written qs := by
    rw [← written_append, ← hpieces, written_pieces]
  have hmem : '\n' ∈ written qs := by
    have hfilter : Piece.newline ∈ qs.filter Piece.counts := by
      rw [hnewline]
      exact List.mem_singleton_self _
    exact List.mem_flatMap.2 ⟨_, (List.mem_filter.1 hfilter).1, List.mem_singleton_self _⟩
  have hne' := List.ne_nil_of_mem hmem
  have hlast' : s.getLast? = some ((written qs).getLast hne') := by
    rw [hwritten, List.getLast?_append_of_ne_nil _ hne', List.getLast?_eq_some_getLast]
  exact hend _ hlast' (hgap _ (List.getLast_mem hne'))

theorem stripped_newlines (ps : List Piece) (k : ℕ) :
    stripped (ps ++ List.replicate k .newline) = stripped ps := by
  rw [stripped, List.rdropWhile, List.reverse_append, List.dropWhile_append_of_pos]
  · rfl
  · intro p hp
    rw [List.reverse_replicate] at hp
    exact decide_eq_true (List.eq_of_mem_replicate hp)

theorem stripped_word (ps : List Piece) (t : List Char) :
    stripped (ps ++ [.word t]) = ps ++ [.word t] :=
  List.rdropWhile_concat_neg _ _ _ (by simp)

/-- A redirection behind a text belongs to its last command.  Newlines before the
text and after the redirection mean nothing. -/
theorem scriptOf_redirect {l s r b path a : List Char} (hl : ∀ x ∈ l, IsGap x)
    (hr : ∀ x ∈ r, isBlank x = true) (hb : ∀ x ∈ b, isBlank x = true) (ha : ∀ x ∈ a, IsGap x)
    (hready : Ready s r) (hpath : FileWord path) (hend : ∀ c, s.getLast? = some c → ¬ IsGap c)
    (h : scriptOf s = some q) : scriptOf (l ++ s ++ r ++ '>' :: (b ++ (path ++ a)))
      = some (q.addLast ⟨1, ['>'], path⟩) := by
  have hblank : ∀ x ∈ b, IsGap x := fun x hx => Or.inl (hb x hx)
  have hclosed : (reached (l ++ s ++ r ++ '>' :: (b ++ (path ++ a)))).Closed := by
    rw [reached, List.append_cons, run_append, run_of_ready hl hr hready, ← List.append_assoc,
      run_append, run_redirect hblank hpath]
    have htop : (Reader.word path []).Top := rfl
    exact (top_run_gaps htop ha).closed
  have hpieces : (pieces (l ++ s ++ r ++ '>' :: (b ++ (path ++ a)))).filter Piece.counts
      = List.replicate (l.count '\n') .newline ++ ((pieces s).filter Piece.counts
        ++ [.op ['>'], .word path]) ++ List.replicate (a.count '\n') .newline := by
    have hafter : (read (.op [] ['>']) (b ++ (path ++ a))).filter Piece.counts
        = [.op ['>'], .word path] ++ List.replicate (a.count '\n') .newline := by
      rw [read_redirect hblank hpath ha, List.filter_cons_of_pos rfl, List.filter_append,
        filter_map_blanks hb, List.filter_cons_of_pos rfl, filter_map_gap ha]
      rfl
    rw [pieces_of_ready hl hr hready, List.filter_append, List.filter_append, List.filter_append,
      filter_map_gap hl, filter_map_blanks hr, hafter]
    simp
  unfold scriptOf at h
  split at h
  · rw [stripped_pieces hend] at h
    rw [scriptOf, if_pos hclosed, hpieces]
    have hword := stripped_word (List.replicate (l.count '\n') .newline ++
      ((pieces s).filter Piece.counts ++ [.op ['>']])) path
    rw [List.append_assoc, List.append_assoc, List.singleton_append] at hword
    rw [stripped_newlines, hword, commands_newlines]
    exact commands_append rfl (redirOf_fileWord hpath) _ _ _ h
  · cases h

theorem scriptOf_proper {s : List Char} (h : scriptOf s = some q) : q.Proper := by
  unfold scriptOf at h
  split at h
  · exact commands_proper _ _ _ h
  · cases h

end Sh
