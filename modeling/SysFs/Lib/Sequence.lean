import Mathlib.Logic.Function.Basic
import SysFs.Lib.Redirect

/-!
# Sequences of simple commands

A text that joins simple commands with `;`, `&&` and `|`, and where the output of
each of them goes.  `parse` reads the pieces of such a text and the duplications
of descriptors in it; it takes no other operator, no newline, no comment and no
reserved word in the place of a program.

A duplication belongs to the simple command that it is written behind, so what is
written behind the whole text belongs to the last one only (`parse_append`).
`Sequence.target` is what a stream of a command leads to after its duplications:
a descriptor of the shell, or the pipe to the next command.  A run is the list of
the writes of all commands, in the order in which they happen, and
`Sequence.received` is what a run sends to some of the targets.
-/

namespace Sh

/-- How a simple command is joined to the next one. -/
inductive Joint where
  | semi
  | and
  | pipe
deriving DecidableEq, Repr

/-- The joint that an operator is. -/
def Joint.ofOp (o : List Char) : Option Joint :=
  if o = [';'] then some .semi
  else if o = ['&', '&'] then some .and
  else if o = ['|'] then some .pipe
  else none

/-- The descriptor that the operator `[n]>&` is about: empty when it is not
given. -/
def dupOf (o : List Char) : Option (List Char) :=
  if o.drop (o.length - 2) = ['>', '&'] ∧ (o.take (o.length - 2)).all Char.isDigit then
    some (o.take (o.length - 2))
  else none

/-- A word that is a number. -/
def IsFd (t : List Char) : Prop := t ≠ [] ∧ ∀ c ∈ t, c.isDigit = true

instance : DecidablePred IsFd := fun t =>
  have : Decidable (∀ c ∈ t, c.isDigit = true) := List.decidableBAll _ _
  inferInstanceAs (Decidable (t ≠ [] ∧ ∀ c ∈ t, c.isDigit = true))

/-- The words that are no program where a command starts. -/
def reservedWords : List (List Char) :=
  ["!", "\x7b", "\x7d", "[[", "]]", "case", "do", "done", "elif", "else", "esac", "fi", "for",
    "function", "if", "in", "select", "then", "until", "while"].map String.toList

/-- Simple commands, one after the other. -/
inductive Sequence where
  | one (c : Command)
  | cons (c : Command) (j : Joint) (rest : Sequence)
deriving DecidableEq, Repr

/-- The sequence that pieces other than blanks make, where `c` is what has been
read of its first command. -/
def parse : Command → List Piece → Option Sequence
  | c, [] => if c.argv = [] then none else some (.one c)
  | c, .word t :: ps =>
    -- a line continuation alone is no word
    if joined t = [] then parse c ps
    else if c.argv = [] ∧ reservedWords.contains (joined t) then none
    else parse ⟨c.argv ++ [t], c.dups⟩ ps
  | c, .op o :: ps =>
    match Joint.ofOp o with
    | some j => if c.argv = [] then none else (parse ⟨[], []⟩ ps).map (.cons c j)
    | none =>
      match dupOf o, ps with
      | some fd, .word t :: ps' =>
        if IsFd t then parse ⟨c.argv, c.dups ++ [(fd, t)]⟩ ps' else none
      | _, _ => none
  | _, _ :: _ => none

/-- The sequence that a text is, if all its quotations and substitutions are
closed. -/
def sequenceOf (text : List Char) : Option Sequence :=
  if (reached text).Top then parse ⟨[], []⟩ ((pieces text).filter Piece.counts) else none

namespace Sequence

/-- No command has a duplication. -/
def Plain : Sequence → Prop
  | .one c => c.dups = []
  | .cons c _ rest => c.dups = [] ∧ rest.Plain

instance Plain.decidable : DecidablePred Plain
  | .one c => inferInstanceAs (Decidable (c.dups = []))
  | .cons c _ rest =>
    have := Plain.decidable rest
    inferInstanceAs (Decidable (c.dups = [] ∧ rest.Plain))

/-- More duplications behind the last command. -/
def addLast (ds : List (List Char × List Char)) : Sequence → Sequence
  | .one c => .one ⟨c.argv, c.dups ++ ds⟩
  | .cons c j rest => .cons c j (rest.addLast ds)

/-- The number of the last command, from 0 on. -/
def last : Sequence → ℕ
  | .one _ => 0
  | .cons _ _ rest => rest.last + 1

end Sequence

/-! ## What is written behind a sequence -/

/-- How duplications are written. -/
def dupPieces (ds : List (List Char × List Char)) : List Piece :=
  ds.flatMap fun d => [.op (d.1 ++ ['>', '&']), .word d.2]

/-- A number, or none, before the operator, and a number after it. -/
def IsDup (d : List Char × List Char) : Prop := (∀ c ∈ d.1, c.isDigit = true) ∧ IsFd d.2

variable {c : Command} {ps : List Piece} {q : Sequence} {ds : List (List Char × List Char)}

theorem dupOf_append {n : List Char} (h : ∀ c ∈ n, c.isDigit = true) :
    dupOf (n ++ ['>', '&']) = some n := by
  have hlen : (n ++ ['>', '&']).length - 2 = n.length := by simp
  rw [dupOf, hlen, List.drop_left, List.take_left, if_pos ⟨rfl, List.all_eq_true.2 h⟩]

/-- No joint ends as a duplication does. -/
theorem joint_ofOp_append (n : List Char) : Joint.ofOp (n ++ ['>', '&']) = none := by
  have hne : ∀ o : List Char, o.drop (o.length - 2) ≠ ['>', '&'] → n ++ ['>', '&'] ≠ o := by
    rintro _ ho rfl
    apply ho
    rw [show (n ++ ['>', '&']).length - 2 = n.length by simp, List.drop_left]
  unfold Joint.ofOp
  rw [if_neg (hne [';'] (by decide)), if_neg (hne ['&', '&'] (by decide)),
    if_neg (hne ['|'] (by decide))]

theorem parse_joint {o : List Char} {j : Joint} (h : Joint.ofOp o = some j) (c : Command)
    (ps : List Piece) : parse c (.op o :: ps)
      = if c.argv = [] then none else (parse ⟨[], []⟩ ps).map (.cons c j) := by
  rw [parse.eq_def]
  simp only [h]

theorem parse_dup {o n t : List Char} (h : Joint.ofOp o = none) (hn : dupOf o = some n)
    (ht : IsFd t) (c : Command) (ps : List Piece) :
    parse c (.op o :: .word t :: ps) = parse ⟨c.argv, c.dups ++ [(n, t)]⟩ ps := by
  rw [parse.eq_def]
  simp only [h, hn, if_pos ht]

/-- Duplications alone belong to the command before them. -/
theorem parse_dupPieces (hds : ∀ d ∈ ds, IsDup d) : ∀ c : Command, c.argv ≠ [] →
    parse c (dupPieces ds) = some (.one ⟨c.argv, c.dups ++ ds⟩) := by
  induction ds with
  | nil =>
    intro c hc
    rw [List.append_nil]
    exact if_neg hc
  | cons d ds ih =>
    intro c hc
    rw [List.forall_mem_cons] at hds
    show parse c (.op (d.1 ++ ['>', '&']) :: .word d.2 :: dupPieces ds) = _
    rw [parse_dup (joint_ofOp_append d.1) (dupOf_append hds.1.1) hds.1.2,
      ih hds.2 ⟨c.argv, c.dups ++ [d]⟩ hc, List.append_assoc, List.singleton_append]

/-- Duplications behind a sequence belong to its last command. -/
theorem parse_append (hds : ∀ d ∈ ds, IsDup d) (c : Command) (ps : List Piece)
    (h : parse c ps = some q) : parse c (ps ++ dupPieces ds) = some (q.addLast ds) := by
  fun_induction parse c ps generalizing q with
  | case1 c hc => cases h
  | case2 c hc =>
    cases h
    exact parse_dupPieces hds c hc
  | case3 c t ps ht ih =>
    rw [List.cons_append, parse, if_pos ht]
    exact ih h
  | case4 => cases h
  | case5 c t ps ht hreserved ih =>
    rw [List.cons_append, parse, if_neg ht, if_neg hreserved]
    exact ih h
  | case6 => cases h
  | case7 c o ps j ho hc ih =>
    obtain ⟨rest, hrest, rfl⟩ := Option.map_eq_some_iff.1 h
    rw [List.cons_append, parse_joint ho, if_neg hc, ih hrest]
    rfl
  | case8 c o ho n t ps hn ht ih =>
    rw [List.cons_append, List.cons_append, parse_dup ho hn ht]
    exact ih h
  | case9 => cases h
  | case10 => cases h
  | case11 => cases h

/-! ## Reading what is written behind a sequence -/

/-- How a duplication is written behind a text. -/
def dupText (d : List Char × List Char) : List Char := ' ' :: (d.1 ++ '>' :: '&' :: d.2)

variable {st : Reader} {n t : List Char}

/-- A digit stands for itself. -/
theorem isBare_of_isDigit {b : Char} (hb : b.isDigit = true) :
    isBare b = true ∧ isLeader b = false := by
  have hne : ∀ x : Char, x.isDigit = false → b ≠ x := fun x => ne_of_isDigit hb
  have hop : isOperator b = false := by
    rw [isOperator, List.contains_eq_mem]
    apply decide_eq_false
    have hall : ("&|;<>()".toList.all fun x => !x.isDigit) = true := by decide
    intro hmem
    have hnot := List.all_eq_true.1 hall b hmem
    rw [hb] at hnot
    cases hnot
  constructor
  · rw [isBare_iff]
    refine ⟨?_, ?_, hop, hne '\n' (by decide), hne '$' (by decide), hne '`' (by decide)⟩
    · simp [isBlank, hne ' ' (by decide), hne '\t' (by decide)]
    · simp [isQuote, hne '\'' (by decide), hne '"' (by decide), hne '\\' (by decide)]
  · simp [isLeader, hne '#' (by decide), hne '~' (by decide)]

theorem bare_of_digits (h : ∀ c ∈ n, c.isDigit = true) : ∀ c ∈ n, isBare c = true :=
  fun c hc => (isBare_of_isDigit (h c hc)).1

/-- A number is read as a word. -/
theorem run_fd (ht : IsFd t) : run .idle t = ([], .word t []) := by
  apply run_fileWord
  obtain ⟨hne, hdigits⟩ := ht
  obtain ⟨c, t, rfl⟩ := List.exists_cons_of_ne_nil hne
  exact ⟨(isBare_of_isDigit (hdigits c List.mem_cons_self)).2, bare_of_digits hdigits⟩

/-- A number before a `>` belongs to the operator. -/
theorem run_number_greater (h : ∀ c ∈ n, c.isDigit = true) :
    run .idle (n ++ ['>']) = ([], .op n ['>']) := by
  rcases eq_or_ne n [] with rfl | hne
  · rfl
  · have hnumber : IsNumber n := by
      rw [IsNumber, joined_of_notMem (backslash_notMem_of_bare (bare_of_digits h))]
      exact ⟨hne, h⟩
    have hstep : step (.word n []) '>' = ([], .op n ['>']) := by
      simp [step, settled, hnumber]
    rw [run_append, run_fd ⟨hne, h⟩, run, hstep]
    rfl

/-- No operator goes on with a digit. -/
theorem digit_notMem_operators {o : List Char} {b : Char} (hb : b.isDigit = true) :
    o ++ [b] ∉ operators := by
  have hends : ∀ x ∈ operators, (x.getLast?.all fun d => !d.isDigit) = true := by decide
  intro hmem
  have hlast := hends _ hmem
  rw [List.getLast?_concat, Option.all_some, hb] at hlast
  cases hlast

/-- The number after the operator is a word of its own. -/
theorem run_target (ht : IsFd t) (n : List Char) : run (.op n ['>', '&']) t
    = ([.op (n ++ ['>', '&'])], .word t []) := by
  have hword := run_fd ht
  obtain ⟨hne, hdigits⟩ := ht
  obtain ⟨c, t, rfl⟩ := List.exists_cons_of_ne_nil hne
  have hnot : ['>', '&'] ++ [c] ∉ operators :=
    digit_notMem_operators (hdigits c List.mem_cons_self)
  have hstep : step (.op n ['>', '&']) c
      = (.op (n ++ ['>', '&']) :: (start c).1, (start c).2) := by
    simp only [step]
    rw [if_neg hnot]
  rw [run, show step .idle c = start c from rfl, Prod.mk.injEq] at hword
  rw [run, hstep, List.cons_append, hword.1, hword.2]

/-- A duplication is read behind a text that is complete. -/
theorem run_dupText {d : List Char × List Char} (hst : st.Top) (hd : IsDup d) :
    run st (dupText d)
      = (st.close ++ [.blank ' ', .op (d.1 ++ ['>', '&'])], .word d.2 []) := by
  have htext : dupText d = [' '] ++ (d.1 ++ ['>']) ++ ['&'] ++ d.2 := by simp [dupText]
  have hblank : run st [' '] = (st.close ++ [.blank ' '], .idle) :=
    run_gaps [' '] st hst (by simp) (by simp [IsGap, isBlank])
  have hamp : run (.op d.1 ['>']) ['&'] = ([], .op d.1 ['>', '&']) := rfl
  rw [htext, run_append, run_append, run_append, hblank, run_number_greater hd.1, hamp,
    run_target hd.2]
  simp

/-- Duplications behind a complete text are pieces of their own, and the text is
complete again. -/
theorem read_dupTexts (hds : ∀ d ∈ ds, IsDup d) : ∀ st : Reader, st.Top →
    (read st (ds.flatMap dupText)).filter Piece.counts
        = st.close.filter Piece.counts ++ dupPieces ds ∧
      (run st (ds.flatMap dupText)).2.Top := by
  induction ds with
  | nil =>
    intro st hst
    exact ⟨(List.append_nil _).symm, hst⟩
  | cons d ds ih =>
    intro st hst
    rw [List.forall_mem_cons] at hds
    obtain ⟨hread, htop⟩ := ih hds.2 (.word d.2 []) rfl
    rw [List.flatMap_cons, read_append, run_append, run_dupText hst hds.1]
    refine ⟨?_, htop⟩
    rw [List.filter_append, hread, List.filter_append, List.append_assoc]
    rfl

/-- What is written behind a sequence belongs to its last command. -/
theorem sequenceOf_append {s : List Char} (h : sequenceOf s = some q)
    (hds : ∀ d ∈ ds, IsDup d) : sequenceOf (s ++ ds.flatMap dupText) = some (q.addLast ds) := by
  unfold sequenceOf at h
  split at h
  · rename_i htop
    obtain ⟨hread, hend⟩ := read_dupTexts hds (reached s) htop
    have hreached : reached (s ++ ds.flatMap dupText)
        = (run (reached s) (ds.flatMap dupText)).2 := by
      rw [reached, run_append]
      rfl
    have hpieces : (pieces (s ++ ds.flatMap dupText)).filter Piece.counts
        = (pieces s).filter Piece.counts ++ dupPieces ds := by
      rw [pieces, read_append, pieces_eq, List.filter_append, List.filter_append,
        List.append_assoc]
      exact congrArg _ hread
    rw [sequenceOf, hreached, if_pos hend, hpieces]
    exact parse_append hds _ _ h
  · cases h

/-- The duplications belong to the second command. -/
example : sequenceOf "echo a; echo b 2>&4 >&4".toList
    = some (.cons ⟨["echo".toList, "a".toList], []⟩ .semi
        (.one ⟨["echo".toList, "b".toList], [("2".toList, "4".toList), ([], "4".toList)]⟩)) := by
  decide

/-! ## Where the output goes -/

/-- What a descriptor of a command leads to. -/
inductive Target where
  /-- a descriptor of the shell -/
  | shell (n : ℕ)
  /-- the pipe to the next command -/
  | pipe
deriving DecidableEq, Repr

/-- The two streams that a command writes to. -/
inductive Stream where
  | out
  | err
deriving DecidableEq, Repr

/-- The descriptor of a stream. -/
def Stream.number : Stream → ℕ
  | .out => 1
  | .err => 2

/-- One write of a run: the number of the command, the stream and the text. -/
structure Write where
  command : ℕ
  stream : Stream
  text : List Char
deriving DecidableEq, Repr

/-- The descriptors of a command before its duplications. -/
def descriptors (j : Option Joint) (n : ℕ) : Target :=
  if n = 1 ∧ j = some .pipe then .pipe else .shell n

/-- The descriptor that the number before `>&` means: 1 when it is not given. -/
def dupNumber (n : List Char) : ℕ := if n = [] then 1 else Nat.ofDigitChars 10 n 0

/-- `[n]>&m` makes the descriptor `n` a copy of `m`. -/
def duplicate (table : ℕ → Target) (d : List Char × List Char) : ℕ → Target :=
  Function.update table (dupNumber d.1) (table (Nat.ofDigitChars 10 d.2 0))

/-- The descriptors of a command, where the duplications are made from left to
right. -/
def Command.descriptors (c : Command) (j : Option Joint) : ℕ → Target :=
  c.dups.foldl duplicate (Sh.descriptors j)

/-- The standard output and the standard error of the shell. -/
def isStandard : Target → Bool
  | .shell n => n == 1 || n == 2
  | .pipe => false

/-- Without a joint, a descriptor leads to that of the shell. -/
@[simp] theorem descriptors_none (n : ℕ) : descriptors none n = .shell n :=
  if_neg fun h => nomatch h.2

/-! ## The text of some writes -/

section TextOf

variable (p r : Write → Prop) [DecidablePred p] [DecidablePred r]

/-- The text of the writes that `p` says, in their order. -/
def textOf (ws : List Write) : List Char := (ws.filter fun w => p w).flatMap Write.text

@[simp] theorem textOf_nil : textOf p [] = [] := rfl

variable {p r}

theorem textOf_cons_of_pos {w : Write} (h : p w) (ws : List Write) :
    textOf p (w :: ws) = w.text ++ textOf p ws := by
  rw [textOf, List.filter_cons_of_pos (by simpa using h), List.flatMap_cons, textOf]

theorem textOf_cons_of_neg {w : Write} (h : ¬ p w) (ws : List Write) :
    textOf p (w :: ws) = textOf p ws := by
  rw [textOf, List.filter_cons_of_neg (by simpa using h), textOf]

theorem mem_textOf {c : Char} {ws : List Write} :
    c ∈ textOf p ws ↔ ∃ w ∈ ws, p w ∧ c ∈ w.text := by
  simp [textOf, and_assoc]

theorem textOf_congr (h : ∀ w, p w ↔ r w) (ws : List Write) : textOf p ws = textOf r ws := by
  unfold textOf
  simp only [h]

/-- What two kinds of writes have written together. -/
theorem length_textOf_or (h : ∀ w, p w → ¬ r w) (ws : List Write) :
    (textOf (fun w => p w ∨ r w) ws).length = (textOf p ws).length + (textOf r ws).length := by
  induction ws with
  | nil => rfl
  | cons w ws ih =>
    by_cases hp : p w
    · rw [textOf_cons_of_pos (Or.inl hp), textOf_cons_of_pos hp, textOf_cons_of_neg (h w hp),
        List.length_append, List.length_append, ih]
      omega
    · by_cases hr : r w
      · rw [textOf_cons_of_pos (Or.inr hr), textOf_cons_of_neg hp, textOf_cons_of_pos hr,
          List.length_append, List.length_append, ih]
        omega
      · rw [textOf_cons_of_neg (not_or.2 ⟨hp, hr⟩), textOf_cons_of_neg hp, textOf_cons_of_neg hr,
          ih]

/-- Writes that have written nothing do not show. -/
theorem textOf_or_eq_left {ws : List Write} (h : textOf r ws = []) :
    textOf (fun w => p w ∨ r w) ws = textOf p ws := by
  induction ws with
  | nil => rfl
  | cons w ws ih =>
    by_cases hr : r w
    · rw [textOf_cons_of_pos hr] at h
      obtain ⟨htext, hrest⟩ := List.append_eq_nil_iff.1 h
      rw [textOf_cons_of_pos (Or.inr hr), htext, List.nil_append, ih hrest]
      by_cases hp : p w
      · rw [textOf_cons_of_pos hp, htext, List.nil_append]
      · rw [textOf_cons_of_neg hp]
    · rw [textOf_cons_of_neg hr] at h
      by_cases hp : p w
      · rw [textOf_cons_of_pos (Or.inl hp), textOf_cons_of_pos hp, ih h]
      · rw [textOf_cons_of_neg (not_or.2 ⟨hp, hr⟩), textOf_cons_of_neg hp, ih h]

end TextOf

namespace Sequence

/-- What a stream of a command leads to. -/
def target : Sequence → ℕ → Stream → Option Target
  | .one c, 0, s => some (c.descriptors none s.number)
  | .one _, _ + 1, _ => none
  | .cons c j _, 0, s => some (c.descriptors (some j) s.number)
  | .cons _ _ rest, i + 1, s => rest.target i s

/-- What a run sends to the targets that `p` says. -/
def received (q : Sequence) (p : Target → Bool) (ws : List Write) : List Char :=
  textOf (fun w => (q.target w.command w.stream).any p = true) ws

/-- What a run writes to the standard output and error. -/
def output (q : Sequence) (ws : List Write) : List Char := q.received isStandard ws

/-- A stream of a command without duplications leads to the descriptor of its
number, or to the next command. -/
theorem target_of_plain (s : Stream) : ∀ (q : Sequence) (i : ℕ), q.Plain →
    q.target i s = none ∨ q.target i s = some .pipe ∨ q.target i s = some (.shell s.number)
  | .one c, 0, h => by
    refine Or.inr (Or.inr ?_)
    rw [target, Command.descriptors, show c.dups = [] from h, List.foldl_nil, descriptors_none]
  | .one _, _ + 1, _ => Or.inl rfl
  | .cons c j _, 0, h => by
    refine Or.inr ?_
    rw [target, Command.descriptors, h.1, List.foldl_nil, Sh.descriptors]
    split
    · exact Or.inl rfl
    · exact Or.inr rfl
  | .cons _ _ rest, i + 1, h => target_of_plain s rest i h.2

/-- The last command writes to nothing but the shell. -/
theorem target_last (s : Stream) : ∀ q : Sequence, q.Plain →
    q.target q.last s = some (.shell s.number)
  | .one c, h => by
    rw [last, target, Command.descriptors, show c.dups = [] from h, List.foldl_nil,
      descriptors_none]
  | .cons _ _ rest, h => target_last s rest h.2

/-- Duplications behind the last command change nothing for the others. -/
theorem target_addLast_of_ne (ds : List (List Char × List Char)) (s : Stream) :
    ∀ (q : Sequence) (i : ℕ), i ≠ q.last → (q.addLast ds).target i s = q.target i s
  | .one _, 0, h => absurd rfl h
  | .one _, _ + 1, _ => rfl
  | .cons _ _ _, 0, _ => rfl
  | .cons _ _ rest, i + 1, h =>
    target_addLast_of_ne ds s rest i fun heq => h (congrArg (· + 1) heq)

/-- For the last command they are made from its descriptors. -/
theorem target_addLast_last (ds : List (List Char × List Char)) (s : Stream) :
    ∀ q : Sequence, q.Plain →
      (q.addLast ds).target q.last s = some (ds.foldl duplicate (Sh.descriptors none) s.number)
  | .one c, h => by
    rw [addLast, last, target, Command.descriptors, show c.dups = [] from h]
    rfl
  | .cons _ _ rest, h => target_addLast_last ds s rest h.2

end Sequence

/-- The duplications `2>&m >&m` send both streams to the descriptor `m`. -/
theorem duplicate_both (t : List Char) (s : Stream) :
    [(['2'], t), ([], t)].foldl duplicate (descriptors none) s.number
      = .shell (Nat.ofDigitChars 10 t 0) := by
  have htwo : dupNumber ['2'] = 2 := rfl
  have hone : dupNumber [] = 1 := rfl
  simp only [List.foldl_cons, List.foldl_nil, duplicate, htwo, hone, descriptors_none]
  cases s with
  | out =>
    rw [Stream.number, Function.update_self]
    by_cases hm : Nat.ofDigitChars 10 t 0 = 2
    · rw [hm, Function.update_self]
    · rw [Function.update_of_ne hm, descriptors_none]
  | err => rw [Stream.number, Function.update_of_ne (by decide), Function.update_self]

end Sh
