import SysFs.Lib.Sh

/-!
# How the POSIX shell cuts a text into pieces

The shell reads a text from left to right and cuts it into blanks, newlines,
comments, operators and words.  `pieces` is this reading, for every text.  A
quotation and a substitution belong to their word as they stand, so `word` holds
what is written, not what the shell makes of it.  A number directly before `<` or
`>` belongs to the operator.  `&>` is an operator here, as it is in the shells
that have it.  The lines of a here-document are read as further text, and no text
is an error: what is never closed ends with the text.

* `step_cases` and `start_cases` say what one character does.
* `written_pieces`: the pieces put together are the text.
* `read_eq_cons`: what the reader is in the middle of becomes one piece that
  starts with it.
* `append_cut` and `append_inj_of_length`: a place between two pieces is inside
  no third one, and it determines the pieces before it.
-/

namespace Sh

/-- What a text is made of. -/
inductive Piece where
  | blank (c : Char)
  | newline
  | comment (text : List Char)
  | op (text : List Char)
  | word (text : List Char)
deriving DecidableEq, Repr

/-- How a piece is written. -/
def Piece.text : Piece → List Char
  | .blank c => [c]
  | .newline => ['\n']
  | .comment t => t
  | .op t => t
  | .word t => t

/-- What a place in a word is inside of. -/
inductive Nest where
  /-- after a backslash -/
  | escaped
  /-- inside single quotes -/
  | single
  /-- inside double quotes -/
  | double
  /-- after a `$` -/
  | dollar
  /-- inside the parentheses of a substitution -/
  | paren
  /-- inside the braces of a substitution, and whether this is in double quotes -/
  | brace (quoted : Bool)
  /-- inside back quotes -/
  | back
deriving DecidableEq, Repr

/-- What the reader is in the middle of. -/
inductive Reader where
  | idle
  | comment (text : List Char)
  /-- an operator, and the number before it -/
  | op (number text : List Char)
  /-- a word, and what its end is inside of, from the inside outwards -/
  | word (text : List Char) (nest : List Nest)
deriving DecidableEq, Repr

/-- The characters of which operators are made. -/
def isOperator (c : Char) : Bool := "&|;<>()".toList.contains c

/-- The operators of more than one character. -/
def operators : List (List Char) :=
  ["&&", "||", ";;", "<<", "<<-", ">>", "<&", ">&", "<>", ">|", "&>", "&>>"].map String.toList

/-- A text without its line continuations. -/
def joined : List Char → List Char
  | '\\' :: '\n' :: t => joined t
  | c :: t => c :: joined t
  | [] => []

/-- A word that an operator directly after it takes for a descriptor. -/
def IsNumber (t : List Char) : Prop := joined t ≠ [] ∧ ∀ c ∈ joined t, c.isDigit = true

instance : DecidablePred IsNumber := fun t =>
  have : Decidable (∀ c ∈ joined t, c.isDigit = true) := List.decidableBAll _ _
  inferInstanceAs (Decidable (joined t ≠ [] ∧ ∀ c ∈ joined t, c.isDigit = true))

/-- Single quotes mean nothing in double quotes. -/
def quoted : List Nest → Bool
  | .double :: _ => true
  | .brace q :: _ => q
  | _ => false

/-- What a character opens. -/
def opened (ns : List Nest) (c : Char) : List Nest :=
  if c = '\\' then .escaped :: ns
  else if c = '$' then .dollar :: ns
  else if c = '`' then .back :: ns
  else if c = '"' then .double :: ns
  else if c = '\'' ∧ quoted ns = false then .single :: ns
  else ns

/-- A `$` counts only when a parenthesis or a brace comes next. -/
def settled (c : Char) : List Nest → List Nest
  | .dollar :: ns => if c = '(' ∨ c = '{' then .dollar :: ns else ns
  | ns => ns

/-- What is open after a further character of a word. -/
def nested (c : Char) : List Nest → List Nest
  | [] => opened [] c
  | .escaped :: ns => ns
  | .single :: ns => if c = '\'' then ns else .single :: ns
  | .double :: ns => if c = '"' then ns else opened (.double :: ns) c
  | .dollar :: ns => if c = '(' then .paren :: ns else .brace (quoted ns) :: ns
  | .paren :: ns =>
    if c = ')' then ns
    else if c = '(' then .paren :: .paren :: ns
    else opened (.paren :: ns) c
  | .brace q :: ns => if c = '}' then ns else opened (.brace q :: ns) c
  | .back :: ns =>
    if c = '`' then ns
    else if c = '\\' then .escaped :: .back :: ns
    else .back :: ns

/-- The pieces that are complete after the first character of a piece, and where
the reader is. -/
def start (c : Char) : List Piece × Reader :=
  if isBlank c then ([.blank c], .idle)
  else if c = '\n' then ([.newline], .idle)
  else if c = '#' then ([], .comment [c])
  else if isOperator c then ([], .op [] [c])
  else ([], .word [c] (nested c []))

/-- The pieces that a character completes, and where the reader is then. -/
def step : Reader → Char → List Piece × Reader
  | .idle, c => start c
  | .comment t, c =>
    if c = '\n' then (.comment t :: (start c).1, (start c).2) else ([], .comment (t ++ [c]))
  | .op n o, c =>
    if o ++ [c] ∈ operators then ([], .op n (o ++ [c]))
    else (.op (n ++ o) :: (start c).1, (start c).2)
  | .word t ns, c =>
    match settled c ns with
    | [] =>
      if (c = '<' ∨ c = '>') ∧ IsNumber t then ([], .op t [c])
      else if isBlank c ∨ c = '\n' ∨ isOperator c then (.word t :: (start c).1, (start c).2)
      -- a line continuation is no word yet
      else if c = '#' ∧ joined t = [] then ([], .comment (t ++ [c]))
      else ([], .word (t ++ [c]) (nested c []))
    | n :: ns => ([], .word (t ++ [c]) (nested c (n :: ns)))

/-- The pieces that a text completes, and where the reader is then. -/
def run : Reader → List Char → List Piece × Reader
  | st, [] => ([], st)
  | st, c :: s => ((step st c).1 ++ (run (step st c).2 s).1, (run (step st c).2 s).2)

namespace Reader

/-- What the reader is in the middle of, when the text ends. -/
def close : Reader → List Piece
  | .idle => []
  | .comment t => [.comment t]
  | .op n o => [.op (n ++ o)]
  | .word t _ => [.word t]

/-- What the reader has of the piece it is in the middle of. -/
def text : Reader → List Char
  | .idle => []
  | .comment t => t
  | .op n o => n ++ o
  | .word t _ => t

/-- The reader is in the middle of something only when it has read some of it. -/
def Begun (st : Reader) : Prop := st ≠ .idle → st.text ≠ []

end Reader

/-- The pieces of what is left of a text. -/
def read (st : Reader) (s : List Char) : List Piece := (run st s).1 ++ (run st s).2.close

/-- The pieces of a text. -/
def pieces (s : List Char) : List Piece := read .idle s

/-- A piece that is more than a blank. -/
def Piece.counts : Piece → Bool
  | .blank _ => false
  | _ => true

variable {st : Reader} {c : Char} {s t : List Char} {ps qs : List Piece}

/-! ## The pieces make the text -/

/-- How a list of pieces is written. -/
def written (ps : List Piece) : List Char := ps.flatMap Piece.text

@[simp] theorem written_nil : written [] = [] := rfl

@[simp] theorem written_cons (p : Piece) (ps : List Piece) :
    written (p :: ps) = p.text ++ written ps := rfl

@[simp] theorem written_append (ps qs : List Piece) :
    written (ps ++ qs) = written ps ++ written qs := List.flatMap_append

@[simp] theorem written_close (st : Reader) : written st.close = st.text := by
  cases st <;> simp [Reader.close, Reader.text, Piece.text]

/-! ## What one character does -/

/-- A piece starts with a blank or a newline, which is all of it, or it goes
on. -/
theorem start_cases (c : Char) :
    (isBlank c = true ∧ start c = ([.blank c], .idle)) ∨
      (c = '\n' ∧ start c = ([.newline], .idle)) ∨
      (isBlank c = false ∧ c ≠ '\n' ∧ (start c).1 = [] ∧ (start c).2 ≠ .idle ∧
        (start c).2.text = [c]) := by
  unfold start
  split_ifs with hblank hnewline
  · exact Or.inl ⟨hblank, rfl⟩
  · exact Or.inr (Or.inl ⟨hnewline, rfl⟩)
  all_goals
    refine Or.inr (Or.inr ⟨by simpa using hblank, hnewline, rfl, ?_, rfl⟩)
    intro h
    cases h

/-- A character ends the piece before it and starts one, or it belongs to the
piece before it. -/
theorem step_cases (st : Reader) (c : Char) :
    step st c = (st.close ++ (start c).1, (start c).2) ∨
      (st ≠ .idle ∧ (step st c).1 = [] ∧ (step st c).2 ≠ .idle ∧
        (step st c).2.text = st.text ++ [c]) := by
  cases st with
  | idle => exact Or.inl rfl
  | comment t =>
    simp only [step]
    split_ifs
    · exact Or.inl rfl
    · exact Or.inr ⟨by simp, rfl, by simp, rfl⟩
  | op n o =>
    simp only [step]
    split_ifs
    · exact Or.inr ⟨by simp, rfl, by simp, by simp [Reader.text]⟩
    · exact Or.inl rfl
  | word t ns =>
    simp only [step]
    split
    · split_ifs
      · exact Or.inr ⟨by simp, rfl, by simp, rfl⟩
      · exact Or.inl rfl
      · exact Or.inr ⟨by simp, rfl, by simp, rfl⟩
      · exact Or.inr ⟨by simp, rfl, by simp, rfl⟩
    · exact Or.inr ⟨by simp, rfl, by simp, rfl⟩

theorem written_start (c : Char) : written (start c).1 ++ (start c).2.text = [c] := by
  rcases start_cases c with ⟨-, h⟩ | ⟨rfl, h⟩ | ⟨-, -, h, -, htext⟩
  · rw [h]
    rfl
  · rw [h]
    rfl
  · rw [h, htext]
    rfl

/-- A character goes into a piece that it completes, or into what the reader is
in the middle of. -/
theorem written_step (st : Reader) (c : Char) :
    written (step st c).1 ++ (step st c).2.text = st.text ++ [c] := by
  rcases step_cases st c with h | ⟨-, h, -, htext⟩
  · rw [h, written_append, written_close, List.append_assoc, written_start]
  · rw [h, htext]
    rfl

/-! ## What a text does -/

theorem run_append (s t : List Char) : ∀ st : Reader,
    run st (s ++ t) = ((run st s).1 ++ (run (run st s).2 t).1, (run (run st s).2 t).2) := by
  induction s with
  | nil => intro st; rfl
  | cons c s ih =>
    intro st
    rw [List.cons_append, run, ih]
    simp [run]

theorem read_append (st : Reader) (s t : List Char) :
    read st (s ++ t) = (run st s).1 ++ read (run st s).2 t := by
  rw [read, run_append, read, List.append_assoc]

theorem read_cons (st : Reader) (c : Char) (s : List Char) :
    read st (c :: s) = (step st c).1 ++ read (step st c).2 s := by
  rw [read, run, read, List.append_assoc]

@[simp] theorem read_nil (st : Reader) : read st [] = st.close := rfl

theorem written_run (s : List Char) : ∀ st : Reader,
    written (run st s).1 ++ (run st s).2.text = st.text ++ s := by
  induction s with
  | nil => intro st; simp [run]
  | cons c s ih =>
    intro st
    rw [run, written_append, List.append_assoc, ih, ← List.append_assoc, written_step]
    simp

theorem written_read (st : Reader) (s : List Char) : written (read st s) = st.text ++ s := by
  rw [read, written_append, written_close, written_run]

/-- The pieces of a text, put together, are the text. -/
theorem written_pieces (s : List Char) : written (pieces s) = s := written_read .idle s

/-- What the reader is in the middle of is one piece when the text ends. -/
theorem Reader.close_eq (h : st ≠ .idle) :
    ∃ p, st.close = [p] ∧ p.text = st.text ∧ p.counts = true := by
  cases st with
  | idle => exact absurd rfl h
  | comment t => exact ⟨_, rfl, rfl, rfl⟩
  | op n o => exact ⟨_, rfl, rfl, rfl⟩
  | word t ns => exact ⟨_, rfl, rfl, rfl⟩

/-- What the reader is in the middle of becomes one piece that starts with it. -/
theorem read_eq_cons (s : List Char) : ∀ st : Reader, st ≠ .idle →
    ∃ p ps, read st s = p :: ps ∧ st.text <+: p.text := by
  induction s with
  | nil =>
    intro st hst
    obtain ⟨p, hclose, htext, -⟩ := Reader.close_eq hst
    exact ⟨p, [], hclose, htext ▸ List.prefix_refl _⟩
  | cons c s ih =>
    intro st hst
    rw [read_cons]
    rcases step_cases st c with h | ⟨-, h, hnext, htext⟩
    · -- the piece ends before this character
      obtain ⟨p, hclose, hsame, -⟩ := Reader.close_eq hst
      refine ⟨p, (start c).1 ++ read (start c).2 s, ?_, hsame ▸ List.prefix_refl _⟩
      rw [h, hclose, List.append_assoc, List.singleton_append]
    · obtain ⟨p, ps, hread, hpre⟩ := ih _ hnext
      refine ⟨p, ps, by rw [h, hread, List.nil_append], ?_⟩
      rw [htext] at hpre
      exact (List.prefix_append _ _).trans hpre

/-! ## What the pieces look like -/

/-- A piece has something in it, and only a blank is read as a blank. -/
def Piece.Formed : Piece → Prop
  | .blank c => isBlank c = true
  | .newline => True
  | .comment t => t ≠ []
  | .op t => t ≠ []
  | .word t => t ≠ []

theorem Piece.Formed.text_ne_nil {p : Piece} (h : p.Formed) : p.text ≠ [] := by
  cases p with
  | blank c => exact List.cons_ne_nil _ _
  | newline => exact List.cons_ne_nil _ _
  | comment t => exact h
  | op t => exact h
  | word t => exact h

theorem Reader.Begun.formed_close (h : st.Begun) : ∀ p ∈ st.close, p.Formed := by
  intro p hp
  cases st with
  | idle => cases hp
  | comment t =>
    obtain rfl := List.mem_singleton.1 hp
    exact h (by simp)
  | op n o =>
    obtain rfl := List.mem_singleton.1 hp
    exact h (by simp)
  | word t ns =>
    obtain rfl := List.mem_singleton.1 hp
    exact h (by simp)

theorem begun_start (c : Char) : (start c).2.Begun := by
  intro hne
  rcases start_cases c with ⟨-, h⟩ | ⟨-, h⟩ | ⟨-, -, -, -, htext⟩
  · rw [h] at hne
    exact absurd rfl hne
  · rw [h] at hne
    exact absurd rfl hne
  · rw [htext]
    exact List.cons_ne_nil _ _

theorem formed_start (c : Char) : ∀ p ∈ (start c).1, p.Formed := by
  intro p hp
  rcases start_cases c with ⟨hblank, h⟩ | ⟨-, h⟩ | ⟨-, -, h, -, -⟩
  · rw [h] at hp
    obtain rfl := List.mem_singleton.1 hp
    exact hblank
  · rw [h] at hp
    obtain rfl := List.mem_singleton.1 hp
    trivial
  · rw [h] at hp
    cases hp

theorem begun_step (st : Reader) (c : Char) : (step st c).2.Begun := by
  rcases step_cases st c with h | ⟨-, -, -, htext⟩
  · rw [h]
    exact begun_start c
  · intro _
    rw [htext]
    exact List.append_ne_nil_of_right_ne_nil _ (List.cons_ne_nil _ _)

theorem formed_read (s : List Char) : ∀ st : Reader, st.Begun → ∀ p ∈ read st s, p.Formed := by
  induction s with
  | nil =>
    intro st hst
    exact hst.formed_close
  | cons c s ih =>
    intro st hst p hp
    rw [read_cons] at hp
    rcases List.mem_append.1 hp with hp | hp
    · rcases step_cases st c with h | ⟨-, h, -, -⟩
      · rw [h] at hp
        rcases List.mem_append.1 hp with hp | hp
        · exact hst.formed_close p hp
        · exact formed_start c p hp
      · rw [h] at hp
        cases hp
    · exact ih _ (begun_step st c) p hp

theorem begun_idle : Reader.idle.Begun := fun h => absurd rfl h

theorem formed_pieces (s : List Char) : ∀ p ∈ pieces s, p.Formed := formed_read s _ begun_idle

/-! ## A place in a text -/

/-- The pieces before a place in a text are determined by it. -/
theorem append_inj_of_length {ps' qs' : List Piece} (h : ps ++ qs = ps' ++ qs')
    (hformed : ∀ p ∈ ps ++ qs, p.Formed)
    (hlength : (written ps).length = (written ps').length) : ps = ps' ∧ qs = qs' := by
  have hnil : ∀ as : List Piece, (∀ p ∈ as, p.Formed) → (written as).length = 0 → as = [] := by
    intro as has hzero
    cases as with
    | nil => rfl
    | cons p as =>
      have hne := (has p List.mem_cons_self).text_ne_nil
      rw [written_cons, List.length_append] at hzero
      exact absurd (List.length_eq_zero_iff.1 (by omega)) hne
  rcases List.append_eq_append_iff.1 h with ⟨as, rfl, rfl⟩ | ⟨as, rfl, rfl⟩
  · have has : as = [] := by
      apply hnil
      · intro p hp
        exact hformed p (List.mem_append_right _ (List.mem_append_left _ hp))
      · rw [written_append, List.length_append] at hlength
        omega
    subst has
    simp
  · have has : as = [] := by
      apply hnil
      · intro p hp
        exact hformed p (List.mem_append_left _ (List.mem_append_right _ hp))
      · rw [written_append, List.length_append] at hlength
        omega
    subst has
    simp

/-- A place between two pieces is not inside a third one. -/
theorem append_cut {p : Piece} {ps' qs' : List Piece} (h : ps ++ p :: qs = ps' ++ qs') :
    (written ps').length ≤ (written ps).length ∨
      (written ps).length + p.text.length ≤ (written ps').length := by
  rcases List.append_eq_append_iff.1 h with ⟨as, rfl, hqs⟩ | ⟨as, rfl, -⟩
  · cases as with
    | nil =>
      refine Or.inl (Nat.le_of_eq ?_)
      rw [List.append_nil]
    | cons a as =>
      obtain ⟨rfl, -⟩ := List.cons.inj hqs
      refine Or.inr ?_
      rw [written_append, written_cons, List.length_append, List.length_append]
      omega
  · refine Or.inl ?_
    rw [written_append, List.length_append]
    omega

end Sh
