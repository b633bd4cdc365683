import Mathlib.Algebra.GroupWithZero.Nat
import Mathlib.Data.List.Basic

/-!
# How the POSIX shell reads a simple command

`/bin/sh` gets one text and splits it into words.  This file models that
reading for the commands whose arguments do not depend on anything but the
text: `readCommand text` is `some` when the shell runs exactly one simple
command, with the given argument list and descriptor duplications, and `none`
when the text does more than that.  It does more when it holds an active
operator (`;`, `&`, `|`, a newline, a parenthesis, a redirection of a file), an
active expansion (`$`, a back quote, a tilde, one of the pattern characters
`*`, `?`, `[`), a comment, or a quotation that is never closed.

Quoting follows the rules of the shell: a single quote protects everything up
to the next one, a double quote protects all but `$`, the back quote and the
backslash, and a backslash protects one character.  The one redirection that
is read is the duplication `[n]>&word`, written apart from the word before it.

The three facts about the reader:

* `readCommand_join`: plain words joined by single blanks are read as
  themselves.
* `width_le_of_lex`: the words and duplications of a text never need more room
  than the text, because every quote, backslash and spare blank is dropped.
* `plain_of_lex`: a text that is read without a loss of room holds plain words
  only.
-/

namespace Sh

/-- The blanks that separate words. -/
def isBlank (c : Char) : Bool := c == ' ' || c == '\t'

/-- The characters with a meaning of their own anywhere outside quotes. -/
def isActive (c : Char) : Bool :=
  "\n;&|<>()$`*?[".toList.contains c

/-- The three ways to quote. -/
def isQuote (c : Char) : Bool := c == '\'' || c == '"' || c == '\\'

/-- The characters with a meaning of their own at the start of a word. -/
def isLeader (c : Char) : Bool := c == '#' || c == '~'

/-- A character that stands for itself anywhere in a word. -/
def isOrdinary (c : Char) : Bool := !isBlank c && !isActive c && !isQuote c

/-- A word that the shell reads as itself. -/
def PlainWord : List Char → Prop
  | [] => False
  | c :: w => isLeader c = false ∧ ∀ b ∈ c :: w, isOrdinary b = true

instance : DecidablePred PlainWord
  | [] => inferInstanceAs (Decidable False)
  | c :: w =>
    have : Decidable (∀ b ∈ c :: w, isOrdinary b = true) := List.decidableBAll _ _
    inferInstanceAs
      (Decidable (isLeader c = false ∧ ∀ b ∈ c :: w, isOrdinary b = true))

/-- What the reader is inside of. -/
inductive Mode where
  /-- outside quotes -/
  | plain
  /-- after a backslash outside quotes -/
  | escaped
  /-- inside single quotes -/
  | single
  /-- inside double quotes -/
  | double
  /-- after a backslash inside double quotes -/
  | doubleEscaped
  /-- after the `>` of a redirection of the descriptor `fd` -/
  | greater (fd : List Char)
deriving DecidableEq, Repr

/-- The pieces of a simple command. -/
inductive Token where
  | word (text : List Char)
  /-- `fd>&target` -/
  | dup (fd target : List Char)
deriving DecidableEq, Repr

/-- The word that is being read, if there is one, and whether all of it is
outside quotes. -/
abbrev Cur := Option (List Char × Bool)

/-- One more character of the current word. -/
def Cur.push (cur : Cur) (c : Char) : Cur :=
  match cur with
  | none => some ([c], true)
  | some (w, bare) => some (w ++ [c], bare)

/-- A quotation starts, which makes a word even of nothing. -/
def Cur.quote (cur : Cur) : Cur :=
  match cur with
  | none => some ([], false)
  | some (w, _) => some (w, false)

/-- The token that a finished word makes: the target of a pending duplication,
or an argument. -/
def token (pend : Option (List Char)) (w : List Char) : Token :=
  match pend with
  | none => .word w
  | some fd => .dup fd w

/-- The tokens of a text, or `none` when the text is not one simple command
with fixed arguments.  `pend` is the descriptor of a duplication whose target
is still to come. -/
def lex : Mode → Option (List Char) → Cur → List Char → Option (List Token)
  | .plain, pend, cur, [] =>
    match cur with
    | some (w, _) => some [token pend w]
    | none => if pend.isNone then some [] else none
  | _, _, _, [] => none
  | .single, pend, cur, c :: s =>
    if c = '\'' then lex .plain pend cur s
    else lex .single pend (cur.push c) s
  | .double, pend, cur, c :: s =>
    if c = '"' then lex .plain pend cur s
    else if c = '\\' then lex .doubleEscaped pend cur s
    else if c = '$' ∨ c = '`' then none
    else lex .double pend (cur.push c) s
  | .doubleEscaped, pend, cur, c :: s =>
    if c = '\n' then lex .double pend cur s
    else if c = '$' ∨ c = '`' ∨ c = '"' ∨ c = '\\' then
      lex .double pend (cur.push c) s
    else lex .double pend ((cur.push '\\').push c) s
  | .escaped, pend, cur, c :: s =>
    if c = '\n' then lex .plain pend cur s
    else lex .plain pend (cur.quote.push c) s
  | .greater fd, _, _, c :: s =>
    if c = '&' then lex .plain (some fd) none s else none
  | .plain, pend, cur, c :: s =>
    if isBlank c then
      match cur with
      | none => lex .plain pend none s
      | some (w, _) => (lex .plain none none s).map (token pend w :: ·)
    else if c = '\'' then lex .single pend cur.quote s
    else if c = '"' then lex .double pend cur.quote s
    else if c = '\\' then lex .escaped pend cur s
    else if c = '>' then
      match pend, cur with
      | none, none => lex (.greater []) none none s
      | none, some (w, true) =>
        -- a number written directly before the operator is its descriptor
        if w.all Char.isDigit then lex (.greater w) none none s else none
      | _, _ => none
    else if isActive c then none
    else if cur.isNone && isLeader c then none
    else lex .plain pend (cur.push c) s

/-- A simple command: its arguments, the name of the program first, and its
descriptor duplications. -/
structure Command where
  argv : List (List Char)
  dups : List (List Char × List Char)
deriving DecidableEq, Repr

/-- The argument that a token is. -/
def Token.arg? : Token → Option (List Char)
  | .word w => some w
  | .dup _ _ => none

/-- The duplication that a token is. -/
def Token.dup? : Token → Option (List Char × List Char)
  | .word _ => none
  | .dup fd t => some (fd, t)

/-- The simple command that the shell runs for a text, or `none` when it does
more than that. -/
def readCommand (text : List Char) : Option Command :=
  (lex .plain none none text).map fun toks =>
    ⟨toks.filterMap Token.arg?, toks.filterMap Token.dup?⟩

example : lex .plain none none "a 2>&1".toList = some [.word ['a'], .dup ['2'] ['1']] := by
  simp [lex, isBlank, isActive, isLeader, Cur.push, token]

/-! ## Plain words are read as themselves -/

/-- What is no digit is another character. -/
theorem ne_of_isDigit {b x : Char} (hb : b.isDigit = true) (hx : x.isDigit = false) : b ≠ x := by
  rintro rfl
  rw [hb] at hx
  cases hx

theorem PlainWord.ne_nil {w : List Char} (h : PlainWord w) : w ≠ [] := by
  rintro rfl
  exact h

theorem PlainWord.isOrdinary {w : List Char} (h : PlainWord w) :
    ∀ c ∈ w, isOrdinary c = true := by
  cases w with
  | nil => exact absurd rfl h.ne_nil
  | cons c w => exact h.2

theorem PlainWord.append {w x : List Char} (h : PlainWord w)
    (hx : ∀ c ∈ x, Sh.isOrdinary c = true) : PlainWord (w ++ x) := by
  cases w with
  | nil => exact absurd rfl h.ne_nil
  | cons c w =>
    refine ⟨h.1, fun b hb => ?_⟩
    rcases List.mem_append.1 (by simpa using hb : b ∈ (c :: w) ++ x) with hb | hb
    · exact h.2 b hb
    · exact hx b hb

/-- The specials that an ordinary character is not. -/
theorem isOrdinary_spec {c : Char} (h : isOrdinary c = true) :
    isBlank c = false ∧ isActive c = false ∧ c ≠ '\'' ∧ c ≠ '"' ∧ c ≠ '\\' ∧
      c ≠ '>' := by
  simp only [isOrdinary, isQuote, Bool.and_eq_true, Bool.not_eq_true',
    Bool.or_eq_false_iff, beq_eq_false_iff_ne] at h
  refine ⟨h.1.1, h.1.2, h.2.1.1, h.2.1.2, h.2.2, ?_⟩
  rintro rfl
  exact absurd h.1.2 (by decide)

/-- One ordinary character inside a word. -/
theorem lex_ordinary_some {c : Char} (h : isOrdinary c = true)
    (pend : Option (List Char)) (w : List Char) (bare : Bool) (s : List Char) :
    lex .plain pend (some (w, bare)) (c :: s)
      = lex .plain pend (some (w ++ [c], bare)) s := by
  obtain ⟨hb, ha, h1, h2, h3, h4⟩ := isOrdinary_spec h
  simp [lex, hb, ha, h1, h2, h3, h4, Cur.push]

/-- One ordinary character at the start of a word. -/
theorem lex_ordinary_none {c : Char} (h : isOrdinary c = true)
    (hl : isLeader c = false) (pend : Option (List Char)) (s : List Char) :
    lex .plain pend none (c :: s) = lex .plain pend (some ([c], true)) s := by
  obtain ⟨hb, ha, h1, h2, h3, h4⟩ := isOrdinary_spec h
  simp [lex, hb, ha, h1, h2, h3, h4, hl, Cur.push]

/-- The ordinary characters of a text join the current word. -/
theorem lex_append_some {x : List Char} (h : ∀ c ∈ x, isOrdinary c = true)
    (pend : Option (List Char)) (w : List Char) (bare : Bool) (s : List Char) :
    lex .plain pend (some (w, bare)) (x ++ s)
      = lex .plain pend (some (w ++ x, bare)) s := by
  induction x generalizing w with
  | nil => simp
  | cons c x ih =>
    rw [List.cons_append, lex_ordinary_some (h c (by simp)),
      ih (fun b hb => h b (List.mem_cons_of_mem _ hb)), List.append_assoc,
      List.singleton_append]

/-- A plain word is read into the current word. -/
theorem lex_plainWord {w : List Char} (h : PlainWord w)
    (pend : Option (List Char)) (s : List Char) :
    lex .plain pend none (w ++ s) = lex .plain pend (some (w, true)) s := by
  cases w with
  | nil => exact absurd rfl h.ne_nil
  | cons c w =>
    rw [List.cons_append, lex_ordinary_none (h.2 c (by simp)) h.1,
      lex_append_some (fun b hb => h.2 b (List.mem_cons_of_mem _ hb))]
    rfl

/-- A blank ends the current word. -/
theorem lex_blank (pend : Option (List Char)) (w : List Char) (bare : Bool)
    (s : List Char) :
    lex .plain pend (some (w, bare)) (' ' :: s)
      = (lex .plain none none s).map (token pend w :: ·) := by
  simp [lex, isBlank]

/-- A plain word and the blank after it. -/
theorem lex_plainWord_blank {w : List Char} (h : PlainWord w) (s : List Char) :
    lex .plain none none (w ++ ' ' :: s)
      = (lex .plain none none s).map (Token.word w :: ·) := by
  rw [lex_plainWord h, lex_blank]
  rfl

/-- Plain words, each with a blank after it. -/
theorem lex_plainWords {ws : List (List Char)} (h : ∀ w ∈ ws, PlainWord w)
    (s : List Char) :
    lex .plain none none (ws.flatMap (· ++ [' ']) ++ s)
      = (lex .plain none none s).map (ws.map Token.word ++ ·) := by
  induction ws with
  | nil => simp
  | cons w ws ih =>
    rw [List.flatMap_cons, List.append_assoc, List.append_assoc,
      List.singleton_append, lex_plainWord_blank (h w (by simp)),
      ih (fun v hv => h v (List.mem_cons_of_mem _ hv)), Option.map_map]
    rfl

/-- The duplication `fd>&target` at the start of a token. -/
theorem lex_dup {fd t : List Char} (hfd : fd = [] ∨ PlainWord fd)
    (hdigit : ∀ c ∈ fd, c.isDigit = true) (ht : PlainWord t) (s : List Char) :
    lex .plain none none (fd ++ '>' :: '&' :: (t ++ s))
      = lex .plain (some fd) (some (t, true)) s := by
  have hgt : lex (.greater fd) none none ('&' :: (t ++ s))
      = lex .plain (some fd) (some (t, true)) s := by
    simp only [lex, if_true]
    exact lex_plainWord ht _ _
  rcases hfd with rfl | hfd
  · rw [← hgt]
    simp [lex, isBlank]
  · rw [lex_plainWord hfd, ← hgt]
    have hall : fd.all Char.isDigit = true := List.all_eq_true.2 hdigit
    simp [lex, isBlank, hall]

/-- Plain words and two duplications are read as themselves. -/
theorem readCommand_join {ws : List (List Char)} {fd t t' : List Char}
    (hws : ∀ w ∈ ws, PlainWord w) (hfd : fd = [] ∨ PlainWord fd)
    (hdigit : ∀ c ∈ fd, c.isDigit = true) (ht : PlainWord t)
    (ht' : PlainWord t') :
    readCommand (ws.flatMap (· ++ [' '])
        ++ (fd ++ '>' :: '&' :: (t ++ ' ' :: '>' :: '&' :: t')))
      = some ⟨ws, [(fd, t), ([], t')]⟩ := by
  have hlast : lex .plain none none ('>' :: '&' :: t')
      = some [Token.dup [] t'] := by
    have h := lex_dup (Or.inl (Eq.refl [])) (by simp) ht' []
    simp only [List.nil_append, List.append_nil] at h
    rw [h]
    rfl
  have harg : ∀ vs : List (List Char),
      (vs.map Token.word).filterMap Token.arg? = vs := by
    intro vs
    induction vs with
    | nil => rfl
    | cons v vs ih => simp [Token.arg?, ih]
  have hdup : ∀ vs : List (List Char),
      (vs.map Token.word).filterMap Token.dup? = [] := by
    intro vs
    induction vs with
    | nil => rfl
    | cons v vs _ => simp [Token.dup?]
  rw [readCommand, lex_plainWords hws, lex_dup hfd hdigit ht, lex_blank, hlast]
  simp [List.filterMap_append, harg, hdup, token, Token.arg?, Token.dup?]

/-! ## What one character does outside quotes -/

/-- The five things that one character outside quotes can do: it is a spare
blank, it ends the current word, it opens a quotation, it starts a
duplication, or it joins the current word as an ordinary character. -/
theorem lex_plain_cons {pend : Option (List Char)} {cur : Cur} {c : Char}
    {s : List Char} {toks : List Token}
    (h : lex .plain pend cur (c :: s) = some toks) :
    (isBlank c = true ∧ cur = none ∧ lex .plain pend none s = some toks) ∨
    (isBlank c = true ∧ ∃ w b toks', cur = some (w, b) ∧
      lex .plain none none s = some toks' ∧ toks = token pend w :: toks') ∨
    (isQuote c = true ∧ ∃ mode cur',
      ((mode = .single ∧ cur' = cur.quote) ∨
        (mode = .double ∧ cur' = cur.quote) ∨
        (mode = .escaped ∧ cur' = cur)) ∧
      lex mode pend cur' s = some toks) ∨
    (c = '>' ∧ pend = none ∧ ∃ fd,
      ((cur = none ∧ fd = []) ∨ cur = some (fd, true)) ∧
      lex (.greater fd) none none s = some toks) ∨
    (isOrdinary c = true ∧ (cur = none → isLeader c = false) ∧
      lex .plain pend (cur.push c) s = some toks) := by
  simp only [lex] at h
  by_cases hb : isBlank c = true
  · rw [if_pos hb] at h
    rcases cur with _ | ⟨w, b⟩
    · exact Or.inl ⟨hb, rfl, h⟩
    · obtain ⟨toks', h', rfl⟩ := Option.map_eq_some_iff.1 h
      exact Or.inr (Or.inl ⟨hb, w, b, toks', rfl, h', rfl⟩)
  rw [if_neg hb] at h
  by_cases h1 : c = '\''
  · rw [if_pos h1] at h
    exact Or.inr (Or.inr (Or.inl ⟨by simp [isQuote, h1], .single, _,
      Or.inl ⟨rfl, rfl⟩, h⟩))
  rw [if_neg h1] at h
  by_cases h2 : c = '"'
  · rw [if_pos h2] at h
    exact Or.inr (Or.inr (Or.inl ⟨by simp [isQuote, h2], .double, _,
      Or.inr (Or.inl ⟨rfl, rfl⟩), h⟩))
  rw [if_neg h2] at h
  by_cases h3 : c = '\\'
  · rw [if_pos h3] at h
    exact Or.inr (Or.inr (Or.inl ⟨by simp [isQuote, h3], .escaped, _,
      Or.inr (Or.inr ⟨rfl, rfl⟩), h⟩))
  rw [if_neg h3] at h
  by_cases h4 : c = '>'
  · rw [if_pos h4] at h
    rcases pend with _ | fd
    · rcases cur with _ | ⟨w, _ | _⟩
      · exact Or.inr (Or.inr (Or.inr (Or.inl ⟨h4, rfl, [], Or.inl ⟨rfl, rfl⟩, h⟩)))
      · cases h
      · dsimp only at h
        split at h
        · exact Or.inr (Or.inr (Or.inr (Or.inl ⟨h4, rfl, w, Or.inr rfl, h⟩)))
        · cases h
    · cases h
  rw [if_neg h4] at h
  by_cases h5 : isActive c = true
  · rw [if_pos h5] at h
    cases h
  rw [if_neg h5] at h
  by_cases h6 : (cur.isNone && isLeader c) = true
  · rw [if_pos h6] at h
    cases h
  rw [if_neg h6] at h
  refine Or.inr (Or.inr (Or.inr (Or.inr ⟨?_, ?_, h⟩)))
  · simp [isOrdinary, isQuote, hb, h1, h2, h3, h5]
  · rintro rfl
    simpa using h6

/-! ## A reading never gains room -/

/-- The room that a token takes: its characters, and the blank after it. -/
def Token.width : Token → Nat
  | .word w => w.length + 1
  | .dup fd t => fd.length + 2 + t.length + 1

/-- The room that a list of tokens takes. -/
def width (toks : List Token) : Nat := (toks.map Token.width).sum

@[simp] theorem width_nil : width [] = 0 := rfl

@[simp] theorem width_cons (t : Token) (toks : List Token) :
    width (t :: toks) = t.width + width toks := rfl

/-- The room that the reader has already taken from the text. -/
def taken (mode : Mode) (pend : Option (List Char)) (cur : Cur) : Nat :=
  (match mode with
    | .greater fd => fd.length + 1
    | .doubleEscaped => 1
    | _ => 0)
  + (match pend with
    | some fd => fd.length + 2
    | none => 0)
  + (match cur with
    | some (w, _) => w.length
    | none => 0)

theorem width_token (pend : Option (List Char)) (w : List Char) (b : Bool) :
    (token pend w).width = taken .plain pend (some (w, b)) + 1 := by
  cases pend <;> simp [token, Token.width, taken]

theorem taken_push (pend : Option (List Char)) (cur : Cur) (c : Char)
    (mode : Mode) : taken mode pend (cur.push c) = taken mode pend cur + 1 := by
  rcases cur with _ | ⟨w, b⟩
  · simp [taken, Cur.push]
  · simp only [taken, Cur.push, List.length_append, List.length_singleton]
    omega

theorem taken_quote (pend : Option (List Char)) (cur : Cur) (mode : Mode) :
    taken mode pend cur.quote = taken mode pend cur := by
  rcases cur with _ | ⟨w, b⟩ <;> simp [taken, Cur.quote]

/-- A quotation opens without taking room. -/
private theorem taken_opened {mode : Mode} {pend : Option (List Char)}
    {cur cur' : Cur}
    (hm : (mode = .single ∧ cur' = cur.quote) ∨
      (mode = .double ∧ cur' = cur.quote) ∨ (mode = .escaped ∧ cur' = cur)) :
    taken mode pend cur' = taken .plain pend cur := by
  rcases hm with ⟨rfl, rfl⟩ | ⟨rfl, rfl⟩ | ⟨rfl, rfl⟩
  · rw [taken_quote]
    rfl
  · rw [taken_quote]
    rfl
  · rfl

/-- In a quotation, after a backslash and after a `>`, one character takes one
place at most. -/
theorem lex_other_cons {mode : Mode} {pend : Option (List Char)} {cur : Cur}
    {c : Char} {s : List Char} {toks : List Token} (hmode : mode ≠ .plain)
    (h : lex mode pend cur (c :: s) = some toks) :
    ∃ mode' pend' cur', lex mode' pend' cur' s = some toks ∧
      taken mode' pend' cur' ≤ taken mode pend cur + 1 := by
  have hpush := taken_push pend cur
  cases mode with
  | plain => exact absurd rfl hmode
  | single =>
    simp only [lex] at h
    split at h
    · exact ⟨_, _, _, h, Nat.le_succ _⟩
    · exact ⟨_, _, _, h, Nat.le_of_eq (hpush c _)⟩
  | double =>
    simp only [lex] at h
    split at h
    · exact ⟨_, _, _, h, Nat.le_succ _⟩
    · split at h
      · refine ⟨_, _, _, h, ?_⟩
        simp only [taken]
        omega
      · split at h
        · cases h
        · exact ⟨_, _, _, h, Nat.le_of_eq (hpush c _)⟩
  | doubleEscaped =>
    have hbackslash : taken .doubleEscaped pend cur = taken .double pend cur + 1 := by
      simp only [taken]
      omega
    rw [hbackslash]
    simp only [lex] at h
    split at h
    · refine ⟨_, _, _, h, ?_⟩
      omega
    · split at h
      · refine ⟨_, _, _, h, ?_⟩
        rw [hpush]
        omega
      · have htwo : taken .double pend ((cur.push '\\').push c)
            = taken .double pend cur + 1 + 1 := by
          rw [taken_push, hpush]
        exact ⟨_, _, _, h, Nat.le_of_eq htwo⟩
  | escaped =>
    simp only [lex] at h
    split at h
    · exact ⟨_, _, _, h, Nat.le_succ _⟩
    · have hone : taken .plain pend (cur.quote.push c) = taken .escaped pend cur + 1 := by
        rw [taken_push, taken_quote]
        rfl
      exact ⟨_, _, _, h, Nat.le_of_eq hone⟩
  | greater fd =>
    simp only [lex] at h
    split at h
    · refine ⟨_, _, _, h, ?_⟩
      simp only [taken]
      omega
    · cases h

/-- The tokens of a text never need more room than what is already read of it
and what is left. -/
theorem width_le_of_lex (s : List Char) :
    ∀ (mode : Mode) (pend : Option (List Char)) (cur : Cur)
      (toks : List Token), lex mode pend cur s = some toks →
      width toks ≤ taken mode pend cur + s.length + 1 := by
  induction s with
  | nil =>
    intro mode pend cur toks h
    rcases cur with _ | ⟨w, b⟩ <;> cases mode <;>
      simp only [lex, reduceCtorEq] at h
    · split at h
      · obtain rfl := Option.some.inj h
        simp
      · cases h
    · obtain rfl := Option.some.inj h
      simp [width_token pend w b]
  | cons c s ih =>
    intro mode pend cur toks h
    rw [List.length_cons]
    by_cases hmode : mode = .plain
    · subst hmode
      rcases lex_plain_cons h with ⟨-, rfl, h'⟩ | ⟨-, w, b, toks', rfl, h', rfl⟩ |
        ⟨-, mode, cur', hm, h'⟩ | ⟨-, rfl, fd, hcur, h'⟩ | ⟨-, -, h'⟩
      · have hle := ih _ _ _ _ h'
        omega
      · have hle := ih _ _ _ _ h'
        rw [width_cons, width_token pend w b]
        simp only [taken] at hle ⊢
        omega
      · have hle := ih _ _ _ _ h'
        have hcur : taken mode pend cur' = taken .plain pend cur := taken_opened hm
        omega
      · have hle := ih _ _ _ _ h'
        rcases hcur with ⟨rfl, rfl⟩ | rfl <;>
          simp only [taken, List.length_nil] at hle ⊢ <;> omega
      · have hle := ih _ _ _ _ h'
        rw [taken_push] at hle
        omega
    · obtain ⟨mode', pend', cur', h', hone⟩ := lex_other_cons hmode h
      have hle := ih _ _ _ _ h'
      omega

/-- The words among the tokens are plain. -/
def PlainArgs (toks : List Token) : Prop :=
  ∀ w, Token.word w ∈ toks → PlainWord w

/-- A text that is read without a loss of room holds plain words only.  Every
quote and every spare blank loses room, so the reader only ever sees ordinary
characters, the blanks that end words, and duplications. -/
theorem plain_of_lex (s : List Char) :
    ∀ (mode : Mode) (pend : Option (List Char)) (cur : Cur)
      (toks : List Token),
      (mode = .plain ∨ ∃ fd, mode = .greater fd ∧ pend = none ∧ cur = none) →
      lex mode pend cur s = some toks →
      (∀ w b, cur = some (w, b) → PlainWord w) →
      width toks = taken mode pend cur + s.length + 1 → PlainArgs toks := by
  induction s with
  | nil =>
    rintro mode pend cur toks (rfl | ⟨fd, rfl, rfl, rfl⟩) h hcur hw
    · rcases cur with _ | ⟨w, b⟩
      · simp only [lex] at h
        split at h
        · obtain rfl := Option.some.inj h
          intro w hmem
          cases hmem
        · cases h
      · obtain rfl : [token pend w] = toks := Option.some.inj h
        intro v hv
        rcases pend with _ | fd
        · obtain rfl : v = w := by simpa [token] using hv
          exact hcur v b rfl
        · simp [token] at hv
    · simp [lex] at h
  | cons c s ih =>
    rintro mode pend cur toks (rfl | ⟨fd, rfl, rfl, rfl⟩) h hcur hw
    · rw [List.length_cons] at hw
      rcases lex_plain_cons h with ⟨-, rfl, h'⟩ | ⟨-, w, b, toks', rfl, h', rfl⟩ |
        ⟨-, mode, cur', hm, h'⟩ | ⟨-, rfl, fd, hfd, h'⟩ | ⟨hc, hl, h'⟩
      · have := width_le_of_lex s _ _ _ _ h'
        omega
      · rw [width_cons, width_token pend w b] at hw
        have htail : PlainArgs toks' := by
          refine ih .plain none none toks' (Or.inl rfl) h' (by simp) ?_
          simp only [taken] at hw ⊢
          omega
        intro v hv
        rcases List.mem_cons.1 hv with hv | hv
        · rcases pend with _ | fd
          · obtain rfl : v = w := by simpa [token] using hv
            exact hcur v b rfl
          · simp [token] at hv
        · exact htail v hv
      · have hle := width_le_of_lex s _ _ _ _ h'
        have heq : taken mode pend cur' = taken .plain pend cur := taken_opened hm
        omega
      · refine ih (.greater fd) none none toks (Or.inr ⟨fd, rfl, rfl, rfl⟩) h'
          (by simp) ?_
        rcases hfd with ⟨rfl, rfl⟩ | rfl <;>
          simp only [taken, List.length_nil] at hw ⊢ <;> omega
      · refine ih .plain pend _ toks (Or.inl rfl) h' ?_ (by rw [taken_push]; omega)
        intro w b hw'
        rcases cur with _ | ⟨v, b'⟩
        · obtain ⟨rfl, -⟩ := Prod.mk.injEq .. ▸ Option.some.inj hw'
          exact ⟨hl rfl, by simpa using hc⟩
        · obtain ⟨rfl, -⟩ := Prod.mk.injEq .. ▸ Option.some.inj hw'
          exact (hcur v b' rfl).append (by simpa using hc)
    · rw [List.length_cons] at hw
      simp only [lex] at h
      split at h
      · refine ih .plain (some fd) none toks (Or.inl rfl) h (by simp) ?_
        simp only [taken] at hw ⊢
        omega
      · cases h

/-- The room that a simple command takes when it is written out with single
blanks. -/
def Command.width (cmd : Command) : Nat :=
  (cmd.argv.map fun w => w.length + 1).sum
    + (cmd.dups.map fun d => d.1.length + 2 + d.2.length + 1).sum

/-- The room of the tokens is the room of the command they make. -/
theorem width_eq_command (toks : List Token) :
    (Command.mk (toks.filterMap Token.arg?) (toks.filterMap Token.dup?)).width
      = width toks := by
  induction toks with
  | nil => rfl
  | cons t toks ih =>
    rw [width_cons, ← ih]
    cases t with
    | word w =>
      simp only [Command.width, List.filterMap_cons, Token.arg?, Token.dup?,
        Token.width, List.map_cons, List.sum_cons]
      omega
    | dup fd t =>
      simp only [Command.width, List.filterMap_cons, Token.arg?, Token.dup?,
        Token.width, List.map_cons, List.sum_cons]
      omega

/-- A command never needs more room than the text it was read from, and when it
needs all of it, its arguments are plain words. -/
theorem readCommand_width {text : List Char} {cmd : Command}
    (h : readCommand text = some cmd) :
    cmd.width ≤ text.length + 1 ∧
      (cmd.width = text.length + 1 → ∀ w ∈ cmd.argv, PlainWord w) := by
  obtain ⟨toks, hlex, rfl⟩ := Option.map_eq_some_iff.1 h
  rw [width_eq_command]
  have hzero : taken .plain none none = 0 := rfl
  constructor
  · have := width_le_of_lex text _ _ _ _ hlex
    omega
  · intro hw w hmem
    obtain ⟨t, ht, htw⟩ := List.mem_filterMap.1 hmem
    have hplain := plain_of_lex text _ _ _ toks (Or.inl rfl) hlex (by simp)
      (by omega)
    cases t with
    | word v =>
      obtain rfl : v = w := Option.some.inj htw
      exact hplain v ht
    | dup fd t => cases htw

end Sh
