import SysFs.Lib.Pieces

/-!
# Redirections in a text

The pieces of a text around a `>`, for a `>` that is an operator of its own and
not a part of a word, of a comment or of a longer operator.

* `Reader.Top` and `Reader.Free` say where a blank ends the piece before it, and
  where a `>` starts an operator.  `Ready` puts them together for a text and the
  blanks after it.
* `pieces_of_ready` and `read_redirect` give the pieces before and after such a
  `>`.
* `ready_of_pieces` and `exists_of_read_redirect` go back from the pieces to the
  text.
-/

namespace Sh

namespace Reader

/-- A blank ends the piece before it. -/
def Top : Reader → Prop
  | .idle => True
  | .comment _ => False
  | .op _ _ => True
  | .word _ ns => settled ' ' ns = []

/-- A `>` starts an operator of its own. -/
def Free : Reader → Prop
  | .idle => True
  | .comment _ => False
  | .op _ o => o ++ ['>'] ∉ operators
  | .word t ns => settled '>' ns = [] ∧ ¬ IsNumber t

instance : DecidablePred Top
  | .idle => inferInstanceAs (Decidable True)
  | .comment _ => inferInstanceAs (Decidable False)
  | .op _ _ => inferInstanceAs (Decidable True)
  | .word _ ns => inferInstanceAs (Decidable (settled ' ' ns = []))

instance : DecidablePred Free
  | .idle => inferInstanceAs (Decidable True)
  | .comment _ => inferInstanceAs (Decidable False)
  | .op _ o => inferInstanceAs (Decidable (o ++ ['>'] ∉ operators))
  | .word t ns => inferInstanceAs (Decidable (settled '>' ns = [] ∧ ¬ IsNumber t))

end Reader

/-- Where the reader is after a text. -/
def reached (s : List Char) : Reader := (run .idle s).2

/-- After the text `s` and the blanks `r`, a `>` starts an operator of its own,
and the blanks are no part of what is before them. -/
def Ready (s r : List Char) : Prop := if r = [] then (reached s).Free else (reached s).Top

instance (s r : List Char) : Decidable (Ready s r) :=
  inferInstanceAs (Decidable (if r = [] then _ else _))

/-- A character that stands for itself in the name of a file. -/
def isBare (c : Char) : Bool :=
  !isBlank c && !isQuote c && !isOperator c && !"\n$`".toList.contains c

/-- A word that the shell takes for the name of a file as it stands. -/
def FileWord : List Char → Prop
  | [] => False
  | c :: w => isLeader c = false ∧ ∀ b ∈ c :: w, isBare b = true

instance : DecidablePred FileWord
  | [] => inferInstanceAs (Decidable False)
  | c :: w =>
    have : Decidable (∀ b ∈ c :: w, isBare b = true) := List.decidableBAll _ _
    inferInstanceAs (Decidable (isLeader c = false ∧ ∀ b ∈ c :: w, isBare b = true))

/-- A character that separates pieces outside of words. -/
def IsGap (c : Char) : Prop := isBlank c = true ∨ c = '\n'

instance : DecidablePred IsGap := fun _ => inferInstanceAs (Decidable (_ ∨ _))

/-- The piece that such a character is. -/
def gap (c : Char) : Piece := if isBlank c then .blank c else .newline

variable {st : Reader} {c : Char} {s t : List Char} {ps qs : List Piece}

/-! ## Where operators start -/

/-- Only an opening parenthesis and an opening brace make a `$` count. -/
theorem settled_eq {d : Char} (hc : c ≠ '(' ∧ c ≠ '{') (hd : d ≠ '(' ∧ d ≠ '{')
    (ns : List Nest) : settled c ns = settled d ns := by
  cases ns with
  | nil => rfl
  | cons n ns =>
    cases n with
    | dollar => simp [settled, hc, hd]
    | _ => rfl

theorem isGap_iff : IsGap c ↔ c = ' ' ∨ c = '\t' ∨ c = '\n' := by
  simp [IsGap, isBlank, or_assoc]

theorem start_gap (hc : IsGap c) : start c = ([gap c], .idle) := by
  rcases hc with hc | rfl
  · rw [start, gap, if_pos hc, if_pos hc]
  · rfl

/-- No operator of more than one character goes on with a blank or a newline. -/
theorem gap_notMem_operators {o : List Char} (hc : IsGap c) : o ++ [c] ∉ operators := by
  have hends : ∀ t ∈ operators, (t.getLast?.all fun d => decide (¬ IsGap d)) = true := by decide
  intro hmem
  have hlast := hends _ hmem
  rw [List.getLast?_concat] at hlast
  exact of_decide_eq_true hlast hc

/-- Outside of quotations, substitutions and comments, a blank or a newline ends
the piece before it. -/
theorem step_of_top (hst : st.Top) (hc : IsGap c) : step st c = (st.close ++ [gap c], .idle) := by
  have hstart := start_gap hc
  have hne : c ≠ '(' ∧ c ≠ '{' ∧ c ≠ '<' ∧ c ≠ '>' := by
    rcases isGap_iff.1 hc with rfl | rfl | rfl <;> decide
  cases st with
  | idle => exact hstart
  | comment t => exact absurd hst id
  | op n o =>
    simp only [step]
    rw [if_neg (gap_notMem_operators hc), hstart]
    rfl
  | word t ns =>
    have hns : settled c ns = [] := by
      rw [settled_eq (d := ' ') ⟨hne.1, hne.2.1⟩ (by decide)]
      exact hst
    have hends : isBlank c = true ∨ c = '\n' ∨ isOperator c = true :=
      hc.elim Or.inl fun h => Or.inr (Or.inl h)
    simp only [step, hns]
    rw [if_neg (by simp [hne]), if_pos hends, hstart]
    rfl

/-- In a quotation, a substitution or a comment, a blank belongs to the piece
before it. -/
theorem step_of_not_top (hst : ¬ st.Top) (hc : isBlank c = true) :
    st ≠ .idle ∧ (step st c).1 = [] ∧ (step st c).2 ≠ .idle ∧
      (step st c).2.text = st.text ++ [c] := by
  have hne : c ≠ '(' ∧ c ≠ '{' ∧ c ≠ '\n' := by
    rcases isGap_iff.1 (Or.inl hc) with rfl | rfl | rfl <;> first | decide | cases hc
  cases st with
  | idle => exact absurd trivial hst
  | comment t =>
    simp only [step]
    rw [if_neg hne.2.2]
    exact ⟨by simp, rfl, by simp, rfl⟩
  | op n o => exact absurd trivial hst
  | word t ns =>
    have hns : settled c ns ≠ [] := by
      rw [settled_eq (d := ' ') ⟨hne.1, hne.2.1⟩ (by decide)]
      exact hst
    obtain ⟨n, ns', hcons⟩ := List.exists_cons_of_ne_nil hns
    have hstep : step (.word t ns) c = ([], .word (t ++ [c]) (nested c (n :: ns'))) := by
      simp only [step, hcons]
    rw [hstep]
    exact ⟨by simp, rfl, by simp, rfl⟩

/-- A `>` that starts an operator of its own. -/
theorem step_of_free (hst : st.Free) : step st '>' = (st.close, .op [] ['>']) := by
  have hstart : start '>' = ([], .op [] ['>']) := rfl
  cases st with
  | idle => exact hstart
  | comment t => exact absurd hst id
  | op n o =>
    simp only [step]
    rw [if_neg hst, hstart]
    rfl
  | word t ns =>
    simp only [step, hst.1]
    rw [if_neg (fun h => hst.2 h.2), if_pos (by decide), hstart]
    rfl

/-- A `>` that belongs to the piece before it. -/
theorem step_of_not_free (hst : ¬ st.Free) :
    st ≠ .idle ∧ (step st '>').1 = [] ∧ (step st '>').2 ≠ .idle ∧
      (step st '>').2.text = st.text ++ ['>'] := by
  cases st with
  | idle => exact absurd trivial hst
  | comment t => exact ⟨by simp, rfl, by simp [step], rfl⟩
  | op n o =>
    have hmem : o ++ ['>'] ∈ operators := not_not.1 hst
    simp only [step]
    rw [if_pos hmem]
    exact ⟨by simp, rfl, by simp, by simp [Reader.text]⟩
  | word t ns =>
    cases hns : settled '>' ns with
    | nil =>
      have hnumber : IsNumber t := by
        by_contra hnot
        exact hst ⟨hns, hnot⟩
      have hstep : step (.word t ns) '>' = ([], .op t ['>']) := by
        simp [step, hns, hnumber]
      rw [hstep]
      exact ⟨by simp, rfl, by simp, rfl⟩
    | cons n ns' =>
      have hstep : step (.word t ns) '>' = ([], .word (t ++ ['>']) (nested '>' (n :: ns'))) := by
        simp only [step, hns]
      rw [hstep]
      exact ⟨by simp, rfl, by simp, rfl⟩

/-! ## Blanks and file names -/

/-- Blanks and newlines end the piece before them. -/
theorem run_gaps : ∀ (s : List Char) (st : Reader), st.Top → s ≠ [] → (∀ x ∈ s, IsGap x) →
    run st s = (st.close ++ s.map gap, .idle)
  | [], _, _, hne, _ => absurd rfl hne
  | [c], st, hst, _, hs => by
    rw [run, step_of_top hst (hs c List.mem_cons_self)]
    simp [run]
  | c :: d :: s, st, hst, _, hs => by
    rw [List.forall_mem_cons] at hs
    rw [run, step_of_top hst hs.1, run_gaps (d :: s) .idle trivial (List.cons_ne_nil _ _) hs.2]
    simp [Reader.close]

theorem read_gaps (hst : st.Top) (hs : ∀ x ∈ s, IsGap x) : read st s = st.close ++ s.map gap := by
  by_cases hne : s = []
  · rw [hne, read_nil, List.map_nil, List.append_nil]
  · rw [read, run_gaps s st hst hne hs]
    exact List.append_nil _

/-- Of blanks and newlines, the newlines count. -/
theorem filter_map_gap (hs : ∀ x ∈ s, IsGap x) :
    (s.map gap).filter Piece.counts = List.replicate (s.count '\n') .newline := by
  induction s with
  | nil => rfl
  | cons c s ih =>
    rw [List.forall_mem_cons] at hs
    rw [List.map_cons]
    rcases isGap_iff.1 hs.1 with rfl | rfl | rfl
    · rw [List.filter_cons_of_neg (by decide), ih hs.2, List.count_cons_of_ne (by decide)]
    · rw [List.filter_cons_of_neg (by decide), ih hs.2, List.count_cons_of_ne (by decide)]
    · rw [List.filter_cons_of_pos (by decide), ih hs.2, List.count_cons_self]
      rfl

theorem filter_map_blanks (hs : ∀ x ∈ s, isBlank x = true) :
    (s.map gap).filter Piece.counts = [] := by
  have hzero : s.count '\n' = 0 := by
    rw [List.count_eq_zero]
    exact fun hmem => absurd (hs _ hmem) (by decide)
  rw [filter_map_gap fun x hx => Or.inl (hs x hx), hzero]
  rfl

theorem written_map_gap (hs : ∀ x ∈ s, IsGap x) : written (s.map gap) = s := by
  induction s with
  | nil => rfl
  | cons c s ih =>
    rw [List.forall_mem_cons] at hs
    rw [List.map_cons, written_cons, ih hs.2]
    rcases isGap_iff.1 hs.1 with rfl | rfl | rfl <;> rfl

theorem joined_of_notMem (h : '\\' ∉ t) : joined t = t := by
  fun_induction joined t with
  | case1 t ih => exact absurd List.mem_cons_self h
  | case2 c t _ ih => rw [ih fun hmem => h (List.mem_cons_of_mem c hmem)]
  | case3 => rfl

theorem isBare_iff : isBare c = true ↔ isBlank c = false ∧ isQuote c = false ∧
    isOperator c = false ∧ c ≠ '\n' ∧ c ≠ '$' ∧ c ≠ '`' := by
  simp [isBare, and_assoc]

/-- A character that stands for itself opens nothing. -/
theorem nested_bare (hc : isBare c = true) : nested c [] = [] := by
  obtain ⟨-, hquote, -, -, hdollar, hback⟩ := isBare_iff.1 hc
  simp only [isQuote, Bool.or_eq_false_iff, beq_eq_false_iff_ne] at hquote
  simp [nested, opened, hquote, hdollar, hback]

theorem start_bare (hc : isBare c = true) (hleader : isLeader c = false) :
    start c = ([], .word [c] []) := by
  obtain ⟨hblank, -, hop, hnewline, -, -⟩ := isBare_iff.1 hc
  have hhash : c ≠ '#' := by
    rintro rfl
    exact absurd hleader (by decide)
  simp [start, hblank, hop, hnewline, hhash, nested_bare hc]

theorem step_bare (hc : isBare c = true) (ht : joined t ≠ []) :
    step (.word t []) c = ([], .word (t ++ [c]) []) := by
  obtain ⟨hblank, -, hop, hnewline, -, -⟩ := isBare_iff.1 hc
  have hne : c ≠ '<' ∧ c ≠ '>' := by
    constructor
    · rintro rfl
      exact absurd hop (by decide)
    · rintro rfl
      exact absurd hop (by decide)
  simp [step, settled, hblank, hop, hnewline, hne, ht, nested_bare hc]

theorem backslash_notMem_of_bare (h : ∀ b ∈ t, isBare b = true) : '\\' ∉ t :=
  fun hmem => absurd (h _ hmem) (by decide)

theorem run_bare (hs : ∀ b ∈ s, isBare b = true) : ∀ t : List Char, t ≠ [] →
    (∀ b ∈ t, isBare b = true) → run (.word t []) s = ([], .word (t ++ s) []) := by
  induction s with
  | nil =>
    intro t _ _
    rw [List.append_nil]
    rfl
  | cons c s ih =>
    intro t hne ht
    rw [List.forall_mem_cons] at hs
    have hjoined : joined t ≠ [] := by
      rwa [joined_of_notMem (backslash_notMem_of_bare ht)]
    have hmore : ∀ b ∈ t ++ [c], isBare b = true := by
      intro b hb
      rcases List.mem_append.1 hb with hb | hb
      · exact ht b hb
      · rw [List.mem_singleton.1 hb]
        exact hs.1
    rw [run, step_bare hs.1 hjoined, ih hs.2 (t ++ [c]) (by simp) hmore]
    simp

theorem FileWord.ne_nil (h : FileWord t) : t ≠ [] := by
  rintro rfl
  exact h

theorem FileWord.isBare (h : FileWord t) (hc : c ∈ t) : isBare c = true := by
  cases t with
  | nil => cases hc
  | cons d t => exact h.2 c hc

/-- A character that does not stand for itself is in neither a file name nor the
blanks around it. -/
theorem FileWord.notMem (ht : FileWord t) {b a : List Char} (hb : ∀ x ∈ b, IsGap x)
    (ha : ∀ x ∈ a, IsGap x) (hgap : ¬ IsGap c) (hbare : Sh.isBare c = false) :
    c ∉ b ++ (t ++ a) := by
  rw [List.mem_append, List.mem_append]
  rintro (hmem | hmem | hmem)
  · exact hgap (hb c hmem)
  · rw [ht.isBare hmem] at hbare
    cases hbare
  · exact hgap (ha c hmem)

/-- A file name is read as a word. -/
theorem run_fileWord (ht : FileWord t) : run .idle t = ([], .word t []) := by
  cases t with
  | nil => exact absurd ht id
  | cons c t =>
    obtain ⟨hleader, hbare⟩ := ht
    rw [List.forall_mem_cons] at hbare
    rw [run, show step .idle c = start c from rfl, start_bare hbare.1 hleader,
      run_bare hbare.2 [c] (by simp) (by simpa using hbare.1)]
    simp

/-- A character that stands for itself ends a `>` before it. -/
theorem greater_notMem_operators (hc : isBare c = true) : ['>'] ++ [c] ∉ operators := by
  have hends : ∀ t ∈ operators, t.head? = some '>' →
      (t.getLast?.all fun d => !isBare d) = true := by
    decide
  intro hmem
  have hlast := hends _ hmem rfl
  rw [List.getLast?_concat, Option.all_some, hc] at hlast
  cases hlast

/-- What is read after a `>` when it is a file name. -/
theorem run_redirect {b : List Char} (hb : ∀ x ∈ b, IsGap x) (ht : FileWord t) :
    run (.op [] ['>']) (b ++ t) = (.op ['>'] :: b.map gap, .word t []) := by
  have hword := run_fileWord ht
  by_cases hne : b = []
  · rw [hne]
    cases t with
    | nil => exact absurd ht id
    | cons c t =>
      rw [run, Prod.mk.injEq] at hword
      have hstep : step (.op [] ['>']) c = (.op ['>'] :: (start c).1, (start c).2) :=
        if_neg (greater_notMem_operators (ht.2 c List.mem_cons_self))
      rw [List.nil_append, run, hstep, List.cons_append]
      exact Prod.ext (congrArg (Piece.op ['>'] :: ·) hword.1) hword.2
  · rw [run_append, run_gaps b (.op [] ['>']) trivial hne hb, hword]
    simp [Reader.close]

/-- The file name ends where blanks and newlines come. -/
theorem read_redirect {b a : List Char} (hb : ∀ x ∈ b, IsGap x) (ht : FileWord t)
    (ha : ∀ x ∈ a, IsGap x) : read (.op [] ['>']) (b ++ (t ++ a))
      = .op ['>'] :: (b.map gap ++ .word t :: a.map gap) := by
  have htop : (Reader.word t []).Top := rfl
  rw [← List.append_assoc, read_append, run_redirect hb ht, read_gaps htop ha]
  rfl

/-! ## Redirections in a text -/

theorem pieces_eq (s : List Char) : pieces s = (run .idle s).1 ++ (reached s).close := rfl

theorem begun_run (s : List Char) : ∀ st : Reader, st.Begun → (run st s).2.Begun := by
  induction s with
  | nil => intro st hst; exact hst
  | cons c s ih => intro st _; exact ih _ (begun_step st c)

/-- Blanks and newlines before a text are pieces of their own. -/
theorem run_gaps_idle (hs : ∀ x ∈ s, IsGap x) : run .idle s = (s.map gap, .idle) := by
  by_cases hne : s = []
  · rw [hne]
    rfl
  · rw [run_gaps s .idle trivial hne hs]
    rfl

theorem pieces_gaps_append (hs : ∀ x ∈ s, IsGap x) (t : List Char) :
    pieces (s ++ t) = s.map gap ++ pieces t := by
  rw [pieces, read_append, run_gaps_idle hs]
  rfl

theorem reached_gaps_append (hs : ∀ x ∈ s, IsGap x) (t : List Char) :
    reached (s ++ t) = reached t := by
  rw [reached, run_append, run_gaps_idle hs]
  rfl

/-- Where a `>` is ready, the pieces before it are those of the text. -/
theorem run_of_ready {l r : List Char} (hl : ∀ x ∈ l, IsGap x)
    (hr : ∀ x ∈ r, isBlank x = true) (h : Ready s r) :
    run .idle (l ++ s ++ r ++ ['>'])
      = (l.map gap ++ pieces s ++ r.map gap, .op [] ['>']) := by
  rw [List.append_assoc, List.append_assoc, run_append, run_gaps_idle hl, run_append, pieces_eq]
  by_cases hne : r = []
  · rw [Ready, if_pos hne] at h
    rw [hne, List.nil_append, run, show (run .idle s).2 = reached s from rfl, step_of_free h]
    simp [run]
  · rw [Ready, if_neg hne] at h
    have hgaps := run_gaps r (reached s) h hne fun x hx => Or.inl (hr x hx)
    have hstart : step .idle '>' = ([], .op [] ['>']) := rfl
    rw [run_append, show (run .idle s).2 = reached s from rfl, hgaps, run, hstart]
    simp [run]

theorem pieces_of_ready {l r : List Char} (hl : ∀ x ∈ l, IsGap x)
    (hr : ∀ x ∈ r, isBlank x = true) (h : Ready s r) (u : List Char) :
    pieces (l ++ s ++ r ++ '>' :: u)
      = (l.map gap ++ pieces s ++ r.map gap) ++ read (.op [] ['>']) u := by
  rw [List.append_cons, pieces, read_append, run_of_ready hl hr h]

/-- When a `>` is an operator of its own, the text before it says so, and the
pieces before it are those of this text. -/
theorem free_of_pieces {u : List Char} {before after : List Piece}
    (h : pieces (s ++ '>' :: u) = before ++ .op ['>'] :: after) (hplace : written before = s) :
    (reached s).Free ∧ before = pieces s ∧ read (.op [] ['>']) u = .op ['>'] :: after := by
  have hformed := formed_pieces (s ++ '>' :: u)
  have hwritten : written (run .idle s).1 ++ (reached s).text = s := written_run s .idle
  have hbegun : (reached s).Begun := begun_run s .idle begun_idle
  have hsplit : pieces (s ++ '>' :: u) = (run .idle s).1 ++ ((step (reached s) '>').1 ++
      read (step (reached s) '>').2 u) := by
    rw [pieces, read_append, read_cons]
    rfl
  have hfree : (reached s).Free := by
    by_contra hnot
    obtain ⟨hne, hnone, hnext, htext⟩ := step_of_not_free hnot
    -- The piece that the `>` belongs to starts before the place and ends after it.
    obtain ⟨p, ps, hread, hpre⟩ := read_eq_cons u _ hnext
    rw [hnone, hread, List.nil_append] at hsplit
    have hle := hpre.length_le
    have hpos := List.length_pos_iff.2 (hbegun hne)
    have hlength := congrArg List.length hwritten
    rw [htext, List.length_append, List.length_singleton] at hle
    rw [List.length_append] at hlength
    rcases append_cut (hsplit.symm.trans h) with hcut | hcut
    · rw [hplace] at hcut
      omega
    · rw [hplace] at hcut
      omega
  rw [step_of_free hfree, ← List.append_assoc, ← pieces_eq] at hsplit
  have hsame : (written (pieces s)).length = (written before).length := by
    rw [written_pieces, hplace]
  obtain ⟨hbefore, hafter⟩ := append_inj_of_length (hsplit.symm.trans h)
    (hsplit ▸ hformed) hsame
  exact ⟨hfree, hbefore.symm, hafter⟩

/-- Without the blanks, a list of pieces has all characters but blanks. -/
theorem count_written_filter {x : Char} (hx : isBlank x = false) (hps : ∀ p ∈ ps, p.Formed) :
    (written (ps.filter Piece.counts)).count x = (written ps).count x := by
  induction ps with
  | nil => rfl
  | cons p ps ih =>
    rw [List.forall_mem_cons] at hps
    cases hp : p.counts with
    | true =>
      rw [List.filter_cons_of_pos hp, written_cons, written_cons, List.count_append,
        List.count_append, ih hps.2]
    | false =>
      rw [List.filter_cons_of_neg (by simp [hp]), written_cons, List.count_append, ih hps.2]
      cases p with
      | blank c =>
        have hne : c ≠ x := by
          rintro rfl
          rw [show isBlank c = true from hps.1] at hx
          cases hx
        rw [Piece.text, List.count_cons_of_ne hne, List.count_nil, Nat.zero_add]
      | _ => cases hp

theorem count_written_newlines {x : Char} (hx : x ≠ '\n') (k : Nat) :
    (written (List.replicate k .newline)).count x = 0 := by
  induction k with
  | zero => rfl
  | succ k ih =>
    rw [List.replicate_succ, written_cons, List.count_append, ih, Piece.text,
      List.count_cons_of_ne (Ne.symm hx), List.count_nil]

/-- A text that starts with neither a blank nor a newline starts with another
piece. -/
theorem head_pieces (hs : s ≠ []) (hhead : ∀ c, s.head? = some c → ¬ IsGap c) :
    ∃ p, ((pieces s).filter Piece.counts).head? = some p ∧ p ≠ .newline := by
  cases s with
  | nil => exact absurd rfl hs
  | cons c s =>
    have hgap := hhead c rfl
    rcases start_cases c with ⟨hblank, -⟩ | ⟨hnewline, -⟩ | ⟨-, -, hnone, hne, htext⟩
    · exact absurd (Or.inl hblank) hgap
    · exact absurd (Or.inr hnewline) hgap
    · obtain ⟨p, ps, hread, hpre⟩ := read_eq_cons s _ hne
      have hpieces : pieces (c :: s) = p :: ps := by
        rw [pieces, read_cons, show step .idle c = start c from rfl, hnone, hread]
        rfl
      have hformed := formed_pieces (c :: s) p (hpieces ▸ List.mem_cons_self)
      have hchar : p.text.head? = some c := by
        obtain ⟨t, ht⟩ := hpre
        rw [← ht, htext]
        rfl
      have hkind : p.counts = true ∧ p ≠ .newline := by
        cases p with
        | blank d =>
          obtain rfl := Option.some.inj hchar
          exact absurd (Or.inl hformed) hgap
        | newline =>
          obtain rfl := Option.some.inj hchar
          exact absurd (Or.inr rfl) hgap
        | _ => exact ⟨rfl, by simp⟩
      refine ⟨p, ?_, hkind.2⟩
      rw [hpieces, List.filter_cons_of_pos hkind.1]
      rfl

/-- What counts of a text has all its characters but blanks. -/
theorem count_written_pieces {x : Char} (hx : isBlank x = false) (s : List Char) :
    (written ((pieces s).filter Piece.counts)).count x = s.count x := by
  rw [count_written_filter hx (formed_pieces s), written_pieces]

/-- What is added to a text, at its start and at its end, is blanks and newlines
when it adds nothing that counts but newlines. -/
theorem isGap_of_filter_eq {l r : List Char} {k : Nat}
    (h : (pieces (l ++ s ++ r)).filter Piece.counts
      = List.replicate k .newline ++ (pieces s).filter Piece.counts) :
    ∀ x ∈ l ++ r, IsGap x := by
  intro x hmem
  by_contra hx
  rw [IsGap, not_or, Bool.not_eq_true] at hx
  have hsame := congrArg (fun ps => (written ps).count x) h
  rw [count_written_pieces hx.1, written_append, List.count_append, List.count_append,
    List.count_append, count_written_newlines hx.2, count_written_pieces hx.1] at hsame
  have hpos := List.count_pos_iff.2 hmem
  rw [List.count_append] at hpos
  omega

/-- What is added at the end of a text is blanks when it adds nothing that
counts. -/
theorem isBlank_of_filter_eq {r : List Char}
    (h : (pieces (s ++ r)).filter Piece.counts = (pieces s).filter Piece.counts) :
    ∀ x ∈ r, isBlank x = true := by
  intro x hmem
  by_contra hx
  rw [Bool.not_eq_true] at hx
  have hsame := congrArg (fun ps => (written ps).count x) h
  rw [count_written_pieces hx, count_written_pieces hx, List.count_append] at hsame
  have hpos := List.count_pos_iff.2 hmem
  omega

/-- Newlines before a list that starts with something else. -/
theorem eq_of_newlines_append {i j : Nat} (hps : ∃ p, ps.head? = some p ∧ p ≠ .newline)
    (hqs : ∃ p, qs.head? = some p ∧ p ≠ .newline)
    (h : List.replicate i Piece.newline ++ ps = List.replicate j .newline ++ qs) : ps = qs := by
  have hdrop : ∀ (k : Nat) (rs : List Piece), (∃ p, rs.head? = some p ∧ p ≠ .newline) →
      (List.replicate k Piece.newline ++ rs).dropWhile (· == .newline) = rs := by
    intro k rs hrs
    obtain ⟨p, hp, hne⟩ := hrs
    induction k with
    | zero =>
      cases rs with
      | nil => cases hp
      | cons q rs =>
        obtain rfl := Option.some.inj hp
        exact List.dropWhile_cons_of_neg (by simpa using hne)
    | succ k ih =>
      rw [List.replicate_succ, List.cons_append, List.dropWhile_cons_of_pos (by simp)]
      exact ih
  rw [← hdrop i ps hps, h, hdrop j qs hqs]

/-- When what comes after a text belongs to the last piece of it, that piece is
another one. -/
theorem top_of_filter_eq {x : Char} (hx : isBlank x = true)
    (h : (pieces (s ++ x :: t)).filter Piece.counts = (pieces s).filter Piece.counts) :
    (reached s).Top := by
  by_contra hnot
  obtain ⟨hne, hnone, hnext, htext⟩ := step_of_not_top hnot hx
  obtain ⟨p, ps, hread, hpre⟩ := read_eq_cons t _ hnext
  obtain ⟨q, hclose, hq, hcounts⟩ := Reader.close_eq hne
  have hlong : q.text.length + 1 ≤ p.text.length := by
    have hle := hpre.length_le
    rw [htext, List.length_append, List.length_singleton] at hle
    rwa [hq]
  have hpos : 0 < q.text.length := by
    rw [hq]
    exact List.length_pos_iff.2 (begun_run s .idle begun_idle hne)
  have hp : p.counts = true := by
    cases p with
    | blank c =>
      rw [show (Piece.blank c).text.length = 1 from rfl] at hlong
      omega
    | _ => rfl
  have hsplit : pieces (s ++ x :: t) = (run .idle s).1 ++ p :: ps := by
    rw [pieces, read_append, read_cons, show (run .idle s).2 = reached s from rfl, hnone, hread]
    rfl
  rw [hsplit, pieces_eq, hclose, List.filter_append, List.filter_append,
    List.filter_cons_of_pos hp, List.filter_cons_of_pos hcounts] at h
  obtain ⟨rfl, -⟩ := List.cons.inj (List.append_cancel_left h)
  omega

/-- When a `>` is an operator of its own, and what is before it reads like the
text `s` but for newlines at the start, then the `>` is ready, and `s` is all
that is before it but for blanks. -/
theorem ready_of_pieces {l r u : List Char} {before after : List Piece} {k : Nat}
    (h : pieces (l ++ s ++ r ++ '>' :: u) = before ++ .op ['>'] :: after)
    (hplace : written before = l ++ s ++ r)
    (hcounts : before.filter Piece.counts
      = List.replicate k .newline ++ (pieces s).filter Piece.counts)
    (hhead : ∀ c, s.head? = some c → ¬ IsGap c) (hnil : s = [] → r = []) :
    (∀ x ∈ l, IsGap x) ∧ (∀ x ∈ r, isBlank x = true) ∧ Ready s r ∧
      read (.op [] ['>']) u = .op ['>'] :: after := by
  obtain ⟨hfree, rfl, hafter⟩ := free_of_pieces h hplace
  have hgap := isGap_of_filter_eq hcounts
  have hl : ∀ x ∈ l, IsGap x := fun x hx => hgap x (List.mem_append_left _ hx)
  rw [List.append_assoc] at hcounts hfree
  rw [reached_gaps_append hl] at hfree
  by_cases hs : s = []
  · rw [hnil hs, List.append_nil] at hfree
    refine ⟨hl, ?_, ?_, hafter⟩
    · rw [hnil hs]
      exact List.forall_mem_nil _
    · rw [Ready, if_pos (hnil hs)]
      exact hfree
  · -- After the newlines at the start, the pieces are the same.
    have hsame : (pieces (s ++ r)).filter Piece.counts = (pieces s).filter Piece.counts := by
      have hlong : ∀ c, (s ++ r).head? = some c → ¬ IsGap c := by
        intro c hc
        rw [List.head?_append_of_ne_nil _ hs] at hc
        exact hhead c hc
      rw [pieces_gaps_append hl, List.filter_append, filter_map_gap hl] at hcounts
      exact eq_of_newlines_append (head_pieces (List.append_ne_nil_of_left_ne_nil hs _) hlong)
        (head_pieces hs hhead) hcounts
    have hr := isBlank_of_filter_eq hsame
    refine ⟨hl, hr, ?_, hafter⟩
    cases r with
    | nil =>
      rw [List.append_nil] at hfree
      exact hfree
    | cons x r => exact top_of_filter_eq (hr x List.mem_cons_self) hsame

/-- Blanks are written with blanks. -/
theorem isBlank_of_mem_written (hps : ∀ p ∈ ps, p.Formed)
    (hblank : ∀ p ∈ ps, ¬ p.counts = true) : ∀ x ∈ written ps, isBlank x = true := by
  intro x hx
  obtain ⟨p, hp, hmem⟩ := List.mem_flatMap.1 hx
  have hnot := hblank p hp
  have hformed := hps p hp
  cases p with
  | blank c =>
    rw [List.mem_singleton.1 hmem]
    exact hformed
  | _ => exact absurd rfl hnot

/-- Newlines and blanks are written with newlines and blanks. -/
theorem isGap_of_mem_written {j : Nat} (hps : ∀ p ∈ ps, p.Formed)
    (hnewlines : ps.filter Piece.counts = List.replicate j .newline) :
    ∀ x ∈ written ps, IsGap x := by
  intro x hx
  obtain ⟨p, hp, hmem⟩ := List.mem_flatMap.1 hx
  have hformed := hps p hp
  cases hcounts : p.counts with
  | true =>
    have hfilter : p ∈ ps.filter Piece.counts := List.mem_filter.2 ⟨hp, hcounts⟩
    rw [hnewlines] at hfilter
    rw [List.eq_of_mem_replicate hfilter] at hmem
    exact Or.inr (List.mem_singleton.1 hmem)
  | false =>
    cases p with
    | blank c =>
      rw [List.mem_singleton.1 hmem]
      exact Or.inl hformed
    | _ => cases hcounts

/-- When a word and newlines are all that counts after a `>`, the text after it
is this word but for blanks and newlines. -/
theorem exists_of_read_redirect {u : List Char} {after : List Piece} {j : Nat}
    (h : read (.op [] ['>']) u = .op ['>'] :: after)
    (hcounts : after.filter Piece.counts = .word t :: List.replicate j .newline) :
    ∃ b a, u = b ++ (t ++ a) ∧ (∀ x ∈ b, isBlank x = true) ∧ ∀ x ∈ a, IsGap x := by
  have hbegun : (Reader.op [] ['>']).Begun := fun _ => List.cons_ne_nil _ _
  have hformed := formed_read u _ hbegun
  have hwritten := written_read (.op [] ['>']) u
  rw [h] at hformed hwritten
  rw [List.forall_mem_cons] at hformed
  have hu : written after = u := List.append_cancel_left hwritten
  obtain ⟨bs, rest, rfl, hblank, -, hrest⟩ := List.filter_eq_cons_iff.1 hcounts
  refine ⟨written bs, written rest, ?_, ?_, ?_⟩
  · rw [← hu, written_append, written_cons]
    rfl
  · apply isBlank_of_mem_written
    · exact fun p hp => hformed.2 p (List.mem_append_left _ hp)
    · exact hblank
  · apply isGap_of_mem_written _ hrest
    exact fun p hp => hformed.2 p (List.mem_append_right _ (List.mem_cons_of_mem _ hp))

end Sh
