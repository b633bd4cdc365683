import SysFs.Lib.Script
import SysFs.Shell

/-!
# Commands with a redirection

`updateCommand` looks for the last `>` of a text and for the last `"`, from the
end.  The shell reads the text from the start, so it knows more quotations than
these and other operators with a `>` in them, and it gives a redirection to one
command of the text, not to all of them.

`SplitsAtRedirection` says that the shell finds a redirection where
`updateCommand` splits a text, and that the command before it and the output
path are all there is.  `KeepsMeaning` says that the command does what the text
does when its output is sent to the output path.  `splits_iff` says for which
texts both hold.
-/

namespace SysFs

open List (replicate)

/-- The redirection `> path`. -/
def toFile (path : Str) : Sh.Redir := ⟨1, ['>'], path⟩

namespace Shell

/-- The shell reads the text as the command, a `>` at the place where
`updateCommand` splits the text, and the output path, but for newlines before and
after them. -/
def SplitsAtRedirection (sh : Shell) (s : Str) : Prop :=
  ∃ f before after i j, rfind '>' s = some f ∧
    Sh.pieces s = before ++ .op ['>'] :: after ∧ Sh.written before = s.take f ∧
    before.filter Sh.Piece.counts
      = replicate i .newline ++ (Sh.pieces sh.mCommand).filter Sh.Piece.counts ∧
    after.filter Sh.Piece.counts = .word sh.mOutputPath :: replicate j .newline ∧
    Sh.FileWord sh.mOutputPath

/-- A text without an output path is the command, and another one is split at a
redirection of the output. -/
def SplitsWell (sh : Shell) (s : Str) : Prop :=
  if sh.mOutputPath = [] then sh.mCommand = Trim s else sh.SplitsAtRedirection s

/-- The shell does what the text says when it opens the output path and runs the
command with its standard output there. -/
def KeepsMeaning (sh : Shell) (s : Str) : Prop :=
  ∃ p q, Sh.scriptOf s = some p ∧ Sh.scriptOf sh.mCommand = some q ∧
    q.SentTo (toFile sh.mOutputPath) p

/-- A text is split at a redirection of the output only, and what is left of it
means the same. -/
def Splits (sh : Shell) (s : Str) : Prop :=
  sh.SplitsWell s ∧ (sh.mOutputPath ≠ [] → sh.KeepsMeaning s)

end Shell

/-- A text has no `>`, or a `"` after the last one. -/
def Unsplit (s : Str) : Prop :=
  '>' ∉ s ∨ ∃ u v, s = u ++ '>' :: v ∧ '>' ∉ v ∧ '"' ∈ v

/-- A text is a command, a `>` that starts an operator there, and the name of a
file.  Only blanks are around them, and newlines at the start and at the end. -/
def EndsWithRedirection (s command path : Str) : Prop :=
  ∃ l r b a, s = l ++ command ++ r ++ '>' :: (b ++ (path ++ a)) ∧
    (∀ x ∈ l, Sh.IsGap x) ∧ (∀ x ∈ r, Sh.isBlank x = true) ∧
    (∀ x ∈ b, Sh.isBlank x = true) ∧ (∀ x ∈ a, Sh.IsGap x) ∧
    Sh.Ready command r ∧ Sh.FileWord path ∧ Trim command = command ∧ Trim path = path

/-- A text is a command with a redirection at its end, and the output of the
command is what the redirection is for. -/
def Redirects (s : Str) : Prop :=
  ∃ command path q, EndsWithRedirection s command path ∧ Sh.scriptOf command = some q ∧
    q.Sends (toFile path)

theorem EndsWithRedirection.fileWord {s command path : Str}
    (h : EndsWithRedirection s command path) : Sh.FileWord path := by
  obtain ⟨-, -, -, -, -, -, -, -, -, -, hpath, -⟩ := h
  exact hpath

/-! ## Searches from the end -/

theorem rfind_concat (c : Char) (s : Str) : rfind c (s ++ [c]) = some s.length := by
  simp [rfind, List.findIdx?_cons]

/-- What has no such character does not count. -/
theorem rfind_append_of_notMem {c : Char} {t : Str} (h : c ∉ t) (s : Str) :
    rfind c (s ++ t) = rfind c s := by
  have hnone : t.reverse.findIdx? (· = c) = none := by
    rw [List.findIdx?_eq_none_iff]
    intro d hd
    rw [decide_eq_false_iff_not]
    rintro rfl
    exact h (List.mem_reverse.1 hd)
  rw [rfind, rfind, List.reverse_append, List.findIdx?_append, hnone, Option.none_or,
    Option.map_map]
  congr 1
  funext i
  simp only [Function.comp_apply, List.length_append, List.length_reverse]
  omega

theorem rfind_lt {c : Char} {s : Str} {i : Nat} (h : rfind c s = some i) : i < s.length := by
  cases s with
  | nil => cases h
  | cons d s =>
    obtain ⟨j, -, rfl⟩ := Option.map_eq_some_iff.1 h
    rw [List.length_cons]
    omega

/-- The last place of a character in a text. -/
theorem exists_last {c : Char} {s : Str} (h : c ∈ s) : ∃ u v, s = u ++ c :: v ∧ c ∉ v := by
  obtain ⟨v, u, hs, hv⟩ := List.eq_append_cons_of_mem (List.mem_reverse.2 h)
  refine ⟨u.reverse, v.reverse, ?_, fun hmem => hv (List.mem_reverse.1 hmem)⟩
  rw [← List.reverse_reverse s, hs]
  simp

theorem rfind_append_cons {c : Char} {v : Str} (h : c ∉ v) (u : Str) :
    rfind c (u ++ c :: v) = some u.length := by
  rw [List.append_cons, rfind_append_of_notMem h, rfind_concat]

/-! ## Trimmed texts -/

/-- A text is what `Trim` leaves of it, with white space around it. -/
theorem exists_Trim (s : Str) : ∃ l r, s = l ++ Trim s ++ r ∧ (∀ x ∈ l, isspace x = true) ∧
    (∀ x ∈ r, isspace x = true) ∧ (Trim s = [] → r = []) := by
  have hsplit : s.takeWhile isspace ++ s.dropWhile isspace = s := List.takeWhile_append_dropWhile
  refine ⟨s.takeWhile isspace, (s.dropWhile isspace).rtakeWhile isspace, ?_, ?_, ?_, ?_⟩
  · rw [Trim, List.append_assoc, List.rdropWhile_append_rtakeWhile, hsplit]
  · exact fun x hx => List.mem_takeWhile_imp hx
  · exact fun x hx => List.mem_rtakeWhile_imp hx
  · intro hnil
    have hall : (s.dropWhile isspace).rtakeWhile isspace = s.dropWhile isspace := by
      have happend := List.rdropWhile_append_rtakeWhile (p := isspace) (l := s.dropWhile isspace)
      rw [show (s.dropWhile isspace).rdropWhile isspace = [] from hnil, List.nil_append] at happend
      exact happend
    rw [hall]
    have hnot := List.head?_dropWhile_not isspace s
    cases hdrop : s.dropWhile isspace with
    | nil => rfl
    | cons c t =>
      rw [hdrop] at hnot hall
      have hmem : c ∈ (c :: t).rtakeWhile isspace := by
        rw [hall]
        exact List.mem_cons_self
      have hc : isspace c = true := List.mem_rtakeWhile_imp hmem
      exact absurd hc (by simpa using hnot)

/-- White space around a text is trimmed. -/
theorem Trim_append {l r : Str} (hl : ∀ x ∈ l, isspace x = true)
    (hr : ∀ x ∈ r, isspace x = true) (s : Str) : Trim (l ++ s ++ r) = Trim s := by
  have hend : ∀ t : Str, (t ++ r).rdropWhile isspace = t.rdropWhile isspace := by
    intro t
    rw [List.rdropWhile, List.reverse_append, List.dropWhile_append_of_pos, List.rdropWhile]
    exact fun x hx => hr x (List.mem_reverse.1 hx)
  rw [Trim, List.append_assoc, List.dropWhile_append_of_pos hl, List.dropWhile_append]
  split
  · rename_i hempty
    have hnil : r.dropWhile isspace = [] := List.dropWhile_eq_nil_iff.2 hr
    rw [hnil, Trim, List.isEmpty_iff.1 hempty]
  · exact hend _

theorem isspace_of_isGap {x : Char} (h : Sh.IsGap x) : isspace x = true := by
  rcases Sh.isGap_iff.1 h with rfl | rfl | rfl <;> rfl

theorem isspace_of_isBlank {x : Char} (h : Sh.isBlank x = true) : isspace x = true :=
  isspace_of_isGap (Or.inl h)

/-- What is left after trimming is trimmed. -/
theorem Trim_Trim (s : Str) : Trim (Trim s) = Trim s :=
  Trim_of_ends (isspace_ends_Trim s).1 (isspace_ends_Trim s).2

/-! ## How `updateCommand` splits -/

namespace Shell

variable {sh : Shell} {s : Str}

/-- A text is split at its last `>`. -/
theorem updateCommand_append_cons {u v : Str} (hv : '>' ∉ v) (hquote : '"' ∉ v) :
    sh.updateCommand (u ++ '>' :: v)
      = { sh with mCommand := Trim u, mOutputPath := Trim v, mOutputLines := [] } := by
  have hquot : rfind '"' (u ++ '>' :: v) = rfind '"' u := by
    rw [List.append_cons, rfind_append_of_notMem hquote, rfind_append_of_notMem (by decide)]
  have hbefore : rfind '"' u = none ∨ (rfind '"' u).getD 0 < u.length := by
    cases hfind : rfind '"' u with
    | none => exact Or.inl rfl
    | some i => exact Or.inr (rfind_lt hfind)
  have hdrop : (u ++ '>' :: v).drop (u.length + 1) = v := by
    rw [List.append_cons]
    exact List.drop_left' (by simp)
  unfold updateCommand
  dsimp only
  rw [rfind_append_cons hv, hquot]
  dsimp only
  rw [if_pos hbefore, List.take_left, hdrop]

/-- A `"` after the last `>` keeps a text whole. -/
theorem updateCommand_of_quote {u v : Str} (hv : '>' ∉ v) (hquote : '"' ∈ v) :
    sh.updateCommand (u ++ '>' :: v)
      = { sh with mCommand := Trim (u ++ '>' :: v), mOutputPath := [], mOutputLines := [] } := by
  obtain ⟨x, y, rfl, hy⟩ := exists_last hquote
  have hquot : rfind '"' (u ++ '>' :: (x ++ '"' :: y)) = some (u ++ '>' :: x).length := by
    rw [show u ++ '>' :: (x ++ '"' :: y) = (u ++ '>' :: x) ++ '"' :: y by simp]
    exact rfind_append_cons hy _
  unfold updateCommand
  dsimp only
  rw [rfind_append_cons hv, hquot]
  dsimp only
  rw [if_neg]
  rw [not_or, Option.getD_some, List.length_append, List.length_cons]
  exact ⟨by simp, by omega⟩

theorem updateCommand_of_unsplit (h : Unsplit s) : sh.updateCommand s
    = { sh with mCommand := Trim s, mOutputPath := [], mOutputLines := [] } := by
  rcases h with h | ⟨u, v, rfl, hv, hquote⟩
  · exact updateCommand_of_notMem h
  · exact updateCommand_of_quote hv hquote

/-- What is before a `>` is less than the text. -/
theorem Trim_ne_Trim_append (u v : Str) : Trim u ≠ Trim (u ++ '>' :: v) := by
  have hcount : ∀ t, (Trim t).count '>' = t.count '>' := by
    intro t
    obtain ⟨l, r, ht, hl, hr, -⟩ := exists_Trim t
    have hnone : ∀ z : Str, (∀ x ∈ z, isspace x = true) → z.count '>' = 0 := by
      intro z hz
      rw [List.count_eq_zero]
      exact fun hmem => absurd (hz _ hmem) (by decide)
    have heq := congrArg (List.count '>') ht
    rw [List.count_append, List.count_append, hnone l hl, hnone r hr] at heq
    omega
  intro heq
  have hsame := congrArg (List.count '>') heq
  rw [hcount, hcount, List.count_append, List.count_cons_self] at hsame
  omega

/-! ## When the split is a redirection -/

theorem updateCommand_of_endsWithRedirection {command path : Str}
    (h : EndsWithRedirection s command path) : sh.updateCommand s
      = { sh with mCommand := command, mOutputPath := path, mOutputLines := [] } := by
  obtain ⟨l, r, b, a, rfl, hl, hr, hb, ha, -, hpath, hcommand, htrim⟩ := h
  have hblank : ∀ x ∈ b, Sh.IsGap x := fun x hx => Or.inl (hb x hx)
  have hout : Trim (b ++ (path ++ a)) = path := by
    rw [← List.append_assoc, Trim_append (fun x hx => isspace_of_isBlank (hb x hx))
      fun x hx => isspace_of_isGap (ha x hx)]
    exact htrim
  have hcut : Trim (l ++ command ++ r) = command := by
    rw [Trim_append (fun x hx => isspace_of_isGap (hl x hx))
      fun x hx => isspace_of_isBlank (hr x hx)]
    exact hcommand
  have hgt : '>' ∉ b ++ (path ++ a) := hpath.notMem hblank ha (by decide) (by decide)
  have hquote : '"' ∉ b ++ (path ++ a) := hpath.notMem hblank ha (by decide) (by decide)
  rw [updateCommand_append_cons hgt hquote, hcut, hout]

theorem splitsWell_of_endsWithRedirection {command path : Str}
    (h : EndsWithRedirection s command path) : (sh.updateCommand s).SplitsWell s := by
  rw [updateCommand_of_endsWithRedirection h, SplitsWell, if_neg h.fileWord.ne_nil]
  obtain ⟨l, r, b, a, rfl, hl, hr, hb, ha, hready, hpath, -, -⟩ := h
  have hblank : ∀ x ∈ b, Sh.IsGap x := fun x hx => Or.inl (hb x hx)
  have hgt : '>' ∉ b ++ (path ++ a) := hpath.notMem hblank ha (by decide) (by decide)
  have hpieces := Sh.pieces_of_ready hl hr hready (b ++ (path ++ a))
  rw [Sh.read_redirect hblank hpath ha] at hpieces
  refine ⟨_, _, _, l.count '\n', a.count '\n', rfind_append_cons hgt _, hpieces, ?_, ?_, ?_,
    hpath⟩
  · rw [List.take_left, Sh.written_append, Sh.written_append, Sh.written_map_gap hl,
      Sh.written_pieces, Sh.written_map_gap fun x hx => Or.inl (hr x hx)]
  · rw [List.filter_append, List.filter_append, Sh.filter_map_gap hl, Sh.filter_map_blanks hr,
      List.append_nil]
  · rw [List.filter_append, Sh.filter_map_blanks hb, List.filter_cons_of_pos rfl,
      Sh.filter_map_gap ha]
    rfl

/-- The redirection belongs to the last command of the text. -/
theorem scriptOf_endsWithRedirection {command path : Str} {q : Sh.Script}
    (h : EndsWithRedirection s command path) (hq : Sh.scriptOf command = some q) :
    Sh.scriptOf s = some (q.addLast (toFile path)) := by
  obtain ⟨l, r, b, a, rfl, hl, hr, hb, ha, hready, hpath, hcommand, -⟩ := h
  apply Sh.scriptOf_redirect hl hr hb ha hready hpath _ hq
  intro c hc hgap
  have hspace := (isspace_ends_Trim command).2 c (hcommand.symm ▸ hc)
  rw [isspace_of_isGap hgap] at hspace
  cases hspace

/-- What is left of a text means the same exactly if its output is that of its
last command. -/
theorem keepsMeaning_iff {command path : Str} (h : EndsWithRedirection s command path) :
    (sh.updateCommand s).KeepsMeaning s
      ↔ ∃ q, Sh.scriptOf command = some q ∧ q.Sends (toFile path) := by
  have hvalue : Sh.value (toFile path).target ≠ .active := by
    rw [toFile, Sh.value_fileWord h.fileWord]
    simp
  rw [updateCommand_of_endsWithRedirection h]
  constructor
  · rintro ⟨p, q, hp, hq, hsent⟩
    rw [scriptOf_endsWithRedirection h hq] at hp
    obtain rfl := Option.some.inj hp
    exact ⟨q, hq, (Sh.Script.sentTo_addLast_iff (Sh.scriptOf_proper hq) hvalue).1 hsent⟩
  · rintro ⟨q, hq, hsends⟩
    exact ⟨_, q, scriptOf_endsWithRedirection h hq, hq,
      (Sh.Script.sentTo_addLast_iff (Sh.scriptOf_proper hq) hvalue).2 hsends⟩

/-- A text is split at its last `>`, or not at all. -/
theorem unsplit_or (s : Str) : Unsplit s ∨ ∃ u v, s = u ++ '>' :: v ∧ '>' ∉ v ∧ '"' ∉ v := by
  by_cases hmem : '>' ∈ s
  · obtain ⟨u, v, hs, hv⟩ := exists_last hmem
    by_cases hquote : '"' ∈ v
    · exact Or.inl (Or.inr ⟨u, v, hs, hv, hquote⟩)
    · exact Or.inr ⟨u, v, hs, hv, hquote⟩
  · exact Or.inl (Or.inl hmem)

/-- A text that is split at a redirection is a command with one. -/
theorem endsWithRedirection_of_splitsWell {u v : Str} (hv : '>' ∉ v) (hquote : '"' ∉ v)
    (h : (sh.updateCommand (u ++ '>' :: v)).SplitsWell (u ++ '>' :: v)) :
    EndsWithRedirection (u ++ '>' :: v) (Trim u) (Trim v) := by
  rw [updateCommand_append_cons hv hquote, SplitsWell] at h
  split at h
  · exact absurd h (Trim_ne_Trim_append u v)
  · obtain ⟨f, before, after, i, j, hfind, hpieces, hplace, hcommand, hpath, hword⟩ := h
    rw [rfind_append_cons hv] at hfind
    obtain rfl := Option.some.inj hfind
    obtain ⟨l, r, hu, -, -, hnil⟩ := exists_Trim u
    rw [List.take_left] at hplace
    have hhead : ∀ c, (Trim u).head? = some c → ¬ Sh.IsGap c := by
      intro c hc hgap
      have hspace := (isspace_ends_Trim u).1 c hc
      rw [isspace_of_isGap hgap] at hspace
      cases hspace
    have hsplit : Sh.pieces (l ++ Trim u ++ r ++ '>' :: v) = before ++ .op ['>'] :: after := by
      rw [← hu]
      exact hpieces
    obtain ⟨hl, hr, hready, hread⟩ :=
      Sh.ready_of_pieces hsplit (hplace.trans hu) hcommand hhead hnil
    obtain ⟨b, a, hafter, hb, ha⟩ := Sh.exists_of_read_redirect hread hpath
    refine ⟨l, r, b, a, ?_, hl, hr, hb, ha, hready, hword, Trim_Trim u, Trim_Trim v⟩
    rw [← hu, ← hafter]

/-- `updateCommand` finds a redirection exactly if it leaves the text whole, or
the text ends with one. -/
theorem splitsWell_iff (sh : Shell) (s : Str) : (sh.updateCommand s).SplitsWell s
    ↔ Unsplit s ∨ ∃ command path, EndsWithRedirection s command path := by
  constructor
  · intro h
    rcases unsplit_or s with hunsplit | ⟨u, v, rfl, hv, hquote⟩
    · exact Or.inl hunsplit
    · exact Or.inr ⟨_, _, endsWithRedirection_of_splitsWell hv hquote h⟩
  · rintro (hunsplit | ⟨command, path, h⟩)
    · rw [updateCommand_of_unsplit hunsplit, SplitsWell, if_pos rfl]
    · exact splitsWell_of_endsWithRedirection h

/-- A quoted word and a file name after it. -/
example : EndsWithRedirection "echo \"hi\" > /tmp/f".toList "echo \"hi\"".toList "/tmp/f".toList :=
  ⟨[], [' '], [' '], [], rfl, List.forall_mem_nil _,
    List.forall_mem_singleton.2 rfl, List.forall_mem_singleton.2 rfl, List.forall_mem_nil _,
    by decide, by decide, rfl, rfl⟩

end Shell

end SysFs
