import Mathlib.Data.List.Induction
import SysFs.Shell

/-!
# Strings

The functions of `cpputils-base/strings.h`.  `Split` walks over the text with
`find_first_of`, `Join` writes a separator before every part but the first, and
`Trim` moves two indices towards each other.

* `Split_eq`: the loop gives the fields between the delimiters.
* `Split_Join_iff`: a list of parts comes back from `Split` after `Join` exactly
  when there is a part and no part has a delimiter in it.  `Join_Split`: the other
  way round, a text comes back with every delimiter replaced by the separator.
* `trimLoops_eq`: the loops of `Trim` drop the white space at both ends.
-/

namespace SysFs.Base

/-- The text of a pointer: up to the first zero character. -/
def cString (s : Str) : Str := s.takeWhile (· ≠ Char.ofNat 0)

theorem cString_of_notMem {s : Str} (h : Char.ofNat 0 ∉ s) : cString s = s :=
  List.takeWhile_eq_self_iff.2 fun c hc => by
    simpa using fun hzero : c = Char.ofNat 0 => h (hzero ▸ hc)

/-- A text of a pointer has no zero character. -/
theorem notMem_cString (s : Str) : Char.ofNat 0 ∉ cString s := by
  intro h
  simpa using List.mem_takeWhile_imp h

/-! ## Split and Join -/

/-- `std::string::find_first_of`, from a place on. -/
def find_first_of (s delimiters : Str) (base : ℕ) : Option ℕ :=
  ((s.drop base).findIdx? (delimiters.contains ·)).map (base + ·)

/-- `std::string::substr`. -/
def substr (s : Str) (pos n : ℕ) : Str := (s.drop pos).take n

/-- The loop of `Split`, from the place `base` on.  Every round passes a delimiter, so
that one round more than there are characters is enough. -/
def splitLoop (s delimiters : Str) : ℕ → ℕ → List Str
  | 0, _ => []
  | fuel + 1, base =>
    match find_first_of s delimiters base with
    | none => [s.drop base]
    | some found => substr s base (found - base) :: splitLoop s delimiters fuel (found + 1)

/-- `Split`, or `none` when it aborts. -/
def Split (s delimiters : Str) : Option (List Str) :=
  if delimiters.length = 0 then none else some (splitLoop s delimiters (s.length + 1) 0)

/-- `Join`, with a separator that is printed as `separator`. -/
def Join (things : List Str) (separator : Str) : Str :=
  match things with
  | [] => []
  | first :: others => others.foldl (fun result part => result ++ separator ++ part) first

variable {s delimiters : Str} {c : Char}

theorem splitLoop_eq (s delimiters : Str) (fuel base : ℕ) (hfuel : s.length < base + fuel)
    (hbase : base ≤ s.length) :
    splitLoop s delimiters fuel base = (s.drop base).splitOnP (delimiters.contains ·) := by
  induction fuel generalizing base with
  | zero => omega
  | succ fuel ih =>
    rw [splitLoop, find_first_of]
    cases hfound : (s.drop base).findIdx? (delimiters.contains ·) with
    | none =>
      have hnone : ∀ b ∈ s.drop base, delimiters.contains b = false := by
        simpa using List.findIdx?_eq_none_iff.1 hfound
      rw [List.splitOnP_eq_singleton hnone]
      rfl
    | some i =>
      obtain ⟨hi, hdelim, hbefore⟩ := List.findIdx?_eq_some_iff_getElem.1 hfound
      have hlen : base + i < s.length := by
        rw [List.length_drop] at hi
        omega
      -- The text up to the delimiter, the delimiter, and the rest of the loop.
      have hcut : s.drop base = (s.drop base).take i ++ (s.drop base)[i] :: s.drop (base + i + 1) := by
        rw [Nat.add_assoc base i 1, ← List.drop_drop, ← List.drop_eq_getElem_cons hi,
          List.take_append_drop]
      have hhead : ∀ b ∈ (s.drop base).take i, delimiters.contains b = false := by
        intro b hb
        obtain ⟨j, hj, rfl⟩ := List.getElem_of_mem hb
        rw [List.length_take] at hj
        rw [List.getElem_take]
        simpa using hbefore j (by omega)
      have hrest := ih (base + i + 1) (by omega) (by omega)
      rw [hcut, List.splitOnP_append_cons_of_forall_mem hhead _ hdelim, ← hrest]
      simp only [Option.map_some, substr, Nat.add_sub_cancel_left]

/-- The loop gives the fields between the delimiters. -/
theorem Split_eq (s : Str) (hdelims : delimiters ≠ []) :
    Split s delimiters = some (s.splitOnP (delimiters.contains ·)) := by
  rw [Split, if_neg (mt List.length_eq_zero_iff.1 hdelims),
    splitLoop_eq s delimiters _ 0 (by omega) (Nat.zero_le _), List.drop_zero]

theorem Join_cons_cons (first second : Str) (others : List Str) (separator : Str) :
    Join (first :: second :: others) separator
      = first ++ separator ++ Join (second :: others) separator := by
  have hfold : ∀ (others : List Str) (front back : Str),
      others.foldl (fun result part => result ++ separator ++ part) (front ++ back)
        = front ++ others.foldl (fun result part => result ++ separator ++ part) back := by
    intro others
    induction others with
    | nil => intro front back; rfl
    | cons part others ih =>
      intro front back
      rw [List.foldl_cons, List.foldl_cons, ← ih]
      simp only [List.append_assoc]
  rw [Join, List.foldl_cons, hfold, Join]

/-- `Join` writes the separator between the parts. -/
theorem Join_eq (things : List Str) (separator : Str) :
    Join things separator = separator.intercalate things := by
  induction things with
  | nil => rfl
  | cons first others ih =>
    cases others with
    | nil => simp [Join]
    | cons second others =>
      rw [Join_cons_cons, ih, List.intercalate_cons_cons, List.append_assoc]

/-- The fields of a text, joined again: every delimiter became the separator. -/
theorem intercalate_splitOnP (p : Char → Bool) (c : Char) (s : Str) :
    [c].intercalate (s.splitOnP p) = s.map fun b => if p b then c else b := by
  induction s with
  | nil => rfl
  | cons b s ih =>
    rw [List.splitOnP_cons_eq_if_modifyHead, List.map_cons, ← ih]
    obtain ⟨field, fields, hfields⟩ := List.exists_cons_of_ne_nil (List.splitOnP_ne_nil p s)
    rw [hfields]
    cases hb : p b with
    | true =>
      rw [if_pos rfl, if_pos rfl, List.intercalate_cons_cons]
      rfl
    | false =>
      rw [if_neg Bool.false_ne_true, if_neg Bool.false_ne_true, List.modifyHead_cons]
      cases fields with
      | nil => simp
      | cons field' fields => simp only [List.intercalate_cons_cons, List.cons_append]

/-- Parts without delimiters are the fields of the joined text. -/
theorem splitOnP_intercalate {p : Char → Bool} (hc : p c = true) {things : List Str}
    (hthings : things ≠ []) (hparts : ∀ part ∈ things, ∀ b ∈ part, p b = false) :
    ([c].intercalate things).splitOnP p = things := by
  induction things with
  | nil => exact absurd rfl hthings
  | cons first others ih =>
    have hfirst := hparts first List.mem_cons_self
    cases others with
    | nil => rw [List.intercalate_singleton, List.splitOnP_eq_singleton hfirst]
    | cons second others =>
      rw [List.intercalate_cons_cons, List.append_assoc, List.singleton_append,
        List.splitOnP_append_cons_of_forall_mem hfirst c hc,
        ih (List.cons_ne_nil _ _) fun part hpart => hparts part (List.mem_cons_of_mem _ hpart)]

/-- A field has no delimiter in it. -/
theorem notMem_of_mem_splitOnP {p : Char → Bool} {s field : Str} (h : field ∈ s.splitOnP p) :
    ∀ b ∈ field, p b = false := by
  induction s generalizing field with
  | nil =>
    rw [List.splitOnP_nil, List.mem_singleton] at h
    subst h
    exact fun b hb => absurd hb List.not_mem_nil
  | cons a s ih =>
    rw [List.splitOnP_cons_eq_if_modifyHead] at h
    cases ha : p a with
    | true =>
      rw [ha, if_pos rfl, List.mem_cons] at h
      rcases h with rfl | h
      · exact fun b hb => absurd hb List.not_mem_nil
      · exact ih h
    | false =>
      obtain ⟨first, fields, hfields⟩ := List.exists_cons_of_ne_nil (List.splitOnP_ne_nil p s)
      rw [ha, if_neg Bool.false_ne_true, hfields, List.modifyHead_cons, List.mem_cons] at h
      rcases h with rfl | h
      · intro b hb
        rcases List.mem_cons.1 hb with rfl | hb
        · exact ha
        · exact ih (hfields ▸ List.mem_cons_self) b hb
      · exact ih (hfields ▸ List.mem_cons_of_mem _ h)

/-- Splitting a joined list gives the list back exactly when it has a part and no part
has a delimiter in it. -/
theorem Split_Join_iff (hc : c ∈ delimiters) (things : List Str) :
    Split (Join things [c]) delimiters = some things ↔
      things ≠ [] ∧ ∀ part ∈ things, ∀ b ∈ part, b ∉ delimiters := by
  have hcontains : delimiters.contains c = true := List.contains_iff_mem.2 hc
  have hpart : ∀ part : Str, (∀ b ∈ part, b ∉ delimiters) ↔
      ∀ b ∈ part, delimiters.contains b = false := by simp
  rw [Split_eq _ (List.ne_nil_of_mem hc), Join_eq, Option.some_inj]
  simp only [hpart]
  constructor
  · intro h
    rw [← h]
    exact ⟨List.splitOnP_ne_nil _ _, fun part hmem => notMem_of_mem_splitOnP hmem⟩
  · rintro ⟨hthings, hparts⟩
    exact splitOnP_intercalate hcontains hthings hparts

theorem Split_Join_iff_comma :
    Split (Join ["a".toList, [], "b c".toList] [',']) [',', ';']
      = some ["a".toList, [], "b c".toList] :=
  (Split_Join_iff (by decide) _).2 ⟨by decide, by simp⟩

/-- Joining what `Split` gives replaces every delimiter by the separator. -/
theorem Join_Split {things : List Str} (h : Split s delimiters = some things) (c : Char) :
    Join things [c] = s.map fun b => if b ∈ delimiters then c else b := by
  have hdelims : delimiters ≠ [] := by
    rintro rfl
    simp [Split] at h
  rw [Split_eq s hdelims, Option.some_inj] at h
  rw [← h, Join_eq, intercalate_splitOnP]
  simp

/-! ## Trim -/

/-- The first loop of `Trim`: skip initial whitespace. -/
def skipInitial (s : Str) : ℕ → ℕ → ℕ
  | 0, start_index => start_index
  | fuel + 1, start_index =>
    if h : start_index < s.length then
      if !isspace s[start_index] then start_index else skipInitial s fuel (start_index + 1)
    else start_index

/-- The second loop of `Trim`: skip terminating whitespace.  It stops before
`end_index` can go below zero, since the character at `start_index` is no space. -/
def skipTerminating (s : Str) (start_index : ℕ) : ℕ → ℕ → ℕ
  | 0, end_index => end_index
  | fuel + 1, end_index =>
    if h : start_index ≤ end_index ∧ end_index < s.length then
      if !isspace s[end_index] then end_index
      else skipTerminating s start_index fuel (end_index - 1)
    else end_index

/-- `Trim`, as its loops compute it. -/
def trimLoops (s : Str) : Str :=
  if s.length = 0 then []
  else
    let start_index := skipInitial s s.length 0
    let end_index := skipTerminating s start_index s.length (s.length - 1)
    if end_index < start_index then [] else substr s start_index (end_index - start_index + 1)

/-- The first loop passes the white space at the start. -/
theorem skipInitial_eq {front rest : Str} (hfront : ∀ b ∈ front, isspace b = true)
    (hrest : ∀ b ∈ rest.head?, isspace b = false) (fuel : ℕ) (hfuel : front.length ≤ fuel)
    (before : Str) :
    skipInitial (before ++ front ++ rest) fuel before.length = before.length + front.length := by
  induction front generalizing fuel before with
  | nil =>
    cases fuel with
    | zero => rfl
    | succ fuel =>
      cases rest with
      | nil => simp [skipInitial]
      | cons b rest =>
        have hb : isspace b = false := hrest b rfl
        simp [skipInitial, hb]
  | cons b front ih =>
    cases fuel with
    | zero => simp at hfuel
    | succ fuel =>
      have hb : isspace b = true := hfront b List.mem_cons_self
      have hnext := ih (fun b' hb' => hfront b' (List.mem_cons_of_mem _ hb')) fuel
        (by simpa using hfuel) (before ++ [b])
      rw [List.length_append, List.length_singleton] at hnext
      simp only [List.append_assoc, List.singleton_append] at hnext
      simp only [List.append_assoc, List.cons_append, skipInitial, List.length_append,
        List.length_cons, Nat.lt_add_right_iff_pos, Nat.zero_lt_succ,
        dite_true, List.getElem_append_right, le_refl, Nat.sub_self, List.getElem_cons_zero, hb,
        Bool.not_true, Bool.false_eq_true, if_false]
      rw [List.cons_append] at hnext
      rw [hnext]
      omega

/-- The second loop passes the white space at the end. -/
theorem skipTerminating_eq {front back : Str} (hfront : ∀ b ∈ front.getLast?, isspace b = false)
    (hback : ∀ b ∈ back, isspace b = true) (start_index : ℕ) (hstart : start_index < front.length)
    (fuel : ℕ) (hfuel : back.length ≤ fuel) (after : Str) :
    skipTerminating (front ++ back ++ after) start_index fuel (front.length + back.length - 1)
      = front.length - 1 := by
  induction back using List.reverseRecOn generalizing fuel after with
  | nil =>
    cases fuel with
    | zero => rfl
    | succ fuel =>
      obtain ⟨front, b, rfl⟩ : ∃ f b, front = f ++ [b] :=
        ⟨_, _, (List.dropLast_append_getLast (List.length_pos_iff.1 (by omega))).symm⟩
      have hb : isspace b = false := hfront b (by simp)
      rw [List.length_append, List.length_singleton] at hstart
      have hle : start_index ≤ front.length := by omega
      simp [skipTerminating, hb, hle]
  | append_singleton back b ih =>
    cases fuel with
    | zero => simp at hfuel
    | succ fuel =>
      have hb : isspace b = true := hback b (by simp)
      have hnext := ih (fun b' hb' => hback b' (List.mem_append_left _ hb')) fuel
        (by simpa using hfuel) (b :: after)
      have hle : start_index ≤ front.length + back.length := by omega
      have hlast : front.length + (back ++ [b]).length - 1 = front.length + back.length := by
        rw [List.length_append, List.length_singleton]
        omega
      have hget : (front ++ (back ++ [b]) ++ after)[front.length + back.length]? = some b := by
        simp
      obtain ⟨hlt, hget⟩ := List.getElem?_eq_some_iff.1 hget
      rw [hlast, skipTerminating, dif_pos ⟨hle, hlt⟩, hget, hb]
      simpa using hnext

/-- The loops drop the white space at both ends. -/
theorem trimLoops_eq (s : Str) : trimLoops s = Trim s := by
  set front := s.takeWhile isspace with hfront
  set middle := (s.dropWhile isspace).rdropWhile isspace with hmiddle
  set back := (s.dropWhile isspace).rtakeWhile isspace with hback
  have htail : middle ++ back = s.dropWhile isspace := List.rdropWhile_append_rtakeWhile
  have hsplit : s = front ++ middle ++ back := by
    rw [List.append_assoc, htail, List.takeWhile_append_dropWhile]
  have hspaces : ∀ b ∈ front, isspace b = true := fun b hb => List.mem_takeWhile_imp hb
  have hspaces' : ∀ b ∈ back, isspace b = true := fun b hb => List.mem_rtakeWhile_imp hb
  have hhead : ∀ b ∈ (middle ++ back).head?, isspace b = false := by
    intro b hb
    have hnot := List.head?_dropWhile_not isspace s
    rw [htail] at hb
    rwa [hb] at hnot
  have hstart : skipInitial s s.length 0 = front.length := by
    have hskip := skipInitial_eq hspaces hhead s.length (by rw [hsplit]; simp) []
    rwa [List.nil_append, ← List.append_assoc, ← hsplit, List.length_nil, Nat.zero_add] at hskip
  have htrim : Trim s = middle := rfl
  rw [trimLoops, htrim]
  simp only [hstart]
  rcases List.eq_nil_or_concat middle with hnil | ⟨middle', b, hmid⟩
  · -- All spaces: the second loop does not run.
    have hnone : back = [] := by
      cases hb : back with
      | nil => rfl
      | cons b back' =>
        have hfalse := hhead b (by rw [hnil, hb]; rfl)
        rw [hspaces' b (by rw [hb]; exact List.mem_cons_self)] at hfalse
        cases hfalse
    have hlen : s.length = front.length := by rw [hsplit, hnil, hnone]; simp
    rw [hnil]
    split
    · rfl
    · rename_i hne
      have hstop : skipTerminating s front.length s.length (s.length - 1) = s.length - 1 := by
        cases hs : s.length with
        | zero => rfl
        | succ n => rw [skipTerminating, dif_neg (by rw [← hlen]; omega)]
      rw [hstop, if_pos (by omega)]
  · have hlast : ∀ c ∈ (front ++ middle).getLast?, isspace c = false := by
      intro c hc
      have hne : middle ≠ [] := by rw [hmid]; simp
      rw [List.getLast?_append_of_ne_nil _ hne, List.getLast?_eq_some_getLast hne] at hc
      obtain rfl := Option.mem_some_iff.1 hc
      simpa using List.rdropWhile_last_not isspace (s.dropWhile isspace) hne
    have hpos : 0 < middle.length := by rw [hmid]; simp
    have hend : skipTerminating s front.length s.length (s.length - 1)
        = (front ++ middle).length - 1 := by
      have hskip := skipTerminating_eq hlast hspaces' front.length
        (by rw [List.length_append]; omega) s.length (by rw [hsplit]; simp; omega) []
      rwa [List.append_nil, ← hsplit, ← List.length_append, ← hsplit] at hskip
    have hne : s.length ≠ 0 := by
      rw [hsplit, List.length_append, List.length_append]
      omega
    rw [if_neg hne, hend, List.length_append, if_neg (by omega)]
    have hcount : front.length + middle.length - 1 - front.length + 1 = middle.length := by omega
    rw [hcount, substr]
    conv_lhs => rw [hsplit, List.append_assoc, List.drop_left, List.take_left]

/-! ## Characters and prefixes -/

/-- `tolower` in the C locale. -/
def tolower (c : Char) : Char := c.toLower

/-- `StartsWith` a string. -/
def StartsWith (s p : Str) : Bool := substr s 0 p.length = p

end SysFs.Base
