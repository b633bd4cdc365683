import Mathlib.Algebra.Order.Ring.Int
import Mathlib.Algebra.Order.Ring.Nat
import SysFs.Lib.Numerals
import SysFs.Base.Strings

/-!
# Parsing integers

`ParseUint`, `ParseByteCount` and `ParseInt` of `cpputils-base/parseint.h`, over
`strtoull` and `strtoll`.  A result `.ok v` is a call that returns true and stores `v`;
with `.error e` it returns false, sets `errno` to `e` and stores nothing.

The texts that are accepted are described by grammars of their own.  `Unsigned` and
`Signed` are the numerals with the numbers they denote, and `ByteUnit` is what may follow a
byte count.

* `ParseUint_ok_iff`, `ParseInt_ok_iff`: exactly the numerals of the grammar are
  accepted, with their numbers, as long as these are in range.  A byte count ends with
  its unit; what follows the unit is not read.
* `ParseUint_toDigits`, `ParseInt_decimalText`: numbers come back from their decimal text.
-/

namespace SysFs.Base

open Numerals

/-- The errors of a parser. -/
inductive ParseError where
  | EINVAL
  | ERANGE
deriving DecidableEq, Repr

/-! ## The library functions -/

/-- What `strtoull` and `strtoll` read. -/
structure Scanned where
  negative : Bool
  magnitude : ℕ
  /-- the text from `end` on -/
  rest : Str
deriving DecidableEq, Repr

/-- A sign. -/
def scanSign : Str → Bool × Str
  | '-' :: s => (true, s)
  | '+' :: s => (false, s)
  | s => (false, s)

/-- The mark of base 16, which only counts in front of a digit. -/
def skipMark (base : ℕ) (s : Str) : Str :=
  match s with
  | '0' :: x :: c :: rest =>
    if base = 16 ∧ (x = 'x' ∨ x = 'X') ∧ isDigit 16 c = true then c :: rest else s
  | s => s

/-- The number at the start of a text, or `none` without one. -/
def scan (base : ℕ) (s : Str) : Option Scanned :=
  let signed := scanSign (s.dropWhile isspace)
  let digits := (skipMark base signed.2).takeWhile (isDigit base)
  if digits = [] then none
  else
    some ⟨signed.1, value base digits, (skipMark base signed.2).dropWhile (isDigit base)⟩

/-- `strtoull`: the number, the text from `end` on, and whether `errno` is `ERANGE`. -/
def strtoull (base : ℕ) (s : Str) : ℕ × Str × Bool :=
  match scan base s with
  | none => (0, s, false)
  | some r =>
    if 2 ^ 64 ≤ r.magnitude then (2 ^ 64 - 1, r.rest, true)
    else ((if r.negative then 2 ^ 64 - r.magnitude else r.magnitude) % 2 ^ 64, r.rest, false)

/-- `strtoll`: the number, the text from `end` on, and whether `errno` is `ERANGE`. -/
def strtoll (base : ℕ) (s : Str) : Int × Str × Bool :=
  match scan base s with
  | none => (0, s, false)
  | some r =>
    let number : Int := if r.negative then -r.magnitude else r.magnitude
    if number < -2 ^ 63 then (-2 ^ 63, r.rest, true)
    else if 2 ^ 63 ≤ number then (2 ^ 63 - 1, r.rest, true)
    else (number, r.rest, false)

/-! ## The parsers -/

/-- The base that `ParseUint` and `ParseInt` choose. -/
def baseOf (s : Str) : ℕ :=
  if s[0]? = some '0' ∧ (s[1]? = some 'x' ∨ s[1]? = some 'X') then 16 else 10

def suffixes : Str := "bkmgtpe".toList

/-- The suffix part of `ParseUint`, at the text from `end` on. -/
def applySuffix (allow_suffixes : Bool) (result : ℕ) : Str → Except ParseError ℕ
  | [] => .ok result
  | c :: _ =>
    match suffixes.findIdx? (· = tolower c) with
    | none => .error .EINVAL
    | some i =>
      if !allow_suffixes then .error .EINVAL
      else if 2 ^ 64 ≤ result * 2 ^ (10 * i) then .error .EINVAL
      else .ok (result * 2 ^ (10 * i))

/-- `ParseUint` of a type with `bits` bits. -/
def ParseUint (bits max : ℕ) (allow_suffixes : Bool) (s : Str) : Except ParseError ℕ :=
  let s := s.dropWhile isspace
  if s[0]? = some '-' then .error .EINVAL
  else
    let (result, rest, outOfRange) := strtoull (baseOf s) s
    if outOfRange then .error .ERANGE
    else if rest = s then .error .EINVAL
    else
      match applySuffix allow_suffixes result rest with
      | .error e => .error e
      | .ok result => if max < result then .error .ERANGE else .ok (result % 2 ^ bits)

/-- `ParseByteCount`. -/
def ParseByteCount (bits max : ℕ) (s : Str) : Except ParseError ℕ := ParseUint bits max true s

/-- `ParseInt` of a type with `bits` bits. -/
def ParseInt (bits : ℕ) (min max : Int) (s : Str) : Except ParseError Int :=
  let s := s.dropWhile isspace
  let (result, rest, outOfRange) := strtoll (baseOf s) s
  if outOfRange then .error .ERANGE
  else if rest = s ∨ rest ≠ [] then .error .EINVAL
  else if result < min ∨ max < result then .error .ERANGE
  else .ok (result.bmod (2 ^ bits))

/-! ## The grammars -/

/-- A sign in front of decimal digits that leaves them positive. -/
def IsPlus (sign : Str) : Prop := sign = [] ∨ sign = ['+']

/-- The mark of a hexadecimal numeral. -/
def IsMark (mark : Str) : Prop := mark = ['0', 'x'] ∨ mark = ['0', 'X']

/-- An unsigned numeral, with its base and the number it denotes. -/
inductive Unsigned : ℕ → Str → ℕ → Prop
  | decimal {sign ds : Str} (hsign : IsPlus sign) (hds : IsNumeral 10 ds) :
      Unsigned 10 (sign ++ ds) (value 10 ds)
  | hexadecimal {mark ds : Str} (hmark : IsMark mark) (hds : IsNumeral 16 ds) :
      Unsigned 16 (mark ++ ds) (value 16 ds)

/-- A signed numeral and the number it denotes.  A hexadecimal one has no sign. -/
inductive Signed : Str → Int → Prop
  | positive {base : ℕ} {text : Str} {n : ℕ} (h : Unsigned base text n) : Signed text n
  | negative {ds : Str} (hds : IsNumeral 10 ds) : Signed ('-' :: ds) (-value 10 ds)

/-- What follows a numeral of the base, and the exponent it stands for: nothing, or where
suffixes are allowed one of them, and then anything. -/
inductive ByteUnit (base : ℕ) (allow_suffixes : Bool) : Str → ℕ → Prop
  | none : ByteUnit base allow_suffixes [] 0
  | suffix {c : Char} {i : ℕ} (hallow : allow_suffixes = true)
      (hsuffix : suffixes.findIdx? (· = tolower c) = some i) (hends : isDigit base c = false)
      (rest : Str) : ByteUnit base allow_suffixes (c :: rest) (10 * i)

variable {base n bits max : ℕ} {text rest ds s : Str}

/-! ## Reading a numeral -/

theorem isspace_of_isDigit {c : Char} (h : isDigit 16 c = true) : isspace c = false := by
  cases hspace : isspace c with
  | false => rfl
  | true =>
    simp only [isspace, Bool.or_eq_true, beq_iff_eq] at hspace
    rcases hspace with ((((rfl | rfl) | rfl) | rfl) | rfl) | rfl <;> exact absurd h (by decide)

theorem isDigit_sixteen {c : Char} (h : isDigit 10 c = true) : isDigit 16 c = true := by
  simp only [isDigit, decide_eq_true_eq] at h ⊢
  omega

/-- A numeral does not start with a space or a sign. -/
theorem head_of_isNumeral {c : Char} (hds : IsNumeral 10 ds) (rest : Str)
    (hc : c ∈ (ds ++ rest).head?) :
    isDigit 10 c = true := by
  cases ds with
  | nil => exact absurd rfl hds.ne_nil
  | cons d ds =>
    obtain rfl := Option.mem_some_iff.1 hc
    exact hds.digits _ List.mem_cons_self

theorem dropWhile_isspace_of_head {s : Str} (h : ∀ c ∈ s.head?, isspace c = false) :
    s.dropWhile isspace = s := by
  cases s with
  | nil => rfl
  | cons c s => rw [List.dropWhile_cons_of_neg (by simp [h c rfl])]

theorem skipMark_ten (s : Str) : skipMark 10 s = s := by
  unfold skipMark
  split
  · rw [if_neg fun h => absurd h.1 (by decide)]
  · rfl

/-- Digits after a text that is only a sign are read with that sign. -/
theorem scan_of_sign {sign : Str} (hspace : ∀ c ∈ (sign ++ (ds ++ rest)).head?, isspace c = false)
    (negative : Bool) (hsign : scanSign (sign ++ (ds ++ rest)) = (negative, ds ++ rest))
    (hds : IsNumeral 10 ds) (hends : Ends 10 rest) :
    scan 10 (sign ++ (ds ++ rest)) = some ⟨negative, value 10 ds, rest⟩ := by
  rw [scan, dropWhile_isspace_of_head hspace, hsign]
  simp only [skipMark_ten, takeWhile_digits hds.digits hends, dropWhile_digits hds.digits hends]
  rw [if_neg hds.ne_nil]

theorem scanSign_of_isNumeral (hds : IsNumeral 10 ds) : scanSign (ds ++ rest) = (false, ds ++ rest) := by
  unfold scanSign
  split
  · rename_i heq
    exact absurd (head_of_isNumeral hds rest (by rw [heq]; rfl)) (by decide)
  · rename_i heq
    exact absurd (head_of_isNumeral hds rest (by rw [heq]; rfl)) (by decide)
  · rfl

theorem scan_negative (hds : IsNumeral 10 ds) (hends : Ends 10 rest) :
    scan 10 ('-' :: ds ++ rest) = some ⟨true, value 10 ds, rest⟩ := by
  have hspace : ∀ c ∈ (['-'] ++ (ds ++ rest)).head?, isspace c = false := by
    rintro c ⟨⟩
    decide
  exact scan_of_sign hspace true rfl hds hends

/-- A numeral is read as what it denotes, when what follows does not go on with it. -/
theorem scan_of_unsigned (htext : Unsigned base text n) (hends : Ends base rest) :
    scan base (text ++ rest) = some ⟨false, n, rest⟩ := by
  cases htext with
  | @decimal sign ds hsign hds =>
    have hspace : ∀ c ∈ (sign ++ (ds ++ rest)).head?, isspace c = false := by
      rcases hsign with rfl | rfl
      · exact fun c hc => isspace_of_isDigit (isDigit_sixteen (head_of_isNumeral hds rest hc))
      · rintro c ⟨⟩
        decide
    have hscan : scanSign (sign ++ (ds ++ rest)) = (false, ds ++ rest) := by
      rcases hsign with rfl | rfl
      · rw [List.nil_append]
        exact scanSign_of_isNumeral hds
      · rfl
    rw [List.append_assoc]
    exact scan_of_sign hspace false hscan hds hends
  | @hexadecimal mark ds hmark hds =>
    obtain ⟨d, ds', rfl⟩ := List.exists_cons_of_ne_nil hds.ne_nil
    have hd : isDigit 16 d = true := hds.digits d List.mem_cons_self
    have hskip : skipMark 16 (mark ++ (d :: ds') ++ rest) = (d :: ds') ++ rest := by
      rcases hmark with rfl | rfl <;> simp [skipMark, hd]
    have hsigned : scanSign ((mark ++ (d :: ds') ++ rest).dropWhile isspace)
        = (false, mark ++ (d :: ds') ++ rest) := by
      rcases hmark with rfl | rfl <;> rfl
    rw [scan, hsigned]
    simp only [hskip, takeWhile_digits hds.digits hends, dropWhile_digits hds.digits hends]
    rw [if_neg hds.ne_nil]

/-- No mark of base 16 in front. -/
def NoMark (s : Str) : Prop := ∀ c ∈ s.head?, c ≠ 'x' ∧ c ≠ 'X'

theorem baseOf_mark (hmark : IsMark text) (s : Str) : baseOf (text ++ s) = 16 := by
  rcases hmark with rfl | rfl <;> simp [baseOf]

theorem baseOf_of_second {c : Char} {s : Str} (hmark : NoMark s) : baseOf (c :: s) = 10 := by
  rw [baseOf, if_neg]
  rintro ⟨-, h⟩
  rw [List.getElem?_cons_succ, ← List.head?_eq_getElem?] at h
  rcases h with h | h
  · exact (hmark _ h).1 rfl
  · exact (hmark _ h).2 rfl

/-- The base chosen for a numeral is its own, when no mark follows. -/
theorem baseOf_of_unsigned (htext : Unsigned base text n) (hmark : NoMark rest) :
    baseOf (text ++ rest) = base := by
  cases htext with
  | @decimal sign ds hsign hds =>
    obtain ⟨d, ds', rfl⟩ := List.exists_cons_of_ne_nil hds.ne_nil
    have hdigit : ∀ c ∈ d :: ds', c ≠ 'x' ∧ c ≠ 'X' := by
      intro c hc
      have h := hds.digits c hc
      constructor <;> rintro rfl <;> exact absurd h (by decide)
    rcases hsign with rfl | rfl
    · refine baseOf_of_second fun c hc => ?_
      cases ds' with
      | nil => exact hmark c hc
      | cons d' ds' =>
        obtain rfl := Option.mem_some_iff.1 hc
        exact hdigit _ (by simp)
    · refine baseOf_of_second fun c hc => ?_
      obtain rfl := Option.mem_some_iff.1 hc
      exact hdigit _ List.mem_cons_self
  | @hexadecimal mark ds hm hds => rw [List.append_assoc, baseOf_mark hm]

/-- What was read, when no mark follows it: an unsigned numeral, or decimal digits after
a minus. -/
theorem of_scan {r : Scanned} (hspace : s.dropWhile isspace = s)
    (hscan : scan (baseOf s) s = some r) (hmark : NoMark r.rest) :
    (r.negative = false ∧ ∃ base text, Unsigned base text r.magnitude ∧ Ends base r.rest ∧
      s = text ++ r.rest) ∨
    (r.negative = true ∧ ∃ ds, IsNumeral 10 ds ∧ Ends 10 r.rest ∧ r.magnitude = value 10 ds ∧
      s = '-' :: ds ++ r.rest) := by
  rw [scan, hspace] at hscan
  split at hscan
  · cases hscan
  · rename_i hne
    obtain rfl := Option.some_inj.1 hscan
    by_cases hb : s[0]? = some '0' ∧ (s[1]? = some 'x' ∨ s[1]? = some 'X')
    · -- Base 16, and the text starts with its mark.
      have hbase : baseOf s = 16 := if_pos hb
      obtain ⟨x, s', hs, hx⟩ : ∃ x s', s = '0' :: x :: s' ∧ (x = 'x' ∨ x = 'X') := by
        match s, hb with
        | [], h => simp at h
        | [_], h => simp at h
        | a :: x :: s', h => exact ⟨x, s', by simpa using h.1, by simpa using h.2⟩
      have hsign : scanSign s = (false, s) := by rw [hs]; rfl
      have hmark' : IsMark ['0', x] := by
        rcases hx with rfl | rfl
        · exact Or.inl rfl
        · exact Or.inr rfl
      simp only [hbase, hsign] at hne hmark ⊢
      have hnone : ¬ (skipMark 16 s = s) := by
        intro hskip
        rw [hskip, hs, List.dropWhile_cons_of_pos (by decide)] at hmark
        have hxd : isDigit 16 x = false := by rcases hx with rfl | rfl <;> rfl
        rw [List.dropWhile_cons_of_neg (by simp [hxd])] at hmark
        rcases hx with rfl | rfl
        · exact (hmark _ rfl).1 rfl
        · exact (hmark _ rfl).2 rfl
      have hskip : skipMark 16 s = s' := by
        rw [hs] at hnone ⊢
        cases s' with
        | nil => exact absurd rfl hnone
        | cons c s' =>
          rw [skipMark] at hnone ⊢
          split at hnone
          · rename_i hc
            rw [if_pos hc]
          · exact absurd rfl hnone
      rw [hskip] at hne ⊢
      refine Or.inl ⟨trivial, 16, ['0', x] ++ s'.takeWhile (isDigit 16),
        .hexadecimal hmark' (isNumeral_takeWhile hne), ends_dropWhile 16 s', ?_⟩
      rw [List.append_assoc, List.takeWhile_append_dropWhile, hs]
      rfl
    · have hbase : baseOf s = 10 := if_neg hb
      simp only [hbase, skipMark_ten] at hne ⊢
      have hds := isNumeral_takeWhile hne
      have hsplit : (scanSign s).2.takeWhile (isDigit 10) ++ (scanSign s).2.dropWhile (isDigit 10)
          = (scanSign s).2 := List.takeWhile_append_dropWhile
      have hsign : ((scanSign s).1 = true ∧ s = '-' :: (scanSign s).2) ∨
          ((scanSign s).1 = false ∧ ∃ sign, IsPlus sign ∧ s = sign ++ (scanSign s).2) := by
        unfold scanSign
        split
        · exact Or.inl ⟨rfl, rfl⟩
        · exact Or.inr ⟨rfl, ['+'], Or.inr rfl, rfl⟩
        · exact Or.inr ⟨rfl, [], Or.inl rfl, rfl⟩
      rcases hsign with ⟨hneg, hs⟩ | ⟨hneg, sign, hplus, hs⟩
      · refine Or.inr ⟨hneg, _, hds, ends_dropWhile 10 _, rfl, ?_⟩
        rw [List.cons_append, hsplit]
        exact hs
      · refine Or.inl ⟨hneg, 10, _, .decimal hplus hds, ends_dropWhile 10 _, ?_⟩
        rw [List.append_assoc, hsplit]
        exact hs

/-! ## What the parsers accept -/

theorem tolower_suffix {c : Char} {i : ℕ} (h : suffixes.findIdx? (· = tolower c) = some i) :
    c ≠ 'x' ∧ c ≠ 'X' := by
  have hnone : suffixes.findIdx? (· = 'x') = none := by decide
  constructor
  · rintro rfl
    exact absurd (hnone.symm.trans h) (by simp)
  · rintro rfl
    exact absurd (hnone.symm.trans h) (by simp)

theorem ByteUnit.ends {allow : Bool} {k : ℕ} (h : ByteUnit base allow rest k) :
    Ends base rest ∧ NoMark rest := by
  cases h with
  | none => exact ⟨ends_nil, fun c hc => absurd hc (by simp)⟩
  | suffix hallow hsuffix hends rest =>
    constructor
    · rintro c ⟨⟩
      exact hends
    · rintro c ⟨⟩
      exact tolower_suffix hsuffix

theorem Unsigned.ne_nil (h : Unsigned base text n) : text ≠ [] := by
  cases h with
  | decimal hsign hds => exact List.append_ne_nil_of_right_ne_nil _ hds.ne_nil
  | hexadecimal hmark hds => exact List.append_ne_nil_of_right_ne_nil _ hds.ne_nil

/-- An unsigned numeral does not start with a space or a minus. -/
theorem Unsigned.head (h : Unsigned base text n) (rest : Str) :
    ∀ c ∈ (text ++ rest).head?, isspace c = false ∧ c ≠ '-' := by
  have hdigit : ∀ {c : Char}, isDigit 10 c = true → isspace c = false ∧ c ≠ '-' := by
    intro c hc
    refine ⟨isspace_of_isDigit (isDigit_sixteen hc), ?_⟩
    rintro rfl
    exact absurd hc (by decide)
  intro c hc
  cases h with
  | decimal hsign hds =>
    rcases hsign with rfl | rfl
    · exact hdigit (head_of_isNumeral hds rest hc)
    · obtain rfl := Option.mem_some_iff.1 hc
      decide
  | hexadecimal hmark hds =>
    rcases hmark with rfl | rfl <;> obtain rfl := Option.mem_some_iff.1 hc <;> decide

/-- Dropping the spaces leaves a text that does not start with one. -/
theorem dropWhile_isspace_eq_iff {front s : Str} (hfront : ∀ c ∈ front, isspace c = true)
    (hs : ∀ c ∈ s.head?, isspace c = false) : (front ++ s).dropWhile isspace = s := by
  rw [List.dropWhile_append_of_pos hfront, dropWhile_isspace_of_head hs]

theorem applySuffix_eq_ok_iff {allow : Bool} {v : ℕ} (hends : Ends base rest) :
    applySuffix allow n rest = .ok v ↔
      ∃ k, ByteUnit base allow rest k ∧ v = n * 2 ^ k ∧ (rest = [] ∨ v < 2 ^ 64) := by
  cases rest with
  | nil =>
    constructor
    · rintro ⟨⟩
      exact ⟨0, .none, by simp⟩
    · rintro ⟨k, hunit, rfl, -⟩
      cases hunit
      simp [applySuffix]
  | cons c rest =>
    rw [applySuffix]
    constructor
    · intro h
      split at h
      · cases h
      · rename_i i hi
        split at h
        · cases h
        · rename_i hallow
          split at h
          · cases h
          · rename_i hlt
            cases h
            exact ⟨10 * i, .suffix (by simpa using hallow) hi (hends c rfl) rest, rfl,
              Or.inr (by omega)⟩
    · rintro ⟨k, hunit, rfl, hlt⟩
      cases hunit with
      | suffix hallow hsuffix hends' rest =>
        have hlt' := hlt.resolve_left (List.cons_ne_nil c rest)
        rw [hsuffix]
        simp only [hallow, Bool.not_true, Bool.false_eq_true, if_false]
        rw [if_neg (Nat.not_le.2 hlt')]

variable {allow : Bool} {v : ℕ}

theorem noMark_of_applySuffix (h : applySuffix allow n rest = .ok v) : NoMark rest := by
  cases rest with
  | nil => exact fun c hc => absurd hc (by simp)
  | cons c rest =>
    rw [applySuffix] at h
    split at h
    · cases h
    · rename_i i hi
      rintro c' ⟨⟩
      exact tolower_suffix hi

/-- `ParseUint` accepts white space, a numeral and what may follow it, and stores the
number times the unit, which has to be in range. -/
theorem ParseUint_ok_iff (hbits : bits ≤ 64) (hmax : max < 2 ^ bits) (s : Str) :
    ParseUint bits max allow s = .ok v ↔ ∃ spaces text rest base n k,
      s = spaces ++ text ++ rest ∧ (∀ c ∈ spaces, isspace c = true) ∧ Unsigned base text n ∧
      ByteUnit base allow rest k ∧ v = n * 2 ^ k ∧ v ≤ max := by
  have hlarge : 2 ^ bits ≤ 2 ^ 64 := Nat.pow_le_pow_right (by decide) hbits
  rw [ParseUint]
  constructor
  · intro h
    set t := s.dropWhile isspace with ht
    have hsplit : s = s.takeWhile isspace ++ t := List.takeWhile_append_dropWhile.symm
    have hdrop : t.dropWhile isspace = t := List.dropWhile_idempotent isspace s
    simp only at h
    split at h
    · cases h
    · rename_i hminus
      cases hscan : scan (baseOf t) t with
      | none => simp [strtoull, hscan] at h
      | some r =>
        simp only [strtoull, hscan] at h
        by_cases hrange : 2 ^ 64 ≤ r.magnitude
        · rw [if_pos hrange] at h
          cases h
        · rw [if_neg hrange] at h
          simp only [Bool.false_eq_true, if_false] at h
          split at h
          · cases h
          · split at h
            · cases h
            · rename_i result hsuffix
              split at h
              · cases h
              · rename_i hle
                obtain rfl := Except.ok.inj h
                rw [Nat.mod_eq_of_lt (by omega)]
                -- What follows is read as a unit, so that no mark of base 16 follows.
                rcases of_scan hdrop hscan (noMark_of_applySuffix hsuffix) with
                  ⟨hneg, base, text, htext, hends, htt⟩ | ⟨-, ds, -, -, -, htt⟩
                · rw [hneg, if_neg Bool.false_ne_true, Nat.mod_eq_of_lt (by omega)] at hsuffix
                  obtain ⟨k, hunit, hv, -⟩ := (applySuffix_eq_ok_iff hends).1 hsuffix
                  refine ⟨s.takeWhile isspace, text, r.rest, base, r.magnitude, k, ?_,
                    fun c hc => List.mem_takeWhile_imp hc, htext, hunit, hv, by omega⟩
                  rw [List.append_assoc, ← htt]
                  exact hsplit
                · rw [htt] at hminus
                  exact absurd rfl hminus
  · rintro ⟨spaces, text, rest, base, n, k, rfl, hspaces, htext, hunit, rfl, hle⟩
    have hhead := htext.head rest
    obtain ⟨hends, hmark⟩ := hunit.ends
    have hdrop : (spaces ++ text ++ rest).dropWhile isspace = text ++ rest := by
      rw [List.append_assoc]
      exact dropWhile_isspace_eq_iff hspaces fun c hc => (hhead c hc).1
    have hminus : ¬ (text ++ rest)[0]? = some '-' := by
      rw [← List.head?_eq_getElem?]
      exact fun h => (hhead _ h).2 rfl
    have hn : n < 2 ^ 64 := by
      have hpos : 0 < 2 ^ k := Nat.two_pow_pos k
      have : n ≤ n * 2 ^ k := Nat.le_mul_of_pos_right n hpos
      omega
    have hscan : strtoull (baseOf (text ++ rest)) (text ++ rest) = (n, rest, false) := by
      rw [baseOf_of_unsigned htext hmark, strtoull, scan_of_unsigned htext hends]
      simp only [Bool.false_eq_true, if_false]
      rw [if_neg (by omega), Nat.mod_eq_of_lt hn]
    have hne : ¬ rest = text ++ rest := fun h =>
      htext.ne_nil (List.self_eq_append_left.1 h)
    have hsuffix : applySuffix allow n rest = .ok (n * 2 ^ k) :=
      (applySuffix_eq_ok_iff hends).2 ⟨k, hunit, rfl, Or.inr (by omega)⟩
    simp only [hdrop, hscan, hsuffix]
    rw [if_neg hminus, if_neg Bool.false_ne_true, if_neg hne, if_neg (by omega),
      Nat.mod_eq_of_lt (by omega)]

theorem ParseUint_ok_iff_kilo : ParseUint 32 (2 ^ 32 - 1) true " 0x1Fkb".toList = .ok 31744 :=
  (ParseUint_ok_iff (by decide) (by decide) _).2
    ⟨[' '], "0x1F".toList, "kb".toList, 16, 31, 10, rfl, List.all_eq_true.1 rfl,
      .hexadecimal (Or.inl rfl) ⟨by decide, List.all_eq_true.1 rfl⟩,
      ByteUnit.suffix (c := 'k') (i := 1) rfl rfl rfl ['b'], rfl, by decide⟩

/-- A number in range comes back from its decimal text. -/
theorem ParseUint_toDigits (hbits : bits ≤ 64) (hmax : max < 2 ^ bits) (hn : n ≤ max) :
    ParseUint bits max allow (Nat.toDigits 10 n) = .ok n := by
  rw [ParseUint_ok_iff hbits hmax]
  have htext : Unsigned 10 (Nat.toDigits 10 n) n := by
    have h := Unsigned.decimal (Or.inl rfl) (isNumeral_toDigits n)
    rwa [value_toDigits, List.nil_append] at h
  exact ⟨[], _, [], 10, n, 0, by simp, fun c hc => absurd hc List.not_mem_nil, htext, .none,
    by simp, hn⟩

/-- `ParseInt` accepts white space and a signed numeral, and stores the number, which has
to be in range. -/
theorem ParseInt_ok_iff {min max v : Int} (hbits : bits ≤ 64) (hmin : -2 ^ bits ≤ 2 * min)
    (hmax : 2 * max < 2 ^ bits) (s : Str) :
    ParseInt bits min max s = .ok v ↔ ∃ spaces text,
      s = spaces ++ text ∧ (∀ c ∈ spaces, isspace c = true) ∧ Signed text v ∧
      min ≤ v ∧ v ≤ max := by
  have hlarge : (2 : Int) ^ bits ≤ 2 ^ 64 := by
    exact_mod_cast Nat.pow_le_pow_right (show 0 < 2 by decide) hbits
  have hbmod : ∀ w : Int, min ≤ w → w ≤ max → w.bmod (2 ^ bits) = w := by
    intro w hle hge
    refine Int.bmod_eq_of_le_mul_two ?_ ?_
    · push_cast
      omega
    · push_cast
      omega
  rw [ParseInt]
  constructor
  · intro h
    set t := s.dropWhile isspace with ht
    have hsplit : s = s.takeWhile isspace ++ t := List.takeWhile_append_dropWhile.symm
    have hdrop : t.dropWhile isspace = t := List.dropWhile_idempotent isspace s
    simp only at h
    cases hscan : scan (baseOf t) t with
    | none => simp [strtoll, hscan] at h
    | some r =>
      simp only [strtoll, hscan] at h
      set number : Int := if r.negative = true then -(r.magnitude : Int) else r.magnitude with hnumber
      by_cases hlow : number < -2 ^ 63
      · rw [if_pos hlow] at h
        cases h
      · by_cases hhigh : 2 ^ 63 ≤ number
        · rw [if_neg hlow, if_pos hhigh] at h
          cases h
        · rw [if_neg hlow, if_neg hhigh] at h
          simp only [Bool.false_eq_true, if_false] at h
          split at h
          · cases h
          · rename_i hrest
            split at h
            · cases h
            · rename_i hle
              have hnil : r.rest = [] := not_not.1 fun hne => hrest (Or.inr hne)
              have hin : min ≤ number ∧ number ≤ max := by omega
              rw [hbmod number hin.1 hin.2] at h
              obtain rfl := Except.ok.inj h
              refine ⟨s.takeWhile isspace, t, hsplit, fun c hc => List.mem_takeWhile_imp hc, ?_,
                hin⟩
              have hmark : NoMark r.rest := by
                rw [hnil]
                exact fun c hc => absurd hc (by simp)
              rcases of_scan hdrop hscan hmark with
                ⟨hneg, base, text, htext, -, htt⟩ | ⟨hneg, ds, hds, -, hmag, htt⟩
              · rw [hnil, List.append_nil] at htt
                rw [hnumber, hneg, if_neg Bool.false_ne_true, htt]
                exact .positive htext
              · rw [hnil, List.append_nil] at htt
                rw [hnumber, hneg, if_pos rfl, htt, hmag]
                exact .negative hds
  · rintro ⟨spaces, text, rfl, hspaces, htext, hle, hge⟩
    have hscan : (∀ c ∈ text.head?, isspace c = false) ∧ text ≠ [] ∧
        ∃ r, scan (baseOf text) text = some r ∧ r.rest = [] ∧
          v = if r.negative = true then -(r.magnitude : Int) else r.magnitude := by
      cases htext with
      | @positive base text n h =>
        have hspace := h.head []
        have hread := scan_of_unsigned h ends_nil
        have hbase : baseOf (text ++ []) = base :=
          baseOf_of_unsigned h fun c hc => absurd hc (by simp)
        rw [List.append_nil] at hspace hread hbase
        exact ⟨fun c hc => (hspace c hc).1, h.ne_nil, _, hbase ▸ hread, rfl, rfl⟩
      | @negative ds hds =>
        have hread := scan_negative hds ends_nil
        rw [List.append_nil] at hread
        refine ⟨?_, List.cons_ne_nil _ _, ⟨true, value 10 ds, []⟩, hread, rfl, rfl⟩
        rintro c ⟨⟩
        decide
    obtain ⟨hspace, hne, r, hread, hrest, hv⟩ := hscan
    have hdrop : (spaces ++ text).dropWhile isspace = text :=
      dropWhile_isspace_eq_iff hspaces hspace
    have hresult : strtoll (baseOf text) text = (v, [], false) := by
      rw [strtoll, hread]
      simp only [← hv, hrest]
      rw [if_neg (by omega), if_neg (by omega)]
    simp only [hdrop, hresult]
    rw [if_neg Bool.false_ne_true, if_neg (by simpa using Ne.symm hne), if_neg (by omega),
      hbmod v hle hge]

theorem ParseInt_ok_iff_int8 : ParseInt 8 (-128) 127 "\t-128".toList = .ok (-128) :=
  (ParseInt_ok_iff (by decide) (by decide) (by decide) _).2
    ⟨['\t'], "-128".toList, rfl, List.all_eq_true.1 rfl,
      .negative ⟨by decide, List.all_eq_true.1 rfl⟩, by decide⟩

/-- `std::to_string` of a signed number. -/
def decimalText (v : Int) : Str :=
  if v < 0 then '-' :: Nat.toDigits 10 v.natAbs else Nat.toDigits 10 v.natAbs

theorem zero_notMem_decimalText (v : Int) : Char.ofNat 0 ∉ decimalText v := by
  have hdigits : Char.ofNat 0 ∉ Nat.toDigits 10 v.natAbs := fun hmem =>
    absurd ((isNumeral_toDigits v.natAbs).digits _ hmem) (by decide)
  rw [decimalText]
  split
  · exact fun hmem => (List.mem_cons.1 hmem).elim (by decide) hdigits
  · exact hdigits

/-- A signed number in range comes back from its decimal text. -/
theorem ParseInt_decimalText {min max v : Int} (hbits : bits ≤ 64) (hmin : -2 ^ bits ≤ 2 * min)
    (hmax : 2 * max < 2 ^ bits) (hle : min ≤ v) (hge : v ≤ max) :
    ParseInt bits min max (decimalText v) = .ok v := by
  rw [ParseInt_ok_iff hbits hmin hmax]
  refine ⟨[], decimalText v, rfl, fun c hc => absurd hc List.not_mem_nil, ?_, hle, hge⟩
  rw [decimalText]
  split
  · have h := Signed.negative (isNumeral_toDigits v.natAbs)
    rwa [value_toDigits, show -(v.natAbs : Int) = v by omega] at h
  · have h := Unsigned.decimal (Or.inl rfl) (isNumeral_toDigits v.natAbs)
    rw [value_toDigits, List.nil_append] at h
    have hsigned := Signed.positive h
    rwa [show (v.natAbs : Int) = v by omega] at hsigned

end SysFs.Base
