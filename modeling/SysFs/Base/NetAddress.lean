import SysFs.Base.ParseInt

/-!
# Network addresses

`ParseNetAddress` of `parsenetaddress.cpp` splits an address into a host and a port, and
writes the address again in canonical form, with brackets around the host of an IPv6
address.

The canonical form is an address itself: parsed again it gives the same host, the same
port and the same canonical form (`ParseNetAddress_canonical`).  For that the port has to
be one, which it is when the address has one, and the host must not have `]:` in it,
which only an address without brackets can have.
-/

namespace SysFs.Base

open Numerals

/-! ## The library functions -/

/-- `std::string::find` of a text. -/
def findText (pattern s : Str) : Option ℕ :=
  (List.range (s.length + 1)).find? fun i => decide (pattern <+: s.drop i)

/-- `std::string::rfind` of a text, which looks from the end. -/
def rfindText (pattern s : Str) : Option ℕ :=
  ((List.range (s.length + 1)).find? fun i => decide (pattern <+: s.drop (s.length - i))).map
    (s.length - ·)

/-- `sscanf` with `"%d"`: whether a number was read, and the number stored.  The standard
does not say what is stored for a number that is no `int`; that is `overflow`. -/
def sscanf_d (overflow : Int → Int) (s : Str) (stored : Int) : Bool × Int :=
  match scan 10 s with
  | none => (false, stored)
  | some r =>
    let number : Int := if r.negative then -r.magnitude else r.magnitude
    (true, if -2 ^ 31 ≤ number ∧ number < 2 ^ 31 then number else overflow number)

/-! ## The parser -/

/-- What `ParseNetAddress` writes to. -/
structure NetAddress where
  host : Str
  port : Int
  /-- `none` for a null pointer -/
  canonical_address : Option Str
  error : Str
deriving DecidableEq, Repr

/-- The host, whether it is one of IPv6, and the text of the port if there is one; or
`none` for a bad IPv6 address. -/
def splitAddress (address : Str) : Option (Str × Bool × Option Str) :=
  let colons := address.count ':'
  let dots := address.count '.'
  if address.head? = some '[' then
    match findText [']', ':'] address, rfindText [']', ':'] address with
    | some first, some last => some (substr address 1 (first - 1), true, some (address.drop (last + 2)))
    | _, _ => none
  else if dots = 0 ∧ 2 ≤ colons ∧ colons ≤ 7 then some (address, true, none)
  else if colons ≤ 1 then
    let pieces := (Split address [':']).getD []
    some (pieces.headD [], false, pieces[1]?)
  else some ([], true, none)

def quoted (s : Str) : Str := ['\''] ++ cString s ++ ['\'']

/-- `StringPrintf` with `"[%s]:%d"` or `"%s:%d"`. -/
def canonicalText (ipv6 : Bool) (host : Str) (port : Int) : Str :=
  if ipv6 then ['['] ++ cString host ++ [']', ':'] ++ decimalText port
  else cString host ++ [':'] ++ decimalText port

/-- `ParseNetAddress`. -/
def ParseNetAddress (overflow : Int → Int) (address : Str) (out : NetAddress) :
    Bool × NetAddress :=
  match splitAddress address with
  | none =>
    (false, { out with host := [], error := "bad IPv6 address ".toList ++ quoted address })
  | some (host, ipv6, port_str) =>
    if host = [] then
      (false, { out with host := [], error := "no host in ".toList ++ quoted address })
    else
      let accept (port : Int) : Bool × NetAddress :=
        (true, { out with
          host := host
          port := port
          canonical_address := out.canonical_address.map fun _ => canonicalText ipv6 host port })
      match port_str with
      | none => accept out.port
      | some port_str =>
        let (scanned, port) := sscanf_d overflow (cString port_str) out.port
        if !scanned || port ≤ 0 || 65535 < port then
          (false, { out with
            host := host
            port := port
            error := "bad port number ".toList ++ quoted port_str ++ " in ".toList
              ++ quoted address })
        else accept port

/-! ## Searching -/

variable {pattern s : Str} {i k : ℕ}

/-- `find` gives the first place where the pattern is. -/
theorem findText_eq_some_iff : findText pattern s = some k ↔
    k ≤ s.length ∧ pattern <+: s.drop k ∧ ∀ i < k, ¬ pattern <+: s.drop i := by
  rw [findText, List.find?_range_eq_some]
  rw [List.mem_range, Nat.lt_succ_iff]
  simp [and_left_comm]

/-- `rfind` gives the last place where the pattern is. -/
theorem rfindText_eq_some (hk : k ≤ s.length) (hhere : pattern <+: s.drop k)
    (hafter : ∀ i, k < i → i ≤ s.length → ¬ pattern <+: s.drop i) :
    rfindText pattern s = some k := by
  rw [rfindText, Option.map_eq_some_iff]
  refine ⟨s.length - k, List.find?_range_eq_some.2 ⟨?_, ?_, ?_⟩, by omega⟩
  · rw [show s.length - (s.length - k) = k by omega]
    exact decide_eq_true hhere
  · rw [List.mem_range]
    omega
  · intro j hj
    have hnot := hafter (s.length - j) (by omega) (by omega)
    simpa using hnot

/-- A text without `]:` in it stays so in front of `]:`, up to there. -/
theorem not_bracket_before {front : Str} (hclean : ¬ [']', ':'] <:+: front) (back : Str) :
    ∀ i < front.length, ¬ [']', ':'] <+: (front ++ ([']', ':'] ++ back)).drop i := by
  intro i hi hbegin
  rw [List.drop_append_of_le_length hi.le] at hbegin
  have hpos : 0 < (front.drop i).length := by
    rw [List.length_drop]
    omega
  match hrest : front.drop i, hpos with
  | [c], _ =>
    rw [hrest] at hbegin
    simp at hbegin
  | c :: c' :: rest, _ =>
    rw [hrest] at hbegin
    have hhead : c = ']' ∧ c' = ':' := by simpa [eq_comm] using hbegin
    refine hclean ⟨front.take i, rest, ?_⟩
    rw [List.append_assoc]
    calc front.take i ++ ([']', ':'] ++ rest) = front.take i ++ front.drop i := by
          rw [hrest, hhead.1, hhead.2]
          rfl
      _ = front := List.take_append_drop i front

/-- After the last `]:` there is none when what follows has no bracket. -/
theorem not_bracket_after {back : Str} (hback : ']' ∉ back) (front : Str) :
    ∀ i, front.length < i → ¬ [']', ':'] <+: (front ++ ([']', ':'] ++ back)).drop i := by
  intro i hi hbegin
  obtain ⟨j, rfl⟩ : ∃ j, i = front.length + (j + 1) := ⟨i - front.length - 1, by omega⟩
  rw [List.drop_append, List.drop_of_length_le (by omega), Nat.add_sub_cancel_left,
    List.nil_append] at hbegin
  have hmem : ']' ∈ (':' :: back).drop j := hbegin.subset List.mem_cons_self
  rcases List.mem_cons.1 (List.mem_of_mem_drop hmem) with h | h
  · exact absurd h (by decide)
  · exact hback h

/-! ## The canonical form -/

variable {overflow : Int → Int} {address host canonical : Str} {port : Int} {ipv6 : Bool}
  {port_str : Option Str} {out out' : NetAddress}

theorem digits_decimalText (hport : 0 < port) :
    ∃ n, 0 < n ∧ port = (n : ℕ) ∧ decimalText port = Nat.toDigits 10 n := by
  refine ⟨port.natAbs, by omega, by omega, ?_⟩
  rw [decimalText, if_neg (by omega)]

/-- The text of a port has only digits in it. -/
theorem isDigit_of_mem_decimalText {c : Char} (hport : 0 < port) (hc : c ∈ decimalText port) :
    isDigit 10 c = true := by
  obtain ⟨n, -, -, htext⟩ := digits_decimalText hport
  rw [htext] at hc
  exact (isNumeral_toDigits n).digits c hc

theorem notMem_decimalText {c : Char} (hc : isDigit 10 c = false) (hport : 0 < port) :
    c ∉ decimalText port := by
  intro hmem
  rw [isDigit_of_mem_decimalText hport hmem] at hc
  cases hc

/-- The text of a port is read as the port. -/
theorem sscanf_d_decimalText (hport : 0 < port) (hmax : port ≤ 65535) (stored : Int) :
    sscanf_d overflow (cString (decimalText port)) stored = (true, port) := by
  obtain ⟨n, hn, hval, htext⟩ := digits_decimalText hport
  have hread := scan_of_unsigned (.decimal (Or.inl rfl) (isNumeral_toDigits n)) ends_nil
  rw [value_toDigits, List.append_nil, List.nil_append, ← htext] at hread
  rw [cString_of_notMem (notMem_decimalText (by decide) hport), sscanf_d, hread]
  simp only [Bool.false_eq_true, if_false]
  rw [if_pos (by omega), hval]

/-- What `splitAddress` finds: where the host has no brackets of its own, it is one with
at most a colon behind it. -/
theorem of_splitAddress (h : splitAddress address = some (host, ipv6, port_str))
    (hhost : host ≠ []) (hclean : address.head? = some '[' ∨ ¬ [']', ':'] <:+: address) :
    (∀ c ∈ host, c ∈ address) ∧ ¬ [']', ':'] <:+: host ∧
      (ipv6 = false → ':' ∉ host ∧ host.head? ≠ some '[') := by
  rw [splitAddress] at h
  simp only at h
  split at h
  · -- Brackets: the host ends before the first `]:`.
    split at h
    · rename_i first last hfirst hlast
      obtain ⟨rfl, rfl, -⟩ : substr address 1 (first - 1) = host ∧ true = ipv6 ∧ _ := by
        simpa using h
      obtain ⟨hle, hhere, hbefore⟩ := findText_eq_some_iff.1 hfirst
      refine ⟨fun c hc => List.mem_of_mem_drop (List.mem_of_mem_take hc), ?_,
        fun hfalse => Bool.noConfusion hfalse⟩
      rintro ⟨front, back, hinfix⟩
      have hlen := congrArg List.length hinfix
      simp only [substr, List.length_append, List.length_take, List.length_drop,
        List.length_cons, List.length_nil] at hlen
      refine hbefore (1 + front.length) (by omega) ?_
      have htail : address.drop 1
          = front ++ ([']', ':'] ++ (back ++ (address.drop 1).drop (first - 1))) := by
        have hcut := List.take_append_drop (first - 1) (address.drop 1)
        rw [show (address.drop 1).take (first - 1) = front ++ [']', ':'] ++ back from hinfix.symm]
          at hcut
        simpa only [List.append_assoc] using hcut.symm
      rw [← List.drop_drop, htail, List.drop_left]
      exact List.prefix_append _ _
    · cases h
  · rename_i hhead
    split at h
    · obtain ⟨rfl, rfl, -⟩ : address = host ∧ true = ipv6 ∧ _ := by simpa using h
      exact ⟨fun c hc => hc, hclean.resolve_left hhead, fun hfalse => Bool.noConfusion hfalse⟩
    · split at h
      · rw [Split_eq _ (List.cons_ne_nil _ _)] at h
        obtain ⟨part, parts, hparts⟩ :=
          List.exists_cons_of_ne_nil (List.splitOnP_ne_nil ([':'].contains ·) address)
        rw [hparts] at h
        obtain ⟨rfl, rfl, -⟩ : part = host ∧ false = ipv6 ∧ _ := by simpa using h
        have hcolon : ':' ∉ part := by
          intro hmem
          have hnot := notMem_of_mem_splitOnP (hparts ▸ List.mem_cons_self) ':' hmem
          simp at hnot
        -- The first piece begins the address.
        have hbegin : part <+: address := by
          have hjoin := intercalate_splitOnP ([':'].contains ·) ':' address
          have hsame : (address.map fun b => if [':'].contains b then ':' else b) = address := by
            conv_rhs => rw [← List.map_id address]
            refine List.map_congr_left fun b _ => ?_
            by_cases hb : b = ':' <;> simp [hb]
          rw [hparts, hsame] at hjoin
          rw [← hjoin]
          cases parts with
          | nil => simp
          | cons part' parts =>
            rw [List.intercalate_cons_cons, List.append_assoc]
            exact List.prefix_append _ _
        refine ⟨fun c hc => hbegin.subset hc, fun hinfix => hcolon ?_, fun _ => ⟨hcolon, ?_⟩⟩
        · exact hinfix.subset (by simp)
        · obtain ⟨back, rfl⟩ := hbegin
          rwa [List.head?_append_of_ne_nil _ hhost] at hhead
      · obtain ⟨rfl, -⟩ : [] = host ∧ _ := by simpa using h
        exact absurd rfl hhost

/-- The canonical form is split as the address was. -/
theorem splitAddress_canonicalText (hhost : host ≠ []) (hzero : Char.ofNat 0 ∉ host)
    (hclean : ¬ [']', ':'] <:+: host)
    (hplain : ipv6 = false → ':' ∉ host ∧ host.head? ≠ some '[') (hport : 0 < port) :
    splitAddress (canonicalText ipv6 host port) = some (host, ipv6, some (decimalText port)) := by
  have hbracket : ']' ∉ decimalText port := notMem_decimalText (by decide) hport
  cases ipv6 with
  | true =>
    rw [canonicalText, if_pos rfl, cString_of_notMem hzero]
    have hclean' : ¬ [']', ':'] <:+: '[' :: host := by
      intro h
      rcases List.infix_cons_iff.1 h with h | h
      · simp at h
      · exact hclean h
    have hshape : ['['] ++ host ++ [']', ':'] ++ decimalText port
        = ('[' :: host) ++ ([']', ':'] ++ decimalText port) := by simp
    have hlen : ('[' :: host).length
        ≤ (('[' :: host) ++ ([']', ':'] ++ decimalText port)).length := by simp
    have hhere : [']', ':']
        <+: (('[' :: host) ++ ([']', ':'] ++ decimalText port)).drop ('[' :: host).length := by
      rw [List.drop_left]
      exact List.prefix_append _ _
    have hfirst := findText_eq_some_iff.2
      ⟨hlen, hhere, not_bracket_before hclean' (decimalText port)⟩
    have hlast := rfindText_eq_some hlen hhere
      fun i hi _ => not_bracket_after hbracket ('[' :: host) i hi
    have hhead : (('[' :: host) ++ ([']', ':'] ++ decimalText port)).head? = some '[' := rfl
    rw [splitAddress, hshape]
    simp only [hfirst, hlast]
    rw [if_pos hhead]
    simp [substr]
  | false =>
    obtain ⟨hcolon, hhead⟩ := hplain rfl
    have hcolon' : ':' ∉ decimalText port := notMem_decimalText (by decide) hport
    have hcount : (host ++ ':' :: decimalText port).count ':' = 1 := by
      rw [List.count_append, List.count_cons_self, List.count_eq_zero.2 hcolon,
        List.count_eq_zero.2 hcolon']
    have hhead' : ¬ (host ++ ':' :: decimalText port).head? = some '[' := by
      rwa [List.head?_append_of_ne_nil _ hhost]
    have hsplit : Split (host ++ ':' :: decimalText port) [':']
        = some [host, decimalText port] := by
      have hnot : ∀ {part : Str}, ':' ∉ part → ∀ b ∈ part, [':'].contains b = false := by
        intro part hpart b hb
        simpa using fun heq : b = ':' => hpart (heq ▸ hb)
      rw [Split_eq _ (List.cons_ne_nil _ _),
        List.splitOnP_append_cons_of_forall_mem (hnot hcolon) ':' (by decide),
        List.splitOnP_eq_singleton (hnot hcolon')]
    rw [canonicalText, if_neg Bool.false_ne_true, cString_of_notMem hzero, List.append_assoc,
      List.singleton_append, splitAddress]
    simp only [hcount, hsplit]
    rw [if_neg hhead', if_neg (by omega), if_pos le_rfl]
    rfl

/-- What an accepted address leaves: a host, and its canonical form if it was asked for. -/
theorem of_ParseNetAddress (h : ParseNetAddress overflow address out = (true, out')) :
    ∃ ipv6 port_str, splitAddress address = some (out'.host, ipv6, port_str) ∧ out'.host ≠ [] ∧
      (port_str.isSome → 0 < out'.port ∧ out'.port ≤ 65535) ∧
      (port_str = none → out'.port = out.port) ∧ out'.error = out.error ∧
      out'.canonical_address
        = out.canonical_address.map fun _ => canonicalText ipv6 out'.host out'.port := by
  rw [ParseNetAddress] at h
  split at h
  · cases h
  · rename_i host ipv6 port_str hsplit
    split at h
    · cases h
    · rename_i hhost
      cases port_str with
      | none =>
        obtain rfl := (Prod.mk.inj h).2
        exact ⟨ipv6, none, hsplit, hhost, fun hsome => Bool.noConfusion hsome, fun _ => rfl, rfl,
          rfl⟩
      | some port_str =>
        simp only at h
        split at h
        · cases h
        · rename_i hrange
          obtain rfl := (Prod.mk.inj h).2
          simp only [Bool.or_eq_true, decide_eq_true_eq, not_or] at hrange
          have hport : 0 < (sscanf_d overflow (cString port_str) out.port).2 ∧
              (sscanf_d overflow (cString port_str) out.port).2 ≤ 65535 := by omega
          exact ⟨ipv6, some port_str, hsplit, hhost, fun _ => hport, by simp, rfl, rfl⟩

/-- The canonical form of an accepted address is accepted again, with the same host, port
and canonical form. -/
theorem ParseNetAddress_canonical (h : ParseNetAddress overflow address out = (true, out'))
    (hzero : Char.ofNat 0 ∉ address) (hport : 0 < out'.port ∧ out'.port ≤ 65535)
    (hclean : address.head? = some '[' ∨ ¬ [']', ':'] <:+: address)
    (hcanonical : out'.canonical_address = some canonical) {again : NetAddress}
    (hagain : again.canonical_address.isSome = true) :
    ParseNetAddress overflow canonical again = (true, { out' with error := again.error }) := by
  obtain ⟨ipv6, port_str, hsplit, hhost, -, -, -, htext⟩ := of_ParseNetAddress h
  obtain ⟨hmem, hclean', hplain⟩ := of_splitAddress hsplit hhost hclean
  obtain ⟨text, hsome⟩ := Option.isSome_iff_exists.1 hagain
  have hform : canonical = canonicalText ipv6 out'.host out'.port := by
    rw [hcanonical] at htext
    cases hout : out.canonical_address with
    | none => simp [hout] at htext
    | some text => simpa [hout] using htext
  have hsplit' := splitAddress_canonicalText hhost (fun hc => hzero (hmem _ hc)) hclean' hplain
    hport.1
  rw [ParseNetAddress, hform, hsplit']
  simp only [if_neg hhost, sscanf_d_decimalText hport.1 hport.2, hsome, Option.map_some]
  rw [if_neg (by simp; omega), ← hform, ← hcanonical]

theorem ParseNetAddress_canonical_brackets :
    ParseNetAddress id "[::1]:80".toList ⟨[], 0, some [], []⟩
      = (true, ⟨"::1".toList, 80, some "[::1]:80".toList, []⟩) := by
  have h : ParseNetAddress id "[::1]: 80x".toList ⟨[], 0, some [], []⟩
      = (true, ⟨"::1".toList, 80, some "[::1]:80".toList, []⟩) := by decide
  exact ParseNetAddress_canonical h (by decide) (by decide) (Or.inl rfl) rfl rfl

end SysFs.Base
