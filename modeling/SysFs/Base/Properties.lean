import Mathlib.Logic.Function.Basic
import SysFs.Lib.Run
import SysFs.Base.ParseInt

/-!
# System properties

`properties.cpp` where the C library has no properties of its own: `g_properties` is a
map from texts to texts, `SetProperty` overwrites an entry, and the getters read the text
of an entry as a truth value or a number.  An empty text counts as a missing entry.

After any run of `SetProperty` calls a key has the value of the last call that set it
(`runs_apply`), and `GetIntProperty_runs` says what a typed getter then returns: the
number of that value when it is a numeral in range, and the default otherwise.
-/

namespace SysFs.Base

/-- `g_properties`. -/
abbrev Properties := Str → Option Str

/-- `__system_property_set`. -/
def system_property_set (g_properties : Properties) (key value : Str) : Properties :=
  Function.update g_properties key (some value)

/-- The arguments of one `SetProperty` call. -/
structure Setting where
  key : Str
  value : Str
deriving DecidableEq, Repr

/-- `SetProperty`. -/
def SetProperty (g_properties : Properties) (c : Setting) : Properties :=
  system_property_set g_properties (cString c.key) (cString c.value)

variable (g_properties : Properties) (key : Str)

/-- `GetProperty`. -/
def GetProperty (default_value : Str) : Str :=
  match g_properties key with
  | none => default_value
  | some property_value => if property_value = [] then default_value else property_value

/-- The texts of the truth values. -/
def trueTexts : List Str := ["1", "y", "yes", "on", "true"].map String.toList
def falseTexts : List Str := ["0", "n", "no", "off", "false"].map String.toList

/-- `GetBoolProperty`. -/
def GetBoolProperty (default_value : Bool) : Bool :=
  let value := GetProperty g_properties key []
  if trueTexts.contains value then true
  else if falseTexts.contains value then false
  else default_value

/-- A property that is read by a parser. -/
def getParsed {α : Type} (parse : Str → Except ParseError α) (default_value : α) : α :=
  let value := GetProperty g_properties key []
  if value = [] then default_value
  else
    match parse (cString value) with
    | .ok result => result
    | .error _ => default_value

/-- `GetIntProperty` and `GetUintProperty` of a type with `bits` bits. -/
def GetIntProperty (bits : ℕ) (default_value min max : Int) : Int :=
  getParsed g_properties key (ParseInt bits min max) default_value
def GetUintProperty (bits : ℕ) (default_value max : ℕ) : ℕ :=
  getParsed g_properties key (ParseUint bits max false) default_value

/-! ## Runs of settings -/

/-- The value of the last call that sets the key. -/
def lastValue (calls : List Setting) (key : Str) : Option Str :=
  (calls.reverse.find? fun c => cString c.key = key).map fun c => cString c.value

variable {g_properties key} {calls : List Setting}

theorem lastValue_concat (calls : List Setting) (c : Setting) (key : Str) :
    lastValue (calls ++ [c]) key
      = if cString c.key = key then some (cString c.value) else lastValue calls key := by
  rw [lastValue, List.reverse_append, List.reverse_singleton, List.singleton_append,
    List.find?_cons]
  by_cases hkey : cString c.key = key
  · rw [if_pos hkey, decide_eq_true hkey]
    rfl
  · rw [if_neg hkey, decide_eq_false hkey]
    rfl

/-- Calls that do not set the key leave its value. -/
theorem lastValue_append {after : List Setting} (hafter : ∀ c ∈ after, cString c.key ≠ key)
    (calls : List Setting) : lastValue (calls ++ after) key = lastValue calls key := by
  induction after using List.reverseRecOn with
  | nil => rw [List.append_nil]
  | append_singleton after c ih =>
    rw [← List.append_assoc, lastValue_concat, if_neg (hafter c (by simp)),
      ih fun c' hc' => hafter c' (List.mem_append_left _ hc')]

theorem SetProperty_apply (g_properties : Properties) (c : Setting) (key : Str) :
    SetProperty g_properties c key
      = if cString c.key = key then some (cString c.value) else g_properties key := by
  rw [SetProperty, system_property_set, Function.update_apply]
  exact if_congr eq_comm rfl rfl

/-- After a run, a key has the value that was set last. -/
theorem runs_apply (g_properties : Properties) (calls : List Setting) (key : Str) :
    Run.runs SetProperty g_properties calls key = (lastValue calls key).or (g_properties key) := by
  induction calls using List.reverseRecOn with
  | nil => rfl
  | append_singleton calls c ih =>
    rw [Run.runs_append, Run.runs_cons, Run.runs_nil, SetProperty_apply, ih, lastValue_concat]
    by_cases hkey : cString c.key = key
    · rw [if_pos hkey, if_pos hkey]
      rfl
    · rw [if_neg hkey, if_neg hkey]

/-- A run that starts without properties: `GetProperty` with an empty default. -/
theorem GetProperty_runs (calls : List Setting) (key : Str) :
    GetProperty (Run.runs SetProperty (fun _ => none) calls) key []
      = (lastValue calls key).getD [] := by
  rw [GetProperty, runs_apply, Option.or_none]
  cases lastValue calls key with
  | none => rfl
  | some value =>
    by_cases hvalue : value = []
    · simp [hvalue]
    · simp [hvalue]

/-- What is set is the text of a pointer. -/
theorem cString_lastValue (calls : List Setting) (key : Str) :
    cString ((lastValue calls key).getD []) = (lastValue calls key).getD [] := by
  apply cString_of_notMem
  rw [lastValue]
  cases calls.reverse.find? fun c => decide (cString c.key = key) with
  | none => exact List.not_mem_nil
  | some c => exact notMem_cString c.value

/-- After a run, a parsed property is what the parser gives for the value that was set
last, and the default when there is none or the parser rejects it. -/
theorem getParsed_runs {α : Type} (parse : Str → Except ParseError α) (default_value : α)
    (calls : List Setting) (key : Str) :
    (∀ value v, lastValue calls key = some value → value ≠ [] → parse value = .ok v →
      getParsed (Run.runs SetProperty (fun _ => none) calls) key parse default_value = v) ∧
    ((∀ value v, lastValue calls key = some value → parse value ≠ .ok v) →
      getParsed (Run.runs SetProperty (fun _ => none) calls) key parse default_value
        = default_value) := by
  rw [getParsed]
  simp only [GetProperty_runs, cString_lastValue]
  constructor
  · intro value v hlast hne hparse
    rw [hlast, Option.getD_some, hparse]
    exact if_neg hne
  · intro hnone
    cases hlast : lastValue calls key with
    | none => exact if_pos rfl
    | some value =>
      rw [Option.getD_some]
      split
      · rfl
      · cases hparse : parse value with
        | error e => rfl
        | ok v => exact absurd hparse (hnone value v hlast)

/-- The texts that `ParseInt` reads as a number in range. -/
def ReadsInt (min max : Int) (value : Str) (v : Int) : Prop :=
  ∃ spaces text, value = spaces ++ text ∧ (∀ c ∈ spaces, isspace c = true) ∧ Signed text v ∧
    min ≤ v ∧ v ≤ max

variable {bits : ℕ} {min max v : Int} {value : Str}

theorem ReadsInt.ne_nil (h : ReadsInt min max value v) : value ≠ [] := by
  obtain ⟨spaces, text, rfl, -, htext, -⟩ := h
  refine List.append_ne_nil_of_right_ne_nil _ ?_
  cases htext with
  | positive h => exact h.ne_nil
  | negative hds => exact List.cons_ne_nil _ _

/-- After a run, `GetIntProperty` returns the number of the value that was set last, and
the default when there is none or it is no numeral in range. -/
theorem GetIntProperty_runs (hbits : bits ≤ 64) (hmin : -2 ^ bits ≤ 2 * min)
    (hmax : 2 * max < 2 ^ bits) (calls : List Setting) (key : Str) (default_value : Int) :
    (∀ value v, lastValue calls key = some value → ReadsInt min max value v →
      GetIntProperty (Run.runs SetProperty (fun _ => none) calls) key bits default_value min max
        = v) ∧
    ((¬ ∃ value v, lastValue calls key = some value ∧ ReadsInt min max value v) →
      GetIntProperty (Run.runs SetProperty (fun _ => none) calls) key bits default_value min max
        = default_value) := by
  have hiff : ∀ value v, ParseInt bits min max value = .ok v ↔ ReadsInt min max value v :=
    fun value _ => ParseInt_ok_iff hbits hmin hmax value
  obtain ⟨hsome, hdefault⟩ := getParsed_runs (ParseInt bits min max) default_value calls key
  constructor
  · intro value v hlast hreads
    exact hsome value v hlast hreads.ne_nil ((hiff value v).2 hreads)
  · intro hnone
    exact hdefault fun value v hlast hparse => hnone ⟨value, v, hlast, (hiff value v).1 hparse⟩

theorem GetIntProperty_runs_last :
    GetIntProperty (Run.runs SetProperty (fun _ => none)
      [⟨"size".toList, "7".toList⟩, ⟨"size".toList, " 12".toList⟩, ⟨"name".toList, "x".toList⟩])
      "size".toList 32 0 0 100 = 12 :=
  (GetIntProperty_runs (by decide) (by decide) (by decide) _ _ _).1 " 12".toList 12 (by decide)
    ⟨[' '], "12".toList, rfl, List.all_eq_true.1 rfl,
      .positive (.decimal (Or.inl rfl) ⟨by decide, List.all_eq_true.1 rfl⟩), by decide, by decide⟩

/-- A number that was set comes back, whatever other keys were set afterwards. -/
theorem GetIntProperty_decimalText (hbits : bits ≤ 64) (hmin : -2 ^ bits ≤ 2 * min)
    (hmax : 2 * max < 2 ^ bits) (hle : min ≤ v) (hge : v ≤ max) (before : List Setting)
    {after : List Setting} (hkey : Char.ofNat 0 ∉ key)
    (hafter : ∀ c ∈ after, cString c.key ≠ key) (default_value : Int) :
    GetIntProperty (Run.runs SetProperty (fun _ => none)
      (before ++ [⟨key, decimalText v⟩] ++ after)) key bits default_value min max = v := by
  have hlast : lastValue (before ++ [⟨key, decimalText v⟩] ++ after) key
      = some (decimalText v) := by
    rw [lastValue_append hafter, lastValue_concat, if_pos (cString_of_notMem hkey),
      cString_of_notMem (zero_notMem_decimalText v)]
  have hreads : ReadsInt min max (decimalText v) v :=
    (ParseInt_ok_iff hbits hmin hmax _).1 (ParseInt_decimalText hbits hmin hmax hle hge)
  exact (GetIntProperty_runs hbits hmin hmax _ _ _).1 _ v hlast hreads

end SysFs.Base
