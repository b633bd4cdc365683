import SysFs.Base.Strings
import SysFs.Lib.Locks

/-!
# Messages of the logger

A `LogMessage` collects a text, and its destructor hands it to the logger line by
line, with `LoggingLock` held.  A line without a tag also takes `TagLock`, since the
default tag is made when it is needed first.  A `FATAL` message calls the aborter
after it was logged, without a lock; the aborter can be replaced, and may return.
Loggers and aborters are what a program gives: here they log nothing themselves.

`logLines` is the loop over the text, in which the newline that ends a line is
overwritten and put back.  `Call.code` is what a call of the logger does, as
instructions of a thread (`Locks.Instr`).

* `lines_eq`: the two branches of the destructor do the same: the lines are the
  fields between the newlines, each cut off at a zero character.
* `messages_atomic`: in every interleaving of any threads the lines of a message are
  logged together and by one logger.  `fatal_logged`: before the aborter is called
  the thread has logged all its messages whole, and nothing happens after an aborter
  that does not return.
* `log_progress`: the threads never wait for each other in a circle.
-/

namespace SysFs.Base

open Locks

/-- `LogSeverity`. -/
inductive LogSeverity where
  | VERBOSE
  | DEBUG
  | INFO
  | WARNING
  | ERROR
  | FATAL_WITHOUT_ABORT
  | FATAL
deriving DecidableEq, Repr

def LogSeverity.toNat : LogSeverity → ℕ
  | VERBOSE => 0
  | DEBUG => 1
  | INFO => 2
  | WARNING => 3
  | ERROR => 4
  | FATAL_WITHOUT_ABORT => 5
  | FATAL => 6

/-- `LogId`. -/
inductive LogId where
  | DEFAULT
  | MAIN
  | SYSTEM
deriving DecidableEq, Repr

/-- `LogMessageData`, with the text that was written to it. -/
structure LogMessage where
  file : Str
  line : ℕ
  id : LogId
  severity : LogSeverity
  tag : Option Str
  error : Int
  text : Str
deriving DecidableEq, Repr

/-- `WOULD_LOG`. -/
def WOULD_LOG (minimum severity : LogSeverity) : Bool := minimum.toNat ≤ severity.toNat

/-- `GetFileBasename`. -/
def GetFileBasename (file : Str) : Str := (file.reverse.takeWhile (· ≠ '/')).reverse

/-- The text of the finished message. -/
def LogMessage.msg (strerror : Int → Str) (m : LogMessage) : Str :=
  if m.error ≠ -1 then m.text ++ ": ".toList ++ strerror m.error else m.text

/-- The loop over the lines of a text, from the place `i` on.  Every round passes a
newline, so that as many rounds as there are characters are enough. -/
def logLinesLoop : ℕ → Str → ℕ → List Str
  | 0, _, _ => []
  | rounds + 1, msg, i =>
    if i < msg.length then
      let nl := i + (msg.drop i).idxOf '\n'
      let cut := msg.set nl (Char.ofNat 0)
      cString (cut.drop i) :: logLinesLoop rounds (cut.set nl '\n') (nl + 1)
    else []

/-- What the destructor hands to `LogLine`, and the text afterwards. -/
def logLines (msg : Str) : List Str × Str :=
  if '\n' ∉ msg then ([cString msg], msg)
  else
    let msg := msg ++ ['\n']
    (logLinesLoop msg.length msg 0, msg)

/-- The locks, in the order in which they are taken. -/
inductive LockId where
  | LoggingLock
  | TagLock
deriving DecidableEq, Repr

def LockId.rank : LockId → ℕ
  | LoggingLock => 0
  | TagLock => 1

instance : Preorder LockId := Preorder.lift LockId.rank

theorem LockId.rank_le (l : LockId) : l.rank ≤ 1 := by
  cases l <;> decide

instance : WellFoundedGT LockId where
  wf := by
    refine Subrelation.wf (r := (measure fun l : LockId => 1 - l.rank).rel) ?_ (measure _).wf
    intro l l' hlt
    have hlt : l'.rank < l.rank := hlt
    have hle := l.rank_le
    show 1 - l.rank < 1 - l'.rank
    omega

/-- What a thread does besides taking locks. -/
inductive LogAct where
  | line (id : LogId) (severity : LogSeverity) (tag : Option Str) (file : Str) (line : ℕ)
      (message : Str)
  | setLogger (logger : ℕ)
  | setAborter (aborter : ℕ)
  | getDefaultTag
  | setDefaultTag (tag : Str)
  | abort (message : Str)
deriving DecidableEq, Repr

/-- The aborter is called. -/
def LogAct.isAbort : LogAct → Bool
  | .abort _ => true
  | _ => false

/-- What is only done with `LoggingLock` held. -/
def LogAct.underLock : LogAct → Bool
  | .line _ _ _ _ _ _ => true
  | .setLogger _ => true
  | .setAborter _ => true
  | _ => false

/-- The call of the logger for a line. -/
def LogMessage.lineAct (m : LogMessage) (message : Str) : LogAct :=
  .line m.id m.severity m.tag (GetFileBasename m.file) m.line message

/-- `LogLine`. -/
def LogMessage.LogLine (m : LogMessage) (message : Str) : List (Instr LockId LogAct) :=
  match m.tag with
  | none => [.acquire .TagLock, .act (m.lineAct message), .release .TagLock]
  | some _ => [.act (m.lineAct message)]

/-- The calls of the logger. -/
inductive Call where
  | log (m : LogMessage)
  | SetLogger (logger : ℕ)
  | SetAborter (aborter : ℕ)
  | GetDefaultTag
  | SetDefaultTag (tag : Str)
deriving DecidableEq, Repr

variable (strerror : Int → Str) (minimum : LogSeverity)

/-- `LogMessage::~LogMessage`, of a message that is logged. -/
def LogMessage.code (m : LogMessage) : List (Instr LockId LogAct) :=
  let (lines, msg) := logLines (m.msg strerror)
  .acquire .LoggingLock :: (lines.flatMap m.LogLine ++ .release .LoggingLock ::
    (if m.severity = .FATAL then [.act (.abort (cString msg))] else []))

/-- What a call does. -/
def Call.code : Call → List (Instr LockId LogAct)
  | .log m => if WOULD_LOG minimum m.severity then m.code strerror else []
  | .SetLogger logger => [.acquire .LoggingLock, .act (.setLogger logger), .release .LoggingLock]
  | .SetAborter aborter =>
    [.acquire .LoggingLock, .act (.setAborter aborter), .release .LoggingLock]
  | .GetDefaultTag => [.acquire .TagLock, .act .getDefaultTag, .release .TagLock]
  | .SetDefaultTag tag => [.acquire .TagLock, .act (.setDefaultTag tag), .release .TagLock]

/-- What a thread does that makes some calls. -/
def codeOf (calls : List Call) : List (Instr LockId LogAct) :=
  calls.flatMap (Call.code strerror minimum)

/-- The aborter after some acts, where `first` is the one before them. -/
def aborterAt {ι : Type*} (first : ℕ) (trace : List (ι × LogAct)) : ℕ :=
  trace.foldl (fun aborter x => match x.2 with
    | .setAborter aborter => aborter
    | _ => aborter) first

/-- An aborter that does not return was called.  `returns` says which ones return. -/
def aborted {ι : Type*} (returns : ℕ → Bool) (first : ℕ) (trace : List (ι × LogAct)) : Bool :=
  match trace.getLast? with
  | some (_, .abort _) => !returns (aborterAt first trace)
  | _ => false

/-- What a call does with `LoggingLock` held. -/
def Call.section? : Call → Option (List LogAct)
  | .log m =>
    if WOULD_LOG minimum m.severity then
      some (((m.msg strerror).splitOn '\n').map fun line => m.lineAct (cString line))
    else none
  | .SetLogger logger => some [.setLogger logger]
  | .SetAborter aborter => some [.setAborter aborter]
  | .GetDefaultTag => none
  | .SetDefaultTag _ => none

/-! ## The lines of a text -/

theorem cString_append_zero (s t : Str) : cString (s ++ Char.ofNat 0 :: t) = cString s := by
  unfold cString
  induction s with
  | nil => simp
  | cons c s ih =>
    rw [List.cons_append, List.takeWhile_cons, List.takeWhile_cons, ih]

/-- One round of the loop, at a line `l`. -/
theorem logLinesLoop_succ {l : Str} (hl : '\n' ∉ l) (rounds : ℕ) (before rest : Str) :
    logLinesLoop (rounds + 1) (before ++ (l ++ '\n' :: rest)) before.length
      = cString l :: logLinesLoop rounds ((before ++ l ++ ['\n']) ++ rest)
          (before ++ l ++ ['\n']).length := by
  have hlt : before.length < (before ++ (l ++ '\n' :: rest)).length := by
    simp only [List.length_append, List.length_cons]
    omega
  have hfind : (l ++ '\n' :: rest).idxOf '\n' = l.length := by
    rw [List.idxOf_append_of_notMem hl, List.idxOf_cons_self, Nat.add_zero]
  have hset : ∀ c, (before ++ (l ++ '\n' :: rest)).set (before.length + l.length) c
      = before ++ (l ++ c :: rest) := by
    intro c
    rw [List.set_append_right _ _ (Nat.le_add_right _ _), Nat.add_sub_cancel_left,
      List.set_append_right _ _ (Nat.le_refl _), Nat.sub_self, List.set_cons_zero]
  have hback : (before ++ (l ++ Char.ofNat 0 :: rest)).set (before.length + l.length) '\n'
      = (before ++ l ++ ['\n']) ++ rest := by
    rw [List.set_append_right _ _ (Nat.le_add_right _ _), Nat.add_sub_cancel_left,
      List.set_append_right _ _ (Nat.le_refl _), Nat.sub_self, List.set_cons_zero]
    simp
  rw [logLinesLoop, if_pos hlt]
  dsimp only
  rw [List.drop_left, hfind, hset, List.drop_left, hback, cString_append_zero]
  congr 2
  simp [Nat.add_assoc]

/-- The loop, between what it has passed and what is ahead of it. -/
theorem logLinesLoop_eq (rounds : ℕ) : ∀ before rest : Str, rest.length < rounds →
    logLinesLoop rounds (before ++ (rest ++ ['\n'])) before.length
      = (rest.splitOn '\n').map cString := by
  induction rounds with
  | zero => exact fun _ _ h => absurd h (Nat.not_lt_zero _)
  | succ rounds ih =>
    intro before rest hlen
    by_cases hmem : '\n' ∈ rest
    · obtain ⟨l, rest, rfl, hl⟩ := List.eq_append_cons_of_mem hmem
      rw [List.length_append, List.length_cons] at hlen
      rw [List.append_assoc, List.cons_append, logLinesLoop_succ hl, ih _ _ (by omega),
        List.splitOn_append_cons_self, List.splitOn_eq_singleton hl]
      rfl
    · rw [logLinesLoop_succ hmem, List.splitOn_eq_singleton hmem, List.append_nil]
      have hend : ∀ (rounds : ℕ) (msg : Str), logLinesLoop rounds msg msg.length = [] := by
        intro rounds msg
        cases rounds with
        | zero => rfl
        | succ rounds => rw [logLinesLoop, if_neg (lt_irrefl _)]
      rw [hend]
      rfl

/-- The two branches of the destructor do the same: the lines are the fields between
the newlines, each up to its first zero character. -/
theorem lines_eq (msg : Str) : (logLines msg).1 = (msg.splitOn '\n').map cString := by
  unfold logLines
  by_cases hmem : '\n' ∈ msg
  · rw [if_neg (not_not.2 hmem)]
    exact logLinesLoop_eq _ [] msg (by simp)
  · rw [if_pos hmem, List.splitOn_eq_singleton hmem]
    rfl

/-! ## What a call does -/

section Codes

variable {strerror : Int → Str} {minimum : LogSeverity} {held : List LockId}
  {rest : List (Instr LockId LogAct)}

/-- A line takes `TagLock` for itself. -/
theorem ordered_LogLine (m : LogMessage) (message : Str) (hheld : ∀ l ∈ held, l < .TagLock)
    (hrest : Ordered held rest) : Ordered held (m.LogLine message ++ rest) := by
  unfold LogMessage.LogLine
  cases m.tag with
  | none => exact ⟨hheld, held, rfl, hrest⟩
  | some tag => exact hrest

theorem ordered_lines (m : LogMessage) (lines : List Str) (hheld : ∀ l ∈ held, l < .TagLock)
    (hrest : Ordered held rest) : Ordered held (lines.flatMap m.LogLine ++ rest) := by
  induction lines with
  | nil => exact hrest
  | cons line lines ih =>
    rw [List.flatMap_cons, List.append_assoc]
    exact ordered_LogLine m line hheld ih

theorem guarded_LogLine (m : LogMessage) (message : Str) (hheld : .LoggingLock ∈ held)
    (hrest : Guarded .LoggingLock LogAct.underLock held rest) :
    Guarded .LoggingLock LogAct.underLock held (m.LogLine message ++ rest) := by
  unfold LogMessage.LogLine
  cases m.tag with
  | none => exact ⟨fun _ => List.mem_cons_of_mem _ hheld, hrest⟩
  | some tag => exact ⟨fun _ => hheld, hrest⟩

theorem guarded_lines (m : LogMessage) (lines : List Str) (hheld : .LoggingLock ∈ held)
    (hrest : Guarded .LoggingLock LogAct.underLock held rest) :
    Guarded .LoggingLock LogAct.underLock held (lines.flatMap m.LogLine ++ rest) := by
  induction lines with
  | nil => exact hrest
  | cons line lines ih =>
    rw [List.flatMap_cons, List.append_assoc]
    exact guarded_LogLine m line hheld ih

theorem body_lines (m : LogMessage) (lines : List Str) (rest : List (Instr LockId LogAct)) :
    body .LoggingLock LogAct.underLock (lines.flatMap m.LogLine ++ .release .LoggingLock :: rest)
      = lines.map m.lineAct := by
  induction lines with
  | nil => rfl
  | cons line lines ih =>
    rw [List.flatMap_cons, List.append_assoc, List.map_cons, ← ih]
    unfold LogMessage.LogLine
    cases m.tag <;> rfl

theorem sections_lines (m : LogMessage) (lines : List Str) (rest : List (Instr LockId LogAct)) :
    sections .LoggingLock LogAct.underLock (lines.flatMap m.LogLine ++ rest)
      = sections .LoggingLock LogAct.underLock rest := by
  induction lines with
  | nil => rfl
  | cons line lines ih =>
    rw [List.flatMap_cons, List.append_assoc, ← ih]
    unfold LogMessage.LogLine
    cases m.tag <;> rfl

theorem acts_lines (m : LogMessage) (lines : List Str) (rest : List (Instr LockId LogAct)) :
    acts (lines.flatMap m.LogLine ++ rest) = lines.map m.lineAct ++ acts rest := by
  induction lines with
  | nil => rfl
  | cons line lines ih =>
    rw [List.flatMap_cons, List.append_assoc, List.map_cons, List.cons_append, ← ih]
    unfold LogMessage.LogLine
    cases m.tag <;> rfl

/-- A call takes the locks in their order, and gives them back. -/
theorem ordered_code (c : Call) : Ordered [] (c.code strerror minimum) := by
  cases c with
  | log m =>
    unfold Call.code LogMessage.code
    dsimp only
    split
    · refine ⟨fun _ h => (List.not_mem_nil h).elim, ordered_lines m _ ?_ ⟨[], rfl, ?_⟩⟩
      · intro l hl
        rw [List.mem_singleton.1 hl]
        decide
      · split <;> rfl
    · rfl
  | _ => exact ⟨fun _ h => (List.not_mem_nil h).elim, [], rfl, rfl⟩

theorem guarded_code (c : Call) :
    Guarded .LoggingLock LogAct.underLock [] (c.code strerror minimum) := by
  cases c with
  | log m =>
    unfold Call.code LogMessage.code
    dsimp only
    split
    · refine guarded_lines m _ List.mem_cons_self ?_
      split
      · exact ⟨Bool.noConfusion, trivial⟩
      · trivial
    · trivial
  | SetLogger logger => exact ⟨fun _ => List.mem_cons_self, trivial⟩
  | SetAborter aborter => exact ⟨fun _ => List.mem_cons_self, trivial⟩
  | GetDefaultTag => exact ⟨Bool.noConfusion, trivial⟩
  | SetDefaultTag tag => exact ⟨Bool.noConfusion, trivial⟩

theorem sections_code (c : Call) :
    sections .LoggingLock LogAct.underLock (c.code strerror minimum)
      = (c.section? strerror minimum).toList := by
  cases c with
  | log m =>
    unfold Call.code Call.section? LogMessage.code
    dsimp only
    split
    · rw [sections, if_pos rfl, body_lines, sections_lines, lines_eq, List.map_map]
      split <;> rfl
    · rfl
  | _ => rfl

theorem ordered_codeOf (calls : List Call) : Ordered [] (codeOf strerror minimum calls) := by
  induction calls with
  | nil => rfl
  | cons c calls ih => exact (ordered_code c).append ih

theorem guarded_codeOf (calls : List Call) :
    Guarded .LoggingLock LogAct.underLock [] (codeOf strerror minimum calls) := by
  induction calls with
  | nil => trivial
  | cons c calls ih => exact (guarded_code c).append (ordered_code c) ih

theorem sections_codeOf (calls : List Call) :
    sections .LoggingLock LogAct.underLock (codeOf strerror minimum calls)
      = calls.filterMap (Call.section? strerror minimum) := by
  induction calls with
  | nil => rfl
  | cons c calls ih =>
    have hcons : codeOf strerror minimum (c :: calls)
        = c.code strerror minimum ++ codeOf strerror minimum calls := List.flatMap_cons
    rw [hcons, sections_append (ordered_code c), ih, sections_code, List.filterMap_cons]
    cases c.section? strerror minimum <;> rfl

/-- The aborter is called last, by a `FATAL` message. -/
theorem acts_code_abort {c : Call} {before after : List LogAct} {a : LogAct}
    (hacts : acts (c.code strerror minimum) = before ++ a :: after) (ha : a.isAbort = true) :
    after = [] ∧ ∃ m, c = .log m ∧ m.severity = .FATAL ∧
      a = .abort (cString (logLines (m.msg strerror)).2) := by
  cases c with
  | log m =>
    unfold Call.code LogMessage.code at hacts
    dsimp only at hacts
    split at hacts
    · rw [acts, acts_lines, acts] at hacts
      have hnot : a ∉ (logLines (m.msg strerror)).1.map m.lineAct := by
        intro hmem
        obtain ⟨line, -, rfl⟩ := List.mem_map.1 hmem
        cases ha
      split at hacts
      · rename_i hfatal
        rw [acts, acts] at hacts
        rcases List.append_eq_append_iff.1 hacts with ⟨more, hbefore, hrest⟩ | ⟨more, hlines, hrest⟩
        · cases more with
          | nil =>
            rw [List.nil_append, List.cons.injEq] at hrest
            exact ⟨hrest.2.symm, m, rfl, hfatal, hrest.1.symm⟩
          | cons b more => simp at hrest
        · cases more with
          | nil =>
            rw [List.nil_append, List.cons.injEq] at hrest
            exact ⟨hrest.2, m, rfl, hfatal, hrest.1⟩
          | cons b more =>
            rw [List.cons_append, List.cons.injEq] at hrest
            rw [hlines, ← hrest.1] at hnot
            exact absurd (List.mem_append_right _ List.mem_cons_self) hnot
      · rw [acts, List.append_nil] at hacts
        rw [hacts] at hnot
        exact absurd (List.mem_append_right _ List.mem_cons_self) hnot
    · exact absurd hacts (by simp [acts])
  | _ =>
    have hmem : a ∈ before ++ a :: after := List.mem_append_right _ List.mem_cons_self
    rw [← hacts] at hmem
    rw [List.mem_singleton.1 hmem] at ha
    cases ha

/-- What a thread has done when the aborter is called: all its calls up to the one of
a `FATAL` message.  The other calls come after it. -/
theorem acts_codeOf_abort {calls : List Call} {before after : List LogAct} {a : LogAct}
    (hacts : acts (codeOf strerror minimum calls) = before ++ a :: after)
    (ha : a.isAbort = true) :
    ∃ calls' m calls'', calls = calls' ++ .log m :: calls'' ∧ m.severity = .FATAL ∧
      a = .abort (cString (logLines (m.msg strerror)).2) ∧
      before ++ [a] = acts (codeOf strerror minimum (calls' ++ [.log m])) ∧
      after = acts (codeOf strerror minimum calls'') := by
  induction calls generalizing before with
  | nil => exact absurd hacts (by simp [codeOf, acts])
  | cons c calls ih =>
    have hcons : ∀ calls, codeOf strerror minimum (c :: calls)
        = c.code strerror minimum ++ codeOf strerror minimum calls := fun _ => List.flatMap_cons
    rw [hcons, acts_append] at hacts
    rcases List.append_eq_append_iff.1 hacts with ⟨more, hmore, hrest⟩ | ⟨more, hmore, hrest⟩
    · -- The call has ended before.
      obtain ⟨calls', m, calls'', rfl, hfatal, habort, heq, hafter⟩ := ih hrest
      refine ⟨c :: calls', m, calls'', rfl, hfatal, habort, ?_, hafter⟩
      rw [List.cons_append, hcons, acts_append, ← heq, hmore, List.append_assoc]
    · cases more with
      | nil =>
        rw [List.nil_append] at hrest
        obtain ⟨calls', m, calls'', rfl, hfatal, habort, heq, hafter⟩ :=
          ih (hrest.symm.trans (List.nil_append _).symm)
        refine ⟨c :: calls', m, calls'', rfl, hfatal, habort, ?_, hafter⟩
        rw [List.cons_append, hcons, acts_append, ← heq, hmore, List.append_nil]
        rfl
      | cons b more =>
        rw [List.cons_append, List.cons.injEq] at hrest
        rw [← hrest.1] at hmore
        obtain ⟨rfl, m, rfl, hfatal, habort⟩ := acts_code_abort hmore ha
        refine ⟨[], m, calls, rfl, hfatal, habort, ?_, hrest.2⟩
        rw [List.nil_append, hcons, acts_append, hmore]
        simp [codeOf, acts]

end Codes

/-! ## Threads -/

section Threads

variable {ι : Type*} [DecidableEq ι] {strerror : Int → Str} {minimum : LogSeverity}
  {calls : ι → List Call} {returns : ℕ → Bool} {first : ℕ} {s : State ι LockId LogAct} {i : ι}

/-- In every interleaving: what the loggers are given, and when they are replaced,
is one call after the other.  A call in this order is whole: all lines of a message,
which are the fields between its newlines.  The calls of a thread come in its order.
Only one call may be unfinished, of the thread that has `LoggingLock`. -/
theorem messages_atomic
    (hs : Reachable (aborted returns first) (fun i => codeOf strerror minimum (calls i)) s) :
    ∃ (done : List (ι × List LogAct)) (part : List (ι × LogAct)),
      s.trace.filter (fun x => x.2.underLock)
        = (done.flatMap fun d => d.2.map (Prod.mk d.1)) ++ part ∧
      (∀ i, actsBy i done <+: (calls i).filterMap (Call.section? strerror minimum)) ∧
      (∀ i, s.threads i = ⟨[], []⟩ →
        actsBy i done = (calls i).filterMap (Call.section? strerror minimum)) ∧
      (part = [] ∨ ∃ i b, .LoggingLock ∈ (s.threads i).held ∧
        part = (actsBy i part).map (Prod.mk i) ∧ actsBy i part <+: b ∧
        actsBy i done ++ [b] <+: (calls i).filterMap (Call.section? strerror minimum)) := by
  obtain ⟨done, part, hserial⟩ := serial_reachable (l := .LoggingLock) (p := LogAct.underLock)
    (fun i => ordered_codeOf (calls i)) (fun i => guarded_codeOf (calls i)) hs
  refine ⟨done, part, hserial.trace, fun i => ?_, fun i hi => ?_, ?_⟩
  · rw [← sections_codeOf]
    exact hserial.done_first i
  · rw [← sections_codeOf]
    exact hserial.done_eq hi
  · simp only [← sections_codeOf]
    exact hserial.part_next (exclusive_reachable hs)

omit [DecidableEq ι] in
/-- What ends the process is the call of an aborter that does not return. -/
theorem aborted_eq_true_iff {trace : List (ι × LogAct)} : aborted returns first trace = true ↔
    ∃ before i message, trace = before ++ [(i, .abort message)] ∧
      returns (aborterAt first before) = false := by
  have hsame : ∀ before (i : ι) message, aborterAt first (before ++ [(i, .abort message)])
      = aborterAt first before := by
    intro before i message
    rw [aborterAt, List.foldl_append]
    rfl
  rcases List.eq_nil_or_concat trace with rfl | ⟨before, x, rfl⟩
  · simp [aborted]
  · rw [List.concat_eq_append, aborted, List.getLast?_concat]
    obtain ⟨i, a⟩ := x
    cases a with
    | abort message => simp [hsame]
    | _ => simp

/-- As long as no aborter that does not return has been called, and some thread has
calls to make, some thread can go on. -/
theorem log_progress
    (hs : Reachable (aborted returns first) (fun i => codeOf strerror minimum (calls i)) s) :
    (∃ trace i message, s.trace = trace ++ [(i, LogAct.abort message)] ∧
        returns (aborterAt first trace) = false) ∨
      (∀ i, s.threads i = ⟨[], []⟩) ∨ ∃ i s', Step (aborted returns first) s i s' := by
  have hordered : ∀ i, Ordered [] (codeOf strerror minimum (calls i)) :=
    fun i => ordered_codeOf (calls i)
  by_cases hrun : s.Running (aborted returns first)
  · by_cases hdone : ∀ i, (s.threads i).code = []
    · refine Or.inr (Or.inl fun i => ?_)
      have hheld := ordered_reachable hordered hs i
      rw [hdone i] at hheld
      cases hthread : s.threads i with
      | mk held code =>
        have hcode := hdone i
        rw [hthread] at hheld hcode
        exact congrArg₂ Thread.mk hheld hcode
    · obtain ⟨i, hi⟩ := not_forall.1 hdone
      exact Or.inr (Or.inr (progress hordered hs hrun hi))
  · exact Or.inl (aborted_eq_true_iff.1 (eq_true_of_ne_false hrun))

/-- Whenever the aborter is called, the thread has a `FATAL` message, and has logged
this message and everything before it whole.  The aborter gets the text of the message.
If it does not return, nothing happens any more; otherwise the thread goes on with its
next calls. -/
theorem fatal_logged {trace rest : List (ι × LogAct)} {message : Str}
    (hs : Reachable (aborted returns first) (fun i => codeOf strerror minimum (calls i)) s)
    (htrace : s.trace = trace ++ (i, .abort message) :: rest) :
    ∃ before m after, calls i = before ++ .log m :: after ∧ m.severity = .FATAL ∧
      message = cString (logLines (m.msg strerror)).2 ∧
      actsBy i trace ++ [.abort message] = acts (codeOf strerror minimum (before ++ [.log m])) ∧
      actsBy i rest ++ acts (s.threads i).code = acts (codeOf strerror minimum after) ∧
      (returns (aborterAt first trace) = false →
        rest = [] ∧ ¬ ∃ j s', Step (aborted returns first) s j s') := by
  have hdone := acts_reachable hs i
  rw [htrace, List.append_cons, actsBy_append, actsBy_append, actsBy_self, List.append_assoc,
    List.append_assoc, List.singleton_append] at hdone
  obtain ⟨before, m, after, hcalls, hfatal, hmessage, hacts, hafter⟩ :=
    acts_codeOf_abort hdone rfl
  refine ⟨before, m, after, hcalls, hfatal, LogAct.abort.inj hmessage, hacts, hafter, ?_⟩
  intro hreturns
  have hended : aborted returns first (trace ++ [(i, .abort message)]) = true :=
    aborted_eq_true_iff.2 ⟨trace, i, message, rfl, hreturns⟩
  have hrest : rest = [] := by
    cases rest with
    | nil => rfl
    | cons x rest =>
      rw [List.append_cons] at htrace
      rw [running_before hs htrace] at hended
      cases hended
  refine ⟨hrest, ?_⟩
  rintro ⟨j, s', hstep⟩
  have hrun : aborted returns first s.trace = false := hstep.running
  rw [htrace, hrest, hended] at hrun
  cases hrun

end Threads

/-- A thread with a `FATAL` message of two lines and another message, and one that
replaces the aborter. -/
def twoThreads : Fin 2 → List Call
  | 0 => [.log ⟨"f".toList, 1, .DEFAULT, .FATAL, some [], -1, "x\ny".toList⟩,
      .log ⟨"f".toList, 2, .DEFAULT, .INFO, some [], -1, "z".toList⟩]
  | 1 => [.SetAborter 1]

/-- The aborter 1 returns, and the aborter 0 does not. -/
def returnsOne (aborter : ℕ) : Bool := aborter == 1

/-- The threads when they have taken steps in this order. -/
def twoThreadsAt (schedule : List (Fin 2)) : State (Fin 2) LockId LogAct :=
  (schedule.foldlM (State.next (aborted returnsOne 0))
    (start fun i => codeOf (fun _ => []) .INFO (twoThreads i))).getD ⟨fun _ => ⟨[], []⟩, []⟩

theorem reachable_twoThreadsAt (schedule : List (Fin 2))
    (h : (schedule.foldlM (State.next (aborted returnsOne 0))
      (start fun i => codeOf (fun _ => []) .INFO (twoThreads i))).isSome = true) :
    Reachable (aborted returnsOne 0) (fun i => codeOf (fun _ => []) .INFO (twoThreads i))
      (twoThreadsAt schedule) := by
  obtain ⟨s, hs⟩ := Option.isSome_iff_exists.1 h
  rw [twoThreadsAt, hs]
  exact reachable_of_schedule _ schedule .start hs

/-- The first thread is between its lines, and the second one waits for the lock. -/
def waiting : State (Fin 2) LockId LogAct := twoThreadsAt [0, 0]

theorem reachable_waiting : Reachable (aborted returnsOne 0)
    (fun i => codeOf (fun _ => []) .INFO (twoThreads i)) waiting :=
  reachable_twoThreadsAt [0, 0] rfl

theorem messages_atomic_twoThreads :
    (waiting.threads 1).code.head? = some (.acquire .LoggingLock) ∧
      ∃ (done : List (Fin 2 × List LogAct)) (part : List (Fin 2 × LogAct)),
        waiting.trace.filter (fun x => x.2.underLock)
          = (done.flatMap fun d => d.2.map (Prod.mk d.1)) ++ part ∧
        (∀ i, actsBy i done <+: (twoThreads i).filterMap (Call.section? (fun _ => []) .INFO)) ∧
        (∀ i, waiting.threads i = ⟨[], []⟩ →
          actsBy i done = (twoThreads i).filterMap (Call.section? (fun _ => []) .INFO)) ∧
        (part = [] ∨ ∃ i b, .LoggingLock ∈ (waiting.threads i).held ∧
          part = (actsBy i part).map (Prod.mk i) ∧ actsBy i part <+: b ∧
          actsBy i done ++ [b] <+: (twoThreads i).filterMap (Call.section? (fun _ => []) .INFO)) :=
  ⟨rfl, messages_atomic reachable_waiting⟩

theorem log_progress_twoThreads :
    (waiting.threads 1).code.head? = some (.acquire .LoggingLock) ∧
      .LoggingLock ∈ (waiting.threads 0).held ∧
      ((∃ trace i message, waiting.trace = trace ++ [(i, LogAct.abort message)] ∧
          returnsOne (aborterAt 0 trace) = false) ∨
        (∀ i, waiting.threads i = ⟨[], []⟩) ∨
        ∃ i s', Step (aborted returnsOne 0) waiting i s') :=
  ⟨rfl, List.mem_singleton_self _, log_progress reachable_waiting⟩

/-- The aborter was replaced by one that returns, and then called. -/
def returned : State (Fin 2) LockId LogAct := twoThreadsAt [1, 1, 1, 0, 0, 0, 0, 0]

theorem fatal_logged_twoThreads :
    ∃ before m after, twoThreads 0 = before ++ .log m :: after ∧ m.severity = .FATAL ∧
      "x\ny\n".toList = cString (logLines (m.msg fun _ => [])).2 ∧
      actsBy 0 (returned.trace.take 3) ++ [.abort "x\ny\n".toList]
        = acts (codeOf (fun _ => []) .INFO (before ++ [.log m])) ∧
      actsBy 0 (returned.trace.drop 4) ++ acts (returned.threads 0).code
        = acts (codeOf (fun _ => []) .INFO after) ∧
      (returnsOne (aborterAt 0 (returned.trace.take 3)) = false → returned.trace.drop 4 = [] ∧
        ¬ ∃ j s', Step (aborted returnsOne 0) returned j s') :=
  fatal_logged (reachable_twoThreadsAt [1, 1, 1, 0, 0, 0, 0, 0] rfl) rfl

end SysFs.Base
