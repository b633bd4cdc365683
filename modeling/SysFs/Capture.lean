import SysFs.Shell

/-!
# Reading the pipe

`execCommand` reads the pipe through a buffer of `max_buf_size` characters.  It
puts a zero character after what `read` has stored, and appends the buffer to a
stream up to its first zero.  `Shell.execCommand` works on what this leaves of
each piece; here `readLoop` is the loop itself, over the buffer and the stream.

A `Chunk` is what one `read` gives, so it leaves room for the zero, and a
`Buffer` keeps its size (`Buffer.store`).

* `execCommandReading_eq`: with the loop, `execCommand` does what the model does
  with the answer that the loop makes of the reads.
* `flatten_cStrings`: without zero characters, the stream gets the chunks, one
  after the other.
* `mOutputLines_execCommandReading`: the captured lines are those of the text,
  however it was cut.
-/

namespace SysFs

/-- `max_buf_size`. -/
def maxBufSize : Nat := 4096

/-- What one successful call of `read` with the size `max_buf_size - 1` gives. -/
structure Chunk where
  data : Str
  ne_nil : data ≠ []
  length_le : data.length ≤ maxBufSize - 1
deriving DecidableEq, Repr

/-- The buffer `tbuf`. -/
structure Buffer where
  cells : Str
  length_cells : cells.length = maxBufSize
deriving DecidableEq, Repr

/-- `read` stores a chunk at the start of the buffer, and `execCommand` puts a
zero character after it. -/
def Buffer.store (b : Buffer) (c : Chunk) : Buffer where
  cells := c.data ++ '\x00' :: b.cells.drop (c.data.length + 1)
  length_cells := by
    have hroom : c.data.length ≤ maxBufSize - 1 := c.length_le
    have hsize : b.cells.length = maxBufSize := b.length_cells
    have hpos : 0 < maxBufSize := by decide
    rw [List.length_append, List.length_cons, List.length_drop]
    omega

/-- What `<<` and `std::string` take of a `char *`. -/
def Buffer.cString (b : Buffer) : Str := b.cells.takeWhile fun c => c != '\x00'

/-- What the read loop changes. -/
structure Reading where
  tbuf : Buffer
  ss : Str
  errorMsg : Str
deriving DecidableEq, Repr

/-- The loop around `read`, for the chunks that `read` gives before it finds
nothing.  It stops after the first one if the command has failed. -/
def readLoop (ret : Nat) : Reading → List Chunk → Reading
  | r, [] => r
  | r, c :: chunks =>
    let tbuf := r.tbuf.store c
    if ret ≠ 0 then { r with tbuf := tbuf, errorMsg := tbuf.cString }
    else readLoop ret { r with tbuf := tbuf, ss := r.ss ++ tbuf.cString } chunks

/-- What the system answers to one call of `execCommand`, read by read. -/
structure Reads where
  /-- what `system` returns -/
  ret : Nat
  /-- what `new char[max_buf_size]` holds -/
  tbuf : Buffer
  chunks : List Chunk
  pipeOk : Bool
  fopenOk : Bool
deriving DecidableEq, Repr

/-- What is appended to the stream chunk by chunk, when the loop goes on to the
end. -/
def cStrings : Buffer → List Chunk → List Str
  | _, [] => []
  | b, c :: chunks => (b.store c).cString :: cStrings (b.store c) chunks

/-- The answer that `Shell.execCommand` works on. -/
def Reads.answer (a : Reads) : Answer := ⟨a.ret, cStrings a.tbuf a.chunks, a.pipeOk, a.fopenOk⟩

/-- `execCommand`, with the loop that reads the pipe. -/
def Shell.execCommandReading (sh : Shell) (a : Reads) : Shell × Option (Str × Str) :=
  let sh := { sh with mExecStatus := false }
  if !sh.mShellAvailable then (sh, none)
  else
    let sh := { sh with mOutputLines := [] }
    if sh.mCommand.isEmpty then (sh, none)
    else if sh.toDevNull then ({ sh with mExecStatus := a.ret == 0 }, none)
    else if !a.pipeOk then (sh, none)
    else
      let r := readLoop a.ret ⟨a.tbuf, [], sh.mErrorMsg⟩ a.chunks
      let lines := Lines.getlines '\n' r.ss
      ({ sh with mOutputLines := lines, mErrorMsg := r.errorMsg, mExecStatus := a.ret == 0 },
        if !sh.mOutputPath.isEmpty ∧ a.ret = 0 ∧ a.fopenOk then
          some (sh.mOutputPath, fileContent lines)
        else none)

/-- A text split at its newlines, where a newline at the end is not followed by
an empty line. -/
def textLines (text : Str) : List Str :=
  let fields := text.splitOn '\n'
  if fields.getLast? = some [] then fields.dropLast else fields

variable {ret : Nat} {r : Reading} {chunks : List Chunk}

/-! ## The loop -/

@[simp] theorem readLoop_nil (ret : Nat) (r : Reading) : readLoop ret r [] = r := rfl

/-- One round of the loop, after a command that has succeeded. -/
theorem readLoop_zero_cons (r : Reading) (c : Chunk) (chunks : List Chunk) :
    readLoop 0 r (c :: chunks)
      = readLoop 0 ⟨r.tbuf.store c, r.ss ++ (r.tbuf.store c).cString, r.errorMsg⟩ chunks := rfl

/-- After a command that has failed, there is one round only. -/
theorem readLoop_cons_of_ne_zero (hret : ret ≠ 0) (c : Chunk) :
    readLoop ret r (c :: chunks) = ⟨r.tbuf.store c, r.ss, (r.tbuf.store c).cString⟩ := by
  simp only [readLoop]
  rw [if_pos hret]

/-- The stream of a command that has succeeded holds all pieces. -/
theorem readLoop_zero (chunks : List Chunk) : ∀ r : Reading,
    (readLoop 0 r chunks).ss = r.ss ++ (cStrings r.tbuf chunks).flatten ∧
      (readLoop 0 r chunks).errorMsg = r.errorMsg := by
  induction chunks with
  | nil =>
    intro r
    exact ⟨(List.append_nil _).symm, rfl⟩
  | cons c chunks ih =>
    intro r
    obtain ⟨hss, hmsg⟩ := ih ⟨r.tbuf.store c, r.ss ++ (r.tbuf.store c).cString, r.errorMsg⟩
    rw [readLoop_zero_cons, hss, hmsg, cStrings, List.flatten_cons, List.append_assoc]
    exact ⟨rfl, rfl⟩

/-- A command that has failed leaves the stream as it is, and its first piece is
the message. -/
theorem readLoop_of_ne_zero (hret : ret ≠ 0) (r : Reading) (chunks : List Chunk) :
    (readLoop ret r chunks).ss = r.ss ∧
      (readLoop ret r chunks).errorMsg = (cStrings r.tbuf chunks).head?.getD r.errorMsg := by
  cases chunks with
  | nil => exact ⟨rfl, rfl⟩
  | cons c chunks =>
    rw [readLoop_cons_of_ne_zero hret]
    exact ⟨rfl, rfl⟩

/-- With the loop, `execCommand` does what it does with the pieces. -/
theorem Shell.execCommandReading_eq (sh : Shell) (a : Reads) :
    sh.execCommandReading a = sh.execCommand a.answer := by
  have hss : (readLoop a.ret ⟨a.tbuf, [], sh.mErrorMsg⟩ a.chunks).ss
      = if a.ret = 0 then (cStrings a.tbuf a.chunks).flatten else [] := by
    split
    · rename_i hret
      rw [hret, (readLoop_zero a.chunks _).1, List.nil_append]
    · rename_i hret
      rw [(readLoop_of_ne_zero hret _ a.chunks).1]
  have hmsg : (readLoop a.ret ⟨a.tbuf, [], sh.mErrorMsg⟩ a.chunks).errorMsg
      = if a.ret = 0 then sh.mErrorMsg
        else (cStrings a.tbuf a.chunks).head?.getD sh.mErrorMsg := by
    split
    · rename_i hret
      rw [hret, (readLoop_zero a.chunks _).2]
    · rename_i hret
      rw [(readLoop_of_ne_zero hret _ a.chunks).2]
  unfold execCommandReading execCommand
  simp only [Reads.answer, hss, hmsg]
  rfl

/-! ## Texts without a zero character -/

/-- A zero character ends what is taken of the buffer. -/
theorem zero_notMem_cStrings (chunks : List Chunk) : ∀ b : Buffer,
    '\x00' ∉ (cStrings b chunks).flatten := by
  induction chunks with
  | nil =>
    intro b
    exact List.not_mem_nil
  | cons c chunks ih =>
    intro b
    rw [cStrings, List.flatten_cons, List.mem_append, not_or]
    refine ⟨fun hmem => ?_, ih (b.store c)⟩
    exact absurd (List.mem_takeWhile_imp hmem) (by decide)

/-- The zero character ends the chunk that was stored, and what was in the
buffer before does not show. -/
theorem Buffer.cString_store (b : Buffer) {c : Chunk} (h : '\x00' ∉ c.data) :
    (b.store c).cString = c.data := by
  have hall : ∀ x ∈ c.data, (x != '\x00') = true := by
    intro x hx
    rw [bne_iff_ne]
    rintro rfl
    exact h hx
  show (c.data ++ '\x00' :: b.cells.drop (c.data.length + 1)).takeWhile _ = c.data
  rw [List.takeWhile_append_of_pos hall, List.takeWhile_cons_of_neg (by decide), List.append_nil]

/-- The text that was cut into the chunks. -/
def cutText (chunks : List Chunk) : Str := (chunks.map Chunk.data).flatten

theorem cStrings_eq (h : '\x00' ∉ cutText chunks) : ∀ b : Buffer,
    cStrings b chunks = chunks.map Chunk.data := by
  induction chunks with
  | nil =>
    intro b
    rfl
  | cons c chunks ih =>
    intro b
    rw [cutText, List.map_cons, List.flatten_cons, List.mem_append, not_or] at h
    rw [cStrings, b.cString_store h.1, ih h.2, List.map_cons]

/-- The stream gets the text, however it was cut. -/
theorem flatten_cStrings (h : '\x00' ∉ cutText chunks) (b : Buffer) :
    (cStrings b chunks).flatten = cutText chunks := by
  rw [cStrings_eq h, cutText]

/-- `getline` reads the lines of a text. -/
theorem getlines_eq_textLines (text : Str) : Lines.getlines '\n' text = textLines text := by
  rw [textLines, Lines.splitOn_eq_getlines]
  split_ifs with hend hlast hlast
  · rw [List.dropLast_concat]
  · exact absurd List.getLast?_concat hlast
  · rw [not_or] at hend
    rw [List.append_nil] at hlast
    exact absurd hlast (Lines.getLast?_getlines_ne hend.1)
  · rw [List.append_nil]

/-- The lines, each with its newline, are the text, where a line that was not
terminated is. -/
theorem flatMap_textLines (text : Str) : (textLines text).flatMap (· ++ ['\n'])
    = text ++ if text.getLast? = some '\n' ∨ text = [] then [] else ['\n'] := by
  rw [← getlines_eq_textLines]
  exact Lines.flatMap_getlines '\n' text

/-- The captured lines of a command that succeeds are those of the text that it
has written, for every way to cut the text into chunks. -/
theorem Shell.mOutputLines_execCommandReading {sh : Shell} (havail : sh.mShellAvailable = true)
    (hcommand : sh.mCommand ≠ []) (hnull : sh.toDevNull = false) {a : Reads}
    (hpipe : a.pipeOk = true) (hret : a.ret = 0) {text : Str} (hzero : '\x00' ∉ text)
    (hcut : cutText a.chunks = text) :
    (sh.execCommandReading a).1.mOutputLines = textLines text ∧
      (textLines text).flatMap (· ++ ['\n'])
        = text ++ if text.getLast? = some '\n' ∨ text = [] then [] else ['\n'] := by
  subst hcut
  have hlines : (sh.execCommandReading a).1.mOutputLines
      = Lines.getlines '\n' a.answer.chunks.flatten := by
    rw [execCommandReading_eq]
    exact execute_mOutputLines (a := a.answer) havail hcommand hnull hpipe hret
  have htext : a.answer.chunks.flatten = cutText a.chunks := flatten_cStrings hzero a.tbuf
  exact ⟨by rw [hlines, htext, getlines_eq_textLines], flatMap_textLines _⟩

/-- Three lines in three chunks, where one ends before a newline and one inside a
line. -/
theorem Shell.mOutputLines_execCommandReading_three :
    (Shell.execCommandReading ⟨"printf".toList, [], [], [], true, true⟩
        ⟨0, ⟨List.replicate maxBufSize '?', List.length_replicate⟩,
          [⟨"ab".toList, by decide, by decide⟩, ⟨"\n\nc".toList, by decide, by decide⟩,
            ⟨"d".toList, by decide, by decide⟩], true, true⟩).1.mOutputLines
      = textLines "ab\n\ncd".toList ∧
    (textLines "ab\n\ncd".toList).flatMap (· ++ ['\n'])
      = "ab\n\ncd".toList ++ if "ab\n\ncd".toList.getLast? = some '\n' ∨ "ab\n\ncd".toList = []
          then [] else ['\n'] :=
  Shell.mOutputLines_execCommandReading rfl (by decide) rfl rfl rfl (by decide) rfl

end SysFs
