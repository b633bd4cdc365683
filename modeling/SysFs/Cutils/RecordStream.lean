import SysFs.Lib.Frames

/-!
# Records from a stream descriptor

`record_stream_get_next` reads records from a descriptor through one buffer.  A
record is four bytes with its length, most significant byte first, and its
content.  `RecordStream` has the indices of the pointers that the source keeps,
and the proofs that they lie in the buffer in their order.  `ReadAnswer` is what
the kernel answers to a `read`, and `coming` the bytes that the other end still
sends.

`get_next_call` says that a call is one of a reader with a bounded queue
(`Framing.Call`), where the queue is what lies between the two pointers.  What
follows for a whole run:

* `records_run`: for every stream and every way in which it arrives, the records
  given so far are the first ones of the stream.
* `records_run_of_records`: a stream of records that fit is given whole, after a
  bounded number of calls that the kernel does not fail, and nothing is refused.
* `stuck_run`: after a length that does not fit, there is never a record again.
-/

namespace SysFs.Cutils

/-- `HEADER_SIZE`. -/
def headerSize : ℕ := 4

/-- `ntohl` of four bytes in memory. -/
def ntohl : List UInt8 → ℕ
  | [a, b, c, d] => ((a.toNat * 256 + b.toNat) * 256 + c.toNat) * 256 + d.toNat
  | _ => 0

/-- The four bytes in memory of `htonl`. -/
def htonl (n : ℕ) : List UInt8 :=
  [UInt8.ofNat (n / 16777216), UInt8.ofNat (n / 65536), UInt8.ofNat (n / 256), UInt8.ofNat n]

/-- `ys` written over `xs` from the index `i` on. -/
def overwrite (xs : List UInt8) (i : ℕ) (ys : List UInt8) : List UInt8 :=
  xs.take i ++ ys ++ xs.drop (i + ys.length)

theorem length_overwrite {xs ys : List UInt8} {i : ℕ} (h : i + ys.length ≤ xs.length) :
    (overwrite xs i ys).length = xs.length := by
  rw [overwrite, List.length_append, List.length_append, List.length_take, List.length_drop]
  omega

/-- `struct RecordStream`, with indices for the pointers into the buffer.
`buffer_end` is the end of the buffer. -/
structure RecordStream where
  maxRecordLen : ℕ
  buffer : List UInt8
  unconsumed : ℕ
  read_end : ℕ
  length_buffer : buffer.length = maxRecordLen + headerSize
  unconsumed_le : unconsumed ≤ read_end
  read_end_le : read_end ≤ buffer.length

/-- What a call of `record_stream_get_next` gives. -/
inductive Got where
  /-- 0, with a record -/
  | record (content : List UInt8)
  /-- 0, with `*p_outRecord` set to `NULL` -/
  | endOfStream
  /-- -1, with `*p_outRecord` set to `NULL`, and the `errno` of `read` -/
  | readFailed (errno : ℕ)
  /-- -1 with `EAGAIN` -/
  | eagain
  /-- -1 with `EFBIG`, where assertions are compiled out -/
  | efbig
deriving DecidableEq, Repr

/-- What the kernel answers to a `read`. -/
inductive ReadAnswer where
  /-- at most `k + 1` of the bytes to come, and none at the end of the stream -/
  | upTo (k : ℕ)
  | failed (errno : ℕ)
deriving DecidableEq, Repr

namespace RecordStream

/-- `record_stream_new`, where `malloc` gives `memory`. -/
def new (maxRecordLen : ℕ) (memory : List UInt8)
    (h : memory.length = maxRecordLen + headerSize) : RecordStream where
  maxRecordLen := maxRecordLen
  buffer := memory
  unconsumed := 0
  read_end := 0
  length_buffer := h
  unconsumed_le := Nat.le_refl 0
  read_end_le := Nat.zero_le _

variable (rs : RecordStream)

/-- `getEndOfRecord (unconsumed, read_end)`. -/
def getEndOfRecord : Option ℕ :=
  if rs.read_end < rs.unconsumed + headerSize then none
  else
    let len := ntohl ((rs.buffer.drop rs.unconsumed).take headerSize)
    let p_ret := rs.unconsumed + headerSize + len
    if rs.read_end < p_ret then none else some p_ret

theorem getEndOfRecord_le {rs : RecordStream} {record_end : ℕ}
    (h : rs.getEndOfRecord = some record_end) : record_end ≤ rs.read_end := by
  unfold getEndOfRecord at h
  split at h
  · cases h
  dsimp only at h
  split at h
  · cases h
  · rename_i hle
    rw [← Option.some.inj h]
    exact Nat.le_of_not_lt hle

/-- `getNextRecord`: the bytes of the record, and the stream after it. -/
def getNextRecord : Option (List UInt8 × RecordStream) :=
  match h : rs.getEndOfRecord with
  | none => none
  | some record_end =>
    let record_start := rs.unconsumed + headerSize
    some ((rs.buffer.drop record_start).take (record_end - record_start),
      { rs with unconsumed := record_end, unconsumed_le := getEndOfRecord_le h })

/-- The remainder is moved to the beginning of the buffer. -/
def moveRemainder : RecordStream :=
  if rs.unconsumed = 0 then rs
  else
    let toMove := rs.read_end - rs.unconsumed
    let remainder := (rs.buffer.drop rs.unconsumed).take toMove
    have hlen : remainder.length = toMove := by
      rw [List.length_take, List.length_drop]
      have hend := rs.read_end_le
      omega
    have hroom : toMove ≤ rs.buffer.length := Nat.le_trans (Nat.sub_le _ _) rs.read_end_le
    have hsize : (overwrite rs.buffer 0 remainder).length = rs.buffer.length :=
      length_overwrite (by omega)
    { maxRecordLen := rs.maxRecordLen
      buffer := overwrite rs.buffer 0 remainder
      unconsumed := 0
      read_end := toMove
      length_buffer := by rw [hsize, rs.length_buffer]
      unconsumed_le := Nat.zero_le _
      read_end_le := by rw [hsize]; exact hroom }

/-- `read` has put bytes behind `read_end`. -/
def received (got : List UInt8) (h : rs.read_end + got.length ≤ rs.buffer.length) :
    RecordStream where
  maxRecordLen := rs.maxRecordLen
  buffer := overwrite rs.buffer rs.read_end got
  unconsumed := rs.unconsumed
  read_end := rs.read_end + got.length
  length_buffer := by rw [length_overwrite h, rs.length_buffer]
  unconsumed_le := Nat.le_add_right_of_le rs.unconsumed_le
  read_end_le := by rw [length_overwrite h]; exact h

/-- The bytes that one `read` gives, where there is room for `room`. -/
def readBytes (coming : List UInt8) (room k : ℕ) : List UInt8 := coming.take (min (k + 1) room)

theorem length_readBytes_le {coming : List UInt8} {room k : ℕ} :
    (readBytes coming room k).length ≤ room := by
  rw [readBytes, List.length_take]
  omega

/-- `record_stream_get_next` from the call of `read` on. -/
def readNext (coming : List UInt8) (a : ReadAnswer) : Got × RecordStream × List UInt8 :=
  match a with
  | .failed errno => (.readFailed errno, rs, coming)
  | .upTo k =>
    let room := rs.buffer.length - rs.read_end
    let got := readBytes coming room k
    have hroom : rs.read_end + got.length ≤ rs.buffer.length := by
      have hle : got.length ≤ room := length_readBytes_le
      have hend := rs.read_end_le
      omega
    if got.length = 0 then (.endOfStream, rs, coming)
    else
      let rs := rs.received got hroom
      let coming := coming.drop got.length
      match rs.getNextRecord with
      | some (record, rs) => (.record record, rs, coming)
      | none => (.eagain, rs, coming)

/-- `record_stream_get_next`, with the bytes that are still to come after it. -/
def get_next (coming : List UInt8) (a : ReadAnswer) : Got × RecordStream × List UInt8 :=
  match rs.getNextRecord with
  | some (record, rs) => (.record record, rs, coming)
  | none =>
    if rs.unconsumed = 0 ∧ rs.read_end = rs.buffer.length then (.efbig, rs, coming)
    else rs.moveRemainder.readNext coming a

/-- Some calls, one after the other. -/
def run : RecordStream → List UInt8 → List ReadAnswer → List Got × RecordStream × List UInt8
  | rs, coming, [] => ([], rs, coming)
  | rs, coming, a :: as =>
    let next := rs.get_next coming a
    let later := run next.2.1 next.2.2 as
    (next.1 :: later.1, later.2)

/-! ## The buffer as a queue -/

/-- How records are framed. -/
def framing : Framing UInt8 := ⟨headerSize, by decide, ntohl⟩

/-- What lies between the two pointers. -/
def content : List UInt8 := (rs.buffer.drop rs.unconsumed).take (rs.read_end - rs.unconsumed)

variable {rs} {rs' : RecordStream} {r coming coming' : List UInt8} {a : ReadAnswer} {got : Got}

theorem length_content (rs : RecordStream) :
    rs.content.length = rs.read_end - rs.unconsumed := by
  rw [content, List.length_take, List.length_drop]
  have hend := rs.read_end_le
  omega

/-- A part of the buffer between the pointers. -/
theorem take_drop_content {i n : ℕ} (h : rs.unconsumed + i + n ≤ rs.read_end) :
    (rs.content.drop i).take n = (rs.buffer.drop (rs.unconsumed + i)).take n := by
  rw [content, List.drop_take, List.take_take, List.drop_drop, Nat.min_eq_left (by omega)]

theorem header_content (h : rs.unconsumed + headerSize ≤ rs.read_end) :
    rs.content.take headerSize = (rs.buffer.drop rs.unconsumed).take headerSize :=
  take_drop_content (i := 0) h

/-- `getEndOfRecord` finds the end of the first frame. -/
theorem getEndOfRecord_eq (rs : RecordStream) : rs.getEndOfRecord =
    (framing.cut rs.content).map fun first => rs.unconsumed + headerSize + first.1.length := by
  have hle := rs.unconsumed_le
  unfold getEndOfRecord Framing.cut
  rw [length_content]
  by_cases hheader : rs.read_end < rs.unconsumed + headerSize
  · have hshort : rs.read_end - rs.unconsumed < framing.header := by
      show _ < headerSize
      omega
    rw [if_pos hheader, if_pos hshort]
    rfl
  · have hlong : ¬ rs.read_end - rs.unconsumed < framing.header := by
      show ¬ _ < headerSize
      omega
    rw [if_neg hheader, if_neg hlong]
    have hsize : framing.size (rs.content.take framing.header)
        = ntohl ((rs.buffer.drop rs.unconsumed).take headerSize) :=
      congrArg ntohl (header_content (Nat.le_of_not_lt hheader))
    rw [hsize]
    dsimp only
    by_cases hbody : rs.read_end
        < rs.unconsumed + headerSize + ntohl ((rs.buffer.drop rs.unconsumed).take headerSize)
    · have hshort : rs.read_end - rs.unconsumed
          < framing.header + ntohl ((rs.buffer.drop rs.unconsumed).take headerSize) := by
        show _ < headerSize + _
        omega
      rw [if_pos hbody, if_pos hshort]
      rfl
    · have hlong' : ¬ rs.read_end - rs.unconsumed
          < framing.header + ntohl ((rs.buffer.drop rs.unconsumed).take headerSize) := by
        show ¬ _ < headerSize + _
        omega
      rw [if_neg hbody, if_neg hlong', Option.map_some, List.length_take, List.length_drop,
        length_content]
      congr 1
      have hmin : min (ntohl ((rs.buffer.drop rs.unconsumed).take headerSize))
          (rs.read_end - rs.unconsumed - framing.header)
          = ntohl ((rs.buffer.drop rs.unconsumed).take headerSize) := by
        apply Nat.min_eq_left
        show _ ≤ _ - headerSize
        omega
      rw [hmin]

/-- Without a complete frame there is no record. -/
theorem getNextRecord_eq_none_iff : rs.getNextRecord = none ↔ framing.cut rs.content = none := by
  have hend := getEndOfRecord_eq rs
  unfold getNextRecord
  split
  · rename_i hnone
    rw [hnone] at hend
    exact iff_of_true rfl (Option.map_eq_none_iff.1 hend.symm)
  · rename_i record_end hsome
    rw [hsome] at hend
    refine iff_of_false (Option.some_ne_none _) fun hcut => ?_
    rw [hcut] at hend
    cases hend

/-- The record is the first frame, and the queue goes on behind it. -/
theorem cut_content (h : rs.getNextRecord = some (r, rs')) :
    framing.cut rs.content = some (r, rs'.content) ∧ rs'.maxRecordLen = rs.maxRecordLen := by
  have hend := getEndOfRecord_eq rs
  unfold getNextRecord at h
  split at h
  · cases h
  rename_i record_end hsome
  obtain ⟨rfl, rfl⟩ := Prod.mk.inj (Option.some.inj h)
  refine ⟨?_, rfl⟩
  rw [hsome] at hend
  obtain ⟨⟨body, rest⟩, hcut, hrecord⟩ := Option.map_eq_some_iff.1 hend.symm
  have hlen := Framing.length_of_cut hcut
  rw [length_content] at hlen
  have hle := getEndOfRecord_le hsome
  have hheader : framing.header = headerSize := rfl
  obtain ⟨hd, hhd, -, hcontent⟩ := Framing.cut_eq_some_iff.1 hcut
  dsimp only at hrecord hle ⊢
  rw [hcut]
  congr 2
  · have hbody : (rs.content.drop headerSize).take body.length = body := by
      rw [hcontent, List.append_assoc, ← hheader, ← hhd, List.drop_left, List.take_left]
    rw [← hbody, take_drop_content (by omega), ← hrecord, Nat.add_sub_cancel_left]
  · have hrest : rs.content.drop (headerSize + body.length) = rest := by
      rw [hcontent, ← hheader, ← hhd, ← List.length_append, List.drop_left]
    rw [← hrest, content, content, List.drop_take, List.drop_drop]
    dsimp only
    rw [← hrecord]
    congr 1
    · omega
    · rw [Nat.add_assoc]

/-- Moving the remainder does not change the queue. -/
theorem moveRemainder_spec (rs : RecordStream) : rs.moveRemainder.content = rs.content ∧
    rs.moveRemainder.unconsumed = 0 ∧ rs.moveRemainder.maxRecordLen = rs.maxRecordLen := by
  unfold moveRemainder
  split
  · rename_i hzero
    exact ⟨rfl, hzero, rfl⟩
  · refine ⟨?_, rfl, rfl⟩
    have hlen := length_content rs
    show ((overwrite rs.buffer 0 rs.content).drop 0).take (rs.read_end - rs.unconsumed - 0)
      = rs.content
    rw [List.drop_zero, Nat.sub_zero, overwrite, List.take_zero, List.nil_append, ← hlen,
      List.take_left]

/-- What is read comes at the end of the queue. -/
theorem content_received {bytes : List UInt8}
    (h : rs.read_end + bytes.length ≤ rs.buffer.length) :
    (rs.received bytes h).content = rs.content ++ bytes := by
  have hle := rs.unconsumed_le
  have htake : (rs.buffer.take rs.read_end).length = rs.read_end := by
    rw [List.length_take]
    omega
  show ((overwrite rs.buffer rs.read_end bytes).drop rs.unconsumed).take
    (rs.read_end + bytes.length - rs.unconsumed) = rs.content ++ bytes
  have hfront : (rs.buffer.take rs.read_end).drop rs.unconsumed = rs.content := by
    rw [content, List.drop_take]
  have hsplit : (overwrite rs.buffer rs.read_end bytes).drop rs.unconsumed
      = rs.content ++ bytes ++ rs.buffer.drop (rs.read_end + bytes.length) := by
    rw [overwrite, List.append_assoc, List.drop_append_of_le_length (by rw [htake]; exact hle),
      hfront, List.append_assoc]
  have hlen : rs.read_end + bytes.length - rs.unconsumed = (rs.content ++ bytes).length := by
    rw [List.length_append, length_content]
    omega
  rw [hsplit, hlen, List.take_left]

/-! ## One call -/

/-- What a call gives, as an outcome of a reader. -/
def outcome : Got → Framing.Outcome UInt8 ℕ
  | .record r => .frame r
  | .endOfStream => .ended
  | .readFailed errno => .failed errno
  | .eagain => .again
  | .efbig => .tooLarge

/-- A full buffer has no room behind its remainder. -/
theorem full_iff (h : rs.unconsumed ≤ rs.read_end) :
    rs.unconsumed = 0 ∧ rs.read_end = rs.buffer.length ↔
      rs.maxRecordLen + headerSize ≤ rs.content.length := by
  rw [length_content, ← rs.length_buffer]
  have hend := rs.read_end_le
  have hpos : 0 < rs.buffer.length := by
    rw [rs.length_buffer]
    exact Nat.add_pos_right _ (by decide)
  constructor
  · rintro ⟨hzero, hfull⟩
    omega
  · intro hfull
    omega

/-- What a call comes to: it is one of a reader with a queue of
`maxRecordLen + HEADER_SIZE` bytes, it takes what it reads from what is to come,
and it gives the end of the stream only when nothing is to come. -/
def IsCall (rs : RecordStream) (coming : List UInt8) (next : Got × RecordStream × List UInt8) :
    Prop :=
  ∃ bytes, coming = bytes ++ next.2.2 ∧
    framing.Call (rs.maxRecordLen + headerSize) rs.content (outcome next.1) bytes
      next.2.1.content ∧
    next.2.1.maxRecordLen = rs.maxRecordLen ∧ (next.1 = .endOfStream → coming = [])

/-- The bytes of a `read` are taken from the start of what is to come. -/
theorem readBytes_append (coming : List UInt8) (room k : ℕ) :
    readBytes coming room k ++ coming.drop (readBytes coming room k).length = coming :=
  (List.prefix_iff_eq_append.1 (List.take_prefix _ _))

theorem readNext_isCall (coming : List UInt8) (a : ReadAnswer) (hzero : rs.unconsumed = 0)
    (hnone : framing.cut rs.content = none)
    (hroom : rs.content.length < rs.maxRecordLen + headerSize) :
    IsCall rs coming (rs.readNext coming a) := by
  have hlen : rs.read_end = rs.content.length := by
    rw [length_content, hzero, Nat.sub_zero]
  cases a with
  | failed errno => exact ⟨[], rfl, .failed errno hnone hroom, rfl, fun h => nomatch h⟩
  | upTo k =>
    unfold readNext
    dsimp only
    have hle : (readBytes coming (rs.buffer.length - rs.read_end) k).length
        ≤ rs.buffer.length - rs.read_end := length_readBytes_le
    have hsplit := readBytes_append coming (rs.buffer.length - rs.read_end) k
    have hspace : rs.content.length
        + (readBytes coming (rs.buffer.length - rs.read_end) k).length
        ≤ rs.maxRecordLen + headerSize := by
      rw [rs.length_buffer] at hle ⊢
      omega
    split
    · -- `read` gives nothing although there is room, so nothing is to come
      rename_i hempty
      refine ⟨[], rfl, .ended hnone hroom, rfl, fun _ => ?_⟩
      rw [readBytes, List.length_take, rs.length_buffer, hlen] at hempty
      apply List.length_eq_zero_iff.1
      omega
    · rename_i hne
      have hgot : readBytes coming (rs.buffer.length - rs.read_end) k ≠ [] :=
        fun hnil => hne (List.length_eq_zero_iff.2 hnil)
      split
      · rename_i record rs₁ hrecord
        obtain ⟨hcut, hmax⟩ := cut_content hrecord
        rw [content_received] at hcut
        exact ⟨_, hsplit.symm, .completed hnone hgot hspace hcut, hmax, fun h => nomatch h⟩
      · rename_i hrecord
        have hcut := getNextRecord_eq_none_iff.1 hrecord
        rw [content_received] at hcut
        refine ⟨_, hsplit.symm, ?_, rfl, fun h => nomatch h⟩
        rw [content_received]
        exact .again hnone hgot hspace hcut

theorem get_next_isCall (rs : RecordStream) (coming : List UInt8) (a : ReadAnswer) :
    IsCall rs coming (rs.get_next coming a) := by
  unfold get_next
  split
  · rename_i record rs₁ hrecord
    obtain ⟨hcut, hmax⟩ := cut_content hrecord
    exact ⟨[], rfl, .ready hcut, hmax, fun h => nomatch h⟩
  rename_i hrecord
  have hnone := getNextRecord_eq_none_iff.1 hrecord
  have hfull := full_iff rs.unconsumed_le
  split
  · rename_i hcond
    exact ⟨[], rfl, .tooLarge hnone (hfull.1 hcond), rfl, fun h => nomatch h⟩
  · rename_i hcond
    have hroom : rs.content.length < rs.maxRecordLen + headerSize := by
      rw [← Nat.not_le]
      exact fun hle => hcond (hfull.2 hle)
    obtain ⟨hcontent, hzero, hmax⟩ := moveRemainder_spec rs
    have hcall := readNext_isCall coming a hzero (by rw [hcontent]; exact hnone)
      (by rw [hcontent, hmax]; exact hroom)
    unfold IsCall at hcall ⊢
    rwa [hcontent, hmax] at hcall

/-! ## Runs -/

/-- The records that some calls have given. -/
def records (gots : List Got) : List (List UInt8) :=
  (gots.map outcome).filterMap Framing.Outcome.given

/-- A run is one of a reader with a bounded queue. -/
theorem run_calls (as : List ReadAnswer) : ∀ (rs : RecordStream) (coming : List UInt8),
    ∃ bytes, coming = bytes ++ (rs.run coming as).2.2 ∧
      framing.Calls (rs.maxRecordLen + headerSize) rs.content ((rs.run coming as).1.map outcome)
        bytes (rs.run coming as).2.1.content ∧
      (rs.run coming as).2.1.maxRecordLen = rs.maxRecordLen := by
  induction as with
  | nil =>
    intro rs coming
    exact ⟨[], rfl, .nil rs.content, rfl⟩
  | cons a as ih =>
    intro rs coming
    obtain ⟨bytes, hcoming, hcall, hmax, -⟩ := get_next_isCall rs coming a
    obtain ⟨bytes', hcoming', hcalls, hmax'⟩ :=
      ih (rs.get_next coming a).2.1 (rs.get_next coming a).2.2
    rw [hmax] at hcalls hmax'
    refine ⟨bytes ++ bytes', ?_, .cons hcall hcalls, hmax'⟩
    rw [List.append_assoc]
    nth_rewrite 1 [hcoming, hcoming']
    rfl

variable {maxRecordLen : ℕ} {memory stream : List UInt8}
  {hmemory : memory.length = maxRecordLen + headerSize} {as : List ReadAnswer} {gots : List Got}

/-- A run from the start is one of a reader with an empty queue. -/
theorem calls_of_run (hrun : (new maxRecordLen memory hmemory).run stream as = (gots, rs', coming')) :
    ∃ bytes, stream = bytes ++ coming' ∧
      framing.Calls (maxRecordLen + headerSize) [] (gots.map outcome) bytes rs'.content ∧
      rs'.maxRecordLen = maxRecordLen := by
  obtain ⟨bytes, hstream, hcalls, hmax⟩ := run_calls as (new maxRecordLen memory hmemory) stream
  rw [hrun] at hstream hcalls hmax
  exact ⟨bytes, hstream, hcalls, hmax⟩

/-- The stream begins with the records of a run, and goes on with what is in the
buffer and what is still to come. -/
theorem begins_of_run
    (hrun : (new maxRecordLen memory hmemory).run stream as = (gots, rs', coming')) :
    framing.Begins stream (records gots) (rs'.content ++ coming') := by
  obtain ⟨bytes, rfl, hcalls, -⟩ := calls_of_run hrun
  exact hcalls.begins coming'

theorem run_append (rs : RecordStream) (coming : List UInt8) (as bs : List ReadAnswer) :
    rs.run coming (as ++ bs) = ((rs.run coming as).1
        ++ ((rs.run coming as).2.1.run (rs.run coming as).2.2 bs).1,
      ((rs.run coming as).2.1.run (rs.run coming as).2.2 bs).2) := by
  induction as generalizing rs coming with
  | nil => rfl
  | cons a as ih =>
    rw [List.cons_append, run, ih]
    rfl

theorem length_run (rs : RecordStream) (coming : List UInt8) (as : List ReadAnswer) :
    (rs.run coming as).1.length = as.length := by
  induction as generalizing rs coming with
  | nil => rfl
  | cons a as ih => exact congrArg (· + 1) (ih _ _)

/-- What a run gives is given by one of its calls. -/
theorem exists_call_of_mem {g : Got} {as : List ReadAnswer} (h : g ∈ (rs.run coming as).1) :
    ∃ before a after, as = before ++ a :: after ∧
      ((rs.run coming before).2.1.get_next (rs.run coming before).2.2 a).1 = g := by
  induction as generalizing rs coming with
  | nil => exact absurd h List.not_mem_nil
  | cons a as ih =>
    rcases List.mem_cons.1 h with rfl | hlater
    · exact ⟨[], a, as, rfl, rfl⟩
    · obtain ⟨before, a', after, rfl, hg⟩ := ih hlater
      exact ⟨a :: before, a', after, rfl, hg⟩

/-- A `read` that is not failed does not fail. -/
theorem readFailed_notMem {as : List ReadAnswer} (has : ∀ a ∈ as, ∃ k, a = .upTo k) (errno : ℕ) :
    .readFailed errno ∉ (rs.run coming as).1 := by
  intro hmem
  obtain ⟨before, a, after, rfl, hg⟩ := exists_call_of_mem hmem
  obtain ⟨k, rfl⟩ := has a (List.mem_append_right _ List.mem_cons_self)
  unfold get_next at hg
  split at hg
  · cases hg
  split at hg
  · cases hg
  unfold readNext at hg
  dsimp only at hg
  split at hg
  · cases hg
  split at hg <;> cases hg

/-! ## Records that were written -/

/-- A record as it is sent. -/
def encode (r : List UInt8) : List UInt8 := htonl r.length ++ r

theorem ntohl_htonl {n : ℕ} (h : n < 4294967296) : ntohl (htonl n) = n := by
  simp only [htonl, ntohl, UInt8.toNat_ofNat']
  omega

theorem cut_encode {r : List UInt8} (h : r.length < 4294967296) (rest : List UInt8) :
    framing.cut (encode r ++ rest) = some (r, rest) :=
  Framing.cut_eq_some_iff.2 ⟨htonl r.length, rfl, ntohl_htonl h, rfl⟩

/-- The records given are the first ones of the stream, and the others are cut from
what is in the buffer and what is still to come. -/
theorem records_run
    (hrun : (new maxRecordLen memory hmemory).run stream as = (gots, rs', coming')) :
    framing.frames stream = (records gots ++ (framing.frames (rs'.content ++ coming')).1,
      (framing.frames (rs'.content ++ coming')).2) :=
  (begins_of_run hrun).frames

/-- A record in two pieces, and a part of the next length. -/
theorem records_run_pieces :
    (framing.frames [0, 0, 0, 2, 7, 8, 0, 0]).1 = records ((new 2 (List.replicate 6 0) rfl).run
        [0, 0, 0, 2, 7, 8, 0, 0] [.upTo 4, .upTo 0]).1
      ++ (framing.frames (((new 2 (List.replicate 6 0) rfl).run
          [0, 0, 0, 2, 7, 8, 0, 0] [.upTo 4, .upTo 0]).2.1.content ++ [0, 0])).1 :=
  congrArg Prod.fst (records_run rfl)

/-- Before a call that gives `g`, the run was one of its own. -/
theorem exists_run_of_mem {g : Got}
    (hrun : (new maxRecordLen memory hmemory).run stream as = (gots, rs', coming'))
    (hg : g ∈ gots) : ∃ (before after : List Got) (rs₁ : RecordStream) (coming₁ : List UInt8)
      (as₁ : List ReadAnswer) (a : ReadAnswer), gots = before ++ g :: after ∧
        (new maxRecordLen memory hmemory).run stream as₁ = (before, rs₁, coming₁) ∧
        (rs₁.get_next coming₁ a).1 = g := by
  have hmem : g ∈ ((new maxRecordLen memory hmemory).run stream as).1 := by
    rw [hrun]
    exact hg
  obtain ⟨as₁, a, as₂, rfl, hfirst⟩ := exists_call_of_mem hmem
  rw [run_append, run] at hrun
  obtain ⟨rfl, -⟩ := Prod.mk.inj hrun
  exact ⟨_, _, _, _, as₁, a, by rw [← hfirst], rfl, hfirst⟩

/-- With answers that do not fail, enough calls come to the end of the stream, or
to a record that is too large. -/
theorem ended_of_run
    (hrun : (new maxRecordLen memory hmemory).run stream as = (gots, rs', coming'))
    (has : ∀ a ∈ as, ∃ k, a = .upTo k) (hlen : 2 * stream.length < as.length) :
    .endOfStream ∈ gots ∨ .efbig ∈ gots := by
  obtain ⟨bytes, rfl, hcalls, -⟩ := calls_of_run hrun
  by_contra hnone
  rw [not_or] at hnone
  have hgoes : ∀ out ∈ gots.map outcome, out.goesOn = true := by
    intro out hout
    obtain ⟨g, hg, rfl⟩ := List.mem_map.1 hout
    cases g with
    | record r => rfl
    | endOfStream => exact absurd hg hnone.1
    | readFailed errno =>
      have hfail : .readFailed errno
          ∉ ((new maxRecordLen memory hmemory).run (bytes ++ coming') as).1 :=
        readFailed_notMem has errno
      rw [hrun] at hfail
      exact absurd hg hfail
    | eagain => rfl
    | efbig => exact absurd hg hnone.2
  have hcount : gots.length = as.length := by
    rw [← length_run (new maxRecordLen memory hmemory) (bytes ++ coming') as, hrun]
  have hle := hcalls.length_outs_le hgoes
  rw [List.length_map, hcount, List.length_nil] at hle
  rw [List.length_append] at hlen
  omega

/-- At the end of the stream nothing is to come, and there is room in the buffer. -/
theorem endOfStream_spec {rs : RecordStream} {coming : List UInt8} {a : ReadAnswer}
    (h : (rs.get_next coming a).1 = .endOfStream) : coming = [] ∧
      framing.cut rs.content = none ∧ rs.content.length < rs.maxRecordLen + headerSize := by
  obtain ⟨bytes, -, hcall, -, hended⟩ := get_next_isCall rs coming a
  rw [h] at hcall
  generalize (rs.get_next coming a).2.1.content = q' at hcall
  cases hcall with
  | ended hcut hroom => exact ⟨hended h, hcut, hroom⟩

/-- `EFBIG` means that the buffer starts with a length that does not fit. -/
theorem efbig_spec {rs : RecordStream} {coming : List UInt8} {a : ReadAnswer}
    (h : (rs.get_next coming a).1 = .efbig) :
    framing.Oversized (rs.maxRecordLen + headerSize) rs.content := by
  obtain ⟨bytes, -, hcall, -⟩ := get_next_isCall rs coming a
  rw [h] at hcall
  exact hcall.oversized (Nat.le_add_left _ _)

theorem records_append (before after : List Got) (g : Got) :
    records (before ++ g :: after)
      = records before ++ ((outcome g).given.toList ++ records after) := by
  rw [records, List.map_append, List.map_cons, List.filterMap_append, List.filterMap_cons]
  cases (outcome g).given <;> rfl

/-- At the end of the stream all complete records have been given. -/
theorem records_of_endOfStream
    (hrun : (new maxRecordLen memory hmemory).run stream as = (gots, rs', coming'))
    (hmem : .endOfStream ∈ gots) : records gots = (framing.frames stream).1 := by
  obtain ⟨before, after, rs₁, coming₁, as₁, a, rfl, hbefore, hg⟩ := exists_run_of_mem hrun hmem
  obtain ⟨rfl, hcut, -⟩ := endOfStream_spec hg
  have hall : (framing.frames stream).1 = records before := by
    rw [records_run hbefore, List.append_nil, Framing.frames_of_none hcut, List.append_nil]
  have hgiven := congrArg Prod.fst (records_run hrun)
  rw [hall, records_append, List.append_assoc] at hgiven
  have hafter := List.self_eq_append_right.1 hgiven
  rw [hall, records_append, (List.append_eq_nil_iff.1 hafter).1, List.append_nil]

/-! ## Whole streams -/

variable {rs : List (List UInt8)} {tail : List UInt8}

theorem begins_encode (hrs : ∀ r ∈ rs, r.length < 4294967296) (tail : List UInt8) :
    framing.Begins (rs.flatMap encode ++ tail) rs tail :=
  Framing.begins_flatMap (fun r hr => cut_encode (hrs r hr)) tail

/-- A buffer whose first length does not fit is not the start of a record that
does. -/
theorem not_oversized_of_begins {q more r : List UInt8}
    (hover : framing.Oversized (maxRecordLen + headerSize) q)
    (hbegins : framing.Begins (q ++ more) (r :: rs) tail) : ¬ r.length ≤ maxRecordLen := by
  intro hle
  cases hbegins with
  | cons hcut hlater =>
    obtain ⟨hd, hlen, hsize, hq⟩ := Framing.cut_eq_some_iff.1 hcut
    have hheader : q.take framing.header = hd := by
      have htake := congrArg (List.take framing.header) hq
      rwa [List.take_append_of_le_length hover.1, List.append_assoc, ← hlen, List.take_left,
        hlen] at htake
    have hlarge := hover.2
    rw [hheader, hsize] at hlarge
    have hfour : framing.header = headerSize := rfl
    omega

/-- When `EFBIG` is given, the records that fit have all been given. -/
theorem records_of_efbig (hbegins : framing.Begins stream rs tail)
    (hfit : ∀ r ∈ rs, r.length ≤ maxRecordLen)
    (hrun : (new maxRecordLen memory hmemory).run stream as = (gots, rs', coming'))
    (hmem : .efbig ∈ gots) : rs <+: records gots ∧ tail ≠ [] := by
  obtain ⟨before, after, rs₁, coming₁, as₁, a, rfl, hbefore, hg⟩ := exists_run_of_mem hrun hmem
  obtain ⟨-, -, -, hmax⟩ := calls_of_run hbefore
  have hover := efbig_spec hg
  rw [hmax] at hover
  rcases (begins_of_run hbefore).prefix_or hbegins with ⟨ts, rfl, hts⟩ | ⟨t, ts, hrecords, hts⟩
  · cases ts with
    | nil =>
      refine ⟨?_, fun hnil => ?_⟩
      · rw [records_append, List.append_nil]
        exact List.prefix_append _ _
      · have hempty := hover.1
        rw [hnil] at hts
        rw [(List.append_eq_nil_iff.1 hts.eq_of_nil).1] at hempty
        exact absurd hempty (by decide)
    | cons t ts =>
      have ht : t ∈ records before ++ t :: ts := List.mem_append_right _ List.mem_cons_self
      exact absurd (hfit t ht) (not_oversized_of_begins hover hts)
  · refine ⟨?_, fun hnil => ?_⟩
    · rw [records_append, hrecords, List.append_assoc]
      exact List.prefix_append _ _
    · rw [hnil] at hts
      have hnone := hts.eq_nil Framing.cut_nil
      cases hnone

/-- A stream of records that fit is given in order and whole, and no record is
refused: at the end of the stream all have been given, and the end is reached when
the kernel does not fail. -/
theorem run_delivers {rs' : RecordStream} (hfit : ∀ r ∈ rs, r.length ≤ maxRecordLen)
    (hlen : ∀ r ∈ rs, r.length < 4294967296)
    (hrun : (new maxRecordLen memory hmemory).run (rs.flatMap encode) as = (gots, rs', coming')) :
    records gots <+: rs ∧ .efbig ∉ gots ∧ (.endOfStream ∈ gots → records gots = rs) ∧
      ((∀ a ∈ as, ∃ k, a = .upTo k) → 2 * (rs.flatMap encode).length < as.length →
        .endOfStream ∈ gots) := by
  have hbegins := begins_encode hlen []
  rw [List.append_nil] at hbegins
  have hframes : (framing.frames (rs.flatMap encode)).1 = rs := by
    rw [hbegins.frames, Framing.frames_of_none Framing.cut_nil, List.append_nil]
  have hefbig : .efbig ∉ gots := fun hmem => (records_of_efbig hbegins hfit hrun hmem).2 rfl
  refine ⟨?_, hefbig, fun hmem => ?_, fun has hcount => ?_⟩
  · have hgiven := congrArg Prod.fst (records_run hrun)
    rw [hframes] at hgiven
    exact ⟨_, hgiven.symm⟩
  · rw [records_of_endOfStream hrun hmem, hframes]
  · rcases ended_of_run hrun has hcount with h | h
    · exact h
    · exact absurd h hefbig

/-- Two records of which the first comes in two pieces. -/
theorem run_delivers_pieces :
    records ((new 2 (List.replicate 6 0) rfl).run ([[7, 8], [9]].flatMap encode)
      [.upTo 4, .upTo 1, .upTo 1, .upTo 1, .upTo 9, .upTo 9]).1 = [[7, 8], [9]] :=
  (run_delivers (by decide) (by decide) rfl).2.2.1 (by decide)

/-- A length that does not fit blocks the stream: nothing from there on is ever
given as a record.  When so much follows that the buffer gets full, the end of the
stream is never reported, and `EFBIG` is, once all records before it have been
given. -/
theorem run_blocked {rs' : RecordStream} {n : ℕ} (hfit : ∀ r ∈ rs, r.length ≤ maxRecordLen)
    (hlen : ∀ r ∈ rs, r.length < 4294967296) (hn : maxRecordLen < n) (hword : n < 4294967296)
    (hrun : (new maxRecordLen memory hmemory).run (rs.flatMap encode ++ (htonl n ++ tail)) as
      = (gots, rs', coming')) :
    records gots <+: rs ∧ (.efbig ∈ gots → records gots = rs) ∧
      (maxRecordLen ≤ tail.length → .endOfStream ∉ gots ∧
        ((∀ a ∈ as, ∃ k, a = .upTo k) →
          2 * (rs.flatMap encode ++ (htonl n ++ tail)).length < as.length → .efbig ∈ gots)) := by
  have hbegins := begins_encode hlen (htonl n ++ tail)
  have hover : framing.Oversized (maxRecordLen + headerSize) (htonl n ++ tail) := by
    refine ⟨?_, ?_⟩
    · rw [List.length_append]
      exact Nat.le_add_right headerSize tail.length
    show _ < headerSize + ntohl (htonl n)
    rw [ntohl_htonl hword]
    omega
  have hbegin : ∀ {gots : List Got} {rs₁ : RecordStream} {coming₁ : List UInt8}
      {as₁ : List ReadAnswer},
      (new maxRecordLen memory hmemory).run (rs.flatMap encode ++ (htonl n ++ tail)) as₁
        = (gots, rs₁, coming₁) → records gots <+: rs := by
    intro gots rs₁ coming₁ as₁ hrun
    obtain ⟨bytes, hstream, hcalls, -⟩ := calls_of_run hrun
    rw [hstream] at hbegins
    exact hcalls.given_begins (Nat.zero_le _) hbegins hover
  refine ⟨hbegin hrun, fun hmem => ?_, fun htail => ?_⟩
  · exact (hbegin hrun).eq_of_length_le (records_of_efbig hbegins hfit hrun hmem).1.length_le
  have hend : .endOfStream ∉ gots := by
    intro hmem
    obtain ⟨before, after, rs₁, coming₁, as₁, a, rfl, hbefore, hg⟩ := exists_run_of_mem hrun hmem
    obtain ⟨rfl, -, hroom⟩ := endOfStream_spec hg
    obtain ⟨-, -, -, hmax⟩ := calls_of_run hbefore
    rcases (begins_of_run hbefore).prefix_or hbegins with ⟨ts, -, hts⟩ | ⟨t, ts, hmore, -⟩
    · have hle := hts.length_le
      have hfour : (htonl n).length = headerSize := rfl
      rw [List.append_nil, List.length_append, hfour] at hle
      rw [hmax] at hroom
      omega
    · have hle := (hbegin hbefore).length_le
      rw [hmore, List.length_append, List.length_cons] at hle
      omega
  refine ⟨hend, fun has hcount => ?_⟩
  rcases ended_of_run hrun has hcount with h | h
  · exact absurd h hend
  · exact h

/-- A record that fits, and one that is a byte too large. -/
theorem run_blocked_three :
    records ((new 2 (List.replicate 6 0) rfl).run
      ([[7, 8]].flatMap encode ++ (htonl 3 ++ [1, 2, 3])) [.upTo 9, .upTo 9, .upTo 9, .upTo 9]).1
        = [[7, 8]] :=
  (run_blocked (by decide) (by decide) (by decide) (by decide) rfl).2.1 (by decide)

end RecordStream

end SysFs.Cutils
