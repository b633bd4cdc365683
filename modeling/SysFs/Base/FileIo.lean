import SysFs.Lib.Calls
import SysFs.Lib.Partial
import SysFs.Path

/-!
# Reading and writing whole files

The functions of `file.cpp` that move a whole text through a descriptor, and those
that read or write the file of a path.  What the system makes of the single calls of
`read` and `write` is a list of replies (`Partial.Reply`); a function that has used
them up is still running.

* `readFullyAtOffset_eq`: reading at an offset is reading what is there from the
  offset on.
* `ReadFully_WriteFully`: what is written in some parts and read in others is the same.
* `readFile_writeFile`: a regular file that was written is read back, however the calls
  cut the text and are interrupted, and no other entry has changed.
* `writeFile_failed`: when writing fails, the entry of the path is gone, unless the
  system refuses that.  When this entry is a link, the file that it leads to stays,
  with a part of the text.
-/

namespace SysFs.Base

open Posix Partial

/-- `EINTR`. -/
def EINTR : ℕ := 4

/-- `TEMP_FAILURE_RETRY` does the call again. -/
def tempFailure (errno : ℕ) : Bool := errno == EINTR

/-- `BUFSIZ`. -/
def BUFSIZ : ℕ := 8192

/-- What a function returns, if it does. -/
def Ending.result : Ending → Option Bool
  | .running => none
  | .complete => some true
  | .failed _ => some false
  | .ended => some false

/-! ## Descriptors -/

section Descriptors

variable {α : Type*}

/-- `WriteStringToFd`: what was written. -/
def WriteStringToFd (content : List α) (replies : List Reply) : List α × Ending :=
  writeAll tempFailure content replies

/-- `WriteFully`. -/
def WriteFully (data : List α) (replies : List Reply) : List α × Ending :=
  writeAll tempFailure data replies

/-- `ReadFully`, of a descriptor that gives `src`. -/
def ReadFully (src : List α) (byte_count : ℕ) (replies : List Reply) : List α × Ending :=
  readExactly tempFailure byte_count src replies

/-- `ReadFdToString`. -/
def ReadFdToString (src : List α) (replies : List Reply) : List α × Ending :=
  readToEnd tempFailure BUFSIZ src replies

/-- `ReadFullyAtOffset`, of a file. -/
def ReadFullyAtOffset (file : List α) : ℕ → ℕ → List Reply → List α × Ending
  | 0, _, _ => ([], .complete)
  | _ + 1, _, [] => ([], .running)
  | byte_count + 1, offset, a :: replies =>
    match readCall (byte_count + 1) (file.drop offset) a with
    | .error errno =>
      if tempFailure errno then ReadFullyAtOffset file (byte_count + 1) offset replies
      else ([], .failed errno)
    | .ok [] => ([], .ended)
    | .ok (c :: chunk) =>
      let n := (c :: chunk).length
      let r := ReadFullyAtOffset file (byte_count + 1 - n) (offset + n) replies
      (c :: chunk ++ r.1, r.2)

/-- Reading at an offset is reading what is there from the offset on. -/
theorem readFullyAtOffset_eq (file : List α) (byte_count offset : ℕ) (replies : List Reply) :
    ReadFullyAtOffset file byte_count offset replies
      = ReadFully (file.drop offset) byte_count replies := by
  unfold ReadFully
  induction replies generalizing byte_count offset with
  | nil => cases byte_count <;> rfl
  | cons a replies ih =>
    cases byte_count with
    | zero => rfl
    | succ byte_count =>
      rw [ReadFullyAtOffset, readExactly]
      cases readCall (byte_count + 1) (file.drop offset) a with
      | error errno => simp only [ih]
      | ok chunk =>
        cases chunk with
        | nil => rfl
        | cons c chunk =>
          dsimp only
          rw [ih, List.drop_drop]

/-- What `WriteFully` wrote in some parts, `ReadFully` reads in others. -/
theorem ReadFully_WriteFully {data : List α} {replies replies' : List Reply} (more : List α)
    (hwrite : ∀ a ∈ replies, ∃ n, a = .moved n ∧ 0 < n) (hwrites : data.length ≤ replies.length)
    (hread : ∀ a ∈ replies', ∃ n, a = .moved n) (hreads : data.length ≤ replies'.length) :
    ReadFully ((WriteFully data replies).1 ++ more) data.length replies' = (data, .complete) :=
  readExactly_writeAll more hwrite hwrites hread hreads

end Descriptors

/-! ## Files -/

/-- What the system makes of the calls for one file: whether it lets the file be opened,
and the calls for the open file. -/
structure FileAnswers where
  opens : Bool
  fchmod : Bool
  fchown : Bool
  calls : List Reply
deriving DecidableEq, Repr

variable (sys : System)

/-- The entry that the path names is a link, which `O_NOFOLLOW` refuses. -/
def namesLink (w : World) (path : Str) : Bool :=
  match (w.entry path).bind w.tree.kindAt with
  | some (.symlink _) => true
  | _ => false

/-- The file `l` has the text, if it is one that keeps what is written. -/
def store (w : World) (l : Loc) (content : Str) : World :=
  if w.tree.kindAt l = some .regular then System.write w l content else w

/-- `fchmod`. -/
def setMode (w : World) (l : Loc) (mode : ℕ) : World :=
  match hv : w.tree.get l with
  | none => w
  | some v =>
    ⟨w.tree.update l ⟨v.kind, mode &&& 0o7777, v.content, v.ino⟩ ⟨v, hv, rfl, rfl⟩, w.cwd, w.clock⟩

/-- `open` with `O_WRONLY | O_CREAT | O_TRUNC`. -/
def openForWrite (w : World) (path : Str) (mode : ℕ) (follow_symlinks opens : Bool) :
    Option (Loc × World) :=
  if !opens || !follow_symlinks && namesLink w path then none
  else (sys.creat w path mode).map fun r => (r.1, store r.2 r.1 [])

/-- `CleanUpAfterFailedWrite`. -/
def CleanUpAfterFailedWrite (w : World) (path : Str) : Option Bool × World :=
  (some false, (sys.unlink w path).getD w)

/-- The end of both functions that write a file. -/
def writeOpened (w : World) (l : Loc) (content path : Str) (calls : List Reply) :
    Option Bool × World :=
  match WriteStringToFd content calls with
  | (written, .complete) => (some true, store w l written)
  | (written, .running) => (none, store w l written)
  | (written, _) => CleanUpAfterFailedWrite sys (store w l written) path

/-- `WriteStringToFile` without a mode. -/
def WriteStringToFile (w : World) (content path : Str) (follow_symlinks : Bool)
    (answers : FileAnswers) : Option Bool × World :=
  match openForWrite sys w path 0o666 follow_symlinks answers.opens with
  | none => (some false, w)
  | some (l, w) => writeOpened sys w l content path answers.calls

/-- `WriteStringToFile` with a mode and an owner. -/
def WriteStringToFileAs (w : World) (content path : Str) (mode : ℕ) (follow_symlinks : Bool)
    (answers : FileAnswers) : Option Bool × World :=
  match openForWrite sys w path mode follow_symlinks answers.opens with
  | none => (some false, w)
  | some (l, w) =>
    if answers.fchmod then
      if answers.fchown then writeOpened sys (setMode w l mode) l content path answers.calls
      else CleanUpAfterFailedWrite sys (setMode w l mode) path
    else CleanUpAfterFailedWrite sys w path

/-- `ReadFileToString`: what it returns, and the text.  The system may refuse to open
(`opens`).  A directory can be opened, but not read, and so can be what is no regular
file here. -/
def ReadFileToString (w : World) (path : Str) (follow_symlinks opens : Bool)
    (calls : List Reply) : Option Bool × Str :=
  if !opens || !follow_symlinks && namesLink w path then (some false, [])
  else
    match w.stat path with
    | none => (some false, [])
    | some v =>
      if v.kind = .regular then
        let r := ReadFdToString v.content calls
        (Ending.result r.2, r.1)
      else (some false, [])

/-! ## The same places -/

/-- Two worlds that differ in what is in the file `l`. -/
structure SamePlaces (w w' : World) (l : Loc) : Prop where
  cwd : w'.cwd = w.cwd
  clock : w'.clock = w.clock
  same : ∀ x, x ≠ l → w'.tree.get x = w.tree.get x
  kind : ∀ x, w'.tree.kindAt x = w.tree.kindAt x

variable {sys} {w w' w'' : World} {l : Loc} {path content : Str} {mode : ℕ}

namespace SamePlaces

theorem refl (w : World) (l : Loc) : SamePlaces w w l := ⟨rfl, rfl, fun _ _ => rfl, fun _ => rfl⟩

theorem symm (h : SamePlaces w w' l) : SamePlaces w' w l where
  cwd := h.cwd.symm
  clock := h.clock.symm
  same x hx := (h.same x hx).symm
  kind x := (h.kind x).symm

theorem trans (h : SamePlaces w w' l) (h' : SamePlaces w' w'' l) : SamePlaces w w'' l where
  cwd := h'.cwd.trans h.cwd
  clock := h'.clock.trans h.clock
  same x hx := (h'.same x hx).trans (h.same x hx)
  kind x := (h'.kind x).trans (h.kind x)

theorem lookup (h : SamePlaces w w' l) {m : Loc} (hm : w.lookup path = some m) :
    w'.lookup path = some m := by
  obtain ⟨hne, seen, hw⟩ := World.lookup_eq_some_iff.1 hm
  have hstart : w'.start path = w.start path := by rw [World.start, World.start, h.cwd]
  exact World.lookup_eq_some_iff.2 ⟨hne, seen, hstart ▸ hw.frame fun x _ => h.kind x⟩

theorem entry (h : SamePlaces w w' l) {e : Loc} (he : w.entry path = some e) :
    w'.entry path = some e := by
  obtain ⟨ws, n, q, seen, hcs, rfl, hdir, hw⟩ := entryAt_eq_some_iff.1 he
  have hstart : w'.start path = w.start path := by rw [World.start, World.start, h.cwd]
  exact entryAt_eq_some_iff.2 ⟨ws, n, q, seen, hcs, rfl, (h.kind q).trans hdir,
    hstart ▸ hw.frame fun x _ => h.kind x⟩

end SamePlaces

theorem samePlaces_store (w : World) (l : Loc) (content : Str) :
    SamePlaces w (store w l content) l := by
  unfold store System.write
  split
  · split
    · exact SamePlaces.refl w l
    · rename_i v hv
      refine ⟨rfl, rfl, fun x hx => if_neg hx, fun x => ?_⟩
      exact FileTree.kindAt_update (v := ⟨v.kind, v.mode, content, v.ino⟩) ⟨v, hv, rfl, rfl⟩
  · exact SamePlaces.refl w l

theorem samePlaces_setMode (w : World) (l : Loc) (mode : ℕ) :
    SamePlaces w (setMode w l mode) l := by
  unfold setMode
  split
  · exact SamePlaces.refl w l
  · rename_i v hv
    refine ⟨rfl, rfl, fun x hx => if_neg hx, fun x => ?_⟩
    exact FileTree.kindAt_update (v := ⟨v.kind, mode &&& 0o7777, v.content, v.ino⟩)
      ⟨v, hv, rfl, rfl⟩

/-- The text of a regular file. -/
theorem content_store (h : w.tree.kindAt l = some .regular) (content : Str) :
    ((store w l content).tree.get l).map Node.content = some content := by
  rw [store, if_pos h, System.write]
  split
  · rename_i hnone
    rw [FileTree.kindAt_eq_none.2 hnone] at h
    cases h
  · rw [FileTree.get_update, if_pos rfl]
    rfl

/-- `fchmod` leaves the text alone. -/
theorem content_setMode (w : World) (l : Loc) (mode : ℕ) :
    ((setMode w l mode).tree.get l).map Node.content = (w.tree.get l).map Node.content := by
  unfold setMode
  split
  · rfl
  · rename_i v hv
    rw [FileTree.get_update, if_pos rfl, hv]
    rfl

/-! ## Opening -/

/-- `creat` changes only the file. -/
theorem creat_get (h : sys.creat w path mode = some (l, w')) {x : Loc} (hx : x ≠ l) :
    w'.tree.get x = w.tree.get x := by
  unfold System.creat at h
  split at h
  · cases h
  · split at h
    · cases h
    · split at h
      · cases h
      · obtain ⟨rfl, rfl⟩ := Prod.mk.inj (Option.some.inj h)
        rfl
      · obtain ⟨w₁, hchange, hpair⟩ := Option.map_eq_some_iff.1 h
        obtain ⟨rfl, rfl⟩ := Prod.mk.inj hpair
        obtain ⟨-, t', hadd, rfl⟩ := System.change_eq_some_iff.1 hchange
        rw [System.changed_tree, (FileTree.add_spec hadd).2.2.2.2, if_neg hx]

/-- `creat` is one change at most. -/
theorem creat_clock (h : sys.creat w path mode = some (l, w')) :
    w.clock ≤ w'.clock ∧ w'.clock ≤ w.clock + 1 := by
  unfold System.creat at h
  split at h
  · cases h
  · split at h
    · cases h
    · split at h
      · cases h
      · obtain ⟨rfl, rfl⟩ := Prod.mk.inj (Option.some.inj h)
        omega
      · obtain ⟨w₁, hchange, hpair⟩ := Option.map_eq_some_iff.1 h
        obtain ⟨rfl, rfl⟩ := Prod.mk.inj hpair
        obtain ⟨-, t', -, rfl⟩ := System.change_eq_some_iff.1 hchange
        show w.clock ≤ w.clock + 1 ∧ w.clock + 1 ≤ w.clock + 1
        omega

/-- A path that leads to a file has an entry: the file, or a link. -/
theorem entry_of_file (h : w.lookup path = some l) (hfile : ¬ w.tree.IsDir l) :
    ∃ e v, w.entry path = some e ∧ w.tree.get e = some v ∧ ¬ w.tree.IsDir e ∧
      (¬ v.kind.IsLink → e = l) := by
  obtain ⟨hne, seen, hw⟩ := World.lookup_eq_some_iff.1 h
  obtain ⟨cs, c, hcs⟩ :=
    (List.eq_nil_or_concat' (Lines.fields '/' path)).resolve_left (Lines.fields_ne_nil hne)
  have hc : IsName c := by
    by_contra hc
    rw [hcs] at hw
    exact hfile (hw.isDir_end hc)
  rw [hcs] at hw
  obtain ⟨q, kind, hentry, hkind, hlink⟩ := entryAt_of_walks (n := ⟨c, hc⟩) hw
  rw [FileTree.kindAt_eq] at hkind
  obtain ⟨v, hv, rfl⟩ := Option.map_eq_some_iff.1 hkind
  refine ⟨q ++ [⟨c, hc⟩], v, ?_, hv, fun hdir => ?_, fun hnot => (hlink hnot).symm⟩
  · rw [World.entry, hcs]
    exact hentry
  · have hkind : v.kind = .directory := by
      rw [FileTree.IsDir, FileTree.kindAt_eq, hv, Option.map_some] at hdir
      exact Option.some.inj hdir
    have hnot : ¬ v.kind.IsLink := by
      rintro ⟨target, htarget⟩
      rw [hkind] at htarget
      cases htarget
    rw [← hlink hnot] at hdir
    exact hfile hdir

theorem openForWrite_clock {follow_symlinks opens : Bool}
    (h : openForWrite sys w path mode follow_symlinks opens = some (l, w')) :
    w.clock ≤ w'.clock ∧ w'.clock ≤ w.clock + 1 := by
  unfold openForWrite at h
  split at h
  · cases h
  · obtain ⟨⟨l', w₁⟩, hcreat, hpair⟩ := Option.map_eq_some_iff.1 h
    obtain ⟨rfl, rfl⟩ := Prod.mk.inj hpair
    rw [(samePlaces_store w₁ l' []).clock]
    exact creat_clock hcreat

theorem openForWrite_spec {follow_symlinks opens : Bool}
    (h : openForWrite sys w path mode follow_symlinks opens = some (l, w')) :
    w'.cwd = w.cwd ∧ w'.lookup path = some l ∧ ¬ w'.tree.IsDir l ∧
      (∀ x, x ≠ l → w'.tree.get x = w.tree.get x) ∧
      (w'.tree.kindAt l = some .regular → (w'.tree.get l).map Node.content = some []) := by
  unfold openForWrite at h
  split at h
  · cases h
  · obtain ⟨⟨l', w₁⟩, hcreat, hpair⟩ := Option.map_eq_some_iff.1 h
    obtain ⟨rfl, rfl⟩ := Prod.mk.inj hpair
    obtain ⟨-, hcwd, hlookup, hfile, -⟩ := System.creat_spec hcreat
    have hsame := samePlaces_store w₁ l' []
    refine ⟨hsame.cwd.trans hcwd, hsame.lookup hlookup, ?_, fun x hx => ?_, fun hkind => ?_⟩
    · rw [FileTree.IsDir, hsame.kind]
      exact hfile
    · rw [hsame.same x hx, creat_get hcreat hx]
    · rw [hsame.kind] at hkind
      exact content_store hkind []

/-! ## Writing -/

variable {follow_symlinks : Bool} {answers : FileAnswers} {calls : List Reply}

/-- Both functions that write a file open it and then change only what is in it. -/
theorem writeOpened_written (h : writeOpened sys w l content path calls = (some true, w')) :
    SamePlaces w w' l ∧
      (w'.tree.kindAt l = some .regular → (w'.tree.get l).map Node.content = some content) := by
  unfold writeOpened at h
  split at h
  · rename_i written hwritten
    obtain ⟨-, rfl⟩ := Prod.mk.inj h
    have hsame := samePlaces_store w l written
    refine ⟨hsame, fun hkind => ?_⟩
    have hcontent : written = content := by
      have hcomplete : (WriteStringToFd content calls).1 = content :=
        writeAll_complete (congrArg Prod.snd hwritten)
      exact (congrArg Prod.fst hwritten).symm.trans hcomplete
    rw [hsame.kind] at hkind
    rw [content_store hkind, hcontent]
  · cases h
  · cases h

/-- A call that succeeds has opened the file, and then changed only what is in it. -/
theorem writeFile_opened
    (h : WriteStringToFile sys w content path follow_symlinks answers = (some true, w') ∨
      WriteStringToFileAs sys w content path mode follow_symlinks answers = (some true, w')) :
    ∃ mode', (mode' = 0o666 ∨ mode' = mode) ∧
      ∃ l w₁, openForWrite sys w path mode' follow_symlinks answers.opens = some (l, w₁) ∧
      SamePlaces w₁ w' l ∧
      (w'.tree.kindAt l = some .regular → (w'.tree.get l).map Node.content = some content) := by
  rcases h with h | h
  · unfold WriteStringToFile at h
    split at h
    · cases h
    · rename_i l w₁ hopen
      exact ⟨_, Or.inl rfl, l, w₁, hopen, writeOpened_written h⟩
  · unfold WriteStringToFileAs at h
    split at h
    · cases h
    · rename_i l w₁ hopen
      split at h
      · split at h
        · obtain ⟨hsame, hcontent⟩ := writeOpened_written h
          exact ⟨_, Or.inr rfl, l, w₁, hopen, (samePlaces_setMode w₁ l mode).trans hsame, hcontent⟩
        · cases h
      · cases h

/-- What is read of a regular file to its end is its text. -/
theorem readFile_eq {follow opens : Bool} {text : Str} (hlookup : w.lookup path = some l)
    (hcontent : (w.tree.get l).map Node.content = some content)
    (h : ReadFileToString w path follow opens calls = (some true, text)) : text = content := by
  unfold ReadFileToString at h
  split at h
  · cases h
  · split at h
    · cases h
    · rename_i v hstat
      split at h
      · obtain ⟨hresult, rfl⟩ := Prod.mk.inj h
        have hcomplete : (ReadFdToString v.content calls).2 = .complete := by
          generalize (ReadFdToString v.content calls).2 = ending at hresult
          cases ending <;> first | rfl | cases hresult
        obtain ⟨l', hl', hv⟩ := World.stat_eq_some_iff.1 hstat
        rw [hlookup] at hl'
        obtain rfl := Option.some.inj hl'
        rw [hv, Option.map_some] at hcontent
        rw [← Option.some.inj hcontent]
        exact readToEnd_complete (by decide) hcomplete
      · cases h

/-- A regular file that can be opened is read to its end, when enough calls move
something and the others are only interrupted. -/
theorem readFile_complete {follow : Bool} (hlookup : w.lookup path = some l)
    (hkind : w.tree.kindAt l = some .regular)
    (hcontent : (w.tree.get l).map Node.content = some content)
    (hfollow : follow = true ∨ namesLink w path = false)
    (hgoes : ∀ a ∈ calls, Reply.Goes tempFailure a)
    (hlen : content.length < calls.countP Reply.isMoved) :
    ReadFileToString w path follow true calls = (some true, content) := by
  obtain ⟨v, hv, htext⟩ := Option.map_eq_some_iff.1 hcontent
  have hreg : v.kind = .regular := by
    rw [FileTree.kindAt_eq, hv, Option.map_some] at hkind
    exact Option.some.inj hkind
  have hstat : w.stat path = some v := World.stat_eq_some_iff.2 ⟨l, hlookup, hv⟩
  have hopened : ¬ (!true || !follow && namesLink w path) = true := by
    rcases hfollow with rfl | hno
    · simp
    · simp [hno]
  have hcomplete : (ReadFdToString v.content calls).2 = .complete :=
    readToEnd_of_goes hgoes (htext.symm ▸ hlen)
  unfold ReadFileToString
  rw [if_neg hopened, hstat]
  dsimp only
  rw [if_pos hreg, hcomplete, ReadFdToString, readToEnd_complete (by decide) hcomplete, htext]
  rfl

/-- A regular file that was written is read back, however the calls that write it and the
calls that read it cut the text: nothing else is ever returned as its text, and the text
is, when the file can be opened, interrupted calls are repeated and enough calls read
something.  No other entry has changed. -/
theorem readFile_writeFile (mode : ℕ)
    (h : WriteStringToFile sys w content path follow_symlinks answers = (some true, w') ∨
      WriteStringToFileAs sys w content path mode follow_symlinks answers = (some true, w')) :
    w'.cwd = w.cwd ∧ ∃ l, w'.lookup path = some l ∧
      (∀ x, x ≠ l → w'.tree.get x = w.tree.get x) ∧
      (w'.tree.kindAt l = some .regular → ∀ follow calls,
        (∀ opens text, ReadFileToString w' path follow opens calls = (some true, text) →
          text = content) ∧
        ((follow = true ∨ namesLink w' path = false) →
          (∀ a ∈ calls, Reply.Goes tempFailure a) →
          content.length < calls.countP Reply.isMoved →
          ReadFileToString w' path follow true calls = (some true, content))) := by
  obtain ⟨mode', -, l, w₁, hopen, hsame, hcontent⟩ := writeFile_opened h
  obtain ⟨hcwd, hlookup, -, hother, -⟩ := openForWrite_spec hopen
  have hlookup' := hsame.lookup hlookup
  refine ⟨hsame.cwd.trans hcwd, l, hlookup', fun x hx => ?_, fun hkind follow calls =>
    ⟨fun opens text hread => ?_, fun hfollow hgoes hlen => ?_⟩⟩
  · rw [hsame.same x hx, hother x hx]
  · exact readFile_eq hlookup' (hcontent hkind) hread
  · exact readFile_complete hlookup' hkind (hcontent hkind) hfollow hgoes hlen

/-- A new file, written in two parts. -/
def writtenParts : Option Bool × World :=
  WriteStringToFile System.granting (World.ofList [(["d"], .directory)]) ['a', 'b']
    ['/', 'd', '/', 'f'] true ⟨true, true, true, [.moved 1, .failed EINTR, .moved 5]⟩

theorem readFile_writeFile_parts :
    ReadFileToString writtenParts.2 ['/', 'd', '/', 'f'] false true
        [.moved 0, .failed EINTR, .moved 7, .moved 7] = (some true, ['a', 'b']) ∧
      ∀ opens text, ReadFileToString writtenParts.2 ['/', 'd', '/', 'f'] false opens
        [.moved 1, .moved 1, .failed EINTR, .moved 1] = (some true, text) → text = ['a', 'b'] := by
  have hwrite : writtenParts = (some true, writtenParts.2) := Prod.ext (by decide) rfl
  obtain ⟨-, l, hlookup, -, hread⟩ := readFile_writeFile 0 (Or.inl hwrite)
  have hkind : (writtenParts.2.lookup ['/', 'd', '/', 'f']).bind writtenParts.2.tree.kindAt
      = some .regular := by decide
  rw [hlookup, Option.bind_some] at hkind
  refine ⟨(hread hkind false _).2 (Or.inr (by decide)) ?_ (by decide), (hread hkind false _).1⟩
  rintro a ha
  simp only [List.mem_cons, List.not_mem_nil, or_false] at ha
  rcases ha with rfl | rfl | rfl | rfl
  · exact trivial
  · exact rfl
  · exact trivial
  · exact trivial

/-! ## Cleaning up -/

/-- Without its entry, a path leads nowhere. -/
theorem lookup_of_removed {e : Loc} (hentry : w.entry path = some e)
    (h : sys.change w e (w.tree.remove e) = some w') : w'.lookup path = none := by
  obtain ⟨-, hcwd, hget⟩ := System.change_remove_spec h
  have hext : w'.tree.Extends w.tree := by
    intro x v hv
    have hv : w'.tree.get x = some v := hv
    rw [hget] at hv
    split at hv
    · cases hv
    · exact hv
  obtain ⟨ws, n, q, seen, hcs, -, -, -⟩ := entryAt_eq_some_iff.1 hentry
  have hlast : (lastName (Lines.fields '/' path)).isSome = true := by
    rw [lastName_eq_some_iff.2 ⟨ws, hcs⟩]
    rfl
  have hentry' : w.lookupEntry path = some e := (if_pos hlast).trans hentry
  have hgone : w'.tree.get e = none := by rw [hget, if_pos List.prefix_rfl]
  have hlstat := World.lstat_eq_none_of_gone hentry' hgone hext hcwd
  by_contra hne
  obtain ⟨m, hm⟩ := Option.ne_none_iff_exists'.1 hne
  obtain ⟨e', v, he', hv, -⟩ := World.lookupEntry_of_lookup hm
  rw [World.lstat, he', Option.bind_some, hv] at hlstat
  cases hlstat

/-- What is left after cleaning up: the entry of the path is gone, or the system has
refused that. -/
theorem cleanUp_spec {r : Option Bool} (hlookup : w.lookup path = some l)
    (hfile : ¬ w.tree.IsDir l) (h : CleanUpAfterFailedWrite sys w path = (r, w')) :
    ∃ e, w.entry path = some e ∧ w'.cwd = w.cwd ∧
      (sys.allows w.clock e = true → w'.tree.get e = none ∧ w'.lookup path = none ∧
        ∀ x, x ≠ e → w'.tree.get x = w.tree.get x) ∧
      (sys.allows w.clock e = false → w' = w) := by
  obtain ⟨e, v, hentry, hv, hnd, -⟩ := entry_of_file hlookup hfile
  have hunlink : sys.unlink w path = sys.change w e (w.tree.remove e) := by
    rw [System.unlink, hentry]
    exact if_neg hnd
  obtain ⟨-, rfl⟩ := Prod.mk.inj h
  rw [hunlink]
  cases hallowed : sys.allows w.clock e with
  | false =>
    have hrefused : sys.change w e (w.tree.remove e) = none := by
      rw [System.change, hallowed]
      rfl
    rw [hrefused]
    exact ⟨e, hentry, rfl, fun h => Bool.noConfusion (hallowed.symm.trans h), fun _ => rfl⟩
  | true =>
    have hgranted : (sys.change w e (w.tree.remove e)).isSome = true :=
      (System.change_remove_isSome_iff (by simp [hv])).2 ⟨ne_nil_of_entryAt hentry, hallowed⟩
    obtain ⟨w₂, hw₂⟩ := Option.isSome_iff_exists.1 hgranted
    obtain ⟨-, hcwd, hget⟩ := System.change_remove_spec hw₂
    rw [hw₂]
    refine ⟨e, hentry, hcwd, fun _ => ⟨?_, lookup_of_removed hentry hw₂, fun x hx => ?_⟩,
      fun h => Bool.noConfusion (hallowed.symm.trans h)⟩
    · show w₂.tree.get e = none
      rw [hget, if_pos List.prefix_rfl]
    · show w₂.tree.get x = w.tree.get x
      rw [hget]
      split
      · rename_i hbelow
        -- An entry that is no directory has nothing below it.
        by_contra hne
        exact hx (FileTree.eq_of_prefix hnd hbelow (Ne.symm hne))
      · rfl

theorem writeOpened_failed (h : writeOpened sys w l content path calls = (some false, w')) :
    ∃ written, written <+: content ∧
      CleanUpAfterFailedWrite sys (store w l written) path = (some false, w') := by
  have hbegin : (WriteStringToFd content calls).1 <+: content := by
    obtain ⟨rest, hrest, -⟩ := writeAll_begins tempFailure content calls
    exact ⟨rest, hrest.symm⟩
  unfold writeOpened at h
  split at h
  · cases h
  · cases h
  · rename_i written _ _ _ hwritten
    rw [hwritten] at hbegin
    exact ⟨written, hbegin, h⟩

/-- A call that fails has not opened the file, or has written a part and then cleans
up. -/
theorem writeFile_cleanUp
    (h : WriteStringToFile sys w content path follow_symlinks answers = (some false, w') ∨
      WriteStringToFileAs sys w content path mode follow_symlinks answers = (some false, w')) :
    ∃ mode', (mode' = 0o666 ∨ mode' = mode) ∧
      (openForWrite sys w path mode' follow_symlinks answers.opens = none ∧ w' = w ∨
        ∃ l w₁ w₂, openForWrite sys w path mode' follow_symlinks answers.opens = some (l, w₁) ∧
          SamePlaces w₁ w₂ l ∧ CleanUpAfterFailedWrite sys w₂ path = (some false, w') ∧
          (w₁.tree.kindAt l = some .regular → ∃ written, written <+: content ∧
            (w₂.tree.get l).map Node.content = some written)) := by
  have hwritten : ∀ {mode'} {l : Loc} {w₁ w₂ : World},
      openForWrite sys w path mode' follow_symlinks answers.opens = some (l, w₁) →
      SamePlaces w₁ w₂ l →
      writeOpened sys w₂ l content path answers.calls = (some false, w') →
      ∃ l w₁ w₂, openForWrite sys w path mode' follow_symlinks answers.opens = some (l, w₁) ∧
        SamePlaces w₁ w₂ l ∧ CleanUpAfterFailedWrite sys w₂ path = (some false, w') ∧
        (w₁.tree.kindAt l = some .regular → ∃ written, written <+: content ∧
          (w₂.tree.get l).map Node.content = some written) := by
    intro mode' l w₁ w₂ hopen hsame hfailed
    obtain ⟨written, hbegin, hclean⟩ := writeOpened_failed hfailed
    refine ⟨l, w₁, _, hopen, hsame.trans (samePlaces_store w₂ l written), hclean,
      fun hkind => ⟨written, hbegin, content_store ?_ written⟩⟩
    rw [hsame.kind]
    exact hkind
  rcases h with h | h
  · refine ⟨0o666, Or.inl rfl, ?_⟩
    unfold WriteStringToFile at h
    split at h
    · rename_i hnone
      exact Or.inl ⟨hnone, (Prod.mk.inj h).2.symm⟩
    · rename_i l w₁ hopen
      exact Or.inr (hwritten hopen (SamePlaces.refl w₁ l) h)
  · refine ⟨mode, Or.inr rfl, ?_⟩
    unfold WriteStringToFileAs at h
    split at h
    · rename_i hnone
      exact Or.inl ⟨hnone, (Prod.mk.inj h).2.symm⟩
    · rename_i l w₁ hopen
      have hempty := (openForWrite_spec hopen).2.2.2.2
      split at h
      · split at h
        · exact Or.inr (hwritten hopen (samePlaces_setMode w₁ l mode) h)
        · exact Or.inr ⟨l, w₁, _, hopen, samePlaces_setMode w₁ l mode, h, fun hkind =>
            ⟨[], ⟨_, rfl⟩, (content_setMode w₁ l mode).trans (hempty hkind)⟩⟩
      · exact Or.inr ⟨l, w₁, w₁, hopen, SamePlaces.refl w₁ l, h, fun hkind =>
          ⟨[], ⟨_, rfl⟩, hempty hkind⟩⟩

/-- When writing fails, either the file was not opened and nothing has changed, or `l` is
the file that was opened and `e` is the entry that the path names then.  The entry is
gone and the path leads nowhere, unless the system refuses to remove it.  When the entry
is not the file itself, that is when it is a link, the file stays.  What is in a file
that stays is a beginning of the text. -/
theorem writeFile_failed (mode : ℕ)
    (h : WriteStringToFile sys w content path follow_symlinks answers = (some false, w') ∨
      WriteStringToFileAs sys w content path mode follow_symlinks answers = (some false, w')) :
    ∃ mode', (mode' = 0o666 ∨ mode' = mode) ∧
      (openForWrite sys w path mode' follow_symlinks answers.opens = none ∧ w' = w ∨
        ∃ l w₁ e, openForWrite sys w path mode' follow_symlinks answers.opens = some (l, w₁) ∧
          w₁.lookup path = some l ∧ w₁.entry path = some e ∧ w'.cwd = w.cwd ∧
          (∀ x, x ≠ e → x ≠ l → w'.tree.get x = w.tree.get x) ∧
          (w'.tree.get e = none ∧ w'.lookup path = none ∨
            ∃ clock, w.clock ≤ clock ∧ clock ≤ w.clock + 1 ∧ sys.allows clock e = false) ∧
          (e ≠ l → w'.tree.get l ≠ none) ∧
          (w'.tree.kindAt l = some .regular → ∃ written, written <+: content ∧
            (w'.tree.get l).map Node.content = some written)) := by
  obtain ⟨mode', hmode, hclosed | ⟨l, w₁, w₂, hopen, hsame, hclean, hcontent⟩⟩ :=
    writeFile_cleanUp h
  · exact ⟨mode', hmode, Or.inl hclosed⟩
  · obtain ⟨hcwd, hlookup, hfile, hother, -⟩ := openForWrite_spec hopen
    have hlookup₂ := hsame.lookup hlookup
    have hfile₂ : ¬ w₂.tree.IsDir l := by
      rw [FileTree.IsDir, hsame.kind]
      exact hfile
    obtain ⟨v, hv, -⟩ := World.lookup_result hlookup₂
    have hl : w₂.tree.get l ≠ none := by simp [hv]
    have hkind₂ : ∀ x, w₂.tree.kindAt x = w₁.tree.kindAt x := hsame.kind
    have hcwd₂ : w₂.cwd = w.cwd := hsame.cwd.trans hcwd
    have hother₂ : ∀ x, x ≠ l → w₂.tree.get x = w.tree.get x :=
      fun x hx => (hsame.same x hx).trans (hother x hx)
    obtain ⟨e, hentry, hcwd', hgone, hkept⟩ := cleanUp_spec hlookup₂ hfile₂ hclean
    refine ⟨mode', hmode, Or.inr ⟨l, w₁, e, hopen, hlookup, hsame.symm.entry hentry,
      hcwd'.trans hcwd₂, ?_⟩⟩
    cases hallowed : sys.allows w₂.clock e with
    | true =>
      obtain ⟨hnone, hnowhere, hrest⟩ := hgone hallowed
      refine ⟨fun x hxe hxl => (hrest x hxe).trans (hother₂ x hxl), Or.inl ⟨hnone, hnowhere⟩,
        fun hne => ?_, fun hkind => ?_⟩
      · rw [hrest l hne.symm]
        exact hl
      · have hne : l ≠ e := by
          rintro rfl
          rw [FileTree.kindAt_eq, hnone] at hkind
          cases hkind
        rw [FileTree.kindAt_eq, hrest l hne, ← FileTree.kindAt_eq, hkind₂] at hkind
        rw [hrest l hne]
        exact hcontent hkind
    | false =>
      rw [hkept hallowed]
      have hclock := openForWrite_clock hopen
      rw [hsame.clock] at hallowed
      refine ⟨fun x _ hxl => hother₂ x hxl, Or.inr ⟨_, hclock.1, hclock.2, hallowed⟩,
        fun _ => hl, fun hkind => ?_⟩
      rw [hkind₂] at hkind
      exact hcontent hkind

/-- A file and a link to it. -/
def linkedFile : World := World.ofList [(["f"], .regular), (["l"], .symlink ['f'])]

/-- A text that does not fit, and is written through a link. -/
def failedParts : Option Bool × World :=
  WriteStringToFile System.granting linkedFile ['a', 'b'] ['/', 'l'] true
    ⟨true, true, true, [.moved 1, .failed 28]⟩

/-- The link is gone, and the file behind it stays. -/
theorem writeFile_failed_parts :
    ∃ l e, linkedFile.lookup ['/', 'l'] = some l ∧ linkedFile.entry ['/', 'l'] = some e ∧
      failedParts.2.tree.get e = none ∧ failedParts.2.lookup ['/', 'l'] = none ∧
      failedParts.2.tree.get l ≠ none := by
  have hwrite : failedParts = (some false, failedParts.2) := Prod.ext (by decide) rfl
  have hopened : ((openForWrite System.granting linkedFile ['/', 'l'] 0o666 true true).map fun r =>
      (r.1, r.2.entry ['/', 'l']))
      = some ([⟨['f'], by decide⟩], some [⟨['l'], by decide⟩]) := by decide
  obtain ⟨mode', hmode, hcases⟩ := writeFile_failed 0o666 (Or.inl hwrite)
  obtain rfl : mode' = 0o666 := hmode.elim id id
  rcases hcases with ⟨hnone, -⟩ | ⟨l, w₁, e, hopen, -, hentry, -, -, hgone, hstays, -⟩
  · rw [hnone] at hopened
    cases hopened
  · rw [hopen, Option.map_some, hentry] at hopened
    obtain ⟨rfl, he⟩ := Prod.mk.inj (Option.some.inj hopened)
    obtain rfl := Option.some.inj he
    refine ⟨[⟨['f'], by decide⟩], [⟨['l'], by decide⟩], by decide, by decide, ?_⟩
    rcases hgone with ⟨hnone, hnowhere⟩ | ⟨clock, -, -, hrefused⟩
    · exact ⟨hnone, hnowhere, hstays (by decide)⟩
    · cases hrefused

end SysFs.Base
