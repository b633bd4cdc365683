import SysFs.MakePath

/-!
# The directory of the log file

The logger makes the directory of its file with `CreateDirPath`, a copy of
`FsObject::makePath` that works on a C string.  `createDirPath` models it as it
is written: the text is copied into an array of `PATH_MAX_STRING_SIZE`
characters, one separator is taken from its end, and a pointer runs over the
rest.  What the pointer has passed is `before`, and what is ahead of it `rest`.

* `createDirLoop_eq`: the loop makes the directories at its stops, as the loop of
  `makePath` does (`stops_append`).
* `makeDirs_cuts_slash`: one separator more at the end of the path makes no
  difference to what is made.
* `createDirPath_agrees`: for a directory path of which nothing is cut off, the
  two copies do the same.
-/

namespace SysFs

open Posix

/-- `PATH_MAX_STRING_SIZE`. -/
def pathMaxStringSize : Nat := 256

/-- `strnlen`. -/
def strnlen (s : Str) (n : Nat) : Nat := min s.length n

/-- One test of the path `tmp` in `CreateDirPath`: it is a directory, or it is
made.  Otherwise `CreateDirPath` returns -1. -/
def testPath (sys : System) (mode : Nat) (w : World) (tmp : Str) : Option World :=
  match w.stat tmp with
  | none => sys.mkdir w tmp mode
  | some v => if v.kind = .directory then some w else none

/-- The loop of `CreateDirPath`, at the pointer between `before` and `rest`. -/
def createDirLoop (sys : System) (mode : Nat) : World → Str → Str → Bool × World
  | w, _, [] => (true, w)
  | w, before, c :: rest =>
    if c = '/' then
      match testPath sys mode w before with
      | none => (false, w)
      | some w' => createDirLoop sys mode w' (before ++ [c]) rest
    else createDirLoop sys mode w (before ++ [c]) rest

/-- `CreateDirPath`, for the C string of these characters. -/
def createDirPath (sys : System) (w : World) (dir : Str) (mode : Nat) : Int × World :=
  let len := strnlen dir pathMaxStringSize
  if len = 0 ∨ len = pathMaxStringSize then (-1, w)
  else
    let tmp := dir.take len
    let tmp := if tmp[len - 1]? = some '/' then tmp.take (len - 1) else tmp
    if (w.stat tmp).any fun v => v.kind = .directory then (0, w)
    else
      let made := createDirLoop sys mode w (tmp.take 1) (tmp.drop 1)
      if made.1 then
        match testPath sys mode made.2 tmp with
        | none => (-1, made.2)
        | some w' => (0, w')
      else (-1, made.2)

namespace FsObject

variable {sys : System} {w : World} {mode : Nat} {d before rest tmp : Str}

/-! ## The two loops -/

/-- The paths that the loop of `createDirPath` still tests. -/
def stopsAfter : Str → Str → List Str
  | _, [] => []
  | before, c :: rest =>
    if c = '/' then before :: stopsAfter (before ++ [c]) rest
    else stopsAfter (before ++ [c]) rest

/-- The stops of a path are those before a place in it and those after it. -/
theorem stops_append (rest : Str) : ∀ before : Str, before ≠ [] →
    stops (before ++ rest) = stops before ++ stopsAfter before rest := by
  induction rest with
  | nil =>
    intro before _
    rw [List.append_nil, stopsAfter, List.append_nil]
  | cons c rest ih =>
    intro before hne
    rw [List.append_cons, ih (before ++ [c]) (by simp), stops_concat, List.append_assoc, stopsAfter]
    by_cases hc : c = '/'
    · rw [if_pos ⟨hne, hc⟩, if_pos hc, List.singleton_append]
    · rw [if_neg (fun h => hc h.2), if_neg hc, List.nil_append]

/-- A test is one round of the loop of `makePath`. -/
theorem makeDirs_cons_eq (sys : System) (mode : Nat) (w : World) (tmp : Str) (qs : List Str) :
    makeDirs sys mode w (tmp :: qs) = match testPath sys mode w tmp with
      | none => (false, w)
      | some w' => makeDirs sys mode w' qs := by
  cases hstat : w.stat tmp with
  | none =>
    have htest : testPath sys mode w tmp = sys.mkdir w tmp mode := by
      simp only [testPath, hstat]
    rw [htest]
    cases hmkdir : sys.mkdir w tmp mode with
    | none => simp [makeDirs, hstat, hmkdir]
    | some w' => exact makeDirs_cons_of_mkdir hstat hmkdir qs
  | some v =>
    by_cases hkind : v.kind = .directory
    · simp only [testPath, hstat, hkind, if_true]
      exact makeDirs_cons_of_dir hstat hkind qs
    · simp [testPath, makeDirs, hstat, hkind]

/-- The loop makes the directories at its stops. -/
theorem createDirLoop_eq (sys : System) (mode : Nat) (rest : Str) : ∀ (w : World) (before : Str),
    createDirLoop sys mode w before rest = makeDirs sys mode w (stopsAfter before rest) := by
  induction rest with
  | nil =>
    intro w before
    rfl
  | cons c rest ih =>
    intro w before
    rw [createDirLoop, stopsAfter]
    by_cases hc : c = '/'
    · rw [if_pos hc, if_pos hc, makeDirs_cons_eq]
      cases testPath sys mode w before with
      | none => rfl
      | some w' => exact ih w' (before ++ [c])
    · rw [if_neg hc, if_neg hc]
      exact ih w (before ++ [c])

/-- The loop from the second character on, and the test after it. -/
theorem makeDirs_cuts (sys : System) (mode : Nat) (w : World) (hne : tmp ≠ []) :
    makeDirs sys mode w (cuts tmp)
      = if (createDirLoop sys mode w (tmp.take 1) (tmp.drop 1)).1 then
          match testPath sys mode (createDirLoop sys mode w (tmp.take 1) (tmp.drop 1)).2 tmp with
          | none => (false, (createDirLoop sys mode w (tmp.take 1) (tmp.drop 1)).2)
          | some w' => (true, w')
        else createDirLoop sys mode w (tmp.take 1) (tmp.drop 1) := by
  have hfirst : stops (tmp.take 1) = [] := by
    obtain ⟨c, t, rfl⟩ := List.exists_cons_of_ne_nil hne
    show stops ([] ++ [c]) = []
    rw [stops_concat, if_neg (fun h => h.1 rfl)]
    rfl
  have hstops : stops tmp = stopsAfter (tmp.take 1) (tmp.drop 1) := by
    have happend := stops_append (tmp.drop 1) (tmp.take 1) (by simpa using hne)
    rwa [List.take_append_drop, hfirst, List.nil_append] at happend
  rw [createDirLoop_eq, ← hstops, cuts_eq, makeDirs_append, makeDirs_cons_eq]
  rfl

/-! ## One separator more -/

/-- A path with a separator more leads to a directory exactly if it does without
it. -/
theorem stat_slash_isDir (hne : tmp ≠ []) :
    ((w.stat (tmp ++ ['/'])).any fun v => v.kind = .directory)
      = (w.stat tmp).any fun v => v.kind = .directory := by
  have hdir : ∀ q, ((w.stat q).any fun v => v.kind = .directory) = true ↔
      ∃ l, w.lookup q = some l ∧ w.tree.IsDir l := by
    intro q
    constructor
    · exact dir_of_stat
    · rintro ⟨l, hl, hisDir⟩
      obtain ⟨v, hv, -⟩ := World.lookup_result hl
      rw [World.stat_eq_some_iff.2 ⟨l, hl, hv⟩, Option.any_some, decide_eq_true_eq]
      exact (isDir_iff hv).1 hisDir
  rw [Bool.eq_iff_iff, hdir, hdir]
  constructor
  · rintro ⟨l, hl, hisDir⟩
    exact ⟨l, ((World.lookup_append_slash hne).1 hl).1, hisDir⟩
  · rintro ⟨l, hl, hisDir⟩
    exact ⟨l, lookup_slash_of_isDir hl hisDir, hisDir⟩

/-- A separator at the end of a path is one stop more, and when the loop comes to
it, the path before it is a directory. -/
theorem makeDirs_cuts_slash (sys : System) (mode : Nat) (w : World) (hne : tmp ≠ []) :
    makeDirs sys mode w (cuts (tmp ++ ['/'])) = makeDirs sys mode w (cuts tmp) := by
  have hcuts : cuts (tmp ++ ['/']) = cuts tmp ++ [tmp ++ ['/']] := by
    rw [cuts_eq, cuts_eq, stops_concat, if_pos ⟨hne, rfl⟩]
  rw [hcuts, makeDirs_append]
  split
  · rename_i hok
    have hself : tmp ∈ cuts tmp := List.mem_append_right _ (List.mem_singleton_self tmp)
    obtain ⟨l, hl, hisDir⟩ := makeDirs_true hok hself
    obtain ⟨v, hv, -⟩ := World.lookup_result hl
    have hstat := World.stat_eq_some_iff.2 ⟨l, lookup_slash_of_isDir hl hisDir, hv⟩
    rw [makeDirs_cons_of_dir hstat ((isDir_iff hv).1 hisDir)]
    show (true, (makeDirs sys mode w (cuts tmp)).2) = makeDirs sys mode w (cuts tmp)
    rw [← hok]
  · rfl

/-! ## The two copies -/

/-- What `makePath` makes for a path below `tmp`, where `tmp` may end with a
separator of its own. -/
theorem makeParents_withoutSlash (sys : System) (mode : Nat) (w : World)
    (hne : withoutSlash tmp ≠ []) :
    makeParents sys w (tmp ++ ['/']) mode
      = if (w.stat (withoutSlash tmp)).any fun v => v.kind = .directory then (true, w)
        else makeDirs sys mode w (cuts (withoutSlash tmp)) := by
  rw [makeParents_slash]
  rcases List.eq_nil_or_concat' tmp with rfl | ⟨q, c, rfl⟩
  · exact absurd rfl hne
  by_cases hc : c = '/'
  · subst hc
    have hq : withoutSlash (q ++ ['/']) = q := by simp [withoutSlash]
    rw [hq] at hne ⊢
    rw [stat_slash_isDir hne, makeDirs_cuts_slash sys mode w hne]
  · have hq : withoutSlash (q ++ [c]) = q ++ [c] := by simp [withoutSlash, hc]
    rw [hq]

/-- `createDirPath` for a text that fits into the array. -/
theorem createDirPath_eq (sys : System) (mode : Nat) (w : World)
    (hlen : d.length < pathMaxStringSize) (hne : withoutSlash d ≠ []) :
    createDirPath sys w d mode = if (makeParents sys w (d ++ ['/']) mode).1
      then (0, (makeParents sys w (d ++ ['/']) mode).2)
      else (-1, (makeParents sys w (d ++ ['/']) mode).2) := by
  have hd : d ≠ [] := by
    rintro rfl
    exact hne rfl
  have hpos : 0 < d.length := List.length_pos_iff.2 hd
  have hcopy : strnlen d pathMaxStringSize = d.length := Nat.min_eq_left (Nat.le_of_lt hlen)
  have htmp : (if d[d.length - 1]? = some '/' then d.take (d.length - 1) else d)
      = withoutSlash d := by
    rw [withoutSlash, List.getLast?_eq_getElem?, List.dropLast_eq_take]
  unfold createDirPath
  rw [hcopy, if_neg (by omega)]
  simp only [List.take_length, htmp]
  rw [makeParents_withoutSlash sys mode w hne, makeDirs_cuts sys mode w hne]
  split
  · rfl
  · split
    · split <;> rfl
    · rfl

/-- For a directory path of 1 to 255 characters without backslashes, other than
the root, `CreateDirPath` returns 0 exactly if `makePath` of a missing file in the
directory succeeds, and the two make the same. -/
theorem createDirPath_agrees (sys : System) (w : World) (d : Str) (mode : Nat) (hpos : d ≠ [])
    (hlen : d.length ≤ 255) (hback : '\\' ∉ d) (hroot : d ≠ slash)
    (hnone : w.lookup (d ++ "/x".toList) = none) :
    ((createDirPath sys w d mode).1 = 0 ↔
        (makePath sys w (ofStr (d ++ "/x".toList)) mode).ok = true) ∧
      (createDirPath sys w d mode).2 = (makePath sys w (ofStr (d ++ "/x".toList)) mode).world := by
  have htext : d ++ "/x".toList = d ++ ['/'] ++ ['x'] := by simp
  have hunify : unify (d ++ ['/'] ++ ['x']) = d ++ ['/'] ++ ['x'] := by
    apply unify_of_notMem
    simp [hback]
  obtain ⟨hdir, -, hfull⟩ := Path.parts_ofStr_name (d := d ++ ['/']) (f := ['x'])
    (Or.inr ⟨d, rfl⟩) hunify (by decide) (by decide) rfl
  rw [htext] at hnone ⊢
  have hc : (ofStr (d ++ ['/'] ++ ['x'])).Coherent := Path.Coherent.of_setPath Path.empty _
  have hexists : ((ofStr (d ++ ['/'] ++ ['x'])).checkIfExists w).mExists = false := by
    rw [Bool.eq_false_iff]
    intro hm
    obtain ⟨v, hv, -⟩ := (checkIfExists_of_not_mExists hc rfl).1 hm
    have hstat : w.stat (ofStr (d ++ ['/'] ++ ['x'])).fullPath = none := by
      rw [World.stat_eq_none_iff]
      exact hfull.symm ▸ hnone
    rw [hstat] at hv
    cases hv
  have hparents : (ofStr (d ++ ['/'] ++ ['x'])).directoryPath = d ++ ['/'] := hdir
  have hne : withoutSlash d ≠ [] := by
    unfold withoutSlash
    split
    · rename_i hlast
      obtain ⟨e, rfl⟩ := List.getLast?_eq_some_iff.1 hlast
      rw [List.dropLast_concat]
      rintro rfl
      exact hroot rfl
    · exact hpos
  rw [makePath_of_not_exists hc hexists, hparents,
    createDirPath_eq sys mode w (Nat.lt_succ_of_le hlen) hne]
  dsimp only
  cases (makeParents sys w (d ++ ['/']) mode).1 with
  | true => exact ⟨⟨fun _ => rfl, fun _ => rfl⟩, rfl⟩
  | false =>
    refine ⟨⟨fun h => ?_, fun h => Bool.noConfusion h⟩, rfl⟩
    exact absurd (show (-1 : Int) = 0 from h) (by decide)

/-- A directory path with a repeated and a trailing separator, of which the first
directory is there. -/
theorem createDirPath_agrees_slashes :
    ((createDirPath System.granting (World.ofList [(["a"], .directory)]) "/a//b/".toList 0o777).1
        = 0 ↔
      (makePath System.granting (World.ofList [(["a"], .directory)])
        (ofStr ("/a//b/".toList ++ "/x".toList)) 0o777).ok = true) ∧
    (createDirPath System.granting (World.ofList [(["a"], .directory)]) "/a//b/".toList 0o777).2
      = (makePath System.granting (World.ofList [(["a"], .directory)])
          (ofStr ("/a//b/".toList ++ "/x".toList)) 0o777).world :=
  createDirPath_agrees System.granting (World.ofList [(["a"], .directory)]) "/a//b/".toList 0o777
    (by decide) (by decide) (by decide) (by decide) (by decide)

end FsObject

end SysFs
