import SysFs.PathText
import SysFs.Resolved

/-!
# The normal form that `resolved` reaches

What `resolved` keeps of a path is a `Form`: the root, if the path starts at
one, and the walk of the rest.  `resolved` is `formOf`, which reads a form off
the components, followed by `Form.text`, which writes it down
(`resolved_eq_text`).

On a form whose names are names (`Form.Normal`), writing and reading again gives
the form back (`formOf_partsOf_text`), so a second `resolved` changes nothing.

A form is more than a location.  Below a root a climb leads nowhere, but the
form counts it, and the text shows it as a `..` behind the root.  Paths of the
same location have the same text as long as no `..` takes their root back
(`StaysInside`).
-/

namespace SysFs

/-- What `resolved` keeps of a path. -/
@[ext] structure Form where
  root : Option Str
  walk : Walk Str

/-- The form of a list of components. -/
def formOf : List Str → Form
  | [] => ⟨none, 1⟩
  | part :: parts =>
    if isRootPart part then ⟨some part, stackWalk parts⟩
    else ⟨none, stackWalk (part :: parts)⟩

namespace Form

/-- The components that a form is written with. -/
def stack (f : Form) : List Str := f.root.toList ++ stackOf f.walk

/-- The text that a form is written as.  A root that stands alone keeps its
separator, and nothing at all is `.`. -/
def text (f : Form) : Str :=
  match f.root with
  | some c => ['/'].intercalate (c :: if stackOf f.walk = [] then [[]] else stackOf f.walk)
  | none =>
    if ['/'].intercalate (stackOf f.walk) = [] then dot else ['/'].intercalate (stackOf f.walk)

end Form

theorem formOf_absolute {c : Str} (h : isRootPart c = true) (parts : List Str) :
    formOf (c :: parts) = ⟨some c, stackWalk parts⟩ := if_pos h

theorem formOf_relative {parts : List Str} (h : parts.head?.any isRootPart = false) :
    formOf parts = ⟨none, stackWalk parts⟩ := by
  cases parts with
  | nil => rfl
  | cons c parts =>
    have hc : isRootPart c = false := by simpa using h
    rw [formOf, if_neg (by simp [hc])]

/-- `resolved` writes down the form of its path. -/
theorem resolved_eq_text (path : Str) :
    (Path.ofStr path).resolved = (formOf (partsOf (unify path))).text := by
  have hloop : ∀ s, resolveLoop ⟨[], 0, false⟩ 0 (partsOf (unify path)) = s →
      (Path.ofStr path).resolved = if compose s = [] then dot else compose s := by
    rintro _ rfl
    simp only [Path.resolved, Path.ofStr_mPath, List.isEmpty_iff]
  cases habs : (partsOf (unify path)).head?.any isRootPart with
  | false =>
    rw [hloop _ (resolveLoop_relative habs), compose_relative, formOf_relative habs]
    rfl
  | true =>
    cases hparts : partsOf (unify path) with
    | nil =>
      rw [hparts] at habs
      cases habs
    | cons c parts =>
      rw [hparts] at habs hloop
      have hc : isRootPart c = true := by simpa using habs
      have hne := composed_ne_nil c (stackWalk parts)
      rw [hloop _ (resolveLoop_absolute hc parts), compose_absolute, if_neg hne,
        formOf_absolute hc]
      rfl

/-! ## Writing and reading a form -/

namespace Form

/-- The root of the form reads as one, and its names read as names. -/
structure Normal (f : Form) : Prop where
  root : ∀ c ∈ f.root, isRootPart c = true ∧ '/' ∉ c
  names : ∀ name ∈ f.walk.downs, name ≠ [] ∧ name ≠ dot ∧ name ≠ dotdot ∧ '/' ∉ name
  relative : f.root = none → ∀ name ∈ f.walk.downs, isRootPart name = false

variable {f : Form}

/-- No component on the stack of a normal form is empty or holds a
separator. -/
theorem Normal.mem_stackOf (h : f.Normal) {part : Str} (hmem : part ∈ stackOf f.walk) :
    part ≠ [] ∧ '/' ∉ part := by
  rcases List.mem_append.1 hmem with hmem | hmem
  · rw [(List.mem_replicate.1 hmem).2]
    decide
  · obtain ⟨h0, -, -, hsep⟩ := h.names part hmem
    exact ⟨h0, hsep⟩

/-- The machine reads the stack of a normal form as the walk it was written
from. -/
theorem Normal.stackWalk_stackOf (h : f.Normal) : stackWalk (stackOf f.walk) = f.walk := by
  have hups : ∀ n : Nat, stackWalk (List.replicate n dotdot) = ⟨n, []⟩ := by
    intro n
    induction n with
    | zero => rfl
    | succ n ih =>
      rw [List.replicate_succ', stackWalk_append, ih, stackWalk_cons, stackWalk_nil, mul_one,
        stackStep_dotdot, Walk.mul_up_of_nil rfl]
  have hdowns : ∀ ds : List Str, (∀ d ∈ ds, d ≠ dot ∧ d ≠ dotdot) → stackWalk ds = ⟨0, ds⟩ := by
    intro ds
    induction ds with
    | nil => exact fun _ => rfl
    | cons d ds ih =>
      intro hds
      obtain ⟨h1, h2⟩ := hds d (by simp)
      rw [stackWalk_cons, ih fun e he => hds e (List.mem_cons_of_mem _ he), stackStep_name h1 h2]
      ext1 <;> simp
  have hnames : ∀ d ∈ f.walk.downs, d ≠ dot ∧ d ≠ dotdot := by
    intro d hd
    obtain ⟨-, h1, h2, -⟩ := h.names d hd
    exact ⟨h1, h2⟩
  rw [stackOf, stackWalk_append, hups, hdowns _ hnames]
  ext1 <;> simp

/-- The text of a normal form is read back as its components, unless nothing
is left of it. -/
theorem Normal.partsOf_text (h : f.Normal) (hne : f.stack ≠ []) :
    partsOf f.text = f.stack := by
  have hlast : ∀ parts : List Str, (∀ part ∈ parts, part ≠ []) → parts.getLast? ≠ some [] :=
    fun parts hparts hnil => hparts [] (List.mem_of_getLast? hnil) rfl
  obtain ⟨root, walk⟩ := f
  cases root with
  | none =>
    have hstack : stackOf walk ≠ [] := hne
    have hjoin : ['/'].intercalate (stackOf walk) ≠ [] := by
      rw [Ne, intercalate_eq_nil_iff, not_or]
      refine ⟨hstack, fun heq => ?_⟩
      have hmem : [] ∈ stackOf walk := heq ▸ List.mem_cons_self
      exact (h.mem_stackOf hmem).1 rfl
    simp only [text, stack, if_neg hjoin]
    exact Lines.getlines_joined (fun part hpart => (h.mem_stackOf hpart).2)
      (hlast _ fun part hpart => (h.mem_stackOf hpart).1)
  | some c =>
    have hsep : '/' ∉ c := (h.root c rfl).2
    simp only [text, stack, Option.toList_some, List.singleton_append]
    by_cases hstack : stackOf walk = []
    · rw [if_pos hstack, hstack, List.intercalate_cons_cons, List.intercalate_singleton,
        List.append_nil]
      exact Lines.getlines_append_cons hsep []
    · rw [if_neg hstack]
      refine Lines.getlines_joined ?_ ?_
      · intro part hpart
        rcases List.mem_cons.1 hpart with rfl | hpart
        · exact hsep
        · exact (h.mem_stackOf hpart).2
      · rw [List.getLast?_cons_of_ne_nil hstack]
        exact hlast _ fun part hpart => (h.mem_stackOf hpart).1

/-- A normal form that is written down is read again. -/
theorem Normal.formOf_partsOf_text (h : f.Normal) : formOf (partsOf f.text) = f := by
  by_cases hne : f.stack = []
  · -- Nothing is left, and the text is `.`.
    obtain ⟨_ | c, walk⟩ := f
    · have hstack : stackOf walk = [] := hne
      have hwalk : stackWalk (stackOf walk) = walk := h.stackWalk_stackOf
      rw [← hwalk, hstack]
      rfl
    · cases hne
  rw [h.partsOf_text hne]
  obtain ⟨root, walk⟩ := f
  cases root with
  | some c =>
    rw [stack, Option.toList_some, List.singleton_append, formOf_absolute (h.root c rfl).1,
      h.stackWalk_stackOf]
  | none =>
    have hrel : (stackOf walk).head?.any isRootPart = false := by
      cases hs : stackOf walk with
      | nil => rfl
      | cons part parts =>
        have hmem : part ∈ stackOf walk := hs ▸ List.mem_cons_self
        rcases List.mem_append.1 hmem with hmem | hmem
        · rw [(List.mem_replicate.1 hmem).2]
          rfl
        · simpa using h.relative rfl part hmem
    rw [stack, Option.toList_none, List.nil_append, formOf_relative hrel, h.stackWalk_stackOf]

/-- The text of a normal form ends with a separator only if it is a root
alone. -/
theorem Normal.eq_root_of_getLast? (h : f.Normal) (hlast : f.text.getLast? = some '/') :
    ∃ c, f.root = some c ∧ f.text = c ++ slash := by
  -- A join ends as its last component does.
  have hend : ∀ parts : List Str, parts ≠ [] → (∀ part ∈ parts, part ≠ [] ∧ '/' ∉ part) →
      ∀ before : List Str, (['/'].intercalate (before ++ parts)).getLast? ≠ some '/' := by
    intro parts hne hparts before hjoin
    obtain ⟨ls, l, rfl⟩ := (List.eq_nil_or_concat' parts).resolve_left hne
    obtain ⟨hl, hsep⟩ := hparts l (by simp)
    obtain ⟨b, hb⟩ := Option.ne_none_iff_exists'.1 (mt List.getLast?_eq_none_iff.1 hl)
    rw [← List.append_assoc, ← Lines.flatten_append_eq_intercalate, List.getLast?_append, hb,
      Option.some_or, Option.some.injEq] at hjoin
    exact hsep (hjoin ▸ List.mem_of_getLast? hb)
  have hstack := fun part (hpart : part ∈ stackOf f.walk) => h.mem_stackOf hpart
  obtain ⟨root, walk⟩ := f
  cases root with
  | none =>
    exfalso
    simp only [text] at hlast
    split at hlast
    · exact absurd hlast (by decide)
    · rename_i hjoin
      have hne : stackOf walk ≠ [] := fun hs => hjoin ((intercalate_eq_nil_iff _).2 (Or.inl hs))
      exact hend _ hne hstack [] hlast
  | some c =>
    refine ⟨c, rfl, ?_⟩
    simp only [text] at hlast ⊢
    by_cases hs : stackOf walk = []
    · rw [if_pos hs, List.intercalate_cons_cons, List.intercalate_singleton, List.append_nil]
      rfl
    · rw [if_neg hs] at hlast
      exact absurd hlast (hend _ hs hstack [c])

end Form

/-! ## The form of a path -/

/-- No component after the first is empty. -/
def NoEmptyLater (path : Str) : Prop := [] ∉ (partsOf (Path.ofStr path).unifiedPath).tail

/-- No component after the first is one character followed by `:`. -/
def NoDriveLater (path : Str) : Prop :=
  ∀ c, [c, ':'] ∉ (partsOf (Path.ofStr path).unifiedPath).tail

/-- Without empty components the machine walks as the path does. -/
theorem stackWalk_eq_walkOf {parts : List Str} (h : [] ∉ parts) :
    stackWalk parts = walkOf parts := by
  unfold stackWalk walkOf
  congr 1
  apply List.map_congr_left
  intro part hpart
  have hne : part ≠ [] := fun hnil => h (hnil ▸ hpart)
  have hempty : part.isEmpty = false := by simpa using hne
  unfold stackStep stepOf
  simp only [hempty, Bool.false_eq_true, false_or]

/-- What is left on the stack has been read. -/
theorem mem_of_mem_downs {parts : List Str} {part : Str}
    (h : part ∈ (stackWalk parts).downs) : part ∈ parts := by
  obtain ⟨h1, h2⟩ := ne_dots_of_mem_downs h
  obtain ⟨u, v, rfl, -⟩ := (mem_downs_iff h1 h2 parts).1 h
  simp

/-- The form of components without empty ones after the first is normal, if it
has a root or no later component reads as one. -/
theorem normal_formOf {parts : List Str} (hsep : ∀ part ∈ parts, '/' ∉ part)
    (hempty : [] ∉ parts.tail)
    (hdrive : parts.head?.any isRootPart = false →
      ∀ part ∈ parts.tail, isRootPart part = false) : (formOf parts).Normal := by
  cases habs : parts.head?.any isRootPart with
  | false =>
    rw [formOf_relative habs]
    have hroot : ∀ part ∈ parts, isRootPart part = false := by
      intro part hpart
      cases parts with
      | nil => cases hpart
      | cons c parts =>
        rcases List.mem_cons.1 hpart with rfl | hpart
        · simpa using habs
        · exact hdrive habs part hpart
    refine ⟨fun c hc => (by cases hc), fun name hname => ?_, fun _ name hname => ?_⟩
    · obtain ⟨h1, h2⟩ := ne_dots_of_mem_downs hname
      have hmem := mem_of_mem_downs hname
      refine ⟨?_, h1, h2, hsep name hmem⟩
      rintro rfl
      exact absurd (hroot [] hmem) (by decide)
    · exact hroot name (mem_of_mem_downs hname)
  | true =>
    cases parts with
    | nil => cases habs
    | cons c parts =>
      have hc : isRootPart c = true := by simpa using habs
      rw [formOf_absolute hc]
      refine ⟨?_, fun name hname => ?_, fun hnone => (by cases hnone)⟩
      · intro c' hc'
        obtain rfl : c' = c := (Option.mem_some.1 hc').symm
        exact ⟨hc, hsep c' List.mem_cons_self⟩
      · obtain ⟨h1, h2⟩ := ne_dots_of_mem_downs hname
        have hmem := mem_of_mem_downs hname
        exact ⟨fun hnil => hempty (hnil ▸ hmem), h1, h2, hsep name (List.mem_cons_of_mem _ hmem)⟩

/-- The components that `resolved` leaves are a root, some `..`, and names; it
ends with a separator only as a root alone; and a second `resolved` changes
nothing. -/
theorem resolved_normal (path : Str) (hempty : NoEmptyLater path) (hdrive : NoDriveLater path) :
    ((Path.ofStr path).resolved = dot ∨
      ∃ (root : Option Str) (n : Nat) (names : List Str),
        partsOf (Path.ofStr path).resolved = root.toList ++ List.replicate n dotdot ++ names ∧
        (∀ c ∈ root, isRootPart c = true) ∧
        ∀ name ∈ names, name ≠ [] ∧ name ≠ dot ∧ name ≠ dotdot) ∧
    ((Path.ofStr path).resolved.getLast? = some '/' →
      ∃ c, isRootPart c = true ∧ '/' ∉ c ∧ (Path.ofStr path).resolved = c ++ slash) ∧
    (Path.ofStr (Path.ofStr path).resolved).resolved = (Path.ofStr path).resolved := by
  have hnormal : (formOf (partsOf (unify path))).Normal := by
    refine normal_formOf (fun part hp => Lines.notMem_of_mem_getlines hp) hempty ?_
    intro _ part hpart
    rw [← Bool.not_eq_true]
    intro hroot
    rcases isRootPart_cases hroot with rfl | ⟨c, rfl⟩
    · exact hempty hpart
    · exact hdrive c hpart
  have hunified : unify (Path.ofStr path).resolved = (Path.ofStr path).resolved :=
    unify_resolved _ (backslash_notMem_unify path)
  rw [resolved_eq_text path] at hunified ⊢
  rw [resolved_eq_text (formOf _).text, hunified, hnormal.formOf_partsOf_text]
  generalize formOf (partsOf (unify path)) = f at hnormal
  refine ⟨?_, fun hlast => ?_, rfl⟩
  · by_cases hstack : f.stack = []
    · left
      obtain ⟨_ | c, walk⟩ := f
      · have hnil : stackOf walk = [] := hstack
        rw [Form.text, hnil]
        rfl
      · cases hstack
    · right
      refine ⟨f.root, f.walk.ups, f.walk.downs, ?_, fun c hc => (hnormal.root c hc).1, ?_⟩
      · rw [hnormal.partsOf_text hstack, List.append_assoc]
        rfl
      · intro name hname
        obtain ⟨h0, h1, h2, -⟩ := hnormal.names name hname
        exact ⟨h0, h1, h2⟩
  · obtain ⟨c, hc, htext⟩ := hnormal.eq_root_of_getLast? hlast
    obtain ⟨hroot, hsep⟩ := hnormal.root c hc
    exact ⟨c, hroot, hsep, htext⟩

/-- A root, climbs above it, and a name that is taken back. -/
theorem resolved_normal_root :
    (Path.ofStr (Path.ofStr "C:/../a/./../..".toList).resolved).resolved
      = (Path.ofStr "C:/../a/./../..".toList).resolved :=
  (resolved_normal "C:/../a/./../..".toList (by unfold NoEmptyLater; decide)
    (by
      have hparts : (partsOf (Path.ofStr "C:/../a/./../..".toList).unifiedPath).tail
          = ["..".toList, "a".toList, ".".toList, "..".toList, "..".toList] := by decide
      intro c
      rw [hparts]
      simp)).2.2

/-! ## Paths of the same location -/

/-- The form of a path gives its route. -/
theorem routeOf_eq_formOf {parts : List Str} (h : [] ∉ parts.tail) :
    routeOf parts = ⟨(formOf parts).root.bind rootOf, (formOf parts).walk⟩ := by
  cases parts with
  | nil => rfl
  | cons c parts =>
    cases hr : rootOf c with
    | some r =>
      have hc : isRootPart c = true := (isRootPart_iff c).2 ⟨r, hr⟩
      have hwalk : stackWalk parts = walkOf parts := stackWalk_eq_walkOf h
      rw [routeOf_cons_of_rootOf hr, formOf_absolute hc, hwalk, Option.bind_some, hr]
    | none =>
      have hc : isRootPart c = false := (rootOf_eq_none_iff c).1 hr
      have hne : [] ∉ c :: parts := by
        intro hmem
        rcases List.mem_cons.1 hmem with rfl | hmem
        · exact absurd hc (by decide)
        · exact h hmem
      rw [routeOf_cons_of_relative hc, formOf_relative (by simpa using hc),
        stackWalk_eq_walkOf hne]
      rfl

/-- Different first components go to different roots. -/
theorem rootOf_inj {c c' : Str} {r : Root} (h : rootOf c = some r) (h' : rootOf c' = some r) :
    c = c' := by
  have hslash : ∀ part, rootOf part = some .slash → part = [] := by
    intro part hpart
    unfold rootOf at hpart
    split_ifs at hpart with hempty hdrive
    · exact List.isEmpty_iff.1 hempty
    · cases hpart
  have hletter : ∀ part letter, rootOf part = some (.drive letter) → part = letter := by
    intro part letter hpart
    unfold rootOf at hpart
    split_ifs at hpart with hempty hdrive
    · cases hpart
    · cases hpart
      rfl
  cases r with
  | slash => rw [hslash c h, hslash c' h']
  | drive letter => rw [hletter c letter h, hletter c' letter h']

/-- The route of a form. -/
def Form.route (f : Form) : Route Root Str := ⟨f.root.bind rootOf, f.walk⟩

/-- Two forms of the same location are the same, if no climb follows their
roots. -/
theorem Form.eq_of_forall_lead_eq {f f' : Form} (hroot : ∀ c ∈ f.root, isRootPart c = true)
    (hroot' : ∀ c ∈ f'.root, isRootPart c = true) (hups : f.root ≠ none → f.walk.ups = 0)
    (hups' : f'.root ≠ none → f'.walk.ups = 0)
    (hlead : ∀ start, f.route.lead start = f'.route.lead start) : f = f' := by
  have hsome := isSome_root_eq_of_forall_lead_eq hlead
  obtain ⟨_ | c, a⟩ := f <;> obtain ⟨_ | c', a'⟩ := f'
  · have hwalk : a = a' := (Route.forall_lead_eq_iff_of_relative a a').1 hlead
    rw [hwalk]
  · obtain ⟨r, hr⟩ := (isRootPart_iff c').1 (hroot' c' rfl)
    simp [Form.route, hr] at hsome
  · obtain ⟨r, hr⟩ := (isRootPart_iff c).1 (hroot c rfl)
    simp [Form.route, hr] at hsome
  · obtain ⟨r, hr⟩ := (isRootPart_iff c).1 (hroot c rfl)
    obtain ⟨r', hr'⟩ := (isRootPart_iff c').1 (hroot' c' rfl)
    simp only [Form.route, Option.bind_some, hr, hr'] at hlead
    obtain rfl : r = r' := congrArg Place.root (hlead ⟨.slash, []⟩)
    have hdowns : a.downs = a'.downs := (Route.forall_lead_eq_iff_of_root r a a').1 hlead
    have hups0 : a.ups = 0 := hups (Option.some_ne_none c)
    have hups0' : a'.ups = 0 := hups' (Option.some_ne_none c')
    rw [rootOf_inj hr hr', Walk.ext (hups0.trans hups0'.symm) hdowns]

/-- The form of a path starts at the root that the path starts at. -/
theorem root_formOf_cases (parts : List Str) :
    (parts.head?.any isRootPart = false ∧ (formOf parts).root = none) ∨
      ∃ c rest, parts = c :: rest ∧ isRootPart c = true ∧
        formOf parts = ⟨some c, stackWalk rest⟩ := by
  cases habs : parts.head?.any isRootPart with
  | false =>
    left
    rw [formOf_relative habs]
    exact ⟨rfl, rfl⟩
  | true =>
    right
    cases parts with
    | nil => cases habs
    | cons c rest =>
      have hc : isRootPart c = true := by simpa using habs
      exact ⟨c, rest, rfl, hc, formOf_absolute hc rest⟩

/-- No `..` of an absolute path takes its root back. -/
def StaysInside (path : Str) : Prop :=
  (Path.ofStr path).isAbsolute = true →
    ¬ TakenBack (partsOf (Path.ofStr path).unifiedPath).tail

/-- No `..` is left behind the root of an absolute path. -/
def ShedsDotdot (path : Str) : Prop :=
  (Path.ofStr path).isAbsolute = true → dotdot ∉ partsOf (Path.ofStr path).resolved

/-- `resolved` gives the two paths one name if they denote one location, and it
leaves no `..` at a root. -/
def Canonical (p q : Str) : Prop :=
  ((∀ start, location (Path.ofStr p).unifiedPath start
      = location (Path.ofStr q).unifiedPath start) →
    (Path.ofStr p).resolved = (Path.ofStr q).resolved) ∧
  ShedsDotdot p ∧ ShedsDotdot q

/-- A `..` is left behind the root exactly when it has taken the root back. -/
theorem shedsDotdot_iff {path : Str} (hempty : NoEmptyLater path) :
    ShedsDotdot path ↔ StaysInside path := by
  have hsep : ∀ part ∈ partsOf (unify path), '/' ∉ part :=
    fun part hp => Lines.notMem_of_mem_getlines hp
  unfold ShedsDotdot StaysInside
  rw [isAbsolute_ofStr]
  apply imp_congr_right
  intro habs
  rw [resolved_eq_text, takenBack_iff, Classical.not_not]
  show _ ↔ (stackWalk (partsOf (unify path)).tail).ups = 0
  have hnormal := normal_formOf hsep hempty (fun hrel => by rw [habs] at hrel; cases hrel)
  rcases root_formOf_cases (partsOf (unify path)) with ⟨hrel, -⟩ | ⟨c, rest, hparts, hc, hform⟩
  · rw [habs] at hrel
    cases hrel
  rw [hform] at hnormal ⊢
  rw [hnormal.partsOf_text (by simp [Form.stack]), hparts, List.tail_cons]
  have hroot := (not_dots_of_isRootPart hc).2
  have hdowns : dotdot ∉ (stackWalk rest).downs := fun hmem => (ne_dots_of_mem_downs hmem).2 rfl
  show dotdot ∉ c :: (List.replicate (stackWalk rest).ups dotdot ++ (stackWalk rest).downs) ↔ _
  simp [hroot.symm, hdowns]

/-- The names that `resolved` gives are canonical exactly for paths that stay
inside their roots. -/
theorem canonical_iff {p q : Str} (hp : NoEmptyLater p) (hq : NoEmptyLater q) :
    Canonical p q ↔ StaysInside p ∧ StaysInside q := by
  constructor
  · rintro ⟨-, hp', hq'⟩
    exact ⟨(shedsDotdot_iff hp).1 hp', (shedsDotdot_iff hq).1 hq'⟩
  · rintro ⟨hp', hq'⟩
    refine ⟨fun hlead => ?_, (shedsDotdot_iff hp).2 hp', (shedsDotdot_iff hq).2 hq'⟩
    have hinside : ∀ path, StaysInside path → (formOf (partsOf (unify path))).root ≠ none →
        (formOf (partsOf (unify path))).walk.ups = 0 := by
      intro path hpath hroot
      unfold StaysInside at hpath
      rw [isAbsolute_ofStr, takenBack_iff, Classical.not_not] at hpath
      rcases root_formOf_cases (partsOf (unify path)) with ⟨-, hnone⟩ | ⟨c, rest, hparts, hc, hform⟩
      · exact absurd hnone hroot
      · rw [hform]
        have htail := hpath (by rw [hparts]; simpa using hc)
        rwa [show (partsOf (Path.ofStr path).unifiedPath).tail = rest from
          congrArg List.tail hparts] at htail
    have hroot : ∀ path, ∀ c ∈ (formOf (partsOf (unify path))).root, isRootPart c = true := by
      intro path c hmem
      rcases root_formOf_cases (partsOf (unify path)) with ⟨-, hnone⟩ | ⟨c', rest, -, hc, hform⟩
      · rw [hnone] at hmem
        cases hmem
      · rw [hform] at hmem
        rwa [← Option.mem_some.1 hmem]
    have hroute : ∀ path, NoEmptyLater path →
        routeOf (components (Path.ofStr path).unifiedPath)
          = (formOf (partsOf (unify path))).route :=
      fun path hpath => (routeOf_components _).trans (routeOf_eq_formOf hpath)
    rw [resolved_eq_text, resolved_eq_text]
    congr 1
    refine Form.eq_of_forall_lead_eq (hroot p) (hroot q) (hinside p hp') (hinside q hq') ?_
    intro start
    rw [← hroute p hp, ← hroute q hq]
    exact hlead start

/-- Two names of a file below the root. -/
theorem canonical_iff_below :
    Canonical "/a/../b".toList "/b".toList := by
  have hinside : ∀ path, (partsOf (Path.ofStr path).unifiedPath).tail ∈
      [["a".toList, dotdot, "b".toList], ["b".toList]] → StaysInside path := by
    intro path hpath _
    rw [takenBack_iff, Classical.not_not]
    generalize (partsOf (Path.ofStr path).unifiedPath).tail = parts at hpath
    revert parts
    decide
  refine (canonical_iff ?_ ?_).2 ⟨hinside _ (by decide), hinside _ (by decide)⟩
  · unfold NoEmptyLater
    decide
  · unfold NoEmptyLater
    decide

/-- `/..` and `/` denote the root, but `resolved` gives them two names. -/
theorem not_canonical_root :
    NoEmptyLater "/..".toList ∧ NoEmptyLater "/".toList ∧
      (∀ start, location (Path.ofStr "/..".toList).unifiedPath start
        = location (Path.ofStr "/".toList).unifiedPath start) ∧
      (Path.ofStr "/..".toList).resolved ≠ (Path.ofStr "/".toList).resolved := by
  refine ⟨?_, ?_, fun start => rfl, by decide⟩
  · unfold NoEmptyLater
    decide
  · unfold NoEmptyLater
    decide

end SysFs
