import Mathlib.Algebra.Group.Defs
import SysFs.Coherence
import SysFs.Location

/-!
# `resolve` as the product of paths

`resolve` puts one path behind another.  The string of the result depends on
the strings of the operands alone, and on unified strings it is the product of
a monoid whose unit is the empty path (`Unified`).  `unified_resolve` says that
`resolve` computes this product.

`routeOf` turns the product into the product of routes (`route_mul`): a root in
the second operand forgets the first one, and otherwise the walks follow each
other.  Whether a product is absolute, and where it leads, are read off from
there.

The law that takes work is associativity: the full path of a product has to be
the product of the full paths, whatever separators stand at the seam
(`fullPath_append`).
-/

namespace SysFs

/-- A string in unified form. -/
@[ext] structure Unified where
  str : Str
  unified : unify str = str

namespace Unified

/-- The full path of a path with this string. -/
def fullPath (u : Unified) : Str := (Path.ofStr u.str).fullPath

/-- Whether a path with this string is absolute. -/
def isAbsolute (u : Unified) : Bool := (Path.ofStr u.str).isAbsolute

/-- The route of a path with this string. -/
def route (u : Unified) : Route Root Str := routeOf (components u.str)

theorem isAbsolute_eq (u : Unified) : u.isAbsolute = u.route.root.isSome := by
  rw [route, routeOf_components, isSome_root_routeOf, isAbsolute, isAbsolute_ofStr, u.unified]

theorem isAbsolute_of_nil {u : Unified} (h : u.str = []) : u.isAbsolute = false := by
  rw [isAbsolute, h]
  rfl

/-- The full path is unified as well. -/
theorem unify_fullPath (u : Unified) : unify u.fullPath = u.fullPath := by
  have hcoherent : (Path.ofStr u.str).Coherent := Path.Coherent.of_setPath _ _
  exact unify_of_notMem hcoherent.backslash_notMem_fullPath

/-- The full path and one more string, with a separator between them. -/
theorem unify_behind (u v : Unified) :
    unify (u.fullPath ++ '/' :: v.str) = u.fullPath ++ '/' :: v.str := by
  have hu : u.fullPath.map _ = u.fullPath := u.unify_fullPath
  have hv : v.str.map _ = v.str := v.unified
  rw [unify, List.map_append, List.map_cons, hu, hv]
  rfl

/-- The string that `resolve` gives. -/
def behind (u v : Unified) : Unified :=
  if v.isAbsolute ∨ u.str = [] then v
  else if v.str = [] then u
  else ⟨u.fullPath ++ '/' :: v.str, unify_behind u v⟩

instance : Mul Unified := ⟨behind⟩

instance : One Unified := ⟨⟨[], rfl⟩⟩

/-! ## The cases of the product -/

theorem mul_of_absolute (u : Unified) {v : Unified} (h : v.isAbsolute = true) : u * v = v :=
  if_pos (Or.inl h)

theorem mul_of_nil_left {u : Unified} (v : Unified) (h : u.str = []) : u * v = v :=
  if_pos (Or.inr h)

theorem mul_of_nil_right (u : Unified) {v : Unified} (h : v.str = []) : u * v = u := by
  show behind u v = u
  unfold behind
  split_ifs with hleft
  · rcases hleft with habs | hu
    · rw [isAbsolute_of_nil h] at habs
      cases habs
    · exact Unified.ext (h.trans hu.symm)
  · rfl

theorem mul_of_relative {u v : Unified} (hu : u.str ≠ []) (hv : v.str ≠ [])
    (hrel : v.isAbsolute = false) : (u * v).1 = u.fullPath ++ '/' :: v.str := by
  show (behind u v).1 = _
  rw [behind, if_neg (by simp [hrel, hu]), if_neg hv]

/-! ## Where a product leads -/

/-- A separator at the end of a path does not change its route. -/
theorem routeOf_components_append_slash {s : Str} (h : s ≠ []) :
    routeOf (components (s ++ ['/'])) = routeOf (components s) := by
  rw [components, Lines.fields_append_cons, List.splitOn_nil, components,
    Lines.fields_of_ne_nil h]
  exact routeOf_append_nil (List.splitOn_ne_nil '/' s)

/-- A path that is not empty has a full path that is not empty. -/
theorem fullPath_ne_nil {u : Unified} (h : u.str ≠ []) : u.fullPath ≠ [] := by
  intro hnil
  rcases Path.fullPath_ofStr_cases u.unified with heq | heq | ⟨heq, -⟩
  · exact h (heq ▸ hnil)
  · -- The path would be a separator alone, which is its own full path.
    have hfull : (Path.ofStr u.str).fullPath = [] := hnil
    rw [hfull] at heq
    rw [heq] at hfull
    exact absurd hfull (by decide)
  · have hfull : (Path.ofStr u.str).fullPath = [] := hnil
    rw [hfull] at heq
    simp at heq

/-- The full path has the route of the path. -/
theorem routeOf_fullPath {u : Unified} (h : u.str ≠ []) :
    routeOf (components u.fullPath) = u.route := by
  rcases Path.fullPath_ofStr_cases u.unified with heq | heq | ⟨heq, -⟩
  · rw [fullPath, heq]
    rfl
  · have hne := fullPath_ne_nil h
    have hstr : u.str = u.fullPath ++ ['/'] := heq
    rw [← routeOf_components_append_slash hne, ← hstr]
    rfl
  · rw [fullPath, heq]
    exact routeOf_components_append_slash h

/-- More components behind a path continue its walk. -/
theorem routeOf_append {parts : List Str} (h : parts ≠ []) (parts' : List Str) :
    routeOf (parts ++ parts') = routeOf parts * ⟨none, walkOf parts'⟩ := by
  obtain ⟨part, parts, rfl⟩ := List.exists_cons_of_ne_nil h
  rw [Route.mul_none, List.cons_append]
  cases hr : rootOf part with
  | some r => simp [routeOf_cons_of_rootOf hr]
  | none =>
    have hrel := (rootOf_eq_none_iff part).1 hr
    simp [routeOf_cons_of_relative hrel, mul_assoc]

/-- A relative path has no root in its route. -/
theorem route_of_relative {u : Unified} (h : u.isAbsolute = false) :
    u.route = ⟨none, walkOf (components u.str)⟩ := by
  rw [isAbsolute_eq] at h
  unfold route at h ⊢
  cases hparts : components u.str with
  | nil => rfl
  | cons part parts =>
    rw [hparts] at h
    cases hr : rootOf part with
    | some r =>
      rw [routeOf_cons_of_rootOf hr] at h
      cases h
    | none => exact routeOf_cons_of_relative ((rootOf_eq_none_iff part).1 hr) parts

/-- The route of a product is the product of the routes. -/
theorem route_mul (u v : Unified) : (u * v).route = u.route * v.route := by
  cases habs : v.isAbsolute with
  | true =>
    have hroot := isAbsolute_eq v
    rw [habs] at hroot
    rw [mul_of_absolute u habs]
    generalize v.route = t at hroot ⊢
    obtain ⟨_ | r, a⟩ := t
    · cases hroot
    · rw [Route.mul_some]
  | false =>
    rw [route_of_relative habs, Route.mul_none]
    by_cases hu : u.str = []
    · rw [mul_of_nil_left v hu, route_of_relative habs, route, hu]
      rw [show routeOf (components []) = ⟨none, 1⟩ from rfl, one_mul]
    by_cases hv : v.str = []
    · rw [mul_of_nil_right u hv, hv]
      rw [show walkOf (components []) = 1 from rfl, mul_one]
    · have hne := fullPath_ne_nil hu
      rw [route, mul_of_relative hu hv habs, components, Lines.fields_append_cons,
        routeOf_append (List.splitOn_ne_nil _ _), ← Lines.fields_of_ne_nil hne,
        ← Lines.fields_of_ne_nil hv, Route.mul_none]
      rw [show routeOf (Lines.fields '/' u.fullPath) = u.route from routeOf_fullPath hu]
      rfl

/-- A product is absolute when one of its operands is. -/
theorem isAbsolute_mul (u v : Unified) :
    (u * v).isAbsolute = (u.isAbsolute || v.isAbsolute) := by
  rw [isAbsolute_eq, isAbsolute_eq, isAbsolute_eq, route_mul, Route.mul_root, Option.isSome_or,
    Bool.or_comm]

/-! ## Associativity -/

/-- The full path of a relative path is its components joined again. -/
theorem fullPath_of_relative {v : Unified} (hrel : v.isAbsolute = false) :
    v.fullPath = ['/'].intercalate (partsOf v.str) := by
  by_cases hv : v.str = []
  · rw [fullPath, hv]
    rfl
  have hparts := (Path.analyze_parts (Eq.refl (Path.ofStr v.str).mDetails)).2
  rw [Path.ofStr_mPath, v.unified] at hparts
  rcases hparts with h | ⟨-, hsep, hroot⟩
  · exact h
  · -- A root alone, with a separator behind it or not, would be absolute.
    have hone : partsOf v.str = [['/'].intercalate (partsOf v.str)] := by
      rcases Lines.intercalate_getlines '/' v.str with heq | heq
      · have hne : ['/'].intercalate (partsOf v.str) ≠ [] := fun h => hv (heq.trans h)
        conv_lhs => rw [heq]
        exact Lines.getlines_of_notMem hsep hne
      · conv_lhs => rw [heq]
        exact Lines.getlines_append_cons hsep []
    rw [isAbsolute, isAbsolute_ofStr, v.unified, hone, List.head?_cons, Option.any_some,
      hroot] at hrel
    cases hrel

/-- The full path behind a separator. -/
theorem fullPath_append (s : Str) {v : Unified} (hv : v.str ≠ []) (hrel : v.isAbsolute = false)
    (hs : unify (s ++ '/' :: v.str) = s ++ '/' :: v.str) :
    (Path.ofStr (s ++ '/' :: v.str)).fullPath = s ++ '/' :: v.fullPath := by
  have hne : partsOf v.str ≠ [] := fun h => hv (Lines.getlines_eq_nil.1 h)
  have hjoin : ['/'].intercalate (partsOf (s ++ '/' :: v.str))
      = s ++ '/' :: ['/'].intercalate (partsOf v.str) := by
    have hlines : partsOf (s ++ '/' :: v.str) = s.splitOn '/' ++ partsOf v.str :=
      Lines.getlines_append_cons_eq '/' s v.str
    rw [hlines, Lines.intercalate_append '/' (List.splitOn_ne_nil _ _) hne,
      List.intercalate_splitOn]
  have hparts := (Path.analyze_parts (Eq.refl (Path.ofStr (s ++ '/' :: v.str)).mDetails)).2
  rw [Path.ofStr_mPath, hs, hjoin] at hparts
  rw [fullPath_of_relative hrel]
  rcases hparts with h | ⟨-, hsep, -⟩
  · exact h
  · exact absurd (List.mem_append_right _ List.mem_cons_self) hsep

/-- The full path of a product is the product of the full paths. -/
theorem fullPath_mul {u v : Unified} (hu : u.str ≠ []) (hv : v.str ≠ [])
    (hrel : v.isAbsolute = false) : (u * v).fullPath = u.fullPath ++ '/' :: v.fullPath := by
  have hs := (u * v).unified
  rw [mul_of_relative hu hv hrel] at hs
  rw [fullPath, mul_of_relative hu hv hrel]
  exact fullPath_append u.fullPath hv hrel hs

theorem mul_str_ne_nil {u v : Unified} (hv : v.str ≠ []) : (u * v).str ≠ [] := by
  cases habs : v.isAbsolute with
  | true => rwa [mul_of_absolute u habs]
  | false =>
    by_cases hu : u.str = []
    · rwa [mul_of_nil_left v hu]
    · rw [mul_of_relative hu hv habs]
      simp

/-- The product is associative.  The cases are those of the two seams. -/
theorem mul_assoc (u v w : Unified) : u * v * w = u * (v * w) := by
  cases hw : w.isAbsolute with
  | true =>
    rw [mul_of_absolute _ hw, mul_of_absolute v hw, mul_of_absolute u hw]
  | false =>
    by_cases hw0 : w.str = []
    · rw [mul_of_nil_right _ hw0, mul_of_nil_right v hw0]
    by_cases hv0 : v.str = []
    · rw [mul_of_nil_right u hv0, mul_of_nil_left w hv0]
    by_cases hu0 : u.str = []
    · rw [mul_of_nil_left v hu0, mul_of_nil_left _ hu0]
    cases hv : v.isAbsolute with
    | true =>
      have habs : (v * w).isAbsolute = true := by rw [isAbsolute_mul, hv, Bool.true_or]
      rw [mul_of_absolute u hv, mul_of_absolute u habs]
    | false =>
      have hrel : (v * w).isAbsolute = false := by rw [isAbsolute_mul, hv, hw, Bool.or_false]
      apply Unified.ext
      calc (u * v * w).str
          = (u * v).fullPath ++ '/' :: w.str :=
            mul_of_relative (mul_str_ne_nil hv0) hw0 hw
        _ = u.fullPath ++ '/' :: (v.fullPath ++ '/' :: w.str) := by
            rw [fullPath_mul hu0 hv0 hv, List.append_assoc, List.cons_append]
        _ = u.fullPath ++ '/' :: (v * w).str := by rw [mul_of_relative hv0 hw0 hw]
        _ = (u * (v * w)).str := (mul_of_relative hu0 (mul_str_ne_nil hw0) hrel).symm

/-- Unified strings with the product of `resolve`. -/
instance : Monoid Unified where
  mul_assoc := mul_assoc
  one_mul v := mul_of_nil_left v rfl
  mul_one u := mul_of_nil_right u rfl

end Unified

/-! ## `resolve` -/

namespace Path

/-- The unified string of an exact path. -/
def Exact.string {p : Path} (h : p.Exact) : Unified := ⟨p.mPath, h.unified⟩

/-- The unified form of a string. -/
def stringOf (s : Str) : Unified := ⟨unify s, unify_unify s⟩

theorem exact_ofStr (s : Str) : (ofStr s).Exact := Exact.setPath Path.empty s

theorem exact_empty : Path.empty.Exact := Exact.of_not_analyzed rfl rfl

@[simp] theorem string_ofStr (s : Str) : (exact_ofStr s).string = stringOf s := rfl

theorem Exact.isAbsolute_eq {p : Path} (h : p.Exact) : p.isAbsolute = h.string.isAbsolute :=
  congrArg Parts.isAbsolute h.parts_eq

theorem Exact.fullPath_eq {p : Path} (h : p.Exact) : p.fullPath = h.string.fullPath :=
  congrArg Parts.fullPath h.parts_eq

/-- What `resolve` gives is exact, and its string is the product. -/
theorem Exact.resolve {p q : Path} (hp : p.Exact) (hq : q.Exact) :
    ∃ h : (p.resolve q).Exact, h.string = hp.string * hq.string := by
  have hpnil : p.isEmpty = true ↔ hp.string.str = [] := List.isEmpty_iff
  have hqnil : q.isEmpty = true ↔ hq.string.str = [] := List.isEmpty_iff
  unfold Path.resolve
  split_ifs with hboth hfirst hempty
  · refine ⟨exact_empty, ?_⟩
    rw [Unified.mul_of_nil_left _ (hpnil.1 hboth.2)]
    exact Unified.ext (hqnil.1 hboth.1).symm
  · refine ⟨hq.analyze, ?_⟩
    have hstring : hq.analyze.string = hq.string := Unified.ext (analyze_mPath q)
    rw [hstring]
    rcases hfirst with habs | hnil
    · rw [Unified.mul_of_absolute _ (hq.isAbsolute_eq ▸ habs)]
    · rw [Unified.mul_of_nil_left _ (hpnil.1 hnil)]
  · refine ⟨hp, ?_⟩
    rw [Unified.mul_of_nil_right _ (hqnil.1 hempty)]
  · refine ⟨exact_ofStr _, Unified.ext ?_⟩
    rw [not_or, Bool.not_eq_true] at hfirst
    have hmul := Unified.mul_of_relative (mt hpnil.2 hfirst.2) (mt hqnil.2 hempty)
      (hq.isAbsolute_eq ▸ hfirst.1)
    have hunified := (hp.string * hq.string).unified
    rw [hmul] at hunified ⊢
    show unify (p.fullPath ++ slash ++ q.unifiedPath) = _
    rw [hp.fullPath_eq, slash, List.append_assoc, List.singleton_append]
    exact hunified

/-- Whether the string ends with a separator is decided by its end. -/
theorem endsWithSeparator_append (s : Str) {t : Str} (ht : t ≠ []) :
    endsWithSeparator (s ++ t) = endsWithSeparator t := by
  obtain ⟨c, hc⟩ := Option.ne_none_iff_exists'.1 (mt List.getLast?_eq_none_iff.1 ht)
  have hs : (s ++ t).isEmpty = false := by simp [ht]
  have ht' : t.isEmpty = false := by simp [ht]
  rw [endsWithSeparator, endsWithSeparator, List.getLast?_append, hc, hs, ht', Option.some_or]

/-- Trailing separators are those of the second operand. -/
theorem pointsToContent_resolve (p : Path) {t : Str} (ht : t ≠ []) :
    (p.resolve (ofStr t)).pointsToContent = (ofStr t).pointsToContent := by
  have hne : unify t ≠ [] := mt List.map_eq_nil_iff.1 ht
  have hempty : ¬ (ofStr t).isEmpty = true := mt List.isEmpty_iff.1 hne
  unfold Path.resolve
  rw [if_neg (fun h => hempty h.1)]
  split_ifs
  · rfl
  · show endsWithSeparator (unify (p.fullPath ++ slash ++ unify t)) = endsWithSeparator (unify t)
    have hsplit : unify (p.fullPath ++ slash ++ unify t)
        = unify (p.fullPath ++ slash) ++ unify (unify t) := List.map_append
    rw [hsplit, unify_unify, endsWithSeparator_append _ hne]

/-- `resolve` is the product of a monoid on paths, as far as their strings go:
it is associative, and the empty path is its unit on both sides.  The product
is absolute when one of the operands is, and it ends as its second operand
does. -/
theorem resolve_monoid (p q r : Str) :
    (((ofStr p).resolve (ofStr q)).resolve (ofStr r)).unifiedPath
        = ((ofStr p).resolve ((ofStr q).resolve (ofStr r))).unifiedPath ∧
      ((ofStr []).resolve (ofStr p)).unifiedPath = (ofStr p).unifiedPath ∧
      ((ofStr p).resolve (ofStr [])).unifiedPath = (ofStr p).unifiedPath ∧
      (((ofStr p).resolve (ofStr q)).isAbsolute = true ↔
        (ofStr p).isAbsolute = true ∨ (ofStr q).isAbsolute = true) ∧
      (q ≠ [] → ((ofStr p).resolve (ofStr q)).pointsToContent = (ofStr q).pointsToContent) := by
  obtain ⟨hpq, hpq'⟩ := (exact_ofStr p).resolve (exact_ofStr q)
  obtain ⟨hqr, hqr'⟩ := (exact_ofStr q).resolve (exact_ofStr r)
  refine ⟨?_, ?_, ?_, ?_, fun hq => pointsToContent_resolve _ hq⟩
  · obtain ⟨hleft, hleft'⟩ := hpq.resolve (exact_ofStr r)
    obtain ⟨hright, hright'⟩ := (exact_ofStr p).resolve hqr
    show hleft.string.str = hright.string.str
    rw [hleft', hright', hpq', hqr', mul_assoc]
  · obtain ⟨h, h'⟩ := (exact_ofStr []).resolve (exact_ofStr p)
    show h.string.str = (stringOf p).str
    rw [h']
    exact congrArg Unified.str (one_mul (stringOf p))
  · obtain ⟨h, h'⟩ := (exact_ofStr p).resolve (exact_ofStr [])
    show h.string.str = (stringOf p).str
    rw [h']
    exact congrArg Unified.str (mul_one (stringOf p))
  · rw [hpq.isAbsolute_eq, hpq', Unified.isAbsolute_mul, ← (exact_ofStr p).isAbsolute_eq,
      ← (exact_ofStr q).isAbsolute_eq, Bool.or_eq_true]

/-- A seam with separators on both sides. -/
theorem resolve_monoid_seam :
    ((ofStr "a//".toList).resolve (ofStr "b/".toList)).pointsToContent
      = (ofStr "b/".toList).pointsToContent :=
  (resolve_monoid "a//".toList "b/".toList []).2.2.2.2 (by decide)

/-- Walking a resolved path is walking the first path and then the second one
from where that ends. -/
theorem location_resolve (p q : Str) (start : Location) :
    location ((ofStr p).resolve (ofStr q)).unifiedPath start
      = location (ofStr q).unifiedPath (location (ofStr p).unifiedPath start) := by
  obtain ⟨h, hstring⟩ := (exact_ofStr p).resolve (exact_ofStr q)
  show h.string.route.lead start = (stringOf q).route.lead ((stringOf p).route.lead start)
  rw [hstring, Unified.route_mul, Route.lead_mul]
  rfl

end Path

end SysFs
