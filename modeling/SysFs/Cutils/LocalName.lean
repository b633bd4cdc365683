import SysFs.Lib.Run
import SysFs.Base.Strings

/-!
# Names of local sockets

`socket_make_sockaddr_un` turns a name and a namespace into the address of a local
socket.  `sun_path` has 108 bytes, and the kernel looks at those that the length covers:
with a zero in front they are an abstract name, otherwise a path.

* `socket_make_sockaddr_un_bounds`: what is written stays inside the structure.
* `socketName_eq_iff`: when two names lead to one address.  A name of the reserved
  namespace is a path, and an empty path is the empty abstract name.
-/

namespace SysFs.Cutils

open Base

def UNIX_SOCKET_NAMESPACE_ABSTRACT : Int := 0
def UNIX_SOCKET_NAMESPACE_RESERVED : Int := 1
def UNIX_SOCKET_NAMESPACE_FILESYSTEM : Int := 2

def UNIX_RESERVED_SOCKET_PREFIX : Str := "/dev/socket/".toList

/-- The size of `sun_path`, where it starts, and the size of `sockaddr_un`. -/
def sunPathSize : ℕ := 108
def sunPathOffset : ℕ := 2
def sockaddrSize : ℕ := sunPathOffset + sunPathSize

def zero : Char := Char.ofNat 0

/-- `sockaddr_un` and the length of the address. -/
structure SockaddrUn where
  sun_path : Str
  alen : ℕ
deriving DecidableEq, Repr

/-- `sun_path` with a text at its start, after `memset`. -/
def sunPath (text : Str) : Str := text ++ List.replicate (sunPathSize - text.length) zero

/-- `socket_make_sockaddr_un`, where there is an abstract namespace. -/
def socket_make_sockaddr_un (name : Str) (namespaceId : Int) : Option SockaddrUn :=
  if namespaceId = UNIX_SOCKET_NAMESPACE_ABSTRACT then
    let namelen := name.length
    if namelen + 1 > sunPathSize then none
    else some ⟨sunPath (zero :: name), namelen + sunPathOffset + 1⟩
  else if namespaceId = UNIX_SOCKET_NAMESPACE_RESERVED then
    let namelen := name.length + UNIX_RESERVED_SOCKET_PREFIX.length
    if namelen > sockaddrSize - sunPathOffset - 1 then none
    else some ⟨sunPath (UNIX_RESERVED_SOCKET_PREFIX ++ name), namelen + sunPathOffset + 1⟩
  else if namespaceId = UNIX_SOCKET_NAMESPACE_FILESYSTEM then
    let namelen := name.length
    if namelen > sockaddrSize - sunPathOffset - 1 then none
    else some ⟨sunPath name, namelen + sunPathOffset + 1⟩
  else none

/-- What the kernel takes an address for. -/
inductive SocketName where
  | abstract (bytes : Str)
  | path (text : Str)
deriving DecidableEq, Repr

def SockaddrUn.socketName (a : SockaddrUn) : SocketName :=
  let bytes := a.sun_path.take (a.alen - sunPathOffset)
  if bytes.head? = some zero then .abstract bytes.tail else .path (cString bytes)

/-- The socket name of a name in a namespace. -/
def socketName (name : Str) (namespaceId : Int) : Option SocketName :=
  (socket_make_sockaddr_un name namespaceId).map SockaddrUn.socketName

variable {name name' : Str} {namespaceId namespaceId' : Int} {a : SockaddrUn}

/-! ## The three namespaces -/

theorem make_abstract (name : Str) :
    socket_make_sockaddr_un name UNIX_SOCKET_NAMESPACE_ABSTRACT
      = if name.length < sunPathSize then
          some ⟨sunPath (zero :: name), name.length + sunPathOffset + 1⟩
        else none := by
  rw [socket_make_sockaddr_un, if_pos rfl]
  simp only
  by_cases hlen : name.length < sunPathSize
  · rw [if_neg (by omega), if_pos hlen]
  · rw [if_pos (by omega), if_neg hlen]

theorem make_filesystem (name : Str) :
    socket_make_sockaddr_un name UNIX_SOCKET_NAMESPACE_FILESYSTEM
      = if name.length < sunPathSize then
          some ⟨sunPath name, name.length + sunPathOffset + 1⟩
        else none := by
  have hsize : sockaddrSize - sunPathOffset - 1 = 107 := rfl
  have hpath : sunPathSize = 108 := rfl
  rw [socket_make_sockaddr_un, if_neg (by decide), if_neg (by decide), if_pos rfl]
  simp only
  by_cases hlen : name.length < sunPathSize
  · rw [if_neg (by omega), if_pos hlen]
  · rw [if_pos (by omega), if_neg hlen]

/-- A reserved name is a path. -/
theorem make_reserved (name : Str) :
    socket_make_sockaddr_un name UNIX_SOCKET_NAMESPACE_RESERVED
      = socket_make_sockaddr_un (UNIX_RESERVED_SOCKET_PREFIX ++ name)
          UNIX_SOCKET_NAMESPACE_FILESYSTEM := by
  have hsize : sockaddrSize - sunPathOffset - 1 = 107 := rfl
  have hpath : sunPathSize = 108 := rfl
  rw [make_filesystem, socket_make_sockaddr_un, if_neg (by decide), if_pos rfl]
  simp only [List.length_append, Nat.add_comm UNIX_RESERVED_SOCKET_PREFIX.length]
  by_cases hlen : name.length + UNIX_RESERVED_SOCKET_PREFIX.length < sunPathSize
  · rw [if_neg (by omega), if_pos hlen]
  · rw [if_pos (by omega), if_neg hlen]

/-- There are no other namespaces. -/
theorem namespace_cases (h : socket_make_sockaddr_un name namespaceId = some a) :
    namespaceId = UNIX_SOCKET_NAMESPACE_ABSTRACT ∨ namespaceId = UNIX_SOCKET_NAMESPACE_RESERVED ∨
      namespaceId = UNIX_SOCKET_NAMESPACE_FILESYSTEM := by
  by_contra hnone
  rw [not_or, not_or] at hnone
  rw [socket_make_sockaddr_un, if_neg hnone.1, if_neg hnone.2.1, if_neg hnone.2.2] at h
  cases h

theorem length_sunPath {text : Str} (h : text.length ≤ sunPathSize) :
    (sunPath text).length = sunPathSize := by
  rw [sunPath, List.length_append, List.length_replicate]
  omega

/-- What is written stays inside the structure. -/
theorem socket_make_sockaddr_un_bounds
    (h : socket_make_sockaddr_un name namespaceId = some a) :
    a.sun_path.length = sunPathSize ∧ a.alen ≤ sockaddrSize := by
  have hsize : sockaddrSize = sunPathOffset + sunPathSize := rfl
  have hfile : ∀ {name : Str},
      socket_make_sockaddr_un name UNIX_SOCKET_NAMESPACE_FILESYSTEM = some a →
      a.sun_path.length = sunPathSize ∧ a.alen ≤ sockaddrSize := by
    intro name h
    rw [make_filesystem] at h
    split at h
    · rename_i hlen
      obtain rfl := Option.some_inj.1 h
      refine ⟨length_sunPath hlen.le, ?_⟩
      simp only
      omega
    · cases h
  rcases namespace_cases h with rfl | rfl | rfl
  · rw [make_abstract] at h
    split at h
    · rename_i hlen
      obtain rfl := Option.some_inj.1 h
      refine ⟨length_sunPath hlen, ?_⟩
      simp only
      omega
    · cases h
  · rw [make_reserved] at h
    exact hfile h
  · exact hfile h

/-! ## Which names are the same -/

/-- The name of a path: an empty one is the empty abstract name. -/
def pathName (text : Str) : SocketName := if text = [] then .abstract [] else .path text

theorem socketName_abstract (h : name.length < sunPathSize) :
    socketName name UNIX_SOCKET_NAMESPACE_ABSTRACT = some (.abstract name) := by
  rw [socketName, make_abstract, if_pos h]
  have hbytes : (sunPath (zero :: name)).take (name.length + sunPathOffset + 1 - sunPathOffset)
      = zero :: name := by
    rw [sunPath, show name.length + sunPathOffset + 1 - sunPathOffset = (zero :: name).length by
      rw [List.length_cons]; omega, List.take_left]
  simp only [Option.map_some, SockaddrUn.socketName, hbytes]
  rfl

theorem socketName_filesystem (hname : zero ∉ name) (h : name.length < sunPathSize) :
    socketName name UNIX_SOCKET_NAMESPACE_FILESYSTEM = some (pathName name) := by
  rw [socketName, make_filesystem, if_pos h]
  have hbytes : (sunPath name).take (name.length + sunPathOffset + 1 - sunPathOffset)
      = name ++ [zero] := by
    obtain ⟨k, hk⟩ : ∃ k, sunPathSize - name.length = k + 1 :=
      ⟨sunPathSize - name.length - 1, by omega⟩
    rw [sunPath, hk, List.replicate_succ, List.append_cons,
      show name.length + sunPathOffset + 1 - sunPathOffset = (name ++ [zero]).length by
        rw [List.length_append, List.length_singleton]; omega, List.take_left]
  simp only [Option.map_some, SockaddrUn.socketName, hbytes, pathName]
  cases name with
  | nil => rfl
  | cons c name =>
    have hc : ¬ (c :: name ++ [zero]).head? = some zero := by
      intro hhead
      obtain rfl := Option.some_inj.1 hhead
      exact hname List.mem_cons_self
    have hstop : cString (c :: name ++ [zero]) = c :: name := by
      rw [cString, List.takeWhile_append_of_pos, List.takeWhile_cons_of_neg, List.append_nil]
      · simp [zero]
      · intro b hb
        have hne : b ≠ Char.ofNat 0 := by
          rintro rfl
          exact hname hb
        simpa using hne
    rw [if_neg hc, hstop, if_neg (List.cons_ne_nil c name)]

/-- The path that a name of the two path namespaces stands for. -/
def pathOf (name : Str) (namespaceId : Int) : Option Str :=
  if namespaceId = UNIX_SOCKET_NAMESPACE_RESERVED then some (UNIX_RESERVED_SOCKET_PREFIX ++ name)
  else if namespaceId = UNIX_SOCKET_NAMESPACE_FILESYSTEM then some name
  else none

/-- A name that is accepted is abstract or a path. -/
theorem socketName_cases (hname : zero ∉ name) {n : SocketName}
    (h : socketName name namespaceId = some n) :
    (namespaceId = UNIX_SOCKET_NAMESPACE_ABSTRACT ∧ n = .abstract name) ∨
      ∃ text, pathOf name namespaceId = some text ∧ zero ∉ text ∧ n = pathName text := by
  obtain ⟨a, ha, -⟩ := Option.map_eq_some_iff.1 h
  have hfile : ∀ {text : Str}, zero ∉ text →
      socketName text UNIX_SOCKET_NAMESPACE_FILESYSTEM = some n → n = pathName text := by
    intro text htext h
    by_cases hlen : text.length < sunPathSize
    · rw [socketName_filesystem htext hlen] at h
      exact (Option.some_inj.1 h).symm
    · rw [socketName, make_filesystem, if_neg hlen] at h
      cases h
  rcases namespace_cases ha with rfl | rfl | rfl
  · refine Or.inl ⟨rfl, ?_⟩
    by_cases hlen : name.length < sunPathSize
    · rw [socketName_abstract hlen] at h
      exact (Option.some_inj.1 h).symm
    · rw [socketName, make_abstract, if_neg hlen] at h
      cases h
  · have htext : zero ∉ UNIX_RESERVED_SOCKET_PREFIX ++ name := by
      intro hmem
      rcases List.mem_append.1 hmem with h | h
      · exact absurd h (by decide)
      · exact hname h
    rw [socketName, make_reserved] at h
    exact Or.inr ⟨_, rfl, htext, hfile htext h⟩
  · exact Or.inr ⟨_, rfl, hname, hfile hname h⟩

theorem pathName_injective {text text' : Str} : pathName text = pathName text' ↔ text = text' := by
  unfold pathName
  split_ifs with h h'
  · simp [h, h']
  · simp [h, Ne.symm h']
  · simp_all
  · simp

theorem pathName_eq_abstract_iff {text bytes : Str} :
    pathName text = .abstract bytes ↔ text = [] ∧ bytes = [] := by
  unfold pathName
  split_ifs with h
  · simp [h, eq_comm]
  · simp [h]

/-- The empty name, which is abstract in the file system namespace too. -/
def IsNameless (name : Str) (namespaceId : Int) : Prop :=
  name = [] ∧ (namespaceId = UNIX_SOCKET_NAMESPACE_ABSTRACT ∨
    namespaceId = UNIX_SOCKET_NAMESPACE_FILESYSTEM)

theorem pathOf_eq_nil_iff : pathOf name namespaceId = some [] ↔
    name = [] ∧ namespaceId = UNIX_SOCKET_NAMESPACE_FILESYSTEM := by
  unfold pathOf
  split_ifs with h1 h2
  · have hne : UNIX_RESERVED_SOCKET_PREFIX ≠ [] := by decide
    simp [hne, h1, UNIX_SOCKET_NAMESPACE_RESERVED, UNIX_SOCKET_NAMESPACE_FILESYSTEM]
  · simp [h2]
  · simp [h2]

/-- Two names that are accepted give one address exactly when they are the same abstract
name, the same text of a path, or both the empty name, abstract or of a file. -/
theorem socketName_eq_iff (hname : zero ∉ name) (hname' : zero ∉ name') {n n' : SocketName}
    (h : socketName name namespaceId = some n) (h' : socketName name' namespaceId' = some n') :
    n = n' ↔
      (namespaceId = UNIX_SOCKET_NAMESPACE_ABSTRACT ∧
        namespaceId' = UNIX_SOCKET_NAMESPACE_ABSTRACT ∧ name = name') ∨
      (∃ text, pathOf name namespaceId = some text ∧ pathOf name' namespaceId' = some text) ∨
      (IsNameless name namespaceId ∧ IsNameless name' namespaceId') := by
  have hpath : ∀ {name : Str} {namespaceId : Int} {text : Str},
      pathOf name namespaceId = some text → namespaceId ≠ UNIX_SOCKET_NAMESPACE_ABSTRACT := by
    rintro name namespaceId text htext rfl
    cases htext
  rcases socketName_cases hname h with ⟨rfl, rfl⟩ | ⟨text, htext, -, rfl⟩
  · have hnone : pathOf name UNIX_SOCKET_NAMESPACE_ABSTRACT = none := rfl
    rcases socketName_cases hname' h' with ⟨rfl, rfl⟩ | ⟨text', htext', -, rfl⟩
    · have hnone' : pathOf name' UNIX_SOCKET_NAMESPACE_ABSTRACT = none := rfl
      simp only [SocketName.abstract.injEq, true_and, hnone, IsNameless, true_or, and_true]
      constructor
      · exact Or.inl
      · rintro (h | ⟨_, h, -⟩ | ⟨rfl, rfl⟩)
        · exact h
        · cases h
        · rfl
    · rw [eq_comm, pathName_eq_abstract_iff]
      constructor
      · rintro ⟨rfl, rfl⟩
        exact Or.inr (Or.inr ⟨⟨rfl, Or.inl rfl⟩, (pathOf_eq_nil_iff.1 htext').1,
          Or.inr (pathOf_eq_nil_iff.1 htext').2⟩)
      · rintro (⟨-, hns, -⟩ | ⟨_, hnone', -⟩ | ⟨⟨rfl, -⟩, rfl, hns⟩)
        · exact absurd hns (hpath htext')
        · cases hnone'
        · obtain rfl := hns.resolve_left (hpath htext')
          exact ⟨(Option.some_inj.1 htext').symm, rfl⟩
  · rcases socketName_cases hname' h' with ⟨rfl, rfl⟩ | ⟨text', htext', -, rfl⟩
    · rw [pathName_eq_abstract_iff]
      constructor
      · rintro ⟨rfl, rfl⟩
        exact Or.inr (Or.inr ⟨⟨(pathOf_eq_nil_iff.1 htext).1,
          Or.inr (pathOf_eq_nil_iff.1 htext).2⟩, rfl, Or.inl rfl⟩)
      · rintro (⟨hns, -⟩ | ⟨_, -, hnone'⟩ | ⟨⟨rfl, hns⟩, rfl, -⟩)
        · exact absurd hns (hpath htext)
        · cases hnone'
        · obtain rfl := hns.resolve_left (hpath htext)
          exact ⟨(Option.some_inj.1 htext).symm, rfl⟩
    · rw [pathName_injective]
      constructor
      · rintro rfl
        exact Or.inr (Or.inl ⟨text, htext, htext'⟩)
      · rintro (⟨hns, -⟩ | ⟨u, hu, hu'⟩ | ⟨⟨rfl, hns⟩, rfl, hns'⟩)
        · exact absurd hns (hpath htext)
        · rw [htext] at hu
          rw [htext'] at hu'
          exact (Option.some_inj.1 hu).trans (Option.some_inj.1 hu').symm
        · obtain rfl := hns.resolve_left (hpath htext)
          obtain rfl := hns'.resolve_left (hpath htext')
          rw [htext] at htext'
          exact Option.some_inj.1 htext'

theorem socketName_eq_iff_reserved :
    SocketName.path "/dev/socket/x".toList = .path "/dev/socket/x".toList ↔
      ((1 : Int) = 0 ∧ (2 : Int) = 0 ∧ "x".toList = "/dev/socket/x".toList) ∨
      (∃ text, pathOf "x".toList 1 = some text ∧ pathOf "/dev/socket/x".toList 2 = some text) ∨
      (IsNameless "x".toList 1 ∧ IsNameless "/dev/socket/x".toList 2) :=
  socketName_eq_iff (by decide) (by decide) (by decide) (by decide)

end SysFs.Cutils
