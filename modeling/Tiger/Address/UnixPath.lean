import Mathlib.Tactic

/-!
# Address - paths of Unix sockets

This module embeds the constructor of `UnixAddress` from a path, `insert`, `get_path` and
`get_addr_len` (`src/address.cc`).  An abstract name begins with a NUL, and its length tells where
it ends; an ordinary path is printed up to a NUL behind it.

The constructor counts the NUL behind an abstract name and leaves out the one behind an ordinary
path.

Main results:

- Theorem `create_abstract`: an abstract name is stored and counted with a NUL behind it.
- Theorem `create_ordinary`: an ordinary path that fills `sun_path` has no NUL behind it.
- Theorem `comesBack_iff`: the paths that come back.
-/

namespace Tiger
namespace Address
namespace Unix

/-! ## Addresses -/

/-- `sizeof(sun_path)` -/
def pathSize : Nat := 108

/-- `offsetof(sockaddr_un, sun_path)` -/
def pathOffset : Nat := 2

/-- `m_addr.sun_path` and `m_len` of `UnixAddress`; `sun_family` is always `AF_UNIX`. -/
structure UnixAddress where
  sunPath : List UInt8
  len : Nat
  sunPath_length : sunPath.length = pathSize

/-- What the members raise or run into. -/
inductive Failure
  /-- `throw std::logic_error(what)` -/
  | logicError (what : List UInt8)
  /-- a byte behind `sun_path` is read -/
  | overrun
deriving DecidableEq

/-- The bytes of an ASCII text. -/
def ascii (s : String) : List UInt8 := s.toList.map fun c => UInt8.ofNat c.toNat

/-- `m_len` for a path, a `socklen_t`, before the offset is added. -/
def nameLength (path : List UInt8) : Nat :=
  let len := (path.length + 1) % 2 ^ 32
  if path ≠ [] ∧ path.head? ≠ some 0 then (len + 2 ^ 32 - 1) % 2 ^ 32 else len

/-- `UnixAddress(path)`; `path.c_str()` has a NUL behind the path. -/
def create (path : List UInt8) : Except Failure UnixAddress :=
  let len := nameLength path
  if h : len > pathSize then .error (.logicError (ascii "[path too long " ++ path ++ ascii "]"))
  else
    let name := (path ++ [0]).take len
    .ok {
      sunPath := name ++ List.replicate (pathSize - name.length) 0
      len := len + pathOffset
      sunPath_length := by
        have hlen : name.length ≤ len := by
          rw [List.length_take]
          exact Nat.min_le_left _ _
        rw [List.length_append, List.length_replicate]
        omega }

/-- `std::string(sun_path + from, n)` -/
def stringAt (sunPath : List UInt8) (start n : Nat) : Except Failure (List UInt8) :=
  if start + n ≤ pathSize then .ok ((sunPath.drop start).take n) else .error .overrun

/-- `os << sun_path` -/
def cString (sunPath : List UInt8) : Except Failure (List UInt8) :=
  if 0 ∈ sunPath then .ok (sunPath.takeWhile (· ≠ 0)) else .error .overrun

namespace UnixAddress

/-- What `insert` and `get_path` print. -/
def shown (a : UnixAddress) : Except Failure (List UInt8) :=
  if a.len > pathOffset ∧ a.sunPath.head? = some 0 then
    (stringAt a.sunPath 1 (a.len - pathOffset - 1)).map (ascii "\\0" ++ ·)
  else cString a.sunPath

/-- `insert(os)` -/
def insert : UnixAddress → Except Failure (List UInt8) := shown

/-- `get_path()` -/
def getPath : UnixAddress → Except Failure (List UInt8) := shown

/-- `get_addr_len()` -/
def getAddrLen (a : UnixAddress) : Nat := a.len

end UnixAddress

/-! ## Paths that come back -/

/-- A path as it is to be shown: the NUL in front of an abstract name as two characters. -/
def display (path : List UInt8) : List UInt8 :=
  if path.head? = some 0 then ascii "\\0" ++ path.tail else path

/-- The constructor throws, or the address has the path and comes back as it: no byte behind
`sun_path` is read, and the length is that of the family and the name. -/
def ComesBack (path : List UInt8) : Prop :=
  (∃ what, create path = .error (.logicError what)) ∨
    ∃ a, create path = .ok a ∧ a.getPath = .ok (display path) ∧ a.insert = .ok (display path) ∧
      a.getAddrLen = pathOffset + path.length ∧ a.sunPath.take path.length = path

/-- The paths that come back: ordinary paths with room for a NUL behind them, and abstract names
that are refused. -/
def Fits (path : List UInt8) : Prop :=
  (path ≠ [] ∧ path.head? ≠ some 0 ∧ path.length < pathSize) ∨
    (path.head? = some 0 ∧ path.length = pathSize)

variable {path : List UInt8}

/-- The length of the name of an ordinary path. -/
theorem nameLength_ordinary (hne : path ≠ []) (hhead : path.head? ≠ some 0)
    (hlength : path.length ≤ pathSize) : nameLength path = path.length := by
  have hsize : pathSize = 108 := rfl
  rw [nameLength, if_pos ⟨hne, hhead⟩]
  omega

/-- The length of the name of an empty or abstract path. -/
theorem nameLength_other (h : path = [] ∨ path.head? = some 0) (hlength : path.length ≤ pathSize) :
    nameLength path = path.length + 1 := by
  have hsize : pathSize = 108 := rfl
  rw [nameLength, if_neg (by rintro ⟨hne, hhead⟩; exact h.elim hne hhead)]
  omega

/-- An ordinary path is stored without a NUL. -/
theorem create_ordinary (hne : path ≠ []) (hhead : path.head? ≠ some 0)
    (hlength : path.length ≤ pathSize) :
    ∃ a, create path = .ok a ∧ a.len = path.length + pathOffset ∧
      a.sunPath = path ++ List.replicate (pathSize - path.length) 0 := by
  have hlen := nameLength_ordinary hne hhead hlength
  have hname : (path ++ [0]).take (nameLength path) = path := by rw [hlen, List.take_left]
  refine ⟨_, dif_neg (by rw [hlen]; omega), ?_, ?_⟩
  · simp only [hlen]
  · simp only [hname]

/-- An abstract name and an empty path are stored with a NUL behind them, which counts. -/
theorem create_abstract (h : path = [] ∨ path.head? = some 0) (hlength : path.length < pathSize) :
    ∃ a, create path = .ok a ∧ a.len = path.length + 1 + pathOffset ∧
      a.sunPath = path ++ List.replicate (pathSize - path.length) 0 := by
  have hlen := nameLength_other h hlength.le
  have hname : (path ++ [0]).take (nameLength path) = path ++ [0] := by
    rw [hlen, List.take_of_length_le (by simp)]
  refine ⟨_, dif_neg (by rw [hlen]; omega), ?_, ?_⟩
  · simp only [hlen]
  · simp only [hname, List.length_append, List.length_singleton]
    rw [List.append_assoc, List.singleton_append, ← List.replicate_succ,
      show pathSize - (path.length + 1) + 1 = pathSize - path.length by omega]

/-- A path with a NUL behind it in `sun_path` is printed. -/
theorem cString_padded (hnul : 0 ∉ path) {n : Nat} (hn : 0 < n) :
    cString (path ++ List.replicate n 0) = .ok path := by
  obtain ⟨n, rfl⟩ := Nat.exists_eq_succ_of_ne_zero hn.ne'
  have hall : ∀ b ∈ path, decide (b ≠ 0) = true := by
    intro b hb
    have hne : b ≠ 0 := fun heq => hnul (heq ▸ hb)
    simpa using hne
  rw [cString, if_pos (List.mem_append_right _ (by simp)), List.takeWhile_append_of_pos hall,
    List.replicate_succ]
  simp

/-- A path that fills `sun_path` is read over its end. -/
theorem cString_full (hnul : 0 ∉ path) : cString path = .error .overrun := if_neg hnul

/-- An abstract path of the full size is refused. -/
theorem create_tooLong (hhead : path.head? = some 0) (hlength : path.length = pathSize) :
    ∃ what, create path = .error (.logicError what) := by
  have hlen := nameLength_other (.inr hhead) hlength.le
  exact ⟨_, dif_pos (by rw [hlen, hlength]; omega)⟩

/-- Only one address is stored for a path. -/
theorem comesBack_of_create {a : UnixAddress} (hcreate : create path = .ok a) :
    ComesBack path ↔ a.shown = .ok (display path) ∧ a.len = pathOffset + path.length ∧
      a.sunPath.take path.length = path := by
  constructor
  · rintro (⟨what, hthrow⟩ | ⟨a', ha', hpath, -, hlen, hname⟩)
    · rw [hcreate] at hthrow
      cases hthrow
    · rw [hcreate] at ha'
      cases ha'
      exact ⟨hpath, hlen, hname⟩
  · rintro ⟨hshown, hlen, hname⟩
    exact .inr ⟨a, hcreate, hshown, hshown, hlen, hname⟩

/-! ## The kinds of paths -/

/-- An ordinary path comes back exactly if there is room for the NUL. -/
theorem comesBack_ordinary (hnul : 0 ∉ path) (hne : path ≠ []) (hlength : path.length ≤ pathSize) :
    ComesBack path ↔ path.length < pathSize := by
  have hhead : path.head? ≠ some 0 := fun h => hnul (List.mem_of_head? h)
  obtain ⟨a, hcreate, hlen, hsun⟩ := create_ordinary hne hhead hlength
  have hhead' : a.sunPath.head? ≠ some 0 := by
    rw [hsun, List.head?_append_of_ne_nil _ hne]
    exact hhead
  have hshown : a.shown = cString a.sunPath := if_neg fun h => hhead' h.2
  rw [comesBack_of_create hcreate, hshown, hsun, display, if_neg hhead]
  constructor
  · rintro ⟨hpath, -, -⟩
    by_contra hge
    rw [show pathSize - path.length = 0 by omega, List.replicate_zero, List.append_nil,
      cString_full hnul] at hpath
    cases hpath
  · intro hlt
    exact ⟨cString_padded hnul (by omega), by omega, List.take_left⟩

/-- An abstract name and an empty path are counted with the NUL behind them. -/
theorem not_comesBack_abstract (h : path = [] ∨ path.head? = some 0)
    (hlength : path.length < pathSize) : ¬ComesBack path := by
  obtain ⟨a, hcreate, hlen, -⟩ := create_abstract h hlength
  rw [comesBack_of_create hcreate]
  rintro ⟨-, hlen', -⟩
  omega

/-- The paths without a NUL behind their first byte that come back. -/
theorem comesBack_iff (hinner : 0 ∉ path.tail) (hlength : path.length ≤ pathSize) :
    ComesBack path ↔ Fits path := by
  by_cases hother : path = [] ∨ path.head? = some 0
  · rcases Nat.lt_or_ge path.length pathSize with hlt | hge
    · refine iff_of_false (not_comesBack_abstract hother hlt) ?_
      rintro (⟨hne, hhead, -⟩ | ⟨-, hfull⟩)
      · exact hother.elim hne hhead
      · omega
    · have hhead : path.head? = some 0 := by
        apply hother.resolve_left
        rintro rfl
        exact absurd hge (by decide)
      exact iff_of_true (.inl (create_tooLong hhead (by omega))) (.inr ⟨hhead, by omega⟩)
  · rw [not_or] at hother
    have hnul : 0 ∉ path := by
      obtain ⟨b, bs, rfl⟩ := List.exists_cons_of_ne_nil hother.1
      intro hmem
      rcases List.mem_cons.mp hmem with rfl | hmem
      · exact hother.2 rfl
      · exact hinner hmem
    rw [comesBack_ordinary hnul hother.1 hlength]
    constructor
    · exact fun hlt => .inl ⟨hother.1, hother.2, hlt⟩
    · rintro (⟨-, -, hlt⟩ | ⟨hhead, -⟩)
      · exact hlt
      · exact absurd hhead hother.2

theorem comesBack_iff_ordinary : ComesBack (ascii "/tmp/s") ↔ Fits (ascii "/tmp/s") :=
  comesBack_iff (by decide) (by decide)

/-- The abstract name `a` is shown with a NUL behind it and is stored with a length of five, and
an ordinary path of 108 bytes is read over the end of `sun_path`. -/
theorem not_comesBack_name :
    (¬ComesBack [0, 97] ∧ (create [0, 97]).bind UnixAddress.getPath = .ok [92, 48, 97, 0] ∧
      (create [0, 97]).map UnixAddress.getAddrLen = .ok 5) ∧
    ¬ComesBack (List.replicate 108 97) ∧
      (create (List.replicate 108 97)).bind UnixAddress.getPath = .error .overrun := by
  refine ⟨⟨not_comesBack_abstract (.inr rfl) (by decide), by decide, by decide⟩, ?_,
    by decide +kernel⟩
  rw [comesBack_ordinary (by simp) (by simp) (by simp [pathSize])]
  simp [pathSize]

end Unix
end Address
end Tiger
