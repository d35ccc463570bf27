import Mathlib.Data.List.Basic
import Mathlib.Tactic

/-!
# Configuration - loading a file

This module embeds `list_all_member`, `Config::LookupBase` and `Config::LoadFromYmal`
(`src/config.cc`), `ConfigVar::from_string` (`src/config.h`) and `IsValidName`
(`src/util.cc`).  A file is a tree of nodes; the nodes are listed with their dotted paths, and
every listed node is converted and assigned to the variable whose name its path is.

The variables are objects of different types; a pointer to a variable is its place in the list
of all variables.  How the library prints a node that is no scalar, and how a text is converted
to a type, are parameters.

Main results:

- Theorem `listAllMember_eq`: the listed nodes are those all of whose paths down from the root
  are legal, in pre-order.
- Theorem `load_assigns`: a variable gets the last value that its nodes convert to, and nothing
  else changes.
-/

namespace Tiger
namespace Config

/-! ## Trees -/

/-- `std::string` -/
abbrev Bytes := List UInt8

/-- `YAML::Node`, with scalars as the keys of maps. -/
inductive Yaml
  | null
  | scalar (text : Bytes)
  | sequence (items : List Yaml)
  | map (members : List (Bytes × Yaml))

/-- A letter, a digit, `_` or `.`. -/
def isNameChar (c : UInt8) : Bool :=
  decide (97 ≤ c.toNat ∧ c.toNat ≤ 122 ∨ 65 ≤ c.toNat ∧ c.toNat ≤ 90 ∨ c = 95 ∨
    48 ≤ c.toNat ∧ c.toNat ≤ 57 ∨ c = 46)

/-- `IsValidName` -/
def isValidName (name : Bytes) : Bool := name.all isNameChar

/-- `prefix + "." + key` -/
def dotted (path key : Bytes) : Bytes := path ++ 46 :: key

mutual

/-- `list_all_member(root, prefix, all_nodes)`: what it appends to `all_nodes`. -/
def listAllMember (root : Yaml) (path : Bytes) : List (Bytes × Yaml) :=
  if !isValidName path || path.isEmpty then []
  else
    (path, root) ::
      match root with
      | .map members => listMembers members path
      | _ => []
termination_by structural root

/-- The loop of `list_all_member` over the members of a map. -/
def listMembers (members : List (Bytes × Yaml)) (path : Bytes) : List (Bytes × Yaml) :=
  match members with
  | [] => []
  | (key, value) :: rest => listAllMember value (dotted path key) ++ listMembers rest path
termination_by structural members

end

/-! ## All nodes of a tree -/

/-- A node of a tree, with its path and the paths of its ancestors. -/
structure Place where
  above : List Bytes
  path : Bytes
  node : Yaml

mutual

/-- All nodes of a tree in pre-order. -/
def allNodes (above : List Bytes) (path : Bytes) (root : Yaml) : List Place :=
  ⟨above, path, root⟩ ::
    match root with
    | .map members => allMembers (path :: above) path members
    | _ => []
termination_by structural root

/-- All nodes below the members of a map. -/
def allMembers (above : List Bytes) (path : Bytes) (members : List (Bytes × Yaml)) : List Place :=
  match members with
  | [] => []
  | (key, value) :: rest => allNodes above (dotted path key) value ++ allMembers above path rest
termination_by structural members

end

/-- A path that is not empty and has only legal characters. -/
def legalPath (path : Bytes) : Bool := !path.isEmpty && isValidName path

/-- The paths of the node and of all its ancestors are legal. -/
def Place.legal (p : Place) : Bool := legalPath p.path && p.above.all legalPath

mutual

/-- The ancestors of a tree are those of its nodes. -/
theorem allNodes_above (root : Yaml) {above : List Bytes} {path : Bytes} {p : Place}
    (hp : p ∈ allNodes above path root) : above ⊆ p.above := by
  match root with
  | .null | .scalar _ | .sequence _ =>
      simp only [allNodes] at hp
      rw [List.mem_singleton.mp hp]
      exact List.Subset.refl _
  | .map members =>
      rw [allNodes] at hp
      rcases List.mem_cons.mp hp with rfl | hp
      · exact List.Subset.refl _
      · exact List.Subset.trans (List.subset_cons_self path above) (allMembers_above members hp)

/-- The members of a map stand below everything that the map stands below. -/
theorem allMembers_above (members : List (Bytes × Yaml)) {above : List Bytes} {path : Bytes}
    {p : Place} (hp : p ∈ allMembers above path members) : above ⊆ p.above := by
  match members with
  | [] => simp [allMembers] at hp
  | (key, value) :: rest =>
      rw [allMembers] at hp
      rcases List.mem_append.mp hp with hp | hp
      · exact allNodes_above value hp
      · exact allMembers_above rest hp

end

/-- No node below an illegal path is legal. -/
theorem filter_allNodes_of_illegal {above : List Bytes} {path : Bytes} (root : Yaml)
    (hpath : legalPath path = false) : (allNodes above path root).filter Place.legal = [] := by
  apply List.filter_eq_nil_iff.mpr
  intro p hp
  have hillegal : path = p.path ∨ path ∈ p.above := by
    cases root with
    | null | scalar text | sequence items =>
        simp only [allNodes] at hp
        rw [List.mem_singleton.mp hp]
        exact .inl rfl
    | map members =>
        rw [allNodes] at hp
        rcases List.mem_cons.mp hp with rfl | hp
        · exact .inl rfl
        · exact .inr (allMembers_above members hp List.mem_cons_self)
  rw [Place.legal, Bool.and_eq_true, List.all_eq_true]
  rintro ⟨hself, habove⟩
  rcases hillegal with rfl | hmem
  · rw [hpath] at hself
    cases hself
  · have hlegal := habove path hmem
    rw [hpath] at hlegal
    cases hlegal

mutual

/-- The listed nodes are those that are legal with all their ancestors, in pre-order. -/
theorem listAllMember_eq (root : Yaml) (path : Bytes) {above : List Bytes}
    (habove : above.all legalPath = true) :
    listAllMember root path =
      ((allNodes above path root).filter Place.legal).map fun p => (p.path, p.node) := by
  by_cases hpath : legalPath path = true
  · have hlisted : ¬(!isValidName path || path.isEmpty) = true := by
      simp only [legalPath, Bool.and_eq_true, Bool.not_eq_true'] at hpath
      simp [hpath.1, hpath.2]
    have hself : Place.legal ⟨above, path, root⟩ = true := by
      rw [Place.legal, hpath, habove, Bool.and_self]
    have hbelow : (path :: above).all legalPath = true := by
      rw [List.all_cons, hpath, habove, Bool.and_self]
    match root with
    | .null | .scalar _ | .sequence _ =>
        simp only [listAllMember, if_neg hlisted, allNodes, List.filter_cons_of_pos hself,
          List.filter_nil, List.map_cons, List.map_nil]
    | .map members =>
        rw [listAllMember, if_neg hlisted, allNodes, List.filter_cons_of_pos hself,
          List.map_cons, ← listMembers_eq members path hbelow]
  · have hlisted : (!isValidName path || path.isEmpty) = true := by
      simp only [legalPath, Bool.and_eq_true, Bool.not_eq_true', not_and_or] at hpath
      simpa [or_comm] using hpath
    rw [filter_allNodes_of_illegal root (by simpa using hpath), List.map_nil]
    cases root <;> simp only [listAllMember, if_pos hlisted]

/-- Listing the members of a map leaves out what stands at or below an illegal path. -/
theorem listMembers_eq (members : List (Bytes × Yaml)) (path : Bytes) {above : List Bytes}
    (habove : above.all legalPath = true) :
    listMembers members path =
      ((allMembers above path members).filter Place.legal).map fun p => (p.path, p.node) := by
  match members with
  | [] => rfl
  | (key, value) :: rest =>
      rw [listMembers, allMembers, List.filter_append, List.map_append,
        listAllMember_eq value (dotted path key) habove, listMembers_eq rest path habove]

end

/-! ## Variables -/

/-- `ConfigVar<T>`, with `type` for `T`. -/
structure ConfigVar {τ : Type} (Val : τ → Type) where
  name : Bytes
  type : τ
  val : Val type

/-- `Config::S_DATAS`, and the variables that exist.  A name is registered for a variable of
that name. -/
structure Registry {τ : Type} (Val : τ → Type) where
  datas : Bytes → Option Nat
  objects : List (ConfigVar Val)
  datas_name : ∀ name p, datas name = some p → (objects[p]?).map ConfigVar.name = some name

/-- What comes from outside: how `operator<<` prints a node, and `LexicalCast<std::string, T>`,
which throws or gives a value. -/
structure Conversions {τ : Type} (Val : τ → Type) where
  print : Yaml → Bytes
  lexicalCast : (t : τ) → Bytes → Option (Val t)

section Load

variable {τ : Type} {Val : τ → Type} (conv : Conversions Val)

/-- `ConfigVar::from_string(str)` -/
def ConfigVar.fromString (v : ConfigVar Val) (str : Bytes) : ConfigVar Val :=
  match conv.lexicalCast v.type str with
  | some val => { v with val := val }
  | none => v

/-- The text of a node that `LoadFromYmal` converts. -/
def nodeText (node : Yaml) : Bytes :=
  match node with
  | .scalar text => text
  | node => conv.print node

/-- Assigning a text keeps the name of a variable. -/
theorem ConfigVar.fromString_name (v : ConfigVar Val) (str : Bytes) :
    (v.fromString conv str).name = v.name := by
  rw [fromString]
  split <;> rfl

/-- `Config::LookupBase(name)` -/
def Registry.lookupBase (s : Registry Val) (name : Bytes) : Option Nat := s.datas name

/-- `var->from_string(str)` -/
def Registry.fromString (s : Registry Val) (var : Nat) (str : Bytes) : Registry Val where
  datas := s.datas
  objects := s.objects.modify var fun v => v.fromString conv str
  datas_name := by
    intro name p hp
    rw [← s.datas_name name p hp, List.getElem?_modify, Option.map_eq_map, Option.map_map]
    congr 1
    funext v
    by_cases hvar : var = p
    · simp [hvar, ConfigVar.fromString_name]
    · simp [hvar]

/-- The loop of `LoadFromYmal` over the listed nodes, at one of them. -/
def Registry.assign (s : Registry Val) (e : Bytes × Yaml) : Registry Val :=
  match s.lookupBase e.1 with
  | none => s
  | some var => s.fromString conv var (nodeText conv e.2)

/-- `Config::LoadFromYmal(name, ymal_path)`, with the tree of the file. -/
def Registry.loadFromYmal (s : Registry Val) (name : Bytes) (root : Yaml) : Registry Val :=
  (listAllMember root name).foldl (Registry.assign conv) s

/-! ## What a file does to a variable -/

/-- A variable with the last of some values, if there is one. -/
def ConfigVar.last (v : ConfigVar Val) (vals : List (Val v.type)) : ConfigVar Val :=
  { v with val := vals.getLast?.getD v.val }

/-- The values that the nodes of a name convert to, in order. -/
def converted (v : ConfigVar Val) (nodes : List (Bytes × Yaml)) : List (Val v.type) :=
  (nodes.filter fun e => e.1 == v.name).filterMap fun e =>
    conv.lexicalCast v.type (nodeText conv e.2)

/-- A variable behind some nodes: its own nodes are converted if it is registered. -/
def ConfigVar.behind (s : Registry Val) (p : Nat) (nodes : List (Bytes × Yaml))
    (v : ConfigVar Val) :
    ConfigVar Val :=
  if s.datas v.name = some p then v.last (converted conv v nodes) else v

/-- Assigning nodes registers nothing. -/
theorem foldl_assign_datas (s : Registry Val) (nodes : List (Bytes × Yaml)) :
    (nodes.foldl (Registry.assign conv) s).datas = s.datas := by
  induction nodes generalizing s with
  | nil => rfl
  | cons e nodes ih =>
      rw [List.foldl_cons, ih, Registry.assign]
      split <;> rfl

/-- The last of two lists of values is the last of the second behind the first. -/
theorem ConfigVar.last_append (v : ConfigVar Val) (xs ys : List (Val v.type)) :
    (v.last xs).last ys = v.last (xs ++ ys) := by
  simp only [last, List.getLast?_append]
  cases ys.getLast? with
  | none => rfl
  | some y => rfl

/-- A conversion is the last value if it succeeds. -/
theorem ConfigVar.fromString_eq_last (v : ConfigVar Val) (str : Bytes) :
    v.fromString conv str = v.last (conv.lexicalCast v.type str).toList := by
  rw [fromString]
  cases conv.lexicalCast v.type str with
  | none => rfl
  | some val => rfl

/-- A node of the variable's name adds its conversion. -/
theorem converted_cons_of_eq {v : ConfigVar Val} {e : Bytes × Yaml} (h : e.1 = v.name)
    (nodes : List (Bytes × Yaml)) :
    converted conv v (e :: nodes) =
      (conv.lexicalCast v.type (nodeText conv e.2)).toList ++ converted conv v nodes := by
  rw [converted, List.filter_cons_of_pos (by simpa using h), List.filterMap_cons]
  cases conv.lexicalCast v.type (nodeText conv e.2) with
  | none => rfl
  | some val => rfl

/-- A node of another name adds nothing. -/
theorem converted_cons_of_ne {v : ConfigVar Val} {e : Bytes × Yaml} (h : e.1 ≠ v.name)
    (nodes : List (Bytes × Yaml)) : converted conv v (e :: nodes) = converted conv v nodes := by
  rw [converted, List.filter_cons_of_neg (by simpa using h)]
  rfl

/-- A node of another variable, or of none, changes nothing. -/
theorem ConfigVar.behind_cons_of_ne {s : Registry Val} {p : Nat} {e : Bytes × Yaml}
    {v : ConfigVar Val} (h : s.datas e.1 ≠ some p) (nodes : List (Bytes × Yaml)) :
    v.behind conv s p (e :: nodes) = v.behind conv s p nodes := by
  rw [behind, behind]
  split
  next hv =>
    have hne : e.1 ≠ v.name := fun heq => h (heq ▸ hv)
    rw [converted_cons_of_ne conv hne]
  next => rfl

/-- A node is assigned to the variable that is registered for its path, and to no other. -/
theorem assign_objects (s : Registry Val) (e : Bytes × Yaml) (p : Nat) :
    (s.assign conv e).objects[p]? = (s.objects[p]?).map fun v =>
      if s.datas e.1 = some p then v.fromString conv (nodeText conv e.2) else v := by
  rw [Registry.assign, Registry.lookupBase]
  cases hvar : s.datas e.1 with
  | none => simp
  | some var =>
      change (s.objects.modify var _)[p]? = _
      rw [List.getElem?_modify, Option.map_eq_map]
      simp only [Option.some.injEq]

/-- A variable behind the listed nodes. -/
theorem foldl_assign_objects (s : Registry Val) (nodes : List (Bytes × Yaml)) (p : Nat) :
    (nodes.foldl (Registry.assign conv) s).objects[p]? =
      (s.objects[p]?).map (ConfigVar.behind conv s p nodes) := by
  induction nodes generalizing s with
  | nil =>
      have hsame : ConfigVar.behind conv s p [] = id := by
        funext v
        simp only [ConfigVar.behind, id]
        split <;> rfl
      rw [hsame, Option.map_id]
      rfl
  | cons e nodes ih =>
      have hdatas : (s.assign conv e).datas = s.datas := foldl_assign_datas conv s [e]
      have hbehind : ConfigVar.behind conv (s.assign conv e) p nodes =
          ConfigVar.behind conv s p nodes := by
        funext v
        rw [ConfigVar.behind, ConfigVar.behind, hdatas]
      rw [List.foldl_cons, ih, hbehind, assign_objects, Option.map_map]
      cases hobject : s.objects[p]? with
      | none => rfl
      | some v =>
          simp only [Option.map_some, Function.comp]
          congr 1
          by_cases hp : s.datas e.1 = some p
          · -- the node is for this variable, so its path is the variable's name
            have hname := s.datas_name e.1 p hp
            rw [hobject, Option.map_some, Option.some.injEq] at hname
            rw [if_pos hp, ConfigVar.fromString_eq_last, ConfigVar.behind, ConfigVar.behind]
            change (if s.datas v.name = some p then _ else _) = _
            rw [hname, if_pos hp, if_pos hp, converted_cons_of_eq conv hname.symm]
            exact v.last_append _ _
          · rw [if_neg hp, ConfigVar.behind_cons_of_ne conv hp]

/-- A file visits exactly the nodes that are legal with all their ancestors, in pre-order; a
registered variable gets the last of the values that the visited nodes of its name convert to,
and keeps its value if there is none; no other variable changes, and no registration. -/
theorem load_assigns (s : Registry Val) (name : Bytes) (root : Yaml) :
    let visited := ((allNodes [] name root).filter Place.legal).map fun p => (p.path, p.node)
    listAllMember root name = visited ∧
      (s.loadFromYmal conv name root).datas = s.datas ∧
      ∀ p, (s.loadFromYmal conv name root).objects[p]? = (s.objects[p]?).map fun v =>
        if s.datas v.name = some p then
          { v with val := (((visited.filter fun e => e.1 == v.name).filterMap fun e =>
            conv.lexicalCast v.type (nodeText conv e.2)).getLast?).getD v.val }
        else v := by
  intro visited
  have hvisited : listAllMember root name = visited := listAllMember_eq root name rfl
  refine ⟨hvisited, foldl_assign_datas conv s _, ?_⟩
  intro p
  rw [Registry.loadFromYmal, foldl_assign_objects, hvisited]
  rfl

end Load

end Config
end Tiger
