import Tiger.Lib.Simulation
import Tiger.Streams.SocketStream

/-!
# Descriptors - the table of entities

This module embeds `FDManager` (`src/fdmanager.h`, `src/fdmanager.cc`): a vector of
shared pointers that is indexed by descriptors and grows by a factor of 1.5.  An
operation that would index the vector outside of its size has no result.

The new size is `m_datas.size() * 1.5` when that is greater than the descriptor.  The
comparison is made with the fraction, the size is taken without it: for an odd size
`2 * k + 1` and the descriptor `3 * k + 1` the vector ends right in front of the index.

Main results:

- Theorem `step_refines`: an operation that grows the vector far enough does what the
  abstract table does.
- Theorem `run_refines_table`: so does every sequence of such operations.
- Theorem `addFd_short`: an operation that does not grow it far enough indexes the
  vector outside of its size.
-/

namespace Tiger
namespace Fd

/-! ## The vector -/

/-- A shared pointer to an `FDEntity`: which one it is, and its `m_fd`. -/
structure Handle where
  serial : Nat
  fd : Nat
deriving DecidableEq

/-- `FDManager`, and how many entities have been created. -/
structure FDManager where
  datas : List (Option Handle)
  created : Nat
deriving DecidableEq

namespace FDManager

/-- `FDManager::FDManager()` -/
def init : FDManager := ⟨List.replicate 60 none, 0⟩

/-- `fd >= (int)m_datas.size()` -/
def beyond (m : FDManager) (fd : Nat) : Bool := decide (toInt32 m.datas.length ≤ (fd : Int))

/-- `m_datas.resize(n)` -/
def resize (n : Nat) (datas : List (Option Handle)) : List (Option Handle) :=
  datas.take n ++ List.replicate (n - datas.length) none

/-- `(m_datas.size() * 1.5) > fd ? m_datas.size() * 1.5 : fd + 1`, as a size; `none` when
`fd + 1` overflows. -/
def newSize (size fd : Nat) : Option Nat :=
  if 2 * fd < 3 * size then some (3 * size / 2)
  else if fd + 1 < 2 ^ 31 then some (fd + 1) else none

/-- `m_datas[fd] = v` -/
def store (datas : List (Option Handle)) (fd : Nat) (v : Option Handle) :
    Option (List (Option Handle)) :=
  if fd < datas.length then some (datas.set fd v) else none

/-- `FDManager::del_fd` -/
def delFd (m : FDManager) (fd : Nat) : Option FDManager :=
  if m.beyond fd then some m
  else (store m.datas fd none).map fun datas => { m with datas := datas }

/-- `FDManager::add_fd` -/
def addFd (m : FDManager) (fd : Nat) : Option (Handle × FDManager) :=
  (if m.beyond fd then (newSize m.datas.length fd).map (resize · m.datas) else some m.datas).bind
    fun datas => (store datas fd (some ⟨m.created, fd⟩)).map fun datas =>
      (⟨m.created, fd⟩, ⟨datas, m.created + 1⟩)

/-- What `get_fd` finds: null beyond the vector. -/
def find (m : FDManager) (fd : Nat) : Option (Option Handle) :=
  if m.beyond fd then some none else m.datas[fd]?

/-- `FDManager::get_fd` -/
def getFd (m : FDManager) (fd : Nat) (autoCreate : Bool) : Option (Option Handle × FDManager) :=
  (m.find fd).bind fun found =>
    match found with
    | some e => some (some e, m)
    | none => if autoCreate then (m.addFd fd).map fun r => (some r.1, r.2) else some (none, m)

end FDManager

/-! ## Sequences of operations -/

/-- The operations. -/
inductive Cmd
  | addFd (fd : Nat)
  | getFd (fd : Nat) (autoCreate : Bool)
  | delFd (fd : Nat)
deriving DecidableEq

/-- The descriptor of an operation. -/
def Cmd.fd : Cmd → Nat
  | .addFd fd | .getFd fd _ | .delFd fd => fd

/-- One operation: the pointer that it returns, null for `del_fd`. -/
def step (m : FDManager) : Cmd → Option (Option Handle × FDManager)
  | .addFd fd => (m.addFd fd).map fun r => (some r.1, r.2)
  | .getFd fd autoCreate => m.getFd fd autoCreate
  | .delFd fd => (m.delFd fd).map fun m => (none, m)

/-- Operations one after the other: the pointers that they return. -/
def run : FDManager → List Cmd → Option (List (Option Handle) × FDManager)
  | m, [] => some ([], m)
  | m, c :: cs => (step m c).bind fun r => (run r.2 cs).map fun rs => (r.1 :: rs.1, rs.2)

/-! ## The abstract table -/

/-- What the manager is for: the entity most recently created for each descriptor and
not deleted since. -/
structure Table where
  entry : Nat → Option Handle
  created : Nat

namespace Table

/-- No descriptor has an entity. -/
def empty : Table := ⟨fun _ => none, 0⟩

/-- A new entity for the descriptor. -/
def create (t : Table) (fd : Nat) : Table :=
  ⟨Function.update t.entry fd (some ⟨t.created, fd⟩), t.created + 1⟩

/-- The abstract operations: what is returned, and the table behind it. -/
def step (t : Table) : Cmd → Option Handle × Table
  | .addFd fd => (some ⟨t.created, fd⟩, t.create fd)
  | .getFd fd autoCreate =>
      match t.entry fd with
      | some e => (some e, t)
      | none => if autoCreate then (some ⟨t.created, fd⟩, t.create fd) else (none, t)
  | .delFd fd => (none, { t with entry := Function.update t.entry fd none })

/-- An operation does not change the entry of another descriptor. -/
theorem step_entry_of_ne (t : Table) (c : Cmd) {fd : Nat} (hne : fd ≠ c.fd) :
    (t.step c).2.entry fd = t.entry fd := by
  cases c with
  | addFd fd' => exact Function.update_of_ne hne _ _
  | getFd fd' a =>
      rw [step]
      split
      · rfl
      · split
        · exact Function.update_of_ne hne _ _
        · rfl
  | delFd fd' => exact Function.update_of_ne hne _ _

/-- The entities in the table are those of their descriptors. -/
def Proper (t : Table) : Prop := ∀ fd e, t.entry fd = some e → e.fd = fd

/-- An entry is created at a place of its own. -/
theorem create_proper {t : Table} (h : t.Proper) (fd : Nat) : (t.create fd).Proper := by
  intro fd' e he
  by_cases hfd : fd' = fd
  · subst hfd
    simp only [create, Function.update_self, Option.some.injEq] at he
    rw [← he]
  · simp only [create, Function.update_of_ne hfd] at he
    exact h fd' e he

/-- A command keeps a table proper. -/
theorem step_proper {t : Table} (h : t.Proper) (c : Cmd) : (t.step c).2.Proper := by
  cases c with
  | addFd fd => exact create_proper h fd
  | getFd fd a =>
      rw [step]
      split
      · exact h
      · split
        · exact create_proper h fd
        · exact h
  | delFd fd =>
      intro fd' e he
      by_cases hfd : fd' = fd
      · subst hfd
        simp [step] at he
      · simp only [step, Function.update_of_ne hfd] at he
        exact h fd' e he

/-- With `auto_create` an entity of the descriptor is returned. -/
theorem getFd_fd {t : Table} (h : t.Proper) (fd : Nat) :
    ∃ e, (t.step (.getFd fd true)).1 = some e ∧ e.fd = fd := by
  rw [step]
  split
  next e he => exact ⟨e, rfl, h fd e he⟩
  next => exact ⟨⟨t.created, fd⟩, by simp, rfl⟩

/-- Without it the entry is. -/
theorem getFd_entry (t : Table) (fd : Nat) : (t.step (.getFd fd false)).1 = t.entry fd := by
  rw [step]
  split
  next e he => exact he.symm
  next he => exact he.symm

/-- The operations one after the other: what is returned, and the table at the end. -/
def run : Table → List Cmd → List (Option Handle) × Table := Lib.run step

/-- Commands keep a table proper. -/
theorem run_proper {t : Table} (h : t.Proper) (cs : List Cmd) : (t.run cs).2.Proper := by
  induction cs generalizing t with
  | nil => exact h
  | cons c cs ih => exact ih (step_proper h c)

end Table

/-! ## The vector is the table -/

/-- The entry of a descriptor, null outside of the vector. -/
def FDManager.entry (m : FDManager) (fd : Nat) : Option Handle := (m.datas[fd]?).join

/-- The vector holds the table. -/
structure Holds (m : FDManager) (t : Table) : Prop where
  entry_eq : ∀ fd, m.entry fd = t.entry fd
  created_eq : m.created = t.created
  small : m.datas.length < 2 ^ 31

/-- The vector is long enough for the descriptor, or grows far enough and not too far. -/
def Grows (size fd : Nat) : Prop :=
  fd < size ∨ (¬ (size % 2 = 1 ∧ fd = 3 * size / 2) ∧ 3 * size / 2 < 2 ^ 31 ∧ fd + 1 < 2 ^ 31)

/-- The operation grows the vector far enough, if it has to. -/
def GrowsEnough (m : FDManager) : Cmd → Prop
  | .addFd fd | .getFd fd true => Grows m.datas.length fd
  | .getFd _ false | .delFd _ => True

/-- The manager starts with the empty table. -/
theorem holds_init : Holds FDManager.init Table.empty where
  entry_eq := by
    intro fd
    rw [FDManager.entry, FDManager.init, List.getElem?_replicate]
    split <;> rfl
  created_eq := rfl
  small := by
    rw [FDManager.init, List.length_replicate]
    norm_num

section

variable {m : FDManager} {t : Table}

/-- The test for a descriptor behind the array is exact below 2^31. -/
theorem beyond_iff (hsmall : m.datas.length < 2 ^ 31) (fd : Nat) :
    m.beyond fd = true ↔ m.datas.length ≤ fd := by
  rw [FDManager.beyond, toInt32_of_lt hsmall, decide_eq_true_eq]
  omega

theorem entry_beyond {fd : Nat} (h : m.datas.length ≤ fd) : m.entry fd = none := by
  rw [FDManager.entry, List.getElem?_eq_none h]
  rfl

/-- A longer vector holds the same entries. -/
theorem resize_getElem? {datas : List (Option Handle)} {n : Nat} (hn : datas.length ≤ n)
    (fd : Nat) :
    ((FDManager.resize n datas)[fd]?).join = (datas[fd]?).join := by
  rw [FDManager.resize, List.take_of_length_le hn]
  by_cases hfd : fd < datas.length
  · rw [List.getElem?_append_left hfd]
  · rw [List.getElem?_append_right (Nat.le_of_not_lt hfd),
      List.getElem?_eq_none (Nat.le_of_not_lt hfd), List.getElem?_replicate]
    split <;> rfl

/-- Growing gives an array of the asked length. -/
theorem resize_length {datas : List (Option Handle)} {n : Nat} (hn : datas.length ≤ n) :
    (FDManager.resize n datas).length = n := by
  rw [FDManager.resize, List.take_of_length_le hn, List.length_append, List.length_replicate]
  omega

/-- The size behind the growth. -/
theorem newSize_grows {size fd : Nat} (hle : size ≤ fd) (h : Grows size fd) :
    ∃ n, FDManager.newSize size fd = some n ∧ size ≤ n ∧ fd < n ∧ n < 2 ^ 31 := by
  rcases h with hlt | ⟨hodd, hsize, hfd⟩
  · omega
  · by_cases hless : 2 * fd < 3 * size
    · refine ⟨3 * size / 2, by rw [FDManager.newSize, if_pos hless], by omega, ?_, hsize⟩
      have hne : ¬ (size % 2 = 1) ∨ fd ≠ 3 * size / 2 := by
        by_cases hmod : size % 2 = 1
        · exact .inr fun heq => hodd ⟨hmod, heq⟩
        · exact .inl hmod
      omega
    · exact ⟨fd + 1, by rw [FDManager.newSize, if_neg hless, if_pos hfd], by omega, by omega, hfd⟩

/-- The vector that `add_fd` stores into. -/
theorem grown_datas (h : Holds m t) {fd : Nat} (hgrows : Grows m.datas.length fd) :
    ∃ datas, (if m.beyond fd then (FDManager.newSize m.datas.length fd).map
        (FDManager.resize · m.datas) else some m.datas) = some datas ∧
      fd < datas.length ∧ datas.length < 2 ^ 31 ∧ ∀ fd', (datas[fd']?).join = m.entry fd' := by
  by_cases hbeyond : m.datas.length ≤ fd
  · rcases newSize_grows hbeyond hgrows with ⟨n, hn, hle, hlt, hsmall⟩
    refine ⟨FDManager.resize n m.datas, ?_, ?_, ?_, fun fd' => resize_getElem? hle fd'⟩
    · rw [if_pos ((beyond_iff h.small fd).mpr hbeyond), hn, Option.map_some]
    · rw [resize_length hle]
      exact hlt
    · rw [resize_length hle]
      exact hsmall
  · refine ⟨m.datas, ?_, Nat.lt_of_not_le hbeyond, h.small, fun _ => rfl⟩
    rw [if_neg (fun hb => hbeyond ((beyond_iff h.small fd).mp hb))]

/-- The entries behind a store. -/
theorem set_getElem? {datas : List (Option Handle)} {fd : Nat} (hfd : fd < datas.length)
    (v : Option Handle) (fd' : Nat) :
    ((datas.set fd v)[fd']?).join = Function.update (fun i => (datas[i]?).join) fd v fd' := by
  by_cases heq : fd' = fd
  · subst heq
    rw [List.getElem?_set_self hfd, Function.update_self]
    rfl
  · rw [List.getElem?_set_ne (Ne.symm heq), Function.update_of_ne heq]

/-- `add_fd` creates an entity. -/
theorem addFd_refines (h : Holds m t) {fd : Nat} (hgrows : Grows m.datas.length fd) :
    ∃ m', m.addFd fd = some (⟨t.created, fd⟩, m') ∧ Holds m' (t.create fd) := by
  rcases grown_datas h hgrows with ⟨datas, hdatas, hfd, hsmall, hentry⟩
  refine ⟨⟨datas.set fd (some ⟨m.created, fd⟩), m.created + 1⟩, ?_, ?_, ?_, ?_⟩
  · rw [FDManager.addFd, hdatas, Option.bind_some, FDManager.store, if_pos hfd, Option.map_some,
      h.created_eq]
  · intro fd'
    have hsame : (fun i => (datas[i]?).join) = t.entry := by
      funext i
      rw [hentry i, h.entry_eq i]
    rw [FDManager.entry, set_getElem? hfd, hsame, h.created_eq]
    rfl
  · simp only [h.created_eq, Table.create]
  · simpa using hsmall

/-- `del_fd` clears the entry. -/
theorem delFd_refines (h : Holds m t) (fd : Nat) :
    ∃ m', m.delFd fd = some m' ∧ Holds m' { t with entry := Function.update t.entry fd none } := by
  have hentry : (fun i => (m.datas[i]?).join) = t.entry := funext h.entry_eq
  by_cases hbeyond : m.datas.length ≤ fd
  · refine ⟨m, by rw [FDManager.delFd, if_pos ((beyond_iff h.small fd).mpr hbeyond)], ?_,
      h.created_eq, h.small⟩
    intro fd'
    by_cases heq : fd' = fd
    · subst heq
      simp only [Function.update_self, entry_beyond hbeyond]
    · simp only [Function.update_of_ne heq, h.entry_eq]
  · have hfd := Nat.lt_of_not_le hbeyond
    refine ⟨{ m with datas := m.datas.set fd none }, ?_, ?_, h.created_eq, by simpa using h.small⟩
    · rw [FDManager.delFd, if_neg (fun hb => hbeyond ((beyond_iff h.small fd).mp hb)),
        FDManager.store, if_pos hfd, Option.map_some]
    · intro fd'
      rw [FDManager.entry, set_getElem? hfd, hentry]

/-- `get_fd` looks at the entry. -/
theorem find_eq (h : Holds m t) (fd : Nat) : m.find fd = some (t.entry fd) := by
  rw [FDManager.find]
  by_cases hbeyond : m.datas.length ≤ fd
  · rw [if_pos ((beyond_iff h.small fd).mpr hbeyond), ← h.entry_eq, entry_beyond hbeyond]
  · rw [if_neg (fun hb => hbeyond ((beyond_iff h.small fd).mp hb)), ← h.entry_eq,
      FDManager.entry, List.getElem?_eq_getElem (Nat.lt_of_not_le hbeyond)]
    rfl

theorem getFd_found (h : Holds m t) {fd : Nat} {e : Handle} (he : t.entry fd = some e)
    (autoCreate : Bool) : m.getFd fd autoCreate = some (some e, m) := by
  rw [FDManager.getFd, find_eq h, he, Option.bind_some]

/-- A descriptor without an entry is added when this is asked for. -/
theorem getFd_missing (h : Holds m t) {fd : Nat} (he : t.entry fd = none) (autoCreate : Bool) :
    m.getFd fd autoCreate =
      if autoCreate then (m.addFd fd).map fun r => (some r.1, r.2) else some (none, m) := by
  rw [FDManager.getFd, find_eq h, he, Option.bind_some]

/-- An operation that grows the vector far enough does what the table does. -/
theorem step_refines (h : Holds m t) {c : Cmd} (hgrows : GrowsEnough m c) :
    ∃ m', step m c = some ((t.step c).1, m') ∧ Holds m' (t.step c).2 := by
  cases c with
  | addFd fd =>
      rcases addFd_refines h hgrows with ⟨m', hadd, hm'⟩
      exact ⟨m', by rw [step, hadd]; rfl, hm'⟩
  | delFd fd =>
      rcases delFd_refines h fd with ⟨m', hdel, hm'⟩
      exact ⟨m', by rw [step, hdel]; rfl, hm'⟩
  | getFd fd autoCreate =>
      cases he : t.entry fd with
      | some e =>
          refine ⟨m, ?_, ?_⟩
          · simp only [step, getFd_found h he, Table.step, he]
          · simpa only [Table.step, he] using h
      | none =>
          cases autoCreate with
          | false =>
              refine ⟨m, ?_, ?_⟩
              · simp only [step, getFd_missing h he, Table.step, he, Bool.false_eq_true, if_false]
              · simpa only [Table.step, he, Bool.false_eq_true, if_false] using h
          | true =>
              rcases addFd_refines h hgrows with ⟨m', hadd, hm'⟩
              refine ⟨m', ?_, ?_⟩
              · simp only [step, getFd_missing h he, hadd, Option.map_some, Table.step, he, if_true]
              · simpa only [Table.step, he, if_true] using hm'

end

/-! ## Runs -/

/-- Every operation of the sequence grows the vector far enough in its turn. -/
def AllGrow : FDManager → List Cmd → Prop
  | _, [] => True
  | m, c :: cs => GrowsEnough m c ∧ ∀ r, step m c = some r → AllGrow r.2 cs

/-- Such a sequence returns what the table returns and ends with it. -/
theorem run_holds {m : FDManager} {t : Table} {cs : List Cmd} (h : Holds m t)
    (hgrow : AllGrow m cs) :
    ∃ m', run m cs = some ((t.run cs).1, m') ∧ Holds m' (t.run cs).2 := by
  induction cs generalizing m t with
  | nil => exact ⟨m, rfl, h⟩
  | cons c cs ih =>
      rcases step_refines h hgrow.1 with ⟨m₁, hstep, h₁⟩
      rcases ih h₁ (hgrow.2 _ hstep) with ⟨m', hrun, h'⟩
      refine ⟨m', ?_, h'⟩
      rw [run, hstep, Option.bind_some, hrun]
      rfl

/-- Growth in a run is growth in its second part. -/
theorem AllGrow.append {m m' : FDManager} {cs cs' : List Cmd} {os : List (Option Handle)}
    (h : AllGrow m (cs ++ cs')) (hrun : run m cs = some (os, m')) : AllGrow m' cs' := by
  induction cs generalizing m os with
  | nil =>
      cases hrun
      exact h
  | cons c cs ih =>
      rw [run] at hrun
      rcases Option.bind_eq_some_iff.mp hrun with ⟨r, hstep, hrest⟩
      rcases Option.map_eq_some_iff.mp hrest with ⟨rs, hrs, heq⟩
      cases heq
      exact ih (h.2 r hstep) hrs

/-- Growth in a run is growth in its first part. -/
theorem AllGrow.of_append {m : FDManager} {cs cs' : List Cmd} (h : AllGrow m (cs ++ cs')) :
    AllGrow m cs := by
  induction cs generalizing m with
  | nil => trivial
  | cons c cs ih => exact ⟨h.1, fun r hr => ih (h.2 r hr)⟩

/-- From the constructor on, in every sequence of operations that grow the vector far
enough: the vector is never indexed outside of its size; its entries are those of the
table, the entities most recently created and not deleted since; `get_fd` returns the
entry, and with `auto_create` an entity of its descriptor; and no operation changes
the entry of another descriptor. -/
theorem run_refines_table {cs : List Cmd} {c : Cmd}
    (hgrow : AllGrow FDManager.init (cs ++ [c])) :
    ∃ os m o m', run FDManager.init cs = some (os, m) ∧ step m c = some (o, m') ∧
      (∀ fd, m.entry fd = (Table.empty.run cs).2.entry fd) ∧
      (∀ fd, c = .getFd fd false → o = (Table.empty.run cs).2.entry fd) ∧
      (∀ fd, c = .getFd fd true → ∃ e, o = some e ∧ e.fd = fd) ∧
      (∀ fd, fd ≠ c.fd → m'.entry fd = m.entry fd) := by
  rcases run_holds holds_init hgrow.of_append with ⟨m, hrun, hm⟩
  rcases step_refines hm (hgrow.append hrun).1 with ⟨m', hstep, hm'⟩
  have hproper : (Table.empty.run cs).2.Proper := by
    apply Table.run_proper
    intro fd e he
    cases he
  refine ⟨_, m, _, m', hrun, hstep, hm.entry_eq, ?_, ?_, ?_⟩
  · rintro fd rfl
    exact Table.getFd_entry _ fd
  · rintro fd rfl
    exact Table.getFd_fd hproper fd
  · intro fd hne
    rw [hm'.entry_eq, hm.entry_eq, Table.step_entry_of_ne _ _ hne]

/-- A descriptor is added and looked up. -/
theorem run_refines_table_seven :
    ∃ os m o m', run FDManager.init [.addFd 7] = some (os, m) ∧
      step m (.getFd 7 false) = some (o, m') ∧ o = some ⟨0, 7⟩ := by
  have hgrow : AllGrow FDManager.init ([.addFd 7] ++ [.getFd 7 false]) :=
    ⟨.inl (by decide), fun _ _ => ⟨trivial, fun _ _ => trivial⟩⟩
  rcases run_refines_table hgrow with ⟨os, m, o, m', hrun, hstep, -, hget, -, -⟩
  exact ⟨os, m, o, m', hrun, hstep, hget 7 rfl⟩

/-- An operation that does not grow the vector far enough indexes it outside of its
size. -/
theorem addFd_short {m : FDManager} {fd : Nat} (hsmall : m.datas.length < 2 ^ 31)
    (hle : m.datas.length ≤ fd) (hodd : m.datas.length % 2 = 1)
    (hfd : fd = 3 * m.datas.length / 2) :
    m.addFd fd = none := by
  have hsize : FDManager.newSize m.datas.length fd = some fd := by
    rw [FDManager.newSize, if_pos (by omega), hfd]
  rw [FDManager.addFd, if_pos ((beyond_iff hsmall fd).mpr hle), hsize, Option.map_some,
    Option.bind_some, FDManager.store, resize_length hle, if_neg (Nat.lt_irrefl fd),
      Option.map_none]

/-- The sizes 60, 90, 135: for the descriptor 202 the vector grows to 202 places. -/
theorem run_refines_table_fails : run FDManager.init [.addFd 60, .addFd 90, .addFd 202] = none := by
  decide +kernel

end Fd
end Tiger
