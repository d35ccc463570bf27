import Tiger.ByteArray.Records

/-!
# ByteArray - readers that run out of bytes

`read` (`src/bytearray.cc`) tests how many bytes are left before it changes anything.  The
readers of base-128 integers and of strings make several such reads, and none of them moves the
cursor back when a later one throws.

The rules below follow the readers read by read: `OnlyMoves` is what every reader does to the
object, `Starts` says how many bytes its first read takes, and `Alone` that no later read throws.

Main results:

- Theorem `readRecord_starts`: the first read of every reader.
- Theorem `readRecord_throws`: a reader that throws leaves the data as it is.  It leaves the
  cursor where it was exactly if there were too few bytes for its first read.
-/

namespace Tiger
namespace ByteArray

open Lib

/-! ## Rules -/

/-- The cursor is moved on, and nothing else is changed. -/
def Moved (s s' : ByteArray) : Prop :=
  ∃ position cur, s' = { s with position := position, cur := cur } ∧ s.position ≤ position

theorem Moved.refl (s : ByteArray) : Moved s s :=
  ⟨s.position, s.cur, rfl, le_rfl⟩

/-- Moves add up. -/
theorem Moved.trans {s s' s'' : ByteArray} (h : Moved s s') (h' : Moved s' s'') : Moved s s'' := by
  obtain ⟨position, cur, rfl, hle⟩ := h
  obtain ⟨position', cur', rfl, hle'⟩ := h'
  exact ⟨position', cur', rfl, hle.trans hle'⟩

theorem Moved.position_le {s s' : ByteArray} (h : Moved s s') : s.position ≤ s'.position := by
  obtain ⟨position, cur, rfl, hle⟩ := h
  exact hle

/-- The operation only moves the cursor on, whatever it returns. -/
def OnlyMoves {α : Type} (op : Op α) : Prop := ∀ s, Moved s (op s).2

/-- The operation does not throw `std::out_of_range`. -/
def Quiet {α : Type} (op : Op α) : Prop := ∀ s what, (op s).1 ≠ .error (.outOfRange what)

/-- The operation returned, or threw `std::out_of_range`. -/
def Reported {α : Type} : Except Failure α → Prop
  | .ok _ => True
  | .error e => ∃ what, e = .outOfRange what

/-- The first read takes `n` bytes: with fewer left the operation throws at once, and else the
cursor moves on. -/
structure Starts {α : Type} (n : Nat) (op : Op α) : Prop where
  onlyMoves : OnlyMoves op
  short : ∀ s, s.getEnableReadSize < n →
    op s = (.error (.outOfRange "[read out of range]"), s)
  enough : ∀ s, n ≤ s.getEnableReadSize → Reported (op s).1 → s.position < (op s).2.position

/-- Only a read of `n` bytes throws `std::out_of_range`. -/
def Alone {α : Type} (n : Nat) (op : Op α) : Prop :=
  ∀ s what, (op s).1 = .error (.outOfRange what) → s.getEnableReadSize < n

section Rules

variable {α β : Type} {n : Nat} {x : Op α} {f : α → Op β}

/-- A failure of the first part is the failure of the composition. -/
theorem bind_error {s s' : ByteArray} {e : Failure} (h : x s = (.error e, s')) :
    (x >>= f) s = (.error e, s') := by
  simp only [bind, ExceptT.bind, ExceptT.mk, StateT.bind, h]
  rfl

theorem onlyMoves_pure (a : α) : OnlyMoves (pure a : Op α) := fun s => Moved.refl s

theorem onlyMoves_throw (e : Failure) : OnlyMoves (throw e : Op α) := fun s => Moved.refl s

theorem onlyMoves_get : OnlyMoves (get : Op ByteArray) := fun s => Moved.refl s

/-- Two readers one after the other only move the position. -/
theorem onlyMoves_bind (hx : OnlyMoves x) (hf : ∀ a, OnlyMoves (f a)) : OnlyMoves (x >>= f) := by
  intro s
  have hmoved := hx s
  rcases hrun : x s with ⟨r, s'⟩
  rw [hrun] at hmoved
  cases r with
  | error e =>
      rw [bind_error hrun]
      exact hmoved
  | ok a =>
      rw [bind_ok hrun]
      exact hmoved.trans (hf a s')

/-- A composition starts as its first part does. -/
theorem starts_bind (hx : Starts n x) (hf : ∀ a, OnlyMoves (f a)) : Starts n (x >>= f) := by
  refine ⟨onlyMoves_bind hx.onlyMoves hf, fun s hs => bind_error (hx.short s hs), ?_⟩
  intro s hs
  have henough := hx.enough s hs
  rcases hrun : x s with ⟨r, s'⟩
  rw [hrun] at henough
  cases r with
  | error e =>
      rw [bind_error hrun]
      exact henough
  | ok a =>
      rw [bind_ok hrun]
      intro _
      exact (henough trivial).trans_le (hf a s').position_le

/-- A read with quiet work behind it is still the only read. -/
theorem alone_bind (hx : Alone n x) (hf : ∀ a, Quiet (f a)) : Alone n (x >>= f) := by
  intro s what hthrows
  have halone := hx s what
  rcases hrun : x s with ⟨r, s'⟩
  rw [hrun] at halone
  cases r with
  | error e =>
      rw [bind_error hrun] at hthrows
      cases hthrows
      exact halone rfl
  | ok a =>
      rw [bind_ok hrun] at hthrows
      exact absurd hthrows (hf a s' what)

theorem starts_map (hx : Starts n x) (g : α → β) : Starts n (g <$> x) := by
  rw [map_eq_pure_bind]
  exact starts_bind hx fun a => onlyMoves_pure (g a)

theorem quiet_pure (a : α) : Quiet (pure a : Op α) := by
  intro s what hthrows
  cases hthrows

theorem quiet_get : Quiet (get : Op ByteArray) := by
  intro s what hthrows
  cases hthrows

/-- Quiet work behind quiet work is quiet. -/
theorem quiet_bind (hx : Quiet x) (hf : ∀ a, Quiet (f a)) : Quiet (x >>= f) := by
  intro s what hthrows
  have hquiet := hx s what
  rcases hrun : x s with ⟨r, s'⟩
  rw [hrun] at hquiet
  cases r with
  | error e =>
      rw [bind_error hrun] at hthrows
      cases hthrows
      exact hquiet rfl
  | ok a =>
      rw [bind_ok hrun] at hthrows
      exact hf a s' what hthrows

theorem alone_map (hx : Alone n x) (g : α → β) : Alone n (g <$> x) := by
  rw [map_eq_pure_bind]
  exact alone_bind hx fun a => quiet_pure (g a)

end Rules

/-! ## The reads -/

section Reads

/-- What `read` can do. -/
theorem read_cases (n : Nat) (s : ByteArray) :
    (s.getEnableReadSize < n ∧ read n s = (.error (.outOfRange "[read out of range]"), s)) ∨
    (∃ e, (∀ what, e ≠ .outOfRange what) ∧ read n s = (.error e, s)) ∨
    ∃ bytes cur, read n s = (.ok bytes, { s with position := s.position + n, cur := cur }) := by
  unfold read
  split
  next hn => exact .inl ⟨hn, rfl⟩
  next =>
    right
    dsimp only
    split
    next => exact .inl ⟨.nullNode, by simp, rfl⟩
    next node rest _ =>
      split
      next hzero =>
        subst hzero
        exact .inr ⟨[], s.cur, rfl⟩
      next =>
        cases hloop : readLoop (s.position % s.baseSize) n (node :: rest) with
        | error e =>
            refine .inl ⟨e, ?_, rfl⟩
            rintro what rfl
            exact readLoop_not_outOfRange _ _ _ what hloop
        | ok r => exact .inr ⟨r.1, s.cur + r.2, rfl⟩

/-- A read only moves the position. -/
theorem onlyMoves_read (n : Nat) : OnlyMoves (read n) := by
  intro s
  rcases read_cases n s with ⟨-, hrun⟩ | ⟨e, -, hrun⟩ | ⟨bytes, cur, hrun⟩
  · rw [hrun]
    exact Moved.refl s
  · rw [hrun]
    exact Moved.refl s
  · rw [hrun]
    exact ⟨_, _, rfl, Nat.le_add_right _ _⟩

/-- A read of some bytes starts with a read of them. -/
theorem starts_read {n : Nat} (hn : 0 < n) : Starts n (read n) := by
  refine ⟨onlyMoves_read n, fun s hs => read_throws hs, ?_⟩
  intro s hs
  rcases read_cases n s with ⟨hlt, -⟩ | ⟨e, hne, hrun⟩ | ⟨bytes, cur, hrun⟩
  · exact absurd hlt (Nat.not_lt_of_le hs)
  · rw [hrun]
    rintro ⟨what, he⟩
    exact absurd he (hne what)
  · rw [hrun]
    intro _
    exact Nat.lt_add_of_pos_right hn

/-- A read is its only read. -/
theorem alone_read (n : Nat) : Alone n (read n) := by
  intro s what hthrows
  rcases read_cases n s with ⟨hlt, -⟩ | ⟨e, hne, hrun⟩ | ⟨bytes, cur, hrun⟩
  · exact hlt
  · rw [hrun] at hthrows
    cases hthrows
    exact absurd rfl (hne what)
  · rw [hrun] at hthrows
    cases hthrows

end Reads

/-! ## The readers -/

namespace Reader

/-- How many bytes the first read of a reader takes: the whole of a fixed-width integer, the
length of a string, one byte of a base-128 integer. -/
def first : Reader → Nat
  | .value .fixedInt8 | .value .fixedUint8 => 1
  | .value .fixedInt16 | .value .fixedUint16 => 2
  | .value .fixedInt32 | .value .fixedUint32 => 4
  | .value .fixedInt64 | .value .fixedUint64 => 8
  | .value .uint32 | .value .uint64 | .value .int32 | .value .int64 => 1
  | .value .fixedStr64 => 8
  | .value .str => 1
  | .fixedStr16 => 2
  | .fixedStr32 => 4

/-- The readers of fixed-width integers: `read_fixed_int8` to `read_fixed_uint64`. -/
def IsFixed : Reader → Prop
  | .value .fixedInt8 | .value .fixedUint8 => True
  | .value .fixedInt16 | .value .fixedUint16 => True
  | .value .fixedInt32 | .value .fixedUint32 => True
  | .value .fixedInt64 | .value .fixedUint64 => True
  | _ => False

end Reader

section Readers

variable (host : Endian)

/-- A number of fixed width is read at once. -/
theorem readFixed_starts {n : Nat} (hn : 0 < n) : Starts n (readFixed host n) := by
  apply starts_bind (starts_read hn)
  intro bytes
  apply onlyMoves_bind onlyMoves_get
  intro s
  exact onlyMoves_pure _

/-- A number of fixed width takes one read. -/
theorem readFixed_alone (n : Nat) : Alone n (readFixed host n) := by
  apply alone_bind (alone_read n)
  intro bytes
  apply quiet_bind (quiet_get)
  intro s
  exact quiet_pure _

/-- A byte is read at once. -/
theorem readFixedUint8_starts : Starts 1 readFixedUint8 := by
  apply starts_bind (starts_read Nat.zero_lt_one)
  intro bytes
  split
  next => exact onlyMoves_pure _
  next => exact onlyMoves_throw _

/-- A byte takes one read. -/
theorem readFixedUint8_alone : Alone 1 readFixedUint8 := by
  apply alone_bind (alone_read 1)
  intro bytes
  split
  next => exact quiet_pure _
  next =>
    intro s what hthrows
    cases hthrows

/-- The loop for a variable-length number only moves the position. -/
theorem readVarint_onlyMoves (bits fuel i v : Nat) : OnlyMoves (readVarint bits fuel i v) := by
  induction fuel generalizing i v with
  | zero => exact onlyMoves_pure _
  | succ fuel ih =>
      rw [readVarint]
      split
      next =>
        apply onlyMoves_bind readFixedUint8_starts.onlyMoves
        intro b
        split
        next => exact onlyMoves_pure _
        next => exact ih _ _
      next => exact onlyMoves_pure _

/-- The loop for a variable-length number starts with one byte. -/
theorem readVarint_starts {bits : Nat} (hbits : 0 < bits) (fuel v : Nat) :
    Starts 1 (readVarint bits (fuel + 1) 0 v) := by
  rw [readVarint, if_pos hbits]
  apply starts_bind readFixedUint8_starts
  intro b
  split
  next => exact onlyMoves_pure _
  next => exact readVarint_onlyMoves _ _ _ _

theorem readUint32_starts : Starts 1 readUint32 :=
  starts_bind (readVarint_starts (by decide) 31 0) fun _ => onlyMoves_pure _

theorem readUint64_starts : Starts 1 readUint64 :=
  starts_bind (readVarint_starts (by decide) 63 0) fun _ => onlyMoves_pure _

/-- Reading a string only moves the position. -/
theorem readString_onlyMoves (n : Nat) : OnlyMoves (readString n) := by
  apply onlyMoves_bind (onlyMoves_read n)
  intro bytes
  split
  next => exact onlyMoves_pure _
  next => exact onlyMoves_throw _

/-- The first read of every reader. -/
theorem readRecord_starts (r : Reader) : Starts r.first (readRecord host r) := by
  have hfixed : ∀ {α : Type} (n : Nat) (f : Nat → α), 0 < n →
      Starts n (do let v ← readFixed host n; return f v) :=
    fun n f hn => starts_bind (readFixed_starts host hn) fun _ => onlyMoves_pure _
  cases r with
  | fixedStr16 =>
      exact starts_map (starts_bind (hfixed 2 UInt16.ofNat (by decide))
        fun _ => readString_onlyMoves _) _
  | fixedStr32 =>
      exact starts_map (starts_bind (hfixed 4 UInt32.ofNat (by decide))
        fun _ => readString_onlyMoves _) _
  | value k =>
      apply starts_map
      cases k with
      | fixedInt8 =>
          exact starts_map (starts_bind readFixedUint8_starts fun _ => onlyMoves_pure _) _
      | fixedUint8 => exact starts_map readFixedUint8_starts _
      | fixedInt16 => exact starts_map (hfixed 2 _ (by decide)) _
      | fixedUint16 => exact starts_map (hfixed 2 _ (by decide)) _
      | fixedInt32 => exact starts_map (hfixed 4 _ (by decide)) _
      | fixedUint32 => exact starts_map (hfixed 4 _ (by decide)) _
      | fixedInt64 => exact starts_map (hfixed 8 _ (by decide)) _
      | fixedUint64 => exact starts_map (hfixed 8 _ (by decide)) _
      | uint32 => exact starts_map readUint32_starts _
      | uint64 => exact starts_map readUint64_starts _
      | int32 => exact starts_map (starts_bind readUint32_starts fun _ => onlyMoves_pure _) _
      | int64 => exact starts_map (starts_bind readUint64_starts fun _ => onlyMoves_pure _) _
      | fixedStr64 =>
          exact starts_map (starts_bind (hfixed 8 UInt64.ofNat (by decide))
            fun _ => readString_onlyMoves _) _
      | str =>
          exact starts_map (starts_bind readUint64_starts fun _ => readString_onlyMoves _) _

/-- A reader of a fixed-width integer makes no other read. -/
theorem readRecord_alone {r : Reader} (hr : r.IsFixed) : Alone r.first (readRecord host r) := by
  have hfixed : ∀ {α : Type} (n : Nat) (f : Nat → α),
      Alone n (do let v ← readFixed host n; return f v) :=
    fun n f => alone_bind (readFixed_alone host n) fun _ => quiet_pure _
  cases r with
  | fixedStr16 => exact absurd hr id
  | fixedStr32 => exact absurd hr id
  | value k =>
      apply alone_map
      cases k with
      | fixedInt8 => exact alone_map (alone_bind readFixedUint8_alone fun _ => quiet_pure _) _
      | fixedUint8 => exact alone_map readFixedUint8_alone _
      | fixedInt16 => exact alone_map (hfixed 2 _) _
      | fixedUint16 => exact alone_map (hfixed 2 _) _
      | fixedInt32 => exact alone_map (hfixed 4 _) _
      | fixedUint32 => exact alone_map (hfixed 4 _) _
      | fixedInt64 => exact alone_map (hfixed 8 _) _
      | fixedUint64 => exact alone_map (hfixed 8 _) _
      | uint32 | uint64 | int32 | int64 | fixedStr64 | str => exact absurd hr id

end Readers

/-! ## What a reader leaves when it throws -/

/-- When a reader throws `std::out_of_range`, the size and the content are as before.  The cursor
and its node are as before exactly if fewer bytes were left than the first read of the reader
takes, which is so for every reader of a fixed-width integer; else the reads before the one that
threw have moved the cursor on. -/
theorem readRecord_throws (host : Endian) (r : Reader) {s s' : ByteArray} {what : String}
    (hthrows : readRecord host r s = (.error (.outOfRange what), s')) :
    s'.size = s.size ∧ (flat s').bytes = (flat s).bytes ∧
      (s'.position = s.position ∧ s'.cur = s.cur ↔ s.getEnableReadSize < r.first) ∧
      (r.first ≤ s.getEnableReadSize → s.position < s'.position) ∧
      (r.IsFixed → s.getEnableReadSize < r.first) := by
  have hstarts := readRecord_starts host r
  have hmoved := hstarts.onlyMoves s
  rw [hthrows] at hmoved
  have henough : r.first ≤ s.getEnableReadSize → s.position < s'.position := by
    intro hle
    have hlt := hstarts.enough s hle
    rw [hthrows] at hlt
    exact hlt ⟨what, rfl⟩
  obtain ⟨position, cur, rfl, -⟩ := hmoved
  refine ⟨rfl, rfl, ⟨?_, ?_⟩, henough, ?_⟩
  · rintro ⟨hpos, -⟩
    by_contra hle
    have hlt := henough (Nat.le_of_not_lt hle)
    omega
  · intro hshort
    rw [hstarts.short s hshort] at hthrows
    have hsame := congrArg Prod.snd hthrows
    exact ⟨congrArg ByteArray.position hsame.symm, congrArg ByteArray.cur hsame.symm⟩
  · intro hfixed
    exact readRecord_alone host hfixed s what (congrArg Prod.fst hthrows)

/-- Three bytes of a fixed-width integer of four. -/
theorem readRecord_throws_three :
    ∃ s', readRecord .little (.value .fixedUint32) (Lib.run step (new (fun _ _ => 0) 4)
        [.write [1, 2, 3], .setPosition 0]).2 =
          (.error (.outOfRange "[read out of range]"), s') ∧
      s'.size = 3 ∧ s'.position = 0 ∧ s'.cur = 0 := by
  have hthrows : readRecord .little (.value .fixedUint32) (Lib.run step (new (fun _ _ => 0) 4)
      [.write [1, 2, 3], .setPosition 0]).2 = (.error (.outOfRange "[read out of range]"),
        (Lib.run step (new (fun _ _ => 0) 4) [.write [1, 2, 3], .setPosition 0]).2) := rfl
  obtain ⟨hsize, -, hsame, -, hfixed⟩ := readRecord_throws .little (.value .fixedUint32) hthrows
  exact ⟨_, hthrows, hsize, hsame.mpr (hfixed trivial)⟩

/-- A base-128 integer of which only the first byte was written. -/
def cutVarint : ByteArray :=
  (Lib.run step (new (fun _ _ => 0) 4) [.write [0x80], .setPosition 0]).2

/-- `read_uint32` throws, and has taken this byte. -/
theorem readRecord_throws_fails :
    cutVarint.position = 0 ∧
      (readRecord .little (.value .uint32) cutVarint).1 =
        .error (.outOfRange "[read out of range]") ∧
      (readRecord .little (.value .uint32) cutVarint).2.position = 1 :=
  ⟨rfl, rfl, rfl⟩

end ByteArray
end Tiger
