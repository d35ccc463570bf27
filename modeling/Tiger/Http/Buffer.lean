import Mathlib.Tactic

/-!
# HTTP - receive buffers

A buffer is memory from its start on: a function from positions to bytes.  The
receivers fill it with `read`, end it with a NUL, and move what is left of it to
its start.

Main results:

- Theorem `slice_store_all`: a read puts its bytes into the buffer.
- Theorem `slice_memmove`: a move drops the first bytes of the buffer.
- Theorem `at_append`: a text in two parts stands in the buffer when both parts do.
-/

namespace Tiger
namespace Http

/-- The contents of a `std::string`. -/
abbrev Text := List UInt8

/-- Memory from the start of a buffer on. -/
abbrev Memory := Nat → UInt8

/-- `len` bytes from position `pos` on. -/
def slice (m : Memory) (pos : Nat) : Nat → Text
  | 0 => []
  | len + 1 => m pos :: slice m (pos + 1) len

/-- `read` puts `bytes` at `pos`. -/
def store (m : Memory) (pos : Nat) (bytes : Text) : Memory :=
  fun i => if pos ≤ i ∧ i < pos + bytes.length then bytes.getD (i - pos) 0 else m i

/-- `memmove(data, data + offset, n)` on the start of a buffer. -/
def memmove (m : Memory) (offset n : Nat) : Memory :=
  fun i => if i < n then m (i + offset) else m i

/-- A slice has its length. -/
@[simp] theorem slice_length (m : Memory) (pos n : Nat) : (slice m pos n).length = n := by
  induction n generalizing pos with
  | zero => rfl
  | succ n ih => simp [slice, ih]

/-- The bytes of a slice are those of the buffer. -/
theorem slice_getElem? (m : Memory) (pos n i : Nat) (hi : i < n) :
    (slice m pos n)[i]? = some (m (pos + i)) := by
  induction n generalizing pos i with
  | zero => omega
  | succ n ih =>
      cases i with
      | zero => rfl
      | succ i =>
          rw [slice, List.getElem?_cons_succ, ih (pos + 1) i (by omega)]
          congr 2
          omega

/-- Buffers with the same bytes in a range have the same slice. -/
theorem slice_congr {m m' : Memory} {pos n : Nat} (h : ∀ i, pos ≤ i → i < pos + n → m i = m' i) :
    slice m pos n = slice m' pos n := by
  induction n generalizing pos with
  | zero => rfl
  | succ n ih =>
      rw [slice, slice, h pos le_rfl (by omega), ih fun i hi hi' => h i (by omega) (by omega)]

theorem store_getElem? {m : Memory} {xs : Text} {i : Nat} (hi : i < xs.length) :
    xs[i]? = some (store m 0 xs i) := by
  simp [store, hi, List.getD]

/-- The bytes of a buffer after a read. -/
theorem slice_store (m : Memory) (xs : Text) {pos n : Nat} (h : pos + n ≤ xs.length) :
    slice (store m 0 xs) pos n = (xs.drop pos).take n := by
  apply List.ext_getElem?
  intro i
  by_cases hi : i < n
  · rw [slice_getElem? _ _ _ _ hi, List.getElem?_take_of_lt hi, List.getElem?_drop]
    exact (store_getElem? (by omega)).symm
  · rw [List.getElem?_eq_none (by rw [slice_length]; omega),
      List.getElem?_eq_none (by rw [List.length_take]; omega)]

theorem slice_store_all (m : Memory) (xs : Text) : slice (store m 0 xs) 0 xs.length = xs := by
  simpa using slice_store m xs (show 0 + xs.length ≤ xs.length by omega)

/-- The bytes of a buffer after a read and a move to its start. -/
theorem slice_memmove_store (m : Memory) (xs : Text) {offset n : Nat} (h : offset + n ≤ xs.length) :
    slice (memmove (store m 0 xs) offset (xs.length - offset)) 0 n = (xs.drop offset).take n := by
  rw [← slice_store m xs h]
  apply List.ext_getElem?
  intro i
  by_cases hi : i < n
  · rw [slice_getElem? _ _ _ _ hi, slice_getElem? _ _ _ _ hi, memmove, if_pos (by omega)]
    congr 2
    omega
  · rw [List.getElem?_eq_none (by rw [slice_length]; omega),
      List.getElem?_eq_none (by rw [slice_length]; omega)]

/-! ## Filling and moving -/

/-- A slice is the slice of its front and that of its back. -/
theorem slice_add (m : Memory) (pos a b : Nat) :
    slice m pos (a + b) = slice m pos a ++ slice m (pos + a) b := by
  induction a generalizing pos with
  | zero => simp [slice]
  | succ a ih =>
      have hadd : a + 1 + b = (a + b) + 1 := by omega
      have hpos : pos + 1 + a = pos + (a + 1) := by omega
      rw [hadd, slice, slice, ih, hpos, List.cons_append]

/-- A move drops the first bytes of the buffer. -/
theorem slice_memmove (m : Memory) {offset len : Nat} (h : offset ≤ len) :
    slice (memmove m offset (len - offset)) 0 (len - offset) = (slice m 0 len).drop offset := by
  have hlen : len = offset + (len - offset) := by omega
  conv_rhs => rw [hlen, slice_add]
  rw [List.drop_left' (slice_length _ _ _), Nat.zero_add]
  apply List.ext_getElem?
  intro i
  by_cases hi : i < len - offset
  · rw [slice_getElem? _ _ _ _ hi, slice_getElem? _ _ _ _ hi, memmove, if_pos (by omega)]
    congr 2
    omega
  · rw [List.getElem?_eq_none (by rw [slice_length]; omega),
      List.getElem?_eq_none (by rw [slice_length]; omega)]

/-! ## Texts in a buffer -/

/-- The text stands at position `p` of the buffer. -/
def At (m : Memory) (p : Nat) (xs : Text) : Prop := slice m p xs.length = xs

theorem at_cons {m : Memory} {p : Nat} {c : UInt8} {xs : Text} :
    At m p (c :: xs) ↔ m p = c ∧ At m (p + 1) xs := by
  rw [At, At, List.length_cons, slice, List.cons.injEq]

/-- Two texts stand one behind the other. -/
theorem at_append {m : Memory} {p : Nat} {xs ys : Text} :
    At m p (xs ++ ys) ↔ At m p xs ∧ At m (p + xs.length) ys := by
  rw [At, At, At, List.length_append, slice_add]
  constructor
  · intro h
    exact List.append_inj h (slice_length _ _ _)
  · rintro ⟨hxs, hys⟩
    rw [hxs, hys]

theorem at_store (m : Memory) (xs : Text) : At (store m 0 xs) 0 xs := slice_store_all m xs

/-- The bytes of a text in the buffer. -/
theorem At.getElem? {m : Memory} {p : Nat} {xs : Text} (h : At m p xs) :
    ∀ i < xs.length, xs[i]? = some (m (p + i)) := by
  intro i hi
  rw [← slice_getElem? m p xs.length i hi, h]

/-- Of two texts at one position, the shorter one is a prefix. -/
theorem At.isPrefix {m : Memory} {p : Nat} {xs ys : Text} (hxs : At m p xs) (hys : At m p ys)
    (hle : xs.length ≤ ys.length) : xs <+: ys := by
  refine ⟨slice m (p + xs.length) (ys.length - xs.length), ?_⟩
  have hadd := slice_add m p xs.length (ys.length - xs.length)
  rw [Nat.add_sub_cancel' hle, hys, hxs] at hadd
  exact hadd.symm

end Http
end Tiger
