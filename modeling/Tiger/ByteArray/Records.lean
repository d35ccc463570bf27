import Tiger.ByteArray.RoundTrip

/-!
# ByteArray - strings behind a short length

`write_fixed_str16` and `write_fixed_str32` (`src/bytearray.cc`) pass the size of a string to a
writer of 16 or 32 bits.  The size is cut to these bits, and all bytes of the string follow.
The reader takes the cut length, and what is left of the string is in front of the readers of
the values behind it.

Main results:

- Theorem `record_reads`: what the reader of a record returns in front of the bytes of its
  writer, and which of these bytes it leaves.
- Theorem `roundTrips_iff`: a list of records comes back exactly if all lengths fit.
- Theorem `fixedStr_roundTrips_iff`: the same for a string and the records behind it.
-/

namespace Tiger
namespace ByteArray

open Lib

/-! ## Records -/

/-- A value, or a string behind a length of 16 or 32 bits. -/
inductive Record
  | value (v : Value)
  | fixedStr16 (v : CppString)
  | fixedStr32 (v : CppString)
deriving DecidableEq

/-- The readers, one for each writer of a record. -/
inductive Reader
  | value (k : Kind)
  | fixedStr16
  | fixedStr32
deriving DecidableEq

namespace Record

/-- The reader that matches the writer of a record. -/
def reader : Record → Reader
  | .value v => .value v.kind
  | .fixedStr16 _ => .fixedStr16
  | .fixedStr32 _ => .fixedStr32

/-- The length of a string fits into its bits. -/
def Fits : Record → Prop
  | .value _ => True
  | .fixedStr16 v => v.val.length < 2 ^ 16
  | .fixedStr32 v => v.val.length < 2 ^ 32

instance (r : Record) : Decidable r.Fits :=
  match r with
  | .value _ => inferInstanceAs (Decidable True)
  | .fixedStr16 v => inferInstanceAs (Decidable (v.val.length < 2 ^ 16))
  | .fixedStr32 v => inferInstanceAs (Decidable (v.val.length < 2 ^ 32))

end Record

section Records

variable (host : Endian)

/-- Write one record with its writer. -/
def writeRecord : Record → Op Unit
  | .value v => writeValue host v
  | .fixedStr16 v => writeFixedStr16 host v
  | .fixedStr32 v => writeFixedStr32 host v

/-- Read one record. -/
def readRecord : Reader → Op Record
  | .value k => .value <$> readValue host k
  | .fixedStr16 => .fixedStr16 <$> readFixedStr16 host
  | .fixedStr32 => .fixedStr32 <$> readFixedStr32 host

/-- Write a list of records in order. -/
def writeRecords : List Record → Op Unit
  | [] => return ()
  | r :: rs => do
      writeRecord host r
      writeRecords rs

/-- Read a list of records in order. -/
def readRecords : List Reader → Op (List Record)
  | [] => return []
  | k :: ks => do
      let r ← readRecord host k
      let rs ← readRecords ks
      return r :: rs

end Records

/-! ## What a reader returns -/

/-- The bytes of a string that a reader with a cut length takes. -/
def CppString.cut (v : CppString) (n : Nat) : CppString :=
  ⟨v.val.take (v.val.length % n), (List.length_take_le' _ _).trans_lt v.property⟩

namespace Record

/-- The record that comes back. -/
def readBack : Record → Record
  | .value v => .value v
  | .fixedStr16 v => .fixedStr16 (v.cut (2 ^ 16))
  | .fixedStr32 v => .fixedStr32 (v.cut (2 ^ 32))

/-- The bytes that are left behind it. -/
def left : Record → List UInt8
  | .value _ => []
  | .fixedStr16 v => v.val.drop (v.val.length % 2 ^ 16)
  | .fixedStr32 v => v.val.drop (v.val.length % 2 ^ 32)

/-- A string survives a buffer exactly if it is shorter than the buffer. -/
theorem cut_eq_iff (v : CppString) {n : Nat} (hn : 0 < n) :
    v.cut n = v ↔ v.val.length < n := by
  constructor
  · intro heq
    have hlen := congrArg (fun w : CppString => w.val.length) heq
    simp only [CppString.cut, List.length_take] at hlen
    have hmod := Nat.mod_lt v.val.length hn
    omega
  · intro hlt
    apply Subtype.ext
    simp only [CppString.cut]
    rw [Nat.mod_eq_of_lt hlt, List.take_length]

/-- A record comes back exactly if its length fits. -/
theorem readBack_eq_iff (r : Record) : r.readBack = r ↔ r.Fits := by
  cases r with
  | value v => exact iff_of_true rfl trivial
  | fixedStr16 v =>
      rw [readBack, Record.fixedStr16.injEq]
      exact cut_eq_iff v (by decide)
  | fixedStr32 v =>
      rw [readBack, Record.fixedStr32.injEq]
      exact cut_eq_iff v (by decide)

/-- Nothing is left of a record that fits. -/
theorem left_eq_nil {r : Record} (h : r.Fits) : r.left = [] := by
  cases r with
  | value v => rfl
  | fixedStr16 v => rw [left, Nat.mod_eq_of_lt h, List.drop_length]
  | fixedStr32 v => rw [left, Nat.mod_eq_of_lt h, List.drop_length]

end Record

section Reads

variable (order host : Endian)

/-- What returns behind another operation. -/
theorem bind_eq_ok {α β : Type} {x : Op α} {f : α → Op β} {s s' : ByteArray} {b : β}
    (h : (x >>= f) s = (.ok b, s')) : ∃ a s₁, x s = (.ok a, s₁) ∧ f a s₁ = (.ok b, s') := by
  rcases hx : x s with ⟨r, s₁⟩
  cases r with
  | error e =>
      simp only [bind, ExceptT.bind, ExceptT.mk, StateT.bind, hx] at h
      cases h
  | ok a => exact ⟨a, s₁, rfl, (bind_ok hx).symm.trans h⟩

/-- The writer of a record appends bytes, and in front of them the reader returns the record with
its string cut and leaves the rest of the string. -/
theorem record_reads (r : Record) :
    ∃ bytes, Writes order (writeRecord host r) (bytes ++ r.left) ∧
      Reads order (readRecord host r.reader) r.readBack bytes := by
  cases r with
  | value v =>
      rcases value_reads order host v with ⟨bytes, hwrite, hread⟩
      refine ⟨bytes, ?_, reads_functor_map hread Record.value⟩
      rw [Record.left, List.append_nil]
      exact hwrite
  | fixedStr16 v =>
      have hlen := readFixed_map_reads order host 2 (UInt16.ofNat v.val.length).toNat
        (UInt16.ofNat v.val.length).toNat_lt UInt16.ofNat _ UInt16.ofNat_toNat
      have hcut : (UInt16.ofNat v.val.length).toNat = (v.cut (2 ^ 16)).val.length := by
        simp only [UInt16.toNat_ofNat', CppString.cut]
        exact (List.length_take_of_le (Nat.mod_le _ _)).symm
      refine ⟨objectBytes order 2 (UInt16.ofNat v.val.length).toNat ++ (v.cut (2 ^ 16)).val, ?_,
        reads_functor_map (counted_reads order UInt16.toNat hlen hcut) Record.fixedStr16⟩
      rw [List.append_assoc, CppString.cut, Record.left, List.take_append_drop]
      exact writes_bind (writeFixed_writes order host 2 _) (write_writes order v.val)
  | fixedStr32 v =>
      have hlen := readFixed_map_reads order host 4 (UInt32.ofNat v.val.length).toNat
        (UInt32.ofNat v.val.length).toNat_lt UInt32.ofNat _ UInt32.ofNat_toNat
      have hcut : (UInt32.ofNat v.val.length).toNat = (v.cut (2 ^ 32)).val.length := by
        simp only [UInt32.toNat_ofNat', CppString.cut]
        exact (List.length_take_of_le (Nat.mod_le _ _)).symm
      refine ⟨objectBytes order 4 (UInt32.ofNat v.val.length).toNat ++ (v.cut (2 ^ 32)).val, ?_,
        reads_functor_map (counted_reads order UInt32.toNat hlen hcut) Record.fixedStr32⟩
      rw [List.append_assoc, CppString.cut, Record.left, List.take_append_drop]
      exact writes_bind (writeFixed_writes order host 4 _) (write_writes order v.val)

/-- The writer of a list appends bytes from which the readers return the list if all lengths
fit, and only then. -/
theorem records_read (rs : List Record) :
    ∃ bytes, Writes order (writeRecords host rs) bytes ∧
      ((∀ r ∈ rs, r.Fits) → Reads order (readRecords host (rs.map Record.reader)) rs bytes) ∧
      ∀ s s' rest, Ahead order s (bytes ++ rest) →
        readRecords host (rs.map Record.reader) s = (.ok rs, s') → ∀ r ∈ rs, r.Fits := by
  induction rs with
  | nil =>
      refine ⟨[], ?_, fun _ => reads_pure order [], by simp⟩
      intro s bytes hs
      exact ⟨s, rfl, by simpa using hs⟩
  | cons r rs ih =>
      rcases record_reads order host r with ⟨xs, hwrite, hread⟩
      rcases ih with ⟨ys, hwrites, hreads, honly⟩
      refine ⟨(xs ++ r.left) ++ ys, writes_bind hwrite hwrites, ?_, ?_⟩
      · intro hfits
        have hr : r.Fits := hfits r List.mem_cons_self
        have hrs := hreads fun r' hr' => hfits r' (List.mem_cons_of_mem _ hr')
        rw [r.readBack_eq_iff.mpr hr] at hread
        rw [Record.left_eq_nil hr, List.append_nil]
        exact reads_bind hread (reads_map hrs (r :: ·))
      · intro s s' rest hs hrun
        rw [List.append_assoc, List.append_assoc] at hs
        rcases hread s _ hs with ⟨s₁, hfirst, hs₁⟩
        rcases bind_eq_ok (show (readRecord host r.reader >>= fun r' => (do
          let rs ← readRecords host (rs.map Record.reader)
          return r' :: rs)) s = (.ok (r :: rs), s') from hrun) with ⟨r', s₁', hfirst', htail⟩
        rw [hfirst] at hfirst'
        cases hfirst'
        rcases bind_eq_ok htail with ⟨vs, s₂, hrest, hcons⟩
        have hlist : (Except.ok (r.readBack :: vs) : Except Failure (List Record)) =
            .ok (r :: rs) := congrArg Prod.fst hcons
        have hstate : s₂ = s' := congrArg Prod.snd hcons
        rw [Except.ok.injEq, List.cons.injEq] at hlist
        -- the first record came back, so nothing of it is left
        have hr : r.Fits := r.readBack_eq_iff.mp hlist.1
        rw [Record.left_eq_nil hr, List.nil_append] at hs₁
        rw [hlist.2, hstate] at hrest
        intro r' hr'
        rcases List.mem_cons.mp hr' with rfl | hr'
        · exact hr
        · exact honly s₁ s' rest hs₁ hrest r' hr'

end Reads

/-! ## Round trips -/

/-- What is asked of the writer of the first record: it throws, or all records come back and the
cursor is at the end. -/
def RoundTrips (host : Endian) (s : ByteArray) (r : Record) (rs : List Record) : Prop :=
  (∃ e s', writeRecord host r s = (.error e, s')) ∨
    ∃ s',
      (do
        writeRecords host (r :: rs)
        setPosition 0
        readRecords host ((r :: rs).map Record.reader) : Op (List Record)) s =
          (.ok (r :: rs), s') ∧ s'.position = s'.size

/-- Records that are written into a new object come back exactly if all their lengths fit. -/
theorem roundTrips_iff (junk : Nat → Nat → UInt8) (host : Endian) {baseSize : Nat}
    (hbase : 1 ≤ baseSize) (littleEndian : Bool) (r : Record) (rs : List Record) :
    RoundTrips host ((new junk baseSize).setLittleEndian littleEndian) r rs ↔
      ∀ r' ∈ r :: rs, r'.Fits := by
  set s₀ := (new junk baseSize).setLittleEndian littleEndian with hs₀
  have hstart : AtEnd s₀.endian s₀ [] := atEnd_new junk hbase littleEndian
  rcases record_reads s₀.endian host r with ⟨xs, hwrite, -⟩
  rcases hwrite s₀ [] hstart with ⟨s', hfirst, -⟩
  rcases records_read s₀.endian host (r :: rs) with ⟨bytes, hwrites, hreads, honly⟩
  rcases hwrites s₀ [] hstart with ⟨s₁, hrun₁, hs₁⟩
  rcases rewind hs₁ with ⟨s₂, hrun₂, hahead⟩
  unfold RoundTrips
  rw [bind_ok hrun₁, bind_ok hrun₂]
  constructor
  · rintro (⟨e, s', hthrows⟩ | ⟨s', hrun, -⟩)
    · rw [hfirst] at hthrows
      cases hthrows
    · exact honly s₂ s' [] hahead hrun
  · intro hfits
    rcases hreads hfits s₂ [] hahead with ⟨s₃, hrun₃, hs₃⟩
    exact .inr ⟨s₃, hrun₃, hs₃.at_end⟩

/-- A string that `write_fixed_str16` writes comes back with all records behind it exactly if it
has fewer than 2^16 bytes, one that `write_fixed_str32` writes if it has fewer than 2^32 bytes,
as far as the lengths of the strings behind it fit. -/
theorem fixedStr_roundTrips_iff (junk : Nat → Nat → UInt8) (host : Endian) {baseSize : Nat}
    (hbase : 1 ≤ baseSize) (littleEndian : Bool) (v : CppString) (rs : List Record) :
    (RoundTrips host ((new junk baseSize).setLittleEndian littleEndian) (.fixedStr16 v) rs ↔
        v.val.length < 2 ^ 16 ∧ ∀ r ∈ rs, r.Fits) ∧
      (RoundTrips host ((new junk baseSize).setLittleEndian littleEndian) (.fixedStr32 v) rs ↔
        v.val.length < 2 ^ 32 ∧ ∀ r ∈ rs, r.Fits) := by
  constructor
  · rw [roundTrips_iff junk host hbase littleEndian, List.forall_mem_cons]
    exact Iff.rfl
  · rw [roundTrips_iff junk host hbase littleEndian, List.forall_mem_cons]
    exact Iff.rfl

/-- A short string and a value behind it. -/
theorem fixedStr_roundTrips_short :
    RoundTrips .little ((new (fun _ _ => 0) 4).setLittleEndian false)
      (.fixedStr16 ⟨[104, 105], by decide⟩) [.value (.fixedUint8 7)] :=
  (fixedStr_roundTrips_iff (fun _ _ => 0) .little (show 1 ≤ 4 by decide) false
    ⟨[104, 105], by decide⟩ [.value (.fixedUint8 7)]).1.mpr ⟨by decide, by decide⟩

/-- A string of 2^16 bytes. -/
def longString : CppString := ⟨List.replicate (2 ^ 16) 97, by rw [List.length_replicate]; decide⟩

/-- A string of 2^16 bytes is written behind the length zero, and does not come back. -/
theorem fixedStr_roundTrips_fails :
    longString.val.length = 2 ^ 16 ∧ UInt16.ofNat longString.val.length = 0 ∧
      ¬RoundTrips .little ((new (fun _ _ => 0) 4).setLittleEndian false)
        (.fixedStr16 longString) [] := by
  have hlen : longString.val.length = 2 ^ 16 := List.length_replicate
  refine ⟨hlen, by rw [hlen]; rfl, ?_⟩
  rw [roundTrips_iff _ _ (by decide)]
  intro hfits
  have hlong : longString.val.length < 2 ^ 16 := hfits _ List.mem_cons_self
  omega

end ByteArray
end Tiger
