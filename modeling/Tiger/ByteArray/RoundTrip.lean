import Tiger.ByteArray.Flat
import Tiger.ByteArray.Codec

/-!
# ByteArray - typed values round-trip

A list of typed values written into a fresh `ByteArray` is read back unchanged.
The argument composes two rules over the flat vector: a writer appends a fixed
byte string (`Writes`), and a reader that finds this byte string at the cursor
returns the value and stops behind it (`Reads`).

Main results:

- Theorem `varintLoop_reads`: the base-128 reader inverts the base-128 writer.
- Theorems `writeValue_writes` and `readValue_reads`: writer and reader of every
  kind of value agree on its bytes.
- Theorem `readAll_writeAll`: whole lists round-trip and leave the cursor at the
  end.
-/

namespace Tiger
namespace ByteArray

open Lib

/-! ## Rules for writers and readers -/

/-- The cursor stands at the end of the flat vector `bytes`. -/
structure AtEnd (order : Endian) (s : ByteArray) (bytes : List UInt8) : Prop where
  inv : Inv s
  endian_eq : s.endian = order
  bytes_eq : (flat s).bytes = bytes
  position_eq : s.position = bytes.length

/-- The flat vector goes on with `rest` at the cursor. -/
structure Ahead (order : Endian) (s : ByteArray) (rest : List UInt8) : Prop where
  inv : Inv s
  endian_eq : s.endian = order
  rest_eq : (flat s).bytes.drop s.position = rest

/-- At the end of the vector, the operation appends `xs`. -/
def Writes (order : Endian) (op : Op Unit) (xs : List UInt8) : Prop :=
  ∀ s bytes, AtEnd order s bytes →
    ∃ s', op s = (.ok (), s') ∧ AtEnd order s' (bytes ++ xs)

/-- In front of `xs`, the operation returns `v` and stops behind `xs`. -/
def Reads {α : Type} (order : Endian) (op : Op α) (v : α) (xs : List UInt8) : Prop :=
  ∀ s rest, Ahead order s (xs ++ rest) →
    ∃ s', op s = (.ok v, s') ∧ Ahead order s' rest

section Rules

variable {order : Endian} {α β : Type}

/-- A composition behind a success of its first part. -/
theorem bind_ok {x : Op α} {f : α → Op β} {s s' : ByteArray} {a : α}
    (h : x s = (.ok a, s')) : (x >>= f) s = f a s' := by
  simp only [bind, ExceptT.bind, ExceptT.mk, StateT.bind, h]
  rfl

/-- Two writers one after the other write both texts. -/
theorem writes_bind {x y : Op Unit} {xs ys : List UInt8}
    (hx : Writes order x xs) (hy : Writes order y ys) :
    Writes order (do x; y) (xs ++ ys) := by
  intro s bytes hs
  rcases hx s bytes hs with ⟨s₁, hrun, hs₁⟩
  rcases hy s₁ _ hs₁ with ⟨s₂, hrun₂, hs₂⟩
  rw [List.append_assoc] at hs₂
  exact ⟨s₂, (bind_ok hrun).trans hrun₂, hs₂⟩

/-- Two readers one after the other read both texts. -/
theorem reads_bind {x : Op α} {f : α → Op β} {a : α} {b : β} {xs ys : List UInt8}
    (hx : Reads order x a xs) (hf : Reads order (f a) b ys) :
    Reads order (x >>= f) b (xs ++ ys) := by
  intro s rest hs
  rw [List.append_assoc] at hs
  rcases hx s _ hs with ⟨s₁, hrun, hs₁⟩
  rcases hf s₁ _ hs₁ with ⟨s₂, hrun₂, hs₂⟩
  exact ⟨s₂, (bind_ok hrun).trans hrun₂, hs₂⟩

theorem reads_pure (order : Endian) (v : α) : Reads order (pure v : Op α) v [] := by
  intro s rest hs
  exact ⟨s, rfl, hs⟩

/-- A pure map behind a reader. -/
theorem reads_map {x : Op α} {a : α} {xs : List UInt8} (hx : Reads order x a xs)
    (f : α → β) : Reads order (do let v ← x; return f v) (f a) xs := by
  have h := reads_bind (f := fun v => (pure (f v) : Op β)) hx (reads_pure order (f a))
  rwa [List.append_nil] at h

/-- A function on the result of a reader reads the same text. -/
theorem reads_functor_map {x : Op α} {a : α} {xs : List UInt8}
    (hx : Reads order x a xs) (f : α → β) : Reads order (f <$> x) (f a) xs := by
  have h := reads_map hx f
  rwa [← map_eq_pure_bind] at h

/-- `write` appends its buffer. -/
theorem write_writes (order : Endian) (buf : List UInt8) : Writes order (write buf) buf := by
  intro s bytes hs
  rcases write_spec hs.inv buf with ⟨s', hrun, hinv, _, hendian, hpos, hbytes⟩
  refine ⟨s', hrun, hinv, hendian.trans hs.endian_eq, ?_, ?_⟩
  · rw [hbytes, hs.bytes_eq, hs.position_eq, overwrite_at_end]
  · rw [hpos, hs.position_eq, List.length_append]

/-- `read` returns the bytes in front of it. -/
theorem read_reads (order : Endian) (xs : List UInt8) : Reads order (read xs.length) xs xs := by
  intro s rest hs
  have hlen := congrArg List.length hs.rest_eq
  rw [List.length_drop, hs.inv.flat_length, List.length_append] at hlen
  rcases read_spec hs.inv (n := xs.length) (by omega) with
    ⟨s', hrun, hinv, _, hendian, hpos, _, hbytes⟩
  rw [hs.rest_eq, List.take_left] at hrun
  refine ⟨s', hrun, hinv, hendian.trans hs.endian_eq, ?_⟩
  rw [hbytes, hpos, ← List.drop_drop, hs.rest_eq, List.drop_left]

end Rules

/-! ## Fixed-width integers -/

section Fixed

variable (order host : Endian)

/-- A number of fixed width is written in the byte order of the array. -/
theorem writeFixed_writes (n v : Nat) :
    Writes order (writeFixed host n v) (objectBytes order n v) := by
  intro s bytes hs
  have hswap : objectBytes host n (if s.endian ≠ host then byteswap n v else v) =
      objectBytes order n v := by
    rw [hs.endian_eq]
    split
    next hne => exact objectBytes_byteswap hne n v
    next heq => rw [not_not.mp heq]
  have hwrite := write_writes order
    (objectBytes host n (if s.endian ≠ host then byteswap n v else v)) s bytes hs
  rw [hswap] at hwrite
  rcases hwrite with ⟨s', hrun, hs'⟩
  refine ⟨s', ?_, hs'⟩
  rw [← hrun, ← hswap]
  exact bind_ok rfl

/-- A number of fixed width is read in the byte order of the array. -/
theorem readFixed_reads {n v : Nat} (hv : v < 256 ^ n) :
    Reads order (readFixed host n) v (objectBytes order n v) := by
  intro s rest hs
  have hread := read_reads order (objectBytes order n v) s rest hs
  rw [objectBytes_length] at hread
  rcases hread with ⟨s', hrun, hs'⟩
  refine ⟨s', ?_, hs'⟩
  have hvalue : (if s'.endian = host then ofObjectBytes host (objectBytes order n v)
      else byteswap n (ofObjectBytes host (objectBytes order n v))) = v := by
    rw [hs'.endian_eq]
    split
    next heq => rw [← heq, ofObjectBytes_objectBytes, Nat.mod_eq_of_lt hv]
    next hne =>
      have hswap := byteswap_ofObjectBytes hne (objectBytes order n v)
      rw [objectBytes_length] at hswap
      rw [hswap, ofObjectBytes_objectBytes, Nat.mod_eq_of_lt hv]
  have hrest : readFixed host n s = (.ok (if s'.endian = host
      then ofObjectBytes host (objectBytes order n v)
      else byteswap n (ofObjectBytes host (objectBytes order n v))), s') := bind_ok hrun
  rw [hrest, hvalue]

/-- A single byte is read. -/
theorem readFixedUint8_reads (order : Endian) (b : UInt8) :
    Reads order readFixedUint8 b [b] := by
  rw [readFixedUint8, ← List.append_nil [b]]
  exact reads_bind (read_reads order [b]) (reads_pure order b)

/-- Every reader built on `readFixed` by a conversion inverts its writer. -/
theorem readFixed_map_reads {α : Type} (n v : Nat) (hv : v < 256 ^ n) (f : Nat → α)
    (a : α) (hf : f v = a) :
    Reads order (do let v ← readFixed host n; return f v) a (objectBytes order n v) := by
  have h := reads_map (readFixed_reads order host hv) f
  rwa [hf] at h

end Fixed

/-! ## Base-128 integers -/

section Varint

variable (order : Endian)

/-- The last seven bits with the mark that more follow. -/
private theorem low_seven (v : Nat) :
    (UInt8.ofNat ((v &&& 0x7F) ||| 0x80)).toNat = v % 128 + 128 := by
  have hlow : v &&& 0x7F = v % 128 := Nat.and_two_pow_sub_one_eq_mod v 7
  have hor : v % 128 ||| 0x80 = v % 128 + 128 := by
    have h : 128 * 1 + v % 128 = 128 * 1 ||| v % 128 :=
      Nat.two_pow_add_eq_or_of_lt (i := 7) (Nat.mod_lt v (by decide)) 1
    rw [Nat.or_comm, Nat.add_comm]
    exact h.symm
  rw [hlow, hor, UInt8.toNat_ofNat']
  omega

private theorem and_low_seven (b : UInt8) : (b &&& 0x7F).toNat = b.toNat % 128 := by
  rw [UInt8.toNat_and]
  exact Nat.and_two_pow_sub_one_eq_mod b.toNat 7

/-- Adding seven bits above the ones already collected. -/
private theorem collect {acc i d : Nat} (bits : Nat) (hacc : acc < 2 ^ i)
    (hfit : d * 2 ^ i < 2 ^ bits) :
    acc ||| (d <<< i % 2 ^ bits) = acc + d * 2 ^ i := by
  rw [Nat.shiftLeft_eq, Nat.mod_eq_of_lt hfit, Nat.or_comm, Nat.mul_comm,
    ← Nat.two_pow_add_eq_or_of_lt hacc]
  omega

/-- A value of `7 * room` bits fits into `room` bytes. -/
theorem varintLoop_isSome {room v : Nat} (hv : v < 2 ^ (7 * (room + 1))) :
    ∃ bytes, varintLoop (room + 1) v = some bytes := by
  induction room generalizing v with
  | zero =>
      refine ⟨[UInt8.ofNat v], ?_⟩
      rw [varintLoop, if_neg (by simpa using hv)]
  | succ room ih =>
      rw [varintLoop]
      by_cases hbig : v ≥ 0x80
      · have hshift : v >>> 7 < 2 ^ (7 * (room + 1)) := by
          rw [Nat.shiftRight_eq_div_pow, Nat.div_lt_iff_lt_mul (by decide), ← Nat.pow_add]
          exact hv
        rcases ih hshift with ⟨bytes, hbytes⟩
        exact ⟨_, by rw [if_pos hbig, hbytes, Option.map_some]⟩
      · exact ⟨_, if_neg hbig⟩

/-- The reader collects the bytes of the writer.  The induction follows the
writer's bytes; `acc` holds the bits below `i`. -/
theorem varintLoop_reads {bits room v i acc : Nat} {bytes : List UInt8} (fuel : Nat)
    (hbytes : varintLoop room v = some bytes) (hi : i < bits) (hacc : acc < 2 ^ i)
    (hfit : v * 2 ^ i < 2 ^ bits) (hfuel : bits ≤ i + fuel) :
    Reads order (readVarint bits fuel i acc) (acc + v * 2 ^ i) bytes := by
  induction room generalizing v i acc fuel bytes with
  | zero => simp [varintLoop] at hbytes
  | succ room ih =>
      cases fuel with
      | zero => omega
      | succ fuel =>
        rw [varintLoop] at hbytes
        rw [readVarint, if_pos hi]
        by_cases hbig : v ≥ 0x80
        · -- a byte with the continuation bit
          rw [if_pos hbig, Option.map_eq_some_iff] at hbytes
          rcases hbytes with ⟨tail, htail, rfl⟩
          have hquot : v >>> 7 = v / 128 := Nat.shiftRight_eq_div_pow v 7
          have hpow : 2 ^ (i + 7) = 128 * 2 ^ i := by rw [Nat.pow_add, Nat.mul_comm]
          have hsplit : v / 128 * 2 ^ (i + 7) + v % 128 * 2 ^ i = v * 2 ^ i := by
            rw [hpow, ← Nat.mul_assoc, ← Nat.add_mul, Nat.div_add_mod']
          have hpos : 0 < v / 128 := Nat.div_pos hbig (by decide)
          have hi' : i + 7 < bits := by
            have hle : 2 ^ (i + 7) ≤ v / 128 * 2 ^ (i + 7) := Nat.le_mul_of_pos_left _ hpos
            exact (Nat.pow_lt_pow_iff_right (by decide : 1 < 2)).mp (by omega)
          have hlow : v % 128 * 2 ^ i < 128 * 2 ^ i :=
            Nat.mul_lt_mul_of_pos_right (Nat.mod_lt v (by decide)) (Nat.two_pow_pos i)
          have hcollect := collect bits hacc (show v % 128 * 2 ^ i < 2 ^ bits by omega)
          have hacc' : acc + v % 128 * 2 ^ i < 2 ^ (i + 7) := by
            have hbound : v % 128 * 2 ^ i ≤ 127 * 2 ^ i :=
              Nat.mul_le_mul_right _ (Nat.le_of_lt_succ (Nat.mod_lt v (by decide)))
            rw [hpow]
            omega
          have hrest := ih fuel htail hi' hacc' (by rw [hquot]; omega) (by omega)
          have hsum : acc + v % 128 * 2 ^ i + v >>> 7 * 2 ^ (i + 7) = acc + v * 2 ^ i := by
            rw [hquot]
            omega
          rw [hsum] at hrest
          refine reads_bind (readFixedUint8_reads order _) ?_
          have hcont : ¬ UInt8.ofNat ((v &&& 0x7F) ||| 0x80) < 0x80 := by
            rw [UInt8.lt_iff_toNat_lt, low_seven]
            simp
          rw [if_neg hcont, and_low_seven, low_seven, Nat.add_mod_right, Nat.mod_mod,
            hcollect]
          exact hrest
        · -- the last byte
          rw [if_neg hbig, Option.some_inj] at hbytes
          subst hbytes
          have hsmall : v < 128 := Nat.lt_of_not_le hbig
          have hbyte : (UInt8.ofNat v).toNat = v := by
            rw [UInt8.toNat_ofNat']
            omega
          have hlast : UInt8.ofNat v < 0x80 := by
            rw [UInt8.lt_iff_toNat_lt, hbyte]
            exact hsmall
          have hcollect := collect bits hacc hfit
          rw [← List.append_nil [UInt8.ofNat v]]
          refine reads_bind (readFixedUint8_reads order _) ?_
          rw [if_pos hlast, hbyte, hcollect]
          exact reads_pure order _

/-- A base-128 value is written and read back. -/
theorem varint_reads {room bits v : Nat} (hbits : 0 < bits) (hv : v < 2 ^ bits)
    (hroom : bits ≤ 7 * (room + 1)) :
    ∃ bytes, Writes order (writeVarint (room + 1) v) bytes ∧
      Reads order (readVarint bits bits 0 0) v bytes := by
  have hfit : v < 2 ^ (7 * (room + 1)) :=
    hv.trans_le (Nat.pow_le_pow_right (by decide) hroom)
  rcases varintLoop_isSome hfit with ⟨bytes, hbytes⟩
  refine ⟨bytes, ?_, ?_⟩
  · rw [writeVarint, hbytes]
    exact write_writes order bytes
  · have h := varintLoop_reads order bits hbytes hbits (Nat.two_pow_pos 0)
      (by simpa using hv) (by omega)
    simpa using h

end Varint

/-! ## Zigzag integers -/

/-- `encode_zigzag32` is the zigzag map on 32 bits. -/
private theorem encodeZigzag32_toBitVec (v : Int32) :
    (encodeZigzag32 v).toBitVec = zigzag v.toBitVec := by
  have hsign : v < 0 ↔ v.toBitVec.slt 0 = true := Int32.lt_iff_toBitVec_slt
  unfold encodeZigzag32 zigzag
  by_cases hneg : v < 0
  · rw [if_pos hneg, if_pos (hsign.mp hneg)]
    rfl
  · rw [if_neg hneg, if_neg (fun h => hneg (hsign.mpr h))]
    rfl

/-- `decode_zigzag32` undoes `encode_zigzag32`. -/
theorem decodeZigzag32_encodeZigzag32 (v : Int32) :
    decodeZigzag32 (encodeZigzag32 v) = v := by
  apply Int32.toBitVec_inj.mp
  have h : (decodeZigzag32 (encodeZigzag32 v)).toBitVec =
      unzigzag (encodeZigzag32 v).toBitVec := rfl
  rw [h, encodeZigzag32_toBitVec, unzigzag_zigzag]

/-- `encode_zigzag64` is the zigzag map on 64 bits. -/
private theorem encodeZigzag64_toBitVec (v : Int64) :
    (encodeZigzag64 v).toBitVec = zigzag v.toBitVec := by
  have hsign : v < 0 ↔ v.toBitVec.slt 0 = true := Int64.lt_iff_toBitVec_slt
  unfold encodeZigzag64 zigzag
  by_cases hneg : v < 0
  · rw [if_pos hneg, if_pos (hsign.mp hneg)]
    rfl
  · rw [if_neg hneg, if_neg (fun h => hneg (hsign.mpr h))]
    rfl

/-- `decode_zigzag64` undoes `encode_zigzag64`. -/
theorem decodeZigzag64_encodeZigzag64 (v : Int64) :
    decodeZigzag64 (encodeZigzag64 v) = v := by
  apply Int64.toBitVec_inj.mp
  have h : (decodeZigzag64 (encodeZigzag64 v)).toBitVec =
      unzigzag (encodeZigzag64 v).toBitVec := rfl
  rw [h, encodeZigzag64_toBitVec, unzigzag_zigzag]

/-! ## Typed values -/

section Values

variable (order host : Endian)

/-- A reader of a length, and then of that many bytes. -/
theorem counted_reads {α : Type} {reader : Op α} {len : α} {bytes : List UInt8} (f : α → Nat)
    (hreader : Reads order reader len bytes) {v : CppString} (hlen : f len = v.val.length) :
    Reads order (do let n ← reader; readString (f n)) v (bytes ++ v.val) := by
  refine reads_bind hreader ?_
  rw [hlen, ← List.append_nil v.val]
  refine reads_bind (by simpa using read_reads order v.val) ?_
  rw [dif_pos v.property]
  exact reads_pure order v

/-- A string behind its length is written and read back. -/
theorem string_reads {writer : Op Unit} {reader : Op UInt64} {v : CppString}
    {bytes : List UInt8} (hwriter : Writes order writer bytes)
    (hreader : Reads order reader (UInt64.ofNat v.val.length) bytes) :
    Writes order (do writer; write v.val) (bytes ++ v.val) ∧
      Reads order (do let len ← reader; readString len.toNat) v (bytes ++ v.val) := by
  have hsize : (UInt64.ofNat v.val.length).toNat = v.val.length := by
    rw [UInt64.toNat_ofNat']
    exact Nat.mod_eq_of_lt v.property
  exact ⟨writes_bind hwriter (write_writes order v.val),
    counted_reads order UInt64.toNat hreader hsize⟩

/-- What `write_uint32` writes is read back. -/
theorem uint32_reads (v : UInt32) :
    ∃ bytes, Writes order (writeUint32 v) bytes ∧ Reads order readUint32 v bytes := by
  rcases varint_reads order (by decide) v.toNat_lt (by decide : 32 ≤ 7 * (4 + 1)) with
    ⟨bytes, hwrite, hread⟩
  have h := reads_map hread UInt32.ofNat
  rw [UInt32.ofNat_toNat] at h
  exact ⟨bytes, hwrite, h⟩

/-- What `write_uint64` writes is read back. -/
theorem uint64_reads (v : UInt64) :
    ∃ bytes, Writes order (writeUint64 v) bytes ∧ Reads order readUint64 v bytes := by
  rcases varint_reads order (by decide) v.toNat_lt (by decide : 64 ≤ 7 * (9 + 1)) with
    ⟨bytes, hwrite, hread⟩
  have h := reads_map hread UInt64.ofNat
  rw [UInt64.ofNat_toNat] at h
  exact ⟨bytes, hwrite, h⟩

/-- The writer of a value appends a byte string that its reader takes back. -/
theorem value_reads (v : Value) :
    ∃ bytes, Writes order (writeValue host v) bytes ∧
      Reads order (readValue host v.kind) v bytes := by
  cases v with
  | fixedInt8 v =>
      have h := reads_map (readFixedUint8_reads order v.toUInt8) UInt8.toInt8
      exact ⟨[v.toUInt8], write_writes order [v.toUInt8], reads_functor_map h Value.fixedInt8⟩
  | fixedUint8 v =>
      exact ⟨[v], write_writes order [v],
        reads_functor_map (readFixedUint8_reads order v) Value.fixedUint8⟩
  | fixedInt16 v =>
      have h := readFixed_map_reads order host 2 v.toUInt16.toNat v.toUInt16.toNat_lt
        (fun n => (UInt16.ofNat n).toInt16) v (by simp)
      exact ⟨_, writeFixed_writes order host _ _, reads_functor_map h Value.fixedInt16⟩
  | fixedUint16 v =>
      have h := readFixed_map_reads order host 2 v.toNat v.toNat_lt UInt16.ofNat v (by simp)
      exact ⟨_, writeFixed_writes order host _ _, reads_functor_map h Value.fixedUint16⟩
  | fixedInt32 v =>
      have h := readFixed_map_reads order host 4 v.toUInt32.toNat v.toUInt32.toNat_lt
        (fun n => (UInt32.ofNat n).toInt32) v (by simp)
      exact ⟨_, writeFixed_writes order host _ _, reads_functor_map h Value.fixedInt32⟩
  | fixedUint32 v =>
      have h := readFixed_map_reads order host 4 v.toNat v.toNat_lt UInt32.ofNat v (by simp)
      exact ⟨_, writeFixed_writes order host _ _, reads_functor_map h Value.fixedUint32⟩
  | fixedInt64 v =>
      have h := readFixed_map_reads order host 8 v.toUInt64.toNat v.toUInt64.toNat_lt
        (fun n => (UInt64.ofNat n).toInt64) v (by simp)
      exact ⟨_, writeFixed_writes order host _ _, reads_functor_map h Value.fixedInt64⟩
  | fixedUint64 v =>
      have h := readFixed_map_reads order host 8 v.toNat v.toNat_lt UInt64.ofNat v (by simp)
      exact ⟨_, writeFixed_writes order host _ _, reads_functor_map h Value.fixedUint64⟩
  | uint32 v =>
      rcases uint32_reads order v with ⟨bytes, hwrite, hread⟩
      exact ⟨bytes, hwrite, reads_functor_map hread Value.uint32⟩
  | uint64 v =>
      rcases uint64_reads order v with ⟨bytes, hwrite, hread⟩
      exact ⟨bytes, hwrite, reads_functor_map hread Value.uint64⟩
  | int32 v =>
      rcases uint32_reads order (encodeZigzag32 v) with ⟨bytes, hwrite, hread⟩
      have h := reads_map hread decodeZigzag32
      rw [decodeZigzag32_encodeZigzag32] at h
      exact ⟨bytes, hwrite, reads_functor_map h Value.int32⟩
  | int64 v =>
      rcases uint64_reads order (encodeZigzag64 v) with ⟨bytes, hwrite, hread⟩
      have h := reads_map hread decodeZigzag64
      rw [decodeZigzag64_encodeZigzag64] at h
      exact ⟨bytes, hwrite, reads_functor_map h Value.int64⟩
  | fixedStr64 v =>
      have hread := readFixed_map_reads order host 8 (UInt64.ofNat v.val.length).toNat
        (UInt64.ofNat v.val.length).toNat_lt UInt64.ofNat _ (UInt64.ofNat_toNat)
      rcases string_reads order (writeFixed_writes order host 8 _) hread with
        ⟨hwrite, hreads⟩
      exact ⟨_, hwrite, reads_functor_map hreads Value.fixedStr64⟩
  | str v =>
      rcases uint64_reads order (UInt64.ofNat v.val.length) with ⟨bytes, hwrite, hread⟩
      rcases string_reads order hwrite hread with ⟨hwrites, hreads⟩
      exact ⟨_, hwrites, reads_functor_map hreads Value.str⟩

/-- Lists of values compose. -/
theorem values_read (vs : List Value) :
    ∃ bytes, Writes order (writeAll host vs) bytes ∧
      Reads order (readAll host (vs.map Value.kind)) vs bytes := by
  induction vs with
  | nil =>
      refine ⟨[], ?_, reads_pure order []⟩
      intro s bytes hs
      exact ⟨s, rfl, by simpa using hs⟩
  | cons v vs ih =>
      rcases value_reads order host v with ⟨xs, hwrite, hread⟩
      rcases ih with ⟨ys, hwrites, hreads⟩
      refine ⟨xs ++ ys, writes_bind hwrite hwrites, reads_bind hread ?_⟩
      exact reads_map hreads (v :: ·)

end Values

/-! ## From a new object and back to its start -/

/-- A fresh array is at the end of nothing. -/
theorem atEnd_new (junk : Nat → Nat → UInt8) {baseSize : Nat} (hbase : 1 ≤ baseSize)
    (littleEndian : Bool) :
    AtEnd ((new junk baseSize).setLittleEndian littleEndian).endian
      ((new junk baseSize).setLittleEndian littleEndian) [] := by
  have hnew := inv_new junk hbase
  refine ⟨⟨hnew.base_pos, hnew.node_size, hnew.nodes_bytes, hnew.position_le,
    hnew.size_le, hnew.cur_eq⟩, rfl, ?_, rfl⟩
  simp [flat, setLittleEndian, new]

/-- Back at the start, all bytes are ahead. -/
theorem rewind {order : Endian} {s : ByteArray} {bytes : List UInt8} (h : AtEnd order s bytes) :
    ∃ s', setPosition 0 s = (.ok (), s') ∧ Ahead order s' (bytes ++ []) := by
  rcases setPosition_spec h.inv (Nat.zero_le _) with
    ⟨s', extra, hrun, hinv, _, hendian, hpos, _, hextra, hbytes⟩
  have hnone : extra = [] := List.length_eq_zero_iff.mp (by omega)
  refine ⟨s', hrun, hinv, hendian.trans h.endian_eq, ?_⟩
  rw [hbytes, h.bytes_eq, hnone, hpos, List.drop_zero]

/-- With nothing ahead, the cursor is at the end. -/
theorem Ahead.at_end {order : Endian} {s : ByteArray} (h : Ahead order s []) :
    s.position = s.size := by
  have hdone := List.drop_eq_nil_iff.mp h.rest_eq
  rw [h.inv.flat_length] at hdone
  exact le_antisymm h.inv.position_le hdone

/-- **Round trip.**  For every block size, host byte order and configured byte
order, writing a list of values into a fresh object, going back to the start and
reading with the matching readers returns the list, throws nothing and leaves
the cursor at the end. -/
theorem readAll_writeAll (junk : Nat → Nat → UInt8) (host : Endian) {baseSize : Nat}
    (hbase : 1 ≤ baseSize) (littleEndian : Bool) (vs : List Value) :
    ∃ s,
      (do
        writeAll host vs
        setPosition 0
        readAll host (vs.map Value.kind) : Op (List Value))
          ((new junk baseSize).setLittleEndian littleEndian) = (.ok vs, s) ∧
      s.position = s.size := by
  set s₀ := (new junk baseSize).setLittleEndian littleEndian with hs₀
  have hstart : AtEnd s₀.endian s₀ [] := atEnd_new junk hbase littleEndian
  rcases values_read s₀.endian host vs with ⟨bytes, hwrites, hreads⟩
  rcases hwrites s₀ [] hstart with ⟨s₁, hrun₁, hs₁⟩
  rcases rewind hs₁ with ⟨s₂, hrun₂, hahead⟩
  rcases hreads s₂ [] hahead with ⟨s₃, hrun₃, hs₃⟩
  refine ⟨s₃, ?_, hs₃.at_end⟩
  rw [bind_ok hrun₁, bind_ok hrun₂, hrun₃]

/-- Values of several kinds through blocks of three bytes on a little-endian
host. -/
theorem readAll_writeAll_three :
    ∃ s,
      (do
        writeAll .little [.fixedInt16 (-2), .int32 Int32.minValue, .str ⟨[104, 105], by decide⟩]
        setPosition 0
        readAll .little [.fixedInt16, .int32, .str] : Op (List Value))
          ((new (fun _ _ => 0) 3).setLittleEndian false) =
        (.ok [.fixedInt16 (-2), .int32 Int32.minValue, .str ⟨[104, 105], by decide⟩], s) ∧
      s.position = s.size :=
  readAll_writeAll (fun _ _ => 0) .little (by decide) false
    [.fixedInt16 (-2), .int32 Int32.minValue, .str ⟨[104, 105], by decide⟩]

end ByteArray
end Tiger
