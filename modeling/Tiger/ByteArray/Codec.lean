import Tiger.Lib.Bytes
import Tiger.ByteArray.Model

/-!
# ByteArray - typed writers and readers

This module embeds the typed half of `src/bytearray.cc`: fixed-width integers
in the configured byte order, base-128 integers, zigzag integers and strings
with a length in front.  `host` is the byte order `__TIGER_BYTE_ORDER` the
program was compiled for.
-/

namespace Tiger
namespace ByteArray

open Lib

/-- A `std::string`: any bytes, with a size that fits `size_t`. -/
abbrev CppString := {bytes : List UInt8 // bytes.length < 2 ^ 64}

/-! ## Zigzag -/

/-- `Encode_Zigzag32(v)` -/
def encodeZigzag32 (v : Int32) : UInt32 :=
  if v < 0 then ((-v).toUInt32 <<< 1) - 1 else (v <<< 1).toUInt32

/-- `Encode_Zigzag64(v)` -/
def encodeZigzag64 (v : Int64) : UInt64 :=
  if v < 0 then ((-v).toUInt64 <<< 1) - 1 else (v <<< 1).toUInt64

/-- `Decode_Zigzag32(v)` -/
def decodeZigzag32 (v : UInt32) : Int32 := ((v >>> 1) ^^^ -(v &&& 1)).toInt32

/-- `Decode_Zigzag64(v)` -/
def decodeZigzag64 (v : UInt64) : Int64 := ((v >>> 1) ^^^ -(v &&& 1)).toInt64

section Codec

variable (host : Endian)

/-! ## Fixed-width integers -/

/-- The body of `write_fixed_*`: swap when the orders differ, then copy the
`n` bytes of the object. -/
def writeFixed (n v : Nat) : Op Unit := do
  let s ← get
  let v := if s.endian ≠ host then byteswap n v else v
  write (objectBytes host n v)

/-- The body of `read_fixed_*`. -/
def readFixed (n : Nat) : Op Nat := do
  let bytes ← read n
  let v := ofObjectBytes host bytes
  let s ← get
  return if s.endian = host then v else byteswap n v

/-- `write_fixed_int8(v)` -/
def writeFixedInt8 (v : Int8) : Op Unit := write [v.toUInt8]

/-- `write_fixed_uint8(v)` -/
def writeFixedUint8 (v : UInt8) : Op Unit := write [v]

/-- `write_fixed_int16(v)` -/
def writeFixedInt16 (v : Int16) : Op Unit := writeFixed host 2 v.toUInt16.toNat

/-- `write_fixed_uint16(v)` -/
def writeFixedUint16 (v : UInt16) : Op Unit := writeFixed host 2 v.toNat

/-- `write_fixed_int32(v)` -/
def writeFixedInt32 (v : Int32) : Op Unit := writeFixed host 4 v.toUInt32.toNat

/-- `write_fixed_uint32(v)` -/
def writeFixedUint32 (v : UInt32) : Op Unit := writeFixed host 4 v.toNat

/-- `write_fixed_int64(v)` -/
def writeFixedInt64 (v : Int64) : Op Unit := writeFixed host 8 v.toUInt64.toNat

/-- `write_fixed_uint64(v)` -/
def writeFixedUint64 (v : UInt64) : Op Unit := writeFixed host 8 v.toNat

/-- `read_fixed_uint8()` -/
def readFixedUint8 : Op UInt8 := do
  let bytes ← read 1
  match bytes with
  | [b] => return b
  | _ => throw .overrun

/-- `read_fixed_int8()` -/
def readFixedInt8 : Op Int8 := do
  let b ← readFixedUint8
  return b.toInt8

/-- `read_fixed_int16()` -/
def readFixedInt16 : Op Int16 := do
  let v ← readFixed host 2
  return (UInt16.ofNat v).toInt16

/-- `read_fixed_uint16()` -/
def readFixedUint16 : Op UInt16 := do
  let v ← readFixed host 2
  return UInt16.ofNat v

/-- `read_fixed_int32()` -/
def readFixedInt32 : Op Int32 := do
  let v ← readFixed host 4
  return (UInt32.ofNat v).toInt32

/-- `read_fixed_uint32()` -/
def readFixedUint32 : Op UInt32 := do
  let v ← readFixed host 4
  return UInt32.ofNat v

/-- `read_fixed_int64()` -/
def readFixedInt64 : Op Int64 := do
  let v ← readFixed host 8
  return (UInt64.ofNat v).toInt64

/-- `read_fixed_uint64()` -/
def readFixedUint64 : Op UInt64 := do
  let v ← readFixed host 8
  return UInt64.ofNat v

/-! ## Base-128 integers -/

/-- The loop of `write_uint32` and `write_uint64` that fills `tmp`; `room` is
the number of bytes left in `tmp`, and `none` is a store past its end. -/
def varintLoop : Nat → Nat → Option (List UInt8)
  | 0, _ => none
  | room + 1, v =>
      if v ≥ 0x80 then
        (varintLoop room (v >>> 7)).map (UInt8.ofNat ((v &&& 0x7F) ||| 0x80) :: ·)
      else some [UInt8.ofNat v]

/-- Fill a `tmp` of `room` bytes and write it. -/
def writeVarint (room v : Nat) : Op Unit :=
  match varintLoop room v with
  | none => throw .overrun
  | some bytes => write bytes

/-- The `for (i = 0; i < bits; i += 7)` loop of `read_uint32` and
`read_uint64` on an accumulator of `bits` bits. -/
def readVarint (bits : Nat) : Nat → Nat → Nat → Op Nat
  | 0, _, v => return v
  | fuel + 1, i, v =>
      if i < bits then do
        let b ← readFixedUint8
        if b < 0x80 then return v ||| ((b.toNat <<< i) % 2 ^ bits)
        else readVarint bits fuel (i + 7) (v ||| (((b &&& 0x7F).toNat <<< i) % 2 ^ bits))
      else return v

/-- `write_uint32(v)` -/
def writeUint32 (v : UInt32) : Op Unit := writeVarint 5 v.toNat

/-- `write_uint64(v)` -/
def writeUint64 (v : UInt64) : Op Unit := writeVarint 10 v.toNat

/-- `write_int32(v)` -/
def writeInt32 (v : Int32) : Op Unit := writeUint32 (encodeZigzag32 v)

/-- `write_int64(v)` -/
def writeInt64 (v : Int64) : Op Unit := writeUint64 (encodeZigzag64 v)

/-- `read_uint32()`; the loop makes fewer rounds than there are bits. -/
def readUint32 : Op UInt32 := do
  let v ← readVarint 32 32 0 0
  return UInt32.ofNat v

/-- `read_uint64()` -/
def readUint64 : Op UInt64 := do
  let v ← readVarint 64 64 0 0
  return UInt64.ofNat v

/-- `read_int32()` -/
def readInt32 : Op Int32 := do
  let v ← readUint32
  return decodeZigzag32 v

/-- `read_int64()` -/
def readInt64 : Op Int64 := do
  let v ← readUint64
  return decodeZigzag64 v

/-! ## Strings -/

/-- `write_fixed_str16(v)`: the length is cut to 16 bits. -/
def writeFixedStr16 (v : CppString) : Op Unit := do
  writeFixedUint16 host (UInt16.ofNat v.val.length)
  write v.val

/-- `write_fixed_str32(v)`: the length is cut to 32 bits. -/
def writeFixedStr32 (v : CppString) : Op Unit := do
  writeFixedUint32 host (UInt32.ofNat v.val.length)
  write v.val

/-- `write_fixed_str64(v)` -/
def writeFixedStr64 (v : CppString) : Op Unit := do
  writeFixedUint64 host (UInt64.ofNat v.val.length)
  write v.val

/-- `write_str(v)` -/
def writeStr (v : CppString) : Op Unit := do
  writeUint64 (UInt64.ofNat v.val.length)
  write v.val

/-- `write_str_without_len(v)` -/
def writeStrWithoutLen (v : CppString) : Op Unit := write v.val

/-- `buff.resize(n); read(&buff[0], n)` -/
def readString (n : Nat) : Op CppString := do
  let bytes ← read n
  if h : bytes.length < 2 ^ 64 then return ⟨bytes, h⟩ else throw .overrun

/-- `read_fixed_str16()` -/
def readFixedStr16 : Op CppString := do
  let len ← readFixedUint16 host
  readString len.toNat

/-- `read_fixed_str32()` -/
def readFixedStr32 : Op CppString := do
  let len ← readFixedUint32 host
  readString len.toNat

/-- `read_fixed_str64()` -/
def readFixedStr64 : Op CppString := do
  let len ← readFixedUint64 host
  readString len.toNat

/-- `read_str()` -/
def readStr : Op CppString := do
  let len ← readUint64
  readString len.toNat

/-! ## Typed values -/

/-- A value together with the writer that is used for it. -/
inductive Value
  | fixedInt8 (v : Int8)
  | fixedUint8 (v : UInt8)
  | fixedInt16 (v : Int16)
  | fixedUint16 (v : UInt16)
  | fixedInt32 (v : Int32)
  | fixedUint32 (v : UInt32)
  | fixedInt64 (v : Int64)
  | fixedUint64 (v : UInt64)
  | uint32 (v : UInt32)
  | uint64 (v : UInt64)
  | int32 (v : Int32)
  | int64 (v : Int64)
  | fixedStr64 (v : CppString)
  | str (v : CppString)
deriving DecidableEq


/-- The kinds of values, one for each reader. -/
inductive Kind
  | fixedInt8 | fixedUint8 | fixedInt16 | fixedUint16
  | fixedInt32 | fixedUint32 | fixedInt64 | fixedUint64
  | uint32 | uint64 | int32 | int64 | fixedStr64 | str
deriving DecidableEq

/-- The reader that matches the writer of a value. -/
def Value.kind : Value → Kind
  | .fixedInt8 _ => .fixedInt8
  | .fixedUint8 _ => .fixedUint8
  | .fixedInt16 _ => .fixedInt16
  | .fixedUint16 _ => .fixedUint16
  | .fixedInt32 _ => .fixedInt32
  | .fixedUint32 _ => .fixedUint32
  | .fixedInt64 _ => .fixedInt64
  | .fixedUint64 _ => .fixedUint64
  | .uint32 _ => .uint32
  | .uint64 _ => .uint64
  | .int32 _ => .int32
  | .int64 _ => .int64
  | .fixedStr64 _ => .fixedStr64
  | .str _ => .str

/-- Write one value with its writer. -/
def writeValue : Value → Op Unit
  | .fixedInt8 v => writeFixedInt8 v
  | .fixedUint8 v => writeFixedUint8 v
  | .fixedInt16 v => writeFixedInt16 host v
  | .fixedUint16 v => writeFixedUint16 host v
  | .fixedInt32 v => writeFixedInt32 host v
  | .fixedUint32 v => writeFixedUint32 host v
  | .fixedInt64 v => writeFixedInt64 host v
  | .fixedUint64 v => writeFixedUint64 host v
  | .uint32 v => writeUint32 v
  | .uint64 v => writeUint64 v
  | .int32 v => writeInt32 v
  | .int64 v => writeInt64 v
  | .fixedStr64 v => writeFixedStr64 host v
  | .str v => writeStr v

/-- Read one value with the reader of its kind. -/
def readValue : Kind → Op Value
  | .fixedInt8 => .fixedInt8 <$> readFixedInt8
  | .fixedUint8 => .fixedUint8 <$> readFixedUint8
  | .fixedInt16 => .fixedInt16 <$> readFixedInt16 host
  | .fixedUint16 => .fixedUint16 <$> readFixedUint16 host
  | .fixedInt32 => .fixedInt32 <$> readFixedInt32 host
  | .fixedUint32 => .fixedUint32 <$> readFixedUint32 host
  | .fixedInt64 => .fixedInt64 <$> readFixedInt64 host
  | .fixedUint64 => .fixedUint64 <$> readFixedUint64 host
  | .uint32 => .uint32 <$> readUint32
  | .uint64 => .uint64 <$> readUint64
  | .int32 => .int32 <$> readInt32
  | .int64 => .int64 <$> readInt64
  | .fixedStr64 => .fixedStr64 <$> readFixedStr64 host
  | .str => .str <$> readStr

/-- Write a list of values in order. -/
def writeAll : List Value → Op Unit
  | [] => return ()
  | v :: vs => do
      writeValue host v
      writeAll vs

/-- Read a list of values in order. -/
def readAll : List Kind → Op (List Value)
  | [] => return []
  | k :: ks => do
      let v ← readValue host k
      let vs ← readAll ks
      return v :: vs

end Codec

end ByteArray
end Tiger
