import Tiger.Lib.Bytes
import Tiger.Streams.SocketStream

/-!
# WebSocket - frame heads, masks and length fields

The data that `WSSession` and `WSConnection` put on the wire: the packed
bit-field structure `WSFrameHead` of `src/servers/http/ws_session.h`, the
four-byte mask, and the extended length fields.  The layout of the bit fields
and the effect of `bswap_on_little_endian` and `bswap_on_big_endian`
(`src/endian.h`) are those of a little-endian host.

Main results:

- Theorem `WSFrameHead.ofBytes_toBytes`: the two head bytes round-trip.
- Theorem `maskFrom_maskFrom`: masking twice is the identity.
- Theorem `beValue_beBytes`: a big-endian length field round-trips.
-/

namespace Tiger
namespace WebSocket

open Lib

/-! ## The frame head -/

/-- `struct WSFrameHead`; the bounds are the widths of the bit fields. -/
@[ext]
structure WSFrameHead where
  opcode : Nat
  rsv3 : Bool
  rsv2 : Bool
  rsv1 : Bool
  fin : Bool
  payload : Nat
  mask : Bool
  opcode_lt : opcode < 16
  payload_lt : payload < 128

namespace WSFrameHead

/-- `WSFrameHead::CONTINUE` -/
def CONTINUE : Nat := 0
/-- `WSFrameHead::TEXT_FRAME` -/
def TEXT_FRAME : Nat := 1
/-- `WSFrameHead::BIN_FRAME` -/
def BIN_FRAME : Nat := 2
/-- `WSFrameHead::CLOSE` -/
def CLOSE : Nat := 8
/-- `WSFrameHead::PING` -/
def PING : Nat := 9
/-- `WSFrameHead::PONG` -/
def PONG : Nat := 0xA

theorem PING_lt : PING < 16 := by decide

theorem PONG_lt : PONG < 16 := by decide

/-- The head whose object representation is `b0 b1`. -/
def ofBytes (b0 b1 : UInt8) : WSFrameHead where
  opcode := b0.toNat % 16
  rsv3 := b0.toNat / 16 % 2 = 1
  rsv2 := b0.toNat / 32 % 2 = 1
  rsv1 := b0.toNat / 64 % 2 = 1
  fin := b0.toNat / 128 = 1
  payload := b1.toNat % 128
  mask := b1.toNat / 128 = 1
  opcode_lt := Nat.mod_lt _ (by decide)
  payload_lt := Nat.mod_lt _ (by decide)

/-- The object representation of a head. -/
def toBytes (h : WSFrameHead) : List UInt8 :=
  [UInt8.ofNat (h.opcode + 16 * h.rsv3.toNat + 32 * h.rsv2.toNat + 64 * h.rsv1.toNat +
      128 * h.fin.toNat),
    UInt8.ofNat (h.payload + 128 * h.mask.toNat)]

@[simp]
theorem toBytes_length (h : WSFrameHead) : h.toBytes.length = 2 := rfl

/-- Reading back a written head gives the same bit fields. -/
theorem ofBytes_toBytes (h : WSFrameHead) :
    ∃ b0 b1, h.toBytes = [b0, b1] ∧ ofBytes b0 b1 = h := by
  refine ⟨_, _, rfl, ?_⟩
  have hop := h.opcode_lt
  have hpay := h.payload_lt
  have hb0 : (UInt8.ofNat (h.opcode + 16 * h.rsv3.toNat + 32 * h.rsv2.toNat +
      64 * h.rsv1.toNat + 128 * h.fin.toNat)).toNat =
      h.opcode + 16 * h.rsv3.toNat + 32 * h.rsv2.toNat + 64 * h.rsv1.toNat +
        128 * h.fin.toNat := by
    have h3 := h.rsv3.toNat_lt
    have h2 := h.rsv2.toNat_lt
    have h1 := h.rsv1.toNat_lt
    have hf := h.fin.toNat_lt
    rw [UInt8.toNat_ofNat']
    omega
  have hb1 : (UInt8.ofNat (h.payload + 128 * h.mask.toNat)).toNat =
      h.payload + 128 * h.mask.toNat := by
    have hm := h.mask.toNat_lt
    rw [UInt8.toNat_ofNat']
    omega
  have h3 := h.rsv3.toNat_lt
  have h2 := h.rsv2.toNat_lt
  have h1 := h.rsv1.toNat_lt
  have hbit : ∀ b : Bool, decide (b.toNat = 1) = b := by decide
  ext
  · change _ % 16 = _
    rw [hb0]
    omega
  · change decide (_ / 16 % 2 = 1) = _
    rw [hb0, show (h.opcode + 16 * h.rsv3.toNat + 32 * h.rsv2.toNat + 64 * h.rsv1.toNat +
      128 * h.fin.toNat) / 16 % 2 = h.rsv3.toNat by omega, hbit]
  · change decide (_ / 32 % 2 = 1) = _
    rw [hb0, show (h.opcode + 16 * h.rsv3.toNat + 32 * h.rsv2.toNat + 64 * h.rsv1.toNat +
      128 * h.fin.toNat) / 32 % 2 = h.rsv2.toNat by omega, hbit]
  · change decide (_ / 64 % 2 = 1) = _
    rw [hb0, show (h.opcode + 16 * h.rsv3.toNat + 32 * h.rsv2.toNat + 64 * h.rsv1.toNat +
      128 * h.fin.toNat) / 64 % 2 = h.rsv1.toNat by omega, hbit]
  · change decide (_ / 128 = 1) = _
    rw [hb0, show (h.opcode + 16 * h.rsv3.toNat + 32 * h.rsv2.toNat + 64 * h.rsv1.toNat +
      128 * h.fin.toNat) / 128 = h.fin.toNat by omega, hbit]
  · change _ % 128 = _
    rw [hb1]
    omega
  · change decide (_ / 128 = 1) = _
    rw [hb1, show (h.payload + 128 * h.mask.toNat) / 128 = h.mask.toNat by omega, hbit]

end WSFrameHead

/-- `WSFrameMessage` -/
structure WSFrameMessage where
  opcode : Int
  data : List UInt8
deriving DecidableEq

/-! ## Masks -/

/-- `char mask[4]` -/
structure Mask where
  m0 : UInt8
  m1 : UInt8
  m2 : UInt8
  m3 : UInt8
deriving DecidableEq

namespace Mask

/-- `mask[i % 4]` -/
def get (m : Mask) (i : Nat) : UInt8 :=
  match i % 4 with
  | 0 => m.m0
  | 1 => m.m1
  | 2 => m.m2
  | _ => m.m3

/-- The four bytes in memory order. -/
def bytes (m : Mask) : List UInt8 := [m.m0, m.m1, m.m2, m.m3]

/-- The mask a four-byte read stores; missing bytes keep `char mask[4] = {0}`. -/
def ofBytes (bs : List UInt8) : Mask :=
  ⟨bs.getD 0 0, bs.getD 1 0, bs.getD 2 0, bs.getD 3 0⟩

@[simp]
theorem bytes_length (m : Mask) : m.bytes.length = 4 := rfl

@[simp]
theorem ofBytes_bytes (m : Mask) : ofBytes m.bytes = m := rfl

end Mask

/-- `data[i] ^= mask[i % 4]` from index `i` on. -/
def maskFrom (m : Mask) (i : Nat) : List UInt8 → List UInt8
  | [] => []
  | b :: bs => (b ^^^ m.get i) :: maskFrom m (i + 1) bs

/-- Masking keeps the length. -/
@[simp]
theorem maskFrom_length (m : Mask) (i : Nat) (bs : List UInt8) :
    (maskFrom m i bs).length = bs.length := by
  induction bs generalizing i with
  | nil => rfl
  | cons b bs ih => simp [maskFrom, ih]

/-- Masking is an involution. -/
theorem maskFrom_maskFrom (m : Mask) (i : Nat) (bs : List UInt8) :
    maskFrom m i (maskFrom m i bs) = bs := by
  induction bs generalizing i with
  | nil => rfl
  | cons b bs ih =>
      rw [maskFrom, maskFrom, ih, UInt8.xor_assoc, UInt8.xor_self, UInt8.xor_zero]

/-! ## Length fields -/

/-- `bswap_on_little_endian(t)` for an `n`-byte integer. -/
def bswapOnLittleEndian (n t : Nat) : Nat := byteswap n t

/-- `bswap_on_big_endian(t)` -/
def bswapOnBigEndian (t : Nat) : Nat := t

/-- A length field of `n` bytes in network order. -/
def beBytes (n v : Nat) : List UInt8 := (leBytes n v).reverse

@[simp]
theorem beBytes_length (n v : Nat) : (beBytes n v).length = n := by
  simp [beBytes]

/-- What a receiver on a little-endian host makes of a field in network order. -/
theorem beValue_beBytes {n v : Nat} (hv : v < 256 ^ n) :
    bswapOnLittleEndian n (ofLeBytes (beBytes n v)) = v := by
  have hswap : byteswap n (ofLeBytes (leBytes n v).reverse) =
      ofLeBytes (leBytes n v).reverse.reverse := by
    have h := leBytes_ofLeBytes (leBytes n v).reverse
    rw [List.length_reverse, leBytes_length] at h
    rw [byteswap, h]
  rw [bswapOnLittleEndian, beBytes, hswap, List.reverse_reverse, ofLeBytes_leBytes,
    Nat.mod_eq_of_lt hv]

/-- Swapping before storing on a little-endian host stores network order. -/
theorem leBytes_bswapOnLittleEndian (n v : Nat) :
    leBytes n (bswapOnLittleEndian n v) = beBytes n v :=
  leBytes_byteswap n v

end WebSocket
end Tiger
