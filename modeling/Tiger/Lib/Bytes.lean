import Mathlib.Tactic

/-!
# Object representations of fixed-width integers

Bytes of an unsigned integer in either byte order, the byte swap between the
two, and the zigzag map between signed and unsigned words.

Main results:

- Theorems `ofLeBytes_leBytes` and `leBytes_ofLeBytes`: the little-endian form
  round-trips in both directions.
- Theorems `objectBytes_byteswap` and `byteswap_ofObjectBytes`: swapping a value
  is the same as changing the byte order of its representation.
- Theorem `unzigzag_zigzag`: zigzag decoding inverts zigzag encoding at every
  width, the least value included.
-/

namespace Tiger
namespace Lib

/-- A byte order. -/
inductive Endian
  | little
  | big
deriving DecidableEq, Repr

/-! ## Little-endian bytes -/

/-- The `n` low bytes of `v`, least significant first. -/
def leBytes : Nat → Nat → List UInt8
  | 0, _ => []
  | n + 1, v => UInt8.ofNat v :: leBytes n (v / 256)

/-- The value of a little-endian byte string. -/
def ofLeBytes : List UInt8 → Nat
  | [] => 0
  | b :: bs => b.toNat + 256 * ofLeBytes bs

/-- A number in `n` bytes has `n` bytes. -/
@[simp]
theorem leBytes_length (n v : Nat) : (leBytes n v).length = n := by
  induction n generalizing v with
  | zero => rfl
  | succ n ih => simp [leBytes, ih]

/-- The number that bytes denote is below the power of their count. -/
theorem ofLeBytes_lt (bs : List UInt8) : ofLeBytes bs < 256 ^ bs.length := by
  induction bs with
  | nil => simp [ofLeBytes]
  | cons b bs ih =>
      have hb : b.toNat < 256 := b.toNat_lt
      simp only [ofLeBytes, List.length_cons, Nat.pow_succ]
      omega

/-- Decoding the `n` low bytes recovers the value modulo `256 ^ n`. -/
theorem ofLeBytes_leBytes (n v : Nat) : ofLeBytes (leBytes n v) = v % 256 ^ n := by
  induction n generalizing v with
  | zero => simp [leBytes, ofLeBytes, Nat.mod_one]
  | succ n ih =>
      have hb : (UInt8.ofNat v).toNat = v % 256 := UInt8.toNat_ofNat'
      rw [leBytes, ofLeBytes, ih, hb, Nat.pow_succ, Nat.mul_comm (256 ^ n) 256, Nat.mod_mul]

/-- Encoding a decoded byte string recovers the string. -/
theorem leBytes_ofLeBytes (bs : List UInt8) : leBytes bs.length (ofLeBytes bs) = bs := by
  induction bs with
  | nil => rfl
  | cons b bs ih =>
      have hb : b.toNat < 256 := b.toNat_lt
      have hdiv : (b.toNat + 256 * ofLeBytes bs) / 256 = ofLeBytes bs := by omega
      have hmod : UInt8.ofNat (b.toNat + 256 * ofLeBytes bs) = b := by
        apply UInt8.toNat_inj.mp
        rw [UInt8.toNat_ofNat']
        omega
      rw [List.length_cons, leBytes, ofLeBytes, hdiv, hmod, ih]

/-! ## Byte order -/

/-- The bytes of an `n`-byte integer in memory. -/
def objectBytes (order : Endian) (n v : Nat) : List UInt8 :=
  match order with
  | .little => leBytes n v
  | .big => (leBytes n v).reverse

/-- The integer whose bytes in memory are `bs`. -/
def ofObjectBytes (order : Endian) (bs : List UInt8) : Nat :=
  match order with
  | .little => ofLeBytes bs
  | .big => ofLeBytes bs.reverse

/-- Reverse the bytes of an `n`-byte integer. -/
def byteswap (n v : Nat) : Nat := ofLeBytes (leBytes n v).reverse

@[simp]
theorem objectBytes_length (order : Endian) (n v : Nat) :
    (objectBytes order n v).length = n := by
  cases order <;> simp [objectBytes]

theorem leBytes_byteswap (n v : Nat) : leBytes n (byteswap n v) = (leBytes n v).reverse := by
  have h := leBytes_ofLeBytes (leBytes n v).reverse
  rwa [List.length_reverse, leBytes_length] at h

/-- Storing a swapped value in one order stores the value in the other. -/
theorem objectBytes_byteswap {host order : Endian} (hne : order ≠ host) (n v : Nat) :
    objectBytes host n (byteswap n v) = objectBytes order n v := by
  cases host <;> cases order <;> simp_all [objectBytes, leBytes_byteswap]

/-- Loading in one order and swapping loads in the other. -/
theorem byteswap_ofObjectBytes {host order : Endian} (hne : order ≠ host)
    (bs : List UInt8) :
    byteswap bs.length (ofObjectBytes host bs) = ofObjectBytes order bs := by
  cases host with
  | little =>
      cases order with
      | little => exact absurd rfl hne
      | big => simp [byteswap, ofObjectBytes, leBytes_ofLeBytes]
  | big =>
      cases order with
      | little =>
          have h := leBytes_ofLeBytes bs.reverse
          rw [List.length_reverse] at h
          simp [byteswap, ofObjectBytes, h]
      | big => exact absurd rfl hne

/-- Loading what was stored in the same order recovers the value. -/
theorem ofObjectBytes_objectBytes (order : Endian) (n v : Nat) :
    ofObjectBytes order (objectBytes order n v) = v % 256 ^ n := by
  cases order <;> simp [objectBytes, ofObjectBytes, ofLeBytes_leBytes]

/-! ## Zigzag -/

/-- Interleave negative and non-negative words: `0, -1, 1, -2, 2, ...`. -/
def zigzag {w : Nat} (v : BitVec w) : BitVec w :=
  if v.slt 0 then ((-v) <<< 1) - 1 else v <<< 1

/-- The inverse of `zigzag`. -/
def unzigzag {w : Nat} (v : BitVec w) : BitVec w := (v >>> 1) ^^^ -(v &&& 1)

private theorem one_toNat (m : Nat) : (1 : BitVec (m + 1)).toNat = 1 := by
  change 1 % 2 ^ (m + 1) = 1
  exact Nat.mod_eq_of_lt (Nat.one_lt_two_pow (by omega))

private theorem and_one_toNat {m : Nat} (v : BitVec (m + 1)) :
    (v &&& 1).toNat = v.toNat % 2 := by
  rw [BitVec.toNat_and, one_toNat, Nat.and_one_is_mod]

/-- An even word decodes to its half. -/
private theorem unzigzag_even {m : Nat} {v : BitVec (m + 1)} (heven : v.toNat % 2 = 0) :
    (unzigzag v).toNat = v.toNat / 2 := by
  have hbit : v &&& 1 = 0 := by
    apply BitVec.eq_of_toNat_eq
    rw [and_one_toNat, heven]
    simp
  have hneg : -(0 : BitVec (m + 1)) = 0 := by simp
  rw [unzigzag, hbit, hneg]
  simp [Nat.shiftRight_eq_div_pow]

/-- An odd word decodes to the complement of its half. -/
private theorem unzigzag_odd {m : Nat} {v : BitVec (m + 1)} (hodd : v.toNat % 2 = 1) :
    (unzigzag v).toNat = 2 ^ (m + 1) - 1 - v.toNat / 2 := by
  have hbit : v &&& 1 = 1 := by
    apply BitVec.eq_of_toNat_eq
    rw [and_one_toNat, hodd, one_toNat]
  have hneg : -(1 : BitVec (m + 1)) = BitVec.allOnes (m + 1) := BitVec.neg_one_eq_allOnes
  rw [unzigzag, hbit, hneg, BitVec.xor_allOnes, BitVec.toNat_not, BitVec.toNat_ushiftRight,
    Nat.shiftRight_eq_div_pow, Nat.pow_one]

/-- Decoding inverts encoding, also at the least value, whose negation wraps. -/
theorem unzigzag_zigzag {m : Nat} (v : BitVec (m + 1)) : unzigzag (zigzag v) = v := by
  have hlt := v.isLt
  have hpow : 2 ^ (m + 1) = 2 * 2 ^ m := Nat.pow_succ'
  have hsign : v.slt 0 = true ↔ 2 ^ m ≤ v.toNat := by
    change v.slt 0#(m + 1) = true ↔ _
    rw [BitVec.slt_zero_eq_msb, BitVec.msb_eq_decide]
    simp
  apply BitVec.eq_of_toNat_eq
  unfold zigzag
  by_cases hneg : 2 ^ m ≤ v.toNat
  · rw [if_pos (hsign.mpr hneg)]
    -- the encoding is `2 * (2 ^ (m + 1) - v) - 1`
    have henc : ((-v) <<< 1 - 1 : BitVec (m + 1)).toNat =
        2 * (2 ^ (m + 1) - v.toNat) - 1 := by
      have hshift : ((-v) <<< 1 : BitVec (m + 1)).toNat =
          2 * (2 ^ (m + 1) - v.toNat) % 2 ^ (m + 1) := by
        rw [BitVec.toNat_shiftLeft, BitVec.toNat_neg, Nat.shiftLeft_eq,
          Nat.mod_eq_of_lt (show 2 ^ (m + 1) - v.toNat < 2 ^ (m + 1) by omega), Nat.pow_one,
          Nat.mul_comm]
      rw [BitVec.toNat_sub, hshift, one_toNat]
      by_cases hmin : v.toNat = 2 ^ m
      · rw [hmin, hpow, show 2 * (2 * 2 ^ m - 2 ^ m) = 2 * 2 ^ m by omega, Nat.mod_self,
          Nat.mod_eq_of_lt (by omega)]
        omega
      · rw [Nat.mod_eq_of_lt (show 2 * (2 ^ (m + 1) - v.toNat) < 2 ^ (m + 1) by omega)]
        have hwrap : 2 ^ (m + 1) - 1 + 2 * (2 ^ (m + 1) - v.toNat) =
            2 * (2 ^ (m + 1) - v.toNat) - 1 + 2 ^ (m + 1) := by omega
        rw [hwrap, Nat.add_mod_right, Nat.mod_eq_of_lt (by omega)]
    rw [unzigzag_odd (by rw [henc]; omega), henc]
    omega
  · rw [if_neg (fun h => hneg (hsign.mp h))]
    have henc : (v <<< 1 : BitVec (m + 1)).toNat = 2 * v.toNat := by
      rw [BitVec.toNat_shiftLeft, Nat.shiftLeft_eq, Nat.pow_one, Nat.mul_comm,
        Nat.mod_eq_of_lt (by omega)]
    rw [unzigzag_even (by rw [henc]; omega), henc]
    omega

end Lib
end Tiger
