import Mathlib.Tactic
import Tiger.Lib.Bytes

/-!
# Address - masks of IPv4 prefixes

This module embeds `CreateMask` and the members of `IPv4Address` that compute a mask, a network
and a broadcast address from a prefix (`src/address.cc`), with the byte swap of `src/endian.h`
on a host of either byte order.

`CreateMask` shifts an `int`.  A prefix of no bits shifts it by its width, and a prefix of one
bit shifts into the sign, so that the subtraction behind it overflows.  `subnet_mask` does not
refuse a prefix of more than 32 bits as its siblings do.

Main results:

- Theorem `netBit_bswap`: bits in network order are the bits of the swapped value.
- Theorem `createMask_spec`: what `CreateMask` computes for each prefix.
- Theorem `meetsMaskLaw_iff`: the prefixes for which the three members do what they are for.
-/

namespace Tiger
namespace Address

open Lib

/-! ## Byte order -/

/-- `bswap_32(v)` -/
def byteswap32 (v : BitVec 32) : BitVec 32 :=
  v.extractLsb' 0 8 ++ v.extractLsb' 8 8 ++ v.extractLsb' 16 8 ++ v.extractLsb' 24 8

/-- `bswap_on_little_endian(v)` -/
def bswapOnLittleEndian (host : Endian) (v : BitVec 32) : BitVec 32 :=
  match host with
  | .little => byteswap32 v
  | .big => v

/-- Bit `i` of an address in network order: the bytes as they are in memory, and each of them
from its highest bit on. -/
def netBit (host : Endian) (v : BitVec 32) (i : Nat) : Bool :=
  match host with
  | .little => v.getLsbD (8 * (i / 8) + (7 - i % 8))
  | .big => v.getMsbD i

/-- A bit of a swapped value: the bytes are reversed, and the bits in a byte are not. -/
theorem getLsbD_byteswap32 (v : BitVec 32) {i : Nat} (hi : i < 32) :
    (byteswap32 v).getLsbD i = v.getLsbD (8 * (3 - i / 8) + i % 8) := by
  simp only [byteswap32, BitVec.getLsbD_append, BitVec.getLsbD_extractLsb']
  split_ifs with h₀ h₁ h₂
  · rw [decide_eq_true h₀, Bool.true_and, show 24 + i = 8 * (3 - i / 8) + i % 8 by omega]
  · rw [decide_eq_true h₁, Bool.true_and, show 16 + (i - 8) = 8 * (3 - i / 8) + i % 8 by omega]
  · rw [decide_eq_true h₂, Bool.true_and,
      show 8 + (i - 8 - 8) = 8 * (3 - i / 8) + i % 8 by omega]
  · rw [decide_eq_true (by omega), Bool.true_and,
      show 0 + (i - 8 - 8 - 8) = 8 * (3 - i / 8) + i % 8 by omega]

/-- The bits of a swapped value in network order are the bits of the value from the highest one
on. -/
theorem netBit_bswap (host : Endian) (v : BitVec 32) {i : Nat} (hi : i < 32) :
    netBit host (bswapOnLittleEndian host v) i = v.getMsbD i := by
  cases host with
  | little =>
      rw [netBit, bswapOnLittleEndian, getLsbD_byteswap32 v (by omega), BitVec.getMsbD,
        decide_eq_true hi, Bool.true_and]
      congr 1
      omega
  | big => rfl

/-- Values are told apart by their bits in network order. -/
theorem eq_of_netBit (host : Endian) {v w : BitVec 32}
    (h : ∀ i < 32, netBit host v i = netBit host w i) : v = w := by
  cases host with
  | little =>
      apply BitVec.eq_of_getLsbD_eq
      intro i hi
      have hbit := h (8 * (i / 8) + (7 - i % 8)) (by omega)
      rw [netBit, netBit, show 8 * ((8 * (i / 8) + (7 - i % 8)) / 8) +
        (7 - (8 * (i / 8) + (7 - i % 8)) % 8) = i by omega] at hbit
      exact hbit
  | big => exact BitVec.eq_of_getMsbD_eq h

/-- The bits of a complement. -/
theorem netBit_not (host : Endian) (v : BitVec 32) {i : Nat} (hi : i < 32) :
    netBit host (~~~v) i = !netBit host v i := by
  cases host with
  | little =>
      rw [netBit, netBit, BitVec.getLsbD_not, decide_eq_true (by omega), Bool.true_and]
  | big => rw [netBit, netBit, BitVec.getMsbD_not, decide_eq_true hi, Bool.true_and]

/-- Swapping and complementing in either order. -/
theorem bswap_not (host : Endian) (v : BitVec 32) :
    bswapOnLittleEndian host (~~~v) = ~~~bswapOnLittleEndian host v := by
  apply eq_of_netBit host
  intro i hi
  rw [netBit_bswap host _ hi, netBit_not host _ hi, netBit_bswap host _ hi, BitVec.getMsbD_not,
    decide_eq_true hi, Bool.true_and]

/-! ## Masks -/

/-- What an expression on `int` can do that the language does not define. -/
inductive Fault where
  | shiftByWidth
  | overflow
  deriving DecidableEq

/-- `sizeof(T) * 8 - bits` for `uint32_t`, a `size_t`. -/
def shiftCount (bits : BitVec 32) : Nat := (32 + 2 ^ 64 - bits.toNat) % 2 ^ 64

/-- `CreateMask<uint32_t>(bits)`: a shift of an `int` and a subtraction from it, which leaves the
range of `int` if the shift went into the sign.  With `wraps` the build gives such a
subtraction a meaning, as `-fwrapv` does. -/
def createMask (wraps : Bool) (bits : BitVec 32) : Except Fault (BitVec 32) :=
  if 32 ≤ shiftCount bits then .error .shiftByWidth
  else
    let shifted := 1#32 <<< shiftCount bits
    if shifted = BitVec.intMin 32 ∧ ¬wraps then .error .overflow
    else .ok (shifted - 1#32)

/-- The shift for a prefix of at most 32 bits. -/
theorem shiftCount_of_le {bits : BitVec 32} (h : bits.toNat ≤ 32) :
    shiftCount bits = 32 - bits.toNat := by
  rw [shiftCount]
  omega

/-- The shift for a longer prefix wraps beyond the width. -/
theorem le_shiftCount_of_lt {bits : BitVec 32} (h : 32 < bits.toNat) : 32 ≤ shiftCount bits := by
  have hlt := bits.isLt
  rw [shiftCount]
  omega

/-- The shift goes into the sign for a count of 31 only. -/
theorem shifted_eq_intMin_iff {k : Nat} (hk : k < 32) : 1#32 <<< k = BitVec.intMin 32 ↔ k = 31 := by
  have hall : ∀ k < 32, 1#32 <<< k = BitVec.intMin 32 ↔ k = 31 := by decide
  exact hall k hk

/-- One less than a power of two has the bits below it. -/
theorem getMsbD_shifted_sub_one {k i : Nat} (hk : k < 32) (hi : i < 32) :
    (1#32 <<< k - 1#32).getMsbD i = decide (32 - k ≤ i) := by
  have hall : ∀ k < 32, ∀ i < 32, (1#32 <<< k - 1#32).getMsbD i = decide (32 - k ≤ i) := by
    decide
  exact hall k hk i hi

/-- What `CreateMask` does for a prefix of at most 32 bits. -/
theorem createMask_spec (wraps : Bool) {bits : BitVec 32} (h : bits.toNat ≤ 32) :
    (bits.toNat = 0 ∧ createMask wraps bits = .error .shiftByWidth) ∨
      (bits.toNat = 1 ∧ wraps = false ∧ createMask wraps bits = .error .overflow) ∨
      ((2 ≤ bits.toNat ∨ bits.toNat = 1 ∧ wraps = true) ∧ ∃ mask, createMask wraps bits = .ok mask ∧
        ∀ i < 32, mask.getMsbD i = decide (bits.toNat ≤ i)) := by
  rw [createMask, shiftCount_of_le h]
  by_cases hzero : bits.toNat = 0
  · left
    exact ⟨hzero, if_pos (by omega)⟩
  · right
    rw [if_neg (by omega)]
    by_cases hone : bits.toNat = 1 ∧ wraps = false
    · left
      refine ⟨hone.1, hone.2, ?_⟩
      simp only
      rw [if_pos]
      rw [shifted_eq_intMin_iff (by omega), hone.2]
      exact ⟨by omega, by simp⟩
    · right
      constructor
      · rcases Nat.lt_or_ge bits.toNat 2 with hlt | hge
        · right
          refine ⟨by omega, ?_⟩
          by_contra hwraps
          exact hone ⟨by omega, by simpa using hwraps⟩
        · exact Or.inl hge
      · refine ⟨_, if_neg ?_, ?_⟩
        · rw [shifted_eq_intMin_iff (by omega)]
          intro hcontra
          exact hone ⟨by omega, by simpa using hcontra.2⟩
        · intro i hi
          rw [getMsbD_shifted_sub_one (by omega) hi,
            show 32 - (32 - bits.toNat) = bits.toNat by omega]

/-! ## Addresses -/

/-- `sockaddr_in`; `addr` is `sin_addr.s_addr`, in network order. -/
structure SockaddrIn where
  family : BitVec 16
  port : BitVec 16
  addr : BitVec 32

/-- `AF_INET` -/
def afInet : BitVec 16 := 2

/-- `IPv4Address::broadcast_address(prefix_len)`; `none` is a null pointer. -/
def broadcastAddress (host : Endian) (wraps : Bool) (a : SockaddrIn) (prefixLen : BitVec 32) :
    Except Fault (Option SockaddrIn) :=
  if prefixLen.toNat > 32 then .ok none
  else (createMask wraps prefixLen).map fun mask =>
    some { a with addr := a.addr ||| bswapOnLittleEndian host mask }

/-- `IPv4Address::network_address(prefix_len)` -/
def networkAddress (host : Endian) (wraps : Bool) (a : SockaddrIn) (prefixLen : BitVec 32) :
    Except Fault (Option SockaddrIn) :=
  if prefixLen.toNat > 32 then .ok none
  else (createMask wraps prefixLen).map fun mask =>
    some { a with addr := a.addr &&& bswapOnLittleEndian host (~~~mask) }

/-- `IPv4Address::subnet_mask(prefix_len)`, without a test of the prefix. -/
def subnetMask (host : Endian) (wraps : Bool) (prefixLen : BitVec 32) :
    Except Fault (Option SockaddrIn) :=
  (createMask wraps prefixLen).map fun mask =>
    some { family := afInet, port := 0, addr := ~~~bswapOnLittleEndian host mask }

/-- What the members are for.  Up to 32 bits the mask has the bits of the prefix, the network has
the bits of the address in it, the broadcast address has the bits of the address and all the
others, and both keep the port and the family; beyond that all three refuse. -/
def MeetsMaskLaw (host : Endian) (wraps : Bool) (a : SockaddrIn) (prefixLen : BitVec 32) : Prop :=
  (prefixLen.toNat ≤ 32 → ∃ subnet network broadcast,
    subnetMask host wraps prefixLen = .ok (some subnet) ∧
    networkAddress host wraps a prefixLen = .ok (some network) ∧
    broadcastAddress host wraps a prefixLen = .ok (some broadcast) ∧
    (∀ i < 32, netBit host subnet.addr i = decide (i < prefixLen.toNat)) ∧
    network.addr = a.addr &&& subnet.addr ∧ broadcast.addr = a.addr ||| ~~~subnet.addr ∧
    network.port = a.port ∧ network.family = a.family ∧
    broadcast.port = a.port ∧ broadcast.family = a.family) ∧
  (32 < prefixLen.toNat →
    subnetMask host wraps prefixLen = .ok none ∧ networkAddress host wraps a prefixLen = .ok none ∧
      broadcastAddress host wraps a prefixLen = .ok none)

/-- With a mask, the three members do what they are for. -/
theorem meetsMaskLaw_of_mask (host : Endian) {wraps : Bool} (a : SockaddrIn)
    {prefixLen mask : BitVec 32} (hle : prefixLen.toNat ≤ 32)
    (hmask : createMask wraps prefixLen = .ok mask)
    (hbits : ∀ i < 32, mask.getMsbD i = decide (prefixLen.toNat ≤ i)) :
    MeetsMaskLaw host wraps a prefixLen := by
  refine ⟨?_, fun hlt => absurd hle (by omega)⟩
  intro _
  refine ⟨{ family := afInet, port := 0, addr := ~~~bswapOnLittleEndian host mask },
    { a with addr := a.addr &&& bswapOnLittleEndian host (~~~mask) },
    { a with addr := a.addr ||| bswapOnLittleEndian host mask }, ?_, ?_, ?_, ?_, ?_, ?_,
    rfl, rfl, rfl, rfl⟩
  · rw [subnetMask, hmask]
    rfl
  · rw [networkAddress, if_neg (by omega), hmask]
    rfl
  · rw [broadcastAddress, if_neg (by omega), hmask]
    rfl
  · intro i hi
    rw [netBit_not host _ hi, netBit_bswap host _ hi, hbits i hi, ← decide_not, decide_eq_decide]
    exact not_le
  · rw [bswap_not]
  · rw [BitVec.not_not]

/-- The prefixes for which the members do what they are for: those of 2 to 32 bits, and that of
one bit in a build where `int` wraps. -/
theorem meetsMaskLaw_iff (host : Endian) (wraps : Bool) (a : SockaddrIn) (prefixLen : BitVec 32) :
    MeetsMaskLaw host wraps a prefixLen ↔
      prefixLen.toNat ≤ 32 ∧ (2 ≤ prefixLen.toNat ∨ prefixLen.toNat = 1 ∧ wraps = true) := by
  constructor
  · rintro ⟨hlaw, hrefuse⟩
    by_cases hle : prefixLen.toNat ≤ 32
    · obtain ⟨subnet, _, _, hsubnet, -⟩ := hlaw hle
      obtain ⟨-, hfault⟩ | ⟨-, -, hfault⟩ | ⟨hbits, -⟩ := createMask_spec wraps hle
      · rw [subnetMask, hfault] at hsubnet
        cases hsubnet
      · rw [subnetMask, hfault] at hsubnet
        cases hsubnet
      · exact ⟨hle, hbits⟩
    · have hsubnet := (hrefuse (by omega)).1
      rw [subnetMask, createMask, if_pos (le_shiftCount_of_lt (by omega))] at hsubnet
      cases hsubnet
  · rintro ⟨hle, hbits⟩
    obtain ⟨hzero, -⟩ | ⟨hone, hwraps, -⟩ | ⟨-, mask, hmask, hmaskbits⟩ := createMask_spec wraps hle
    · omega
    · rw [hwraps] at hbits
      have hfalse : ¬(false = true) := by simp
      rcases hbits with hge | ⟨-, h⟩
      · omega
      · exact absurd h hfalse
    · exact meetsMaskLaw_of_mask host a hle hmask hmaskbits

/-- For `127.0.0.1` the prefix of no bits shifts by the full width, and so does `subnet_mask` for
a prefix of 33 bits, which its siblings refuse. -/
theorem not_meetsMaskLaw :
    (¬MeetsMaskLaw .little true ⟨afInet, 0, 0x0100007f⟩ 0 ∧
      subnetMask .little true 0 = .error .shiftByWidth) ∧
    ¬MeetsMaskLaw .little true ⟨afInet, 0, 0x0100007f⟩ 33 ∧
      subnetMask .little true 33 = .error .shiftByWidth ∧
      networkAddress .little true ⟨afInet, 0, 0x0100007f⟩ 33 = .ok none := by
  refine ⟨⟨?_, rfl⟩, ?_, rfl, rfl⟩
  · rintro ⟨hlaw, -⟩
    obtain ⟨subnet, _, _, hsubnet, -⟩ := hlaw (by decide)
    cases hsubnet
  · rintro ⟨-, hrefuse⟩
    have hsubnet := (hrefuse (by decide)).1
    cases hsubnet

end Address
end Tiger
