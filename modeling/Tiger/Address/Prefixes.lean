import Mathlib.Tactic
import Tiger.Address.Masks

/-!
# Address - prefixes of IPv6 addresses

This module embeds the members of `IPv6Address` that compute a network, a broadcast address and a
mask from a prefix (`src/address.cc`), with the instance of `CreateMask` for a byte.

The byte with the end of the prefix is treated by itself, and the bytes on one side of it are
filled.  A prefix of 128 bits ends behind the last byte.  `network_address` takes the bits of the
mask from the end of the byte, where its counterpart for IPv4 complements the mask.

Main results:

- Theorem `fill_spec`: what a loop over a range of bytes leaves.
- Theorem `createMask8_spec`: the bits of the mask for a byte.
- Theorem `meetsPrefixLaw_iff`: the prefixes and addresses for which the members do what they are
  for.
-/

namespace Tiger
namespace Address
namespace IPv6

/-! ## Addresses -/

/-- `s6_addr` -/
abbrev Bytes := Vector (BitVec 8) 16

/-- `sockaddr_in6` without its flow and its scope, which no member reads; `addr` is
`sin6_addr.s6_addr`. -/
structure SockaddrIn6 where
  family : BitVec 16
  port : BitVec 16
  addr : Bytes
deriving DecidableEq

/-- `AF_INET6` -/
def afInet6 : BitVec 16 := 10

/-- What the members can do that the language does not define. -/
inductive Fault6 where
  | mask (e : Fault)
  | outOfBounds
  deriving DecidableEq

/-- `s6_addr[i]` -/
def load (addr : Bytes) (i : Nat) : Except Fault6 (BitVec 8) :=
  if h : i < 16 then .ok addr[i] else .error .outOfBounds

/-- `s6_addr[i] = v` -/
def store (v : BitVec 8) (addr : Bytes) (i : Nat) : Except Fault6 Bytes :=
  if h : i < 16 then .ok (addr.set i v) else .error .outOfBounds

/-- A loop that stores a byte at `n` places from `first` on. -/
def fill (v : BitVec 8) (first n : Nat) (addr : Bytes) : Except Fault6 Bytes :=
  (List.range' first n).foldlM (store v) addr

/-- Bit `i` of an address, the first one the highest of the first byte. -/
def bit (addr : Bytes) (i : Nat) : Bool := (addr[i / 8]?.getD 0).getMsbD (i % 8)

theorem store_of_lt (v : BitVec 8) (addr : Bytes) {i : Nat} (hi : i < 16) :
    store v addr i = .ok (addr.set i v) := by
  rw [store, dif_pos hi]

/-- A loop over bytes of the address stores all of them. -/
theorem fill_spec (v : BitVec 8) (first : Nat) {n : Nat} (addr : Bytes) (hin : first + n ≤ 16) :
    ∃ addr', fill v first n addr = .ok addr' ∧
      ∀ j (hj : j < 16), addr'[j] = if first ≤ j ∧ j < first + n then v else addr[j] := by
  induction n generalizing first addr with
  | zero =>
      refine ⟨addr, rfl, ?_⟩
      intro j hj
      rw [if_neg (by omega)]
  | succ n ih =>
      have hfirst : first < 16 := by omega
      obtain ⟨addr', hfill, hbytes⟩ := ih (first + 1) (addr.set first v) (by omega)
      refine ⟨addr', ?_, ?_⟩
      · rw [fill, List.range'_succ, List.foldlM_cons, store_of_lt v addr hfirst]
        exact hfill
      · intro j hj
        rw [hbytes j hj, Vector.getElem_set]
        by_cases hj' : first = j
        · rw [if_neg (by omega), if_pos hj', if_pos (by omega)]
        · rw [if_neg hj']
          by_cases hlow : first + 1 ≤ j ∧ j < first + 1 + n
          · rw [if_pos hlow, if_pos (by omega)]
          · rw [if_neg hlow, if_neg (by omega)]

/-! ## Masks -/

/-- `sizeof(T) * 8 - bits` for `uint8_t`, a `size_t`. -/
def shiftCount8 (bits : BitVec 32) : Nat := (8 + 2 ^ 64 - bits.toNat) % 2 ^ 64

/-- `CreateMask<uint8_t>(bits)`: the shift and the subtraction are those of an `int`, of which the
low byte is returned. -/
def createMask8 (wraps : Bool) (bits : BitVec 32) : Except Fault6 (BitVec 8) :=
  if 32 ≤ shiftCount8 bits then .error (.mask .shiftByWidth)
  else
    let shifted := 1#32 <<< shiftCount8 bits
    if shifted = BitVec.intMin 32 ∧ ¬wraps then .error (.mask .overflow)
    else .ok ((shifted - 1#32).setWidth 8)

/-- For up to seven bits the mask has the bits of the byte behind them. -/
theorem createMask8_spec (wraps : Bool) {bits : BitVec 32} (h : bits.toNat < 8) :
    ∃ mask, createMask8 wraps bits = .ok mask ∧
      ∀ i < 8, mask.getMsbD i = decide (bits.toNat ≤ i) := by
  have hcount : shiftCount8 bits = 8 - bits.toNat := by
    rw [shiftCount8]
    omega
  refine ⟨(1#32 <<< (8 - bits.toNat) - 1#32).setWidth 8, ?_, ?_⟩
  · rw [createMask8, hcount, if_neg (by omega)]
    simp only
    rw [if_neg]
    rw [shifted_eq_intMin_iff (by omega)]
    omega
  · have hall : ∀ b < 8, ∀ i < 8,
        ((1#32 <<< (8 - b) - 1#32).setWidth 8 : BitVec 8).getMsbD i = decide (b ≤ i) := by
      decide
    exact hall bits.toNat h

/-! ## Members -/

/-- What the two members do that change the address behind a prefix: one operation with the mask
for the byte in which the prefix ends, and one value for the bytes behind it. -/
def changeBehind (op : BitVec 8 → BitVec 8 → BitVec 8) (v : BitVec 8) (wraps : Bool)
    (a : SockaddrIn6) (prefixLen : BitVec 32) : Except Fault6 SockaddrIn6 := do
  let mask ← createMask8 wraps (prefixLen % 8)
  let b ← load a.addr (prefixLen / 8).toNat
  let addr ← store (op b mask) a.addr (prefixLen / 8).toNat
  let first := (prefixLen / 8).toNat + 1
  let addr ← fill v first (16 - first) addr
  return { a with addr := addr }

/-- `IPv6Address::broadcast_address(prefix_len)` -/
def broadcastAddress : Bool → SockaddrIn6 → BitVec 32 → Except Fault6 SockaddrIn6 :=
  changeBehind (· ||| ·) 0xff

/-- `IPv6Address::network_address(prefix_len)` -/
def networkAddress : Bool → SockaddrIn6 → BitVec 32 → Except Fault6 SockaddrIn6 :=
  changeBehind (· &&& ·) 0x00

/-- `IPv6Address::subnet_mask(prefix_len)` -/
def subnetMask (wraps : Bool) (prefixLen : BitVec 32) : Except Fault6 SockaddrIn6 := do
  let mask ← createMask8 wraps (prefixLen % 8)
  let addr ← store (~~~mask) (Vector.replicate 16 0) (prefixLen / 8).toNat
  let addr ← fill 0xff 0 (prefixLen / 8).toNat addr
  return { family := afInet6, port := 0, addr := addr }

/-- What the members are for: the network has the bits of the address in the prefix and no
others, the broadcast address has them and all the others, the mask has the bits of the prefix,
and the network is the address under the mask.  A result that is `.ok` accesses no byte outside
of the address. -/
def MeetsPrefixLaw (wraps : Bool) (a : SockaddrIn6) (prefixLen : BitVec 32) : Prop :=
  ∃ network broadcast subnet,
    networkAddress wraps a prefixLen = .ok network ∧
    broadcastAddress wraps a prefixLen = .ok broadcast ∧
    subnetMask wraps prefixLen = .ok subnet ∧
    (∀ i < 128, bit network.addr i = (decide (i < prefixLen.toNat) && bit a.addr i)) ∧
    (∀ i < 128, bit broadcast.addr i = (decide (prefixLen.toNat ≤ i) || bit a.addr i)) ∧
    (∀ i < 128, bit subnet.addr i = decide (i < prefixLen.toNat)) ∧
    network.addr = Vector.zipWith (· &&& ·) a.addr subnet.addr

/-! ## Bytes and bits -/

/-- A bit of the address is a bit of its byte. -/
theorem bit_eq (addr : Bytes) {i : Nat} (hi : i < 128) :
    bit addr i = addr[i / 8].getMsbD (i % 8) := by
  rw [bit, Vector.getElem?_eq_getElem (by omega)]
  rfl

/-- Addresses are told apart by their bits. -/
theorem eq_of_bit {x y : Bytes} (h : ∀ i < 128, bit x i = bit y i) : x = y := by
  ext j hj i hi
  have hbit := h (8 * j + (7 - i)) (by omega)
  rw [bit_eq x (by omega), bit_eq y (by omega)] at hbit
  simp only [show (8 * j + (7 - i)) / 8 = j by omega, show (8 * j + (7 - i)) % 8 = 7 - i by omega,
    BitVec.getMsbD, show 7 - i < 8 by omega, show 8 - 1 - (7 - i) = i by omega, decide_true,
    Bool.true_and] at hbit
  simpa [hi] using hbit

theorem getMsbD_ff {i : Nat} (hi : i < 8) : (0xff : BitVec 8).getMsbD i = true := by
  have hall : ∀ i < 8, (0xff : BitVec 8).getMsbD i = true := by decide
  exact hall i hi

variable {prefixLen : BitVec 32}

theorem toNat_div_eight : (prefixLen / 8).toNat = prefixLen.toNat / 8 := by
  rw [BitVec.toNat_udiv]
  rfl

theorem toNat_mod_eight : (prefixLen % 8).toNat = prefixLen.toNat % 8 := by
  rw [BitVec.toNat_umod]
  rfl

/-- The mask of the members for the byte in which the prefix ends. -/
theorem createMask8_end (wraps : Bool) (prefixLen : BitVec 32) :
    ∃ mask, createMask8 wraps (prefixLen % 8) = .ok mask ∧
      ∀ i < 8, mask.getMsbD i = decide (prefixLen.toNat % 8 ≤ i) := by
  have hlt : (prefixLen % 8).toNat < 8 := by
    rw [toNat_mod_eight]
    omega
  obtain ⟨mask, hmask, hbits⟩ := createMask8_spec wraps hlt
  rw [toNat_mod_eight] at hbits
  exact ⟨mask, hmask, hbits⟩

/-- One byte is stored and all bytes behind it are filled. -/
theorem store_fill_spec (b v : BitVec 8) (addr : Bytes) {k : Nat} (hk : k < 16) :
    ∃ addr', (store b addr k).bind (fill v (k + 1) (16 - (k + 1))) = .ok addr' ∧
      ∀ j (hj : j < 16), addr'[j] = if j < k then addr[j] else if j = k then b else v := by
  obtain ⟨addr', hfill, hbytes⟩ := fill_spec v (k + 1) (n := 16 - (k + 1)) (addr.set k b)
    (by omega)
  refine ⟨addr', ?_, ?_⟩
  · rw [store_of_lt b addr hk]
    exact hfill
  · intro j hj
    rw [hbytes j hj, Vector.getElem_set]
    rcases Nat.lt_trichotomy j k with hlt | heq | hgt
    · rw [if_neg (by omega), if_neg (by omega), if_pos hlt]
    · rw [if_neg (by omega), if_pos heq.symm, if_neg (by omega), if_pos heq]
    · rw [if_pos (by omega), if_neg (by omega), if_neg (by omega)]

/-- The bytes in front of the end of the prefix are kept. -/
theorem changeBehind_spec (op : BitVec 8 → BitVec 8 → BitVec 8) (v : BitVec 8) (wraps : Bool)
    (a : SockaddrIn6) (hlt : prefixLen.toNat < 128) :
    ∃ changed mask, changeBehind op v wraps a prefixLen = .ok changed ∧
      (∀ i < 8, mask.getMsbD i = decide (prefixLen.toNat % 8 ≤ i)) ∧
      ∀ j (hj : j < 16), changed.addr[j] = if j < prefixLen.toNat / 8 then a.addr[j]
        else if j = prefixLen.toNat / 8 then op a.addr[j] mask else v := by
  have hk : prefixLen.toNat / 8 < 16 := by omega
  obtain ⟨mask, hmask, hbits⟩ := createMask8_end wraps prefixLen
  obtain ⟨addr, hrun, hbytes⟩ := store_fill_spec (op a.addr[prefixLen.toNat / 8] mask) v a.addr hk
  refine ⟨{ a with addr := addr }, mask, ?_, hbits, ?_⟩
  · rw [store_of_lt _ a.addr hk] at hrun
    simp only [changeBehind, hmask, toNat_div_eight, load, dif_pos hk, bind, Except.bind,
      store_of_lt _ a.addr hk] at hrun ⊢
    rw [hrun]
    rfl
  · intro j hj
    rw [hbytes j hj]
    split_ifs with hlow heq
    · rfl
    · simp only [heq]
    · rfl

/-- The byte behind the address is read. -/
theorem changeBehind_outOfBounds (op : BitVec 8 → BitVec 8 → BitVec 8) (v : BitVec 8)
    (wraps : Bool) (a : SockaddrIn6) (hge : 128 ≤ prefixLen.toNat) :
    changeBehind op v wraps a prefixLen = .error .outOfBounds := by
  obtain ⟨mask, hmask, -⟩ := createMask8_end wraps prefixLen
  have hnot : ¬ prefixLen.toNat / 8 < 16 := by omega
  simp only [changeBehind, hmask, toNat_div_eight, load, dif_neg hnot, bind, Except.bind]

/-- The bytes of `subnet_mask`. -/
theorem subnetMask_spec (wraps : Bool) (hlt : prefixLen.toNat < 128) :
    ∃ subnet mask, subnetMask wraps prefixLen = .ok subnet ∧
      (∀ i < 8, mask.getMsbD i = decide (prefixLen.toNat % 8 ≤ i)) ∧
      ∀ j (hj : j < 16), subnet.addr[j] = if j < prefixLen.toNat / 8 then 0xff
        else if j = prefixLen.toNat / 8 then ~~~mask else 0 := by
  have hk : prefixLen.toNat / 8 < 16 := by omega
  obtain ⟨mask, hmask, hbits⟩ := createMask8_end wraps prefixLen
  obtain ⟨addr, hrun, hbytes⟩ := fill_spec 0xff 0 (n := prefixLen.toNat / 8)
    ((Vector.replicate 16 (0 : BitVec 8)).set (prefixLen.toNat / 8) (~~~mask)) (by omega)
  refine ⟨{ family := afInet6, port := 0, addr := addr }, mask, ?_, hbits, ?_⟩
  · simp only [subnetMask, hmask, toNat_div_eight, store_of_lt _ _ hk, bind, Except.bind]
    rw [hrun]
    rfl
  · intro j hj
    rw [hbytes j hj, Vector.getElem_set, Vector.getElem_replicate]
    rcases Nat.lt_trichotomy j (prefixLen.toNat / 8) with hlow | heq | hgt
    · rw [if_pos (by omega), if_pos hlow]
    · rw [if_neg (by omega), if_pos heq.symm, if_neg (by omega), if_pos heq]
    · rw [if_neg (by omega), if_neg (by omega), if_neg (by omega), if_neg (by omega)]

/-- Where the byte with the end of the prefix is zero, it does not matter which of its bits are
kept. -/
theorem meetsPrefixLaw_of_zero (wraps : Bool) (a : SockaddrIn6) (hlt : prefixLen.toNat < 128)
    (hzero : a.addr[prefixLen.toNat / 8] = 0) : MeetsPrefixLaw wraps a prefixLen := by
  obtain ⟨network, mask, hnetwork, -, hnbytes⟩ := changeBehind_spec (· &&& ·) 0x00 wraps a hlt
  obtain ⟨broadcast, maskB, hbroadcast, hmaskB, hbbytes⟩ :=
    changeBehind_spec (· ||| ·) 0xff wraps a hlt
  obtain ⟨subnet, maskS, hsubnet, hmaskS, hsbytes⟩ := subnetMask_spec wraps hlt
  have hn : ∀ i < 128, bit network.addr i = (decide (i < prefixLen.toNat) && bit a.addr i) := by
    intro i hi
    rw [bit_eq _ hi, bit_eq _ hi, hnbytes (i / 8) (by omega)]
    split_ifs with hlow heq
    · rw [decide_eq_true (by omega), Bool.true_and]
    · simp only [heq, hzero]
      simp
    · rw [decide_eq_false (by omega)]
      simp
  have hs : ∀ i < 128, bit subnet.addr i = decide (i < prefixLen.toNat) := by
    intro i hi
    rw [bit_eq _ hi, hsbytes (i / 8) (by omega)]
    split_ifs with hlow heq
    · rw [decide_eq_true (by omega)]
      exact getMsbD_ff (by omega)
    · rw [BitVec.getMsbD_not, decide_eq_true (by omega), Bool.true_and, hmaskS _ (by omega),
        ← decide_not, decide_eq_decide]
      omega
    · rw [decide_eq_false (by omega)]
      simp
  refine ⟨network, broadcast, subnet, hnetwork, hbroadcast, hsubnet, hn, ?_, hs, ?_⟩
  · intro i hi
    rw [bit_eq _ hi, bit_eq _ hi, hbbytes (i / 8) (by omega)]
    split_ifs with hlow heq
    · rw [decide_eq_false (by omega), Bool.false_or]
    · rw [BitVec.getMsbD_or, hmaskB _ (by omega), Bool.or_comm]
      congr 1
      rw [decide_eq_decide]
      omega
    · rw [decide_eq_true (by omega), Bool.true_or]
      exact getMsbD_ff (by omega)
  · apply eq_of_bit
    intro i hi
    rw [hn i hi, ← hs i hi, bit_eq _ hi, bit_eq _ hi, bit_eq _ hi, Vector.getElem_zipWith,
      BitVec.getMsbD_and, Bool.and_comm]

/-- A prefix of 128 bits and more ends behind the address. -/
theorem subnetMask_outOfBounds (wraps : Bool) (hge : 128 ≤ prefixLen.toNat) :
    subnetMask wraps prefixLen = .error .outOfBounds := by
  obtain ⟨mask, hmask, -⟩ := createMask8_end wraps prefixLen
  have hnot : ¬ prefixLen.toNat / 8 < 16 := by omega
  simp only [subnetMask, hmask, toNat_div_eight, store, dif_neg hnot, bind, Except.bind]

/-- The byte with the end of the prefix keeps what it has behind the prefix and loses what it has
in it, so that it is right only if it is zero. -/
theorem zero_of_network {wraps : Bool} {a network : SockaddrIn6} (hlt : prefixLen.toNat < 128)
    (hnetwork : networkAddress wraps a prefixLen = .ok network)
    (hbits : ∀ i < 128, bit network.addr i = (decide (i < prefixLen.toNat) && bit a.addr i)) :
    a.addr[prefixLen.toNat / 8] = 0 := by
  obtain ⟨network', mask, hnetwork', hmask, hbytes⟩ :=
    changeBehind_spec (· &&& ·) 0x00 wraps a hlt
  obtain rfl : network = network' := Except.ok.inj (hnetwork.symm.trans hnetwork')
  apply BitVec.eq_of_getMsbD_eq
  intro i hi
  have hbit := hbits (8 * (prefixLen.toNat / 8) + i) (by omega)
  rw [bit_eq _ (by omega), bit_eq _ (by omega)] at hbit
  simp only [show (8 * (prefixLen.toNat / 8) + i) / 8 = prefixLen.toNat / 8 by omega,
    show (8 * (prefixLen.toNat / 8) + i) % 8 = i by omega] at hbit
  rw [hbytes _ (by omega), if_neg (lt_irrefl _), if_pos rfl, BitVec.getMsbD_and, hmask i hi] at hbit
  have hzero : (0 : BitVec 8).getMsbD i = false := by simp
  rw [hzero]
  by_cases hin : prefixLen.toNat % 8 ≤ i
  · rw [decide_eq_true hin, decide_eq_false (by omega), Bool.and_true, Bool.false_and] at hbit
    exact hbit
  · rw [decide_eq_false hin, decide_eq_true (by omega), Bool.and_false, Bool.true_and] at hbit
    exact hbit.symm

/-- The members do what they are for exactly if the prefix ends in front of the last byte's end
and the byte in which it ends is zero. -/
theorem meetsPrefixLaw_iff (wraps : Bool) (a : SockaddrIn6) (prefixLen : BitVec 32) :
    MeetsPrefixLaw wraps a prefixLen ↔
      ∃ _ : prefixLen.toNat < 128, a.addr[prefixLen.toNat / 8] = 0 := by
  constructor
  · rintro ⟨network, _, _, hnetwork, -, -, hbits, -⟩
    have hlt : prefixLen.toNat < 128 := by
      by_contra hge
      rw [networkAddress, changeBehind_outOfBounds _ _ wraps a (by omega)] at hnetwork
      cases hnetwork
    exact ⟨hlt, zero_of_network hlt hnetwork hbits⟩
  · rintro ⟨hlt, hzero⟩
    exact meetsPrefixLaw_of_zero wraps a hlt hzero

/-- The network of `2001:db8::1` under a prefix of 16 bits keeps the byte behind the prefix, and
every member accesses the byte behind the address under a prefix of 128 bits. -/
theorem not_meetsPrefixLaw :
    let a : SockaddrIn6 :=
      ⟨afInet6, 0, #v[0x20, 0x01, 0x0d, 0xb8, 0, 0, 0, 0, 0, 0, 0, 0, 0, 0, 0, 1]⟩
    (¬MeetsPrefixLaw false a 16 ∧ networkAddress false a 16 =
      .ok ⟨afInet6, 0, #v[0x20, 0x01, 0x0d, 0, 0, 0, 0, 0, 0, 0, 0, 0, 0, 0, 0, 0]⟩) ∧
    ¬MeetsPrefixLaw false a 128 ∧ networkAddress false a 128 = .error .outOfBounds ∧
      broadcastAddress false a 128 = .error .outOfBounds ∧
      subnetMask false 128 = .error .outOfBounds := by
  intro a
  have hrun : networkAddress false a 16 =
      .ok ⟨afInet6, 0, #v[0x20, 0x01, 0x0d, 0, 0, 0, 0, 0, 0, 0, 0, 0, 0, 0, 0, 0]⟩ := by
    decide
  refine ⟨⟨?_, hrun⟩, ?_, by decide, by decide, by decide⟩
  · rintro ⟨network, _, _, hnetwork, -, -, hbits, -⟩
    rw [hrun] at hnetwork
    cases hnetwork
    exact absurd (hbits 20 (by decide)) (by decide)
  · rintro ⟨network, _, _, hnetwork, -⟩
    cases hnetwork

end IPv6
end Address
end Tiger
