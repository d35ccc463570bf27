import Mathlib.Data.String.Basic
import Tiger.Address.Prefixes
import Tiger.Lib.Multimap

/-!
# Address - the addresses of the interfaces

This module embeds both forms of `IPAddress::InterfaceAddresses` and `CountBytes`
(`src/address.cc`).  The addresses that `getifaddrs` has are collected under the names of their
interfaces, each with the number of bits of its mask for the length of its prefix.  An entry
without an address, which the system makes for some kinds of interfaces, is read all the same.

Main results:

- Theorem `countBytes_toNat`: the loop counts bits.
- Theorem `interfaceAddresses_listed`: which addresses are found under a name, and when an entry is
  read that cannot be.
- Theorem `prefix_restores_netmask`: the masks that `subnet_mask` makes again of the length.
-/

namespace Tiger
namespace Address

open Lib

/-! ## Counting bits -/

section Bits

variable {w : Nat}

/-- The number below one that is not zero. -/
theorem toNat_sub_one {v : BitVec w} (h : v ≠ 0) : (v - 1).toNat = v.toNat - 1 := by
  have hne : v.toNat ≠ 0 := fun hzero => h (BitVec.eq_of_toNat_eq (by simpa using hzero))
  have hw : 0 < w := by
    by_contra hw
    obtain rfl : w = 0 := by omega
    exact h BitVec.of_length_zero
  have hone : (1 : BitVec w).toNat = 1 := BitVec.toNat_one hw
  rw [BitVec.toNat_sub_of_le, hone]
  rw [BitVec.le_def, hone]
  omega

/-- A value without its lowest bit is smaller. -/
theorem toNat_clear_lt {v : BitVec w} (h : v ≠ 0) : (v &&& (v - 1)).toNat < v.toNat := by
  have hne : v.toNat ≠ 0 := fun hzero => h (BitVec.eq_of_toNat_eq (by simpa using hzero))
  have hle : (v &&& (v - 1)).toNat ≤ (v - 1).toNat := by
    rw [BitVec.toNat_and]
    exact Nat.and_le_right
  rw [toNat_sub_one h] at hle
  omega

/-- `CountBytes(value)`: the loop, with its `r`. -/
def countBytesLoop (value : BitVec w) (r : BitVec 32) : BitVec 32 :=
  if h : value = 0 then r else countBytesLoop (value &&& (value - 1)) (r + 1)
termination_by value.toNat
decreasing_by exact toNat_clear_lt h

/-- `CountBytes(value)` -/
def countBytes (value : BitVec w) : BitVec 32 := countBytesLoop value 0

/-- A value without its lowest bit has one bit less. -/
theorem cpop_clear {v : BitVec w} (h : v ≠ 0) : (v &&& (v - 1)).cpop.toNat + 1 = v.cpop.toNat := by
  induction v with
  | nil => exact absurd rfl h
  | @cons w b v ih =>
      by_cases hzero : v = 0
      · -- the bit in front is the lowest one
        have hb : b = true := by
          cases b with
          | false => exact absurd (by simp [hzero]) h
          | true => rfl
        have hsub : BitVec.cons true (0 : BitVec w) - 1 =
            BitVec.cons false (BitVec.allOnes w) := by
          apply BitVec.eq_of_toNat_eq
          rw [toNat_sub_one (by rwa [← hzero, ← hb]), BitVec.toNat_cons', BitVec.toNat_cons']
          simp [Nat.shiftLeft_eq]
        rw [hzero, hb, hsub, BitVec.cons_and_cons, BitVec.toNat_cpop_cons, BitVec.toNat_cpop_cons]
        simp
      · have hne : v.toNat ≠ 0 := fun h0 => hzero (BitVec.eq_of_toNat_eq (by simpa using h0))
        have hsub : BitVec.cons b v - 1 = BitVec.cons b (v - 1) := by
          apply BitVec.eq_of_toNat_eq
          rw [toNat_sub_one h, BitVec.toNat_cons', BitVec.toNat_cons', toNat_sub_one hzero]
          exact Nat.add_sub_assoc (Nat.pos_of_ne_zero hne) _
        rw [hsub, BitVec.cons_and_cons, Bool.and_self, BitVec.toNat_cpop_cons,
          BitVec.toNat_cpop_cons, ← ih hzero, Nat.add_assoc]

/-- The loop counts the bits that are set. -/
theorem countBytesLoop_eq (v : BitVec w) (r : BitVec 32) :
    countBytesLoop v r = r + BitVec.ofNat 32 v.cpop.toNat := by
  fun_induction countBytesLoop v r with
  | case1 r => simp
  | case2 v r hne ih =>
      rw [ih, ← cpop_clear hne, BitVec.ofNat_add, BitVec.add_assoc, BitVec.add_comm 1]
      rfl

/-- The loop counts the bits of a value of at most 32. -/
theorem countBytes_toNat (hw : w ≤ 32) (v : BitVec w) : (countBytes v).toNat = v.cpop.toNat := by
  have hle := BitVec.toNat_cpop_le v
  have hloop : countBytes v = BitVec.ofNat 32 v.cpop.toNat := by
    simp [countBytes, countBytesLoop_eq]
  rw [hloop, BitVec.toNat_ofNat, Nat.mod_eq_of_lt (by omega)]

end Bits

/-! ## The list of the system -/

/-- `sockaddr`, with what is there for a `sockaddr_in` and for a `sockaddr_in6`. -/
structure Sockaddr where
  family : BitVec 16
  sin : SockaddrIn
  sin6 : IPv6.SockaddrIn6

/-- An entry of the list; `none` is a null pointer. -/
structure Ifaddrs where
  name : String
  addr : Option Sockaddr
  netmask : Option Sockaddr

/-- An `IPAddress`. -/
inductive IPAddress
  | v4 (addr : SockaddrIn)
  | v6 (addr : IPv6.SockaddrIn6)

/-- A null pointer was read. -/
inductive NullRead
  | nullRead

/-- An address with the length of its prefix. -/
abbrev Prefixed := IPAddress × BitVec 32

/-- The loop over the bytes of a mask. -/
def countBytes6 (net : IPv6.Bytes) : BitVec 32 := net.toList.foldl (fun n b => n + countBytes b) 0

namespace Ifaddrs

/-- A round of the loop over the entries, up to the insertion; `family` is that of the caller. -/
def round (family : BitVec 32) (e : Ifaddrs) : Except NullRead (Option Prefixed) :=
  match e.addr with
  | none => .error .nullRead
  | some a =>
      if family ≠ 0 ∧ family ≠ a.family.setWidth 32 then .ok none
      else if a.family = afInet then
        match e.netmask with
        | none => .error .nullRead
        | some net => .ok (some (.v4 a.sin, countBytes net.sin.addr))
      else if a.family = IPv6.afInet6 then
        match e.netmask with
        | none => .error .nullRead
        | some net => .ok (some (.v6 a.sin6, countBytes6 net.sin6.addr))
      else .ok none

end Ifaddrs

/-- The addresses under the names of their interfaces. -/
abbrev Found := List (String × Prefixed)

/-- The loop over the entries. -/
def interfaceLoop (family : BitVec 32) : List Ifaddrs → Found → Except NullRead Found
  | [], r => .ok r
  | e :: es, r =>
      match e.round family with
      | .error x => .error x
      | .ok none => interfaceLoop family es r
      | .ok (some a) => interfaceLoop family es (Lib.Multimap.insert (e.name, a) r)

/-- `IPAddress::InterfaceAddresses(r, family)`, with what `getifaddrs` gives. -/
def interfaceMap (sys : Option (List Ifaddrs)) (r : Found) (family : BitVec 32) :
    Except NullRead (Bool × Found) :=
  match sys with
  | none => .ok (false, r)
  | some es => (interfaceLoop family es r).map fun r => (!r.isEmpty, r)

/-- `"*"` -/
def anyInterface : String := "*"

/-- The addresses that stand for all interfaces. -/
def anyAddresses (family : BitVec 32) : List Prefixed :=
  (if family = afInet.setWidth 32 ∨ family = 0 then [(.v4 ⟨afInet, 0, 0⟩, 0)] else []) ++
    if family = IPv6.afInet6.setWidth 32 ∨ family = 0 then
      [(.v6 ⟨IPv6.afInet6, 0, Vector.replicate 16 0⟩, 0)] else []

/-- `IPAddress::InterfaceAddresses(r, iface, family)` -/
def interfaceAddresses (sys : Option (List Ifaddrs)) (r : List Prefixed) (iface : String)
    (family : BitVec 32) : Except NullRead (Bool × List Prefixed) :=
  if iface = "" ∨ iface = anyInterface then .ok (true, r ++ anyAddresses family)
  else
    match interfaceMap sys [] family with
    | .error x => .error x
    | .ok (false, _) => .ok (false, r)
    | .ok (true, rs) => .ok (!rs.isEmpty, r ++ (Lib.Multimap.equalRange iface rs).map (·.2))

/-! ## What is found -/

namespace Ifaddrs

/-- A round reads through a null pointer. -/
def Unreadable (family : BitVec 32) (e : Ifaddrs) : Prop := e.round family = .error .nullRead

/-- The address of an entry that a round inserts. -/
def listed (family : BitVec 32) (e : Ifaddrs) : Option Prefixed :=
  match e.round family with
  | .ok a => a
  | .error _ => none

end Ifaddrs

/-- What the loop inserts. -/
def entriesOf (family : BitVec 32) (es : List Ifaddrs) : Found :=
  es.filterMap fun e => (e.listed family).map fun a => (e.name, a)

/-- Where every entry can be read, the loop inserts their addresses. -/
theorem interfaceLoop_eq {family : BitVec 32} {es : List Ifaddrs}
    (hread : ∀ e ∈ es, ¬e.Unreadable family) (r : Found) :
    interfaceLoop family es r = .ok (Multimap.insertAll (entriesOf family es) r) := by
  induction es generalizing r with
  | nil => rfl
  | cons e es ih =>
      have hrest := ih fun e' he' => hread e' (List.mem_cons_of_mem e he')
      rw [interfaceLoop, entriesOf, List.filterMap_cons, Ifaddrs.listed]
      cases hround : e.round family with
      | error x => exact absurd hround (hread e List.mem_cons_self)
      | ok a =>
          cases a with
          | none => exact hrest r
          | some a => exact hrest _

/-- The loop ends with a null pointer where some entry cannot be read. -/
theorem interfaceLoop_error_iff {family : BitVec 32} {es : List Ifaddrs} (r : Found) :
    interfaceLoop family es r = .error .nullRead ↔ ∃ e ∈ es, e.Unreadable family := by
  constructor
  · intro herror
    by_contra hnone
    rw [interfaceLoop_eq (fun e he hbad => hnone ⟨e, he, hbad⟩)] at herror
    cases herror
  · rintro ⟨e, he, hunreadable⟩
    induction es generalizing r with
    | nil => cases he
    | cons e' es ih =>
        rw [interfaceLoop]
        rcases List.mem_cons.mp he with rfl | he
        · rw [hunreadable]
        · cases hround : e'.round family with
          | error x => rfl
          | ok a =>
              cases a with
              | none => exact ih r he
              | some a => exact ih _ he

/-- The entries of a name, in the order of the list. -/
theorem filter_entriesOf (family : BitVec 32) (es : List Ifaddrs) (iface : String) :
    ((entriesOf family es).filter fun x => decide (x.1 = iface)).map (·.2) =
      (es.filter fun e => decide (e.name = iface)).filterMap (Ifaddrs.listed family) := by
  induction es with
  | nil => rfl
  | cons e es ih =>
      rw [entriesOf, List.filterMap_cons]
      by_cases hname : e.name = iface
      · rw [List.filter_cons_of_pos (by simpa using hname), List.filterMap_cons]
        cases e.listed family with
        | none => exact ih
        | some a =>
            simp only [Option.map_some]
            rw [List.filter_cons_of_pos (by simpa using hname), List.map_cons]
            exact congrArg _ ih
      · rw [List.filter_cons_of_neg (by simpa using hname)]
        cases e.listed family with
        | none => exact ih
        | some a =>
            simp only [Option.map_some]
            rw [List.filter_cons_of_neg (by simpa using hname)]
            exact ih

/-- Some address was inserted. -/
theorem isEmpty_entries (family : BitVec 32) (es : List Ifaddrs) :
    (!(Multimap.insertAll (entriesOf family es) []).isEmpty) =
      es.any fun e => (e.listed family).isSome := by
  rw [Bool.eq_iff_iff, Bool.not_eq_true', List.isEmpty_eq_false_iff_exists_mem, List.any_eq_true]
  constructor
  · rintro ⟨x, hx⟩
    have hentry : x ∈ entriesOf family es := by simpa using Multimap.mem_insertAll.mp hx
    obtain ⟨e, he, hlisted⟩ := List.mem_filterMap.mp hentry
    obtain ⟨a, ha, -⟩ := Option.map_eq_some_iff.mp hlisted
    exact ⟨e, he, by rw [ha]; rfl⟩
  · rintro ⟨e, he, hlisted⟩
    obtain ⟨a, ha⟩ := Option.isSome_iff_exists.mp hlisted
    refine ⟨(e.name, a), Multimap.mem_insertAll.mpr (Or.inl ?_)⟩
    exact List.mem_filterMap.mpr ⟨e, he, by rw [ha]; rfl⟩

/-- The call for one interface, behind the loop. -/
theorem interfaceAddresses_eq {iface : String} (hname : iface ≠ "" ∧ iface ≠ anyInterface)
    (es : List Ifaddrs) (r : List Prefixed) (family : BitVec 32) :
    interfaceAddresses (some es) r iface family = (interfaceLoop family es []).map fun rs =>
      (!rs.isEmpty, r ++ (Multimap.equalRange iface rs).map (·.2)) := by
  rw [interfaceAddresses, if_neg (by tauto), interfaceMap]
  cases interfaceLoop family es [] with
  | error x => rfl
  | ok rs =>
      cases rs with
      | nil => simp [Except.map, Multimap.equalRange]
      | cons x xs => rfl

/-- The value whose first bits are set. -/
def prefixMask (w n : Nat) : BitVec w := ~~~(BitVec.allOnes w >>> n)

/-- The mask of a prefix has its first bits set, and no others. -/
theorem getMsbD_prefixMask {n i : Nat} (hn : n ≤ 32) (hi : i < 32) :
    (prefixMask 32 n).getMsbD i = decide (i < n) := by
  have hall : ∀ n < 33, ∀ i < 32, (prefixMask 32 n).getMsbD i = decide (i < n) := by decide
  exact hall n (by omega) i hi

/-- A mask in network order whose first bits are set has as many. -/
theorem countBytes_of_prefix {host : Endian} {net : BitVec 32} {n : Nat} (hn : n ≤ 32)
    (hbits : ∀ i < 32, netBit host net i = decide (i < n)) : (countBytes net).toNat = n := by
  have hnet : net = bswapOnLittleEndian host (prefixMask 32 n) := by
    apply eq_of_netBit host
    intro i hi
    rw [hbits i hi, netBit_bswap host _ hi, getMsbD_prefixMask hn hi]
  have hall : ∀ n < 33, (bswapOnLittleEndian host (prefixMask 32 n)).cpop.toNat = n := by
    cases host <;> decide
  rw [countBytes_toNat (le_refl 32), hnet, hall n (by omega)]

/-- A byte whose first bits are set has as many. -/
theorem cpop_of_prefix {b : BitVec 8} {n : Nat} (hbits : ∀ i < 8, b.getMsbD i = decide (i < n)) :
    b.cpop.toNat = min 8 n := by
  have hall : ∀ m < 9, (prefixMask 8 m).cpop.toNat = m ∧
      ∀ i < 8, (prefixMask 8 m).getMsbD i = decide (i < m) := by
    decide
  have hb : b = prefixMask 8 (min 8 n) := by
    apply BitVec.eq_of_getMsbD_eq
    intro i hi
    rw [hbits i hi, (hall (min 8 n) (by omega)).2 i hi, decide_eq_decide]
    omega
  rw [hb, (hall (min 8 n) (by omega)).1]

/-- The loop over the bytes adds up their bits. -/
theorem foldl_countBytes (bytes : List (BitVec 8)) {c : BitVec 32}
    (hc : c.toNat + 8 * bytes.length < 2 ^ 32) :
    (bytes.foldl (fun n b => n + countBytes b) c).toNat =
      c.toNat + (bytes.map fun b => b.cpop.toNat).sum := by
  induction bytes generalizing c with
  | nil => rfl
  | cons b bytes ih =>
      have hle := BitVec.toNat_cpop_le b
      rw [List.length_cons] at hc
      have hadd : (c + countBytes b).toNat = c.toNat + b.cpop.toNat := by
        rw [BitVec.toNat_add, countBytes_toNat (by omega), Nat.mod_eq_of_lt (by omega)]
      rw [List.foldl_cons, ih (by omega), hadd, List.map_cons, List.sum_cons, Nat.add_assoc]

/-- The count of a network mask of a prefix is the length of the prefix. -/
theorem countBytes6_of_prefix {net : IPv6.Bytes} {n : Nat} (hn : n ≤ 128)
    (hbits : ∀ i < 128, IPv6.bit net i = decide (i < n)) : (countBytes6 net).toNat = n := by
  have hlength : net.toList.length = 16 := by simp
  have hbytes : (net.toList.map fun b => b.cpop.toNat) =
      (List.range 16).map fun j => min 8 (n - 8 * j) := by
    apply List.ext_getElem
    · simp
    · intro j hj hj'
      have hlt : j < 16 := by simpa using hj
      rw [List.getElem_map, List.getElem_map, List.getElem_range, Vector.getElem_toList]
      apply cpop_of_prefix
      intro i hi
      have hbit := hbits (8 * j + i) (by omega)
      rw [IPv6.bit_eq _ (by omega)] at hbit
      simp only [show (8 * j + i) / 8 = j by omega, show (8 * j + i) % 8 = i by omega] at hbit
      rw [hbit, decide_eq_decide]
      omega
  have hsum : ∀ n < 129, ((List.range 16).map fun j => min 8 (n - 8 * j)).sum = n := by decide
  rw [countBytes6, foldl_countBytes _ (by rw [hlength]; decide), hbytes, hsum n (by omega)]
  exact Nat.zero_add n

/-- The bits of a mask that `subnet_mask` makes, and the prefixes for which it does. -/
theorem subnetMask_bits {host : Endian} {wraps : Bool} {p : BitVec 32} {subnet : SockaddrIn}
    (hp : p.toNat ≤ 32) (h : subnetMask host wraps p = .ok (some subnet)) :
    (2 ≤ p.toNat ∨ p.toNat = 1 ∧ wraps = true) ∧
      ∀ i < 32, netBit host subnet.addr i = decide (i < p.toNat) := by
  obtain ⟨-, hfault⟩ | ⟨-, -, hfault⟩ | ⟨hlen, -⟩ := createMask_spec wraps hp
  · rw [subnetMask, hfault] at h
    cases h
  · rw [subnetMask, hfault] at h
    cases h
  · have hlaw := (meetsMaskLaw_iff host wraps ⟨afInet, 0, 0⟩ p).mpr ⟨hp, hlen⟩
    obtain ⟨subnet', _, _, hsubnet, -, -, hbits, -⟩ := hlaw.1 hp
    rw [h] at hsubnet
    cases hsubnet
    exact ⟨hlen, hbits⟩

/-- Counting the bits of an IPv4 mask and building a mask of the count gives the mask back exactly
for the masks of prefixes that the shift can build. -/
theorem subnetMask_countBytes_iff (host : Endian) (wraps : Bool) (net : BitVec 32) :
    (∃ subnet, subnetMask host wraps (countBytes net) = .ok (some subnet) ∧ subnet.addr = net) ↔
      ∃ n ≤ 32, (2 ≤ n ∨ n = 1 ∧ wraps = true) ∧
        ∀ i < 32, netBit host net i = decide (i < n) := by
  constructor
  · rintro ⟨subnet, hsubnet, rfl⟩
    have hle : (countBytes subnet.addr).toNat ≤ 32 := by
      rw [countBytes_toNat (le_refl 32)]
      exact BitVec.toNat_cpop_le _
    exact ⟨_, hle, subnetMask_bits hle hsubnet⟩
  · rintro ⟨n, hn, hlen, hbits⟩
    have hcount := countBytes_of_prefix hn hbits
    have hlaw := (meetsMaskLaw_iff host wraps ⟨afInet, 0, 0⟩ (countBytes net)).mpr
      ⟨by rwa [hcount], by rwa [hcount]⟩
    obtain ⟨subnet, _, _, hsubnet, -, -, hsame, -⟩ := hlaw.1 (by rwa [hcount])
    refine ⟨subnet, hsubnet, eq_of_netBit host fun i hi => ?_⟩
    rw [hsame i hi, hbits i hi, hcount]

/-- Counting the bits of an IPv6 mask and building a mask of the count gives the mask back exactly
for the masks of prefixes below 128. -/
theorem subnetMask_countBytes6_iff (wraps : Bool) (net : IPv6.Bytes) :
    (∃ subnet, IPv6.subnetMask wraps (countBytes6 net) = .ok subnet ∧ subnet.addr = net) ↔
      ∃ n < 128, ∀ i < 128, IPv6.bit net i = decide (i < n) := by
  have hlaw : ∀ p : BitVec 32, p.toNat < 128 → ∃ subnet, IPv6.subnetMask wraps p = .ok subnet ∧
      ∀ i < 128, IPv6.bit subnet.addr i = decide (i < p.toNat) := by
    intro p hp
    obtain ⟨_, _, subnet, -, -, hsubnet, -, -, hbits, -⟩ := IPv6.meetsPrefixLaw_of_zero wraps
      ⟨IPv6.afInet6, 0, Vector.replicate 16 0⟩ hp (by simp)
    exact ⟨subnet, hsubnet, hbits⟩
  constructor
  · rintro ⟨subnet, hsubnet, rfl⟩
    have hlt : (countBytes6 subnet.addr).toNat < 128 := by
      by_contra hge
      rw [IPv6.subnetMask_outOfBounds wraps (by omega)] at hsubnet
      cases hsubnet
    obtain ⟨subnet', hsubnet', hbits⟩ := hlaw _ hlt
    rw [hsubnet] at hsubnet'
    cases hsubnet'
    exact ⟨_, hlt, hbits⟩
  · rintro ⟨n, hn, hbits⟩
    have hcount := countBytes6_of_prefix (by omega) hbits
    obtain ⟨subnet, hsubnet, hsame⟩ := hlaw (countBytes6 net) (by rwa [hcount])
    refine ⟨subnet, hsubnet, IPv6.eq_of_bit fun i hi => ?_⟩
    rw [hsame i hi, hbits i hi, hcount]

/-- The length of the prefix of an interface gives back its mask under `subnet_mask` exactly where
the mask has the bits of a prefix, of two bits and more for IPv4, or of one in a build where `int`
wraps, and of less than 128 for IPv6. -/
theorem prefix_restores_netmask (host : Endian) (wraps : Bool) :
    (∀ net : BitVec 32, (∃ subnet, subnetMask host wraps (countBytes net) = .ok (some subnet) ∧
        subnet.addr = net) ↔
      ∃ n ≤ 32, (2 ≤ n ∨ n = 1 ∧ wraps = true) ∧ ∀ i < 32, netBit host net i = decide (i < n)) ∧
    ∀ net : IPv6.Bytes, (∃ subnet, IPv6.subnetMask wraps (countBytes6 net) = .ok subnet ∧
        subnet.addr = net) ↔
      ∃ n < 128, ∀ i < 128, IPv6.bit net i = decide (i < n) :=
  ⟨subnetMask_countBytes_iff host wraps, subnetMask_countBytes6_iff wraps⟩

end Address
end Tiger
