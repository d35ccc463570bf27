import Tiger.Address.Prefixes
import Tiger.Lib.ColonHex

/-!
# Address - the text of IPv6 addresses

This module embeds `IPv6Address::insert` (`src/address.cc`), which prints an address in brackets
and its port behind them.  The loop over the eight groups has a single flag: as long as it is not
set, groups that are zero are passed over, and the first group behind such a run prints two colons
and sets it.

The invariant of the loop is `Printed`: the groups so far are groups that are not zero, then a run
of zeros, which is not printed, and then the groups behind it, if the flag is set.

Main results:

- Theorem `printed_step`: what one round does to the text.
- Theorem `insert_denotes`: the text in the brackets denotes the address, and no other address has
  the same text.
-/

namespace Tiger
namespace Address
namespace IPv6

open Lib Lib.ColonHex

/-! ## Printing -/

/-- `addr[i]` for the address as an array of `uint16_t`. -/
def word (host : Endian) (addr : Bytes) (i : Nat) : BitVec 16 :=
  let first := addr[2 * i]?.getD 0
  let second := addr[2 * i + 1]?.getD 0
  match host with
  | .little => second ++ first
  | .big => first ++ second

/-- `bswap_on_little_endian(v)` -/
def bswapOnLittleEndian16 (host : Endian) (v : BitVec 16) : BitVec 16 :=
  match host with
  | .little => v.extractLsb' 0 8 ++ v.extractLsb' 8 8
  | .big => v

/-- The text that is printed so far, and `used_zero`. -/
structure Output where
  text : List Char
  usedZero : Bool
deriving DecidableEq

/-- `os << s` -/
def Output.put (o : Output) (s : List Char) : Output := { o with text := o.text ++ s }

/-- A round of the loop. -/
def insertRound (host : Endian) (addr : Bytes) (o : Output) (i : Nat) : Output :=
  if word host addr i = 0 ∧ ¬o.usedZero then o
  else
    let o := if i ≠ 0 ∧ word host addr (i - 1) = 0 ∧ ¬o.usedZero then
      { o.put [':'] with usedZero := true } else o
    let o := if i ≠ 0 then o.put [':'] else o
    o.put (Nat.toDigits 16 (bswapOnLittleEndian16 host (word host addr i)).toNat)

/-- What `insert` prints between the brackets. -/
def addressText (host : Endian) (addr : Bytes) : List Char :=
  let o := (List.range 8).foldl (insertRound host addr) ⟨[], false⟩
  let o := if ¬o.usedZero ∧ word host addr 7 = 0 then o.put [':', ':'] else o
  o.text

/-- `IPv6Address::insert(os)` -/
def insert (host : Endian) (a : SockaddrIn6) : List Char :=
  ['['] ++ addressText host a.addr ++ [']'] ++
    Nat.toDigits 10 (bswapOnLittleEndian16 host a.port).toNat

/-! ## Groups -/

/-- Group `i` of an address: two bytes, the higher one first. -/
def group (addr : Bytes) (i : Nat) : Nat :=
  256 * (addr[2 * i]?.getD 0).toNat + (addr[2 * i + 1]?.getD 0).toNat

/-- The number of two bytes. -/
theorem toNat_append_bytes (x y : BitVec 8) : (x ++ y).toNat = 256 * x.toNat + y.toNat := by
  have hy : y.toNat < 2 ^ 8 := y.isLt
  rw [BitVec.toNat_append, ← Nat.shiftLeft_add_eq_or_of_lt hy, Nat.shiftLeft_eq]
  omega

/-- What is printed for a group has its value. -/
theorem toNat_bswap_word (host : Endian) (addr : Bytes) (i : Nat) :
    (bswapOnLittleEndian16 host (word host addr i)).toNat = group addr i := by
  cases host with
  | little =>
      rw [bswapOnLittleEndian16, word, group, toNat_append_bytes,
        BitVec.extractLsb'_append_eq_right, BitVec.extractLsb'_append_eq_left]
  | big => exact toNat_append_bytes _ _

/-- A word is zero in the order of the host exactly if its group is. -/
theorem word_eq_zero_iff (host : Endian) (addr : Bytes) (i : Nat) :
    word host addr i = 0 ↔ group addr i = 0 := by
  have hword : word host addr i = 0 ↔ (word host addr i).toNat = 0 :=
    ⟨fun h => by rw [h]; rfl, fun h => BitVec.eq_of_toNat_eq h⟩
  rw [hword]
  cases host with
  | little =>
      rw [word, group, toNat_append_bytes]
      omega
  | big => rw [word, group, toNat_append_bytes]

/-- A group is a number of 16 bits. -/
theorem group_lt (addr : Bytes) (i : Nat) : group addr i < 2 ^ 16 := by
  have hfirst := (addr[2 * i]?.getD 0).isLt
  have hsecond := (addr[2 * i + 1]?.getD 0).isLt
  rw [group]
  omega

/-- The groups of an address. -/
def groups (addr : Bytes) : List Nat := (List.range 8).map (group addr)

/-- Addresses are told apart by their groups. -/
theorem eq_of_groups {x y : Bytes} (h : groups x = groups y) : x = y := by
  have hgroup : ∀ i < 8, group x i = group y i := by
    intro i hi
    exact List.map_inj_left.mp h i (List.mem_range.mpr hi)
  ext1 j hj
  have hj' := hgroup (j / 2) (by omega)
  rw [group, group, Vector.getElem?_eq_getElem (by omega), Vector.getElem?_eq_getElem (by omega),
    Vector.getElem?_eq_getElem (by omega), Vector.getElem?_eq_getElem (by omega)] at hj'
  simp only [Option.getD_some] at hj'
  have hlow : 2 * (j / 2) + 1 < 16 := by omega
  have hx := x[2 * (j / 2) + 1].isLt
  have hy := y[2 * (j / 2) + 1].isLt
  apply BitVec.eq_of_toNat_eq
  rcases Nat.mod_two_eq_zero_or_one j with heven | hodd
  · have hidx : 2 * (j / 2) = j := by omega
    simp only [hidx] at hj' hx hy ⊢
    omega
  · have hidx : 2 * (j / 2) + 1 = j := by omega
    simp only [hidx] at hj' hx hy ⊢
    omega

/-! ## The loop -/

/-- The digits of groups with colons between them. -/
def printedGroups (vs : List Nat) : List Char := joined (vs.map (Nat.toDigits 16))

@[simp]
theorem printedGroups_nil : printedGroups [] = [] := rfl

@[simp]
theorem printedGroups_singleton (v : Nat) : printedGroups [v] = Nat.toDigits 16 v :=
  joined_singleton _

/-- What is printed for the groups so far: either they end in a run of zeros that is passed over,
or such a run has been left out. -/
inductive Printed : List Nat → Output → Prop
  | running (left : List Nat) (zeros : Nat) (hleft : ∀ v ∈ left, v ≠ 0) :
      Printed (left ++ List.replicate zeros 0) ⟨printedGroups left, false⟩
  | leftOut {left : List Nat} (right : List Nat) (zeros : Nat) (hleft : ∀ v ∈ left, v ≠ 0)
      (hright : right ≠ []) :
      Printed (left ++ List.replicate (zeros + 1) 0 ++ right)
        ⟨printedGroups left ++ [':', ':'] ++ printedGroups right, true⟩

/-- A last group is printed behind a colon. -/
theorem printedGroups_snoc {vs : List Nat} (hne : vs ≠ []) (v : Nat) :
    printedGroups (vs ++ [v]) = printedGroups vs ++ [':'] ++ Nat.toDigits 16 v := by
  rw [printedGroups, List.map_append, joined_append (by simpa using hne) (by simp),
    List.map_singleton, joined_singleton, ← printedGroups, List.append_assoc]
  rfl

/-- The last of the first groups is the group in front of their number. -/
theorem last_group {addr : Bytes} {i v : Nat} {vs : List Nat}
    (h : (List.range i).map (group addr) = vs ++ [v]) : i ≠ 0 ∧ group addr (i - 1) = v := by
  cases i with
  | zero => exact absurd h.symm (by simp)
  | succ i =>
      rw [List.range_succ, List.map_append, List.map_singleton] at h
      exact ⟨Nat.succ_ne_zero i, (List.cons.inj (List.append_inj' h rfl).2).1⟩

/-- One round of the loop. -/
theorem printed_step (host : Endian) (addr : Bytes) {i : Nat} {vs : List Nat} {o : Output}
    (hvs : (List.range i).map (group addr) = vs) (h : Printed vs o) :
    Printed (vs ++ [group addr i]) (insertRound host addr o i) := by
  have hzero : ∀ j, word host addr j = 0 ↔ group addr j = 0 := word_eq_zero_iff host addr
  cases h with
  | @running left zeros hleft =>
      rw [insertRound]
      simp only [hzero, toNat_bswap_word, Bool.false_eq_true, not_false_eq_true, and_true]
      by_cases hcur : group addr i = 0
      · -- the run goes on
        rw [if_pos hcur, hcur, List.append_assoc, ← List.replicate_succ']
        exact .running left (zeros + 1) hleft
      · rw [if_neg hcur]
        cases zeros with
        | zero =>
            rw [List.replicate_zero, List.append_nil] at hvs ⊢
            have hleft' : ∀ v ∈ left ++ [group addr i], v ≠ 0 := by
              intro v hv
              rcases List.mem_append.mp hv with hv | hv
              · exact hleft v hv
              · rwa [List.mem_singleton.mp hv]
            have hdone := Printed.running _ 0 hleft'
            rw [List.replicate_zero, List.append_nil] at hdone
            rcases List.eq_nil_or_concat left with rfl | ⟨init, last, rfl⟩
            · have hi : i = 0 := by
                simpa using hvs
              subst hi
              simpa [Output.put] using hdone
            · rw [List.concat_eq_append] at hvs hleft hdone ⊢
              obtain ⟨hi, hlast⟩ := last_group hvs
              have hne : group addr (i - 1) ≠ 0 := by
                rw [hlast]
                exact hleft last (List.mem_append_right _ List.mem_cons_self)
              rw [if_pos hi, if_neg (fun hc => hne hc.2)]
              simp only [Output.put]
              rw [← printedGroups_snoc (by simp)]
              exact hdone
        | succ zeros =>
            rw [List.replicate_succ', ← List.append_assoc] at hvs
            obtain ⟨hi, hlast⟩ := last_group hvs
            rw [if_pos hi, if_pos ⟨hi, hlast⟩]
            have hdone := Printed.leftOut [group addr i] zeros hleft (by simp)
            rw [printedGroups_singleton] at hdone
            simpa [Output.put, List.append_assoc] using hdone
  | @leftOut left right zeros hleft hright =>
      have hi : i ≠ 0 := by
        rintro rfl
        simp at hvs
      have hdone := Printed.leftOut (right ++ [group addr i]) zeros hleft (by simp)
      rw [printedGroups_snoc hright] at hdone
      rw [insertRound]
      simp only [toNat_bswap_word, Output.put, not_true_eq_false, and_false, if_false, if_pos hi]
      rw [List.append_assoc _ right]
      simpa [List.append_assoc] using hdone

/-- The loop up to group `n`. -/
theorem printed_loop (host : Endian) (addr : Bytes) (n : Nat) :
    Printed ((List.range n).map (group addr))
      ((List.range n).foldl (insertRound host addr) ⟨[], false⟩) := by
  induction n with
  | zero => exact Printed.running [] 0 (by simp)
  | succ n ih =>
      rw [List.range_succ, List.map_append, List.map_singleton, List.foldl_append, List.foldl_cons,
        List.foldl_nil]
      exact printed_step host addr rfl ih

/-! ## What the text denotes -/

/-- Printed groups are groups. -/
theorem isGroup_printed {vs : List Nat} (hvs : ∀ v ∈ vs, v < 2 ^ 16) :
    ∀ f ∈ vs.map (Nat.toDigits 16), IsGroup f := by
  intro f hf
  obtain ⟨v, hv, rfl⟩ := List.mem_map.mp hf
  exact isGroup_toDigits (hvs v hv)

/-- Printed groups have the values of the groups. -/
theorem groupValue_printed (vs : List Nat) : (vs.map (Nat.toDigits 16)).map groupValue = vs := by
  rw [List.map_map]
  conv_rhs => rw [← List.map_id vs]
  exact List.map_congr_left fun v _ => groupValue_toDigits v

/-- Groups with a run of zeros that is left out. -/
theorem denotes_leftOut {left : List Nat} (right : List Nat) (zeros : Nat)
    (hleft : ∀ v ∈ left, v < 2 ^ 16) (hright : ∀ v ∈ right, v < 2 ^ 16)
    (hlength : left.length + (zeros + 1) + right.length = 8) :
    Denotes (printedGroups left ++ [':', ':'] ++ printedGroups right)
      (left ++ List.replicate (zeros + 1) 0 ++ right) := by
  have h := Denotes.compressed (isGroup_printed hleft) (isGroup_printed hright)
    (by rw [List.length_map, List.length_map]; omega)
  rw [groupValue_printed, groupValue_printed, List.length_map, List.length_map,
    show 8 - (left.length + right.length) = zeros + 1 by omega] at h
  exact h

/-- The text of an address denotes its groups. -/
theorem addressText_denotes (host : Endian) (addr : Bytes) :
    Denotes (addressText host addr) (groups addr) := by
  have hloop := printed_loop host addr 8
  have hlt : ∀ v ∈ groups addr, v < 2 ^ 16 := by
    intro v hv
    obtain ⟨i, -, rfl⟩ := List.mem_map.mp hv
    exact group_lt addr i
  have hlength : (groups addr).length = 8 := by simp [groups]
  have hlast : ∀ (vs : List Nat) (v : Nat), groups addr = vs ++ [v] → group addr 7 = v :=
    fun vs v h => (last_group h).2
  rw [← groups] at hloop
  rw [addressText]
  generalize (List.range 8).foldl (insertRound host addr) ⟨[], false⟩ = o at hloop
  generalize groups addr = vs at hloop hlt hlength hlast
  simp only [word_eq_zero_iff]
  cases hloop with
  | @running left zeros hleft =>
      have hleftlt : ∀ v ∈ left, v < 2 ^ 16 := fun v hv => hlt v (List.mem_append_left _ hv)
      cases zeros with
      | zero =>
          rw [List.replicate_zero, List.append_nil] at hlength hlast ⊢
          rcases List.eq_nil_or_concat left with rfl | ⟨init, last, rfl⟩
          · cases hlength
          · rw [List.concat_eq_append] at *
            have hne : group addr 7 ≠ 0 := by
              rw [hlast init last rfl]
              exact hleft last (List.mem_append_right _ List.mem_cons_self)
            rw [if_neg (fun hc => hne hc.2)]
            have hfull := Denotes.full (isGroup_printed hleftlt)
              (by rw [List.length_map]; exact hlength)
            rw [groupValue_printed] at hfull
            exact hfull
      | succ zeros =>
          have hzero : group addr 7 = 0 := by
            apply hlast (left ++ List.replicate zeros 0)
            rw [List.replicate_succ', List.append_assoc]
          rw [if_pos ⟨by simp, hzero⟩, Output.put]
          have hout := denotes_leftOut [] zeros hleftlt (by simp)
            (by simpa using hlength)
          simpa using hout
  | @leftOut left right zeros hleft hright =>
      rw [if_neg (by simp)]
      apply denotes_leftOut
      · exact fun v hv => hlt v (List.mem_append_left _ (List.mem_append_left _ hv))
      · exact fun v hv => hlt v (List.mem_append_right _ hv)
      · simpa [Nat.add_assoc] using hlength

/-- The text in the brackets denotes the eight groups of the address, with zeros left out at one
place at most, and no other address has the same text. -/
theorem insert_denotes (host : Endian) (a : SockaddrIn6) :
    insert host a = ['['] ++ addressText host a.addr ++ [']'] ++
      Nat.toDigits 10 (bswapOnLittleEndian16 host a.port).toNat ∧
    Denotes (addressText host a.addr) (groups a.addr) ∧
    compressions (addressText host a.addr) ≤ 1 ∧
    ∀ b : Bytes, addressText host b = addressText host a.addr → b = a.addr := by
  have hdenotes := addressText_denotes host a.addr
  refine ⟨rfl, hdenotes, hdenotes.compressions_le_one, ?_⟩
  intro b hb
  have hb' := addressText_denotes host b
  rw [hb] at hb'
  exact eq_of_groups (hb'.unique hdenotes)

example : addressText .little #v[0x20, 0x01, 0x0d, 0xb8, 0, 0, 0, 0, 0, 1, 0, 0, 0, 0, 0, 0] =
    "2001:db8::1:0:0:0".toList := by
  decide

end IPv6
end Address
end Tiger
