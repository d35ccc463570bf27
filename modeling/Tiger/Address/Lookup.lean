import Mathlib.Data.List.TakeWhile
import Tiger.Address.IPv6Text
import Tiger.Lib.Ragel

/-!
# Address - splitting a node from its service

This module embeds the part of `Address::Lookup` (`src/address.cc`) that takes a host text apart
and passes its parts to `getaddrinfo`, as C strings.

Three attempts share the variables `node` and `service`: brackets around the node, one colon
behind the node, and the whole text.  The second attempt stores the place of the first colon
before it looks for another one, and leaves it in `service` if there is one.  `insert` prints no
colon between the bracket and the port.

Main results:

- Theorem `request_bare`: an address without brackets is passed on with a service.
- Theorem `splits_iff`: the texts that are split as they were put together.
-/

namespace Tiger
namespace Address

open Lib
open Lib.Ragel (byte)

/-! ## Strings -/

/-- The C string at an offset of `c_str()`. -/
def cString (s : List UInt8) (offset : Nat) : List UInt8 := (s.drop offset).takeWhile (· ≠ 0)

/-- `c_str()[i]`; behind the last byte there is a NUL. -/
def charAt (s : List UInt8) (i : Nat) : UInt8 := s[i]?.getD 0

/-- `memchr(c_str() + offset, c, n)`, as an offset. -/
def memchr (s : List UInt8) (offset : Nat) (c : UInt8) (n : Nat) : Option Nat :=
  (((s.drop offset).take n).findIdx? (· == c)).map (offset + ·)

/-- `substr(pos, len)` -/
def substr (s : List UInt8) (pos len : Nat) : List UInt8 := (s.drop pos).take len

/-! ## Attempts -/

/-- `node` and `service`; the latter is a pointer into the host text, or null. -/
abbrev Parts := List UInt8 × Option Nat

/-- The first attempt: `[node]` and `[node]:service`. -/
def splitBrackets (host : List UInt8) : Parts :=
  if host ≠ [] ∧ charAt host 0 = byte '[' then
    match memchr host 1 (byte ']') (host.length - 1) with
    | some endipv6 =>
        (substr host 1 (endipv6 - 1),
          if endipv6 < host.length ∧ charAt host (endipv6 + 1) = byte ':' then some (endipv6 + 2)
          else none)
    | none => ([], none)
  else ([], none)

/-- The second attempt: `node:service`. -/
def splitColon (host : List UInt8) (parts : Parts) : Parts :=
  if parts.1 = [] then
    match memchr host 0 (byte ':') host.length with
    | some service =>
        if memchr host (service + 1) (byte ':') (host.length - service - 1) = none then
          (substr host 0 service, some (service + 1))
        else (parts.1, some service)
    | none => (parts.1, none)
  else parts

/-- The third attempt: the whole text. -/
def splitWhole (host : List UInt8) (parts : Parts) : Parts :=
  if parts.1 = [] then (host, parts.2) else parts

/-- What `Address::Lookup` passes to `getaddrinfo`: `node.c_str()` and `service`. -/
def request (host : List UInt8) : List UInt8 × Option (List UInt8) :=
  let parts := splitWhole host (splitColon host (splitBrackets host))
  (cString parts.1 0, parts.2.map (cString host))

/-! ## Host texts -/

/-- A name without colons and brackets. -/
structure HostName where
  text : List UInt8
  not_colon : byte ':' ∉ text
  not_open : byte '[' ∉ text
  not_close : byte ']' ∉ text

/-- A text with two colons and more, and without brackets. -/
structure Literal where
  text : List UInt8
  two_colons : 2 ≤ text.count (byte ':')
  not_open : byte '[' ∉ text
  not_close : byte ']' ∉ text

/-- What a host text is put together from. -/
inductive Source
  | name (h : HostName)
  | nameService (h : HostName) (s : List UInt8)
  | literal (v : Literal)
  | literalService (v : Literal) (s : List UInt8)
  | bare (v : Literal)
  | printed (order : Endian) (a : IPv6.SockaddrIn6)

namespace Source

/-- The host text. -/
def text : Source → List UInt8
  | name h => h.text
  | nameService h s => h.text ++ byte ':' :: s
  | literal v => byte '[' :: (v.text ++ [byte ']'])
  | literalService v s => byte '[' :: (v.text ++ byte ']' :: byte ':' :: s)
  | bare v => v.text
  | printed order a => (IPv6.insert order a).map byte

/-- The node and the service that it is put together from. -/
def parts : Source → List UInt8 × Option (List UInt8)
  | name h => (h.text, none)
  | nameService h s => (h.text, some s)
  | literal v => (v.text, none)
  | literalService v s => (v.text, some s)
  | bare v => (v.text, none)
  | printed order a => ((IPv6.addressText order a.addr).map byte,
      some ((Nat.toDigits 10 (IPv6.bswapOnLittleEndian16 order a.port).toNat).map byte))

/-- The condition for the text to be taken apart as it was put together. -/
def Splits : Source → Prop
  | name h => 0 ∉ h.text
  | nameService h s => h.text ≠ [] ∧ 0 ∉ h.text ∧ 0 ∉ s ∧ byte ':' ∉ s
  | literal v => 0 ∉ v.text
  | literalService v s => 0 ∉ v.text ∧ 0 ∉ s
  | bare _ => False
  | printed _ _ => False

end Source

/-! ## Searching -/

variable {c : UInt8} {front back : List UInt8}

/-- A byte is found behind a front without it. -/
theorem findIdx?_split (h : c ∉ front) :
    (front ++ c :: back).findIdx? (· == c) = some front.length := by
  induction front with
  | nil => simp [List.findIdx?_cons]
  | cons d front ih =>
      rw [List.mem_cons, not_or] at h
      have hd : (d == c) = false := by simpa using Ne.symm h.1
      rw [List.cons_append, List.findIdx?_cons, hd, ih h.2]
      rfl

/-- A byte is not found in a text without it. -/
theorem findIdx?_of_not_mem (h : c ∉ front) : front.findIdx? (· == c) = none := by
  rw [List.findIdx?_eq_none_iff]
  intro d hd
  have hne : d ≠ c := fun heq => h (heq ▸ hd)
  simpa using hne

/-- A search over the whole text. -/
theorem memchr_split (h : c ∉ front) {n : Nat} (hn : (front ++ c :: back).length ≤ n) :
    memchr (front ++ c :: back) 0 c n = some front.length := by
  rw [memchr, List.drop_zero, List.take_of_length_le hn, findIdx?_split h]
  simp

/-- A search that finds nothing up to the end of the text. -/
theorem memchr_none {s : List UInt8} {offset n : Nat} (h : c ∉ s.drop offset)
    (hn : s.length - offset ≤ n) : memchr s offset c n = none := by
  rw [memchr, List.take_of_length_le (by rw [List.length_drop]; exact hn), findIdx?_of_not_mem h]
  rfl

/-- A text is a C string as a whole exactly if it has no NUL. -/
theorem cString_zero_eq_iff {s : List UInt8} : cString s 0 = s ↔ 0 ∉ s := by
  rw [cString, List.drop_zero, List.takeWhile_eq_self_iff]
  constructor
  · intro h hmem
    exact absurd (h 0 hmem) (by decide)
  · intro h b hb
    have hne : b ≠ 0 := fun heq => h (heq ▸ hb)
    simpa using hne

/-- The C string behind a part of the text. -/
theorem cString_behind (front back : List UInt8) {n : Nat} (hn : n = front.length) :
    cString (front ++ back) n = cString back 0 := by
  rw [cString, hn, List.drop_left, cString, List.drop_zero]

/-! ## The attempts -/

theorem splitBrackets_plain {host : List UInt8} (h : charAt host 0 ≠ byte '[') :
    splitBrackets host = ([], none) := by
  rw [splitBrackets, if_neg (fun hc => h hc.2)]

/-- A host without a bracket does not start with one. -/
theorem charAt_zero_ne {host : List UInt8} (h : byte '[' ∉ host) : charAt host 0 ≠ byte '[' := by
  cases host with
  | nil => decide
  | cons d ds =>
      intro hopen
      rw [charAt, List.getElem?_cons_zero, Option.getD_some] at hopen
      exact h (hopen ▸ List.mem_cons_self)

/-- A node in brackets, and what is behind them. -/
theorem splitBrackets_brackets {v : List UInt8} (h : byte ']' ∉ v) (rest : List UInt8) :
    splitBrackets (byte '[' :: (v ++ byte ']' :: rest)) =
      (v, if charAt rest 0 = byte ':' then some (v.length + 3) else none) := by
  have hsearch : memchr (byte '[' :: (v ++ byte ']' :: rest)) 1 (byte ']')
      ((byte '[' :: (v ++ byte ']' :: rest)).length - 1) = some (1 + v.length) := by
    rw [memchr, List.drop_one, List.tail_cons, List.length_cons, Nat.add_sub_cancel,
      List.take_length, findIdx?_split h]
    rfl
  have hbehind : charAt (byte '[' :: (v ++ byte ']' :: rest)) (1 + v.length + 1) =
      charAt rest 0 := by
    rw [charAt, charAt, show 1 + v.length + 1 = v.length + 1 + 1 by omega, List.getElem?_cons_succ,
      List.getElem?_append_right (by omega), Nat.add_sub_cancel_left, List.getElem?_cons_succ]
  have hnode : substr (byte '[' :: (v ++ byte ']' :: rest)) 1 (1 + v.length - 1) = v := by
    rw [substr, List.drop_one, List.tail_cons, Nat.add_sub_cancel_left, List.take_left]
  have hlt : 1 + v.length < (byte '[' :: (v ++ byte ']' :: rest)).length := by
    simp only [List.length_cons, List.length_append]
    omega
  rw [splitBrackets, if_pos ⟨by simp, rfl⟩, hsearch]
  simp only [hnode, hbehind, hlt, true_and]
  rw [show 1 + v.length + 2 = v.length + 3 by omega]

theorem splitColon_none {host : List UInt8} (h : byte ':' ∉ host) :
    splitColon host ([], none) = ([], none) := by
  rw [splitColon, if_pos rfl, memchr_none (by rwa [List.drop_zero]) (by omega)]

/-- The text behind the first colon has no other one, or the place of the first one stays in
`service`. -/
theorem splitColon_colon (h : byte ':' ∉ front) :
    splitColon (front ++ byte ':' :: back) ([], none) =
      if byte ':' ∈ back then ([], some front.length) else (front, some (front.length + 1)) := by
  have hbehind : (front ++ byte ':' :: back).drop (front.length + 1) = back := by
    rw [← List.drop_drop, List.drop_left, List.drop_one, List.tail_cons]
  have hlength : (front ++ byte ':' :: back).length - front.length - 1 = back.length := by
    rw [List.length_append, List.length_cons]
    omega
  rw [splitColon, if_pos rfl, memchr_split h le_rfl]
  simp only [hlength]
  by_cases hback : byte ':' ∈ back
  · rw [if_pos hback, if_neg]
    obtain ⟨first, last, rfl, hfirst⟩ := List.eq_append_cons_of_mem hback
    rw [memchr, hbehind, List.take_length, findIdx?_split hfirst]
    simp
  · rw [if_neg hback, if_pos, substr, List.drop_zero, List.take_left]
    rw [memchr, hbehind, List.take_length, findIdx?_of_not_mem hback]
    rfl

/-- With a node, the other attempts do nothing. -/
theorem request_of_node {host node : List UInt8} {service : Option Nat}
    (h : splitBrackets host = (node, service)) (hne : node ≠ []) :
    request host = (cString node 0, service.map (cString host)) := by
  rw [request, h, splitColon, if_neg hne, splitWhole, if_neg hne]

/-! ## Requests -/

/-- A name is looked up without a service. -/
theorem request_name (h : HostName) : request h.text = (cString h.text 0, none) := by
  rw [request, splitBrackets_plain (charAt_zero_ne h.not_open), splitColon_none h.not_colon,
    splitWhole]
  rfl

/-- A name with a service does not start with a bracket. -/
theorem charAt_nameService (h : HostName) (s : List UInt8) :
    charAt (h.text ++ byte ':' :: s) 0 ≠ byte '[' := by
  have hne := charAt_zero_ne h.not_open
  cases htext : h.text with
  | nil =>
      change byte ':' ≠ byte '['
      decide
  | cons d ds =>
      rw [htext] at hne
      exact hne

/-- A name with a service behind it. -/
theorem request_nameService {h : HostName} {s : List UInt8} (hne : h.text ≠ [])
    (hs : byte ':' ∉ s) :
    request (h.text ++ byte ':' :: s) = (cString h.text 0, some (cString s 0)) := by
  have hservice : cString (h.text ++ byte ':' :: s) (h.text.length + 1) = cString s 0 := by
    rw [← List.singleton_append, ← List.append_assoc]
    exact cString_behind _ _ (by simp)
  rw [request, splitBrackets_plain (charAt_nameService h s), splitColon_colon h.not_colon,
    if_neg hs, splitWhole, if_neg hne, Option.map_some, hservice]

/-- Without a name, or with a colon in the service, the whole text is the node. -/
theorem request_nameService_whole {h : HostName} {s : List UInt8}
    (hwhole : h.text = [] ∨ byte ':' ∈ s) :
    (request (h.text ++ byte ':' :: s)).1 = cString (h.text ++ byte ':' :: s) 0 := by
  rw [request, splitBrackets_plain (charAt_nameService h s), splitColon_colon h.not_colon]
  by_cases hs : byte ':' ∈ s
  · rw [if_pos hs, splitWhole, if_pos rfl]
  · rw [if_neg hs, splitWhole, if_pos (hwhole.resolve_right hs)]

/-- A literal is not empty. -/
theorem Literal.ne_nil (v : Literal) : v.text ≠ [] := by
  intro hnil
  have htwo := v.two_colons
  rw [hnil] at htwo
  exact absurd htwo (by decide)

/-- A literal in brackets is looked up without a service. -/
theorem request_literal (v : Literal) :
    request (byte '[' :: (v.text ++ [byte ']'])) = (cString v.text 0, none) := by
  have hsplit := splitBrackets_brackets v.not_close []
  rw [if_neg (by decide)] at hsplit
  exact request_of_node hsplit v.ne_nil

/-- A literal in brackets is looked up with the service behind the colon. -/
theorem request_literalService (v : Literal) (s : List UInt8) :
    request (byte '[' :: (v.text ++ byte ']' :: byte ':' :: s)) =
      (cString v.text 0, some (cString s 0)) := by
  have hsplit := splitBrackets_brackets v.not_close (byte ':' :: s)
  rw [if_pos (by rfl)] at hsplit
  have hservice : cString (byte '[' :: (v.text ++ byte ']' :: byte ':' :: s)) (v.text.length + 3) =
      cString s 0 := by
    have hbehind := cString_behind (byte '[' :: (v.text ++ [byte ']', byte ':'])) s
      (n := v.text.length + 3) (by simp)
    simpa using hbehind
  rw [request_of_node hsplit v.ne_nil, Option.map_some, hservice]

/-- An address without brackets is passed on with the text from its first colon on as a
service. -/
theorem request_bare (v : Literal) :
    ∃ service, (request v.text).2 = some (byte ':' :: service) := by
  have htwo := v.two_colons
  have hmem : byte ':' ∈ v.text := List.count_pos_iff.mp (by omega)
  obtain ⟨front, back, htext, hfront⟩ := List.eq_append_cons_of_mem hmem
  have hback : byte ':' ∈ back := by
    rw [htext, List.count_append, List.count_eq_zero_of_not_mem hfront,
      List.count_cons_self] at htwo
    exact List.count_pos_iff.mp (by omega)
  have hopen := charAt_zero_ne v.not_open
  rw [htext] at hopen ⊢
  rw [request, splitBrackets_plain hopen, splitColon_colon hfront, if_pos hback, splitWhole,
    if_pos rfl, Option.map_some, cString_behind front _ rfl]
  exact ⟨back.takeWhile (· ≠ 0), rfl⟩

/-- Different characters have different bytes. -/
theorem byte_ne {c d : Char} (hc : c.toNat < 256) (hd : d.toNat < 256) (hne : c ≠ d) :
    byte c ≠ byte d := by
  intro heq
  apply hne
  have hnat := congrArg UInt8.toNat heq
  rw [byte, byte, UInt8.toNat_ofNat_of_lt' hc, UInt8.toNat_ofNat_of_lt' hd] at hnat
  exact Char.toNat_inj.mp hnat

/-- A hexadecimal digit is a character up to `f`. -/
theorem toNat_of_hexValue {c : Char} (h : (ColonHex.hexValue c).isSome) : c.toNat ≤ 102 := by
  have hle : ∀ {x y : Char}, x ≤ y → x.toNat ≤ y.toNat := fun h => h
  rw [ColonHex.hexValue] at h
  split at h
  next hc => exact (hle hc.2).trans (by decide)
  next =>
    split at h
    next hc => exact hle hc.2
    next =>
      split at h
      next hc => exact (hle hc.2).trans (by decide)
      next => cases h

/-- The printed address has no bracket. -/
theorem addressText_not_close (order : Endian) (addr : IPv6.Bytes) :
    byte ']' ∉ (IPv6.addressText order addr).map byte := by
  intro hmem
  obtain ⟨c, hc, hbyte⟩ := List.mem_map.mp hmem
  rcases (IPv6.addressText_denotes order addr).mem hc with rfl | hsome
  · exact absurd hbyte (by decide)
  · refine byte_ne ((toNat_of_hexValue hsome).trans_lt (by decide)) (by decide) ?_ hbyte
    rintro rfl
    exact absurd hsome (by decide)

/-- A printed address is passed on without its port. -/
theorem request_printed (order : Endian) (a : IPv6.SockaddrIn6) :
    (request ((IPv6.insert order a).map byte)).2 = none := by
  have htext : (IPv6.insert order a).map byte = byte '[' ::
      ((IPv6.addressText order a.addr).map byte ++ byte ']' ::
        (Nat.toDigits 10 (IPv6.bswapOnLittleEndian16 order a.port).toNat).map byte) := by
    simp [IPv6.insert]
  have hdigits : ∀ n, charAt ((Nat.toDigits 10 n).map byte) 0 ≠ byte ':' := by
    intro n
    obtain ⟨d, ds, hcons⟩ := List.exists_cons_of_ne_nil (Nat.toDigits_ne_nil (n := n) (b := 10))
    have hdigit : d.isDigit = true :=
      Nat.isDigit_of_mem_toDigits (by decide) (by decide) (hcons ▸ List.mem_cons_self)
    have hrange : 48 ≤ d.toNat ∧ d.toNat ≤ 57 := by
      rw [Char.isDigit, Bool.and_eq_true, decide_eq_true_eq, decide_eq_true_eq] at hdigit
      exact hdigit
    rw [hcons]
    refine byte_ne (by omega) (by decide) ?_
    rintro rfl
    exact absurd hrange.2 (by decide)
  have hsplit := splitBrackets_brackets (addressText_not_close order a.addr)
    ((Nat.toDigits 10 (IPv6.bswapOnLittleEndian16 order a.port).toNat).map byte)
  rw [if_neg (hdigits _), ← htext] at hsplit
  rw [request_of_node hsplit]
  · rfl
  · simpa using (IPv6.addressText_denotes order a.addr).ne_nil

/-! ## Which texts are split -/

/-- A text that goes on behind a node is not the node. -/
theorem cString_append_ne (h : List UInt8) {c : UInt8} (hc : c ≠ 0) (s : List UInt8) :
    cString (h ++ c :: s) 0 ≠ h := by
  intro heq
  have hmem : ∀ b ∈ h, decide (b ≠ 0) = true := by
    intro b hb
    rw [← heq, cString] at hb
    have hne := List.mem_takeWhile_imp hb
    exact hne
  rw [cString, List.drop_zero, List.takeWhile_append_of_pos hmem, List.takeWhile_cons,
    if_pos (by simpa using hc)] at heq
  have hlength := congrArg List.length heq
  rw [List.length_append, List.length_cons] at hlength
  omega

/-- A name by itself, a name with a service and no other colon, and an address in brackets with a
service or without one are split as they were put together; a service without a name, an address
without brackets and a printed address are not. -/
theorem splits_iff (source : Source) : request source.text = source.parts ↔ source.Splits := by
  cases source with
  | name h =>
      rw [Source.text, Source.parts, Source.Splits, request_name, Prod.mk.injEq,
        cString_zero_eq_iff]
      exact and_iff_left rfl
  | nameService h s =>
      rw [Source.text, Source.parts, Source.Splits]
      by_cases hwhole : h.text = [] ∨ byte ':' ∈ s
      · refine iff_of_false ?_ ?_
        · intro heq
          have hnode := congrArg Prod.fst heq
          rw [request_nameService_whole hwhole] at hnode
          exact cString_append_ne h.text (by decide) s hnode
        · rintro ⟨hne, -, -, hs⟩
          exact hwhole.elim hne hs
      · rw [not_or] at hwhole
        rw [request_nameService hwhole.1 hwhole.2, Prod.mk.injEq, cString_zero_eq_iff,
          Option.some.injEq, cString_zero_eq_iff]
        constructor
        · rintro ⟨hh, hs⟩
          exact ⟨hwhole.1, hh, hs, hwhole.2⟩
        · rintro ⟨-, hh, hs, -⟩
          exact ⟨hh, hs⟩
  | literal v =>
      rw [Source.text, Source.parts, Source.Splits, request_literal, Prod.mk.injEq,
        cString_zero_eq_iff]
      exact and_iff_left rfl
  | literalService v s =>
      rw [Source.text, Source.parts, Source.Splits, request_literalService, Prod.mk.injEq,
        cString_zero_eq_iff, Option.some.injEq, cString_zero_eq_iff]
  | bare v =>
      refine iff_of_false ?_ id
      intro heq
      obtain ⟨service, hservice⟩ := request_bare v
      rw [Source.text] at heq
      rw [heq] at hservice
      cases hservice
  | printed order a =>
      refine iff_of_false ?_ id
      intro heq
      have hservice := request_printed order a
      rw [Source.text] at heq
      rw [heq] at hservice
      cases hservice

/-- `::1` -/
def loopback : Literal := ⟨"::1".toList.map byte, by decide, by decide, by decide⟩

/-- `::1` is passed on with the service `::1`, and the printed form of this address with port 80
without a service. -/
theorem not_splits :
    let a : IPv6.SockaddrIn6 := ⟨IPv6.afInet6, 0x5000, (Vector.replicate 16 0).set 15 1⟩
    (request (Source.bare loopback).text ≠ (Source.bare loopback).parts ∧
      request (Source.bare loopback).text =
        ("::1".toList.map byte, some ("::1".toList.map byte))) ∧
    (Source.printed .little a).text = "[::1]80".toList.map byte ∧
    request (Source.printed .little a).text ≠ (Source.printed .little a).parts ∧
    request (Source.printed .little a).text = ("::1".toList.map byte, none) := by
  decide

end Address
end Tiger
