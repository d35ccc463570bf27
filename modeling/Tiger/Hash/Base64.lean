import Mathlib.Tactic

/-!
# Base64

`Base64Encode` and `Base64Decode` (`src/hash.cc`) work on groups of three bytes and of four
characters that are packed into one integer.

Main results:

- Theorem `base64DecodeLoop_encode`: decoding inverts encoding.
- Theorem `base64Encode_injective`: different byte strings have different encodings.
- Theorem `base64Encode_length`: the length of an encoding.
-/

namespace Tiger
namespace Hash

/-! ## Encoding -/

/-- The table `base64` of `Base64Encode`. -/
def base64Table : List UInt8 :=
  ['A', 'B', 'C', 'D', 'E', 'F', 'G', 'H', 'I', 'J', 'K', 'L', 'M', 'N', 'O', 'P', 'Q', 'R', 'S',
    'T', 'U', 'V', 'W', 'X', 'Y', 'Z', 'a', 'b', 'c', 'd', 'e', 'f', 'g', 'h', 'i', 'j', 'k', 'l',
    'm', 'n', 'o', 'p', 'q', 'r', 's', 't', 'u', 'v', 'w', 'x', 'y', 'z', '0', '1', '2', '3', '4',
    '5', '6', '7', '8', '9', '+', '/'].map fun c => c.toNat.toUInt8

/-- `base64[v]`, with the NUL at the end of the table. -/
def base64Char (v : Nat) : UInt8 := base64Table.getD v 0

/-- The character `'='`. -/
def base64Pad : UInt8 := 61

/-- `packed` for the bytes of a group, behind both inner loops. -/
def packBytes (group : List UInt8) : Nat :=
  (group.foldl (fun packed b => (packed <<< 8) ||| b.toNat) 0) <<< (8 * (3 - group.length))

/-- The characters of a group of one to three bytes. -/
def encodeGroup (group : List UInt8) : List UInt8 :=
  let packed := packBytes group
  let padding := 3 - group.length
  [base64Char (packed >>> 18), base64Char ((packed >>> 12) &&& 0x3f)] ++
    (if padding ≠ 2 then [base64Char ((packed >>> 6) &&& 0x3f)] else []) ++
    (if padding = 0 then [base64Char (packed &&& 0x3f)] else []) ++
    List.replicate padding base64Pad

/-- `Base64Encode`, both overloads. -/
def base64Encode : List UInt8 → List UInt8
  | [] => []
  | [a] => encodeGroup [a]
  | [a, b] => encodeGroup [a, b]
  | a :: b :: c :: rest => encodeGroup [a, b, c] ++ base64Encode rest

/-! ## Decoding -/

/-- The value of a character, `none` for an invalid one. -/
def base64Value (c : UInt8) : Option Nat :=
  let n := c.toNat
  if 65 ≤ n ∧ n ≤ 90 then some (n - 65)
  else if 97 ≤ n ∧ n ≤ 122 then some (n - 97 + 26)
  else if 48 ≤ n ∧ n ≤ 57 then some (n - 48 + 52)
  else if n = 43 then some 62
  else if n = 47 then some 63
  else none

/-- A round of the inner loop of `Base64Decode` on `padding` and `packed`; `none` is
`return ""`. -/
def decodeChar (s : Nat × Nat) (c : UInt8) : Option (Nat × Nat) :=
  if c = base64Pad then some (s.1 + 1, s.2 <<< 6)
  else if s.1 > 0 then none
  else (base64Value c).map fun v => (s.1, (s.2 <<< 6) ||| v)

/-- The bytes of a group. -/
def unpackBytes (padding packed : Nat) : List UInt8 :=
  [((packed >>> 16) &&& 0xff).toUInt8] ++
    (if padding ≠ 2 then [((packed >>> 8) &&& 0xff).toUInt8] else []) ++
    (if padding = 0 then [(packed &&& 0xff).toUInt8] else [])

/-- The outer loop of `Base64Decode`; `none` is `return ""`.  A group of fewer than four
characters is refused behind the inner loop if not in it. -/
def base64DecodeLoop : List UInt8 → Option (List UInt8)
  | [] => some []
  | c₀ :: c₁ :: c₂ :: c₃ :: rest =>
      ([c₀, c₁, c₂, c₃].foldlM decodeChar (0, 0)).bind fun s =>
        if s.1 > 0 ∧ rest ≠ [] then none
        else if s.1 > 2 then none
        else (base64DecodeLoop rest).map fun bytes => unpackBytes s.1 s.2 ++ bytes
  | _ => none

/-- `Base64Decode`. -/
def base64Decode (src : List UInt8) : List UInt8 := (base64DecodeLoop src).getD []

/-! ## Characters -/

theorem base64Value_char {v : Nat} (hv : v < 64) : base64Value (base64Char v) = some v := by
  have h : ∀ w : Fin 64, base64Value (base64Char w) = some w.val := by decide
  exact h ⟨v, hv⟩

theorem base64Char_ne_pad {v : Nat} (hv : v < 64) : base64Char v ≠ base64Pad := by
  have h : ∀ w : Fin 64, base64Char w ≠ base64Pad := by decide
  exact h ⟨v, hv⟩

/-- A character of the table adds six bits. -/
theorem decodeChar_char {v packed : Nat} (hv : v < 64) :
    decodeChar (0, packed) (base64Char v) = some (0, packed * 64 + v) := by
  rw [decodeChar, if_neg (base64Char_ne_pad hv), if_neg (by simp), base64Value_char hv,
    Option.map_some, ← Nat.shiftLeft_add_eq_or_of_lt (by omega), Nat.shiftLeft_eq]

theorem decodeChar_pad (padding packed : Nat) :
    decodeChar (padding, packed) base64Pad = some (padding + 1, packed * 64) := by
  rw [decodeChar, if_pos rfl, Nat.shiftLeft_eq]

/-! ## Groups -/

/-- Three bytes in one number. -/
theorem packBytes_three (a b c : UInt8) :
    packBytes [a, b, c] = (a.toNat * 256 + b.toNat) * 256 + c.toNat := by
  have hb := b.toNat_lt
  have hc := c.toNat_lt
  simp only [packBytes, List.foldl_cons, List.foldl_nil, List.length_cons, List.length_nil,
    Nat.zero_shiftLeft, Nat.zero_or]
  rw [← Nat.shiftLeft_add_eq_or_of_lt (by omega), ← Nat.shiftLeft_add_eq_or_of_lt (by omega)]
  simp [Nat.shiftLeft_eq]

/-- Two bytes in one number. -/
theorem packBytes_two (a b : UInt8) : packBytes [a, b] = (a.toNat * 256 + b.toNat) * 256 := by
  have hb := b.toNat_lt
  simp only [packBytes, List.foldl_cons, List.foldl_nil, List.length_cons, List.length_nil,
    Nat.zero_shiftLeft, Nat.zero_or]
  rw [← Nat.shiftLeft_add_eq_or_of_lt (by omega)]
  simp [Nat.shiftLeft_eq]

theorem packBytes_one (a : UInt8) : packBytes [a] = a.toNat * 65536 := by
  simp [packBytes, Nat.shiftLeft_eq]

/-- The six bits of `packed` from a place on. -/
theorem shiftRight_and (packed k : Nat) : (packed >>> k) &&& 0x3f = packed / 2 ^ k % 64 := by
  rw [Nat.shiftRight_eq_div_pow, show (0x3f : Nat) = 2 ^ 6 - 1 from rfl,
    Nat.and_two_pow_sub_one_eq_mod]

/-- The eight bits of `packed` from a place on. -/
theorem toUInt8_shiftRight_and (packed k : Nat) :
    ((packed >>> k) &&& 0xff).toUInt8 = (packed / 2 ^ k % 256).toUInt8 := by
  rw [Nat.shiftRight_eq_div_pow, show (0xff : Nat) = 2 ^ 8 - 1 from rfl,
    Nat.and_two_pow_sub_one_eq_mod]

theorem toUInt8_eq {n : Nat} {a : UInt8} (h : n % 256 = a.toNat) : (n % 256).toUInt8 = a := by
  rw [h]
  exact UInt8.ofNat_toNat

/-- The bytes of a group without padding. -/
theorem unpackBytes_zero (packed : Nat) :
    unpackBytes 0 packed = [(packed / 2 ^ 16 % 256).toUInt8, (packed / 2 ^ 8 % 256).toUInt8,
      (packed / 2 ^ 0 % 256).toUInt8] := by
  rw [← toUInt8_shiftRight_and, ← toUInt8_shiftRight_and, ← toUInt8_shiftRight_and]
  rfl

/-- With one padding, two bytes come out. -/
theorem unpackBytes_one (packed : Nat) :
    unpackBytes 1 packed =
      [(packed / 2 ^ 16 % 256).toUInt8, (packed / 2 ^ 8 % 256).toUInt8] := by
  rw [← toUInt8_shiftRight_and, ← toUInt8_shiftRight_and]
  rfl

/-- With two paddings, one byte comes out. -/
theorem unpackBytes_two (packed : Nat) :
    unpackBytes 2 packed = [(packed / 2 ^ 16 % 256).toUInt8] := by
  rw [← toUInt8_shiftRight_and]
  rfl

/-- The characters of three bytes. -/
theorem encodeGroup_three (a b c : UInt8) :
    encodeGroup [a, b, c] = [base64Char (packBytes [a, b, c] / 2 ^ 18),
      base64Char (packBytes [a, b, c] / 2 ^ 12 % 64), base64Char (packBytes [a, b, c] / 2 ^ 6 % 64),
      base64Char (packBytes [a, b, c] / 2 ^ 0 % 64)] := by
  rw [← Nat.shiftRight_eq_div_pow _ 18, ← shiftRight_and, ← shiftRight_and, ← shiftRight_and]
  rfl

/-- Two bytes are encoded with one padding. -/
theorem encodeGroup_two (a b : UInt8) :
    encodeGroup [a, b] = [base64Char (packBytes [a, b] / 2 ^ 18),
      base64Char (packBytes [a, b] / 2 ^ 12 % 64), base64Char (packBytes [a, b] / 2 ^ 6 % 64),
      base64Pad] := by
  rw [← Nat.shiftRight_eq_div_pow _ 18, ← shiftRight_and, ← shiftRight_and]
  rfl

/-- One byte is encoded with two paddings. -/
theorem encodeGroup_one (a : UInt8) :
    encodeGroup [a] = [base64Char (packBytes [a] / 2 ^ 18),
      base64Char (packBytes [a] / 2 ^ 12 % 64), base64Pad, base64Pad] := by
  rw [← Nat.shiftRight_eq_div_pow _ 18, ← shiftRight_and]
  rfl

/-- Four characters of the table. -/
theorem foldlM_chars (v₀ v₁ v₂ v₃ : Nat) (h₀ : v₀ < 64) (h₁ : v₁ < 64) (h₂ : v₂ < 64)
    (h₃ : v₃ < 64) :
    [base64Char v₀, base64Char v₁, base64Char v₂, base64Char v₃].foldlM decodeChar (0, 0) =
      some (0, ((v₀ * 64 + v₁) * 64 + v₂) * 64 + v₃) := by
  simp [decodeChar_char, h₀, h₁, h₂, h₃]

/-- Three characters of the table and one of padding. -/
theorem foldlM_chars_pad (v₀ v₁ v₂ : Nat) (h₀ : v₀ < 64) (h₁ : v₁ < 64) (h₂ : v₂ < 64) :
    [base64Char v₀, base64Char v₁, base64Char v₂, base64Pad].foldlM decodeChar (0, 0) =
      some (1, ((v₀ * 64 + v₁) * 64 + v₂) * 64) := by
  simp [decodeChar_char, decodeChar_pad, h₀, h₁, h₂]

/-- Two characters of the table and two of padding. -/
theorem foldlM_chars_pad_pad (v₀ v₁ : Nat) (h₀ : v₀ < 64) (h₁ : v₁ < 64) :
    [base64Char v₀, base64Char v₁, base64Pad, base64Pad].foldlM decodeChar (0, 0) =
      some (2, (v₀ * 64 + v₁) * 64 * 64) := by
  simp [decodeChar_char, decodeChar_pad, h₀, h₁]

/-- A group of three bytes comes back. -/
theorem decodeLoop_three (a b c : UInt8) (rest : List UInt8) :
    base64DecodeLoop (encodeGroup [a, b, c] ++ rest) =
      (base64DecodeLoop rest).map fun bytes => a :: b :: c :: bytes := by
  have ha := a.toNat_lt
  have hb := b.toNat_lt
  have hc := c.toNat_lt
  have hpack := packBytes_three a b c
  have hfold := foldlM_chars (packBytes [a, b, c] / 2 ^ 18)
    (packBytes [a, b, c] / 2 ^ 12 % 64) (packBytes [a, b, c] / 2 ^ 6 % 64)
    (packBytes [a, b, c] / 2 ^ 0 % 64) (by omega) (by omega) (by omega) (by omega)
  have hsum : ((packBytes [a, b, c] / 2 ^ 18 * 64 + packBytes [a, b, c] / 2 ^ 12 % 64) * 64 +
      packBytes [a, b, c] / 2 ^ 6 % 64) * 64 + packBytes [a, b, c] / 2 ^ 0 % 64 =
      packBytes [a, b, c] := by
    omega
  have hbytes : unpackBytes 0 (packBytes [a, b, c]) = [a, b, c] := by
    rw [unpackBytes_zero, toUInt8_eq (a := a) (by omega), toUInt8_eq (a := b) (by omega),
      toUInt8_eq (a := c) (by omega)]
  rw [encodeGroup_three, List.cons_append, List.cons_append, List.cons_append, List.cons_append,
    List.nil_append, base64DecodeLoop, hfold, hsum, Option.bind_some, if_neg (by simp),
    if_neg (by simp), hbytes]
  rfl

/-- Two bytes at the end come back. -/
theorem decodeLoop_two (a b : UInt8) : base64DecodeLoop (encodeGroup [a, b]) = some [a, b] := by
  have ha := a.toNat_lt
  have hb := b.toNat_lt
  have hpack := packBytes_two a b
  have hfold := foldlM_chars_pad (packBytes [a, b] / 2 ^ 18)
    (packBytes [a, b] / 2 ^ 12 % 64) (packBytes [a, b] / 2 ^ 6 % 64)
    (by omega) (by omega) (by omega)
  have hsum : ((packBytes [a, b] / 2 ^ 18 * 64 + packBytes [a, b] / 2 ^ 12 % 64) * 64 +
      packBytes [a, b] / 2 ^ 6 % 64) * 64 = packBytes [a, b] := by
    omega
  have hbytes : unpackBytes 1 (packBytes [a, b]) = [a, b] := by
    rw [unpackBytes_one, toUInt8_eq (a := a) (by omega), toUInt8_eq (a := b) (by omega)]
  rw [encodeGroup_two, base64DecodeLoop, hfold, hsum, Option.bind_some, if_neg (by simp),
    if_neg (by simp), hbytes]
  rfl

/-- One byte at the end comes back. -/
theorem decodeLoop_one (a : UInt8) : base64DecodeLoop (encodeGroup [a]) = some [a] := by
  have ha := a.toNat_lt
  have hpack := packBytes_one a
  have hfold := foldlM_chars_pad_pad (packBytes [a] / 2 ^ 18)
    (packBytes [a] / 2 ^ 12 % 64) (by omega) (by omega)
  have hsum : (packBytes [a] / 2 ^ 18 * 64 + packBytes [a] / 2 ^ 12 % 64) * 64 * 64 =
      packBytes [a] := by
    omega
  have hbytes : unpackBytes 2 (packBytes [a]) = [a] := by
    rw [unpackBytes_two, toUInt8_eq (a := a) (by omega)]
  rw [encodeGroup_one, base64DecodeLoop, hfold, hsum, Option.bind_some, if_neg (by simp),
    if_neg (by simp), hbytes]
  rfl

/-! ## Byte strings -/

/-- Decoding inverts encoding. -/
theorem base64DecodeLoop_encode (bytes : List UInt8) :
    base64DecodeLoop (base64Encode bytes) = some bytes := by
  induction bytes using base64Encode.induct with
  | case1 => rfl
  | case2 a => exact decodeLoop_one a
  | case3 a b => exact decodeLoop_two a b
  | case4 a b c rest ih => rw [base64Encode, decodeLoop_three, ih, Option.map_some]

/-- Different byte strings have different encodings. -/
theorem base64Encode_injective : Function.Injective base64Encode := by
  intro x y h
  have hx := base64DecodeLoop_encode x
  rw [h, base64DecodeLoop_encode] at hx
  exact (Option.some.inj hx).symm

/-- A group is encoded by four characters. -/
theorem encodeGroup_length {group : List UInt8} (hpos : 0 < group.length)
    (hle : group.length ≤ 3) : (encodeGroup group).length = 4 := by
  have hcases : group.length = 1 ∨ group.length = 2 ∨ group.length = 3 := by omega
  rcases hcases with h | h | h <;> simp [encodeGroup, h]

/-- An encoding has four characters for each group of three bytes that was begun. -/
theorem base64Encode_length (bytes : List UInt8) :
    (base64Encode bytes).length = 4 * ((bytes.length + 2) / 3) := by
  induction bytes using base64Encode.induct with
  | case1 => rfl
  | case2 a => rw [base64Encode, encodeGroup_length (by simp) (by simp), List.length_singleton]
  | case3 a b =>
      rw [base64Encode, encodeGroup_length (by simp) (by simp)]
      simp
  | case4 a b c rest ih =>
      rw [base64Encode, List.length_append, ih, encodeGroup_length (by simp) (by simp)]
      simp only [List.length_cons]
      omega

end Hash
end Tiger
