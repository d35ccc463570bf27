import Tiger.Http.Params

/-!
# HTTP - escaping and unescaping

`StringUtils::UrlEncode` and `StringUtils::UrlDecode` (`src/util.cc`) allocate their output at
the first byte that changes.  The decoder asks for a hexadecimal digit behind the `%` and for a
decimal one behind that, so that it leaves an escape alone whose second digit is a letter.

Main results:

- Theorems `urlEncodeLoop_eq`, `urlDecodeLoop_eq`: the loops with their late allocation are
  functions of the rest of the string.
- Theorem `unescape_urlEncode`: what comes back, for either test of the second digit.
- Theorem `urlDecode_urlEncode_iff`: the strings that come back.
-/

namespace Tiger
namespace Http

/-! ## The loop of the encoder -/

/-- What `UrlEncode` appends for a byte. -/
def escaped (spaceAsPlus : Bool) (c : UInt8) : Text :=
  if charIsUnreserved c then [c]
  else if c = 32 ∧ spaceAsPlus then [43]
  else [37, hexdigits (c.toNat / 16), hexdigits (c.toNat % 16)]

/-- The loop of `UrlEncode` at position `pos` of `str`; `ss` is `none` as long as it is null. -/
def urlEncodeLoop (spaceAsPlus : Bool) (str : Text) : Text → Nat → Option Text → Text
  | [], _, ss => ss.getD str
  | c :: rest, pos, ss =>
      if charIsUnreserved c then
        urlEncodeLoop spaceAsPlus str rest (pos + 1) (ss.map (· ++ [c]))
      else
        urlEncodeLoop spaceAsPlus str rest (pos + 1)
          (some (ss.getD (str.take pos) ++ escaped spaceAsPlus c))

/-- A text is encoded byte by byte. -/
theorem urlEncode_cons (spaceAsPlus : Bool) (c : UInt8) (s : Text) :
    urlEncode spaceAsPlus (c :: s) = escaped spaceAsPlus c ++ urlEncode spaceAsPlus s := by
  rw [urlEncode, List.flatMap_cons]
  rfl

/-- Texts are encoded one behind the other. -/
theorem urlEncode_append (spaceAsPlus : Bool) (s t : Text) :
    urlEncode spaceAsPlus (s ++ t) = urlEncode spaceAsPlus s ++ urlEncode spaceAsPlus t := by
  rw [urlEncode, List.flatMap_append]
  rfl

theorem escaped_unreserved {c : UInt8} (h : charIsUnreserved c = true) (spaceAsPlus : Bool) :
    escaped spaceAsPlus c = [c] := by
  rw [escaped, if_pos h]

/-- The loop gives the encoding.  The invariant is that the output, or what stands before the
position if there is none yet, is the encoding of what stands before the position. -/
theorem urlEncodeLoop_eq (spaceAsPlus : Bool) (front rest : Text) (ss : Option Text)
    (hss : ss.getD front = urlEncode spaceAsPlus front) :
    urlEncodeLoop spaceAsPlus (front ++ rest) rest front.length ss =
      urlEncode spaceAsPlus (front ++ rest) := by
  induction rest generalizing front ss with
  | nil => rw [urlEncodeLoop, List.append_nil, hss]
  | cons c rest ih =>
      have hshift : front ++ c :: rest = (front ++ [c]) ++ rest := by simp
      have hpos : front.length + 1 = (front ++ [c]).length := by simp
      have hone : urlEncode spaceAsPlus (front ++ [c]) =
          urlEncode spaceAsPlus front ++ escaped spaceAsPlus c := by
        rw [urlEncode_append, urlEncode_cons]
        simp [urlEncode]
      rw [urlEncodeLoop]
      split
      · next hc =>
          rw [hshift, hpos]
          apply ih
          rw [hone, escaped_unreserved hc, ← hss]
          cases ss <;> rfl
      · rw [hshift, hpos]
        apply ih
        rw [Option.getD_some, hone, ← hss]
        cases ss with
        | none => simp
        | some out => rfl

/-! ## The loop of the decoder -/

/-- `isdigit` -/
def isDigit (c : UInt8) : Bool := decide (48 ≤ c.toNat ∧ c.toNat ≤ 57)

/-- `isxdigit` -/
def isXdigit (c : UInt8) : Bool :=
  decide (48 ≤ c.toNat ∧ c.toNat ≤ 57 ∨ 65 ≤ c.toNat ∧ c.toNat ≤ 70 ∨ 97 ≤ c.toNat ∧ c.toNat ≤ 102)

/-- The table `xdigit_chars`. -/
def xdigitChars (c : UInt8) : Nat :=
  if 48 ≤ c.toNat ∧ c.toNat ≤ 57 then c.toNat - 48
  else if 65 ≤ c.toNat ∧ c.toNat ≤ 70 then c.toNat - 55
  else if 97 ≤ c.toNat ∧ c.toNat ≤ 102 then c.toNat - 87
  else 0

/-- The byte of an escape with these two digits. -/
def escapeByte (a b : UInt8) : UInt8 := UInt8.ofNat ((xdigitChars a <<< 4) ||| xdigitChars b)

/-- The loop of `UrlDecode` at position `pos` of `str`; `ss` is `none` as long as it is null. -/
def urlDecodeLoop (spaceAsPlus : Bool) (str : Text) : Text → Nat → Option Text → Text
  | [], _, ss => ss.getD str
  | c :: a :: b :: rest, pos, ss =>
      if c = 43 ∧ spaceAsPlus then
        urlDecodeLoop spaceAsPlus str (a :: b :: rest) (pos + 1)
          (some (ss.getD (str.take pos) ++ [32]))
      else if c = 37 ∧ isXdigit a ∧ isDigit b then
        urlDecodeLoop spaceAsPlus str rest (pos + 3)
          (some (ss.getD (str.take pos) ++ [escapeByte a b]))
      else urlDecodeLoop spaceAsPlus str (a :: b :: rest) (pos + 1) (ss.map (· ++ [c]))
  | c :: rest, pos, ss =>
      -- fewer than two bytes are left: no escape
      if c = 43 ∧ spaceAsPlus then
        urlDecodeLoop spaceAsPlus str rest (pos + 1) (some (ss.getD (str.take pos) ++ [32]))
      else urlDecodeLoop spaceAsPlus str rest (pos + 1) (ss.map (· ++ [c]))

/-- `StringUtils::UrlDecode` -/
def urlDecode (spaceAsPlus : Bool) (str : Text) : Text := urlDecodeLoop spaceAsPlus str str 0 none

/-- Unescaping with a test `second` for the second digit. -/
def unescape (second : UInt8 → Bool) (spaceAsPlus : Bool) : Text → Text
  | [] => []
  | c :: a :: b :: rest =>
      if c = 43 ∧ spaceAsPlus then 32 :: unescape second spaceAsPlus (a :: b :: rest)
      else if c = 37 ∧ isXdigit a ∧ second b then
        escapeByte a b :: unescape second spaceAsPlus rest
      else c :: unescape second spaceAsPlus (a :: b :: rest)
  | c :: rest =>
      if c = 43 ∧ spaceAsPlus then 32 :: unescape second spaceAsPlus rest
      else c :: unescape second spaceAsPlus rest

private theorem getD_map_append (ss : Option Text) (front : Text) (c : UInt8) :
    (ss.map (· ++ [c])).getD (front ++ [c]) = ss.getD front ++ [c] := by
  cases ss <;> rfl

/-- The loop appends what is unescaped from the rest of the string. -/
theorem urlDecodeLoop_eq (spaceAsPlus : Bool) (front rest : Text) (ss : Option Text) :
    urlDecodeLoop spaceAsPlus (front ++ rest) rest front.length ss =
      ss.getD front ++ unescape isDigit spaceAsPlus rest := by
  induction rest using unescape.induct isDigit spaceAsPlus generalizing front ss with
  | case1 => simp [urlDecodeLoop, unescape]
  | case2 c a b rest hplus ih =>
      have htail := ih (front ++ [c]) (some (ss.getD front ++ [32]))
      rw [urlDecodeLoop, unescape, if_pos hplus, if_pos hplus]
      simpa using htail
  | case3 c a b rest hplus hesc ih =>
      have htail := ih (front ++ [c, a, b]) (some (ss.getD front ++ [escapeByte a b]))
      rw [urlDecodeLoop, unescape, if_neg hplus, if_neg hplus, if_pos hesc, if_pos hesc]
      simpa using htail
  | case4 c a b rest hplus hesc ih =>
      have htail := ih (front ++ [c]) (ss.map (· ++ [c]))
      rw [getD_map_append] at htail
      rw [urlDecodeLoop, unescape, if_neg hplus, if_neg hplus, if_neg hesc, if_neg hesc]
      simpa using htail
  | case5 c rest hshort hplus ih =>
      have htail := ih (front ++ [c]) (some (ss.getD front ++ [32]))
      rw [urlDecodeLoop.eq_3 _ _ _ _ _ _ hshort, unescape.eq_3 _ _ _ _ hshort, if_pos hplus,
        if_pos hplus]
      simpa using htail
  | case6 c rest hshort hplus ih =>
      have htail := ih (front ++ [c]) (ss.map (· ++ [c]))
      rw [getD_map_append] at htail
      rw [urlDecodeLoop.eq_3 _ _ _ _ _ _ hshort, unescape.eq_3 _ _ _ _ hshort, if_neg hplus,
        if_neg hplus]
      simpa using htail

/-- `UrlDecode` is unescaping with a decimal digit in the second place. -/
theorem urlDecode_eq (spaceAsPlus : Bool) (str : Text) :
    urlDecode spaceAsPlus str = unescape isDigit spaceAsPlus str :=
  urlDecodeLoop_eq spaceAsPlus [] str none

/-! ## Unescaping -/

section Unescape

variable {second : UInt8 → Bool} {spaceAsPlus : Bool} {a b c : UInt8} {rest : Text}

/-- A byte that is no escape stands for itself. -/
theorem unescape_cons_plain (hplus : c ≠ 43) (hpercent : c ≠ 37) :
    unescape second spaceAsPlus (c :: rest) = c :: unescape second spaceAsPlus rest := by
  match rest with
  | [] => rw [unescape.eq_3 _ _ _ _ (by simp), if_neg (by simp [hplus])]
  | [a] => rw [unescape.eq_3 _ _ _ _ (by simp), if_neg (by simp [hplus])]
  | a :: b :: rest =>
      rw [unescape, if_neg (by simp [hplus]), if_neg (by simp [hpercent])]

/-- A plus stands for a blank. -/
theorem unescape_cons_plus :
    unescape second true (43 :: rest) = 32 :: unescape second true rest := by
  match rest with
  | [] => rfl
  | [a] => rfl
  | a :: b :: rest => rw [unescape, if_pos ⟨rfl, rfl⟩]

/-- An escape stands for its byte. -/
theorem unescape_escape (ha : isXdigit a = true) (hb : second b = true) :
    unescape second spaceAsPlus (37 :: a :: b :: rest) =
      escapeByte a b :: unescape second spaceAsPlus rest := by
  rw [unescape, if_neg (by simp), if_pos ⟨rfl, ha, hb⟩]

/-- A percent sign without its digits stands for itself. -/
theorem unescape_percent (hb : second b = false) :
    unescape second spaceAsPlus (37 :: a :: b :: rest) =
      37 :: unescape second spaceAsPlus (a :: b :: rest) := by
  rw [unescape, if_neg (by simp), if_neg (by simp [hb])]

end Unescape

/-- The digits of a byte are hexadecimal, stand for the byte, and are themselves no signs of an
escape; the second one is a decimal digit if and only if the lower half is below ten. -/
theorem hexdigits_spec (c : UInt8) :
    isXdigit (hexdigits (c.toNat / 16)) = true ∧ isXdigit (hexdigits (c.toNat % 16)) = true ∧
      escapeByte (hexdigits (c.toNat / 16)) (hexdigits (c.toNat % 16)) = c ∧
      (isDigit (hexdigits (c.toNat % 16)) = true ↔ c.toNat % 16 < 10) := by
  have hall : ∀ n < 256,
      isXdigit (hexdigits ((UInt8.ofNat n).toNat / 16)) = true ∧
        isXdigit (hexdigits ((UInt8.ofNat n).toNat % 16)) = true ∧
        escapeByte (hexdigits ((UInt8.ofNat n).toNat / 16))
          (hexdigits ((UInt8.ofNat n).toNat % 16)) = UInt8.ofNat n ∧
        (isDigit (hexdigits ((UInt8.ofNat n).toNat % 16)) = true ↔
          (UInt8.ofNat n).toNat % 16 < 10) := by
    decide +kernel
  have hc := hall c.toNat c.toNat_lt
  rw [UInt8.ofNat_toNat] at hc
  exact hc

/-- An unreserved byte or a hexadecimal digit is no sign of an escape. -/
theorem ne_of_charIsUnreserved {c : UInt8} (h : charIsUnreserved c = true) : c ≠ 43 ∧ c ≠ 37 := by
  constructor
  · rintro rfl
    exact absurd h (by decide)
  · rintro rfl
    exact absurd h (by decide)

/-- A hexadecimal digit is unreserved. -/
theorem charIsUnreserved_of_isXdigit {c : UInt8} (h : isXdigit c = true) :
    charIsUnreserved c = true := by
  rw [isXdigit, decide_eq_true_eq] at h
  rw [charIsUnreserved, decide_eq_true_eq]
  omega

/-! ## The round trip -/

/-- The bytes that `UrlDecode` recovers from what `UrlEncode` wrote. -/
def comesBack (second : UInt8 → Bool) (c : UInt8) : Bool :=
  charIsUnreserved c || second (hexdigits (c.toNat % 16))

/-- A byte comes back, or its escape stays. -/
theorem unescape_escaped {second : UInt8 → Bool} (hzero : second 48 = true) (spaceAsPlus : Bool)
    (c : UInt8) (rest : Text) :
    unescape second spaceAsPlus (escaped spaceAsPlus c ++ rest) =
      (if comesBack second c then [c] else escaped spaceAsPlus c) ++
        unescape second spaceAsPlus rest := by
  obtain ⟨hhigh, hlow, hbyte, -⟩ := hexdigits_spec c
  by_cases hfree : charIsUnreserved c = true
  · obtain ⟨hplus, hpercent⟩ := ne_of_charIsUnreserved hfree
    rw [escaped_unreserved hfree, comesBack, hfree, Bool.true_or, if_pos rfl, List.singleton_append,
      unescape_cons_plain hplus hpercent, List.singleton_append]
  · rw [Bool.not_eq_true] at hfree
    by_cases hspace : c = 32 ∧ spaceAsPlus = true
    · obtain ⟨rfl, rfl⟩ := hspace
      have hback : comesBack second 32 = true := by
        rw [comesBack, hfree, Bool.false_or]
        exact hzero
      rw [hback, if_pos rfl, show escaped true 32 = [43] from rfl, List.singleton_append,
        unescape_cons_plus, List.singleton_append]
    · have hescaped : escaped spaceAsPlus c =
          [37, hexdigits (c.toNat / 16), hexdigits (c.toNat % 16)] := by
        rw [escaped, hfree, if_neg (by simp), if_neg hspace]
      rw [hescaped, comesBack, hfree, Bool.false_or]
      by_cases hsecond : second (hexdigits (c.toNat % 16)) = true
      · rw [hsecond, if_pos rfl, List.cons_append, List.cons_append, List.singleton_append,
          unescape_escape hhigh hsecond, hbyte, List.singleton_append]
      · rw [Bool.not_eq_true] at hsecond
        obtain ⟨hplus, hpercent⟩ := ne_of_charIsUnreserved (charIsUnreserved_of_isXdigit hhigh)
        obtain ⟨hplus', hpercent'⟩ := ne_of_charIsUnreserved (charIsUnreserved_of_isXdigit hlow)
        rw [hsecond, if_neg (by simp), List.cons_append, List.cons_append, List.singleton_append,
          unescape_percent hsecond, unescape_cons_plain hplus hpercent,
          unescape_cons_plain hplus' hpercent']
        rfl

/-- What comes back from an encoding: the bytes that do, and the escapes of the others. -/
theorem unescape_urlEncode {second : UInt8 → Bool} (hzero : second 48 = true) (spaceAsPlus : Bool)
    (s : Text) :
    unescape second spaceAsPlus (urlEncode spaceAsPlus s) =
      s.flatMap fun c => if comesBack second c then [c] else escaped spaceAsPlus c := by
  induction s with
  | nil => rfl
  | cons c s ih => rw [urlEncode_cons, unescape_escaped hzero, ih, List.flatMap_cons]

/-- With a hexadecimal digit in the second place everything comes back. -/
theorem unescape_isXdigit_urlEncode (spaceAsPlus : Bool) (s : Text) :
    unescape isXdigit spaceAsPlus (urlEncode spaceAsPlus s) = s := by
  rw [unescape_urlEncode rfl]
  induction s with
  | nil => rfl
  | cons c s ih =>
      have hback : comesBack isXdigit c = true := by
        rw [comesBack, (hexdigits_spec c).2.1, Bool.or_true]
      rw [List.flatMap_cons, ih, hback, if_pos rfl, List.singleton_append]

/-- An encoding has at least the length of the string. -/
theorem length_le_flatMap (second : UInt8 → Bool) (spaceAsPlus : Bool) (s : Text) :
    s.length ≤
      (s.flatMap fun c => if comesBack second c then [c] else escaped spaceAsPlus c).length := by
  induction s with
  | nil => exact le_rfl
  | cons c s ih =>
      have hpos : 1 ≤ (if comesBack second c then [c] else escaped spaceAsPlus c).length := by
        split
        · exact le_rfl
        · rw [escaped]
          split
          · exact le_rfl
          · split <;> simp
      rw [List.flatMap_cons, List.length_append, List.length_cons]
      omega

/-- `UrlDecode` recovers an unreserved byte, and a reserved one with a lower half below ten. -/
theorem comesBack_isDigit_iff (c : UInt8) :
    comesBack isDigit c = true ↔ charIsUnreserved c = true ∨ c.toNat % 16 < 10 := by
  rw [comesBack, Bool.or_eq_true, (hexdigits_spec c).2.2.2]

/-- An escape that stays has three bytes. -/
theorem escaped_length_of_not_comesBack {c : UInt8} (h : comesBack isDigit c = false)
    (spaceAsPlus : Bool) : (escaped spaceAsPlus c).length = 3 := by
  rw [Bool.eq_false_iff, ne_eq, comesBack_isDigit_iff, not_or] at h
  obtain ⟨hfree, hlow⟩ := h
  rw [escaped, if_neg hfree, if_neg]
  · rfl
  · rintro ⟨rfl, -⟩
    exact hlow (by decide)

/-- Bytes and escapes make up the string again if and only if there are no escapes. -/
theorem flatMap_comesBack_eq_iff (spaceAsPlus : Bool) (s : Text) :
    (s.flatMap fun c => if comesBack isDigit c then [c] else escaped spaceAsPlus c) = s ↔
      ∀ c ∈ s, comesBack isDigit c = true := by
  induction s with
  | nil => simp
  | cons c s ih =>
      rw [List.flatMap_cons, List.forall_mem_cons]
      cases hback : comesBack isDigit c with
      | true => simpa using ih
      | false =>
          have hlen := escaped_length_of_not_comesBack hback spaceAsPlus
          have hle := length_le_flatMap isDigit spaceAsPlus s
          rw [if_neg (by simp)]
          constructor
          · intro heq
            have hlength := congrArg List.length heq
            rw [List.length_append, List.length_cons] at hlength
            omega
          · rintro ⟨hfalse, -⟩
            exact absurd hfalse (by simp)

/-- A string comes back from its encoding if and only if all its bytes are unreserved or have a
lower half below ten. -/
theorem urlDecode_urlEncode_iff (spaceAsPlus : Bool) (s : Text) :
    urlDecode spaceAsPlus (urlEncodeLoop spaceAsPlus s s 0 none) = s ↔
      ∀ c ∈ s, charIsUnreserved c = true ∨ c.toNat % 16 < 10 := by
  have hloop := urlEncodeLoop_eq spaceAsPlus [] s none rfl
  rw [List.nil_append, List.length_nil] at hloop
  rw [hloop, urlDecode_eq, unescape_urlEncode rfl, flatMap_comesBack_eq_iff]
  simp only [comesBack_isDigit_iff]

/-- The escape of a slash stays. -/
theorem urlDecode_urlEncode_slash :
    urlEncodeLoop true [47] [47] 0 none = [37, 50, 70] ∧
      urlDecode true (urlEncodeLoop true [47] [47] 0 none) = [37, 50, 70] ∧
      urlDecode true (urlEncodeLoop true [47] [47] 0 none) ≠ [47] := by
  decide

end Http
end Tiger
