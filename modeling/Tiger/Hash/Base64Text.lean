import Tiger.Hash.Base64

/-!
# Base64 texts

`Base64Decode` (`src/hash.cc`) accepts a text group by group, and has written the bytes of the
groups before it when it refuses one.  The first part says which texts are accepted and how
many bytes they stand for; the second one runs the loop on the buffer that it allocates.

Main results:

- Theorem `base64Decode_encode`: a byte string comes back from its encoding, which is a text of
  the alphabet with at most two pads at its end.
- Theorem `decodeLoop_eq_some_iff`: the texts that are accepted.
- Theorem `base64DecodeInto_eq`: the loop stays inside the buffer, on every path.
- Theorem `base64Decode_spec`: what `Base64Decode` returns, on every text.
-/

namespace Tiger
namespace Hash

/-! ## Well-formed texts -/

/-- Characters of the alphabet, then at most two pads, in groups of four. -/
def IsBase64 (text : List UInt8) : Prop :=
  text.length % 4 = 0 ∧ ∃ body pads, text = body ++ List.replicate pads base64Pad ∧
    (∀ c ∈ body, c ∈ base64Table) ∧ pads ≤ 2

/-- The bits of the last character of the alphabet that no byte takes: two for each pad. -/
def discardedBits (text : List UInt8) : Nat :=
  (((text.filter (· ≠ base64Pad)).getLast?.bind base64Value).getD 0) % 4 ^ text.count base64Pad

/-- A character with a value is the one of the table. -/
theorem base64Char_value {c : UInt8} {v : Nat} (h : base64Value c = some v) :
    v < 64 ∧ base64Char v = c := by
  have hall : ∀ n < 256, ∀ w ∈ base64Value (UInt8.ofNat n),
      w < 64 ∧ base64Char w = UInt8.ofNat n := by
    decide +kernel
  have hc := hall c.toNat c.toNat_lt v
  rw [UInt8.ofNat_toNat] at hc
  exact hc h

theorem base64Char_mem {v : Nat} (hv : v < 64) : base64Char v ∈ base64Table := by
  have h : ∀ w : Fin 64, base64Char w ∈ base64Table := by decide +kernel
  exact h ⟨v, hv⟩

/-- A character of the table has a value. -/
theorem exists_of_mem_base64Table {c : UInt8} (h : c ∈ base64Table) :
    ∃ v < 64, c = base64Char v := by
  obtain ⟨v, hv, hc⟩ := List.mem_iff_getElem.mp h
  refine ⟨v, hv, ?_⟩
  rw [base64Char, List.getD_eq_getElem?_getD, List.getElem?_eq_getElem hv, Option.getD_some, hc]

/-- What a round of the inner loop can do. -/
theorem decodeChar_cases {padding packed : Nat} {c : UInt8} {s : Nat × Nat}
    (h : decodeChar (padding, packed) c = some s) :
    (c = base64Pad ∧ s = (padding + 1, packed * 64)) ∨
      (padding = 0 ∧ ∃ v < 64, c = base64Char v ∧ s = (0, packed * 64 + v)) := by
  by_cases hpad : c = base64Pad
  · left
    rw [hpad, decodeChar_pad] at h
    exact ⟨hpad, (Option.some.inj h).symm⟩
  · right
    rw [decodeChar, if_neg hpad] at h
    split at h
    · cases h
    · next hzero =>
        have hz : padding = 0 := by simpa using hzero
        obtain ⟨v, hv, -⟩ := Option.map_eq_some_iff.mp h
        obtain ⟨hlt, hchar⟩ := base64Char_value hv
        refine ⟨hz, v, hlt, hchar.symm, ?_⟩
        have hround : decodeChar (0, packed) (base64Char v) = some (0, packed * 64 + v) :=
          decodeChar_char hlt
        rw [hchar, decodeChar, if_neg hpad, if_neg (by simp)] at hround
        subst hz
        rw [hround] at h
        exact (Option.some.inj h).symm

/-- The three forms of a group that the inner loop leaves with at most two pads. -/
inductive Group : List UInt8 → Nat → Nat → Prop
  | full (v₀ v₁ v₂ v₃ : Nat) (h₀ : v₀ < 64) (h₁ : v₁ < 64) (h₂ : v₂ < 64) (h₃ : v₃ < 64) :
      Group [base64Char v₀, base64Char v₁, base64Char v₂, base64Char v₃] 0
        (((v₀ * 64 + v₁) * 64 + v₂) * 64 + v₃)
  | one (v₀ v₁ v₂ : Nat) (h₀ : v₀ < 64) (h₁ : v₁ < 64) (h₂ : v₂ < 64) :
      Group [base64Char v₀, base64Char v₁, base64Char v₂, base64Pad] 1
        (((v₀ * 64 + v₁) * 64 + v₂) * 64)
  | two (v₀ v₁ : Nat) (h₀ : v₀ < 64) (h₁ : v₁ < 64) :
      Group [base64Char v₀, base64Char v₁, base64Pad, base64Pad] 2 ((v₀ * 64 + v₁) * 64 * 64)

/-- The inner loop on a group of each form. -/
theorem Group.foldlM {group : List UInt8} {padding packed : Nat} (h : Group group padding packed) :
    group.foldlM decodeChar (0, 0) = some (padding, packed) := by
  cases h with
  | full v₀ v₁ v₂ v₃ h₀ h₁ h₂ h₃ => exact foldlM_chars v₀ v₁ v₂ v₃ h₀ h₁ h₂ h₃
  | one v₀ v₁ v₂ h₀ h₁ h₂ => exact foldlM_chars_pad v₀ v₁ v₂ h₀ h₁ h₂
  | two v₀ v₁ h₀ h₁ => exact foldlM_chars_pad_pad v₀ v₁ h₀ h₁

/-- A round never lowers the count of pads. -/
theorem decodeChar_le {c : UInt8} {s s' : Nat × Nat} (h : decodeChar s c = some s') :
    s.1 ≤ s'.1 := by
  obtain ⟨-, rfl⟩ | ⟨hzero, v, -, -, rfl⟩ := decodeChar_cases h
  · exact Nat.le_succ _
  · exact hzero.le

/-- The inner loop leaves at most two pads on groups of these forms only. -/
theorem group_of_foldlM {c₀ c₁ c₂ c₃ : UInt8} {s : Nat × Nat}
    (h : [c₀, c₁, c₂, c₃].foldlM decodeChar (0, 0) = some s) (hle : s.1 ≤ 2) :
    Group [c₀, c₁, c₂, c₃] s.1 s.2 := by
  simp only [List.foldlM_cons, List.foldlM_nil, Option.bind_eq_bind, Option.bind_eq_some_iff,
    Option.pure_def, Option.some.injEq] at h
  obtain ⟨s₁, h₁, s₂, h₂, s₃, h₃, s₄, h₄, rfl⟩ := h
  have hle₃ := decodeChar_le h₄
  have hle₂ := decodeChar_le h₃
  have hle₁ := decodeChar_le h₂
  -- A pad in one of the first two places would leave at least three of them.
  obtain ⟨-, rfl⟩ | ⟨-, v₀, hv₀, rfl, rfl⟩ := decodeChar_cases h₁
  · obtain ⟨-, rfl⟩ | ⟨hz, -⟩ := decodeChar_cases h₂
    · obtain ⟨-, rfl⟩ | ⟨hz, -⟩ := decodeChar_cases h₃
      · simp only at hle₃
        omega
      · omega
    · omega
  · obtain ⟨-, rfl⟩ | ⟨-, v₁, hv₁, rfl, rfl⟩ := decodeChar_cases h₂
    · obtain ⟨-, rfl⟩ | ⟨hz, -⟩ := decodeChar_cases h₃
      · obtain ⟨-, rfl⟩ | ⟨hz, -⟩ := decodeChar_cases h₄
        · simp only at hle
          omega
        · omega
      · omega
    · obtain ⟨rfl, rfl⟩ | ⟨-, v₂, hv₂, rfl, rfl⟩ := decodeChar_cases h₃
      · obtain ⟨rfl, rfl⟩ | ⟨hz, -⟩ := decodeChar_cases h₄
        · simpa using Group.two v₀ v₁ hv₀ hv₁
        · omega
      · obtain ⟨rfl, rfl⟩ | ⟨-, v₃, hv₃, rfl, rfl⟩ := decodeChar_cases h₄
        · simpa using Group.one v₀ v₁ v₂ hv₀ hv₁ hv₂
        · simpa using Group.full v₀ v₁ v₂ v₃ hv₀ hv₁ hv₂ hv₃

/-- The outer loop in front of a group that it takes. -/
theorem decodeLoop_group {group rest : List UInt8} {padding packed : Nat}
    (h : Group group padding packed) (hrest : padding = 0 ∨ rest = []) :
    base64DecodeLoop (group ++ rest) =
      (base64DecodeLoop rest).map fun bytes => unpackBytes padding packed ++ bytes := by
  have hfold := h.foldlM
  have hle : padding ≤ 2 := by cases h <;> omega
  obtain ⟨c₀, c₁, c₂, c₃, rfl⟩ : ∃ c₀ c₁ c₂ c₃, group = [c₀, c₁, c₂, c₃] := by
    cases h <;> exact ⟨_, _, _, _, rfl⟩
  rw [List.cons_append, List.cons_append, List.cons_append, List.cons_append, List.nil_append,
    base64DecodeLoop, hfold, Option.bind_some]
  have hpad : ¬(padding > 0 ∧ rest ≠ []) := by
    rintro ⟨hpos, hne⟩
    rcases hrest with hz | hnil
    · omega
    · exact hne hnil
  rw [if_neg hpad, if_neg (by simp only; omega)]

/-- The texts that the outer loop takes, with their bytes. -/
inductive Decodes : List UInt8 → List UInt8 → Prop
  | nil : Decodes [] []
  | full {group rest bytes : List UInt8} {packed : Nat} (h : Group group 0 packed)
      (hrest : Decodes rest bytes) : Decodes (group ++ rest) (unpackBytes 0 packed ++ bytes)
  | last {group : List UInt8} {padding packed : Nat} (h : Group group padding packed)
      (hpos : 0 < padding) : Decodes group (unpackBytes padding packed)

/-- The loop decodes what the grammar says. -/
theorem Decodes.decodeLoop {text bytes : List UInt8} (h : Decodes text bytes) :
    base64DecodeLoop text = some bytes := by
  induction h with
  | nil => rfl
  | full hgroup hrest ih => rw [decodeLoop_group hgroup (Or.inl rfl), ih, Option.map_some]
  | @last group padding packed hgroup hpos =>
      have hloop := decodeLoop_group hgroup (Or.inr (rfl : ([] : List UInt8) = []))
      rw [List.append_nil] at hloop
      rw [hloop, base64DecodeLoop, Option.map_some, List.append_nil]

/-- What the loop decodes, the grammar says. -/
theorem decodes_of_decodeLoop {text bytes : List UInt8} (h : base64DecodeLoop text = some bytes) :
    Decodes text bytes := by
  induction text using base64DecodeLoop.induct generalizing bytes with
  | case1 =>
      rw [base64DecodeLoop] at h
      cases h
      exact Decodes.nil
  | case2 c₀ c₁ c₂ c₃ rest ih =>
      rw [base64DecodeLoop] at h
      obtain ⟨s, hfold, hs⟩ := Option.bind_eq_some_iff.mp h
      split at hs
      · cases hs
      · next hpad =>
          split at hs
          · cases hs
          · next hle =>
              obtain ⟨tail, htail, rfl⟩ := Option.map_eq_some_iff.mp hs
              have hgroup := group_of_foldlM hfold (by omega)
              by_cases hz : s.1 = 0
              · rw [hz] at hgroup ⊢
                exact Decodes.full hgroup (ih htail)
              · have hnil : rest = [] := by
                  by_contra hne
                  exact hpad ⟨by omega, hne⟩
                subst hnil
                rw [base64DecodeLoop] at htail
                cases htail
                rw [List.append_nil]
                exact Decodes.last hgroup (by omega)
  | case3 text hnil hcons =>
      rw [base64DecodeLoop] at h
      · cases h
      · exact hnil
      · exact hcons

/-- The texts that are accepted are those with a derivation. -/
theorem decodeLoop_eq_some_iff {text bytes : List UInt8} :
    base64DecodeLoop text = some bytes ↔ Decodes text bytes :=
  ⟨decodes_of_decodeLoop, Decodes.decodeLoop⟩

/-! ## Acceptance -/

/-- A group without padding in front of a text. -/
theorem IsBase64.cons_group {group rest : List UInt8} {packed : Nat} (hgroup : Group group 0 packed)
    (hrest : IsBase64 rest) : IsBase64 (group ++ rest) := by
  obtain ⟨hlen, body, pads, rfl, hbody, hpads⟩ := hrest
  cases hgroup with
  | full v₀ v₁ v₂ v₃ h₀ h₁ h₂ h₃ =>
      refine ⟨?_, [base64Char v₀, base64Char v₁, base64Char v₂, base64Char v₃] ++ body, pads, ?_,
        ?_, hpads⟩
      · rw [List.length_append, List.length_cons, List.length_cons, List.length_cons,
          List.length_singleton]
        omega
      · rw [List.append_assoc]
      · intro c hc
        simp only [List.cons_append, List.nil_append, List.mem_cons] at hc
        rcases hc with rfl | rfl | rfl | rfl | hc
        · exact base64Char_mem h₀
        · exact base64Char_mem h₁
        · exact base64Char_mem h₂
        · exact base64Char_mem h₃
        · exact hbody c hc

/-- A group with padding ends a text. -/
theorem IsBase64.of_last {group : List UInt8} {padding packed : Nat}
    (hgroup : Group group padding packed) (hpos : 0 < padding) : IsBase64 group := by
  cases hgroup with
  | full => omega
  | one v₀ v₁ v₂ h₀ h₁ h₂ =>
      refine ⟨by simp, [base64Char v₀, base64Char v₁, base64Char v₂], 1, rfl, ?_, by omega⟩
      intro c hc
      simp only [List.mem_cons, List.not_mem_nil, or_false] at hc
      rcases hc with rfl | rfl | rfl
      · exact base64Char_mem h₀
      · exact base64Char_mem h₁
      · exact base64Char_mem h₂
  | two v₀ v₁ h₀ h₁ =>
      refine ⟨by simp, [base64Char v₀, base64Char v₁], 2, rfl, ?_, le_rfl⟩
      intro c hc
      simp only [List.mem_cons, List.not_mem_nil, or_false] at hc
      rcases hc with rfl | rfl
      · exact base64Char_mem h₀
      · exact base64Char_mem h₁

/-- A text that is decoded is base64. -/
theorem Decodes.isBase64 {text bytes : List UInt8} (h : Decodes text bytes) : IsBase64 text := by
  induction h with
  | nil => exact ⟨rfl, [], 0, rfl, by simp, by omega⟩
  | full hgroup hrest ih => exact ih.cons_group hgroup
  | last hgroup hpos => exact IsBase64.of_last hgroup hpos

/-- A well-formed text has a derivation: induction over its groups, of which only the last one
can have pads. -/
theorem IsBase64.decodes {text : List UInt8} (h : IsBase64 text) :
    ∃ bytes, Decodes text bytes := by
  obtain ⟨hlen, body, pads, rfl, hbody, hpads⟩ := h
  induction body using base64DecodeLoop.induct with
  | case1 =>
      rw [List.nil_append, List.length_replicate] at hlen
      obtain rfl : pads = 0 := by omega
      exact ⟨[], Decodes.nil⟩
  | case2 c₀ c₁ c₂ c₃ rest ih =>
      obtain ⟨v₀, h₀, rfl⟩ := exists_of_mem_base64Table (hbody c₀ (by simp))
      obtain ⟨v₁, h₁, rfl⟩ := exists_of_mem_base64Table (hbody c₁ (by simp))
      obtain ⟨v₂, h₂, rfl⟩ := exists_of_mem_base64Table (hbody c₂ (by simp))
      obtain ⟨v₃, h₃, rfl⟩ := exists_of_mem_base64Table (hbody c₃ (by simp))
      obtain ⟨bytes, hbytes⟩ := ih (by simp at hlen ⊢; omega)
        (fun c hc => hbody c (by simp [hc]))
      have hgroup := Group.full v₀ v₁ v₂ v₃ h₀ h₁ h₂ h₃
      rw [show base64Char v₀ :: base64Char v₁ :: base64Char v₂ :: base64Char v₃ :: rest =
        [base64Char v₀, base64Char v₁, base64Char v₂, base64Char v₃] ++ rest from rfl,
        List.append_assoc]
      exact ⟨_, Decodes.full hgroup hbytes⟩
  | case3 body hnil hcons =>
      -- A body of one to three characters: the pads complete its group.
      match body, hnil, hcons with
      | [], hnil, _ => exact absurd rfl hnil
      | _ :: _ :: _ :: _ :: _, _, hcons => exact absurd rfl (hcons _ _ _ _ _)
      | [c₀], _, _ =>
          simp only [List.length_append, List.length_singleton, List.length_replicate] at hlen
          omega
      | [c₀, c₁], _, _ =>
          simp only [List.length_append, List.length_cons, List.length_nil,
            List.length_replicate] at hlen
          obtain rfl : pads = 2 := by omega
          obtain ⟨v₀, h₀, rfl⟩ := exists_of_mem_base64Table (hbody c₀ (by simp))
          obtain ⟨v₁, h₁, rfl⟩ := exists_of_mem_base64Table (hbody c₁ (by simp))
          exact ⟨_, Decodes.last (Group.two v₀ v₁ h₀ h₁) (by omega)⟩
      | [c₀, c₁, c₂], _, _ =>
          simp only [List.length_append, List.length_cons, List.length_nil,
            List.length_replicate] at hlen
          obtain rfl : pads = 1 := by omega
          obtain ⟨v₀, h₀, rfl⟩ := exists_of_mem_base64Table (hbody c₀ (by simp))
          obtain ⟨v₁, h₁, rfl⟩ := exists_of_mem_base64Table (hbody c₁ (by simp))
          obtain ⟨v₂, h₂, rfl⟩ := exists_of_mem_base64Table (hbody c₂ (by simp))
          exact ⟨_, Decodes.last (Group.one v₀ v₁ v₂ h₀ h₁ h₂) (by omega)⟩

/-! ## Lengths -/

theorem Group.length {group : List UInt8} {padding packed : Nat} (h : Group group padding packed) :
    group.length = 4 := by
  cases h <;> rfl

/-- The padding of a group is counted. -/
theorem Group.count_pad {group : List UInt8} {padding packed : Nat}
    (h : Group group padding packed) : group.count base64Pad = padding := by
  cases h with
  | full v₀ v₁ v₂ v₃ h₀ h₁ h₂ h₃ =>
      simp [base64Char_ne_pad h₀, base64Char_ne_pad h₁, base64Char_ne_pad h₂,
        base64Char_ne_pad h₃]
  | one v₀ v₁ v₂ h₀ h₁ h₂ =>
      simp [base64Char_ne_pad h₀, base64Char_ne_pad h₁, base64Char_ne_pad h₂]
  | two v₀ v₁ h₀ h₁ => simp [base64Char_ne_pad h₀, base64Char_ne_pad h₁]

theorem Group.bytes_length {group : List UInt8} {padding packed : Nat}
    (h : Group group padding packed) : (unpackBytes padding packed).length + padding = 3 := by
  cases h <;> simp [unpackBytes]

/-- Four characters stand for three bytes, less one for each pad. -/
theorem Decodes.length {text bytes : List UInt8} (h : Decodes text bytes) :
    4 * (bytes.length + text.count base64Pad) = 3 * text.length := by
  induction h with
  | nil => rfl
  | full hgroup hrest ih =>
      have hbytes := hgroup.bytes_length
      have hcount := hgroup.count_pad
      have hlen := hgroup.length
      rw [List.length_append, List.count_append, List.length_append]
      omega
  | last hgroup hpos =>
      have hbytes := hgroup.bytes_length
      have hcount := hgroup.count_pad
      have hlen := hgroup.length
      omega

/-- There are fewer pads than characters. -/
theorem Decodes.ne_nil {text bytes : List UInt8} (h : Decodes text bytes) (hne : text ≠ []) :
    bytes ≠ [] := by
  cases h with
  | nil => exact absurd rfl hne
  | full hgroup hrest => simp [unpackBytes]
  | last hgroup hpos => simp [unpackBytes]

/-! ## Encoding what was decoded -/

/-- The bytes of a group give its characters again, if no bit was lost. -/
theorem Group.encodeGroup {group : List UInt8} {padding packed : Nat}
    (h : Group group padding packed) (hbits : packed % 256 ^ padding = 0) :
    Hash.encodeGroup (unpackBytes padding packed) = group := by
  have hbyte : ∀ n : Nat, (n % 256).toUInt8.toNat = n % 256 := by
    intro n
    rw [Nat.toUInt8_eq, UInt8.toNat_ofNat', Nat.mod_eq_of_lt (Nat.mod_lt n (by decide))]
  cases h with
  | full v₀ v₁ v₂ v₃ h₀ h₁ h₂ h₃ =>
      rw [unpackBytes_zero, encodeGroup_three, packBytes_three, hbyte, hbyte, hbyte]
      congr <;> omega
  | one v₀ v₁ v₂ h₀ h₁ h₂ =>
      rw [unpackBytes_one, encodeGroup_two, packBytes_two, hbyte, hbyte]
      congr <;> omega
  | two v₀ v₁ h₀ h₁ =>
      rw [unpackBytes_two, encodeGroup_one, packBytes_one, hbyte]
      congr <;> omega

/-- A full group in front of a text that is not empty changes no bit at the end. -/
theorem discardedBits_append {group rest bytes : List UInt8} {packed : Nat}
    (h : Group group 0 packed) (hrest : Decodes rest bytes) :
    discardedBits (group ++ rest) = discardedBits rest := by
  have hcount : (group ++ rest).count base64Pad = rest.count base64Pad := by
    rw [List.count_append, h.count_pad, Nat.zero_add]
  have hhead : rest = [] ∨ rest.filter (· ≠ base64Pad) ≠ [] := by
    cases hrest with
    | nil => exact Or.inl rfl
    | full hgroup hrest' =>
        right
        cases hgroup with
        | full v₀ v₁ v₂ v₃ h₀ h₁ h₂ h₃ => simp [base64Char_ne_pad h₀]
    | last hgroup hpos =>
        right
        cases hgroup with
        | full => omega
        | one v₀ v₁ v₂ h₀ h₁ h₂ => simp [base64Char_ne_pad h₀]
        | two v₀ v₁ h₀ h₁ => simp [base64Char_ne_pad h₀]
  rcases hhead with rfl | hne
  · rw [discardedBits, hcount]
    simp [discardedBits, Nat.mod_one]
  · rw [discardedBits, discardedBits, hcount, List.filter_append,
      List.getLast?_append_of_ne_nil _ hne]

/-- The bits that the last group loses. -/
theorem Group.bits {group : List UInt8} {padding packed : Nat} (h : Group group padding packed)
    (hbits : discardedBits group = 0) : packed % 256 ^ padding = 0 := by
  cases h with
  | full => exact Nat.mod_one _
  | one v₀ v₁ v₂ h₀ h₁ h₂ =>
      simp [discardedBits, base64Char_ne_pad h₀, base64Char_ne_pad h₁, base64Char_ne_pad h₂,
        base64Value_char h₂] at hbits
      omega
  | two v₀ v₁ h₀ h₁ =>
      simp [discardedBits, base64Char_ne_pad h₀, base64Char_ne_pad h₁,
        base64Value_char h₁] at hbits
      omega

/-- A text that loses no bit is the encoding of its bytes. -/
theorem Decodes.encode {text bytes : List UInt8} (h : Decodes text bytes)
    (hbits : discardedBits text = 0) : base64Encode bytes = text := by
  induction h with
  | nil => rfl
  | full hgroup hrest ih =>
      rw [discardedBits_append hgroup hrest] at hbits
      have hcons := hgroup.encodeGroup (Nat.mod_one _)
      rw [unpackBytes_zero] at hcons ⊢
      rw [List.cons_append, List.cons_append, List.cons_append, List.nil_append, base64Encode,
        hcons, ih hbits]
  | last hgroup hpos =>
      have hlast := hgroup.encodeGroup (hgroup.bits hbits)
      cases hgroup with
      | full => omega
      | one v₀ v₁ v₂ h₀ h₁ h₂ =>
          rw [unpackBytes_one] at hlast ⊢
          exact hlast
      | two v₀ v₁ h₀ h₁ =>
          rw [unpackBytes_two] at hlast ⊢
          exact hlast

/-! ## The buffer of the decoder -/

/-- Why `Base64Decode` stops early: one of its `return ""`, or a store outside of its buffer. -/
inductive DecodeStop where
  | refused
  | wild
  deriving DecidableEq

/-- `*writeBuf++ = b` on the buffer and the write position. -/
def storeByte (w : List UInt8 × Nat) (b : UInt8) : Except DecodeStop (List UInt8 × Nat) :=
  if w.2 < w.1.length then .ok (w.1.set w.2 b, w.2 + 1) else .error .wild

/-- The outer loop of `Base64Decode` on `result` and `writeBuf`. -/
def base64DecodeInto (w : List UInt8 × Nat) : List UInt8 → Except DecodeStop (List UInt8 × Nat)
  | [] => .ok w
  | c₀ :: c₁ :: c₂ :: c₃ :: rest =>
      match [c₀, c₁, c₂, c₃].foldlM decodeChar (0, 0) with
      | none => .error .refused
      | some s =>
          if s.1 > 0 ∧ rest ≠ [] then .error .refused
          else if s.1 > 2 then .error .refused
          else
            match (unpackBytes s.1 s.2).foldlM storeByte w with
            | .error e => .error e
            | .ok w' => base64DecodeInto w' rest
  | _ => .error .refused

/-- `Base64Decode` with its buffer: `resize` to `src.size() * 3 / 4`, the loop, and `resize` to
what was written. -/
def base64DecodeBuffer (src : List UInt8) : Except DecodeStop (List UInt8) :=
  (base64DecodeInto (List.replicate (src.length * 3 / 4) 0, 0) src).map fun w => w.1.take w.2

/-- Stores that fit append their bytes to what was written. -/
theorem foldlM_storeByte (bytes buffer : List UInt8) (pos : Nat)
    (hfit : pos + bytes.length ≤ buffer.length) :
    ∃ buffer', bytes.foldlM storeByte (buffer, pos) = .ok (buffer', pos + bytes.length) ∧
      buffer'.length = buffer.length ∧
      buffer'.take (pos + bytes.length) = buffer.take pos ++ bytes := by
  induction bytes generalizing buffer pos with
  | nil => exact ⟨buffer, rfl, rfl, by simp⟩
  | cons b bytes ih =>
      rw [List.length_cons] at hfit
      obtain ⟨buffer', hfold, hlen, htake⟩ := ih (buffer.set pos b) (pos + 1)
        (by rw [List.length_set]; omega)
      refine ⟨buffer', ?_, ?_, ?_⟩
      · rw [List.foldlM_cons, storeByte, if_pos (by simp only; omega)]
        rw [List.length_cons, Nat.add_comm bytes.length, ← Nat.add_assoc]
        exact hfold
      · rw [hlen, List.length_set]
      · rw [List.length_cons, Nat.add_comm bytes.length, ← Nat.add_assoc, htake,
          List.take_add_one, List.take_set_of_le le_rfl, List.getElem?_set_self (by omega)]
        simp

/-- The loop on a buffer with room for the rest of the text does what the loop on lists does.
The invariant is that three bytes are left for each group. -/
theorem base64DecodeInto_eq (text buffer : List UInt8) (pos : Nat)
    (hfit : pos + text.length * 3 / 4 ≤ buffer.length) :
    (base64DecodeInto (buffer, pos) text).map (fun w => w.1.take w.2) =
      match base64DecodeLoop text with
      | some bytes => .ok (buffer.take pos ++ bytes)
      | none => .error .refused := by
  induction text using base64DecodeLoop.induct generalizing buffer pos with
  | case1 => simp [base64DecodeInto, base64DecodeLoop, Except.map]
  | case2 c₀ c₁ c₂ c₃ rest ih =>
      rw [base64DecodeInto, base64DecodeLoop]
      cases hfold : [c₀, c₁, c₂, c₃].foldlM decodeChar (0, 0) with
      | none => rfl
      | some s =>
          simp only [Option.bind_some]
          split
          · rfl
          · split
            · rfl
            · next hle =>
                have hbytes := (group_of_foldlM hfold (by omega)).bytes_length
                simp only [List.length_cons] at hfit
                obtain ⟨buffer', hstores, hlen, htake⟩ :=
                  foldlM_storeByte (unpackBytes s.1 s.2) buffer pos (by omega)
                rw [hstores]
                simp only
                rw [ih buffer' _ (by omega), htake]
                cases base64DecodeLoop rest with
                | none => rfl
                | some tail => simp
  | case3 text hnil hcons =>
      rw [base64DecodeInto, base64DecodeLoop]
      · rfl
      · exact hnil
      · exact hcons
      · exact hnil
      · exact hcons

/-- `Base64Decode` never stores outside of its buffer, and gives what the loop on lists gives. -/
theorem base64DecodeBuffer_eq (src : List UInt8) :
    base64DecodeBuffer src =
      match base64DecodeLoop src with
      | some bytes => .ok bytes
      | none => .error .refused := by
  rw [base64DecodeBuffer, base64DecodeInto_eq src _ 0 (by simp)]
  cases base64DecodeLoop src with
  | none => rfl
  | some bytes => simp

/-! ## Both functions -/

/-- A byte string comes back from its encoding, which has four characters for each group of
three bytes that was begun: characters of the alphabet and at most two pads at the end. -/
theorem base64Decode_encode (bytes : List UInt8) :
    base64Decode (base64Encode bytes) = bytes ∧
      (base64Encode bytes).length = 4 * ((bytes.length + 2) / 3) ∧
      ∃ body pads, base64Encode bytes = body ++ List.replicate pads base64Pad ∧
        (∀ c ∈ body, c ∈ base64Table ∧ c ≠ base64Pad) ∧ pads ≤ 2 := by
  have hloop := base64DecodeLoop_encode bytes
  refine ⟨?_, base64Encode_length bytes, ?_⟩
  · rw [base64Decode, hloop, Option.getD_some]
  · obtain ⟨-, body, pads, htext, hbody, hpads⟩ := (decodeLoop_eq_some_iff.mp hloop).isBase64
    refine ⟨body, pads, htext, ?_, hpads⟩
    intro c hc
    refine ⟨hbody c hc, ?_⟩
    obtain ⟨v, hv, rfl⟩ := exists_of_mem_base64Table (hbody c hc)
    exact base64Char_ne_pad hv

/-- A text that is not well formed is refused. -/
theorem decodeLoop_eq_none {text : List UInt8} (h : ¬IsBase64 text) :
    base64DecodeLoop text = none := by
  rw [Option.eq_none_iff_forall_not_mem]
  intro bytes hbytes
  exact h (decodeLoop_eq_some_iff.mp hbytes).isBase64

/-- What `Base64Decode` returns: something if and only if the text is well formed and not empty,
then as many bytes as its characters stand for; it stays inside of its buffer, and a text that
loses no bit comes back from its bytes. -/
theorem base64Decode_spec (text : List UInt8) :
    (base64Decode text ≠ [] ↔ text ≠ [] ∧ IsBase64 text) ∧
      (IsBase64 text →
        (base64Decode text).length = 3 * text.length / 4 - text.count base64Pad) ∧
      (base64DecodeBuffer text = .ok (base64Decode text) ∨
        base64DecodeBuffer text = .error .refused ∧ base64Decode text = []) ∧
      (IsBase64 text → discardedBits text = 0 → base64Encode (base64Decode text) = text) := by
  rw [base64DecodeBuffer_eq, base64Decode]
  by_cases hform : IsBase64 text
  · obtain ⟨bytes, hbytes⟩ := hform.decodes
    have hloop := hbytes.decodeLoop
    have hlen := hbytes.length
    rw [hloop, Option.getD_some]
    refine ⟨?_, ?_, Or.inl rfl, ?_⟩
    · constructor
      · intro hne
        refine ⟨?_, hform⟩
        rintro rfl
        rw [base64DecodeLoop] at hloop
        exact hne (Option.some.inj hloop).symm
      · rintro ⟨hne, -⟩
        exact hbytes.ne_nil hne
    · intro _
      omega
    · intro _ hbits
      exact hbytes.encode hbits
  · have hloop := decodeLoop_eq_none hform
    rw [hloop, Option.getD_none]
    refine ⟨?_, ?_, Or.inr ⟨rfl, rfl⟩, ?_⟩
    · constructor
      · intro hne
        exact absurd rfl hne
      · rintro ⟨-, h⟩
        exact absurd h hform
    · intro h
      exact absurd h hform
    · intro h
      exact absurd h hform

end Hash
end Tiger
