import Mathlib.Tactic

/-!
# The textual form of IPv6 addresses

Eight groups of one to four hexadecimal digits, with colons between them.  One run of groups that
are zero may be left out, and then two colons stand in its place; this text denotes the groups
that are there and zeros for the others.  The form with a dotted IPv4 address at the end is not
part of this module.

Main results:

- Theorem `Denotes.unique`: a text denotes one address at most.
- Theorem `Denotes.compressions_le_one`: two colons stand next to each other at one place at most.
- Theorem `isGroup_toDigits`: the digits of a 16-bit number are a group with this value.
-/

namespace Tiger
namespace Lib
namespace ColonHex

/-! ## Groups -/

/-- The value of a hexadecimal digit. -/
def hexValue (c : Char) : Option Nat :=
  if '0' ≤ c ∧ c ≤ '9' then some (c.toNat - '0'.toNat)
  else if 'a' ≤ c ∧ c ≤ 'f' then some (c.toNat - 'a'.toNat + 10)
  else if 'A' ≤ c ∧ c ≤ 'F' then some (c.toNat - 'A'.toNat + 10)
  else none

/-- The value of a sequence of digits. -/
def groupValue (ds : List Char) : Nat := ds.foldl (fun v c => 16 * v + (hexValue c).getD 0) 0

/-- One to four hexadecimal digits. -/
structure IsGroup (ds : List Char) : Prop where
  ne_nil : ds ≠ []
  length_le : ds.length ≤ 4
  digits : ∀ c ∈ ds, (hexValue c).isSome

/-- A group has no colon. -/
theorem IsGroup.not_colon {ds : List Char} (h : IsGroup ds) : ':' ∉ ds := by
  intro hmem
  have hsome := h.digits ':' hmem
  exact absurd hsome (by decide)

theorem hexValue_digitChar {d : Nat} (hd : d < 16) : hexValue (Nat.digitChar d) = some d := by
  have hall : ∀ d < 16, hexValue (Nat.digitChar d) = some d := by decide
  exact hall d hd

/-- Printing a number in base 16 uses hexadecimal digits only. -/
theorem digits_toDigits (n : Nat) : ∀ c ∈ Nat.toDigits 16 n, (hexValue c).isSome := by
  induction n using Nat.strongRecOn with
  | _ n ih =>
      rw [Nat.toDigits_eq_if (by decide)]
      split
      next hlt =>
        intro c hc
        rw [List.mem_singleton.mp hc, hexValue_digitChar hlt]
        rfl
      next hge =>
        intro c hc
        rcases List.mem_append.mp hc with hc | hc
        · exact ih (n / 16) (by omega) c hc
        · rw [List.mem_singleton.mp hc, hexValue_digitChar (Nat.mod_lt n (by decide))]
          rfl

/-- The value of a printed number is the number. -/
theorem groupValue_toDigits (n : Nat) : groupValue (Nat.toDigits 16 n) = n := by
  induction n using Nat.strongRecOn with
  | _ n ih =>
      rw [Nat.toDigits_eq_if (by decide)]
      split
      next hlt => simp [groupValue, hexValue_digitChar hlt]
      next hge =>
        have hrec := ih (n / 16) (by omega)
        rw [groupValue] at hrec ⊢
        rw [List.foldl_append, hrec, List.foldl_cons, List.foldl_nil,
          hexValue_digitChar (Nat.mod_lt n (by decide)), Option.getD_some]
        omega

/-- The digits of a 16-bit number are a group. -/
theorem isGroup_toDigits {n : Nat} (hn : n < 2 ^ 16) : IsGroup (Nat.toDigits 16 n) where
  ne_nil := Nat.toDigits_ne_nil
  length_le := Nat.toDigits_length 16 n 4 (by decide) hn
  digits := digits_toDigits n

/-! ## Texts -/

/-- Groups with colons between them. -/
def joined (fields : List (List Char)) : List Char := [':'].intercalate fields

/-- The text denotes the groups. -/
inductive Denotes : List Char → List Nat → Prop
  | full {fields : List (List Char)} (hfields : ∀ f ∈ fields, IsGroup f)
      (hlength : fields.length = 8) : Denotes (joined fields) (fields.map groupValue)
  | compressed {left right : List (List Char)} (hleft : ∀ f ∈ left, IsGroup f)
      (hright : ∀ f ∈ right, IsGroup f) (hlength : left.length + right.length < 8) :
      Denotes (joined left ++ [':', ':'] ++ joined right)
        (left.map groupValue ++ List.replicate (8 - (left.length + right.length)) 0 ++
          right.map groupValue)

/-- The number of places at which two colons stand next to each other. -/
def compressions : List Char → Nat
  | [] => 0
  | [_] => 0
  | c :: d :: rest => (if c = ':' ∧ d = ':' then 1 else 0) + compressions (d :: rest)

/-- A field in front of others is joined to them by a colon. -/
theorem joined_cons {f : List Char} {fs : List (List Char)} (h : fs ≠ []) :
    joined (f :: fs) = f ++ ':' :: joined fs := by
  rw [joined, List.intercalate_cons_of_ne_nil h, List.append_assoc]
  rfl

@[simp]
theorem joined_singleton (f : List Char) : joined [f] = f := List.intercalate_singleton

/-- Two lists of fields are joined by a colon. -/
theorem joined_append {fs gs : List (List Char)} (hf : fs ≠ []) (hg : gs ≠ []) :
    joined (fs ++ gs) = joined fs ++ ':' :: joined gs := by
  induction fs with
  | nil => exact absurd rfl hf
  | cons f fs ih =>
      by_cases hfs : fs = []
      · subst hfs
        rw [List.singleton_append, joined_cons hg, joined_singleton]
      · rw [List.cons_append, joined_cons (by simp [hfs]), ih hfs, joined_cons hfs,
          List.append_assoc, List.cons_append]

/-- A character of a joined text is a colon or comes from a field. -/
theorem mem_joined {fs : List (List Char)} {c : Char} (h : c ∈ joined fs) :
    c = ':' ∨ ∃ f ∈ fs, c ∈ f := by
  induction fs with
  | nil => cases h
  | cons f fs ih =>
      by_cases hfs : fs = []
      · subst hfs
        rw [joined_singleton] at h
        exact .inr ⟨f, List.mem_cons_self, h⟩
      · rw [joined_cons hfs, List.mem_append, List.mem_cons] at h
        rcases h with h | h | h
        · exact .inr ⟨f, List.mem_cons_self, h⟩
        · exact .inl h
        · rcases ih h with h | ⟨g, hg, h⟩
          · exact .inl h
          · exact .inr ⟨g, List.mem_cons_of_mem f hg, h⟩

/-- The characters of a text. -/
theorem Denotes.mem {t : List Char} {vs : List Nat} (h : Denotes t vs) {c : Char} (hc : c ∈ t) :
    c = ':' ∨ (hexValue c).isSome := by
  have hjoined : ∀ fs : List (List Char), (∀ f ∈ fs, IsGroup f) → c ∈ joined fs →
      c = ':' ∨ (hexValue c).isSome := by
    intro fs hfs hmem
    rcases mem_joined hmem with h | ⟨f, hf, h⟩
    · exact .inl h
    · exact .inr ((hfs f hf).digits c h)
  cases h with
  | full hfields _ => exact hjoined _ hfields hc
  | compressed hleft hright _ =>
      rcases List.mem_append.mp hc with hc | hc
      · rcases List.mem_append.mp hc with hc | hc
        · exact hjoined _ hleft hc
        · exact .inl (by simpa using hc)
      · exact hjoined _ hright hc

/-- A text that denotes groups is not empty. -/
theorem Denotes.ne_nil {t : List Char} {vs : List Nat} (h : Denotes t vs) : t ≠ [] := by
  cases h with
  | @full fields _ hlength =>
      match fields, hlength with
      | f :: g :: fs, _ =>
          rw [joined_cons (by simp)]
          simp
  | compressed _ _ _ => simp

/-! ## Compressions -/

/-- A character that is no colon starts no compression. -/
theorem compressions_cons_of_ne {c : Char} (hc : c ≠ ':') (t : List Char) :
    compressions (c :: t) = compressions t := by
  cases t with
  | nil => rfl
  | cons d t => rw [compressions, if_neg (fun h => hc h.1), Nat.zero_add]

/-- A text without colons adds no compression. -/
theorem compressions_append {f : List Char} (hf : ':' ∉ f) (t : List Char) :
    compressions (f ++ t) = compressions t := by
  induction f with
  | nil => rfl
  | cons c f ih =>
      rw [List.mem_cons, not_or] at hf
      rw [List.cons_append, compressions_cons_of_ne (Ne.symm hf.1), ih hf.2]

/-- A colon in front of a group. -/
theorem compressions_colon {f : List Char} (hne : f ≠ []) (hf : ':' ∉ f) (t : List Char) :
    compressions (':' :: (f ++ t)) = compressions t := by
  cases f with
  | nil => exact absurd rfl hne
  | cons c f =>
      have hc : c ≠ ':' := fun h => hf (h ▸ List.mem_cons_self)
      rw [List.cons_append, compressions, if_neg (fun h => hc h.2), Nat.zero_add,
        ← List.cons_append, compressions_append hf]

/-- Groups have no such place, and neither has the colon in front of them. -/
theorem compressions_joined {fs : List (List Char)} (hne : fs ≠ []) (hfs : ∀ f ∈ fs, IsGroup f)
    (t : List Char) :
    compressions (joined fs ++ t) = compressions t ∧
      compressions (':' :: (joined fs ++ t)) = compressions t := by
  induction fs with
  | nil => exact absurd rfl hne
  | cons f fs ih =>
      have hf := hfs f List.mem_cons_self
      by_cases hnil : fs = []
      · subst hnil
        rw [joined_singleton]
        exact ⟨compressions_append hf.not_colon t, compressions_colon hf.ne_nil hf.not_colon t⟩
      · have hrest := (ih hnil fun g hg => hfs g (List.mem_cons_of_mem f hg)).2
        rw [joined_cons hnil, List.append_assoc, List.cons_append, compressions_append hf.not_colon,
          compressions_colon hf.ne_nil hf.not_colon]
        exact ⟨hrest, hrest⟩

/-- Zeros are left out at one place at most. -/
theorem Denotes.compressions_le_one {t : List Char} {vs : List Nat} (h : Denotes t vs) :
    compressions t ≤ 1 := by
  cases h with
  | @full fields hfields hlength =>
      have hne : fields ≠ [] := by
        rintro rfl
        cases hlength
      have hjoined := (compressions_joined hne hfields []).1
      rw [List.append_nil] at hjoined
      rw [hjoined]
      exact Nat.zero_le 1
  | @compressed left right hleft hright hlength =>
      have hright' : compressions (':' :: joined right) = 0 := by
        by_cases hnil : right = []
        · subst hnil
          rfl
        · have hjoined := (compressions_joined hnil hright []).2
          rw [List.append_nil] at hjoined
          exact hjoined
      have hcolons : compressions (':' :: ':' :: joined right) = 1 := by
        rw [compressions, hright', if_pos ⟨rfl, rfl⟩]
      rw [List.append_assoc]
      by_cases hnil : left = []
      · subst hnil
        exact hcolons.le
      · rw [(compressions_joined hnil hleft _).1]
        exact hcolons.le

/-! ## One address at most -/

/-- The fields of a text. -/
def fieldsOf (t : List Char) : List (List Char) := t.splitOn ':'

/-- What stands on one side of two colons, with an empty field if nothing does. -/
def side (fs : List (List Char)) : List (List Char) := if fs = [] then [[]] else fs

theorem side_nil : side [] = [[]] := rfl

theorem side_of_ne {fs : List (List Char)} (h : fs ≠ []) : side fs = fs := if_neg h

/-- A side of a compressed text has a field, which may be empty. -/
theorem side_ne_nil (fs : List (List Char)) : side fs ≠ [] := by
  by_cases h : fs = []
  · rw [h, side_nil]
    simp
  · rw [side_of_ne h]
    exact h

/-- The side of a compressed text is the text of its fields. -/
theorem joined_side (fs : List (List Char)) : joined (side fs) = joined fs := by
  by_cases h : fs = []
  · rw [h]
    rfl
  · rw [side_of_ne h]

/-- The fields of a side have no colons. -/
theorem side_not_colon {fs : List (List Char)} (hfs : ∀ f ∈ fs, IsGroup f) :
    ∀ f ∈ side fs, ':' ∉ f := by
  intro f hf
  by_cases h : fs = []
  · rw [h, side_nil, List.mem_singleton] at hf
    rw [hf]
    exact List.not_mem_nil
  · rw [side_of_ne h] at hf
    exact (hfs f hf).not_colon

theorem fieldsOf_full {fs : List (List Char)} (hne : fs ≠ []) (hfs : ∀ f ∈ fs, IsGroup f) :
    fieldsOf (joined fs) = fs :=
  List.splitOn_intercalate ':' (fun f hf => (hfs f hf).not_colon) hne

/-- Between the two colons there is an empty field. -/
theorem fieldsOf_compressed {left right : List (List Char)} (hleft : ∀ f ∈ left, IsGroup f)
    (hright : ∀ f ∈ right, IsGroup f) :
    fieldsOf (joined left ++ [':', ':'] ++ joined right) = side left ++ [] :: side right := by
  have htext : joined (side left ++ [] :: side right) =
      joined left ++ [':', ':'] ++ joined right := by
    rw [joined_append (side_ne_nil left) (by simp), joined_cons (side_ne_nil right), joined_side,
      joined_side, List.append_assoc]
    rfl
  rw [← htext]
  apply List.splitOn_intercalate
  · intro f hf
    rcases List.mem_append.mp hf with hf | hf
    · exact side_not_colon hleft f hf
    · rcases List.mem_cons.mp hf with rfl | hf
      · exact List.not_mem_nil
      · exact side_not_colon hright f hf
  · simp

/-- Groups are no empty field. -/
theorem groups_ne_nil_cons {fs : List (List Char)} (hfs : ∀ f ∈ fs, IsGroup f)
    (rest : List (List Char)) : fs ≠ [] :: rest := by
  rintro rfl
  exact (hfs [] List.mem_cons_self).ne_nil rfl

/-- A side determines its fields. -/
theorem side_inj {fs gs : List (List Char)} (hfs : ∀ f ∈ fs, IsGroup f)
    (hgs : ∀ f ∈ gs, IsGroup f) (h : side fs = side gs) : fs = gs := by
  by_cases hf : fs = []
  · by_cases hg : gs = []
    · rw [hf, hg]
    · rw [hf, side_nil, side_of_ne hg] at h
      exact absurd h.symm (groups_ne_nil_cons hgs [])
  · by_cases hg : gs = []
    · rw [hg, side_nil, side_of_ne hf] at h
      exact absurd h (groups_ne_nil_cons hfs [])
    · rwa [side_of_ne hf, side_of_ne hg] at h

/-- The groups in front of the first empty field. -/
theorem sides_inj {left right left' right' : List (List Char)} (hleft : ∀ f ∈ left, IsGroup f)
    (hleft' : ∀ f ∈ left', IsGroup f) (hright : ∀ f ∈ right, IsGroup f)
    (hright' : ∀ f ∈ right', IsGroup f)
    (h : side left ++ [] :: side right = side left' ++ [] :: side right') :
    left = left' ∧ right = right' := by
  have hgroups : ∀ (ls rs : List (List Char)), (∀ f ∈ ls, IsGroup f) →
      (ls ++ [] :: rs).takeWhile (fun f => !f.isEmpty) = ls := by
    intro ls rs hls
    have hall : ∀ f ∈ ls, (!f.isEmpty) = true := by
      intro f hf
      simpa using (hls f hf).ne_nil
    rw [List.takeWhile_append_of_pos hall]
    simp
  have hcons : ∀ (ls rs : List (List Char)) (x : List Char) (xs : List (List Char)),
      (∀ f ∈ ls, IsGroup f) → ls ≠ [] → ls ++ x :: xs ≠ [] :: rs := by
    intro ls rs x xs hls hne hcontra
    obtain ⟨f, fs, rfl⟩ := List.exists_cons_of_ne_nil hne
    exact (hls f List.mem_cons_self).ne_nil (List.cons.inj hcontra).1
  by_cases hl : left = []
  · by_cases hl' : left' = []
    · subst hl hl'
      exact ⟨rfl, side_inj hright hright' (List.cons.inj (List.append_cancel_left h)).2⟩
    · rw [hl, side_nil, side_of_ne hl'] at h
      exact absurd h.symm (hcons left' _ [] _ hleft' hl')
  · by_cases hl' : left' = []
    · rw [hl', side_nil, side_of_ne hl] at h
      exact absurd h (hcons left _ [] _ hleft hl)
    · rw [side_of_ne hl, side_of_ne hl'] at h
      have heq : left = left' := by
        rw [← hgroups left (side right) hleft, h, hgroups left' _ hleft']
      subst heq
      exact ⟨rfl, side_inj hright hright' (List.cons.inj (List.append_cancel_left h)).2⟩

/-- Only a text with two colons has an empty field. -/
theorem full_ne_compressed {fields left right : List (List Char)}
    (hfields : ∀ f ∈ fields, IsGroup f) (h : fields = side left ++ [] :: side right) : False := by
  have hmem : [] ∈ fields := by
    rw [h]
    exact List.mem_append_right _ List.mem_cons_self
  exact (hfields [] hmem).ne_nil rfl

/-- A text denotes one address at most. -/
theorem Denotes.unique {t : List Char} {vs ws : List Nat} (hv : Denotes t vs)
    (hw : Denotes t ws) : vs = ws := by
  have hne : ∀ fs : List (List Char), fs.length = 8 → fs ≠ [] := by
    rintro fs hlength rfl
    cases hlength
  cases hv with
  | @full fields hfields hlength =>
      have ht := fieldsOf_full (hne fields hlength) hfields
      generalize htext : joined fields = t at hw ht
      cases hw with
      | @full fields' hfields' hlength' =>
          rw [fieldsOf_full (hne fields' hlength') hfields'] at ht
          rw [ht]
      | @compressed left right hleft hright _ =>
          rw [fieldsOf_compressed hleft hright] at ht
          exact (full_ne_compressed hfields ht.symm).elim
  | @compressed left right hleft hright hlength =>
      have ht := fieldsOf_compressed hleft hright
      generalize htext : joined left ++ [':', ':'] ++ joined right = t at hw ht
      cases hw with
      | @full fields' hfields' hlength' =>
          rw [fieldsOf_full (hne fields' hlength') hfields'] at ht
          exact (full_ne_compressed hfields' ht).elim
      | @compressed left' right' hleft' hright' _ =>
          rw [fieldsOf_compressed hleft' hright'] at ht
          obtain ⟨rfl, rfl⟩ := sides_inj hleft' hleft hright' hright ht
          rfl

end ColonHex
end Lib
end Tiger
