import Tiger.Http.Params
import Mathlib.Data.List.DropRight
import Mathlib.Tactic

/-!
# Util - trimming of strings

This module embeds `StringUtils::Trim`, `TrimLeft` and `TrimRight` (`src/util.cc`).  Each searches
the string for its first or last character outside the delimiters and takes a substring; a search
that finds nothing gives the empty string.

`Trim` takes one character more than the distance between the two places, `TrimRight` only as many
as lie in front of the last one, which is thus lost.

Main results:

- Theorem `trimLeft_longest`: `TrimLeft` gives the longest suffix.
- Theorems `trim_eq` and `trim_default`: `Trim` strips both ends, as it does for cookies.
- Theorem `trimRight_eq`: `TrimRight` strips the end and one character more.
- Theorem `trimmed_iff`: the strings for which the three functions fit together.
-/

namespace Tiger
namespace Util

/-! ## The searches and the functions -/

/-- `str.find_first_not_of(delimit)`; `npos` is `none` -/
def findFirstNotOf (str delimit : List UInt8) : Option Nat :=
  str.findIdx? (· ∉ delimit)

/-- `str.find_last_not_of(delimit)` -/
def findLastNotOf (str delimit : List UInt8) : Option Nat :=
  (str.reverse.findIdx? (· ∉ delimit)).map (str.length - 1 - ·)

/-- `str.substr(pos, n)` from a place in the string -/
def substr (str : List UInt8) (pos n : Nat) : List UInt8 := (str.drop pos).take n

/-- `Trim(str, delimit)`; the second search finds a place whenever the first one does. -/
def trim (str delimit : List UInt8) : List UInt8 :=
  match findFirstNotOf str delimit with
  | none => []
  | some start =>
    match findLastNotOf str delimit with
    | none => []
    | some stop => substr str start (stop - start + 1)

/-- `TrimLeft(str, delimit)` -/
def trimLeft (str delimit : List UInt8) : List UInt8 :=
  match findFirstNotOf str delimit with
  | none => []
  | some start => str.drop start

/-- `TrimRight(str, delimit)` -/
def trimRight (str delimit : List UInt8) : List UInt8 :=
  match findLastNotOf str delimit with
  | none => []
  | some stop => substr str 0 stop

/-! ## What the functions are for -/

/-- `t` is the longest suffix of `s` that does not start with a delimiter. -/
structure LongestSuffix (s d t : List UInt8) : Prop where
  isSuffix : t <:+ s
  head_notMem : ∀ c ∈ t.head?, c ∉ d
  longest : ∀ u, u <:+ s → (∀ c ∈ u.head?, c ∉ d) → u.length ≤ t.length

/-- `t` is the longest part in front of `s` that does not end with a delimiter. -/
structure LongestPrefix (s d t : List UInt8) : Prop where
  isPrefix : t <+: s
  last_notMem : ∀ c ∈ t.getLast?, c ∉ d
  longest : ∀ u, u <+: s → (∀ c ∈ u.getLast?, c ∉ d) → u.length ≤ t.length

/-- The laws of the three functions. -/
structure Trimmed (s d : List UInt8) : Prop where
  left : LongestSuffix s d (trimLeft s d)
  right : LongestPrefix s d (trimRight s d)
  right_left : trim s d = trimRight (trimLeft s d) d
  left_right : trim s d = trimLeft (trimRight s d) d
  trimLeft_idem : trimLeft (trimLeft s d) d = trimLeft s d
  trimRight_idem : trimRight (trimRight s d) d = trimRight s d
  trim_idem : trim (trim s d) d = trim s d

variable {s d front back rest : List UInt8} {c : UInt8}

/-! ## The places that the searches find -/

/-- The first byte that is not to be trimmed. -/
theorem findFirstNotOf_split (hfront : ∀ x ∈ front, x ∈ d) (hc : c ∉ d) :
    findFirstNotOf (front ++ c :: rest) d = some front.length := by
  unfold findFirstNotOf
  induction front with
  | nil => simp [List.findIdx?_cons, hc]
  | cons x front ih =>
    have hx : x ∈ d := hfront x (by simp)
    have hfront' : ∀ y ∈ front, y ∈ d := fun y hy => hfront y (by simp [hy])
    rw [List.cons_append, List.findIdx?_cons, ih hfront']
    simp [hx]

/-- The last byte that is not to be trimmed. -/
theorem findLastNotOf_split (hback : ∀ x ∈ back, x ∈ d) (hc : c ∉ d) :
    findLastNotOf (rest ++ c :: back) d = some rest.length := by
  have hsearch : findFirstNotOf (back.reverse ++ c :: rest.reverse) d =
      some back.reverse.length :=
    findFirstNotOf_split (by simpa using hback) hc
  unfold findFirstNotOf at hsearch
  unfold findLastNotOf
  have hreverse : (rest ++ c :: back).reverse = back.reverse ++ c :: rest.reverse := by simp
  rw [hreverse, hsearch, Option.map_some]
  simp only [List.length_append, List.length_cons, List.length_reverse, Option.some.injEq]
  omega

/-- There is no first byte to keep when all are to be trimmed. -/
theorem findFirstNotOf_of_subset (h : ∀ x ∈ s, x ∈ d) : findFirstNotOf s d = none := by
  unfold findFirstNotOf
  rw [List.findIdx?_eq_none_iff]
  simpa using h

/-- There is no last byte to keep when all are to be trimmed. -/
theorem findLastNotOf_of_subset (h : ∀ x ∈ s, x ∈ d) : findLastNotOf s d = none := by
  have hsearch := findFirstNotOf_of_subset (s := s.reverse) (by simpa using h)
  unfold findFirstNotOf at hsearch
  unfold findLastNotOf
  rw [hsearch, Option.map_none]

/-- A string is delimiters only, or has a first character that is none. -/
theorem subset_or_first (s d : List UInt8) : (∀ x ∈ s, x ∈ d) ∨
    ∃ front c rest, s = front ++ c :: rest ∧ (∀ x ∈ front, x ∈ d) ∧ c ∉ d := by
  induction s with
  | nil => exact Or.inl (by simp)
  | cons x s ih =>
    by_cases hx : x ∈ d
    · rcases ih with hall | ⟨front, c, rest, rfl, hfront, hc⟩
      · exact Or.inl (by simpa [hx] using hall)
      · exact Or.inr ⟨x :: front, c, rest, rfl, by simpa [hx] using hfront, hc⟩
    · exact Or.inr ⟨[], x, s, rfl, by simp, hx⟩

/-- A string is delimiters only, or has a last character that is none. -/
theorem subset_or_last (s d : List UInt8) : (∀ x ∈ s, x ∈ d) ∨
    ∃ rest c back, s = rest ++ c :: back ∧ (∀ x ∈ back, x ∈ d) ∧ c ∉ d := by
  rcases subset_or_first s.reverse d with hall | ⟨front, c, rest, hs, hfront, hc⟩
  · exact Or.inl (by simpa using hall)
  · refine Or.inr ⟨rest.reverse, c, front.reverse, ?_, by simpa using hfront, hc⟩
    rw [← List.reverse_reverse s, hs]
    simp

/-! ## What the functions give -/

/-- `TrimLeft` strips the front. -/
theorem trimLeft_eq (s d : List UInt8) : trimLeft s d = s.dropWhile (· ∈ d) := by
  unfold trimLeft
  rcases subset_or_first s d with hall | ⟨front, c, rest, rfl, hfront, hc⟩
  · rw [findFirstNotOf_of_subset hall]
    exact (List.dropWhile_eq_nil_iff.mpr (by simpa using hall)).symm
  · rw [findFirstNotOf_split hfront hc, List.dropWhile_append_of_pos (by simpa using hfront)]
    simp [hc]

/-- What is left when the back is trimmed. -/
theorem rdropWhile_split (hback : ∀ x ∈ back, x ∈ d) (hc : c ∉ d) :
    (rest ++ c :: back).rdropWhile (· ∈ d) = rest ++ [c] := by
  have hreverse : (rest ++ c :: back).reverse = back.reverse ++ c :: rest.reverse := by simp
  unfold List.rdropWhile
  rw [hreverse, List.dropWhile_append_of_pos (by simpa using hback)]
  simp [hc]

/-- `TrimRight` strips the end and the last character that is left. -/
theorem trimRight_eq (s d : List UInt8) :
    trimRight s d = (s.rdropWhile (· ∈ d)).dropLast := by
  unfold trimRight
  rcases subset_or_last s d with hall | ⟨rest, c, back, rfl, hback, hc⟩
  · rw [findLastNotOf_of_subset hall, List.rdropWhile_eq_nil_iff.mpr (by simpa using hall)]
    rfl
  · rw [findLastNotOf_split hback hc, rdropWhile_split hback hc, List.dropLast_concat]
    simp [substr]

/-- `Trim` strips both ends. -/
theorem trim_eq (s d : List UInt8) :
    trim s d = (s.dropWhile (· ∈ d)).rdropWhile (· ∈ d) := by
  rw [← trimLeft_eq]
  unfold trim trimLeft
  rcases subset_or_first s d with hall | ⟨front, c, rest, rfl, hfront, hc⟩
  · rw [findFirstNotOf_of_subset hall]
    rfl
  · rw [findFirstNotOf_split hfront hc]
    rcases subset_or_last rest d with hrest | ⟨middle, e, back, rfl, hback, he⟩
    · -- the first character is the last one as well
      rw [findLastNotOf_split hrest hc]
      have hstrip : ([] ++ c :: rest).rdropWhile (· ∈ d) = [] ++ [c] := rdropWhile_split hrest hc
      simpa [substr] using hstrip.symm
    · have hassoc : front ++ c :: (middle ++ e :: back) = (front ++ c :: middle) ++ e :: back := by
        simp
      have hstrip : ((c :: middle) ++ e :: back).rdropWhile (· ∈ d) = (c :: middle) ++ [e] :=
        rdropWhile_split hback he
      have hlength : (front ++ c :: middle).length - front.length + 1 = middle.length + 2 := by
        simp only [List.length_append, List.length_cons]
        omega
      have hdrop : (front ++ c :: (middle ++ e :: back)).drop front.length =
          (c :: middle) ++ e :: back := by
        simp
      have htake : ((c :: middle) ++ e :: back).take (middle.length + 2) =
          (c :: middle) ++ [e] := by
        simp [List.take_append]
      simp only [substr, hassoc ▸ findLastNotOf_split hback he, hlength, hdrop, htake, hstrip]

/-- The delimiters when none are given: blank, tab and the characters of a line end -/
def defaultDelimit : List UInt8 := [0x20, 0x09, 0x0D, 0x0A]

/-- The names of cookies are trimmed with the default delimiters. -/
theorem trim_default (s : List UInt8) : Http.trim s = trim s defaultDelimit := by
  have hsame : Http.isTrimmed = fun c => decide (c ∈ defaultDelimit) := by
    funext c
    rw [Bool.eq_iff_iff]
    simp [Http.isTrimmed, defaultDelimit, or_assoc]
  rw [trim_eq, Http.trim, hsame]
  rfl

/-! ## The laws -/

/-- Trimming the front leaves the longest suffix. -/
theorem dropWhile_longest (s d : List UInt8) : LongestSuffix s d (s.dropWhile (· ∈ d)) where
  isSuffix := List.dropWhile_suffix _
  head_notMem := by
    intro c hc
    have hnot := List.head?_dropWhile_not (· ∈ d) s
    rw [Option.mem_def.mp hc] at hnot
    simpa using hnot
  longest := by
    intro u hu hhead
    induction s with
    | nil => simp [List.suffix_nil.mp hu]
    | cons x s ih =>
      by_cases hx : x ∈ d
      · rcases List.suffix_cons_iff.mp hu with rfl | hu
        · exact absurd hx (hhead x (by simp))
        · simpa [hx] using ih hu
      · simpa [hx] using hu.length_le

/-- Read from the end, the longest part in front is the longest suffix. -/
theorem longestPrefix_iff {t : List UInt8} :
    LongestPrefix s d t ↔ LongestSuffix s.reverse d t.reverse := by
  constructor
  · intro h
    refine ⟨List.reverse_suffix.mpr h.isPrefix, by simpa using h.last_notMem, ?_⟩
    intro u hu hhead
    have hlength := h.longest u.reverse (by simpa using List.reverse_prefix.mpr hu)
      (by simpa using hhead)
    simpa using hlength
  · intro h
    refine ⟨List.reverse_suffix.mp h.isSuffix, by simpa using h.head_notMem, ?_⟩
    intro u hu hlast
    have hlength := h.longest u.reverse (List.reverse_suffix.mpr hu) (by simpa using hlast)
    simpa using hlength

theorem rdropWhile_longest (s d : List UInt8) : LongestPrefix s d (s.rdropWhile (· ∈ d)) := by
  rw [longestPrefix_iff]
  simpa [List.rdropWhile] using dropWhile_longest s.reverse d

/-- There is one longest part in front. -/
theorem LongestPrefix.unique {t u : List UInt8} (ht : LongestPrefix s d t)
    (hu : LongestPrefix s d u) : t = u := by
  have hlength : t.length = u.length :=
    Nat.le_antisymm (hu.longest t ht.isPrefix ht.last_notMem)
      (ht.longest u hu.isPrefix hu.last_notMem)
  exact (List.prefix_of_prefix_length_le ht.isPrefix hu.isPrefix hlength.le).eq_of_length hlength

/-- `TrimLeft` gives the longest suffix, for every string. -/
theorem trimLeft_longest (s d : List UInt8) : LongestSuffix s d (trimLeft s d) := by
  rw [trimLeft_eq]
  exact dropWhile_longest s d

/-- `TrimRight` gives the longest part in front only where nothing is left of the string. -/
theorem trimRight_longest_iff : LongestPrefix s d (trimRight s d) ↔ ∀ c ∈ s, c ∈ d := by
  rw [trimRight_eq]
  constructor
  · intro h
    have hsame := h.unique (rdropWhile_longest s d)
    have hnil : s.rdropWhile (· ∈ d) = [] := by
      by_contra hne
      have hlength := congrArg List.length hsame
      have hpos := List.length_pos_iff.mpr hne
      rw [List.length_dropLast] at hlength
      omega
    simpa using List.rdropWhile_eq_nil_iff.mp hnil
  · intro hall
    have hnil : s.rdropWhile (· ∈ d) = [] :=
      List.rdropWhile_eq_nil_iff.mpr (by simpa using hall)
    have hlongest := rdropWhile_longest s d
    rw [hnil] at hlongest ⊢
    exact hlongest

theorem trimLeft_idempotent (s d : List UInt8) : trimLeft (trimLeft s d) d = trimLeft s d := by
  simp only [trimLeft_eq]
  exact List.dropWhile_idempotent _ _

/-- What is stripped does not start with a delimiter. -/
theorem trim_head_notMem (s d : List UInt8) : ∀ c ∈ (trim s d).head?, c ∉ d := by
  intro c hc
  have hpart : trim s d <+: s.dropWhile (· ∈ d) := by
    rw [trim_eq]
    exact List.rdropWhile_prefix _ _
  obtain ⟨more, hmore⟩ := hpart
  refine (dropWhile_longest s d).head_notMem c ?_
  rw [← hmore, List.head?_append, Option.mem_def.mp hc]
  rfl

/-- Both ends are trimmed once. -/
theorem trim_idempotent (s d : List UInt8) : trim (trim s d) d = trim s d := by
  have hfront : (trim s d).dropWhile (· ∈ d) = trim s d := by
    have hhead := trim_head_notMem s d
    cases htrim : trim s d with
    | nil => rfl
    | cons c rest =>
      have hc : c ∉ d := hhead c (by simp [htrim])
      simp [hc]
  rw [trim_eq (trim s d), hfront, trim_eq s d]
  exact List.rdropWhile_idempotent _ _

/-- The laws hold exactly of the strings of delimiters. -/
theorem trimmed_iff : Trimmed s d ↔ ∀ c ∈ s, c ∈ d := by
  constructor
  · intro h
    exact trimRight_longest_iff.mp h.right
  · intro hall
    have hleft : trimLeft s d = [] := by
      unfold trimLeft
      rw [findFirstNotOf_of_subset hall]
    have hright : trimRight s d = [] := by
      unfold trimRight
      rw [findLastNotOf_of_subset hall]
    have htrim : trim s d = [] := by
      unfold trim
      rw [findFirstNotOf_of_subset hall]
    exact {
      left := trimLeft_longest s d
      right := trimRight_longest_iff.mpr hall
      right_left := by rw [htrim, hleft]; rfl
      left_right := by rw [htrim, hright]; rfl
      trimLeft_idem := trimLeft_idempotent s d
      trimRight_idem := by rw [hright]; rfl
      trim_idem := trim_idempotent s d }

/-- `TrimRight("ab", " ")` is `"a"`. -/
theorem trimRight_loses : ¬ Trimmed [0x61, 0x62] [0x20] := by
  intro h
  have hlongest := h.right.longest [0x61, 0x62] (List.prefix_refl _) (by simp)
  exact absurd hlongest (by decide)

end Util
end Tiger
