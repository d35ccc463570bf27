import Mathlib

/-!
# Multimaps

`std::multimap` keeps its entries in the order of their keys, and entries with the same key in the
order in which they were inserted.  It is modelled by the list of its entries.

Main results:

- Theorem `insert_ordered`: insertion keeps the order.
- Theorem `equalRange_eq_filter`: in an ordered list the range of a key has all of its entries.
- Theorem `equalRange_insertAll`: they stand in the order in which they were inserted.
-/

namespace Tiger
namespace Lib
namespace Multimap

variable {κ α : Type} [LinearOrder κ]

/-- Insert an entry in front of the first one with a greater key. -/
def insert (e : κ × α) : List (κ × α) → List (κ × α)
  | [] => [e]
  | x :: xs => if e.1 < x.1 then e :: x :: xs else x :: insert e xs

/-- Insert entries one after the other. -/
def insertAll (es xs : List (κ × α)) : List (κ × α) := es.foldl (fun xs e => insert e xs) xs

/-- `equal_range(k)`, from the first key that is not less to the first one that is greater. -/
def equalRange (k : κ) (xs : List (κ × α)) : List (κ × α) :=
  (xs.dropWhile fun x => decide (x.1 < k)).takeWhile fun x => !decide (k < x.1)

/-- The entries are in the order of their keys. -/
abbrev Ordered (xs : List (κ × α)) : Prop := xs.Pairwise fun x y => x.1 ≤ y.1

variable {k : κ} {e x : κ × α} {xs : List (κ × α)}

/-- The entries behind an insertion are the new one and those there were. -/
theorem mem_insert : x ∈ insert e xs ↔ x = e ∨ x ∈ xs := by
  induction xs with
  | nil => simp [insert]
  | cons y ys ih =>
      rw [insert]
      split_ifs with hlt
      · simp
      · simp only [List.mem_cons, ih]
        exact or_left_comm

/-- Inserting keeps the order. -/
theorem insert_ordered (h : Ordered xs) : Ordered (insert e xs) := by
  induction xs with
  | nil => exact List.pairwise_singleton _ e
  | cons y ys ih =>
      obtain ⟨hfirst, hrest⟩ := List.pairwise_cons.mp h
      rw [insert]
      split_ifs with hlt
      · apply List.pairwise_cons.mpr ⟨_, h⟩
        intro z hz
        rcases List.mem_cons.mp hz with rfl | hz
        · exact hlt.le
        · exact hlt.le.trans (hfirst z hz)
      · apply List.pairwise_cons.mpr ⟨_, ih hrest⟩
        intro z hz
        rcases mem_insert.mp hz with rfl | hz
        · exact not_lt.mp hlt
        · exact hfirst z hz

/-- An entry comes behind those that have its key. -/
theorem filter_insert (h : Ordered xs) (k : κ) :
    (insert e xs).filter (fun x => decide (x.1 = k)) =
      xs.filter (fun x => decide (x.1 = k)) ++ [e].filter fun x => decide (x.1 = k) := by
  induction xs with
  | nil => rfl
  | cons y ys ih =>
      obtain ⟨hfirst, hrest⟩ := List.pairwise_cons.mp h
      rw [insert]
      split_ifs with hlt
      · by_cases hkey : e.1 = k
        · have hnone : (y :: ys).filter (fun x => decide (x.1 = k)) = [] := by
            apply List.filter_eq_nil_iff.mpr
            intro z hz
            have hge : y.1 ≤ z.1 := by
              rcases List.mem_cons.mp hz with rfl | hz
              · exact le_refl _
              · exact hfirst z hz
            have hgt : e.1 < z.1 := hlt.trans_le hge
            simpa [← hkey] using hgt.ne'
          rw [hnone, List.filter_cons_of_pos (by simpa using hkey), hnone,
            List.filter_cons_of_pos (by simpa using hkey)]
          rfl
        · rw [List.filter_cons_of_neg (by simpa using hkey),
            List.filter_cons_of_neg (by simpa using hkey) (l := []), List.filter_nil,
            List.append_nil]
      · rw [List.filter_cons, List.filter_cons, ih hrest]
        split_ifs
        · rfl
        · rfl

/-- Among entries whose keys are not less, those of a key are in front. -/
theorem takeWhile_eq_filter (h : Ordered xs) (hge : ∀ x ∈ xs, k ≤ x.1) :
    xs.takeWhile (fun x => !decide (k < x.1)) = xs.filter fun x => decide (x.1 = k) := by
  induction xs with
  | nil => rfl
  | cons y ys ih =>
      obtain ⟨hfirst, hrest⟩ := List.pairwise_cons.mp h
      by_cases hlt : k < y.1
      · rw [List.takeWhile_cons_of_neg (by simpa using hlt)]
        symm
        apply List.filter_eq_nil_iff.mpr
        intro z hz
        have hle : y.1 ≤ z.1 := by
          rcases List.mem_cons.mp hz with rfl | hz
          · exact le_refl _
          · exact hfirst z hz
        simpa using (hlt.trans_le hle).ne'
      · have heq : y.1 = k := le_antisymm (not_lt.mp hlt) (hge y List.mem_cons_self)
        rw [List.takeWhile_cons_of_pos (by simpa using hlt),
          List.filter_cons_of_pos (by simpa using heq),
          ih hrest fun z hz => hge z (List.mem_cons_of_mem y hz)]

/-- The range of a key has all of its entries, and no others. -/
theorem equalRange_eq_filter (h : Ordered xs) :
    equalRange k xs = xs.filter fun x => decide (x.1 = k) := by
  induction xs with
  | nil => rfl
  | cons y ys ih =>
      obtain ⟨hfirst, hrest⟩ := List.pairwise_cons.mp h
      rw [equalRange]
      by_cases hlt : y.1 < k
      · rw [List.dropWhile_cons_of_pos (by simpa using hlt),
          List.filter_cons_of_neg (by simpa using hlt.ne)]
        exact ih hrest
      · rw [List.dropWhile_cons_of_neg (by simpa using hlt)]
        apply takeWhile_eq_filter h
        intro z hz
        rcases List.mem_cons.mp hz with rfl | hz
        · exact not_lt.mp hlt
        · exact (not_lt.mp hlt).trans (hfirst z hz)

/-- Inserting entries one after the other keeps the order. -/
theorem insertAll_ordered (es : List (κ × α)) (h : Ordered xs) : Ordered (insertAll es xs) := by
  induction es generalizing xs with
  | nil => exact h
  | cons e es ih => exact ih (insert_ordered h)

/-- What is found under a key are the entries that were inserted under it, in their order. -/
theorem equalRange_insertAll (es : List (κ × α)) (h : Ordered xs) :
    equalRange k (insertAll es xs) = equalRange k xs ++ es.filter fun x => decide (x.1 = k) := by
  rw [equalRange_eq_filter (insertAll_ordered es h), equalRange_eq_filter h]
  induction es generalizing xs with
  | nil => simp [insertAll]
  | cons e es ih =>
      have hrest := ih (insert_ordered (e := e) h)
      rw [insertAll, List.foldl_cons, ← insertAll, hrest, filter_insert h, List.append_assoc,
        ← List.filter_append]
      rfl

/-- The entries behind several insertions are the new ones and those there were. -/
theorem mem_insertAll {es : List (κ × α)} : x ∈ insertAll es xs ↔ x ∈ es ∨ x ∈ xs := by
  induction es generalizing xs with
  | nil => simp [insertAll]
  | cons e es ih =>
      rw [insertAll, List.foldl_cons, ← insertAll, ih, mem_insert, List.mem_cons]
      tauto

end Multimap
end Lib
end Tiger
