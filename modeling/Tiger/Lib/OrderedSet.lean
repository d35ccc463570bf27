import Mathlib.Order.RelClasses
import Mathlib.Data.List.Pairwise

/-!
# Ordered sets with a comparator

`std::set` keeps its elements in the order of a comparator, and it looks an element up by
comparing on the way.  The set is modelled by the list of its elements in their order; the
operations compare as the tree does and stop at the first element that is not in front of
the key.  The comparator may read memory that changes, so every fact here says under which
relation the list is ordered.

Main results:

- Theorem `find_isSome_iff`: in an ordered list the lookup finds exactly the members.
- Theorems `insert_ordered`, `mem_insert`: insertion keeps the order and adds the key.
- Theorems `erase_ordered`, `mem_erase`: erasing keeps the order and removes the key.
- Theorem `mem_takeWhile_iff`: a scan from the front that stops finds all there is to find.
-/

namespace Tiger
namespace Lib
namespace OrderedSet

variable {α : Type}

/-- Look for a key: `before x` says that the comparator puts `x` in front of the key, `after x`
that it puts the key in front of `x`. -/
def find (before after : α → Bool) : List α → Option α
  | [] => none
  | x :: xs => if before x then find before after xs else if after x then none else some x

/-- A key behind every element is not found. -/
theorem find_eq_none_of_before {before after : α → Bool} {xs : List α}
    (hbefore : ∀ x ∈ xs, before x = true) : find before after xs = none := by
  induction xs with
  | nil => rfl
  | cons x xs ih =>
      rw [find, if_pos (hbefore x List.mem_cons_self)]
      exact ih fun y hy => hbefore y (List.mem_cons_of_mem x hy)

section Operations

variable (lt : α → α → Prop) [DecidableRel lt]

/-- Insert a key unless an equivalent one is there. -/
def insert (k : α) : List α → List α
  | [] => [k]
  | x :: xs => if lt x k then x :: insert k xs else if lt k x then k :: x :: xs else x :: xs

/-- Erase the element that is equivalent to the key. -/
def erase (k : α) : List α → List α
  | [] => []
  | x :: xs => if lt x k then x :: erase k xs else if lt k x then x :: xs else xs

/-- The list is strictly ordered. -/
abbrev Ordered (xs : List α) : Prop := xs.Pairwise lt

end Operations

section Facts

variable {lt : α → α → Prop} {xs : List α} {k : α}

/-- The order only depends on how the members compare. -/
theorem Ordered.congr {lt' : α → α → Prop} (hxs : Ordered lt xs)
    (hsame : ∀ x ∈ xs, ∀ y ∈ xs, (lt x y ↔ lt' x y)) : Ordered lt' xs :=
  hxs.imp_of_mem fun hx hy hlt => (hsame _ hx _ hy).mp hlt

/-- A scan from the front that stops at the first element outside of a class that is closed
towards the front finds the whole class. -/
theorem mem_takeWhile_iff {p : α → Bool} (hxs : Ordered lt xs)
    (hclosed : ∀ x y, lt x y → p y = true → p x = true) (x : α) :
    x ∈ xs.takeWhile p ↔ x ∈ xs ∧ p x = true := by
  induction xs with
  | nil => simp
  | cons y ys ih =>
      rcases List.pairwise_cons.mp hxs with ⟨hfirst, hrest⟩
      rw [List.takeWhile_cons]
      split
      · rename_i hy
        rw [List.mem_cons, List.mem_cons, ih hrest]
        constructor
        · rintro (rfl | ⟨hmem, hx⟩)
          · exact ⟨Or.inl rfl, hy⟩
          · exact ⟨Or.inr hmem, hx⟩
        · rintro ⟨rfl | hmem, hx⟩
          · exact Or.inl rfl
          · exact Or.inr ⟨hmem, hx⟩
      · rename_i hy
        constructor
        · intro hmem
          exact absurd hmem List.not_mem_nil
        · rintro ⟨hmem, hx⟩
          rcases List.mem_cons.mp hmem with rfl | hmem
          · exact absurd hx hy
          · exact absurd (hclosed y x (hfirst x hmem) hx) hy

variable [IsStrictTotalOrder α lt]

/-- No element stands twice in an ordered list. -/
theorem Ordered.nodup (hxs : Ordered lt xs) : xs.Nodup := by
  apply List.Pairwise.imp _ hxs
  rintro x y hlt rfl
  exact irrefl_of lt x hlt

/-- Elements that the comparator does not separate are equal. -/
theorem eq_of_not_lt {x y : α} (hxy : ¬lt x y) (hyx : ¬lt y x) : x = y := by
  rcases trichotomous_of lt x y with h | h | h
  · exact absurd h hxy
  · exact h
  · exact absurd h hyx

variable [DecidableRel lt]

/-- In an ordered list the lookup finds exactly the members. -/
theorem find_isSome_iff (hxs : Ordered lt xs) :
    (find (fun x => decide (lt x k)) (fun x => decide (lt k x)) xs).isSome = true ↔ k ∈ xs := by
  induction xs with
  | nil => simp [find]
  | cons x xs ih =>
      rcases List.pairwise_cons.mp hxs with ⟨hfirst, hrest⟩
      rw [find, List.mem_cons]
      by_cases hxk : lt x k
      · rw [if_pos (decide_eq_true hxk), ih hrest]
        constructor
        · exact Or.inr
        · rintro (rfl | hmem)
          · exact absurd hxk (irrefl_of lt k)
          · exact hmem
      · rw [if_neg (by simpa using hxk)]
        by_cases hkx : lt k x
        · -- the key would stand in front of `x`, so it cannot be behind it
          rw [if_pos (decide_eq_true hkx)]
          constructor
          · intro h
            exact absurd h (by simp)
          · rintro (rfl | hmem)
            · exact absurd hkx (irrefl_of lt k)
            · exact absurd (hfirst k hmem) hxk
        · rw [if_neg (by simpa using hkx), eq_of_not_lt hxk hkx]
          simp

/-- What the lookup finds is the key itself. -/
theorem find_eq_self (hxs : Ordered lt xs) (hk : k ∈ xs) :
    find (fun x => decide (lt x k)) (fun x => decide (lt k x)) xs = some k := by
  induction xs with
  | nil => exact absurd hk List.not_mem_nil
  | cons x xs ih =>
      rcases List.pairwise_cons.mp hxs with ⟨hfirst, hrest⟩
      rw [find]
      rcases List.mem_cons.mp hk with rfl | hmem
      · have hirrefl := irrefl_of lt k
        rw [if_neg (by simpa using hirrefl), if_neg (by simpa using hirrefl)]
      · rw [if_pos (decide_eq_true (hfirst k hmem))]
        exact ih hrest hmem

/-- The members behind an insertion are the new one and those there were. -/
theorem mem_insert (y : α) : y ∈ insert lt k xs ↔ y = k ∨ y ∈ xs := by
  induction xs with
  | nil => simp [insert]
  | cons x xs ih =>
      rw [insert]
      split_ifs with hxk hkx
      · rw [List.mem_cons, ih, List.mem_cons]
        exact or_left_comm
      · exact List.mem_cons
      · rw [eq_of_not_lt hxk hkx, List.mem_cons]
        simp

/-- Inserting keeps the order. -/
theorem insert_ordered (hxs : Ordered lt xs) : Ordered lt (insert lt k xs) := by
  induction xs with
  | nil => exact List.pairwise_singleton lt k
  | cons x xs ih =>
      rcases List.pairwise_cons.mp hxs with ⟨hfirst, hrest⟩
      rw [insert]
      split_ifs with hxk hkx
      · apply List.pairwise_cons.mpr
        refine ⟨?_, ih hrest⟩
        intro y hy
        rcases (mem_insert y).mp hy with rfl | hy
        · exact hxk
        · exact hfirst y hy
      · apply List.pairwise_cons.mpr
        refine ⟨?_, hxs⟩
        intro y hy
        rcases List.mem_cons.mp hy with rfl | hy
        · exact hkx
        · exact trans_of lt hkx (hfirst y hy)
      · exact hxs

omit [IsStrictTotalOrder α lt] in
/-- Erasing leaves a sublist. -/
theorem erase_sublist : (erase lt k xs).Sublist xs := by
  induction xs with
  | nil => exact List.Sublist.refl []
  | cons x xs ih =>
      rw [erase]
      split_ifs
      · exact ih.cons_cons x
      · exact List.Sublist.refl _
      · exact List.sublist_cons_self x xs

omit [IsStrictTotalOrder α lt] in
theorem erase_ordered (hxs : Ordered lt xs) : Ordered lt (erase lt k xs) :=
  hxs.sublist erase_sublist

/-- The members behind an erasure are all but the erased one. -/
theorem mem_erase (hxs : Ordered lt xs) (y : α) : y ∈ erase lt k xs ↔ y ∈ xs ∧ y ≠ k := by
  induction xs with
  | nil => simp [erase]
  | cons x xs ih =>
      rcases List.pairwise_cons.mp hxs with ⟨hfirst, hrest⟩
      rw [erase]
      by_cases hxk : lt x k
      · have hne : x ≠ k := fun heq => irrefl_of lt k (heq ▸ hxk)
        rw [if_pos hxk, List.mem_cons, List.mem_cons, ih hrest]
        constructor
        · rintro (rfl | ⟨hmem, hy⟩)
          · exact ⟨Or.inl rfl, hne⟩
          · exact ⟨Or.inr hmem, hy⟩
        · rintro ⟨rfl | hmem, hy⟩
          · exact Or.inl rfl
          · exact Or.inr ⟨hmem, hy⟩
      · rw [if_neg hxk]
        -- what follows `x` is behind the key, so the key is not among it
        have hrestNe : ∀ z ∈ xs, z ≠ k := fun z hz heq => hxk (heq ▸ hfirst z hz)
        by_cases hkx : lt k x
        · have hne : x ≠ k := fun heq => irrefl_of lt k (heq ▸ hkx)
          rw [if_pos hkx]
          constructor
          · intro hmem
            rcases List.mem_cons.mp hmem with rfl | hy
            · exact ⟨hmem, hne⟩
            · exact ⟨hmem, hrestNe y hy⟩
          · exact And.left
        · rw [if_neg hkx, List.mem_cons, eq_of_not_lt hxk hkx]
          constructor
          · intro hmem
            exact ⟨Or.inr hmem, hrestNe y hmem⟩
          · rintro ⟨rfl | hmem, hy⟩
            · exact absurd rfl hy
            · exact hmem

end Facts

end OrderedSet
end Lib
end Tiger
