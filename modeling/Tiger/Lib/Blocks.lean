import Mathlib.Tactic

/-!
# Blocks that are filled one after the other

A sequence that grows at its end is kept in blocks of `cap` elements.  A piece goes into the rest
of the last block; a new block is begun when there is none or the last one is full.  A piece is
never longer than the room for it.

Main results:

- Theorem `packed_concat_iff`: what the last block and the blocks in front of it are.
- Theorem `current_spec`: the blocks in front of the current one are full, and nothing is lost.
- Theorems `packed_store`, `flatten_store`: a piece keeps the blocks packed and is put at the end.
-/

namespace Tiger
namespace Lib
namespace Blocks

variable {α : Type} {cap : Nat} {blocks front : List (List α)} {back piece : List α}

/-- All blocks but the last are full, and no block holds more than `cap` elements. -/
structure Packed (cap : Nat) (blocks : List (List α)) : Prop where
  full : ∀ b ∈ blocks.dropLast, b.length = cap
  fits : ∀ b ∈ blocks, b.length ≤ cap

theorem packed_nil : Packed cap ([] : List (List α)) := ⟨by simp, by simp⟩

/-- Blocks with a last one are packed when the others are full and the last one is not overfull. -/
theorem packed_concat_iff :
    Packed cap (front ++ [back]) ↔ (∀ b ∈ front, b.length = cap) ∧ back.length ≤ cap := by
  constructor
  · intro h
    refine ⟨fun b hb => h.full b ?_, h.fits back (by simp)⟩
    rwa [List.dropLast_concat]
  · rintro ⟨hfront, hback⟩
    refine ⟨fun b hb => hfront b ?_, fun b hb => ?_⟩
    · rwa [List.dropLast_concat] at hb
    · rcases List.mem_append.mp hb with hb | hb
      · exact (hfront b hb).le
      · rwa [List.mem_singleton.mp hb]

/-- The block that the next piece goes into, and the blocks in front of it. -/
def current (cap : Nat) (blocks : List (List α)) : List (List α) × List α :=
  match blocks.getLast? with
  | none => ([], [])
  | some back => if back.length = cap then (blocks, []) else (blocks.dropLast, back)

theorem current_nil : current cap ([] : List (List α)) = ([], []) := rfl

theorem current_concat_full (hback : back.length = cap) :
    current cap (front ++ [back]) = (front ++ [back], []) := by
  simp [current, hback]

theorem current_concat_room (hback : back.length ≠ cap) :
    current cap (front ++ [back]) = (front, back) := by
  simp [current, hback]

/-- The blocks in front of the current one are full, and no element is lost. -/
theorem current_spec (h : Packed cap blocks) :
    (∀ b ∈ (current cap blocks).1, b.length = cap) ∧ (current cap blocks).2.length ≤ cap ∧
      ((current cap blocks).1 ++ [(current cap blocks).2]).flatten =
        blocks.flatten := by
  rcases List.eq_nil_or_concat' blocks with rfl | ⟨front, back, rfl⟩
  · exact ⟨by simp [current_nil], Nat.zero_le cap, by simp [current_nil]⟩
  · obtain ⟨hfront, hback⟩ := packed_concat_iff.mp h
    by_cases hfull : back.length = cap
    · rw [current_concat_full hfull]
      refine ⟨fun b hb => ?_, Nat.zero_le cap, by simp⟩
      rcases List.mem_append.mp hb with hb | hb
      · exact hfront b hb
      · rwa [List.mem_singleton.mp hb]
    · rw [current_concat_room hfull]
      exact ⟨hfront, hback, rfl⟩

/-- A piece goes into the current block. -/
def store (cap : Nat) (blocks : List (List α)) (piece : List α) : List (List α) :=
  (current cap blocks).1 ++ [(current cap blocks).2 ++ piece]

/-- Storing a piece that fits into the current block keeps the blocks packed. -/
theorem packed_store (h : Packed cap blocks)
    (hpiece : piece.length ≤ cap - (current cap blocks).2.length) :
    Packed cap (store cap blocks piece) := by
  obtain ⟨hfront, hroom, -⟩ := current_spec h
  refine packed_concat_iff.mpr ⟨hfront, ?_⟩
  rw [List.length_append]
  omega

/-- Storing puts the bytes of the piece behind all others. -/
theorem flatten_store (h : Packed cap blocks) (piece : List α) :
    (store cap blocks piece).flatten = blocks.flatten ++ piece := by
  obtain ⟨-, -, hflatten⟩ := current_spec h
  rw [← hflatten]
  simp [store]

end Blocks
end Lib
end Tiger
