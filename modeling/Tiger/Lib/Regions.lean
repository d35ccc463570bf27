import Mathlib.Tactic

/-!
# Regions of equally sized blocks

A long sequence is kept in blocks of `base` elements each, and a stretch of it is handed out
as a list of regions, each of them inside of one block.  `Covers` says that such a list is the
stretch, piece by piece and in order.

Main results:

- Theorem `Covers.sum_len`: the regions together are as long as the stretch.
- Theorem `Covers.pairwise_disjoint`: no element belongs to two of them.
- Theorem `Covers.inside`: all of them are inside of blocks that exist.
-/

namespace Tiger
namespace Lib

/-- `len` elements of block `block`, from offset `off` on. -/
structure Region where
  block : Nat
  off : Nat
  len : Nat
deriving DecidableEq, Repr

namespace Region

/-- Where the region starts, counted from the first block on. -/
def start (base : Nat) (r : Region) : Nat := r.block * base + r.off

/-- No element belongs to both regions. -/
def Disjoint (r r' : Region) : Prop :=
  r.block = r'.block → r.off + r.len ≤ r'.off ∨ r'.off + r'.len ≤ r.off

/-- The region is inside of one of `count` blocks. -/
def Inside (base count : Nat) (r : Region) : Prop :=
  r.block < count ∧ r.off + r.len ≤ base

end Region

/-- The regions are the `len` elements from `start` on, in order. -/
inductive Covers (base : Nat) : Nat → Nat → List Region → Prop
  | nil (start : Nat) : Covers base start 0 []
  | cons {r : Region} {rest : List Region} {len : Nat} (hin : r.off + r.len ≤ base)
      (hpos : 0 < r.len) (hrest : Covers base (r.start base + r.len) len rest) :
      Covers base (r.start base) (r.len + len) (r :: rest)

namespace Covers

variable {base start len : Nat} {rs : List Region}

/-- The regions have the length in all. -/
theorem sum_len (h : Covers base start len rs) : (rs.map Region.len).sum = len := by
  induction h with
  | nil start => rfl
  | cons hin hpos hrest ih => rw [List.map_cons, List.sum_cons, ih]

/-- Every region is a part of the stretch. -/
theorem between (h : Covers base start len rs) {r : Region} (hr : r ∈ rs) :
    start ≤ r.start base ∧ r.start base + r.len ≤ start + len := by
  induction h with
  | nil start => exact absurd hr List.not_mem_nil
  | cons hin hpos hrest ih =>
      rcases List.mem_cons.mp hr with rfl | hr
      · omega
      · have hbetween := ih hr
        omega

/-- No two regions overlap. -/
theorem pairwise_disjoint (h : Covers base start len rs) : rs.Pairwise Region.Disjoint := by
  induction h with
  | nil start => exact List.Pairwise.nil
  | @cons r rest len hin hpos hrest ih =>
      refine List.Pairwise.cons ?_ ih
      intro r' hr' hblock
      -- what comes later starts behind the end of the first region
      have hbehind := (hrest.between hr').1
      unfold Region.start at hbehind
      rw [hblock] at hbehind
      left
      omega

/-- The regions lie inside the blocks that cover the range. -/
theorem inside (h : Covers base start len rs) {count : Nat} (hfit : start + len ≤ count * base) :
    ∀ r ∈ rs, r.Inside base count := by
  induction h with
  | nil start => simp
  | @cons r rest len hin hpos hrest ih =>
      intro r' hr'
      rcases List.mem_cons.mp hr' with rfl | hr'
      · refine ⟨?_, hin⟩
        unfold Region.start at hfit
        by_contra hlt
        have hmul := Nat.mul_le_mul_right base (Nat.le_of_not_lt hlt)
        omega
      · exact ih (by omega) r' hr'

end Covers

end Lib
end Tiger
