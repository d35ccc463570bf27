import Mathlib.Data.List.Perm.Basic
import Mathlib.Data.List.Range
import Mathlib.Tactic

/-!
# Tickets

Things that wait and are served, each with the number of its arrival.  Some
arrive together and go to the end of those that wait; one is served from any
place.  Nothing is lost or served twice, and those that wait stand in the order
of their arrival.

Main results:

- Theorem `countP_eraseIdx`: how a number changes when one is served.
- Theorem `Accounted.issue`: arrivals keep the account.
- Theorem `Accounted.serve`: serving keeps the account.
-/

namespace Tiger
namespace Lib

/-- One of those that wait is served. -/
theorem countP_eraseIdx {α : Type} (p : α → Bool) {l : List α} {i : Nat} {a : α}
    (h : l[i]? = some a) : (l.eraseIdx i).countP p + (p a).toNat = l.countP p := by
  rcases List.getElem?_eq_some_iff.mp h with ⟨hi, rfl⟩
  have hperm := (List.getElem_cons_eraseIdx_perm hi).countP_eq p
  rw [← hperm, List.countP_cons]
  cases p l[i] <;> rfl

/-- Of the tickets below `next` each one waits or has been served, once, and those
that wait stand in order. -/
structure Accounted (next : Nat) (waiting served : List Nat) : Prop where
  perm : (waiting ++ served).Perm (List.range next)
  sorted : waiting.Pairwise (· < ·)

namespace Accounted

variable {next : Nat} {waiting served : List Nat}

theorem start (n : Nat) : Accounted n (List.range n) [] where
  perm := by rw [List.append_nil]
  sorted := List.pairwise_lt_range

theorem lt_next (h : Accounted next waiting served) {j : Nat} (hj : j ∈ waiting) : j < next := by
  have hmem : j ∈ List.range next := h.perm.mem_iff.mp (List.mem_append_left _ hj)
  exact List.mem_range.mp hmem

/-- A ticket that was served was handed out. -/
theorem served_lt_next (h : Accounted next waiting served) {j : Nat} (hj : j ∈ served) :
    j < next := by
  have hmem : j ∈ List.range next := h.perm.mem_iff.mp (List.mem_append_right _ hj)
  exact List.mem_range.mp hmem

/-- Arrivals keep the account. -/
theorem issue (h : Accounted next waiting served) (k : Nat) :
    Accounted (next + k) (waiting ++ List.range' next k) served where
  perm := by
    have hrange : List.range (next + k) = List.range next ++ List.range' next k := by
      rw [List.range_eq_range', List.range_eq_range', ← List.range'_append_1, Nat.zero_add]
    rw [hrange, List.append_assoc]
    calc
      (waiting ++ (List.range' next k ++ served)).Perm
          (waiting ++ (served ++ List.range' next k)) :=
        (List.perm_append_comm).append_left waiting
      _ = waiting ++ served ++ List.range' next k := (List.append_assoc _ _ _).symm
      (waiting ++ served ++ List.range' next k).Perm _ := h.perm.append_right _
  sorted := by
    rw [List.pairwise_append]
    refine ⟨h.sorted, List.pairwise_lt_range', ?_⟩
    intro a ha b hb
    have hle : next ≤ b := (List.mem_range'_1.mp hb).1
    exact Nat.lt_of_lt_of_le (h.lt_next ha) hle

/-- Serving keeps the account. -/
theorem serve (h : Accounted next waiting served) {i j : Nat} (hj : waiting[i]? = some j) :
    Accounted next (waiting.eraseIdx i) (served ++ [j]) where
  perm := by
    have hmove : waiting.Perm (j :: waiting.eraseIdx i) := by
      rcases List.getElem?_eq_some_iff.mp hj with ⟨hi, rfl⟩
      exact (List.getElem_cons_eraseIdx_perm hi).symm
    calc
      (waiting.eraseIdx i ++ (served ++ [j])).Perm (waiting.eraseIdx i ++ (j :: served)) :=
        (List.perm_append_comm).append_left _
      (waiting.eraseIdx i ++ (j :: served)).Perm (j :: (waiting.eraseIdx i ++ served)) :=
        List.perm_middle
      (j :: (waiting.eraseIdx i ++ served)).Perm (waiting ++ served) :=
        (hmove.append_right served).symm
      (waiting ++ served).Perm _ := h.perm
  sorted := h.sorted.sublist (List.eraseIdx_sublist _ _)

/-- What waits in front of a place has a smaller number, and nothing else does. -/
theorem lt_iff (h : Accounted next waiting served) {i k a b : Nat} (ha : waiting[i]? = some a)
    (hb : waiting[k]? = some b) : a < b ↔ i < k := by
  rcases List.getElem?_eq_some_iff.mp ha with ⟨hi, rfl⟩
  rcases List.getElem?_eq_some_iff.mp hb with ⟨hk, rfl⟩
  have hmono := List.pairwise_iff_getElem.mp h.sorted
  constructor
  · intro hlt
    by_contra hge
    rcases Nat.lt_or_eq_of_le (Nat.le_of_not_lt hge) with hki | rfl
    · exact absurd hlt (Nat.not_lt_of_lt (hmono k i hk hi hki))
    · exact absurd hlt (Nat.lt_irrefl _)
  · intro hik
    exact hmono i k hi hk hik

/-- Each ticket waits once or has been served once. -/
theorem count_add (h : Accounted next waiting served) {k : Nat} (hk : k < next) :
    waiting.count k + served.count k = 1 := by
  rw [← List.count_append, h.perm.count_eq]
  exact List.count_eq_one_of_mem List.nodup_range (List.mem_range.mpr hk)

end Accounted

end Lib
end Tiger
