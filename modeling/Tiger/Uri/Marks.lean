import Tiger.Uri.Runs

/-!
# URIs - the mark

All actions of `src/uri.rl` share one pointer, `mark`.  `save_scheme` and `save_port` read from it
without a look whether it is null, and the other saves take it away.  This module says when a list
of actions reads from no null mark, and how the order of their numbers decides it.

Main results:

- Theorem `actions_eq_some`: actions that read from no null mark are performed.
- Theorem `fine_inOrder`: one action needs the mark, and those with smaller numbers set it.
-/

namespace Tiger
namespace Uri

open Lib.Ragel Lib.Ragel.Expr Grammar
open Http (Text text)

/-! ## Reading the mark -/

/-- The action reads from the mark without a look whether it is null. -/
def UriAction.needsMark : UriAction → Bool
  | .saveScheme => true
  | .savePort => true
  | _ => false

/-- The action sets the mark.  All others take it away. -/
def UriAction.setsMark : UriAction → Bool
  | .marku => true
  | .markh => true
  | _ => false

/-- Whether the mark is set behind some actions. -/
def markedAfter : Bool → List UriAction → Bool
  | marked, [] => marked
  | _, a :: as => markedAfter a.setsMark as

/-- No action of the list reads from a null mark. -/
def Fine : Bool → List UriAction → Prop
  | _, [] => True
  | marked, a :: as => (a.needsMark = true → marked = true) ∧ Fine a.setsMark as

variable {s : Text} {p : Nat} {ps : Parser} {a : UriAction} {as xs ys : List UriAction}
    {marked : Bool}

/-- An action with its mark set does not fail. -/
theorem action_eq_some (h : a.needsMark = true → ps.mark.isSome = true) :
    ∃ ps', Parser.action s p ps a = some ps' ∧ ps'.mark = if a.setsMark then some p else none := by
  have hsave : ∀ set, (ps.save s p set).mark = none := by
    intro set
    rw [Parser.save]
    split
    · rfl
    · assumption
  cases a with
  | marku | markh => exact ⟨_, rfl, rfl⟩
  | saveScheme =>
      rcases Option.isSome_iff_exists.mp (h rfl) with ⟨mark, hmark⟩
      simp only [Parser.action, hmark]
      exact ⟨_, rfl, rfl⟩
  | savePort =>
      rcases Option.isSome_iff_exists.mp (h rfl) with ⟨mark, hmark⟩
      simp only [Parser.action, hmark]
      split
      · exact ⟨_, rfl, rfl⟩
      · exact ⟨_, rfl, rfl⟩
  | saveUser | saveHost | savePath | saveQuery | saveFragment => exact ⟨_, rfl, hsave _⟩

/-- Actions that read from no null mark are performed. -/
theorem actions_eq_some (h : Fine ps.mark.isSome as) (hle : ∀ k, ps.mark = some k → k ≤ p) :
    ∃ ps', Parser.actions s p as ps = some ps' ∧ ps'.mark.isSome = markedAfter ps.mark.isSome as ∧
      ∀ k, ps'.mark = some k → k ≤ p := by
  induction as generalizing ps with
  | nil => exact ⟨ps, rfl, rfl, hle⟩
  | cons a as ih =>
      rcases @action_eq_some s p ps a h.1 with ⟨ps₁, hact, hmark⟩
      have hset : ps₁.mark.isSome = a.setsMark := by
        rw [hmark]
        cases a.setsMark <;> rfl
      have hle₁ : ∀ k, ps₁.mark = some k → k ≤ p := by
        intro k hk
        rw [hmark] at hk
        split at hk
        · exact (Option.some.inj hk).ge
        · cases hk
      rcases ih (hset ▸ h.2) hle₁ with ⟨ps', hacts, hmarks, hle'⟩
      refine ⟨ps', ?_, ?_, hle'⟩
      · rw [actions_cons hact, hacts]
      · rw [hmarks, hset, markedAfter]

/-- In front of an action that needs the mark it is set. -/
theorem Fine.at (h : Fine marked (xs ++ a :: ys)) :
    Fine marked xs ∧ (a.needsMark = true → markedAfter marked xs = true) := by
  induction xs generalizing marked with
  | nil => exact ⟨trivial, h.1⟩
  | cons b xs ih => exact ⟨⟨h.1, (ih h.2).1⟩, (ih h.2).2⟩

/-- Actions that set the mark leave it set. -/
theorem markedAfter_of_all (h : ∀ x ∈ as, x.setsMark = true) (hne : marked = true ∨ as ≠ []) :
    markedAfter marked as = true := by
  induction as generalizing marked with
  | nil => exact hne.resolve_right (fun h => h rfl)
  | cons a as ih =>
      exact ih (fun x hx => h x (List.mem_cons_of_mem a hx)) (.inl (h a List.mem_cons_self))

/-- The only actions in front of one that needs the mark set it. -/
theorem fine_of_split (h : ∀ xs a ys, as = xs ++ a :: ys → a.needsMark = true →
    (marked = true ∨ xs ≠ []) ∧ ∀ x ∈ xs, x.setsMark = true) : Fine marked as := by
  induction as generalizing marked with
  | nil => trivial
  | cons a as ih =>
      refine ⟨fun hneeds => (h [] a as rfl hneeds).1.resolve_right (fun hne => hne rfl), ih ?_⟩
      rintro xs b ys rfl hneeds
      have hsplit := h (a :: xs) b ys rfl hneeds
      exact ⟨.inl (hsplit.2 a List.mem_cons_self), fun x hx =>
        hsplit.2 x (List.mem_cons_of_mem a hx)⟩

/-! ## Actions in order -/

variable {l later acts : List (Nat × UriAction)} {k : Nat}

/-- None of the actions needs the mark. -/
def Free (l : List (Nat × UriAction)) : Prop := ∀ q ∈ l, q.2.needsMark = false

/-- Actions that need no mark are fine in any order. -/
theorem Free.fine (h : Free l) : Fine marked (inOrder l) := by
  apply fine_of_split
  intro xs a ys hsplit hneeds
  have hmem : a ∈ inOrder l := by
    rw [hsplit]
    exact List.mem_append_right xs List.mem_cons_self
  rcases mem_inOrder hmem with ⟨j, hj⟩
  exact absurd hneeds (by rw [h _ hj]; decide)

/-- One action needs the mark; those with smaller numbers set it, or it is set before. -/
theorem fine_inOrder (hneeds : ∀ q ∈ l, q.2.needsMark = true → q = (k, a))
    (hbefore : ∀ q ∈ l, q.1 ≤ k → q = (k, a) ∨ q.1 < k ∧ q.2.setsMark = true)
    (hmark : (k, a) ∈ l → marked = true ∨ ∃ q ∈ l, q.1 < k) : Fine marked (inOrder l) := by
  apply fine_of_split
  intro xs b ys hsplit hb
  have hpairwise := inOrder_pairwise l
  rw [hsplit, List.pairwise_append, List.pairwise_cons] at hpairwise
  have hmem : b ∈ inOrder l := by
    rw [hsplit]
    exact List.mem_append_right xs List.mem_cons_self
  rcases mem_inOrder hmem with ⟨j, hj⟩
  obtain ⟨rfl, rfl⟩ : j = k ∧ b = a := Prod.mk.inj (hneeds _ hj hb)
  refine ⟨?_, ?_⟩
  · rcases hmark hj with hmarked | ⟨q, hq, hlt⟩
    · exact .inl hmarked
    · -- the action with the smaller number is neither this one nor behind it
      refine .inr ?_
      rintro rfl
      have hqmem := mem_inOrder_of_mem hq
      rw [hsplit, List.nil_append] at hqmem
      rcases List.mem_cons.mp hqmem with hqb | hqys
      · have heq := hneeds q hq (hqb ▸ hb)
        rw [heq] at hlt
        exact lt_irrefl _ hlt
      · rcases hpairwise.2.1.1 q.2 hqys with ⟨-, i, hi, hmin⟩
        obtain ⟨rfl, -⟩ : i = j ∧ b = b := Prod.mk.inj (hneeds _ hi hb)
        exact absurd (hmin q.1 hq) (Nat.not_le.mpr hlt)
  · intro x hx
    rcases hpairwise.2.2 x hx b List.mem_cons_self with ⟨hne, i, hi, hmin⟩
    rcases hbefore _ hi (hmin j hj) with heq | ⟨-, hset⟩
    · exact absurd (Prod.mk.inj heq).2 hne
    · exact hset

end Uri
end Tiger
