import Mathlib.Logic.Basic

/-!
# Loops that may not end

A loop is a body that either goes on with a new state or leaves with a result.  Running it
for a number of rounds may not be enough; it returns if some number of rounds is.

Main results:

- Theorems `exits_of_leave`, `exits_iff_of_next`: one round of a loop.
- Theorem `not_exits_of_stuck`: a round that changes nothing is never left.
-/

namespace Tiger
namespace Lib

variable {State Result : Type}

/-- The first rounds of a loop; `none` if it is still running. -/
def loop (body : State → State ⊕ Result) : Nat → State → Option Result
  | 0, _ => none
  | n + 1, s =>
      match body s with
      | .inl s' => loop body n s'
      | .inr r => some r

/-- The loop is left with this result after some number of rounds. -/
def Exits (body : State → State ⊕ Result) (s : State) (r : Result) : Prop :=
  ∃ n, loop body n s = some r

variable {body : State → State ⊕ Result} {s s' : State} {r r' : Result}

/-- A loop whose body leaves has the result of the body. -/
theorem exits_of_leave (hbody : body s = .inr r) : Exits body s r' ↔ r = r' := by
  constructor
  · rintro ⟨n, hn⟩
    cases n with
    | zero => exact absurd hn (by simp [loop])
    | succ n =>
        rw [loop, hbody] at hn
        exact Option.some.inj hn
  · rintro rfl
    exact ⟨1, by rw [loop, hbody]⟩

/-- A loop whose body goes on has the result of the loop from the next state. -/
theorem exits_iff_of_next (hbody : body s = .inl s') : Exits body s r ↔ Exits body s' r := by
  constructor
  · rintro ⟨n, hn⟩
    cases n with
    | zero => exact absurd hn (by simp [loop])
    | succ n =>
        rw [loop, hbody] at hn
        exact ⟨n, hn⟩
  · rintro ⟨n, hn⟩
    exact ⟨n + 1, by rw [loop, hbody]; exact hn⟩

/-- A round that ends in the state it began in is repeated for ever. -/
theorem not_exits_of_stuck (hbody : body s = .inl s) : ¬Exits body s r := by
  rintro ⟨n, hn⟩
  induction n with
  | zero => exact absurd hn (by simp [loop])
  | succ n ih =>
      rw [loop, hbody] at hn
      exact ih hn

end Lib
end Tiger
