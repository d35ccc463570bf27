import Mathlib.Order.Lattice

/-!
# Functions with a bound on their rounds

A function that is given a bound on its rounds and returns a bottom value when the bound is used
up.  It is stable if more rounds change no other result, and then it settles: from some bound on
it returns the same.

Main results:

- Theorem `Stable.exists_iff`: what some bound returns is what the function settles at.
- Theorem `Stable.forall_eq_bottom_iff`: no bound is enough exactly if it settles at the bottom
  value.
-/

namespace Tiger
namespace Lib

variable {Result : Type} {f g : Nat → Result} {r r' bottom : Result}

/-- From some bound on, the result is `r`. -/
def Settles (f : Nat → Result) (r : Result) : Prop := ∃ least, ∀ fuel ≥ least, f fuel = r

/-- A function that is constant on positive bounds settles. -/
theorem settles_of_succ_eq (h : ∀ fuel, f (fuel + 1) = r) : Settles f r := by
  refine ⟨1, fun fuel hfuel => ?_⟩
  rw [← Nat.sub_add_cancel hfuel]
  exact h _

/-- The first round of a function that settles. -/
theorem Settles.of_succ (hg : Settles g r) (h : ∀ fuel, f (fuel + 1) = g fuel) : Settles f r := by
  obtain ⟨least, hleast⟩ := hg
  refine ⟨least + 1, fun fuel hfuel => ?_⟩
  rw [← Nat.sub_add_cancel (le_trans (Nat.le_add_left 1 least) hfuel), h]
  exact hleast _ (Nat.le_sub_of_add_le hfuel)

theorem Settles.succ (h : Settles f r) : Settles (fun fuel => f (fuel + 1)) r := by
  obtain ⟨least, hleast⟩ := h
  exact ⟨least, fun fuel hfuel => hleast _ (Nat.le_succ_of_le hfuel)⟩

theorem settles_const (r : Result) : Settles (fun _ => r) r := ⟨0, fun _ _ => rfl⟩

/-- More rounds than `fuel` change no result but `bottom`. -/
def StableAt (bottom : Result) (f : Nat → Result) (fuel : Nat) : Prop :=
  ∀ more, fuel ≤ more → f fuel ≠ bottom → f more = f fuel

theorem stableAt_zero (h : f 0 = bottom) : StableAt bottom f 0 := fun _ _ hne => absurd h hne

theorem stableAt_const (fuel : Nat) : StableAt bottom (fun _ => r) fuel := fun _ _ _ => rfl

/-- Stability behind one round is stability of the rest. -/
theorem stableAt_succ {fuel : Nat} :
    StableAt bottom f (fuel + 1) ↔ StableAt bottom (fun fuel => f (fuel + 1)) fuel := by
  constructor
  · exact fun h more hle hne => h (more + 1) (Nat.succ_le_succ hle) hne
  · intro h more hle hne
    obtain ⟨more, rfl⟩ := Nat.exists_eq_succ_of_ne_zero (Nat.ne_zero_of_lt hle)
    exact h more (Nat.le_of_succ_le_succ hle) hne

/-- More rounds change no result but `bottom`. -/
def Stable (bottom : Result) (f : Nat → Result) : Prop := ∀ fuel, StableAt bottom f fuel

namespace Stable

/-- What a bound returns, if it is not the bottom value, is what the function settles at. -/
theorem eq_of_settles (h : Stable bottom f) (hs : Settles f r) {fuel : Nat}
    (hr' : f fuel = r') (hne : r' ≠ bottom) : r' = r := by
  obtain ⟨least, hleast⟩ := hs
  rw [← hr', ← h fuel _ (Nat.le_max_left fuel least) (hr' ▸ hne)]
  exact hleast _ (Nat.le_max_right _ _)

/-- Two bounds that are enough return the same. -/
theorem unique (h : Stable bottom f) {fuel fuel' : Nat} (hr : f fuel = r) (hr' : f fuel' = r')
    (hne : r ≠ bottom) (hne' : r' ≠ bottom) : r' = r := by
  rw [← hr', ← h fuel' _ (Nat.le_max_right fuel fuel') (hr' ▸ hne'),
    h fuel _ (Nat.le_max_left fuel fuel') (hr ▸ hne), hr]

/-- What some bound returns is what the function settles at. -/
theorem exists_iff (h : Stable bottom f) (hs : Settles f r) {P : Result → Prop}
    (hbottom : ¬ P bottom) : (∃ fuel, P (f fuel)) ↔ P r := by
  constructor
  · rintro ⟨fuel, hfuel⟩
    have hne : f fuel ≠ bottom := fun heq => hbottom (heq ▸ hfuel)
    exact h.eq_of_settles hs rfl hne ▸ hfuel
  · intro hr
    obtain ⟨least, hleast⟩ := hs
    exact ⟨least, by rw [hleast least le_rfl]; exact hr⟩

/-- No bound is enough exactly if the function settles at the bottom value. -/
theorem forall_eq_bottom_iff (h : Stable bottom f) (hs : Settles f r) :
    (∀ fuel, f fuel = bottom) ↔ r = bottom := by
  constructor
  · intro hall
    obtain ⟨least, hleast⟩ := hs
    rw [← hleast least le_rfl, hall]
  · intro hr fuel
    by_contra hf
    exact hf ((h.eq_of_settles hs rfl hf).trans hr)

end Stable

/-! ## One function after the other -/

section Bind

variable {Failure Value Next : Type} {f : Nat → Except Failure Value}
  {k : Nat → Value → Except Failure Next}

/-- An error of the first function is the result of both. -/
theorem Settles.bind_error {e : Failure} (hf : Settles f (.error e)) :
    Settles (fun fuel => (f fuel).bind (k fuel)) (.error e) := by
  obtain ⟨least, hleast⟩ := hf
  refine ⟨least, fun fuel hfuel => ?_⟩
  simp only [hleast fuel hfuel]
  rfl

/-- Behind a value of the first function, the second one gives the result. -/
theorem Settles.bind_ok {a : Value} {r : Except Failure Next} (hf : Settles f (.ok a))
    (hk : Settles (fun fuel => k fuel a) r) : Settles (fun fuel => (f fuel).bind (k fuel)) r := by
  obtain ⟨least, hleast⟩ := hf
  obtain ⟨least', hleast'⟩ := hk
  refine ⟨max least least', fun fuel hfuel => ?_⟩
  simp only [hleast fuel (le_trans (Nat.le_max_left _ _) hfuel)]
  exact hleast' fuel (le_trans (Nat.le_max_right _ _) hfuel)

/-- A function settles at an error that is the result, or at a value behind which `K` holds. -/
def SettlesThen (f : Nat → Except Failure Value) (K : Value → Prop) (r : Except Failure Next) :
    Prop :=
  (∃ e, Settles f (.error e) ∧ r = .error e) ∨ ∃ a, Settles f (.ok a) ∧ K a

/-- One round in front of a function that settles. -/
theorem SettlesThen.of_succ {g : Nat → Except Failure Value} {K : Value → Prop}
    {r : Except Failure Next} (hg : SettlesThen g K r) (h : ∀ fuel, f (fuel + 1) = g fuel) :
    SettlesThen f K r := by
  rcases hg with ⟨e, hg, hr⟩ | ⟨a, hg, ha⟩
  · exact .inl ⟨e, hg.of_succ h, hr⟩
  · exact .inr ⟨a, hg.of_succ h, ha⟩

/-- A function that settles, with one behind it that settles, gives the result of both. -/
theorem SettlesThen.bind {r : Except Failure Next}
    (h : SettlesThen f (fun a => Settles (fun fuel => k fuel a) r) r) :
    Settles (fun fuel => (f fuel).bind (k fuel)) r := by
  rcases h with ⟨e, hf, rfl⟩ | ⟨a, hf, hk⟩
  · exact hf.bind_error
  · exact hf.bind_ok hk

/-- Two stable functions one after the other are stable. -/
theorem StableAt.bind {stuck : Failure} {fuel : Nat} (hf : StableAt (.error stuck) f fuel)
    (hk : ∀ a, StableAt (.error stuck) (fun fuel => k fuel a) fuel) :
    StableAt (.error stuck) (fun fuel => (f fuel).bind (k fuel)) fuel := by
  intro more hle hne
  simp only at hne ⊢
  cases hfirst : f fuel with
  | error e =>
      have hfuel : f fuel ≠ .error stuck := by
        intro heq
        rw [heq] at hne
        exact hne rfl
      rw [hf more hle hfuel, hfirst]
      rfl
  | ok a =>
      rw [hfirst] at hne
      rw [hf more hle (by rw [hfirst]; nofun), hfirst]
      exact hk a more hle hne

end Bind

end Lib
end Tiger
