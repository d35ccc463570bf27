import Mathlib.Data.Fintype.Card
import Mathlib.Data.Fintype.BigOperators
import Mathlib.Logic.Relation

/-!
# Interleaved threads

Threads share a state and take steps one at a time.  This module holds what
proofs about such systems need in general: the invariant rule for runs, and
the number of threads that are at places of a certain kind.

Main results:

- Theorem `invariant_of_run`: what every step preserves holds along every run.
- Theorems `invariant_of_runSteps`, `invariant_of_allMeet`: the same for given steps.
- Theorem `allMeet_iff`: what it is that every step of a run meets its condition.
- Theorem `sum_update`: how a sum over places changes with one of them.
- Theorems `countOf_update`, `countP_set`: how the number of threads changes when one of them
  moves.
-/

namespace Tiger
namespace Lib

/-! ## Runs -/

section Runs

variable {State : Type}

/-- What every step preserves holds along every run. -/
theorem invariant_of_run {Step : State → State → Prop} {Inv : State → Prop}
    (hstep : ∀ s s', Inv s → Step s s' → Inv s') {s s' : State}
    (hrun : Relation.ReflTransGen Step s s') (hinv : Inv s) : Inv s' := by
  induction hrun with
  | refl => exact hinv
  | tail _ hlast ih => exact hstep _ _ ih hlast

variable {Act : Type}

/-- The given steps one after the other; `none` where one of them cannot be taken. -/
def runSteps (step : State → Act → Option State) (s : State) : List Act → Option State
  | [] => some s
  | a :: acts => (step s a).bind fun s' => runSteps step s' acts

/-- Every step of the run meets its condition on the state in front of it. -/
def allMeet (step : State → Act → Option State) (meets : State → Act → Bool) (s : State) :
    List Act → Bool
  | [] => true
  | a :: acts => meets s a && (step s a).all fun s' => allMeet step meets s' acts

/-- What every step that meets its condition preserves holds along runs of such steps. -/
theorem invariant_of_allMeet {step : State → Act → Option State} {meets : State → Act → Bool}
    {Inv : State → Prop}
    (hstep : ∀ s a s', Inv s → meets s a = true → step s a = some s' → Inv s') {acts : List Act}
    {s s' : State} (hmeet : allMeet step meets s acts = true)
    (hrun : runSteps step s acts = some s') (hinv : Inv s) : Inv s' := by
  induction acts generalizing s with
  | nil =>
      cases hrun
      exact hinv
  | cons a acts ih =>
      rcases Option.bind_eq_some_iff.mp hrun with ⟨s₁, hfirst, hrest⟩
      rw [allMeet, hfirst, Bool.and_eq_true] at hmeet
      exact ih hmeet.2 hrest (hstep s a s₁ hinv hmeet.1 hfirst)

/-- What every step preserves holds along every run. -/
theorem invariant_of_runSteps {step : State → Act → Option State} {Inv : State → Prop}
    (hstep : ∀ s a s', Inv s → step s a = some s' → Inv s') {acts : List Act} {s s' : State}
    (hrun : runSteps step s acts = some s') (hinv : Inv s) : Inv s' := by
  induction acts generalizing s with
  | nil =>
      cases hrun
      exact hinv
  | cons a acts ih =>
      rcases Option.bind_eq_some_iff.mp hrun with ⟨s₁, hfirst, hrest⟩
      exact ih hrest (hstep s a s₁ hinv hfirst)

/-- A run goes on where its first part leads. -/
theorem runSteps_append_cons {step : State → Act → Option State} {s s₁ : State} {pre : List Act}
    (hpre : runSteps step s pre = some s₁) (a : Act) (post : List Act) :
    runSteps step s (pre ++ a :: post) =
      (step s₁ a).bind fun s₂ => runSteps step s₂ post := by
  induction pre generalizing s with
  | nil =>
      cases hpre
      rfl
  | cons b pre ih =>
      rcases Option.bind_eq_some_iff.mp hpre with ⟨s₀, hfirst, hrest⟩
      rw [List.cons_append, runSteps, hfirst]
      exact ih hrest

/-- All steps meet their condition when each of them does where the steps before it lead. -/
theorem allMeet_iff {step : State → Act → Option State} {meets : State → Act → Bool}
    {acts : List Act} {s : State} :
    allMeet step meets s acts = true ↔ ∀ pre a post s', acts = pre ++ a :: post →
      runSteps step s pre = some s' → meets s' a = true := by
  induction acts generalizing s with
  | nil => simp [allMeet]
  | cons b acts ih =>
      rw [allMeet, Bool.and_eq_true]
      constructor
      · rintro ⟨hb, hrest⟩ pre a post s' heq hrun
        cases pre with
        | nil =>
            rcases List.cons.inj heq with ⟨rfl, -⟩
            cases hrun
            exact hb
        | cons c pre =>
            rcases List.cons.inj heq with ⟨rfl, hacts⟩
            rcases Option.bind_eq_some_iff.mp hrun with ⟨s₁, hfirst, hpre⟩
            rw [hfirst] at hrest
            exact ih.mp hrest pre a post s' hacts hpre
      · intro h
        refine ⟨h [] b acts s rfl rfl, ?_⟩
        rw [Option.all_eq_true]
        intro s₁ hfirst
        apply ih.mpr
        intro pre a post s' hacts hpre
        apply h (b :: pre) a post s' (by rw [hacts, List.cons_append])
        rw [runSteps, hfirst]
        exact hpre

end Runs

/-! ## Sums over places -/

/-- A sum changes by what it counts at the place that changes. -/
theorem sum_update {ι β : Type} [DecidableEq ι] (places : Finset ι) (weight : β → Nat) (f : ι → β)
    {i : ι} (hi : i ∈ places) (b : β) :
    ∑ j ∈ places, weight (Function.update f i b j) + weight (f i) =
      ∑ j ∈ places, weight (f j) + weight b := by
  have hrest : ∑ j ∈ places.erase i, weight (Function.update f i b j) =
      ∑ j ∈ places.erase i, weight (f j) := by
    apply Finset.sum_congr rfl
    intro j hj
    rw [Function.update_of_ne (Finset.ne_of_mem_erase hj)]
  calc
    ∑ j ∈ places, weight (Function.update f i b j) + weight (f i)
        = weight b + ∑ j ∈ places.erase i, weight (f j) + weight (f i) := by
          rw [← Finset.add_sum_erase places _ hi, hrest, Function.update_self]
    _ = weight (f i) + ∑ j ∈ places.erase i, weight (f j) + weight b := by omega
    _ = ∑ j ∈ places, weight (f j) + weight b := by
          rw [Finset.add_sum_erase places (fun j => weight (f j)) hi]

/-! ## Counting threads -/

section Count

variable {ι Local : Type} [Fintype ι]

/-- The number of threads at a place that satisfies `p`. -/
def countOf (p : Local → Bool) (threads : ι → Local) : Nat :=
  ∑ i, (p (threads i)).toNat

/-- The count is zero exactly if no thread has the property. -/
theorem countOf_eq_zero {p : Local → Bool} {threads : ι → Local} :
    countOf p threads = 0 ↔ ∀ i, p (threads i) = false := by
  rw [countOf, Finset.sum_eq_zero_iff]
  constructor
  · intro h i
    have hi := h i (Finset.mem_univ i)
    cases hp : p (threads i) with
    | false => rfl
    | true => simp [hp] at hi
  · intro h i _
    rw [h i]
    rfl

/-- One thread moves. -/
theorem countOf_update [DecidableEq ι] (p : Local → Bool) (threads : ι → Local) (i : ι)
    (l : Local) :
    countOf p (Function.update threads i l) + (p (threads i)).toNat =
      countOf p threads + (p l).toNat :=
  sum_update Finset.univ (fun l => (p l).toNat) threads (Finset.mem_univ i) l

/-- One thread of a list of threads moves. -/
theorem countP_set (p : Local → Bool) {threads : List Local} {i : Nat} {old : Local}
    (hold : threads[i]? = some old) (l : Local) :
    (threads.set i l).countP p + (p old).toNat = threads.countP p + (p l).toNat := by
  induction threads generalizing i with
  | nil => simp at hold
  | cons t threads ih =>
      cases i with
      | zero =>
          obtain rfl : t = old := by simpa using hold
          rw [List.set_cons_zero, List.countP_cons, List.countP_cons]
          cases p t <;> cases p l <;> simp
      | succ i =>
          rw [List.set_cons_succ, List.countP_cons, List.countP_cons]
          have hrest := ih (i := i) (by simpa using hold)
          omega

end Count

end Lib
end Tiger
