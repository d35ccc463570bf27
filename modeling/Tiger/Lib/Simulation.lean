import Mathlib.Data.List.Zip
import Mathlib.Logic.Relation

/-!
# Runs of a command-driven component and forward simulation

A component is a deterministic step function from a state and a command to an
observable outcome and a new state.  A specification is a relation over
abstract states.  A forward simulation between the two lifts from one step to
every finite run.

Main results:

- Theorem `run_simulates`: a step simulation gives, for every list of commands,
  an abstract run with the same outcomes.
- Theorem `run_outcomes_forall`: a property that every step guarantees under
  an invariant holds of all outcomes of a run.
- Theorem `forall_take_iff_allMeets`: when a step keeps a property exactly under a
  condition on the state in front of it, all states of a run have the property
  exactly if all its steps meet the condition.
- Theorem `answersAlike_iff_allMeets`: the same for two components that are to
  answer alike.
-/

namespace Tiger
namespace Lib

section Simulation

variable {State Spec Cmd Out : Type}

/-- Execute a list of commands, collecting the outcome of each. -/
def run (step : State → Cmd → Out × State) : State → List Cmd → List Out × State
  | s, [] => ([], s)
  | s, c :: cs =>
      let next := step s c
      let rest := run step next.2 cs
      (next.1 :: rest.1, rest.2)

/-- A finite run of the specification, indexed by its commands and outcomes. -/
inductive SpecRun (Step : Spec → Cmd → Out → Spec → Prop) :
    Spec → List Cmd → List Out → Spec → Prop
  | nil (t : Spec) : SpecRun Step t [] [] t
  | cons {t t' t'' : Spec} {c : Cmd} {o : Out} {cs : List Cmd} {os : List Out} :
      Step t c o t' → SpecRun Step t' cs os t'' →
        SpecRun Step t (c :: cs) (o :: os) t''

@[simp]
theorem run_nil (step : State → Cmd → Out × State) (s : State) :
    run step s [] = ([], s) :=
  rfl

/-- A run is its first step and the run behind it. -/
@[simp]
theorem run_cons (step : State → Cmd → Out × State) (s : State) (c : Cmd)
    (cs : List Cmd) :
    run step s (c :: cs) =
      ((step s c).1 :: (run step (step s c).2 cs).1, (run step (step s c).2 cs).2) :=
  rfl

/-- The state at the end of a run. -/
theorem run_snd (step : State → Cmd → Out × State) (s : State) (cs : List Cmd) :
    (run step s cs).2 = cs.foldl (fun s c => (step s c).2) s := by
  induction cs generalizing s with
  | nil => rfl
  | cons c cs ih => exact ih (step s c).2

/-- One-step simulation lifts to runs: the abstract run sees the same outcomes
and ends in a related state. -/
theorem run_simulates {step : State → Cmd → Out × State}
    {Step : Spec → Cmd → Out → Spec → Prop} (Rel : State → Spec → Prop)
    (hstep : ∀ s t c, Rel s t →
      ∃ t', Step t c (step s c).1 t' ∧ Rel (step s c).2 t')
    (cs : List Cmd) {s : State} {t : Spec} (hrel : Rel s t) :
    ∃ t', SpecRun Step t cs (run step s cs).1 t' ∧ Rel (run step s cs).2 t' := by
  induction cs generalizing s t with
  | nil => exact ⟨t, SpecRun.nil t, hrel⟩
  | cons c cs ih =>
      rcases hstep s t c hrel with ⟨t₁, hfirst, hrel₁⟩
      rcases ih hrel₁ with ⟨t', hrest, hrel'⟩
      exact ⟨t', SpecRun.cons hfirst hrest, hrel'⟩

/-- If every step from an invariant state keeps the invariant and produces a
good outcome, all outcomes of a run are good. -/
theorem run_outcomes_forall {step : State → Cmd → Out × State}
    (Inv : State → Prop) {Good : Out → Prop}
    (hstep : ∀ s c, Inv s → Good (step s c).1 ∧ Inv (step s c).2)
    (cs : List Cmd) {s : State} (hinv : Inv s) :
    ∀ o ∈ (run step s cs).1, Good o := by
  induction cs generalizing s with
  | nil => simp
  | cons c cs ih =>
      intro o ho
      rw [run_cons, List.mem_cons] at ho
      rcases ho with rfl | ho
      · exact (hstep s c hinv).1
      · exact ih (hstep s c hinv).2 o ho

end Simulation

/-! ## Steps that meet a condition -/

section Conditions

variable {State Cmd : Type} (next : State → Cmd → State) (Meets : State → Cmd → Prop)

/-- Every step of the run meets the condition on the state in front of it. -/
def AllMeets : State → List Cmd → Prop
  | _, [] => True
  | s, c :: cs => Meets s c ∧ AllMeets (next s c) cs

variable {next Meets}

/-- What every step keeps holds at the end of a run. -/
theorem foldl_keeps (Inv : State → Prop) (hinv : ∀ s c, Inv s → Inv (next s c)) (cs : List Cmd)
    {s : State}
    (hs : Inv s) : Inv (cs.foldl next s) := by
  induction cs generalizing s with
  | nil => exact hs
  | cons c cs ih => exact ih (hinv s c hs)

/-- A condition that always holds is met by every run. -/
theorem allMeets_of_forall (h : ∀ s c, Meets s c) (s : State) (cs : List Cmd) :
    AllMeets next Meets s cs := by
  induction cs generalizing s with
  | nil => trivial
  | cons c cs ih => exact ⟨h s c, ih (next s c)⟩

/-- In a run of allowed steps, where the steps that meet a condition keep an invariant of good
states and the other ones lead to a state that is not good, all states are good exactly if all
steps meet the condition. -/
theorem forall_take_iff_of_allowed (Inv Good : State → Prop) {Allowed : State → Cmd → Prop}
    (hgood : ∀ s, Inv s → Good s)
    (hkeeps : ∀ s c, Inv s → Allowed s c → Meets s c → Inv (next s c))
    (hbreaks : ∀ s c, Inv s → Allowed s c → ¬ Meets s c → ¬ Good (next s c))
    (cs : List Cmd) {s : State} (hs : Inv s) (hallowed : AllMeets next Allowed s cs) :
    (∀ n, Good ((cs.take n).foldl next s)) ↔ AllMeets next Meets s cs := by
  induction cs generalizing s with
  | nil => exact iff_of_true (fun n => by rw [List.take_nil]; exact hgood s hs) trivial
  | cons c cs ih =>
      have hrest := fun hc : Meets s c => ih (hkeeps s c hs hallowed.1 hc) hallowed.2
      constructor
      · intro h
        have hc : Meets s c := by
          by_contra hc
          exact hbreaks s c hs hallowed.1 hc (h 1)
        exact ⟨hc, (hrest hc).mp fun n => h (n + 1)⟩
      · rintro ⟨hc, hcs⟩ n
        cases n with
        | zero => exact hgood s hs
        | succ n => exact (hrest hc).mpr hcs n

/-- All states of a run are good exactly if all its steps meet the condition. -/
theorem forall_take_iff_allMeets (Inv Good : State → Prop) (hinv : ∀ s c, Inv s → Inv (next s c))
    (hgood : ∀ s c, Inv s → Good s → (Good (next s c) ↔ Meets s c)) (cs : List Cmd) {s : State}
    (hs : Inv s) (hfirst : Good s) :
    (∀ n, Good ((cs.take n).foldl next s)) ↔ AllMeets next Meets s cs := by
  apply forall_take_iff_of_allowed (fun s => Inv s ∧ Good s) Good (fun _ h => h.2) _ _ cs
    ⟨hs, hfirst⟩
    (allMeets_of_forall (fun _ _ => trivial) s cs)
  · intro s c h _ hc
    exact ⟨hinv s c h.1, (hgood s c h.1 h.2).mpr hc⟩
  · intro s c h _ hc hnext
    exact hc ((hgood s c h.1 h.2).mp hnext)

/-- Where a condition is met exactly if another one is, and steps that meet it keep an
invariant, all steps of a run meet both or not. -/
theorem allMeets_congr (Inv : State → Prop) {Meets' : State → Cmd → Prop}
    (hmeets : ∀ s c, Inv s → (Meets s c ↔ Meets' s c))
    (hinv : ∀ s c, Inv s → Meets' s c → Inv (next s c)) (cs : List Cmd) {s : State} (hs : Inv s) :
    AllMeets next Meets s cs ↔ AllMeets next Meets' s cs := by
  induction cs generalizing s with
  | nil => rfl
  | cons c cs ih =>
      rw [AllMeets, AllMeets, hmeets s c hs]
      apply and_congr_right
      intro hc
      exact ih (hinv s c hs hc)

end Conditions

section Answers

variable {State Spec Cmd Out : Type}

/-- Two components answer the commands alike, and any further command at any point of them. -/
def AnswersAlike (step : State → Cmd → Out × State) (spec : Spec → Cmd → Out × Spec)
    (s : State) (t : Spec) (cs : List Cmd) : Prop :=
  ∀ n c, (run step s (cs.take n ++ [c])).1 = (run spec t (cs.take n ++ [c])).1

variable {step : State → Cmd → Out × State} {spec : Spec → Cmd → Out × Spec}

/-- Two machines that answer the first command alike answer all alike if they do so behind it. -/
theorem answersAlike_cons {s : State} {t : Spec} {c : Cmd} {cs : List Cmd}
    (hanswer : ∀ d, (step s d).1 = (spec t d).1) :
    AnswersAlike step spec s t (c :: cs) ↔ AnswersAlike step spec (step s c).2 (spec t c).2 cs := by
  constructor
  · intro h n d
    exact (List.cons.inj (h (n + 1) d)).2
  · intro h n d
    cases n with
    | zero => simp only [List.take_zero, List.nil_append, run_cons, run_nil, hanswer]
    | succ n =>
        simp only [List.take_succ_cons, List.cons_append, run_cons, hanswer]
        rw [h n d]

/-- A component that answers as what it stands for answers like the other one exactly if all
its steps go along with it.  No two states of the other one answer alike. -/
theorem answersAlike_iff_allMeets {Inv : State → Prop} {Meets : State → Cmd → Prop}
    (stands : State → Spec) (hinv : ∀ s c, Inv s → Inv (step s c).2)
    (hanswer : ∀ s c, (step s c).1 = (spec (stands s) c).1)
    (hspec : ∀ t t', (∀ c, (spec t c).1 = (spec t' c).1) → t = t')
    (hmeets : ∀ s c, Inv s → (stands (step s c).2 = (spec (stands s) c).2 ↔ Meets s c))
    (cs : List Cmd) {s : State} (hs : Inv s) :
    AnswersAlike step spec s (stands s) cs ↔ AllMeets (fun s c => (step s c).2) Meets s cs := by
  induction cs generalizing s with
  | nil =>
      refine iff_of_true ?_ trivial
      intro n c
      simp only [List.take_nil, List.nil_append, run_cons, run_nil, hanswer]
  | cons c cs ih =>
      rw [answersAlike_cons (hanswer s), AllMeets, ← hmeets s c hs]
      constructor
      · intro h
        have hstands : stands (step s c).2 = (spec (stands s) c).2 := by
          apply hspec
          intro d
          have hd := h 0 d
          simp only [List.take_zero, List.nil_append, run_cons, run_nil] at hd
          rw [← hanswer]
          exact (List.cons.inj hd).1
        rw [← hstands] at h
        exact ⟨hstands, (ih (hinv s c hs)).mp h⟩
      · rintro ⟨hstands, hrest⟩
        rw [← hstands]
        exact (ih (hinv s c hs)).mpr hrest

end Answers

end Lib
end Tiger
