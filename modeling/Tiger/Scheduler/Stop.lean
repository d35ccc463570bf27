import Tiger.Scheduler.History
import Tiger.Scheduler.WakeUp

/-!
# Scheduler - stopping

`schedule` tests `m_is_stopping` before it takes the mutex, `stop` sets it without
the mutex, and a worker that has found nothing to do leaves when it then finds the
flag set.  A task can fall between these steps: it is pushed behind the last look of
every worker at the queue.

The invariant says that once the scheduler stops some worker looks again at a queue
that is not empty.  Every step keeps it but two: the flag is set, or a task is pushed,
behind the last look of all workers.

Main results:

- Theorem `step_drains`: the step lemma.
- Theorem `all_picked_at_exit`: in every run whose flag is set and whose tasks are
  pushed before the last look of some worker, all tasks are picked when the workers
  have left.
- Theorem `left_behind_at_exit`: a run that leaves a task in the queue.
-/

namespace Tiger
namespace Scheduler

open Lib

/-- A task that holds a coroutine and may run on any thread. -/
def Plain (t : Task) : Prop := t.threadId = 0 ∧ t.co ≠ none

instance (t : Task) : Decidable (Plain t) := inferInstanceAs (Decidable (_ ∧ _))

/-- The worker looks at the queue again before it leaves. -/
def WorkerPC.looksAgain : WorkerPC → Bool
  | .branch r | .tickleTest r | .ticklePost r => r.task.isSome
  | .pick | .resume _ | .idle | .idleStopping | .idleEnter | .idleWait | .idleLeave => true
  | .fault => true
  | .stopping | .exit | .exitTest | .exitPost | .left => false

section Stopping

variable {n : Nat}

/-- Some worker looks at the queue again. -/
def Attended (s : State n) : Prop := ∃ i, (s.workers i).looksAgain = true

/-- The tasks that a caller is about to push. -/
def CallerPC.pending : CallerPC → List Task
  | .schedTest ts | .push ts => ts
  | _ => []

/-- Until the scheduler stops no worker leaves, and then the queue is empty or some
worker looks at it again. -/
structure Drains (s : State n) : Prop where
  plain : ∀ t ∈ s.shared.tasks, Plain t
  pending : ∀ c, ∀ t ∈ (s.callers c).pending, Plain t
  leaving : s.shared.isStopping = false → ∀ i, (s.workers i).isLeaving = false
  attended : s.shared.isStopping = true → s.shared.tasks ≠ [] → Attended s

/-- The calls schedule plain tasks only. -/
def PlainCall : Action n → Prop
  | .call _ k => ∀ t ∈ k.entry.pending, Plain t
  | _ => True

/-- A caller sets the flag, and pushes behind it, only while some worker looks at the
queue again. -/
def CallerPC.InTime (s : State n) : CallerPC → Prop
  | .stopSet => s.shared.tasks ≠ [] → Attended s
  | .push _ => s.shared.isStopping = true → Attended s
  | _ => True

/-- A step in time for the workers. -/
def StopsInTime (s : State n) : Action n → Prop
  | .caller c => (s.callers c).InTime s
  | _ => True

instance (a : Action n) : Decidable (PlainCall a) :=
  match a with
  | .call _ k => inferInstanceAs (Decidable (∀ t ∈ k.entry.pending, Plain t))
  | .worker _ => isTrue trivial
  | .caller _ => isTrue trivial

instance (s : State n) : Decidable (Attended s) :=
  inferInstanceAs (Decidable (∃ i, (s.workers i).looksAgain = true))

instance (s : State n) (pc : CallerPC) : Decidable (pc.InTime s) :=
  match pc with
  | .stopSet => inferInstanceAs (Decidable (s.shared.tasks ≠ [] → Attended s))
  | .push _ => inferInstanceAs (Decidable (s.shared.isStopping = true → Attended s))
  | .ready | .schedTest _ | .idleTest _ | .stopTest | .tickleTest | .post => isTrue trivial

instance (s : State n) (a : Action n) : Decidable (StopsInTime s a) :=
  match a with
  | .caller c => inferInstanceAs (Decidable ((s.callers c).InTime s))
  | .worker _ | .call _ _ => isTrue trivial

/-! ## Workers -/

/-- Under plain tasks the pick loop finds a task in every queue that is not empty. -/
theorem scan_plain (tid : Nat) {tasks : List Task} (h : ∀ t ∈ tasks, Plain t) :
    ∃ r, scan tid tasks = some r ∧ (r.task = none → r.rest = []) ∧ ∀ t ∈ r.rest, t ∈ tasks := by
  cases tasks with
  | nil => exact ⟨⟨none, false, []⟩, rfl, fun _ => rfl, by simp⟩
  | cons t ts =>
      rcases h t List.mem_cons_self with ⟨hpin, hco⟩
      refine ⟨⟨some t, false, ts⟩, ?_, by simp, fun t' ht' => List.mem_cons_of_mem _ ht'⟩
      rw [scan, if_neg (by simp [hpin]), if_neg hco]

/-- A worker that looks again still does so behind its step, or it has found the queue
empty. -/
theorem workerStep_looksAgain {mainThreadId tid : Nat} {g g' : Shared} {pc pc' : WorkerPC}
    (hplain : ∀ t ∈ g.tasks, Plain t) (hlooks : pc.looksAgain = true)
    (h : workerStep mainThreadId tid g pc = some (g', pc')) :
    g'.tasks = [] ∨ pc'.looksAgain = true := by
  cases pc with
  | pick =>
      rcases scan_plain tid hplain with ⟨r, hscan, hnone, -⟩
      simp only [workerStep, hscan, Option.some.injEq, Prod.mk.injEq] at h
      rcases h with ⟨rfl, rfl⟩
      cases htask : r.task with
      | none => exact .inl (hnone htask)
      | some t =>
          right
          split <;> simp [WorkerPC.looksAgain]
  | tickleTest r =>
      cases h
      right
      split <;> exact hlooks
  | ticklePost r =>
      cases h
      exact .inr hlooks
  | branch r =>
      rcases Option.isSome_iff_exists.mp hlooks with ⟨t, ht⟩
      simp only [workerStep, ht, Option.some.injEq, Prod.mk.injEq] at h
      rcases h with ⟨rfl, rfl⟩
      exact .inr rfl
  | idle =>
      cases h
      right
      split <;> rfl
  | idleStopping =>
      rw [workerStep] at h
      split_ifs at h <;> cases h <;> exact .inr rfl
  | idleWait =>
      rw [workerStep] at h
      split_ifs at h
      cases h
      exact .inr rfl
  | stopping => simp [WorkerPC.looksAgain] at hlooks
  | exit => simp [WorkerPC.looksAgain] at hlooks
  | exitTest => simp [WorkerPC.looksAgain] at hlooks
  | exitPost => simp [WorkerPC.looksAgain] at hlooks
  | left => simp [WorkerPC.looksAgain] at hlooks
  | fault => cases h
  | _ =>
      cases h
      exact .inr rfl

/-- A worker leaves no task in the queue that was not there. -/
theorem workerStep_subset {mainThreadId tid : Nat} {g g' : Shared} {pc pc' : WorkerPC}
    (hplain : ∀ t ∈ g.tasks, Plain t)
    (h : workerStep mainThreadId tid g pc = some (g', pc')) : ∀ t ∈ g'.tasks, t ∈ g.tasks := by
  by_cases hpc : pc = .pick
  · subst hpc
    rcases scan_plain tid hplain with ⟨r, hscan, -, hsub⟩
    simp only [workerStep, hscan, Option.some.injEq, Prod.mk.injEq] at h
    rw [← h.1]
    exact hsub
  · rw [workerStep_tasks h hpc]
    exact fun t ht => ht

/-- A worker moves. -/
theorem worker_drains {s : State n} {mainThreadId tid : Nat} {i : Fin n} {g' : Shared}
    {pc' : WorkerPC} (hs : Drains s)
    (h : workerStep mainThreadId tid s.shared (s.workers i) = some (g', pc')) :
    Drains { s with shared := g', workers := Function.update s.workers i pc' } := by
  have hmoves := workerStep_moves h
  have hsub := workerStep_subset hs.plain h
  constructor
  · exact fun t ht => hs.plain t (hsub t ht)
  · exact hs.pending
  · intro hstop j
    simp only [hmoves.isStopping_eq] at hstop
    by_cases hj : j = i
    · subst hj
      simpa using hmoves.leaving hstop (hs.leaving hstop j)
    · simpa [Function.update_of_ne hj] using hs.leaving hstop j
  · intro hstop hne
    simp only [hmoves.isStopping_eq] at hstop
    have hne' : s.shared.tasks ≠ [] := by
      intro hnil
      rw [hnil] at hsub
      exact hne (List.eq_nil_iff_forall_not_mem.mpr fun t ht => absurd (hsub t ht) (by simp))
    rcases hs.attended hstop hne' with ⟨j, hj⟩
    by_cases hij : j = i
    · subst hij
      rcases workerStep_looksAgain hs.plain hj h with hnil | hlooks
      · exact absurd hnil hne
      · exact ⟨j, by simpa using hlooks⟩
    · exact ⟨j, by simpa [Function.update_of_ne hij] using hj⟩

/-! ## Callers -/

/-- A caller moves: its own tasks, and what it does to the flag and the queue. -/
theorem Drains.of_caller {s : State n} (hs : Drains s) {c : Nat} {g' : Shared} {pc' : CallerPC}
    (hplain : ∀ t ∈ g'.tasks, Plain t) (hpending : ∀ t ∈ pc'.pending, Plain t)
    (hstop : g'.isStopping = false → s.shared.isStopping = false)
    (hattended : g'.isStopping = true → g'.tasks ≠ [] → Attended s) :
    Drains { s with shared := g', callers := Function.update s.callers c pc' } where
  plain := hplain
  pending := by
    intro d t ht
    by_cases hd : d = c
    · subst hd
      exact hpending t (by simpa using ht)
    · exact hs.pending d t (by simpa [Function.update_of_ne hd] using ht)
  leaving := fun h => hs.leaving (hstop h)
  attended := hattended

/-- A caller that stops in time keeps the queue drained at the exits. -/
theorem caller_drains {s : State n} {c : Nat} {g' : Shared} {pc' : CallerPC} (hs : Drains s)
    (htime : StopsInTime s (.caller c))
    (h : callerStep s.shared (s.callers c) = some (g', pc')) :
    Drains { s with shared := g', callers := Function.update s.callers c pc' } := by
  have hpending := hs.pending c
  cases hpc : s.callers c with
  | ready => simp [hpc, callerStep] at h
  | schedTest ts =>
      simp only [hpc, callerStep, Option.some.injEq, Prod.mk.injEq] at h
      rcases h with ⟨rfl, rfl⟩
      rw [hpc] at hpending
      refine hs.of_caller hs.plain ?_ id hs.attended
      split
      · simp [CallerPC.pending]
      · exact hpending
  | push ts =>
      simp only [hpc, callerStep, Option.some.injEq, Prod.mk.injEq] at h
      rcases h with ⟨rfl, rfl⟩
      rw [hpc] at hpending
      simp only [StopsInTime, hpc, CallerPC.InTime] at htime
      refine hs.of_caller ?_ (by simp [CallerPC.pending]) id (fun hstop _ => htime hstop)
      intro t ht
      rcases List.mem_append.mp ht with ht | ht
      · exact hs.plain t ht
      · exact hpending t ht
  | idleTest needTickle =>
      simp only [hpc, callerStep, Option.some.injEq, Prod.mk.injEq] at h
      rcases h with ⟨rfl, rfl⟩
      refine hs.of_caller hs.plain ?_ id hs.attended
      split <;> simp [CallerPC.pending]
  | stopTest =>
      simp only [hpc, callerStep, Option.some.injEq, Prod.mk.injEq] at h
      rcases h with ⟨rfl, rfl⟩
      refine hs.of_caller hs.plain ?_ id hs.attended
      split <;> simp [CallerPC.pending]
  | stopSet =>
      simp only [hpc, callerStep, Option.some.injEq, Prod.mk.injEq] at h
      rcases h with ⟨rfl, rfl⟩
      simp only [StopsInTime, hpc, CallerPC.InTime] at htime
      exact hs.of_caller hs.plain (by simp [CallerPC.pending]) (by simp) (fun _ => htime)
  | tickleTest =>
      simp only [hpc, callerStep, Option.some.injEq, Prod.mk.injEq] at h
      rcases h with ⟨rfl, rfl⟩
      refine hs.of_caller hs.plain ?_ id hs.attended
      split <;> simp [CallerPC.pending]
  | post =>
      simp only [hpc, callerStep, Option.some.injEq, Prod.mk.injEq] at h
      rcases h with ⟨rfl, rfl⟩
      exact hs.of_caller hs.plain (by simp [CallerPC.pending]) id hs.attended

/-! ## Runs -/

/-- Every step in time keeps the invariant. -/
theorem step_drains {cfg : Config n} {s s' : State n} {a : Action n} (hs : Drains s)
    (hplain : PlainCall a) (htime : StopsInTime s a) (h : step cfg s a = some s') : Drains s' := by
  cases a with
  | worker i =>
      rcases Option.map_eq_some_iff.mp h with ⟨r, hr, rfl⟩
      exact worker_drains hs hr
  | caller c =>
      rcases Option.map_eq_some_iff.mp h with ⟨r, hr, rfl⟩
      exact caller_drains hs htime hr
  | call c k =>
      rw [step] at h
      split_ifs at h with hready
      cases h
      exact hs.of_caller hs.plain hplain id hs.attended

/-- Right after `start()` nothing has been stopped. -/
theorem started_drains (threadCnt : UInt64) {tasks : List Task} (hplain : ∀ t ∈ tasks, Plain t) :
    Drains (started (n := n) threadCnt tasks) where
  plain := hplain
  pending := fun _ t ht => absurd ht (by simp [started, CallerPC.pending])
  leaving := fun _ _ => rfl
  attended := fun hstop => absurd hstop (by simp [started])

/-- When all workers have left the queue is empty. -/
theorem Drains.tasks_nil {s : State (n + 1)} (hs : Drains s) (hleft : ∀ i, s.workers i = .left) :
    s.shared.tasks = [] := by
  by_contra hne
  have hstop : s.shared.isStopping = true := by
    by_contra hgo
    have hleaving := hs.leaving (Bool.eq_false_iff.mpr hgo) 0
    rw [hleft 0] at hleaving
    exact absurd hleaving (by simp [WorkerPC.isLeaving])
  rcases hs.attended hstop hne with ⟨i, hi⟩
  rw [hleft i] at hi
  exact absurd hi (by simp [WorkerPC.looksAgain])

/-- A recorded step with plain tasks, in time for the workers. -/
def StepBeforeExit (cfg : Config n) (x x' : State n × History) : Prop :=
  ∃ a, PlainCall a ∧ StopsInTime x.1 a ∧ step cfg x.1 a = some x'.1 ∧ x'.2 = record cfg x.1 x.2 a

/-- With any number of workers: in every run in which the flag is set, and tasks are
pushed behind it, only while some worker looks at the queue again, all tasks that were
taken have been picked, each once, when the workers have left. -/
theorem all_picked_at_exit (cfg : Config (n + 1)) (threadCnt : UInt64) {tasks : List Task}
    (hplain : ∀ t ∈ tasks, Plain t) {s : State (n + 1)} {h : History}
    (hrun : Relation.ReflTransGen (StepBeforeExit cfg) (started threadCnt tasks,
      History.started tasks) (s, h)) (hleft : ∀ i, s.workers i = .left) :
    s.shared.tasks = [] ∧ ∀ k < h.accepted.length, h.picked.count k = 1 := by
  have hdrains : Drains s := by
    have hstep : ∀ x x' : State (n + 1) × History, Drains x.1 → StepBeforeExit cfg x x' →
        Drains x'.1 := by
      rintro x x' hs ⟨a, hcall, htime, hstep, -⟩
      exact step_drains hs hcall htime hstep
    exact invariant_of_run hstep hrun (started_drains threadCnt hplain)
  have hforget : ∀ x x' : State (n + 1) × History,
      StepBeforeExit cfg x x' → RecordedStep cfg x x' := by
    rintro x x' ⟨a, -, -, hstep, hrecord⟩
    exact ⟨a, hstep, hrecord⟩
  have hrecorded := run_recorded (Relation.ReflTransGen.mono hforget _ _ hrun)
  have hnil := hdrains.tasks_nil hleft
  refine ⟨hnil, ?_⟩
  intro k hk
  have hwaiting : h.waiting = [] := by
    have heq := hrecorded.waiting_eq
    rw [hnil, List.map_nil, List.map_eq_nil_iff] at heq
    exact heq
  have hcount := hrecorded.accounted.count_add hk
  rw [hwaiting, List.count_nil, Nat.zero_add] at hcount
  exact hcount

/-- The steps of the threads in the given order, as long as they are in time. -/
def runBeforeExit (cfg : Config n) (x : State n × History) (actions : List (Action n)) :
    Option (State n × History) :=
  actions.foldlM (fun x a =>
    if PlainCall a ∧ StopsInTime x.1 a then
      (step cfg x.1 a).map fun s' => (s', record cfg x.1 x.2 a)
    else none) x

/-- A run that was computed is a run. -/
theorem runBeforeExit_run {cfg : Config n} {x x' : State n × History} {actions : List (Action n)}
    (h : runBeforeExit cfg x actions = some x') :
    Relation.ReflTransGen (StepBeforeExit cfg) x x' := by
  induction actions generalizing x with
  | nil =>
      cases h
      exact .refl
  | cons a actions ih =>
      rw [runBeforeExit, List.foldlM_cons] at h
      rcases Option.bind_eq_some_iff.mp h with ⟨x₁, hfirst, hrest⟩
      split_ifs at hfirst with hok
      rcases Option.map_eq_some_iff.mp hfirst with ⟨s', hstep, rfl⟩
      exact Relation.ReflTransGen.head ⟨a, hok.1, hok.2, hstep, rfl⟩ (ih hrest)

end Stopping

/-! ## Two runs -/

/-- A task is scheduled, picked and resumed, and then the scheduler stops. -/
def pickedThenStopped : List (Action 1) :=
  [.call 0 (.schedule ⟨some 7, 0⟩), .caller 0, .caller 0, .caller 0,
    .worker 0, .worker 0, .worker 0,
    .call 0 .stop, .caller 0, .caller 0, .caller 0, .worker 0, .worker 0, .worker 0, .worker 0,
    .worker 0]

/-- One worker that is stopped behind a push. -/
theorem all_picked_at_exit_one :
    ∃ (s : State 1) (h : History),
      runBeforeExit oneWorker (started 1 [], History.started []) pickedThenStopped = some (s, h) ∧
      (∀ i, s.workers i = .left) ∧ h.accepted = [⟨some 7, 0⟩] ∧ s.shared.tasks = [] ∧
      ∀ k < h.accepted.length, h.picked.count k = 1 := by
  have hrun : ∃ (s : State 1) (h : History),
      runBeforeExit oneWorker (started 1 [], History.started []) pickedThenStopped = some (s, h) ∧
      (∀ i, s.workers i = .left) ∧ h.accepted = [⟨some 7, 0⟩] := by
    refine ⟨_, _, rfl, ?_, rfl⟩
    intro i
    rw [Subsingleton.elim i 0]
    rfl
  rcases hrun with ⟨s, h, hrun, hleft, haccepted⟩
  refine ⟨s, h, hrun, hleft, haccepted, ?_⟩
  exact all_picked_at_exit oneWorker 1 (by simp) (runBeforeExit_run hrun) hleft

/-- The worker leaves as soon as it finds the flag set. -/
theorem left_behind_at_exit :
    ∃ (s : State 1) (h : History), runRecorded oneWorker (started 1 [], History.started [])
        [.call 0 (.schedule ⟨some 7, 0⟩), .caller 0, .call 1 .stop, .caller 1, .caller 1, .caller 1,
          .worker 0, .worker 0, .worker 0, .worker 0, .worker 0, .caller 0, .caller 0] =
        some (s, h) ∧
      (∀ i, s.workers i = .left) ∧ s.callers 0 = .ready ∧ h.accepted = [⟨some 7, 0⟩] ∧
      h.picked = [] ∧ s.shared.tasks = [⟨some 7, 0⟩] := by
  refine ⟨_, _, rfl, ?_, rfl, rfl, rfl, rfl⟩
  intro i
  rw [Subsingleton.elim i 0]
  rfl

end Scheduler
end Tiger
