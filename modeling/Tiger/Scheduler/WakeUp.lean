import Tiger.Lib.Interleaving
import Tiger.Scheduler.Model

/-!
# Scheduler - wake-ups

A worker that finds the queue empty counts itself in `m_idle_cnt` only some
steps later, and `schedule` posts the semaphore only if it finds a worker
counted.  A task that is queued in between is left behind when every worker
then waits.

The invariant says who will look at a queue that is not empty: a worker that is
up, a permit, or a caller that is about to post one.  Every step keeps it but
one, the test of `m_idle_cnt` by a caller while a worker is falling asleep.

Main results:

- Theorem `step_covered`: the step lemma.
- Theorem `no_lost_wakeup`: in every run whose tests of `m_idle_cnt` come when
  no worker is falling asleep, no task is left behind.
- Theorem `lost_wakeup`: a run that leaves a task behind.
-/

namespace Tiger
namespace Scheduler

open Lib

/-! ## Places -/

/-- The worker has a task or looks at the queue once more. -/
def Picked.goesOn (r : Picked) : Bool := r.task.isSome || r.needTickle

/-- Counted in `m_idle_cnt`. -/
def WorkerPC.isIdle : WorkerPC → Bool
  | .idleWait | .idleLeave => true
  | _ => false

/-- Between the look at an empty queue and `++m_idle_cnt`. -/
def WorkerPC.fallsAsleep : WorkerPC → Bool
  | .branch r | .tickleTest r | .ticklePost r => !r.goesOn
  | .idle | .idleEnter => true
  | _ => false

/-- On a path that is taken only after `m_is_stopping` was set. -/
def WorkerPC.isLeaving : WorkerPC → Bool
  | .stopping | .idleStopping | .exit | .exitTest | .exitPost | .left => true
  | _ => false

/-- Neither waiting nor about to wait nor leaving: the worker looks at the queue
again before it sleeps. -/
def WorkerPC.isUp : WorkerPC → Bool
  | .branch r | .tickleTest r | .ticklePost r => r.goesOn
  | .pick | .resume _ | .idleLeave | .fault => true
  | _ => false

/-- About to post the semaphore if a worker is counted. -/
def CallerPC.isWaking : CallerPC → Bool
  | .idleTest needTickle => needTickle
  | .tickleTest | .post => true
  | _ => false

/-- In a call of `stop`. -/
def CallerPC.isStop : CallerPC → Bool
  | .stopTest | .stopSet => true
  | _ => false

/-- A worker that does not idle, fall asleep or leave is up. -/
theorem WorkerPC.isUp_of_not {pc : WorkerPC} (hidle : pc.isIdle = false)
    (hasleep : pc.fallsAsleep = false) (hleaving : pc.isLeaving = false) : pc.isUp = true := by
  cases pc with
  | branch r => simpa [fallsAsleep, isUp] using hasleep
  | tickleTest r => simpa [fallsAsleep, isUp] using hasleep
  | ticklePost r => simpa [fallsAsleep, isUp] using hasleep
  | _ => simp_all [isUp, isIdle, fallsAsleep, isLeaving]

/-! ## One step of a worker -/

/-- A scan that finds nothing and asks for no tickle has emptied the queue. -/
theorem scan_nothing {tid : Nat} {tasks : List Task} {r : Scan} (h : scan tid tasks = some r)
    (htask : r.task = none) (htickle : r.needTickle = false) : r.rest = [] := by
  cases tasks with
  | nil =>
      rw [scan, Option.some.injEq] at h
      rw [← h]
  | cons t ts =>
      rw [scan] at h
      split_ifs at h with hpin hnull
      · rcases Option.map_eq_some_iff.mp h with ⟨r', _, hr'⟩
        rw [← hr'] at htickle
        exact absurd htickle (by simp)
      · rw [Option.some.injEq] at h
        rw [← h] at htask
        exact absurd htask (by simp)

/-- The scan only takes tasks away. -/
theorem scan_rest_nil {tid : Nat} {tasks : List Task} {r : Scan} (h : scan tid tasks = some r)
    (hnil : tasks = []) : r.rest = [] := by
  rw [hnil, scan, Option.some.injEq] at h
  rw [← h]

/-- What a step of a worker does while the scheduler is not stopping. -/
structure WorkerMoves (g g' : Shared) (pc pc' : WorkerPC) : Prop where
  isStopping_eq : g'.isStopping = g.isStopping
  idle_eq : pc.isIdle.toNat ≤ g.idleCnt →
    g'.idleCnt + pc.isIdle.toNat = g.idleCnt + pc'.isIdle.toNat
  leaving : g.isStopping = false → pc.isLeaving = false → pc'.isLeaving = false
  tasks_nil : g.tasks = [] → g'.tasks = []
  up : g'.tasks ≠ [] → pc.isUp = true → g.isStopping = false → pc'.isUp = true
  permits : 0 < g.permits → 0 < g'.permits ∨ pc'.isUp = true

section Moves

variable {g g' : Shared} {pc pc' : WorkerPC}

/-- Steps that change nothing shared, between places that are not counted. -/
theorem WorkerMoves.of_local (hpc : pc.isIdle = false) (hpc' : pc'.isIdle = false)
    (hleaving : g.isStopping = false → pc.isLeaving = false → pc'.isLeaving = false)
    (hup : pc.isUp = true → g.isStopping = false → pc'.isUp = true) : WorkerMoves g g pc pc' where
  isStopping_eq := rfl
  idle_eq := by simp [hpc, hpc']
  leaving := hleaving
  tasks_nil := id
  up := fun _ => hup
  permits := Or.inl

/-- The semaphore is posted. -/
theorem WorkerMoves.of_post (hpc : pc.isIdle = false) (hpc' : pc'.isIdle = false)
    (hleaving : pc.isLeaving = false → pc'.isLeaving = false)
    (hup : pc.isUp = true → pc'.isUp = true) :
    WorkerMoves g { g with permits := g.permits + 1 } pc pc' where
  isStopping_eq := rfl
  idle_eq := by simp [hpc, hpc']
  leaving := fun _ => hleaving
  tasks_nil := id
  up := fun _ h _ => hup h
  permits := fun _ => Or.inl (Nat.succ_pos _)

/-- The pick loop: a worker that finds nothing and asks for no tickle has found
the queue empty. -/
theorem WorkerMoves.of_pick {mainThreadId tid : Nat}
    (h : workerStep mainThreadId tid g .pick = some (g', pc')) : WorkerMoves g g' .pick pc' := by
  rw [workerStep] at h
  cases hscan : scan tid g.tasks with
  | none =>
      simp only [hscan, Option.some.injEq, Prod.mk.injEq] at h
      rcases h with ⟨rfl, rfl⟩
      exact .of_local rfl rfl (fun _ _ => rfl) (fun _ _ => rfl)
  | some r =>
      simp only [hscan, Option.some.injEq, Prod.mk.injEq] at h
      rcases h with ⟨rfl, rfl⟩
      constructor
      · rfl
      · intro _
        split <;> simp [WorkerPC.isIdle]
      · intro _ _
        split <;> simp [WorkerPC.isLeaving]
      · exact scan_rest_nil hscan
      · intro hne _ _
        split
        next hneed => simp [WorkerPC.isUp, Picked.goesOn, hneed]
        next hneed =>
          cases htask : r.task with
          | some t => simp [WorkerPC.isUp, Picked.goesOn]
          | none =>
              simp only [Bool.not_eq_true, Bool.or_eq_false_iff] at hneed
              exact absurd (scan_nothing hscan htask hneed.1) hne
      · exact Or.inl

/-- What a worker does to the queue and to the idle count. -/
theorem workerStep_moves {mainThreadId tid : Nat}
    (h : workerStep mainThreadId tid g pc = some (g', pc')) : WorkerMoves g g' pc pc' := by
  cases pc with
  | pick => exact .of_pick h
  | tickleTest r =>
      simp only [workerStep, Option.some.injEq, Prod.mk.injEq] at h
      rcases h with ⟨rfl, rfl⟩
      split
      · exact .of_local rfl rfl (fun _ => id) (fun hup _ => hup)
      · exact .of_local rfl rfl (fun _ => id) (fun hup _ => hup)
  | ticklePost r =>
      simp only [workerStep, Option.some.injEq, Prod.mk.injEq] at h
      rcases h with ⟨rfl, rfl⟩
      exact .of_post rfl rfl id id
  | branch r =>
      rw [workerStep] at h
      cases htask : r.task with
      | some t =>
          simp only [htask, Option.some.injEq, Prod.mk.injEq] at h
          rcases h with ⟨rfl, rfl⟩
          exact .of_local rfl rfl (fun _ _ => rfl) (fun _ _ => rfl)
      | none =>
          simp only [htask] at h
          split_ifs at h with hstop hneed
          · rw [Option.some.injEq, Prod.mk.injEq] at h
            rcases h with ⟨rfl, rfl⟩
            exact .of_local rfl rfl (by simp [hstop]) (by simp [hstop])
          · rw [Option.some.injEq, Prod.mk.injEq] at h
            rcases h with ⟨rfl, rfl⟩
            exact .of_local rfl rfl (fun _ _ => rfl) (fun _ _ => rfl)
          · rw [Option.some.injEq, Prod.mk.injEq] at h
            rcases h with ⟨rfl, rfl⟩
            refine .of_local rfl rfl (fun _ _ => rfl) (fun hup _ => ?_)
            simp [WorkerPC.isUp, Picked.goesOn, htask, hneed] at hup
  | resume t =>
      simp only [workerStep, Option.some.injEq, Prod.mk.injEq] at h
      rcases h with ⟨rfl, rfl⟩
      exact .of_local rfl rfl (fun _ _ => rfl) (fun _ _ => rfl)
  | stopping =>
      rw [workerStep] at h
      split_ifs at h <;> rw [Option.some.injEq, Prod.mk.injEq] at h <;> rcases h with ⟨rfl, rfl⟩
      · exact .of_local rfl rfl (fun _ _ => rfl) (fun hup _ => absurd hup (by decide))
      · exact .of_local rfl rfl (fun _ => id) (fun hup _ => absurd hup (by decide))
  | idle =>
      simp only [workerStep, Option.some.injEq, Prod.mk.injEq] at h
      rcases h with ⟨rfl, rfl⟩
      split
      next hstop =>
        exact .of_local rfl rfl (by simp [hstop]) (fun hup _ => absurd hup (by decide))
      next => exact .of_local rfl rfl (fun _ _ => rfl) (fun hup _ => absurd hup (by decide))
  | idleStopping =>
      rw [workerStep] at h
      split_ifs at h <;> rw [Option.some.injEq, Prod.mk.injEq] at h <;> rcases h with ⟨rfl, rfl⟩
      · exact .of_local rfl rfl (fun _ _ => rfl) (fun hup _ => absurd hup (by decide))
      · exact .of_local rfl rfl (fun _ _ => rfl) (fun _ _ => rfl)
  | idleEnter =>
      simp only [workerStep, Option.some.injEq, Prod.mk.injEq] at h
      rcases h with ⟨rfl, rfl⟩
      exact ⟨rfl, fun _ => rfl, fun _ _ => rfl, id, fun _ hup => absurd hup (by decide), Or.inl⟩
  | idleWait =>
      rw [workerStep] at h
      split_ifs at h with hpermit
      rw [Option.some.injEq, Prod.mk.injEq] at h
      rcases h with ⟨rfl, rfl⟩
      exact ⟨rfl, fun _ => rfl, fun _ _ => rfl, id, fun _ hup => absurd hup (by decide),
        fun _ => Or.inr rfl⟩
  | idleLeave =>
      simp only [workerStep, Option.some.injEq, Prod.mk.injEq] at h
      rcases h with ⟨rfl, rfl⟩
      refine ⟨rfl, fun hle => ?_, fun _ _ => rfl, id, fun _ _ _ => rfl, Or.inl⟩
      simp only [WorkerPC.isIdle, Bool.toNat_true, Bool.toNat_false] at hle ⊢
      omega
  | exit =>
      simp only [workerStep, Option.some.injEq, Prod.mk.injEq] at h
      rcases h with ⟨rfl, rfl⟩
      exact ⟨rfl, fun _ => rfl, fun _ => id, id, fun _ hup => absurd hup (by decide), Or.inl⟩
  | exitTest =>
      simp only [workerStep, Option.some.injEq, Prod.mk.injEq] at h
      rcases h with ⟨rfl, rfl⟩
      split
      · exact .of_local rfl rfl (fun _ => id) (fun hup _ => hup)
      · exact .of_local rfl rfl (fun _ => id) (fun hup _ => hup)
  | exitPost =>
      simp only [workerStep, Option.some.injEq, Prod.mk.injEq] at h
      rcases h with ⟨rfl, rfl⟩
      exact .of_post rfl rfl id id
  | left => simp [workerStep] at h
  | fault => simp [workerStep] at h

end Moves

/-! ## The invariant -/

section Invariant

variable {n : Nat}

/-- Who looks at a queue that is not empty. -/
def Watched (s : State n) : Prop :=
  (∃ i, (s.workers i).isUp = true) ∨ 0 < s.shared.permits ∨ ∃ c, (s.callers c).isWaking = true

/-- `m_idle_cnt` is the number of idle workers, and, until the scheduler stops,
no worker leaves and a queue that is not empty is watched. -/
structure Covered (s : State n) : Prop where
  idle_eq : s.shared.idleCnt = countOf WorkerPC.isIdle s.workers
  leaving : s.shared.isStopping = false → ∀ i, (s.workers i).isLeaving = false
  watched : s.shared.isStopping = false → s.shared.tasks ≠ [] → Watched s

/-- A caller finds no worker idle only when the queue is empty or no worker is
falling asleep. -/
def TestsInTime (s : State n) : Action n → Prop
  | .caller c =>
      (s.callers c = .idleTest true ∨ s.callers c = .tickleTest) → s.shared.idleCnt = 0 →
        s.shared.tasks = [] ∨ ∀ i, (s.workers i).fallsAsleep = false
  | _ => True

/-- A worker that idles is counted. -/
theorem countOf_isIdle_pos {s : State n} (h : Covered s) (i : Fin n) :
    (s.workers i).isIdle.toNat ≤ s.shared.idleCnt := by
  cases hi : (s.workers i).isIdle with
  | false => simp
  | true =>
      have hne : s.shared.idleCnt ≠ 0 := by
        intro hzero
        rw [h.idle_eq, countOf_eq_zero] at hzero
        rw [hzero i] at hi
        exact absurd hi (by simp)
      simp only [Bool.toNat_true]
      omega

/-- A worker moves. -/
theorem worker_covered {s : State n} {i : Fin n} {g' : Shared} {pc' : WorkerPC}
    (hs : Covered s) (h : WorkerMoves s.shared g' (s.workers i) pc') :
    Covered { s with shared := g', workers := Function.update s.workers i pc' } := by
  constructor
  · have hcount := countOf_update WorkerPC.isIdle s.workers i pc'
    have hidle := h.idle_eq (countOf_isIdle_pos hs i)
    have heq := hs.idle_eq
    simp only
    omega
  · intro hstop j
    simp only [h.isStopping_eq] at hstop
    by_cases hj : j = i
    · subst hj
      simpa using h.leaving hstop (hs.leaving hstop j)
    · simpa [Function.update_of_ne hj] using hs.leaving hstop j
  · intro hstop hne
    simp only [h.isStopping_eq] at hstop
    have hself : ∀ {p : Prop}, pc'.isUp = true →
        (∃ j, (Function.update s.workers i pc' j).isUp = true) ∨ p := by
      intro p hup
      exact Or.inl ⟨i, by simpa using hup⟩
    rcases hs.watched hstop (fun hnil => hne (h.tasks_nil hnil)) with ⟨j, hj⟩ | hpermit | hcaller
    · by_cases hij : j = i
      · subst hij
        exact hself (h.up hne hj hstop)
      · exact Or.inl ⟨j, by simpa [Function.update_of_ne hij] using hj⟩
    · rcases h.permits hpermit with hpermit | hup
      · exact Or.inr (Or.inl hpermit)
      · exact hself hup
    · exact Or.inr (Or.inr hcaller)

/-- When no worker is idle, falling asleep or leaving, one is up. -/
theorem watched_of_idle_zero {s : State (n + 1)} (hs : Covered s)
    (hstop : s.shared.isStopping = false) (hidle : s.shared.idleCnt = 0)
    (hasleep : ∀ i, (s.workers i).fallsAsleep = false) : ∃ i, (s.workers i).isUp = true := by
  rw [hs.idle_eq, countOf_eq_zero] at hidle
  exact ⟨0, WorkerPC.isUp_of_not (hidle 0) (hasleep 0) (hs.leaving hstop 0)⟩

/-- A caller moves and does not give up a wake-up. -/
theorem Watched.of_caller {s : State n} (h : Watched s) {c : Nat} {g' : Shared} {pc' : CallerPC}
    (hpermits : s.shared.permits ≤ g'.permits)
    (hwaking : (s.callers c).isWaking = true → pc'.isWaking = true) :
    Watched { s with shared := g', callers := Function.update s.callers c pc' } := by
  rcases h with hup | hpermit | ⟨d, hd⟩
  · exact Or.inl hup
  · exact Or.inr (Or.inl (Nat.lt_of_lt_of_le hpermit hpermits))
  · right
    right
    by_cases hdc : d = c
    · subst hdc
      exact ⟨d, by simpa using hwaking hd⟩
    · exact ⟨d, by simpa [Function.update_of_ne hdc] using hd⟩

/-- The caller itself watches the queue. -/
theorem watched_of_waking {s : State n} {c : Nat} {g' : Shared} {pc' : CallerPC}
    (h : pc'.isWaking = true) :
    Watched { s with shared := g', callers := Function.update s.callers c pc' } :=
  Or.inr (Or.inr ⟨c, by simpa using h⟩)

/-- The first two parts of the invariant do not depend on callers. -/
theorem Covered.of_caller {s : State n} (hs : Covered s) {c : Nat} {g' : Shared} {pc' : CallerPC}
    (hidle : g'.idleCnt = s.shared.idleCnt)
    (hstop : g'.isStopping = false → s.shared.isStopping = false)
    (hwatched : g'.isStopping = false → g'.tasks ≠ [] →
      Watched { s with shared := g', callers := Function.update s.callers c pc' }) :
    Covered { s with shared := g', callers := Function.update s.callers c pc' } where
  idle_eq := hidle.trans hs.idle_eq
  leaving := fun h => hs.leaving (hstop h)
  watched := hwatched

/-- A caller moves; its tests of `m_idle_cnt` come in time. -/
theorem caller_covered {s : State (n + 1)} {c : Nat} {g' : Shared} {pc' : CallerPC}
    (hs : Covered s) (htime : TestsInTime s (.caller c))
    (h : callerStep s.shared (s.callers c) = some (g', pc')) :
    Covered { s with shared := g', callers := Function.update s.callers c pc' } := by
  cases hpc : s.callers c with
  | ready => simp [hpc, callerStep] at h
  | schedTest ts =>
      simp only [hpc, callerStep, Option.some.injEq, Prod.mk.injEq] at h
      rcases h with ⟨rfl, rfl⟩
      refine hs.of_caller rfl id ?_
      intro hstop hne
      exact (hs.watched hstop hne).of_caller le_rfl (by simp [hpc, CallerPC.isWaking])
  | push ts =>
      simp only [hpc, callerStep, Option.some.injEq, Prod.mk.injEq] at h
      rcases h with ⟨rfl, rfl⟩
      refine hs.of_caller rfl id ?_
      intro hstop _
      by_cases hnil : s.shared.tasks = []
      · exact watched_of_waking (by simp [CallerPC.isWaking, hnil])
      · exact (hs.watched hstop hnil).of_caller le_rfl (by simp [hpc, CallerPC.isWaking])
  | idleTest needTickle =>
      simp only [hpc, callerStep, Option.some.injEq, Prod.mk.injEq] at h
      rcases h with ⟨rfl, rfl⟩
      refine hs.of_caller rfl id ?_
      intro hstop hne
      cases needTickle with
      | false =>
          exact (hs.watched hstop hne).of_caller le_rfl (by simp [hpc, CallerPC.isWaking])
      | true =>
          by_cases hidle : s.shared.idleCnt = 0
          · rcases htime (Or.inl hpc) hidle with hnil | hasleep
            · exact absurd hnil hne
            · rcases watched_of_idle_zero hs hstop hidle hasleep with ⟨i, hi⟩
              exact Or.inl ⟨i, hi⟩
          · exact watched_of_waking (by simp [CallerPC.isWaking, Nat.pos_of_ne_zero hidle])
  | stopTest =>
      simp only [hpc, callerStep, Option.some.injEq, Prod.mk.injEq] at h
      rcases h with ⟨rfl, rfl⟩
      refine hs.of_caller rfl id ?_
      intro hstop hne
      exact (hs.watched hstop hne).of_caller le_rfl (by simp [hpc, CallerPC.isWaking])
  | stopSet =>
      simp only [hpc, callerStep, Option.some.injEq, Prod.mk.injEq] at h
      rcases h with ⟨rfl, rfl⟩
      refine hs.of_caller rfl ?_ ?_
      · intro hstop
        simp at hstop
      · intro _ _
        exact watched_of_waking rfl
  | tickleTest =>
      simp only [hpc, callerStep, Option.some.injEq, Prod.mk.injEq] at h
      rcases h with ⟨rfl, rfl⟩
      refine hs.of_caller rfl id ?_
      intro hstop hne
      by_cases hidle : s.shared.idleCnt = 0
      · rcases htime (Or.inr hpc) hidle with hnil | hasleep
        · exact absurd hnil hne
        · rcases watched_of_idle_zero hs hstop hidle hasleep with ⟨i, hi⟩
          exact Or.inl ⟨i, hi⟩
      · exact watched_of_waking (by simp [CallerPC.isWaking, hidle])
  | post =>
      simp only [hpc, callerStep, Option.some.injEq, Prod.mk.injEq] at h
      rcases h with ⟨rfl, rfl⟩
      refine hs.of_caller rfl id ?_
      intro _ _
      exact Or.inr (Or.inl (Nat.succ_pos _))

/-- Every step that tests in time keeps the invariant. -/
theorem step_covered {cfg : Config (n + 1)} {s s' : State (n + 1)} {a : Action (n + 1)}
    (hs : Covered s) (htime : TestsInTime s a) (h : step cfg s a = some s') : Covered s' := by
  cases a with
  | worker i =>
      rcases Option.map_eq_some_iff.mp h with ⟨r, hr, rfl⟩
      exact worker_covered hs (workerStep_moves hr)
  | caller c =>
      rcases Option.map_eq_some_iff.mp h with ⟨r, hr, rfl⟩
      exact caller_covered hs htime hr
  | call c k =>
      rw [step] at h
      split_ifs at h with hready
      rw [Option.some.injEq] at h
      subst h
      refine hs.of_caller rfl id ?_
      intro hstop hne
      exact (hs.watched hstop hne).of_caller le_rfl (by simp [hready, CallerPC.isWaking])

/-- Right after `start()` every worker is up. -/
theorem started_covered (threadCnt : UInt64) (tasks : List Task) :
    Covered (started (n := n + 1) threadCnt tasks) where
  idle_eq := (countOf_eq_zero.mpr (fun _ => rfl)).symm
  leaving := fun _ _ => rfl
  watched := fun _ _ => Or.inl ⟨0, rfl⟩

end Invariant

/-! ## Runs -/

section Runs

variable {n : Nat}

/-- A task is left behind: it may run on any worker, but every worker waits, no
permit is there, and no call that would post one is under way. -/
structure Lost (s : State n) : Prop where
  task : ∃ t ∈ s.shared.tasks, t.threadId = 0
  waiting : ∀ i, s.workers i = .idleWait
  permits : s.shared.permits = 0
  stopping : s.shared.isStopping = false
  callers : ∀ c, (s.callers c).isWaking = false ∧ (s.callers c).isStop = false

/-- A step of some thread whose test of `m_idle_cnt`, if it makes one, comes in
time. -/
def StepInTime (cfg : Config n) (s s' : State n) : Prop :=
  ∃ a, TestsInTime s a ∧ step cfg s a = some s'

/-- A covered state has lost no wake-up. -/
theorem Covered.not_lost {s : State n} (h : Covered s) : ¬ Lost s := by
  intro hlost
  rcases hlost.task with ⟨t, ht, _⟩
  have hne : s.shared.tasks ≠ [] := List.ne_nil_of_mem ht
  rcases h.watched hlost.stopping hne with ⟨i, hi⟩ | hpermit | ⟨c, hc⟩
  · rw [hlost.waiting i] at hi
    exact absurd hi (by simp [WorkerPC.isUp])
  · rw [hlost.permits] at hpermit
    exact absurd hpermit (Nat.lt_irrefl 0)
  · rw [(hlost.callers c).1] at hc
    exact absurd hc (by simp)

/-- With any number of workers, from `start()` on: a run in which no caller finds
`m_idle_cnt` zero while tasks are queued and a worker is falling asleep leaves
no task behind. -/
theorem no_lost_wakeup (cfg : Config (n + 1)) (threadCnt : UInt64) (tasks : List Task)
    {s : State (n + 1)}
    (hrun : Relation.ReflTransGen (StepInTime cfg) (started threadCnt tasks) s) : ¬ Lost s := by
  have hcovered : Covered s := by
    refine invariant_of_run ?_ hrun (started_covered threadCnt tasks)
    intro s s' hs hstep
    rcases hstep with ⟨a, htime, h⟩
    exact step_covered hs htime h
  exact hcovered.not_lost

/-- One worker with thread id 1. -/
def oneWorker : Config 1 := ⟨fun _ => 1, 100⟩

/-- The worker falls asleep with an empty queue, and a task is scheduled once it
is counted. -/
theorem no_lost_wakeup_one :
    ∃ s : State 1, Relation.ReflTransGen (StepInTime oneWorker) (started 1 []) s ∧
      s.shared.tasks = [⟨some 7, 0⟩] ∧ (∀ i, s.workers i = .idleWait) ∧ ¬ Lost s := by
  have hworker : ∀ {s s' s'' : State 1}, Relation.ReflTransGen (StepInTime oneWorker) s s' →
      step oneWorker s' (.worker 0) = some s'' →
        Relation.ReflTransGen (StepInTime oneWorker) s s'' :=
    fun hrun hstep => hrun.tail ⟨.worker 0, trivial, hstep⟩
  have hrun := hworker (hworker (hworker (hworker
    (.refl (a := started 1 [])) rfl) rfl) rfl) rfl
  have hcall := hrun.tail ⟨.call 0 (.schedule ⟨some 7, 0⟩), trivial, rfl⟩
  have hpush := (hcall.tail ⟨.caller 0, fun h => absurd h (by decide), rfl⟩).tail
    ⟨.caller 0, fun h => absurd h (by decide), rfl⟩
  refine ⟨_, hpush, rfl, ?_, no_lost_wakeup oneWorker 1 [] hpush⟩
  intro i
  rw [Subsingleton.elim i 0]
  rfl

/-- The worker finds the queue empty; before it counts itself a task is
scheduled, whose caller finds no worker idle; then the worker waits. -/
theorem lost_wakeup :
    ∃ s, runActions oneWorker (started 1 [])
        [.worker 0, .worker 0, .worker 0, .call 0 (.schedule ⟨some 7, 0⟩), .caller 0, .caller 0,
          .caller 0, .worker 0] = some s ∧ Lost s := by
  refine ⟨_, rfl, ⟨?_, ?_, rfl, rfl, ?_⟩⟩
  · exact ⟨⟨some 7, 0⟩, List.mem_singleton_self _, rfl⟩
  · intro i
    rw [Subsingleton.elim i 0]
    rfl
  · intro c
    cases c with
    | zero => exact ⟨rfl, rfl⟩
    | succ c => exact ⟨rfl, rfl⟩

end Runs

end Scheduler
end Tiger
