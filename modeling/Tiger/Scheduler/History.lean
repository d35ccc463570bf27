import Tiger.Lib.Interleaving
import Tiger.Lib.Tickets
import Tiger.Scheduler.Model

/-!
# Scheduler - what becomes of the tasks

A record beside the scheduler: the tasks in the order in which `schedule` and
`schedules` took them, which of them are in `m_tasks`, and who has picked which.
A task has the number of its arrival as its ticket, so that two tasks for the same
coroutine are told apart.

Main results:

- Theorem `step_recorded`: every step of the system keeps the record in line with
  the queue.
- Theorem `run_recorded`: so does every run.
- Theorem `picks_fair`: in every run each task that was taken is in the queue once
  or picked once, is picked only by a thread it may run on, is not overtaken by a
  later one on that thread, and is held by the worker that picks it.
-/

namespace Tiger
namespace Scheduler

open Lib

/-! ## The pick loop -/

/-- The thread may run the task. -/
def mayRun (tid : Nat) (t : Task) : Bool := t.threadId == 0 || t.threadId == tid

/-- The place of the first task that the thread may run. -/
def firstFor (tid : Nat) (tasks : List Task) : Nat := tasks.findIdx (mayRun tid)

theorem mayRun_eq_false {tid : Nat} {t : Task} :
    mayRun tid t = false ↔ t.threadId ≠ 0 ∧ t.threadId ≠ tid := by
  simp [mayRun]

/-- The pick loop finds nothing when the thread may run none of the tasks. -/
theorem scan_none {tid : Nat} {tasks : List Task} {r : Scan} (h : scan tid tasks = some r)
    (htask : r.task = none) : r.rest = tasks ∧ ∀ t ∈ tasks, mayRun tid t = false := by
  induction tasks generalizing r with
  | nil =>
      rw [scan, Option.some.injEq] at h
      rw [← h]
      exact ⟨rfl, by simp⟩
  | cons t ts ih =>
      rw [scan] at h
      split_ifs at h with hpin hnull
      · rcases Option.map_eq_some_iff.mp h with ⟨r', hr', rfl⟩
        rcases ih hr' htask with ⟨hrest, hall⟩
        refine ⟨by simp only [hrest], ?_⟩
        intro t' ht'
        rcases List.mem_cons.mp ht' with rfl | ht'
        · exact mayRun_eq_false.mpr hpin
        · exact hall t' ht'
      · rw [Option.some.injEq] at h
        rw [← h] at htask
        exact absurd htask (by simp)

/-- Otherwise it takes the first one. -/
theorem scan_some {tid : Nat} {tasks : List Task} {r : Scan} {t : Task}
    (h : scan tid tasks = some r) (htask : r.task = some t) :
    tasks[firstFor tid tasks]? = some t ∧ r.rest = tasks.eraseIdx (firstFor tid tasks) ∧
      mayRun tid t = true := by
  induction tasks generalizing r with
  | nil =>
      rw [scan, Option.some.injEq] at h
      rw [← h] at htask
      exact absurd htask (by simp)
  | cons t' ts ih =>
      rw [scan] at h
      split_ifs at h with hpin hnull
      · rcases Option.map_eq_some_iff.mp h with ⟨r', hr', rfl⟩
        rcases ih hr' htask with ⟨hget, hrest, hmay⟩
        have hfirst : firstFor tid (t' :: ts) = firstFor tid ts + 1 := by
          rw [firstFor, List.findIdx_cons, mayRun_eq_false.mpr hpin]
          rfl
        rw [hfirst, List.getElem?_cons_succ, List.eraseIdx_cons_succ, hrest]
        exact ⟨hget, rfl, hmay⟩
      · rw [Option.some.injEq] at h
        rw [← h] at htask ⊢
        rw [Option.some.injEq] at htask
        have hmay : mayRun tid t' = true := by
          rw [← Bool.not_eq_false, mayRun_eq_false]
          exact hpin
        have hfirst : firstFor tid (t' :: ts) = 0 := by
          rw [firstFor, List.findIdx_cons, hmay]
          rfl
        rw [hfirst, ← htask]
        exact ⟨rfl, rfl, hmay⟩

/-- The tasks in front of the first one are for other threads. -/
theorem mayRun_before_first {tid : Nat} {tasks : List Task} {k : Nat} {t : Task}
    (hk : k < firstFor tid tasks) (ht : tasks[k]? = some t) : mayRun tid t = false := by
  rcases List.getElem?_eq_some_iff.mp ht with ⟨_, rfl⟩
  exact List.not_of_lt_findIdx hk

/-! ## The record -/

/-- A pick: the ticket, the thread, and the tickets that were in the queue. -/
structure Pick where
  ticket : Nat
  tid : Nat
  queue : List Nat

/-- The tasks that were taken, the tickets in the queue, and the picks so far. -/
structure History where
  accepted : List Task
  waiting : List Nat
  picks : List Pick

namespace History

/-- The tasks that were scheduled before `start()`. -/
def started (tasks : List Task) : History := ⟨tasks, List.range tasks.length, []⟩

/-- `schedule` or `schedules` takes tasks. -/
def push (ts : List Task) (h : History) : History :=
  { h with
    accepted := h.accepted ++ ts
    waiting := h.waiting ++ List.range' h.accepted.length ts.length }

/-- The thread `tid` takes the task at a place of the queue. -/
def pick (tid place : Nat) (h : History) : History :=
  { h with
    waiting := h.waiting.eraseIdx place
    picks := h.picks ++ (h.waiting[place]?.toList.map fun ticket => ⟨ticket, tid, h.waiting⟩) }

/-- The tickets that were picked. -/
def picked (h : History) : List Nat := h.picks.map Pick.ticket

end History

/-- What a step adds to the record. -/
def record {n : Nat} (cfg : Config n) (s : State n) (h : History) : Action n → History
  | .worker i =>
      if s.workers i = .pick ∧ ((scan (cfg.tid i) s.shared.tasks).bind Scan.task).isSome then
        h.pick (cfg.tid i) (firstFor (cfg.tid i) s.shared.tasks)
      else h
  | .caller c =>
      match s.callers c with
      | .push ts => h.push ts
      | _ => h
  | .call _ _ => h

/-- A step of the system with its record. -/
def RecordedStep {n : Nat} (cfg : Config n) (x x' : State n × History) : Prop :=
  ∃ a, step cfg x.1 a = some x'.1 ∧ x'.2 = record cfg x.1 x.2 a

/-! ## Record and queue -/

section Recorded

variable {n : Nat}

/-- The record is in line with the queue. -/
structure Recorded (tasks : List Task) (h : History) : Prop where
  waiting_eq : h.waiting.map (h.accepted[·]?) = tasks.map some
  accounted : Accounted h.accepted.length h.waiting h.picked
  pinned : ∀ p ∈ h.picks, ∀ t, h.accepted[p.ticket]? = some t → mayRun p.tid t = true
  fifo : ∀ p ∈ h.picks, ∀ j ∈ p.queue, j < p.ticket →
    ∃ t, h.accepted[j]? = some t ∧ mayRun p.tid t = false

/-- The first history records the first queue. -/
theorem started_recorded (tasks : List Task) : Recorded tasks (History.started tasks) where
  waiting_eq := by
    apply List.ext_getElem?
    intro i
    by_cases hi : i < tasks.length
    · simp [History.started, hi]
    · simp [History.started, hi]
  accounted := Accounted.start tasks.length
  pinned := by simp [History.started]
  fifo := by simp [History.started]

variable {tasks : List Task} {h : History}

/-- A queued task has the number of its push. -/
theorem Recorded.ticket (hrec : Recorded tasks h) {i : Nat} {t : Task} (ht : tasks[i]? = some t) :
    ∃ j, h.waiting[i]? = some j ∧ h.accepted[j]? = some t := by
  have hmap := congrArg (·[i]?) hrec.waiting_eq
  simp only [List.getElem?_map, ht, Option.map_some, Option.map_eq_some_iff] at hmap
  exact hmap

/-- A number that waits is that of a queued task. -/
theorem Recorded.task (hrec : Recorded tasks h) {i j : Nat} (hj : h.waiting[i]? = some j) :
    ∃ t, tasks[i]? = some t ∧ h.accepted[j]? = some t := by
  have hmap := congrArg (·[i]?) hrec.waiting_eq
  simp only [List.getElem?_map, hj, Option.map_some] at hmap
  rcases Option.map_eq_some_iff.mp hmap.symm with ⟨t, ht, hacc⟩
  exact ⟨t, ht, hacc.symm⟩

/-- What is known about a ticket stays true when more tasks are taken. -/
theorem accepted_append {accepted ts : List Task} {j : Nat} {t : Task}
    (hj : accepted[j]? = some t) : (accepted ++ ts)[j]? = some t := by
  rcases List.getElem?_eq_some_iff.mp hj with ⟨hlt, _⟩
  rw [List.getElem?_append_left hlt, hj]

/-- Tasks are taken. -/
theorem Recorded.push (hrec : Recorded tasks h) (ts : List Task) :
    Recorded (tasks ++ ts) (h.push ts) where
  waiting_eq := by
    rw [History.push, List.map_append, List.map_append]
    congr 1
    · rw [← hrec.waiting_eq]
      apply List.map_congr_left
      intro j hj
      exact List.getElem?_append_left (hrec.accounted.lt_next hj)
    · apply List.ext_getElem?
      intro i
      by_cases hi : i < ts.length
      · simp [hi]
      · simp [hi]
  accounted := by
    have hissue := hrec.accounted.issue ts.length
    rw [← List.length_append] at hissue
    exact hissue
  pinned := by
    intro p hp t ht
    have hlt : p.ticket < h.accepted.length :=
      hrec.accounted.served_lt_next (List.mem_map_of_mem hp)
    refine hrec.pinned p hp t ?_
    rw [← List.getElem?_append_left hlt]
    exact ht
  fifo := by
    intro p hp j hj hlt
    rcases hrec.fifo p hp j hj hlt with ⟨t, ht, hmay⟩
    exact ⟨t, accepted_append ht, hmay⟩

/-- A thread picks the first task that it may run. -/
theorem Recorded.pick (hrec : Recorded tasks h) {tid : Nat} {t : Task}
    (ht : tasks[firstFor tid tasks]? = some t) (hmay : mayRun tid t = true) :
    Recorded (tasks.eraseIdx (firstFor tid tasks)) (h.pick tid (firstFor tid tasks)) := by
  rcases hrec.ticket ht with ⟨j, hj, hacc⟩
  have hpicks : (h.pick tid (firstFor tid tasks)).picks = h.picks ++ [⟨j, tid, h.waiting⟩] := by
    simp [History.pick, hj]
  constructor
  · simp only [History.pick, ← List.eraseIdx_map, hrec.waiting_eq]
  · have hserve := hrec.accounted.serve hj
    rw [History.picked, hpicks, List.map_append]
    exact hserve
  · intro p hp t' ht'
    rw [hpicks, List.mem_append, List.mem_singleton] at hp
    rcases hp with hp | rfl
    · exact hrec.pinned p hp t' ht'
    · have heq : t = t' := Option.some.inj (hacc.symm.trans ht')
      rw [← heq]
      exact hmay
  · intro p hp k hk hlt
    rw [hpicks, List.mem_append, List.mem_singleton] at hp
    rcases hp with hp | rfl
    · exact hrec.fifo p hp k hk hlt
    · -- an earlier ticket stands in front of the first task that the thread may run
      rcases List.mem_iff_getElem?.mp hk with ⟨i, hi⟩
      have hbefore : i < firstFor tid tasks := (hrec.accounted.lt_iff hi hj).mp hlt
      rcases hrec.task hi with ⟨t', ht', hacc'⟩
      exact ⟨t', hacc', mayRun_before_first hbefore ht'⟩

/-! ## Steps and runs -/

/-- Only the pick loop and a push change the queue. -/
theorem workerStep_tasks {mainThreadId tid : Nat} {g g' : Shared} {pc pc' : WorkerPC}
    (h : workerStep mainThreadId tid g pc = some (g', pc')) (hpc : pc ≠ .pick) :
    g'.tasks = g.tasks := by
  cases pc with
  | pick => exact absurd rfl hpc
  | branch r =>
      rw [workerStep] at h
      cases htask : r.task with
      | some t =>
          simp only [htask, Option.some.injEq, Prod.mk.injEq] at h
          rw [← h.1]
      | none =>
          simp only [htask] at h
          split_ifs at h <;> cases h <;> rfl
  | stopping =>
      rw [workerStep] at h
      split_ifs at h <;> cases h <;> rfl
  | idleStopping =>
      rw [workerStep] at h
      split_ifs at h <;> cases h <;> rfl
  | idleWait =>
      rw [workerStep] at h
      split_ifs at h
      cases h
      rfl
  | left => cases h
  | fault => cases h
  | _ =>
      cases h
      rfl

/-- A caller only pushes tasks. -/
theorem callerStep_tasks {g g' : Shared} {pc pc' : CallerPC}
    (h : callerStep g pc = some (g', pc')) :
    (∃ ts, pc = .push ts ∧ g'.tasks = g.tasks ++ ts) ∨
      ((∀ ts, pc ≠ .push ts) ∧ g'.tasks = g.tasks) := by
  cases pc with
  | push ts =>
      cases h
      exact .inl ⟨ts, rfl, rfl⟩
  | ready => cases h
  | _ =>
      cases h
      exact .inr ⟨by simp, rfl⟩

/-- A worker keeps the record in line with the queue. -/
theorem worker_recorded {cfg : Config n} {s : State n} {i : Fin n} {g' : Shared} {pc' : WorkerPC}
    (hrec : Recorded s.shared.tasks h)
    (hstep : workerStep cfg.mainThreadId (cfg.tid i) s.shared (s.workers i) = some (g', pc')) :
    Recorded g'.tasks (record cfg s h (.worker i)) := by
  rw [record]
  by_cases hpc : s.workers i = .pick
  · rw [hpc, workerStep] at hstep
    cases hscan : scan (cfg.tid i) s.shared.tasks with
    | none =>
        simp only [hscan, Option.some.injEq, Prod.mk.injEq] at hstep
        rw [if_neg (by simp), ← hstep.1]
        exact hrec
    | some r =>
        simp only [hscan, Option.some.injEq, Prod.mk.injEq] at hstep
        rw [← hstep.1]
        cases htask : r.task with
        | none =>
            rw [if_neg (by simp [htask])]
            simp only [(scan_none hscan htask).1]
            exact hrec
        | some t =>
            rcases scan_some hscan htask with ⟨hget, hrest, hmay⟩
            rw [if_pos ⟨hpc, by simp [htask]⟩]
            simp only [hrest]
            exact hrec.pick hget hmay
  · rw [if_neg (fun hand => hpc hand.1), workerStep_tasks hstep hpc]
    exact hrec

/-- Every step keeps the record in line with the queue. -/
theorem step_recorded {cfg : Config n} {s s' : State n} {a : Action n}
    (hrec : Recorded s.shared.tasks h) (hstep : step cfg s a = some s') :
    Recorded s'.shared.tasks (record cfg s h a) := by
  cases a with
  | worker i =>
      rcases Option.map_eq_some_iff.mp hstep with ⟨r, hr, rfl⟩
      exact worker_recorded hrec hr
  | caller c =>
      rcases Option.map_eq_some_iff.mp hstep with ⟨r, hr, rfl⟩
      rcases callerStep_tasks hr with ⟨ts, hpc, htasks⟩ | ⟨hpc, htasks⟩
      · simp only [record, hpc, htasks]
        exact hrec.push ts
      · simp only [htasks]
        rw [record]
        split
        next ts hts => exact absurd hts (hpc ts)
        next => exact hrec
  | call c k =>
      rw [step] at hstep
      split_ifs at hstep with hready
      cases hstep
      exact hrec

/-- The record of every run is in line with the queue. -/
theorem run_recorded {cfg : Config n} {threadCnt : UInt64} {tasks : List Task} {s : State n}
    (hrun : Relation.ReflTransGen (RecordedStep cfg) (started threadCnt tasks,
      History.started tasks) (s, h)) : Recorded s.shared.tasks h := by
  have hstep : ∀ x x' : State n × History, Recorded x.1.shared.tasks x.2 →
      RecordedStep cfg x x' → Recorded x'.1.shared.tasks x'.2 := by
    rintro x x' hrec ⟨a, hstep, hrecord⟩
    rw [hrecord]
    exact step_recorded hrec hstep
  exact invariant_of_run hstep hrun (started_recorded tasks)

/-! ## What a worker holds -/

/-- The task that a worker has picked and will resume. -/
def WorkerPC.held : WorkerPC → Option Task
  | .tickleTest r | .ticklePost r | .branch r => r.task
  | .resume t => some t
  | _ => none

/-- The worker that makes a pick holds the picked task behind it. -/
theorem Recorded.holds {s s' : State n} (hrec : Recorded s.shared.tasks h) {cfg : Config n}
    {a : Action n} (hstep : step cfg s a = some s') {p : Pick}
    (hpick : (record cfg s h a).picks = h.picks ++ [p]) :
    ∃ i t, a = .worker i ∧ p.tid = cfg.tid i ∧ (s'.workers i).held = some t ∧
      h.accepted[p.ticket]? = some t := by
  have hsame : ¬h.picks = h.picks ++ [p] := by simp
  cases a with
  | worker i =>
      rw [record] at hpick
      split at hpick
      · next hand =>
        obtain ⟨hpc, htask⟩ := hand
        obtain ⟨t, ht⟩ := Option.isSome_iff_exists.mp htask
        obtain ⟨r, hscan, htask⟩ := Option.bind_eq_some_iff.mp ht
        obtain ⟨hget, -, -⟩ := scan_some hscan htask
        obtain ⟨j, hj, hacc⟩ := hrec.ticket hget
        simp only [History.pick, hj, Option.toList_some, List.map_singleton,
          List.append_cancel_left_eq, List.cons.injEq, and_true] at hpick
        rw [← hpick]
        refine ⟨i, t, rfl, rfl, ?_, hacc⟩
        -- the pick loop hands the task on, in front of a test for a tickle or not
        simp only [step, hpc, workerStep, hscan, Option.map_some, Option.some.injEq] at hstep
        rw [← hstep]
        simp only [Function.update_self]
        split
        · exact htask
        · exact htask
      · exact absurd hpick hsame
  | caller c =>
      rw [record] at hpick
      split at hpick
      · exact absurd hpick hsame
      · exact absurd hpick hsame
  | call c k => exact absurd hpick hsame

/-- A worker holds its task until it resumes it. -/
theorem workerStep_held {mainThreadId tid : Nat} {g g' : Shared} {pc pc' : WorkerPC} {t : Task}
    (hheld : pc.held = some t) (h : workerStep mainThreadId tid g pc = some (g', pc')) :
    pc'.held = some t ∨ pc = .resume t := by
  cases pc with
  | tickleTest r =>
      rw [workerStep] at h
      split_ifs at h <;> cases h <;> exact .inl hheld
  | ticklePost r =>
      cases h
      exact .inl hheld
  | branch r =>
      have htask : r.task = some t := hheld
      simp only [workerStep, htask, Option.some.injEq, Prod.mk.injEq] at h
      rw [← h.2]
      exact .inl rfl
  | resume t' =>
      rw [Option.some.inj hheld]
      exact .inr rfl
  | _ => cases hheld

/-- Every step of the system keeps the task that a worker holds, or resumes it. -/
theorem step_held {cfg : Config n} {s s' : State n} {a : Action n} {i : Fin n} {t : Task}
    (hheld : (s.workers i).held = some t) (hstep : step cfg s a = some s') :
    (s'.workers i).held = some t ∨ a = .worker i ∧ s.workers i = .resume t := by
  cases a with
  | worker j =>
      obtain ⟨r, hr, rfl⟩ := Option.map_eq_some_iff.mp hstep
      by_cases hij : i = j
      · subst hij
        simp only [Function.update_self, true_and]
        exact workerStep_held hheld hr
      · simp only [Function.update_of_ne hij]
        exact .inl hheld
  | caller c =>
      obtain ⟨r, -, rfl⟩ := Option.map_eq_some_iff.mp hstep
      exact .inl hheld
  | call c k =>
      rw [step] at hstep
      split_ifs at hstep
      cases hstep
      exact .inl hheld

/-- In every run, with any workers and callers: the queue holds the tasks that wait,
in the order of their arrival; each task that was taken waits once or has been picked
once; a pinned task is picked by its thread; and no thread picks a task while an
earlier one that it may run is in the queue.  The worker that makes a pick holds the
picked task until it resumes it. -/
theorem picks_fair (cfg : Config n) (threadCnt : UInt64) (tasks : List Task)
    {s : State n} {h : History}
    (hrun : Relation.ReflTransGen (RecordedStep cfg) (started threadCnt tasks,
      History.started tasks) (s, h)) :
    (h.waiting.map (h.accepted[·]?) = s.shared.tasks.map some ∧ h.waiting.Pairwise (· < ·)) ∧
      (∀ k < h.accepted.length, h.waiting.count k + h.picked.count k = 1) ∧
      (∀ p ∈ h.picks, ∃ t, h.accepted[p.ticket]? = some t ∧
        (t.threadId ≠ 0 → t.threadId = p.tid)) ∧
      (∀ p ∈ h.picks, ∀ j ∈ p.queue, j < p.ticket →
        ∃ t, h.accepted[j]? = some t ∧ mayRun p.tid t = false) ∧
      (∀ a s', step cfg s a = some s' →
        (∀ p, (record cfg s h a).picks = h.picks ++ [p] → ∃ i t, a = .worker i ∧
          p.tid = cfg.tid i ∧ (s'.workers i).held = some t ∧ h.accepted[p.ticket]? = some t) ∧
        ∀ i t, (s.workers i).held = some t →
          (s'.workers i).held = some t ∨ a = .worker i ∧ s.workers i = .resume t) := by
  have hrec := run_recorded hrun
  refine ⟨⟨hrec.waiting_eq, hrec.accounted.sorted⟩, ?_, ?_, hrec.fifo, ?_⟩
  · intro k hk
    exact hrec.accounted.count_add hk
  · intro p hp
    have hlt : p.ticket < h.accepted.length :=
      hrec.accounted.served_lt_next (List.mem_map_of_mem hp)
    refine ⟨h.accepted[p.ticket], List.getElem?_eq_getElem hlt, ?_⟩
    intro hpin
    have hmay := hrec.pinned p hp _ (List.getElem?_eq_getElem hlt)
    rw [mayRun, Bool.or_eq_true, beq_iff_eq, beq_iff_eq] at hmay
    exact hmay.resolve_left hpin
  · intro a s' hstep
    exact ⟨fun p hpick => hrec.holds hstep hpick, fun i t hheld => step_held hheld hstep⟩

/-- A run goes on with a step. -/
theorem recorded_tail {cfg : Config n} {x : State n × History} {s s' : State n} {h : History}
    {a : Action n} (hrun : Relation.ReflTransGen (RecordedStep cfg) x (s, h))
    (hstep : step cfg s a = some s') :
    Relation.ReflTransGen (RecordedStep cfg) x (s', record cfg s h a) :=
  hrun.tail ⟨a, hstep, rfl⟩

/-- The worker with id 1 passes over a task for the thread 2. -/
theorem picks_fair_passes :
    ∃ (s : State 1) (h : History), Relation.ReflTransGen (RecordedStep ⟨fun _ => 1, 100⟩)
        (started 1 [⟨some 5, 2⟩, ⟨some 7, 0⟩], History.started [⟨some 5, 2⟩, ⟨some 7, 0⟩]) (s, h) ∧
      h.picked = [1] ∧ s.shared.tasks = [⟨some 5, 2⟩] ∧ h.waiting.Pairwise (· < ·) := by
  have hstep : step ⟨fun _ => 1, 100⟩ (started (n := 1) 1 [⟨some 5, 2⟩, ⟨some 7, 0⟩]) (.worker 0) =
      some _ := rfl
  have hpick := recorded_tail (h := History.started [⟨some 5, 2⟩, ⟨some 7, 0⟩]) .refl hstep
  exact ⟨_, _, hpick, by decide, rfl, (picks_fair ⟨fun _ => 1, 100⟩ 1 _ hpick).1.2⟩

end Recorded

/-! ## Recorded runs -/

/-- The steps of the threads in the given order, with the record. -/
def runRecorded {n : Nat} (cfg : Config n) (x : State n × History) (actions : List (Action n)) :
    Option (State n × History) :=
  actions.foldlM (fun x a => (step cfg x.1 a).map fun s' => (s', record cfg x.1 x.2 a)) x

/-- A run that was computed is a run. -/
theorem runRecorded_run {n : Nat} {cfg : Config n} {x x' : State n × History}
    {actions : List (Action n)} (h : runRecorded cfg x actions = some x') :
    Relation.ReflTransGen (RecordedStep cfg) x x' := by
  induction actions generalizing x with
  | nil =>
      cases h
      exact .refl
  | cons a actions ih =>
      rw [runRecorded, List.foldlM_cons] at h
      rcases Option.bind_eq_some_iff.mp h with ⟨x₁, hfirst, hrest⟩
      rcases Option.map_eq_some_iff.mp hfirst with ⟨s', hstep, rfl⟩
      exact Relation.ReflTransGen.head ⟨a, hstep, rfl⟩ (ih hrest)

end Scheduler
end Tiger
