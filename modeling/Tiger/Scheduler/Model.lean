import Mathlib.Data.Fin.Basic
import Mathlib.Logic.Function.Basic

/-!
# Scheduler - workers, callers and their steps

This module embeds `Scheduler::schedule`, `schedules`, `stop`, `tickle`, `run`
and `idle` (`src/scheduler.h`, `src/scheduler.cc`) as threads that take steps
one at a time.  A step is a section under `m_mutex`, one update or test of an
atomic, one test or update of a flag, or one operation of the semaphore.

A worker executes `run`, and `idle` from inside its idle coroutine.  Callers
are threads that call `schedule`, `schedules` or `stop`, any number of times;
a coroutine that schedules from a worker counts as a caller.  Resuming a task
is one step.  The idle coroutine ends only when the worker is about to leave
`run`, so it is never resumed after its end.

A task whose coroutine is null is erased by the pick loop, which then goes on
with the iterator it has just erased; from there the worker is at `fault`.
-/

namespace Tiger
namespace Scheduler

/-! ## Shared data -/

/-- `Scheduler::Task`: a coroutine, or `none` for a null pointer, and the id of
the thread it is pinned to, zero when it is not. -/
structure Task where
  co : Option Nat
  threadId : Nat
deriving DecidableEq

/-- The members of `Scheduler` that threads share. -/
structure Shared where
  tasks : List Task
  idleCnt : Nat
  permits : Nat
  isStopping : Bool
  isStopped : Bool
  threadCnt : UInt64
deriving DecidableEq

/-! ## Workers -/

/-- The locals `task` and `need_tickle` of `run`; `is_active` is `task` being
set. -/
structure Picked where
  task : Option Task
  needTickle : Bool
deriving DecidableEq

/-- Where a worker is. -/
inductive WorkerPC
  /-- before the section under `m_mutex` -/
  | pick
  /-- `tickle()`: before `if (m_idle_cnt)` -/
  | tickleTest (r : Picked)
  /-- `tickle()`: before `m_semaphore.post()` -/
  | ticklePost (r : Picked)
  /-- before the test of `is_active`, or of `m_is_stopping` -/
  | branch (r : Picked)
  /-- before `task.m_co->resume()` -/
  | resume (t : Task)
  /-- `run` is stopping: before the test of `m_thread_cnt` -/
  | stopping
  /-- `idle`: before the test of `m_is_stopping` -/
  | idle
  /-- `idle` is stopping: before the test of `m_thread_cnt` -/
  | idleStopping
  /-- `idle`: before `++m_idle_cnt` -/
  | idleEnter
  /-- `idle`: in `m_semaphore.wait()` -/
  | idleWait
  /-- `idle`: before `--m_idle_cnt` -/
  | idleLeave
  /-- behind the loop of `run`: before `--m_thread_cnt` -/
  | exit
  /-- the last `tickle()`: before `if (m_idle_cnt)` -/
  | exitTest
  /-- the last `tickle()`: before `m_semaphore.post()` -/
  | exitPost
  /-- `run` has returned -/
  | left
  /-- undefined behaviour -/
  | fault
deriving DecidableEq

/-- What the pick loop makes of the queue. -/
structure Scan where
  task : Option Task
  needTickle : Bool
  rest : List Task
deriving DecidableEq

/-- The pick loop of the thread `tid`; `none` when it erases a null coroutine. -/
def scan (tid : Nat) : List Task → Option Scan
  | [] => some ⟨none, false, []⟩
  | t :: ts =>
      if t.threadId ≠ 0 ∧ t.threadId ≠ tid then
        (scan tid ts).map fun r => ⟨r.task, true, t :: r.rest⟩
      else if t.co = none then none
      else some ⟨some t, false, ts⟩

/-- The threads of a scheduler with `n` workers: their ids, and
`m_main_thread_id`. -/
structure Config (n : Nat) where
  tid : Fin n → Nat
  mainThreadId : Nat

/-- One step of the worker with thread id `tid`; `none` while it is blocked and
after its end. -/
def workerStep (mainThreadId tid : Nat) (g : Shared) : WorkerPC → Option (Shared × WorkerPC)
  | .pick =>
      match scan tid g.tasks with
      | none => some (g, .fault)
      | some r =>
          let needTickle := r.needTickle || (!r.rest.isEmpty && decide (0 < g.idleCnt))
          let picked : Picked := ⟨r.task, needTickle⟩
          some ({ g with tasks := r.rest }, if needTickle then .tickleTest picked
            else .branch picked)
  | .tickleTest r => some (g, if g.idleCnt ≠ 0 then .ticklePost r else .branch r)
  | .ticklePost r => some ({ g with permits := g.permits + 1 }, .branch r)
  | .branch r =>
      match r.task with
      | some t => some (g, .resume t)
      | none =>
          if g.isStopping then some (g, .stopping)
          else if r.needTickle then some (g, .pick)
          else some (g, .idle)
  | .resume _ => some (g, .pick)
  | .stopping =>
      if tid = mainThreadId ∧ g.threadCnt ≠ 0 then some (g, .idle) else some (g, .exit)
  | .idle => some (g, if g.isStopping then .idleStopping else .idleEnter)
  | .idleStopping =>
      if tid = mainThreadId ∧ 0 < g.threadCnt then some (g, .idleEnter) else some (g, .pick)
  | .idleEnter => some ({ g with idleCnt := g.idleCnt + 1 }, .idleWait)
  | .idleWait =>
      if 0 < g.permits then some ({ g with permits := g.permits - 1 }, .idleLeave) else none
  | .idleLeave => some ({ g with idleCnt := g.idleCnt - 1 }, .pick)
  | .exit => some ({ g with threadCnt := g.threadCnt - 1 }, .exitTest)
  | .exitTest => some (g, if g.idleCnt ≠ 0 then .exitPost else .left)
  | .exitPost => some ({ g with permits := g.permits + 1 }, .left)
  | .left => none
  | .fault => none

/-! ## Callers -/

/-- The calls from other threads. -/
inductive Call
  | schedule (t : Task)
  | schedules (ts : List Task)
  | stop
deriving DecidableEq

/-- Where a caller is. -/
inductive CallerPC
  /-- in no call -/
  | ready
  /-- `schedule` or `schedules`: before the test of `m_is_stopping` -/
  | schedTest (ts : List Task)
  /-- before the section under `m_mutex` -/
  | push (ts : List Task)
  /-- before `need_tickle && m_idle_cnt > 0` -/
  | idleTest (needTickle : Bool)
  /-- `stop`: before the test of `m_is_stopped` -/
  | stopTest
  /-- `stop`: before `m_is_stopping = true` -/
  | stopSet
  /-- `tickle()`: before `if (m_idle_cnt)` -/
  | tickleTest
  /-- `tickle()`: before `m_semaphore.post()` -/
  | post
deriving DecidableEq

/-- Where a call starts. -/
def Call.entry : Call → CallerPC
  | .schedule t => .schedTest [t]
  | .schedules ts => .schedTest ts
  | .stop => .stopTest

/-- One step of a caller inside of a call. -/
def callerStep (g : Shared) : CallerPC → Option (Shared × CallerPC)
  | .ready => none
  | .schedTest ts => some (g, if g.isStopping then .ready else .push ts)
  | .push ts => some ({ g with tasks := g.tasks ++ ts }, .idleTest g.tasks.isEmpty)
  | .idleTest needTickle =>
      some (g, if needTickle && decide (0 < g.idleCnt) then .tickleTest else .ready)
  | .stopTest => some (g, if g.isStopped then .ready else .stopSet)
  | .stopSet => some ({ g with isStopping := true }, .tickleTest)
  | .tickleTest => some (g, if g.idleCnt ≠ 0 then .post else .ready)
  | .post => some ({ g with permits := g.permits + 1 }, .ready)

/-! ## The system -/

/-- A scheduler with `n` workers and any number of callers. -/
structure State (n : Nat) where
  shared : Shared
  workers : Fin n → WorkerPC
  callers : Nat → CallerPC

/-- Which thread moves; a caller that is in no call may begin one. -/
inductive Action (n : Nat)
  | worker (i : Fin n)
  | caller (c : Nat)
  | call (c : Nat) (k : Call)

/-- One step of the system. -/
def step {n : Nat} (cfg : Config n) (s : State n) : Action n → Option (State n)
  | .worker i =>
      (workerStep cfg.mainThreadId (cfg.tid i) s.shared (s.workers i)).map fun r =>
        { s with shared := r.1, workers := Function.update s.workers i r.2 }
  | .caller c =>
      (callerStep s.shared (s.callers c)).map fun r =>
        { s with shared := r.1, callers := Function.update s.callers c r.2 }
  | .call c k =>
      if s.callers c = .ready then
        some { s with callers := Function.update s.callers c k.entry }
      else none

/-- The state right after `start()`: the workers enter `run`, and `tasks` were
scheduled before. -/
def started {n : Nat} (threadCnt : UInt64) (tasks : List Task) : State n where
  shared := ⟨tasks, 0, 0, false, false, threadCnt⟩
  workers := fun _ => .pick
  callers := fun _ => .ready

/-- The steps of the threads, in the given order. -/
def runActions {n : Nat} (cfg : Config n) (s : State n) (actions : List (Action n)) :
    Option (State n) :=
  actions.foldlM (step cfg) s

end Scheduler
end Tiger
