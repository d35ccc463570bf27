import Mathlib.Tactic
import Tiger.Lib.Interleaving
import Tiger.Scheduler.Model

/-!
# Scheduler - the number of threads

This module embeds the constructor of `Scheduler` and `start` (`src/scheduler.cc`) around the steps
of the workers and callers.  `start` spawns as many workers as `m_thread_cnt` says, and executes
`run` itself when the main thread is to be used; any thread may call it, any number of times.

The constructor takes the main thread off the counter, and `run` takes it off once more.

Main results:

- Theorem `step_counts`: the step lemma.
- Theorem `counted_iff`: the reachable states in which the counter is the number of the workers
  that have not left.
- Theorem `counter_wraps`: one thread, which is the main thread, is started and stopped.
-/

namespace Tiger
namespace Scheduler
namespace ThreadCount

open Lib (runSteps invariant_of_runSteps)

/-! ## The system -/

/-- The arguments of the constructor, the thread that calls it, and the ids of the threads. -/
structure Config where
  useMainThread : Bool
  threadCnt : UInt64
  mainThreadId : Nat
  workerTid : Nat → Nat
  callerTid : Nat → Nat
  threadCnt_pos : 1 ≤ threadCnt.toNat

/-- Where a caller is. -/
inductive StarterPC
  /-- in no call, or in one of the other calls -/
  | other (pc : CallerPC)
  /-- `start`: before the section under `m_mutex` -/
  | startSection
  /-- `start`: in `run` -/
  | inRun
deriving DecidableEq

/-- A scheduler: its data, the workers in `m_threads`, the caller that executes `run` from `start`
and where it is in there, and the callers. -/
structure State where
  shared : Shared
  workers : List WorkerPC
  main : Option (Nat × WorkerPC)
  callers : Nat → StarterPC

/-- Which thread moves; a caller that is in no call may begin one. -/
inductive Action
  | worker (i : Nat)
  | main
  | caller (c : Nat)
  | call (c : Nat) (k : Call)
  | start (c : Nat)

/-- `m_thread_cnt` behind the constructor -/
def Config.initial (cfg : Config) : UInt64 :=
  if cfg.useMainThread then cfg.threadCnt - 1 else cfg.threadCnt

/-- `Scheduler(name, use_main_thread, thread_cnt)` -/
def constructed (cfg : Config) : State where
  shared := ⟨[], 0, 0, false, true, cfg.initial⟩
  workers := []
  main := none
  callers := fun _ => .other .ready

/-- The caller `c` goes on at `pc`. -/
def State.setCaller (s : State) (c : Nat) (pc : StarterPC) : State :=
  { s with callers := Function.update s.callers c pc }

/-- The section of `start`, called by `c`, and the test of `m_use_main_thread` behind it. -/
def startSection (cfg : Config) (s : State) (c : Nat) : State :=
  if !s.shared.isStopped || s.shared.isStopping then s.setCaller c (.other .ready)
  else
    let spawned : State := { s with
      shared := { s.shared with isStopped := false, isStopping := false }
      workers := s.workers ++ List.replicate s.shared.threadCnt.toNat .pick }
    if cfg.useMainThread then { spawned with main := some (c, .pick) }.setCaller c .inRun
    else spawned.setCaller c (.other .ready)

/-- One step of a caller. -/
def callerMove (cfg : Config) (s : State) (c : Nat) : Option State :=
  match s.callers c with
  | .other pc =>
    (callerStep s.shared pc).map fun r => { s with shared := r.1 }.setCaller c (.other r.2)
  | .startSection => some (startSection cfg s c)
  | .inRun => if s.main = some (c, .left) then some (s.setCaller c (.other .ready)) else none

/-- One step of the system. -/
def step (cfg : Config) (s : State) : Action → Option State
  | .worker i =>
    s.workers[i]?.bind fun pc =>
      (workerStep cfg.mainThreadId (cfg.workerTid i) s.shared pc).map fun r =>
        { s with shared := r.1, workers := s.workers.set i r.2 }
  | .main =>
    s.main.bind fun m =>
      (workerStep cfg.mainThreadId (cfg.callerTid m.1) s.shared m.2).map fun r =>
        { s with shared := r.1, main := some (m.1, r.2) }
  | .caller c => callerMove cfg s c
  | .call c k =>
    if s.callers c = .other .ready then some (s.setCaller c (.other k.entry)) else none
  | .start c =>
    if s.callers c = .other .ready then some (s.setCaller c .startSection) else none

/-! ## Threads in run -/

/-- A thread has not left `run`: it is not behind `--m_thread_cnt`. -/
def inRun : WorkerPC → Bool
  | .exitTest | .exitPost | .left => false
  | _ => true

/-- The counter is the number of the workers that have been spawned and have not left. -/
def Counted (s : State) : Prop := s.shared.threadCnt.toNat = s.workers.countP inRun

/-- The caller that executes `run` has left it. -/
def mainLeft (s : State) : Bool := s.main.any fun m => !inRun m.2

/-- All workers are spawned. -/
def AllSpawned (cfg : Config) (s : State) : Prop := s.workers.length = cfg.initial.toNat

/-! ## Steps of the workers and callers -/

/-- A thread in `run` keeps the counter, or leaves and takes itself off it. -/
structure Counts (g g' : Shared) (pc pc' : WorkerPC) : Prop where
  isStopped_eq : g'.isStopped = g.isStopped
  threadCnt_eq : g'.threadCnt + UInt64.ofNat (inRun pc).toNat =
    g.threadCnt + UInt64.ofNat (inRun pc').toNat

variable {g g' : Shared} {pc pc' : WorkerPC}

theorem Counts.of_same (hpc : inRun pc' = inRun pc) (hstopped : g'.isStopped = g.isStopped)
    (hcnt : g'.threadCnt = g.threadCnt) : Counts g g' pc pc' :=
  ⟨hstopped, by rw [hpc, hcnt]⟩

/-- A worker counts what it enters and leaves. -/
theorem workerStep_counts {mainThreadId tid : Nat}
    (h : workerStep mainThreadId tid g pc = some (g', pc')) : Counts g g' pc pc' := by
  cases pc with
  | pick =>
    rw [workerStep] at h
    split at h
    · cases h
      exact .of_same rfl rfl rfl
    · cases h
      refine .of_same ?_ rfl rfl
      split <;> rfl
  | tickleTest r =>
    cases h
    refine .of_same ?_ rfl rfl
    split <;> rfl
  | branch r =>
    rw [workerStep] at h
    split at h
    · cases h
      exact .of_same rfl rfl rfl
    · split_ifs at h <;> cases h <;> exact .of_same rfl rfl rfl
  | idle =>
    cases h
    refine .of_same ?_ rfl rfl
    split <;> rfl
  | stopping | idleStopping | idleWait =>
    rw [workerStep] at h
    split_ifs at h <;> cases h <;> exact .of_same rfl rfl rfl
  | exit =>
    cases h
    refine ⟨rfl, ?_⟩
    simp [inRun]
  | exitTest =>
    cases h
    refine .of_same ?_ rfl rfl
    split <;> rfl
  | ticklePost r | resume t | idleEnter | idleLeave | exitPost =>
    cases h
    exact .of_same rfl rfl rfl
  | left | fault => cases h

/-- A caller leaves the stop flag and the count. -/
theorem callerStep_keeps {pc pc' : CallerPC} (h : callerStep g pc = some (g', pc')) :
    g'.isStopped = g.isStopped ∧ g'.threadCnt = g.threadCnt := by
  cases pc with
  | ready => cases h
  | _ =>
    cases h
    exact ⟨rfl, rfl⟩

/-! ## Steps of the system -/

/-- Before the workers are spawned the counter is as the constructor leaves it; behind that it is
the number of those that have not left, less one once the caller in `run` has left. -/
structure Tracks (cfg : Config) (s : State) : Prop where
  fresh : s.shared.isStopped = true →
    s.workers = [] ∧ s.main = none ∧ s.shared.threadCnt = cfg.initial
  counter : s.shared.isStopped = false →
    s.shared.threadCnt + UInt64.ofNat (mainLeft s).toNat = UInt64.ofNat (s.workers.countP inRun)
  spawned : s.shared.isStopped = false → AllSpawned cfg s

variable {cfg : Config} {s s' : State}

/-- A constructed scheduler has counted nothing. -/
theorem constructed_tracks (cfg : Config) : Tracks cfg (constructed cfg) where
  fresh := fun _ => ⟨rfl, rfl, rfl⟩
  counter := fun h => absurd h (by simp [constructed])
  spawned := fun h => absurd h (by simp [constructed])

/-- Where callers are does not matter. -/
theorem Tracks.setCaller (h : Tracks cfg s) (c : Nat) (pc : StarterPC) :
    Tracks cfg (s.setCaller c pc) :=
  ⟨h.fresh, h.counter, h.spawned⟩

/-- The number of workers in `run` changes with the one that moves. -/
theorem countP_inRun_set {workers : List WorkerPC} {i : Nat} (hi : workers[i]? = some pc)
    (pc' : WorkerPC) :
    UInt64.ofNat ((workers.set i pc').countP inRun) + UInt64.ofNat (inRun pc).toNat =
      UInt64.ofNat (workers.countP inRun) + UInt64.ofNat (inRun pc').toNat := by
  obtain ⟨hlt, rfl⟩ := List.getElem?_eq_some_iff.mp hi
  have hle := List.boole_getElem_le_countP (p := inRun) hlt
  have hnat : (workers.set i pc').countP inRun + (inRun workers[i]).toNat =
      workers.countP inRun + (inRun pc').toNat := by
    rw [List.countP_set hlt]
    cases hin : inRun workers[i] with
    | false =>
      simp only [Bool.false_eq_true, if_false, Bool.toNat_false]
      cases inRun pc' <;> simp
    | true =>
      rw [if_pos hin] at hle
      simp only [if_true, Bool.toNat_true]
      cases inRun pc' <;> simp <;> omega
  rw [← UInt64.ofNat_add, ← UInt64.ofNat_add, hnat]

/-- A worker has moved. -/
theorem Tracks.worker (h : Tracks cfg s) {i : Nat} (hi : s.workers[i]? = some pc)
    (hcounts : Counts s.shared g' pc pc') :
    Tracks cfg { s with shared := g', workers := s.workers.set i pc' } := by
  obtain ⟨hlt, hget⟩ := List.getElem?_eq_some_iff.mp hi
  have hstarted : s.shared.isStopped = false := by
    by_contra hne
    have hnil := (h.fresh (by simpa using hne)).1
    simp [hnil] at hlt
  have hcounter := h.counter hstarted
  refine ⟨?_, ?_, ?_⟩
  · intro hstopped
    simp only [hcounts.isStopped_eq, hstarted] at hstopped
    cases hstopped
  · intro _
    have hcnt := hcounts.threadCnt_eq
    have hset := countP_inRun_set hi pc'
    simp only [mainLeft] at hcounter ⊢
    grind
  · intro _
    simpa [AllSpawned] using h.spawned hstarted

/-- The caller in `run` has moved. -/
theorem Tracks.main (h : Tracks cfg s) {c : Nat} (hmain : s.main = some (c, pc))
    (hcounts : Counts s.shared g' pc pc') :
    Tracks cfg { s with shared := g', main := some (c, pc') } := by
  have hstarted : s.shared.isStopped = false := by
    by_contra hne
    have hnone := (h.fresh (by simpa using hne)).2.1
    rw [hmain] at hnone
    cases hnone
  have hcounter := h.counter hstarted
  refine ⟨?_, ?_, fun _ => h.spawned hstarted⟩
  · intro hstopped
    simp only [hcounts.isStopped_eq, hstarted] at hstopped
    cases hstopped
  · intro _
    have hcnt := hcounts.threadCnt_eq
    have hleft (pc : WorkerPC) :
        UInt64.ofNat (!inRun pc).toNat + UInt64.ofNat (inRun pc).toNat = 1 := by
      cases inRun pc <;> rfl
    have hpc := hleft pc
    have hpc' := hleft pc'
    simp only [mainLeft, hmain, Option.any_some] at hcounter ⊢
    grind

/-- `start` has taken its section. -/
theorem Tracks.startSection (h : Tracks cfg s) (c : Nat) :
    Tracks cfg (ThreadCount.startSection cfg s c) := by
  unfold ThreadCount.startSection
  split
  · exact h.setCaller c _
  · next hgo =>
    have hstopped : s.shared.isStopped = true := by
      by_contra hne
      simp [hne] at hgo
    obtain ⟨hworkers, hmain, hcnt⟩ := h.fresh hstopped
    have hcount : (List.replicate s.shared.threadCnt.toNat WorkerPC.pick).countP inRun =
        s.shared.threadCnt.toNat := by
      rw [List.countP_replicate]
      exact if_pos rfl
    have hspawned (main : Option (Nat × WorkerPC)) (hin : main.any (fun m => !inRun m.2) = false) :
        Tracks cfg { s with
          shared := { s.shared with isStopped := false, isStopping := false }
          workers := s.workers ++ List.replicate s.shared.threadCnt.toNat .pick
          main := main } := by
      refine ⟨fun h => absurd h (by simp), ?_, ?_⟩
      · intro _
        simp [mainLeft, hin, hworkers, hcount]
      · intro _
        simp [AllSpawned, hworkers, hcnt]
    split
    · exact (hspawned (some (c, .pick)) rfl).setCaller c _
    · exact (hspawned s.main (by simp [hmain])).setCaller c _

/-- Every step keeps the counter on its track. -/
theorem step_counts {a : Action} (h : Tracks cfg s) (hstep : step cfg s a = some s') :
    Tracks cfg s' := by
  cases a with
  | worker i =>
    obtain ⟨pc, hi, hmove⟩ := Option.bind_eq_some_iff.mp hstep
    obtain ⟨r, hr, rfl⟩ := Option.map_eq_some_iff.mp hmove
    exact h.worker hi (workerStep_counts hr)
  | main =>
    obtain ⟨m, hm, hmove⟩ := Option.bind_eq_some_iff.mp hstep
    obtain ⟨r, hr, rfl⟩ := Option.map_eq_some_iff.mp hmove
    exact h.main hm (workerStep_counts hr)
  | caller c =>
    simp only [step, callerMove] at hstep
    split at hstep
    · next pc hpc =>
      obtain ⟨r, hr, rfl⟩ := Option.map_eq_some_iff.mp hstep
      obtain ⟨hstopped, hcnt⟩ := callerStep_keeps hr
      have hkept : Tracks cfg { s with shared := r.1 } := by
        refine ⟨?_, ?_, ?_⟩
        · simpa [hstopped, hcnt] using h.fresh
        · simpa [hstopped, hcnt, mainLeft] using h.counter
        · simpa [hstopped, AllSpawned] using h.spawned
      exact hkept.setCaller c _
    · cases hstep
      exact h.startSection c
    · split_ifs at hstep
      cases hstep
      exact h.setCaller c _
  | call c k =>
    simp only [step] at hstep
    split_ifs at hstep
    cases hstep
    exact h.setCaller c _
  | start c =>
    simp only [step] at hstep
    split_ifs at hstep
    cases hstep
    exact h.setCaller c _

/-! ## Runs -/

theorem run_tracks {actions : List Action}
    (hrun : runSteps (step cfg) (constructed cfg) actions = some s) : Tracks cfg s :=
  invariant_of_runSteps (fun _ _ _ => step_counts) hrun (constructed_tracks cfg)

/-- In every reachable state, the counter is the number of the workers that have not left exactly
when all workers are spawned and the caller that executes `run` from `start` has not left it. -/
theorem counted_iff {actions : List Action}
    (hrun : runSteps (step cfg) (constructed cfg) actions = some s) :
    Counted s ↔ AllSpawned cfg s ∧ mainLeft s = false := by
  have h := run_tracks hrun
  cases hstopped : s.shared.isStopped with
  | true =>
    obtain ⟨hworkers, hmain, hcnt⟩ := h.fresh hstopped
    simp [Counted, AllSpawned, mainLeft, hworkers, hmain, hcnt, eq_comm]
  | false =>
    have hcounter := h.counter hstopped
    have hspawned := h.spawned hstopped
    have hlt : s.workers.countP inRun < 2 ^ 64 := by
      have hle := List.countP_le_length (p := inRun) (l := s.workers)
      have hsize := cfg.initial.toNat_lt
      unfold AllSpawned at hspawned
      omega
    have hcount : (UInt64.ofNat (s.workers.countP inRun)).toNat = s.workers.countP inRun :=
      UInt64.toNat_ofNat_of_lt' hlt
    unfold Counted
    cases hleft : mainLeft s with
    | false =>
      -- the counter is as it should be
      have hcnt : s.shared.threadCnt = UInt64.ofNat (s.workers.countP inRun) := by
        simpa [hleft] using hcounter
      rw [hcnt, hcount]
      exact ⟨fun _ => ⟨hspawned, rfl⟩, fun _ => rfl⟩
    | true =>
      have hne : s.shared.threadCnt.toNat ≠ s.workers.countP inRun := by
        intro heq
        have hcnt : s.shared.threadCnt = UInt64.ofNat (s.workers.countP inRun) := by
          rw [← heq, UInt64.ofNat_toNat]
        rw [hcnt, hleft] at hcounter
        have hone : (UInt64.ofNat true.toNat) = 0 := by grind
        cases hone
      simp [hne]

/-- The main thread, caller 0, and one worker. -/
def twoThreads : Config := ⟨true, 2, 0, fun i => i + 100, id, by decide⟩

/-- A worker has been spawned, and the main thread is in `run`. -/
theorem counted_iff_spawned :
    ∃ s, runSteps (step twoThreads) (constructed twoThreads) [.start 0, .caller 0] = some s ∧
      s.workers = [.pick] ∧ (Counted s ↔ AllSpawned twoThreads s ∧ mainLeft s = false) := by
  have hrun : ∃ s, runSteps (step twoThreads) (constructed twoThreads) [.start 0, .caller 0] =
      some s ∧ s.workers = [.pick] := ⟨_, rfl, rfl⟩
  obtain ⟨s, hrun, hworkers⟩ := hrun
  exact ⟨s, hrun, hworkers, counted_iff hrun⟩

/-- The main thread, caller 0, and no worker. -/
def oneThread : Config := ⟨true, 1, 0, fun i => i + 100, id, by decide⟩

/-- The main thread is the only one; it is started and stopped. -/
def startedThenStopped : List Action :=
  [.start 0, .caller 0, .call 1 .stop, .caller 1, .caller 1, .caller 1, .main, .main, .main, .main]

/-- When the main thread has been started and stopped, the counter has wrapped. -/
theorem counter_wraps :
    ∃ s, runSteps (step oneThread) (constructed oneThread) startedThenStopped = some s ∧
      s.shared.threadCnt = 18446744073709551615 ∧ s.workers = [] ∧ ¬ Counted s := by
  refine ⟨_, rfl, rfl, rfl, ?_⟩
  unfold Counted
  decide

end ThreadCount
end Scheduler
end Tiger
