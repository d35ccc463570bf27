import Mathlib.Tactic
import Tiger.Lib.Interleaving
import Tiger.Scheduler.History
import Tiger.IOManager.Effects

/-!
# IOManager - wake-ups of a waiting coroutine

A coroutine in `do_socket_io` (`src/hook.cc`) registers its event and then yields.  The
event may fire in between: other threads deliver, cancel and register events at any time.
This module follows one coroutine on its worker, with the tasks that are to wake it.

Each operation on a context is one step, since it holds the mutex of the context; the
unlocked test that precedes `cancel_event` and `cancel_all_event` is left out, so that they
may come at any time.  `trigger_event` hands its waiter to `schedule`; the task is queued in
a later step, and not at all when the scheduler is stopping.

Main results:

- Theorem `step_tracked`: the step lemma.
- Theorem `wakeUp_once`: in every run each registration queues one wake-up at most, it is
  pinned to the worker, and the worker finds the coroutine in `YIELD`.
-/

namespace Tiger
namespace IOManager

open Lib
open Scheduler (Task Scan scan)

/-! ## The system -/

/-- `Coroutine::State` -/
inductive CoState
  | INIT
  | RUNNING
  | YIELD
  | TERMINAL
  | EXCEPT
deriving DecidableEq

/-- `state & (INIT | YIELD)`: the test in `Scheduler::run`. -/
def CoState.resumable : CoState → Bool
  | .INIT | .YIELD => true
  | _ => false

/-- Where the coroutine is in `do_socket_io` while its worker executes it. -/
inductive CoPC
  /-- before `add_event`, and outside of the loop -/
  | running
  /-- behind `add_event`, before `Yield` -/
  | added
  /-- in `Yield`: behind `m_state = YIELD`, before `swapcontext` -/
  | yielding
deriving DecidableEq

/-- Where the worker is. -/
inductive Place
  /-- it executes the coroutine -/
  | inCo (pc : CoPC)
  /-- it looks for a task, idles or executes another coroutine -/
  | away
  /-- it has taken a task out of the queue; before the test of its state -/
  | picked (t : Task)
deriving DecidableEq

/-- The coroutine, and the id of its worker. -/
structure Waiting where
  co : Nat
  tid : Nat
  scheduler : Nat
  tid_ne : tid ≠ 0

/-- The manager, the calls of `schedule` that have not queued their task yet, the queue, the
worker, the state of the coroutine, and how many wake-ups have been queued since it last
registered an event. -/
structure System where
  manager : Manager
  inFlight : List ScheduleCall
  tasks : List Task
  place : Place
  state : CoState
  woken : Nat

/-- The task that `schedule` makes of a waiter; a callback gets a new coroutine. -/
def Waiter.coroutine (fresh : Nat) : Waiter → Nat
  | .co id => id
  | .cb _ => fresh

/-- The steps. -/
inductive Action
  /-- the coroutine executes `add_event` -/
  | addEvent (fd : Nat) (d : Direction) (ok : Bool)
  /-- the coroutine sets its state in `Yield` -/
  | setYield
  /-- `swapcontext` in `Yield` -/
  | swap
  /-- the coroutine ends -/
  | finish (state : CoState)
  /-- the worker looks for a task -/
  | pick
  /-- the worker tests the state of the coroutine it has picked -/
  | test
  /-- another worker looks for a task -/
  | otherPick (tid : Nat)
  /-- a call of `schedule` from `trigger_event` queues its task, or is refused -/
  | push (i : Nat) (fresh : Nat) (accepted : Bool)
  /-- another task is scheduled -/
  | schedule (t : Task)
  /-- another coroutine registers an event, or a callback is registered -/
  | register (fd : Nat) (d : Direction) (cb : Option Nat) (caller : Caller) (ok : Bool)
  /-- `cancel_event`, its locked part -/
  | cancelEvent (fd : Nat) (d : Direction) (ok : Bool)
  /-- `cancel_all_event`, its locked part -/
  | cancelAllEvent (fd : Nat) (ok : Bool)
  /-- `idle` delivers an event -/
  | deliver (fd : Nat) (mask : Manager.EpollMask) (ok : Bool)

namespace System

/-- The manager behind an operation, and the calls of `schedule` that it makes. -/
def operate (s : System) (m : Manager) : System :=
  { s with manager := m, inFlight := s.inFlight ++ m.calls.drop s.manager.calls.length }

/-- One step; `none` where the thread is not there to take it. -/
def step (w : Waiting) (s : System) : Action → Option System
  | .addEvent fd d ok =>
      if s.place = .inCo .running then
        let r := s.manager.addEvent fd d.status none ⟨some w.scheduler, some w.co, w.tid⟩ ok
        -- a failed `add_event` makes `do_socket_io` return
        some (if r.1 then { s.operate r.2 with place := .inCo .added, woken := 0 }
          else s.operate r.2)
      else none
  | .setYield =>
      if s.place = .inCo .added then some { s with place := .inCo .yielding, state := .YIELD }
      else none
  | .swap => if s.place = .inCo .yielding then some { s with place := .away } else none
  | .finish state =>
      if s.place = .inCo .running ∧ (state = .TERMINAL ∨ state = .EXCEPT) then
        some { s with place := .away, state := state }
      else none
  | .pick =>
      if s.place = .away then
        (scan w.tid s.tasks).map fun r =>
          { s with tasks := r.rest
                   place := match r.task with
                    | some t => .picked t
                    | none => .away }
      else none
  | .test =>
      match s.place with
      | .picked t =>
          if t.co = some w.co then
            some (if s.state.resumable then { s with place := .inCo .running, state := .RUNNING }
              else { s with place := .away })
          else some { s with place := .away }
      | _ => none
  | .otherPick tid =>
      if tid ≠ w.tid then (scan tid s.tasks).map fun r => { s with tasks := r.rest } else none
  | .push i fresh accepted =>
      if fresh ≠ w.co then
        s.inFlight[i]?.map fun call =>
          let co := call.waiter.coroutine fresh
          let s := { s with inFlight := s.inFlight.eraseIdx i }
          if accepted then
            { s with tasks := s.tasks ++ [⟨some co, call.threadId⟩]
                     woken := if co = w.co then s.woken + 1 else s.woken }
          else s
      else none
  | .schedule t => if t.co ≠ some w.co then some { s with tasks := s.tasks ++ [t] } else none
  | .register fd d cb caller ok =>
      if cb ≠ none ∨ caller.runningCo ≠ some w.co then
        some (s.operate (s.manager.addEvent fd d.status cb caller ok).2)
      else none
  | .cancelEvent fd d ok => some (s.operate (s.manager.cancelEventLocked fd d.status ok).2)
  | .cancelAllEvent fd ok => some (s.operate (s.manager.cancelAllEventLocked fd ok).2)
  | .deliver fd mask ok => some (s.operate (s.manager.deliver fd mask ok))

/-- Steps one after the other. -/
def run (w : Waiting) (s : System) (actions : List Action) : Option System :=
  runSteps (step w) s actions

end System

/-- The worker executes the coroutine, and nothing is there to wake it. -/
structure Begins (w : Waiting) (s : System) : Prop where
  place : s.place = .inCo .running
  state : s.state = .RUNNING
  contexts : ∀ fd d, ((s.manager.contexts fd).at d).co ≠ some w.co
  inFlight : ∀ call ∈ s.inFlight, call.waiter ≠ .co w.co
  tasks : ∀ t ∈ s.tasks, t.co ≠ some w.co
  woken : s.woken = 0

/-! ## Triggers -/

/-- One registered direction is triggered. -/
structure Fired (fd : Nat) (d : Direction) (m m' : Manager) : Prop where
  has : (m.contexts fd).statuses.has d = true
  contexts_eq : m'.contexts = Function.update m.contexts fd ((m.contexts fd).fire d)
  calls_eq : m'.calls = m.calls ++ [((m.contexts fd).at d).call]

/-- Some registered directions are triggered, one after the other. -/
inductive Fires : Manager → Manager → Prop
  | still {m m' : Manager} (contexts_eq : m'.contexts = m.contexts)
      (calls_eq : m'.calls = m.calls) :
      Fires m m'
  | fire {m m₁ m' : Manager} {fd : Nat} {d : Direction} (h : Fired fd d m m₁) (rest : Fires m₁ m') :
      Fires m m'

namespace Fires

variable {m m' m'' : Manager}

theorem refl (m : Manager) : Fires m m := .still rfl rfl

/-- What contexts and calls do not see may change in front. -/
theorem of_same (h : Fires m m') {m₀ : Manager} (hcontexts : m.contexts = m₀.contexts)
    (hcalls : m.calls = m₀.calls) : Fires m₀ m' := by
  cases h with
  | still hcontexts' hcalls' => exact .still (hcontexts'.trans hcontexts) (hcalls'.trans hcalls)
  | @fire _ m₁ _ fd d h rest =>
      have hfired : Fired fd d m₀ m₁ := by
        constructor
        · rw [← hcontexts]
          exact h.has
        · rw [← hcontexts]
          exact h.contexts_eq
        · rw [← hcontexts, ← hcalls]
          exact h.calls_eq
      exact .fire hfired rest

/-- Firings one after the other. -/
theorem trans (h : Fires m m') (h' : Fires m' m'') : Fires m m'' := by
  induction h with
  | still hcontexts hcalls => exact h'.of_same hcontexts hcalls
  | fire hfired _ ih => exact .fire hfired (ih h')

/-- The calls are added to those before. -/
theorem calls (h : Fires m m') : ∃ new, m'.calls = m.calls ++ new := by
  induction h with
  | still _ hcalls => exact ⟨[], by rw [hcalls, List.append_nil]⟩
  | fire hfired _ ih =>
      rcases ih with ⟨new, hnew⟩
      rw [hfired.calls_eq, List.append_assoc] at hnew
      exact ⟨_, hnew⟩

end Fires

section Operations

variable (m : Manager) (fd : Nat)

/-- Triggering an event fires its directions. -/
theorem triggerEvent_fires (d : Direction) : Fires m (m.triggerEvent fd d.status) := by
  cases hhas : (m.contexts fd).statuses.has d with
  | true =>
      rw [triggerEvent_eq hhas]
      exact .fire ⟨hhas, rfl, rfl⟩ (.refl _)
  | false =>
      have hsame : (m.contexts fd).triggerEvent d.status = (m.contexts fd, []) := by
        rw [Context.triggerEvent, EventStatus.meets_status, hhas]
        rfl
      rw [Manager.triggerEvent, hsame]
      refine .still ?_ (List.append_nil _)
      exact Function.update_eq_self fd m.contexts

/-- Triggering under a condition fires or does nothing. -/
theorem triggerIf_fires (wanted : Bool) (d : Direction) :
    Fires m (m.triggerIf fd wanted d.status) := by
  cases wanted with
  | false => exact .refl m
  | true => exact (triggerEvent_fires m fd d).trans (.still rfl rfl)

/-- `epoll_ctl` is not seen by contexts and calls. -/
theorem epollCtl_same {m m' : Manager} {ok : Bool} {op : Manager.EpollOp} {fd : Nat}
    {status : EventStatus} (h : m.epollCtl ok op fd status = some m') :
    m'.contexts = m.contexts ∧ m'.calls = m.calls := by
  cases ok with
  | false => cases h
  | true => cases op <;> cases h <;> exact ⟨rfl, rfl⟩

/-- Cancelling an event fires it or does nothing. -/
theorem cancelEventLocked_fires (d : Direction) (ok : Bool) :
    Fires m (m.cancelEventLocked fd d.status ok).2 := by
  rw [Manager.cancelEventLocked]
  cases hctl : m.epollCtl ok (Manager.modOrDel ((m.contexts fd).statuses.minus d.status)) fd
      ((m.contexts fd).statuses.minus d.status) with
  | none => exact Fires.refl m
  | some m₁ =>
      rcases epollCtl_same hctl with ⟨hcontexts, hcalls⟩
      exact (triggerEvent_fires m₁.decrement fd d).of_same hcontexts hcalls

/-- Cancelling all events fires them or does nothing. -/
theorem cancelAllEventLocked_fires (ok : Bool) : Fires m (m.cancelAllEventLocked fd ok).2 := by
  rw [Manager.cancelAllEventLocked]
  cases hctl : m.epollCtl ok .del fd .none with
  | none => exact Fires.refl m
  | some m₁ =>
      rcases epollCtl_same hctl with ⟨hcontexts, hcalls⟩
      exact ((triggerIf_fires m₁ fd _ .read).trans (triggerIf_fires _ fd _ .write)).of_same
        hcontexts hcalls

/-- Delivering events fires them or does nothing. -/
theorem deliver_fires (mask : Manager.EpollMask) (ok : Bool) : Fires m (m.deliver fd mask ok) := by
  rw [Manager.deliver]
  split_ifs with hnone
  · exact Fires.refl m
  · cases hctl : m.epollCtl ok
        (Manager.modOrDel ((m.contexts fd).statuses.minus mask.realStatus)) fd
        ((m.contexts fd).statuses.minus mask.realStatus) with
    | none => simpa only [hctl] using Fires.refl m
    | some m₁ =>
        rcases epollCtl_same hctl with ⟨hcontexts, hcalls⟩
        simp only [hctl]
        exact ((triggerIf_fires m₁ fd _ .read).trans (triggerIf_fires _ fd _ .write)).of_same
          hcontexts hcalls

end Operations

/-! ## Where the wake-up is -/

/-- Where the wake-up of the coroutine is: nowhere, in an event context, in a call of
`schedule`, in the queue, or with the worker. -/
inductive Slot
  | nowhere
  | context (fd : Nat) (d : Direction)
  | inFlight
  | queued
  | picked
deriving DecidableEq

/-- The task is still to be queued. -/
def Slot.toCome : Slot → Nat
  | .context _ _ | .inFlight => 1
  | _ => 0

/-- The call schedules the coroutine. -/
def Waiting.calls (w : Waiting) (call : ScheduleCall) : Bool := decide (call.waiter = .co w.co)

/-- The task is for the coroutine. -/
def Waiting.owns (w : Waiting) (t : Task) : Bool := decide (t.co = some w.co)

/-- The state of the coroutine while the worker executes it. -/
def CoPC.state : CoPC → CoState
  | .running | .added => .RUNNING
  | .yielding => .YIELD

/-- The wake-up is in one place at most, and pinned to the worker. -/
structure Located (w : Waiting) (slot : Slot) (m : Manager) (inFlight : List ScheduleCall)
    (tasks : List Task) (woken : Nat) : Prop where
  contexts : ∀ fd d, ((m.contexts fd).at d).co = some w.co →
    slot = .context fd d ∧ (m.contexts fd).statuses.has d = true ∧
      ((m.contexts fd).at d).threadId = w.tid
  inFlight_one : inFlight.countP w.calls = if slot = .inFlight then 1 else 0
  inFlight_pinned : ∀ call ∈ inFlight, w.calls call = true → call.threadId = w.tid
  tasks_one : tasks.countP w.owns = if slot = .queued then 1 else 0
  tasks_pinned : ∀ t ∈ tasks, w.owns t = true → t.threadId = w.tid
  woken_le : woken + slot.toCome ≤ 1

/-- There is no wake-up while the coroutine does not wait, and once the worker has left a
coroutine that waits it is in `YIELD`. -/
structure Timely (w : Waiting) (slot : Slot) (place : Place) (state : CoState) : Prop where
  picked : ∀ t, place = .picked t → w.owns t = true → slot = .picked
  picked_place : slot = .picked → ∃ t, place = .picked t ∧ w.owns t = true
  running : place = .inCo .running → slot = .nowhere
  inCo : ∀ pc, place = .inCo pc → state = pc.state
  suspended : (∀ pc, place ≠ .inCo pc) → slot ≠ .nowhere → state = .YIELD

/-- The wake-up is where the slot says. -/
structure Tracked (w : Waiting) (slot : Slot) (s : System) : Prop where
  located : Located w slot s.manager s.inFlight s.tasks s.woken
  timely : Timely w slot s.place s.state

/-- An event context calls the coroutine that it holds. -/
theorem calls_call (w : Waiting) (e : EventContext) :
    w.calls e.call = decide (e.co = some w.co) := by
  rw [Waiting.calls, EventContext.call]
  cases e.co with
  | none => simp
  | some co => simp

theorem call_threadId (e : EventContext) : e.call.threadId = e.threadId := by
  rw [EventContext.call]
  split <;> rfl

/-- What `add_event` does to contexts and calls. -/
structure Registers (m : Manager) (fd : Nat) (d : Direction) (cb : Option Nat) (caller : Caller)
    (r : Bool × Manager) : Prop where
  calls_eq : r.2.calls = m.calls
  failed : r.1 = false → r.2.contexts = m.contexts
  done : r.1 = true → (m.contexts fd).statuses.has d = false ∧
    r.2.contexts = Function.update m.contexts fd ((m.contexts fd).register d cb caller)

/-- Adding an event registers it or does nothing. -/
theorem addEventLocked_registers {m m₁ : Manager} (hcontexts : m₁.contexts = m.contexts)
    (hcalls : m₁.calls = m.calls) (fd : Nat) (d : Direction) (cb : Option Nat) (caller : Caller)
    (ok : Bool) : Registers m fd d cb caller (m₁.addEventLocked fd d.status cb caller ok) := by
  rw [addEventLocked_eq, hcontexts]
  cases hthrough : (!(m.contexts fd).statuses.has d && ok) with
  | false => exact ⟨hcalls, fun _ => hcontexts, by simp⟩
  | true =>
      rw [Bool.and_eq_true, Bool.not_eq_true'] at hthrough
      exact ⟨hcalls, by simp, fun _ => ⟨hthrough.1, rfl⟩⟩

/-- `add_event` registers the event or does nothing. -/
theorem addEvent_registers (m : Manager) (fd : Nat) (d : Direction) (cb : Option Nat)
    (caller : Caller) (ok : Bool) :
    Registers m fd d cb caller (m.addEvent fd d.status cb caller ok) := by
  have hlocate : (m.locate fd).contexts = m.contexts ∧ (m.locate fd).calls = m.calls := by
    rw [Manager.locate]
    split_ifs
    · rw [Manager.fdContextResize]
      split_ifs <;> exact ⟨rfl, rfl⟩
    · exact ⟨rfl, rfl⟩
  rw [Manager.addEvent]
  exact addEventLocked_registers hlocate.1 hlocate.2 fd d cb caller ok

/-! ## Steps of the parts -/

namespace Located

variable {w : Waiting} {slot : Slot} {m m' : Manager} {inFlight : List ScheduleCall}
  {tasks : List Task} {woken : Nat}

/-- Where the coroutine is depends on the contexts only. -/
theorem of_contexts (h : Located w slot m inFlight tasks woken)
    (hcontexts : m'.contexts = m.contexts) :
    Located w slot m' inFlight tasks woken := by
  refine ⟨?_, h.inFlight_one, h.inFlight_pinned, h.tasks_one, h.tasks_pinned, h.woken_le⟩
  rw [hcontexts]
  exact h.contexts

/-- Where the wake-up is in no context, none holds the coroutine. -/
theorem no_context (h : Located w slot m inFlight tasks woken)
    (hslot : ∀ fd d, slot ≠ .context fd d) (fd : Nat) (d : Direction) :
    ((m.contexts fd).at d).co ≠ some w.co := by
  intro hco
  exact hslot fd d (h.contexts fd d hco).1

/-- A trigger leaves the other contexts alone and empties its own. -/
theorem fired_at {fd : Nat} {d : Direction} (hfired : Fired fd d m m') {fd' : Nat} {d' : Direction}
    (hco : ((m'.contexts fd').at d').co = some w.co) :
    (m'.contexts fd').at d' = (m.contexts fd').at d' ∧
      (m'.contexts fd').statuses.has d' = (m.contexts fd').statuses.has d' ∧
      ¬(fd' = fd ∧ d' = d) := by
  rw [hfired.contexts_eq] at hco ⊢
  by_cases hfd : fd' = fd
  · rw [hfd, Function.update_self, fire_at] at hco
    rw [hfd, Function.update_self, fire_at, fire_statuses, EventStatus.has_minus]
    by_cases hd : d' = d
    · rw [if_pos hd] at hco
      cases hco
    · rw [if_neg hd]
      exact ⟨rfl, by simp [hd], fun h => hd h.2⟩
  · rw [Function.update_of_ne hfd]
    exact ⟨rfl, rfl, fun h => hfd h.1⟩

/-- A trigger moves the wake-up from its context to a call of `schedule`. -/
theorem fire_own (h : Located w slot m inFlight tasks woken) {fd : Nat} {d : Direction}
    (hfired : Fired fd d m m') (hco : ((m.contexts fd).at d).co = some w.co) :
    slot = .context fd d ∧
      Located w .inFlight m' (inFlight ++ [((m.contexts fd).at d).call]) tasks woken := by
  rcases h.contexts fd d hco with ⟨rfl, _, htid⟩
  refine ⟨rfl, ?_, ?_, ?_, ?_, h.tasks_pinned, h.woken_le⟩
  · intro fd' d' hco'
    rcases fired_at hfired hco' with ⟨hat, _, hne⟩
    rw [hat] at hco'
    have hsame := (h.contexts fd' d' hco').1
    cases hsame
    exact absurd ⟨rfl, rfl⟩ hne
  · rw [List.countP_append, h.inFlight_one, List.countP_singleton, calls_call]
    simp [hco]
  · intro call hin hcalls
    rcases List.mem_append.mp hin with hin | hin
    · exact h.inFlight_pinned call hin hcalls
    · rw [List.mem_singleton.mp hin, call_threadId]
      exact htid
  · rw [h.tasks_one]
    rfl

/-- A trigger for another waiter. -/
theorem fire_other (h : Located w slot m inFlight tasks woken) {fd : Nat} {d : Direction}
    (hfired : Fired fd d m m') (hco : ((m.contexts fd).at d).co ≠ some w.co) :
    Located w slot m' (inFlight ++ [((m.contexts fd).at d).call]) tasks woken := by
  refine ⟨?_, ?_, ?_, h.tasks_one, h.tasks_pinned, h.woken_le⟩
  · intro fd' d' hco'
    rcases fired_at hfired hco' with ⟨hat, hhas, _⟩
    rw [hat] at hco' ⊢
    rw [hhas]
    exact h.contexts fd' d' hco'
  · rw [List.countP_append, List.countP_singleton, calls_call]
    simp [hco, h.inFlight_one]
  · intro call hin hcalls
    rcases List.mem_append.mp hin with hin | hin
    · exact h.inFlight_pinned call hin hcalls
    · rw [List.mem_singleton.mp hin, calls_call] at hcalls
      exact absurd (of_decide_eq_true hcalls) hco

/-- A registration changes the context of its direction only. -/
theorem registered_at {fd : Nat} {d : Direction} {cb : Option Nat} {caller : Caller}
    (hcontexts : m'.contexts = Function.update m.contexts fd ((m.contexts fd).register d cb caller))
    {fd' : Nat} {d' : Direction} (hne : ¬(fd' = fd ∧ d' = d)) :
    (m'.contexts fd').at d' = (m.contexts fd').at d' ∧
      (m'.contexts fd').statuses.has d' = (m.contexts fd').statuses.has d' := by
  rw [hcontexts]
  by_cases hfd : fd' = fd
  · have hd : d' ≠ d := fun hd => hne ⟨hfd, hd⟩
    rw [hfd, Function.update_self, register_at, if_neg hd, register_statuses, EventStatus.has_union]
    simp [hd]
  · rw [Function.update_of_ne hfd]
    exact ⟨rfl, rfl⟩

/-- Another waiter registers. -/
theorem register_other (h : Located w slot m inFlight tasks woken) {fd : Nat} {d : Direction}
    {cb : Option Nat} {caller : Caller} (hfree : (m.contexts fd).statuses.has d = false)
    (hcontexts : m'.contexts = Function.update m.contexts fd ((m.contexts fd).register d cb caller))
    (hother : cb ≠ none ∨ caller.runningCo ≠ some w.co) :
    Located w slot m' inFlight tasks woken := by
  refine ⟨?_, h.inFlight_one, h.inFlight_pinned, h.tasks_one, h.tasks_pinned, h.woken_le⟩
  intro fd' d' hco
  by_cases hne : fd' = fd ∧ d' = d
  · exfalso
    rcases hne with ⟨rfl, rfl⟩
    rw [hcontexts, Function.update_self, register_at, if_pos rfl] at hco
    cases cb with
    | some cb =>
        -- a callback leaves the coroutine of the context alone, and there was none
        rw [(h.contexts fd' d' hco).2.1] at hfree
        cases hfree
    | none => exact hother.elim (fun hcb => hcb rfl) fun hrunning => hrunning hco
  · rcases registered_at hcontexts hne with ⟨hat, hhas⟩
    rw [hat] at hco ⊢
    rw [hhas]
    exact h.contexts fd' d' hco

/-- The coroutine registers. -/
theorem register_own (h : Located w .nowhere m inFlight tasks woken) {fd : Nat} {d : Direction}
    {scheduler : Option Nat}
    (hcontexts : m'.contexts = Function.update m.contexts fd
      ((m.contexts fd).register d none ⟨scheduler, some w.co, w.tid⟩)) :
    Located w (.context fd d) m' inFlight tasks 0 := by
  refine ⟨?_, h.inFlight_one, h.inFlight_pinned, h.tasks_one, h.tasks_pinned, le_rfl⟩
  intro fd' d' hco
  by_cases hne : fd' = fd ∧ d' = d
  · rcases hne with ⟨rfl, rfl⟩
    rw [hcontexts, Function.update_self, register_at, if_pos rfl, register_statuses,
      EventStatus.has_union]
    exact ⟨rfl, by simp, rfl⟩
  · rw [(registered_at hcontexts hne).1] at hco
    exact absurd hco (h.no_context (by simp) fd' d')

/-- A coroutine with a task is queued. -/
theorem of_mem_tasks (h : Located w slot m inFlight tasks woken) {t : Task} (ht : t ∈ tasks)
    (howns : w.owns t = true) : slot = .queued := by
  by_contra hne
  have hcount := h.tasks_one
  rw [if_neg hne, List.countP_eq_zero] at hcount
  exact hcount t ht howns

/-- A coroutine with a call in flight is in flight. -/
theorem of_mem_inFlight (h : Located w slot m inFlight tasks woken) {call : ScheduleCall}
    (hin : call ∈ inFlight) (hcalls : w.calls call = true) : slot = .inFlight := by
  by_contra hne
  have hcount := h.inFlight_one
  rw [if_neg hne, List.countP_eq_zero] at hcount
  exact hcount call hin hcalls

/-- A task of another coroutine is queued. -/
theorem push_other (h : Located w slot m inFlight tasks woken) {t : Task}
    (howns : w.owns t = false) :
    Located w slot m inFlight (tasks ++ [t]) woken := by
  refine ⟨h.contexts, h.inFlight_one, h.inFlight_pinned, ?_, ?_, h.woken_le⟩
  · rw [List.countP_append, List.countP_singleton, howns, h.tasks_one]
    rfl
  · intro t' ht' howns'
    rcases List.mem_append.mp ht' with ht' | ht'
    · exact h.tasks_pinned t' ht' howns'
    · rw [List.mem_singleton.mp ht', howns] at howns'
      cases howns'

/-- A task of another coroutine is picked. -/
theorem pick_other (h : Located w slot m inFlight tasks woken) {i : Nat} {t : Task}
    (ht : tasks[i]? = some t) (howns : w.owns t = false) :
    Located w slot m inFlight (tasks.eraseIdx i) woken := by
  refine ⟨h.contexts, h.inFlight_one, h.inFlight_pinned, ?_, ?_, h.woken_le⟩
  · have hcount := countP_eraseIdx w.owns ht
    rw [howns] at hcount
    rw [← h.tasks_one, ← hcount]
    rfl
  · exact fun t' ht' => h.tasks_pinned t' (List.mem_of_mem_eraseIdx ht')

/-- The wake-up is picked. -/
theorem pick_own (h : Located w slot m inFlight tasks woken) {i : Nat} {t : Task}
    (ht : tasks[i]? = some t) (howns : w.owns t = true) :
    slot = .queued ∧ Located w .picked m inFlight (tasks.eraseIdx i) woken := by
  have hslot := h.of_mem_tasks (List.mem_of_getElem? ht) howns
  subst hslot
  refine ⟨rfl, ?_, h.inFlight_one, h.inFlight_pinned, ?_, ?_, h.woken_le⟩
  · exact fun fd d hco => absurd hco (h.no_context (by simp) fd d)
  · have hcount := countP_eraseIdx w.owns ht
    rw [howns, h.tasks_one, if_pos rfl] at hcount
    have hzero : (tasks.eraseIdx i).countP w.owns = 0 := by
      simpa using hcount
    exact hzero
  · exact fun t' ht' => h.tasks_pinned t' (List.mem_of_mem_eraseIdx ht')

/-- A call for another waiter is over. -/
theorem return_other (h : Located w slot m inFlight tasks woken) {i : Nat} {call : ScheduleCall}
    (hcall : inFlight[i]? = some call) (hcalls : w.calls call = false) :
    Located w slot m (inFlight.eraseIdx i) tasks woken := by
  refine ⟨h.contexts, ?_, ?_, h.tasks_one, h.tasks_pinned, h.woken_le⟩
  · have hcount := countP_eraseIdx w.calls hcall
    rw [hcalls] at hcount
    rw [← h.inFlight_one, ← hcount]
    rfl
  · exact fun call' hin => h.inFlight_pinned call' (List.mem_of_mem_eraseIdx hin)

/-- The call for the coroutine queues the wake-up, or is refused. -/
theorem return_own (h : Located w slot m inFlight tasks woken) {i : Nat} {call : ScheduleCall}
    (hcall : inFlight[i]? = some call) (hcalls : w.calls call = true) :
    slot = .inFlight ∧
      Located w .queued m (inFlight.eraseIdx i) (tasks ++ [⟨some w.co, call.threadId⟩])
        (woken + 1) ∧
      Located w .nowhere m (inFlight.eraseIdx i) tasks woken := by
  have hin := List.mem_of_getElem? hcall
  have hslot := h.of_mem_inFlight hin hcalls
  subst hslot
  have hnone : (inFlight.eraseIdx i).countP w.calls = 0 := by
    have hcount := countP_eraseIdx w.calls hcall
    rw [hcalls, h.inFlight_one, if_pos rfl] at hcount
    simpa using hcount
  have hpinned : ∀ call' ∈ inFlight.eraseIdx i, w.calls call' = true → call'.threadId = w.tid :=
    fun call' hin' => h.inFlight_pinned call' (List.mem_of_mem_eraseIdx hin')
  have hcontexts := h.no_context (by simp)
  have hwoken : woken + 1 ≤ 1 := h.woken_le
  refine ⟨rfl, ⟨?_, hnone, hpinned, ?_, ?_, hwoken⟩, ⟨?_, hnone, hpinned, h.tasks_one,
    h.tasks_pinned, ?_⟩⟩
  · exact fun fd d hco => absurd hco (hcontexts fd d)
  · rw [List.countP_append, h.tasks_one, List.countP_singleton]
    simp [Waiting.owns]
  · intro t ht howns
    rcases List.mem_append.mp ht with ht | ht
    · exact h.tasks_pinned t ht howns
    · rw [List.mem_singleton.mp ht]
      exact h.inFlight_pinned call hin hcalls
  · exact fun fd d hco => absurd hco (hcontexts fd d)
  · exact (Nat.le_succ woken).trans hwoken

end Located

namespace Timely

variable {w : Waiting} {slot : Slot} {place : Place} {state : CoState}

/-- The wake-up of a coroutine that waits moves. -/
theorem move (h : Timely w slot place state) (hslot : slot ≠ .nowhere) (hpicked : slot ≠ .picked)
    {slot' : Slot} (hpicked' : slot' ≠ .picked) : Timely w slot' place state where
  picked := fun t hplace howns => absurd (h.picked t hplace howns) hpicked
  picked_place := fun h' => absurd h' hpicked'
  running := fun hplace => absurd (h.running hplace) hslot
  inCo := h.inCo
  suspended := fun hplace _ => h.suspended hplace hslot

/-- The worker executes the coroutine, so it has not picked the wake-up. -/
theorem not_picked (h : Timely w slot place state) (hplace : ∀ t, place ≠ .picked t) :
    slot ≠ .picked := by
  intro hslot
  rcases h.picked_place hslot with ⟨t, ht, _⟩
  exact hplace t ht

/-- The coroutine is behind its registration. -/
theorem registered (hslot : slot ≠ .picked) (pc : CoPC) (hpc : pc ≠ .running) :
    Timely w slot (.inCo pc) pc.state where
  picked := fun t hpicked => nomatch hpicked
  picked_place := fun h => absurd h hslot
  running := fun hrunning => absurd (by simpa using hrunning) hpc
  inCo := fun pc' hpc' => by
    cases hpc'
    rfl
  suspended := fun hnot => absurd rfl (hnot pc)

/-- The worker has no task of the coroutine and does not execute it. -/
theorem leave (hslot : slot ≠ .picked) (hnot : ∀ pc, place ≠ .inCo pc)
    (hother : ∀ t, place = .picked t → w.owns t = false)
    (hstate : slot ≠ .nowhere → state = .YIELD) : Timely w slot place state where
  picked := by
    intro t ht howns
    rw [hother t ht] at howns
    cases howns
  picked_place := fun h => absurd h hslot
  running := fun hrunning => absurd hrunning (hnot .running)
  inCo := fun pc hpc => absurd hpc (hnot pc)
  suspended := fun _ => hstate

/-- The worker has picked the wake-up. -/
theorem take {t : Task} (howns : w.owns t = true) (hstate : state = .YIELD) :
    Timely w .picked (.picked t) state where
  picked := fun _ _ _ => rfl
  picked_place := fun _ => ⟨t, rfl, howns⟩
  running := fun h => nomatch h
  inCo := fun _ h => nomatch h
  suspended := fun _ _ => hstate

/-- The worker has resumed the coroutine. -/
theorem resumed : Timely w .nowhere (.inCo .running) .RUNNING where
  picked := fun _ h => nomatch h
  picked_place := fun h => nomatch h
  running := fun _ => rfl
  inCo := by
    intro pc hpc
    cases hpc
    rfl
  suspended := fun hnot => absurd rfl (hnot .running)

end Timely

/-! ## Steps of the system -/

section Steps

variable {w : Waiting} {slot : Slot} {s s' : System}

theorem operate_eq {m : Manager} {new : List ScheduleCall} (h : m.calls = s.manager.calls ++ new) :
    s.operate m = { s with manager := m, inFlight := s.inFlight ++ new } := by
  rw [System.operate, h, List.drop_left]

theorem operate_same {m : Manager} (h : m.calls = s.manager.calls) :
    s.operate m = { s with manager := m } := by
  rw [operate_eq (h.trans (List.append_nil _).symm), List.append_nil]

/-- Two operations hand the calls of both on. -/
theorem operate_operate {m m' : Manager} {new new' : List ScheduleCall}
    (h : m.calls = s.manager.calls ++ new) (h' : m'.calls = m.calls ++ new') :
    (s.operate m).operate m' = s.operate m' := by
  have hall : m'.calls = s.manager.calls ++ (new ++ new') := by
    rw [h', h, List.append_assoc]
  rw [operate_eq hall, operate_eq h, System.operate]
  simp only [h', List.drop_left, List.append_assoc]

/-- Firing an event keeps the coroutine tracked. -/
theorem Tracked.fire (h : Tracked w slot s) {fd : Nat} {d : Direction} {m : Manager}
    (hfired : Fired fd d s.manager m) : ∃ slot', Tracked w slot' (s.operate m) := by
  rw [operate_eq hfired.calls_eq]
  by_cases hco : ((s.manager.contexts fd).at d).co = some w.co
  · rcases h.located.fire_own hfired hco with ⟨rfl, hlocated⟩
    exact ⟨.inFlight, hlocated, h.timely.move (by simp) (by simp) (by simp)⟩
  · exact ⟨slot, h.located.fire_other hfired hco, h.timely⟩

/-- Triggers keep track of the wake-up. -/
theorem Tracked.fires {m m' : Manager} (hfires : Fires m m') (hs : s.manager = m)
    (h : Tracked w slot s) : ∃ slot', Tracked w slot' (s.operate m') := by
  induction hfires generalizing s slot with
  | still hcontexts hcalls =>
      rw [← hs] at hcontexts hcalls
      rw [operate_same hcalls]
      exact ⟨slot, h.located.of_contexts hcontexts, h.timely⟩
  | fire hfired hrest ih =>
      rw [← hs] at hfired
      rcases h.fire hfired with ⟨slot₁, h₁⟩
      rcases hrest.calls with ⟨new, hnew⟩
      have hafter := ih rfl h₁
      rwa [operate_operate hfired.calls_eq hnew] at hafter

/-- Another waiter registers. -/
theorem Tracked.register (h : Tracked w slot s) {fd : Nat} {d : Direction} {cb : Option Nat}
    {caller : Caller} {r : Bool × Manager} (hregisters : Registers s.manager fd d cb caller r)
    (hother : cb ≠ none ∨ caller.runningCo ≠ some w.co) : Tracked w slot (s.operate r.2) := by
  rw [operate_same hregisters.calls_eq]
  refine ⟨?_, h.timely⟩
  cases hdone : r.1 with
  | false => exact h.located.of_contexts (hregisters.failed hdone)
  | true =>
      rcases hregisters.done hdone with ⟨hfree, hcontexts⟩
      exact h.located.register_other hfree hcontexts hother

/-- The coroutine registers. -/
theorem Tracked.addEvent (h : Tracked w slot s) (hplace : s.place = .inCo .running) {fd : Nat}
    {d : Direction} {scheduler : Option Nat} {r : Bool × Manager}
    (hregisters : Registers s.manager fd d none ⟨scheduler, some w.co, w.tid⟩ r) :
    ∃ slot', Tracked w slot' (if r.1 then { s.operate r.2 with place := .inCo .added, woken := 0 }
      else s.operate r.2) := by
  have hslot := h.timely.running hplace
  rw [operate_same hregisters.calls_eq]
  cases hdone : r.1 with
  | false =>
      exact ⟨slot, h.located.of_contexts (hregisters.failed hdone), h.timely⟩
  | true =>
      subst hslot
      have hstate : s.state = CoPC.added.state := h.timely.inCo .running hplace
      refine ⟨.context fd d, h.located.register_own (hregisters.done hdone).2, ?_⟩
      simp only [hstate]
      exact Timely.registered (by simp) .added (by simp)

/-- The worker looks for a task. -/
theorem Tracked.pick (h : Tracked w slot s) (hplace : s.place = .away) {r : Scan}
    (hscan : scan w.tid s.tasks = some r) :
    ∃ slot', Tracked w slot' { s with
      tasks := r.rest
      place := match r.task with
        | some t => .picked t
        | none => .away } := by
  have hstate : slot ≠ .nowhere → s.state = .YIELD := h.timely.suspended (by simp [hplace])
  cases htask : r.task with
  | none =>
      rw [(Scheduler.scan_none hscan htask).1]
      refine ⟨slot, h.located, ?_⟩
      have htimely := h.timely
      rw [hplace] at htimely
      exact htimely
  | some t =>
      rcases Scheduler.scan_some hscan htask with ⟨hat, hrest, _⟩
      rw [hrest]
      cases howns : w.owns t with
      | true =>
          rcases h.located.pick_own hat howns with ⟨rfl, hlocated⟩
          exact ⟨.picked, hlocated, Timely.take howns (hstate (by simp))⟩
      | false =>
          refine ⟨slot, h.located.pick_other hat howns, Timely.leave ?_ (by simp) ?_ hstate⟩
          · exact h.timely.not_picked (by simp [hplace])
          · intro t' ht'
            cases ht'
            exact howns

/-- The worker tests the state of what it has picked. -/
theorem Tracked.test (h : Tracked w slot s) {t : Task} (hplace : s.place = .picked t)
    (howns : w.owns t = true) :
    s.state = .YIELD ∧ Tracked w .nowhere
      { s with place := .inCo .running, state := .RUNNING } := by
  have hslot := h.timely.picked t hplace howns
  subst hslot
  refine ⟨h.timely.suspended (by simp [hplace]) (by simp), ⟨?_, h.located.inFlight_one,
    h.located.inFlight_pinned, h.located.tasks_one, h.located.tasks_pinned, h.located.woken_le⟩,
    Timely.resumed⟩
  exact fun fd d hco => absurd hco (h.located.no_context (by simp) fd d)

/-- Another worker takes none of the tasks that are pinned to this one. -/
theorem Tracked.otherPick (h : Tracked w slot s) {tid : Nat} (htid : tid ≠ w.tid) {r : Scan}
    (hscan : scan tid s.tasks = some r) : Tracked w slot { s with tasks := r.rest } := by
  refine ⟨?_, h.timely⟩
  cases htask : r.task with
  | none =>
      rw [(Scheduler.scan_none hscan htask).1]
      exact h.located
  | some t =>
      rcases Scheduler.scan_some hscan htask with ⟨hat, hrest, hmay⟩
      rw [hrest]
      apply h.located.pick_other hat
      by_contra howns
      have hpinned := h.located.tasks_pinned t (List.mem_of_getElem? hat)
        (Bool.not_eq_false _ ▸ howns)
      have hfalse : Scheduler.mayRun tid t = false :=
        Scheduler.mayRun_eq_false.mpr ⟨hpinned ▸ w.tid_ne, hpinned ▸ htid.symm⟩
      rw [hmay] at hfalse
      cases hfalse

/-- The coroutine of a call is the one that waits exactly if the call is for it. -/
theorem coroutine_eq_iff (w : Waiting) (call : ScheduleCall) {fresh : Nat} (hfresh : fresh ≠ w.co) :
    call.waiter.coroutine fresh = w.co ↔ w.calls call = true := by
  rw [Waiting.calls, decide_eq_true_iff]
  cases call.waiter with
  | co id => simp [Waiter.coroutine]
  | cb id => simp [Waiter.coroutine, hfresh]

/-- A call of `schedule` returns. -/
theorem Tracked.push (h : Tracked w slot s) {i fresh : Nat} (hfresh : fresh ≠ w.co)
    {call : ScheduleCall} (hcall : s.inFlight[i]? = some call) (accepted : Bool) :
    ∃ slot', Tracked w slot' (if accepted then
        { s with
          inFlight := s.inFlight.eraseIdx i
          tasks := s.tasks ++ [⟨some (call.waiter.coroutine fresh), call.threadId⟩]
          woken := if call.waiter.coroutine fresh = w.co then s.woken + 1 else s.woken }
      else { s with inFlight := s.inFlight.eraseIdx i }) := by
  have hco := coroutine_eq_iff w call hfresh
  cases hcalls : w.calls call with
  | true =>
      rw [if_pos (hco.mpr hcalls), hco.mpr hcalls]
      rcases h.located.return_own hcall hcalls with ⟨rfl, hqueued, hrefused⟩
      cases accepted with
      | true => exact ⟨.queued, hqueued, h.timely.move (by simp) (by simp) (by simp)⟩
      | false => exact ⟨.nowhere, hrefused, h.timely.move (by simp) (by simp) (by simp)⟩
  | false =>
      have hne : call.waiter.coroutine fresh ≠ w.co := by
        intro heq
        rw [hco.mp heq] at hcalls
        cases hcalls
      rw [if_neg hne]
      have hreturned := h.located.return_other hcall hcalls
      cases accepted with
      | true => exact ⟨slot, hreturned.push_other (by simp [Waiting.owns, hne]), h.timely⟩
      | false => exact ⟨slot, hreturned, h.timely⟩

/-- Every step keeps track of the wake-up. -/
theorem step_tracked {a : Action} (h : Tracked w slot s) (hstep : s.step w a = some s') :
    ∃ slot', Tracked w slot' s' := by
  cases a with
  | addEvent fd d ok =>
      rw [System.step] at hstep
      split_ifs at hstep with hplace
      rw [← Option.some.inj hstep]
      exact h.addEvent hplace (addEvent_registers _ _ _ _ _ _)
  | setYield =>
      rw [System.step] at hstep
      split_ifs at hstep with hplace
      cases hstep
      refine ⟨slot, h.located,
        Timely.registered (h.timely.not_picked (by simp [hplace])) .yielding ?_⟩
      simp
  | swap =>
      rw [System.step] at hstep
      split_ifs at hstep with hplace
      cases hstep
      refine ⟨slot, h.located, Timely.leave (h.timely.not_picked (by simp [hplace])) (by simp)
        (by simp) ?_⟩
      exact fun _ => h.timely.inCo .yielding hplace
  | finish state =>
      rw [System.step] at hstep
      split_ifs at hstep with hplace
      cases hstep
      have hslot := h.timely.running hplace.1
      refine ⟨slot, h.located, Timely.leave (by simp [hslot]) (by simp) (by simp) ?_⟩
      exact fun hne => absurd hslot hne
  | pick =>
      rw [System.step] at hstep
      split_ifs at hstep with hplace
      rcases Option.map_eq_some_iff.mp hstep with ⟨r, hscan, rfl⟩
      exact h.pick hplace hscan
  | test =>
      rw [System.step] at hstep
      cases hplace : s.place with
      | inCo pc => simp [hplace] at hstep
      | away => simp [hplace] at hstep
      | picked t =>
          simp only [hplace] at hstep
          split_ifs at hstep with howns hstate
          · cases hstep
            exact ⟨.nowhere, (h.test hplace (decide_eq_true howns)).2⟩
          · rw [(h.test hplace (decide_eq_true howns)).1] at hstate
            exact absurd rfl hstate
          · cases hstep
            have hnot : w.owns t = false := decide_eq_false howns
            have hslot : slot ≠ .picked := by
              intro hslot
              rcases h.timely.picked_place hslot with ⟨t', ht', howns'⟩
              rw [hplace] at ht'
              cases ht'
              rw [hnot] at howns'
              cases howns'
            exact ⟨slot, h.located, Timely.leave hslot (by simp) (by simp)
              (h.timely.suspended (by simp [hplace]))⟩
  | otherPick tid =>
      rw [System.step] at hstep
      split_ifs at hstep with htid
      rcases Option.map_eq_some_iff.mp hstep with ⟨r, hscan, rfl⟩
      exact ⟨slot, h.otherPick htid hscan⟩
  | push i fresh accepted =>
      rw [System.step] at hstep
      by_cases hfresh : fresh ≠ w.co
      · rw [if_pos hfresh] at hstep
        rcases Option.map_eq_some_iff.mp hstep with ⟨call, hcall, rfl⟩
        exact h.push hfresh hcall accepted
      · rw [if_neg hfresh] at hstep
        cases hstep
  | schedule t =>
      rw [System.step] at hstep
      split_ifs at hstep with hother
      cases hstep
      exact ⟨slot, h.located.push_other (decide_eq_false hother), h.timely⟩
  | register fd d cb caller ok =>
      rw [System.step] at hstep
      split_ifs at hstep with hother
      rw [← Option.some.inj hstep]
      exact ⟨slot, h.register (addEvent_registers _ _ _ _ _ _) hother⟩
  | cancelEvent fd d ok =>
      cases hstep
      exact h.fires (cancelEventLocked_fires s.manager fd d ok) rfl
  | cancelAllEvent fd ok =>
      cases hstep
      exact h.fires (cancelAllEventLocked_fires s.manager fd ok) rfl
  | deliver fd mask ok =>
      cases hstep
      exact h.fires (deliver_fires s.manager fd mask ok) rfl

/-- In front of its wait, the coroutine is nowhere. -/
theorem Begins.tracked (h : Begins w s) : Tracked w .nowhere s where
  located := by
    constructor
    · exact fun fd d hco => absurd hco (h.contexts fd d)
    · rw [if_neg (by simp), List.countP_eq_zero]
      intro call hin hcalls
      exact h.inFlight call hin (of_decide_eq_true hcalls)
    · exact fun call hin hcalls => absurd (of_decide_eq_true hcalls) (h.inFlight call hin)
    · rw [if_neg (by simp), List.countP_eq_zero]
      intro t ht howns
      exact h.tasks t ht (of_decide_eq_true howns)
    · exact fun t ht howns => absurd (of_decide_eq_true howns) (h.tasks t ht)
    · rw [h.woken]
      exact Nat.zero_le 1
  timely := by
    rw [h.place, h.state]
    exact Timely.resumed

/-- A run keeps the coroutine tracked. -/
theorem run_tracked {actions : List Action} (h : ∃ slot, Tracked w slot s)
    (hrun : s.run w actions = some s') : ∃ slot, Tracked w slot s' := by
  apply invariant_of_runSteps _ hrun h
  rintro s a s' ⟨slot, h⟩ hstep
  exact step_tracked h hstep

/-- In every run one wake-up at most is queued for each registration, and none is left when
the coroutine goes on to its next one; it is pinned to the worker, and when the worker picks
it the coroutine is in `YIELD`, so that the test in `run` lets it be resumed. -/
theorem wakeUp_once (w : Waiting) (s s' : System) (actions : List Action) (hbegin : Begins w s)
    (hrun : s.run w actions = some s') :
    s'.woken ≤ 1 ∧ s'.tasks.countP w.owns ≤ 1 ∧
      (s'.place = .inCo .running → (∀ fd d, ((s'.manager.contexts fd).at d).co ≠ some w.co) ∧
        (∀ call ∈ s'.inFlight, call.waiter ≠ .co w.co) ∧ ∀ t ∈ s'.tasks, t.co ≠ some w.co) ∧
      (∀ t ∈ s'.tasks, t.co = some w.co → t.threadId = w.tid) ∧
      (∀ t, s'.place = .picked t → t.co = some w.co → s'.state = .YIELD ∧
        s'.step w .test = some { s' with place := .inCo .running, state := .RUNNING }) := by
  rcases run_tracked ⟨_, hbegin.tracked⟩ hrun with ⟨slot, h⟩
  refine ⟨?_, ?_, ?_, ?_, ?_⟩
  · exact (Nat.le_add_right _ _).trans h.located.woken_le
  · rw [h.located.tasks_one]
    split_ifs <;> simp
  · intro hplace
    have hslot := h.timely.running hplace
    subst hslot
    refine ⟨h.located.no_context (by simp), ?_, ?_⟩
    · intro call hin hco
      exact nomatch h.located.of_mem_inFlight hin (decide_eq_true hco)
    · intro t ht hco
      exact nomatch h.located.of_mem_tasks ht (decide_eq_true hco)
  · intro t ht hco
    exact h.located.tasks_pinned t ht (decide_eq_true hco)
  · intro t hplace hco
    have hstate := (h.test hplace (decide_eq_true hco)).1
    refine ⟨hstate, ?_⟩
    rw [System.step, hplace]
    simp only [hco, hstate, CoState.resumable, if_true]

end Steps

/-- The coroutine 3 on the worker 7 of the scheduler 1. -/
def coThree : Waiting := ⟨3, 7, 1, by decide⟩

/-- The system before the coroutine waits for anything. -/
def beforeWait : System := ⟨.init, [], [], .inCo .running, .RUNNING, 0⟩

/-- The event fires between `add_event` and `Yield`. -/
def firesEarly : List Action :=
  [.addEvent 5 .read true, .deliver 5 ⟨true, false, false, false⟩ true, .push 0 9 true, .setYield,
    .swap, .pick]

theorem wakeUp_once_early :
    ∃ s, beforeWait.run coThree firesEarly = some s ∧ s.place = .picked ⟨some 3, 7⟩ ∧
      s.state = .YIELD := by
  refine ⟨_, rfl, rfl, ?_⟩
  refine ((wakeUp_once coThree beforeWait _ firesEarly ?_ rfl).2.2.2.2 ⟨some 3, 7⟩ rfl rfl).1
  exact ⟨rfl, rfl, fun _ d => by cases d <;> simp [beforeWait, Manager.init, Context.at,
    Context.empty, EventContext.empty], by simp [beforeWait], by simp [beforeWait], rfl⟩

end IOManager
end Tiger
