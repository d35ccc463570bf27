import Mathlib.Tactic
import Tiger.Lib.Interleaving
import Tiger.Hook.SocketIo

/-!
# Hooks - timeouts of do_socket_io

One call of `do_socket_io` (`src/hook.cc`) with its timers (`src/timer.cc`), between other
threads that deliver its event, extract expired callbacks and run them.  Each wait of the
call arms a timer of its own, but all callbacks share one `SocketIoState`: a callback that
has been extracted is queued as a task and cannot be taken back, and when it runs it
cancels whatever wait the call is in.

Main results:

- Theorem `IoCall.step_timed`: the step lemma.
- Theorem `timedOut_justified`: in every run in which no callback is extracted for a wait that
  was satisfied, or is left unrun by `cancel_timer`, a timeout is that of the current wait.
- Theorem `stale_callback`: a callback of the first wait cancels the second.
-/

namespace Tiger
namespace Hook

open Lib (runSteps invariant_of_allMeet)

/-! ## The system -/

/-- The return statements of `do_socket_io` behind the loop's start. -/
inductive Exit
  /-- `errno = ETIMEDOUT; return -1;` -/
  | timedOut
  /-- `add_event` has failed -/
  | addFailed
  /-- behind the loop -/
  | loopEnd
deriving DecidableEq

/-- Where the call is. -/
inductive IoPC
  /-- before the system call -/
  | attempt
  /-- before the test for `EAGAIN` -/
  | attempted
  /-- the timer is armed, if there is one; before `add_event` -/
  | armed
  /-- behind `add_event`, suspended or about to be -/
  | waiting
  /-- behind `Yield`, before `cancel_timer` -/
  | resumed
  /-- before the test of `state->canceled` -/
  | test
  /-- before `state->canceled = false` -/
  | clear
  /-- before the condition of the loop -/
  | condition
  /-- the call has returned -/
  | returned (exit : Exit)
deriving DecidableEq

/-- The call is in a wait: its timer has been armed and its outcome is not settled. -/
def IoPC.inWait : IoPC → Bool
  | .armed | .waiting | .resumed | .test => true
  | _ => false

/-- The timer of the wait may be in `m_timers`: `cancel_timer` has not run. -/
def IoPC.timerUp : IoPC → Bool
  | .armed | .waiting | .resumed => true
  | _ => false

/-- The call has returned. -/
def IoPC.isReturned : IoPC → Bool
  | .returned _ => true
  | _ => false

/-- From `add_cond_timer` to `cancel_timer` the call is in its wait. -/
theorem IoPC.inWait_of_timerUp {pc : IoPC} (h : pc.timerUp = true) : pc.inWait = true := by
  cases pc <;> first | rfl | cases h

/-- Outside of a wait no timer is up. -/
theorem IoPC.timerUp_eq_false {pc : IoPC} (h : pc.inWait = false) : pc.timerUp = false := by
  cases pc <;> first | rfl | cases h

/-- A call, its timers in `m_timers` and its callbacks, each with the number of its wait.  A
callback is in the task queue, behind its test of the state, or before its `cancel_event`.
The last members record what has happened. -/
structure IoCall where
  pc : IoPC
  n : Int
  errno : Nat
  canceled : Bool
  registered : Bool
  timers : List (Nat × Nat)
  queued : List Nat
  tested : List Nat
  canceling : List Nat
  now : Nat
  /-- the number of the current wait -/
  wait : Nat
  /-- the deadline of the timer of the current wait -/
  deadline : Option Nat
  /-- when the current wait was satisfied -/
  satisfied : Option Nat
  /-- the wait whose callback has set `canceled` -/
  canceledBy : Option Nat
  /-- the wait whose callback has cancelled the event of the current wait -/
  evictedBy : Option Nat
  /-- `errno` is that of the last attempt -/
  own : Bool
deriving DecidableEq

/-- The steps of the call and of the other threads. -/
inductive IoStep
  /-- the system call returns -/
  | attempt (n : Int) (errno : Nat)
  /-- the test for `EAGAIN`, with `add_cond_timer` -/
  | block
  /-- `add_event` -/
  | addEvent (ok : Bool) (errno : Nat)
  /-- the call is resumed -/
  | resume (errno : Nat)
  /-- `cancel_timer` -/
  | cancelTimer
  /-- the test of `state->canceled` -/
  | test
  /-- `state->canceled = false` -/
  | clear
  /-- the condition of the loop -/
  | condition
  /-- time passes -/
  | tick (ms : Nat)
  /-- the event is delivered, or cancelled from elsewhere -/
  | satisfy
  /-- `all_expired_cbs` -/
  | extract
  /-- a callback runs: it locks the state and tests it -/
  | callbackTest (i : Nat)
  /-- a callback sets `canceled` -/
  | callbackSet (i : Nat)
  /-- `cancel_event` in a callback; `ok` is the result of its `epoll_ctl` -/
  | callbackCancel (i : Nat) (ok : Bool)
deriving DecidableEq

namespace IoCall

/-- `cancel_timer` of the timer of the current wait. -/
def cancelTimer (c : IoCall) : IoCall := { c with timers := c.timers.filter (·.1 ≠ c.wait) }

/-- The `SocketIoState` is there: the call or a callback holds it. -/
def alive (c : IoCall) : Bool := !c.pc.isReturned || !c.tested.isEmpty || !c.canceling.isEmpty

/-- One step; `none` where it cannot be taken. -/
def step (timeout : Int) (c : IoCall) : IoStep → Option IoCall
  | .attempt n errno =>
      if c.pc = .attempt then some { c with pc := .attempted, n := n, errno := errno, own := true }
      else none
  | .block =>
      if c.pc = .attempted then
        if wouldBlock c.n c.errno then
          let c := { c with pc := .armed, wait := c.wait + 1, satisfied := none, evictedBy := none }
          some (if 0 ≤ timeout then
              { c with timers := c.timers ++ [(c.wait, c.now + timeout.toNat)]
                       deadline := some (c.now + timeout.toNat) }
            else { c with deadline := none })
        else some { c with pc := .condition }
      else none
  | .addEvent ok errno =>
      if c.pc = .armed then
        some (if ok then { c with pc := .waiting, registered := true }
          else { c.cancelTimer with
            pc := .returned .addFailed, n := -1, errno := errno, own := false })
      else none
  | .resume errno =>
      -- the wake-up is queued when the registration goes
      if c.pc = .waiting ∧ c.registered = false then
        some { c with pc := .resumed, errno := errno, own := false }
      else none
  | .cancelTimer => if c.pc = .resumed then some { c.cancelTimer with pc := .test } else none
  | .test =>
      if c.pc = .test then
        some (if c.canceled then
            { c with pc := .returned .timedOut, n := -1, errno := ETIMEDOUT }
          else { c with pc := .clear })
      else none
  | .clear => if c.pc = .clear then some { c with canceled := false, pc := .condition } else none
  | .condition =>
      if c.pc = .condition then
        some (if loopAgain c.n c.errno then { c with pc := .attempt }
          else { c with pc := .returned .loopEnd })
      else none
  | .tick ms => some { c with now := c.now + ms }
  | .satisfy =>
      if c.registered then some { c with registered := false, satisfied := some c.now } else none
  | .extract =>
      some { c with queued := c.queued ++ (c.timers.filter (·.2 ≤ c.now)).map (·.1)
                    timers := c.timers.filter (¬·.2 ≤ c.now) }
  | .callbackTest i =>
      c.queued[i]?.map fun j =>
        if !c.alive || c.canceled then { c with queued := c.queued.eraseIdx i }
        else { c with queued := c.queued.eraseIdx i, tested := c.tested ++ [j] }
  | .callbackSet i =>
      c.tested[i]?.map fun j =>
        { c with tested := c.tested.eraseIdx i
                 canceling := c.canceling ++ [j]
                 canceled := true
                 canceledBy := if c.pc.isReturned then c.canceledBy else some j }
  | .callbackCancel i ok =>
      c.canceling[i]?.map fun j =>
        if c.registered && ok then
          { c with canceling := c.canceling.eraseIdx i, registered := false, evictedBy := some j }
        else { c with canceling := c.canceling.eraseIdx i }

/-- A call that has just entered the loop. -/
def start (errno now : Nat) : IoCall :=
  ⟨.attempt, -1, errno, false, false, [], [], [], [], now, 0, none, none, none, none, false⟩

/-- Steps one after the other. -/
def run (timeout : Int) (c : IoCall) (steps : List IoStep) : Option IoCall :=
  runSteps (step timeout) c steps

/-! ## Conditions -/

/-- No callback of the call that `all_expired_cbs` has extracted has yet to set `canceled`. -/
def noneUnrun (c : IoCall) : Bool := c.queued.isEmpty && c.tested.isEmpty

/-- `all_expired_cbs` finds no expired timer of a wait that was satisfied before, `cancel_timer`
finds no extracted callback that has not run, and no other coroutine leaves `ETIMEDOUT` in
`errno` for the condition of the loop. -/
def meets (c : IoCall) : IoStep → Bool
  | .extract => c.satisfied.isNone || c.timers.all fun p => decide (c.now < p.2)
  | .cancelTimer => c.noneUnrun
  | .condition => c.own || decide (c.errno ≠ ETIMEDOUT)
  | _ => true

/-- Every step of the run meets its condition. -/
def allMeet (timeout : Int) (c : IoCall) (steps : List IoStep) : Bool :=
  Lib.allMeet (step timeout) meets c steps

/-- The timer of the current wait has reached its deadline, and before the wait was
satisfied. -/
def Justified (c : IoCall) : Prop :=
  ∃ t, c.deadline = some t ∧ t ≤ c.now ∧ ∀ t', c.satisfied = some t' → t ≤ t'

/-- No timer of the call is in `m_timers`, and no callback of it has yet to set `canceled`. -/
structure Idle (c : IoCall) : Prop where
  timers : c.timers = []
  queued : c.queued = []
  tested : c.tested = []

/-- While the call is under way, timers and callbacks are those of the current wait, and from
`add_cond_timer` to `cancel_timer` only; a callback has a reason.  `canceled` is set by the
callback of the current wait, and then the call is in that wait until it returns. -/
structure Timed (c : IoCall) : Prop where
  timers : c.pc.isReturned = false →
    ∀ p ∈ c.timers, p.1 = c.wait ∧ c.deadline = some p.2 ∧ c.pc.timerUp = true
  unrun : c.pc.isReturned = false →
    ∀ j, j ∈ c.queued ∨ j ∈ c.tested → j = c.wait ∧ c.pc.timerUp = true ∧ c.Justified
  canceling : c.pc.isReturned = false → ∀ j ∈ c.canceling, j = c.wait ∧ c.canceled = true
  registered : c.registered = true → c.pc = .waiting
  evicted : ∀ j, c.evictedBy = some j → j = c.wait
  canceled_at : c.canceled = true → c.pc.inWait = true ∨ c.pc.isReturned = true
  timedOut : c.pc = .returned .timedOut → c.canceledBy = some c.wait ∧ c.Justified
  canceled : c.canceled = true → c.pc.isReturned = false → c.canceledBy = some c.wait ∧ c.Justified
  loopEnd : c.pc = .returned .loopEnd → c.n = -1 → c.errno = ETIMEDOUT → c.own = true

/-- A call that has just entered the loop has no timer and no callback. -/
theorem start_timed (errno now : Nat) : (start errno now).Timed := by
  constructor <;> simp [start]

/-! ## Steps -/

section Steps

variable {timeout : Int} {c c' : IoCall}

/-- Where the call is neither in a wait nor over, it is not canceled. -/
theorem Timed.not_canceled (h : c.Timed) {pc : IoPC} (hpc : c.pc = pc) (hwait : pc.inWait = false)
    (hreturned : pc.isReturned = false) : c.canceled = false := by
  by_contra hcanceled
  rw [Bool.not_eq_false] at hcanceled
  rcases h.canceled_at hcanceled with hat | hat
  · rw [hpc, hwait] at hat
    cases hat
  · rw [hpc, hreturned] at hat
    cases hat

/-- Outside of `Yield` the event is not registered. -/
theorem Timed.not_registered (h : c.Timed) {pc : IoPC} (hpc : c.pc = pc) (hne : pc ≠ .waiting) :
    c.registered = false := by
  by_contra hregistered
  rw [Bool.not_eq_false] at hregistered
  exact hne (hpc.symm.trans (h.registered hregistered))

/-- Behind `cancel_timer` and in front of the next `add_cond_timer` nothing is left of a wait. -/
theorem Timed.idle (h : c.Timed) {pc : IoPC} (hpc : c.pc = pc) (hup : pc.timerUp = false)
    (hreturned : pc.isReturned = false) : c.Idle := by
  have hunder : c.pc.isReturned = false := by rw [hpc, hreturned]
  have hdown : c.pc.timerUp ≠ true := by rw [hpc, hup]; decide
  refine ⟨?_, ?_, ?_⟩
  · exact List.eq_nil_iff_forall_not_mem.mpr fun p hp => hdown (h.timers hunder p hp).2.2
  · exact List.eq_nil_iff_forall_not_mem.mpr fun j hj => hdown (h.unrun hunder j (.inl hj)).2.1
  · exact List.eq_nil_iff_forall_not_mem.mpr fun j hj => hdown (h.unrun hunder j (.inr hj)).2.1

/-- The call goes on. -/
theorem Timed.go (h : c.Timed) (hunder : c.pc.isReturned = false) (pc : IoPC) (n : Int)
    (errno : Nat)
    (own : Bool) (hkeep : c.Idle ∨ pc.timerUp = true ∨ pc.isReturned = true)
    (hregistered : c.registered = true → pc = .waiting)
    (hcanceled : c.canceled = true → pc.inWait = true ∨ pc.isReturned = true)
    (htimedOut : pc = .returned .timedOut → c.canceled = true)
    (hloopEnd : pc = .returned .loopEnd → n = -1 → errno = ETIMEDOUT → own = true) :
    Timed { c with pc := pc, n := n, errno := errno, own := own } where
  timers := by
    intro hpc p hp
    rcases hkeep with hidle | hup | hreturned
    · rw [show c.timers = [] from hidle.timers] at hp
      simp at hp
    · exact ⟨(h.timers hunder p hp).1, (h.timers hunder p hp).2.1, hup⟩
    · rw [hreturned] at hpc
      cases hpc
  unrun := by
    intro hpc j hj
    rcases hkeep with hidle | hup | hreturned
    · simp [hidle.queued, hidle.tested] at hj
    · exact ⟨(h.unrun hunder j hj).1, hup, (h.unrun hunder j hj).2.2⟩
    · rw [hreturned] at hpc
      cases hpc
  canceling := fun _ => h.canceling hunder
  registered := hregistered
  evicted := h.evicted
  canceled_at := hcanceled
  timedOut := fun hpc => h.canceled (htimedOut hpc) hunder
  canceled := fun hset _ => h.canceled hset hunder
  loopEnd := hloopEnd

/-- The call goes on between two waits. -/
theorem Timed.go_between (h : c.Timed) {old : IoPC} (hpc : c.pc = old) (hwait : old.inWait = false)
    (hunder : old.isReturned = false) (pc : IoPC) (n : Int) (errno : Nat) (own : Bool)
    (hpc' : pc.isReturned = false) :
    Timed { c with pc := pc, n := n, errno := errno, own := own } := by
  have hcanceled := h.not_canceled hpc hwait hunder
  have hidle := h.idle hpc (IoPC.timerUp_eq_false hwait) hunder
  have hregistered : c.registered = false := by
    apply h.not_registered hpc
    rintro rfl
    cases hwait
  apply h.go (by rw [hpc, hunder])
  · exact .inl hidle
  · simp [hregistered]
  · simp [hcanceled]
  · rintro rfl
    cases hpc'
  · rintro rfl
    cases hpc'

/-- `cancel_timer` leaves no timer of the call. -/
theorem Timed.cancelTimer_timers (h : c.Timed) (hunder : c.pc.isReturned = false) :
    c.cancelTimer.timers = [] := by
  apply List.filter_eq_nil_iff.mpr
  intro p hp
  simp [(h.timers hunder p hp).1]

/-- `cancel_timer` keeps what holds of the call. -/
theorem Timed.cancelTimer (h : c.Timed) : c.cancelTimer.Timed :=
  ⟨fun hunder p hp => h.timers hunder p (List.mem_of_mem_filter hp), h.unrun, h.canceling,
    h.registered, h.evicted, h.canceled_at, h.timedOut, h.canceled, h.loopEnd⟩

/-- The event is registered. -/
theorem Timed.register (h : c.Timed) (hunder : c.pc.isReturned = false) :
    Timed { c with pc := .waiting, registered := true } where
  timers := fun _ p hp => ⟨(h.timers hunder p hp).1, (h.timers hunder p hp).2.1, rfl⟩
  unrun := fun _ j hj => ⟨(h.unrun hunder j hj).1, rfl, (h.unrun hunder j hj).2.2⟩
  canceling := fun _ => h.canceling hunder
  registered := fun _ => rfl
  evicted := h.evicted
  canceled_at := fun _ => .inl rfl
  timedOut := fun hpc => by cases hpc
  canceled := fun hset _ => h.canceled hset hunder
  loopEnd := fun hpc => by cases hpc

/-- A new wait begins; nothing is left of the one before. -/
theorem Timed.arm (h : c.Timed) (hpc : c.pc = .attempted) (timers : List (Nat × Nat))
    (deadline : Option Nat)
    (htimers : ∀ p ∈ timers, p ∈ c.timers ∨ (p.1 = c.wait + 1 ∧ deadline = some p.2)) :
    Timed { c with
      pc := .armed
      wait := c.wait + 1
      satisfied := none
      evictedBy := none
      timers := timers
      deadline := deadline } := by
  have hcanceled : c.canceled = false := h.not_canceled hpc rfl rfl
  have hregistered : c.registered = false := h.not_registered hpc (by simp)
  have hidle : c.Idle := h.idle hpc rfl rfl
  constructor
  · intro _ p hp
    rcases htimers p hp with hold | ⟨hnew, hdeadline⟩
    · rw [hidle.timers] at hold
      simp at hold
    · exact ⟨hnew, hdeadline, rfl⟩
  · intro _ j hj
    simp [hidle.queued, hidle.tested] at hj
  · intro _ j hj
    have hset := (h.canceling (by simp [hpc, IoPC.isReturned]) j hj).2
    rw [hcanceled] at hset
    cases hset
  · simp [hregistered]
  · simp
  · simp [hcanceled]
  · simp
  · simp [hcanceled]
  · simp

/-- A deadline that was reached stays reached. -/
theorem Justified.tick (h : c.Justified) (ms : Nat) : Justified { c with now := c.now + ms } := by
  rcases h with ⟨t, ht, hle, hsatisfied⟩
  exact ⟨t, ht, hle.trans (Nat.le_add_right _ _), hsatisfied⟩

/-- Time passes. -/
theorem Timed.tick (h : c.Timed) (ms : Nat) : Timed { c with now := c.now + ms } where
  timers := h.timers
  unrun := fun hunder j hj =>
    ⟨(h.unrun hunder j hj).1, (h.unrun hunder j hj).2.1, (h.unrun hunder j hj).2.2.tick ms⟩
  canceling := h.canceling
  registered := h.registered
  evicted := h.evicted
  canceled_at := h.canceled_at
  timedOut := fun hpc => ⟨(h.timedOut hpc).1, (h.timedOut hpc).2.tick ms⟩
  canceled := fun hset hunder => ⟨(h.canceled hset hunder).1, (h.canceled hset hunder).2.tick ms⟩
  loopEnd := h.loopEnd

/-- A wait that is satisfied now is satisfied behind every deadline that was reached. -/
theorem Justified.satisfy (h : c.Justified) :
    Justified { c with registered := false, satisfied := some c.now } := by
  rcases h with ⟨t, ht, hle, _⟩
  refine ⟨t, ht, hle, ?_⟩
  intro t' ht'
  cases ht'
  exact hle

/-- The wait is satisfied; what was extracted or canceled before keeps its reason. -/
theorem Timed.satisfy (h : c.Timed) (hregistered : c.registered = true) :
    Timed { c with registered := false, satisfied := some c.now } := by
  have hpc := h.registered hregistered
  refine ⟨h.timers, ?_, h.canceling, by simp, h.evicted, h.canceled_at, ?_, ?_, ?_⟩
  · intro hunder j hj
    rcases h.unrun hunder j hj with ⟨hwait, hup, hjustified⟩
    exact ⟨hwait, hup, hjustified.satisfy⟩
  · simp [hpc]
  · exact fun hset hunder => ⟨(h.canceled hset hunder).1, (h.canceled hset hunder).2.satisfy⟩
  · simp [hpc]

/-- A timer of the current wait that expires before the wait is satisfied is a reason. -/
theorem Timed.justified_of_expired (h : c.Timed) (hunder : c.pc.isReturned = false)
    (hmeets : c.meets .extract = true) {p : Nat × Nat} (hp : p ∈ c.timers)
    (hexpired : p.2 ≤ c.now) :
    c.Justified := by
  refine ⟨p.2, (h.timers hunder p hp).2.1, hexpired, ?_⟩
  intro t' ht'
  rw [meets, ht', Option.isNone_some, Bool.false_or, List.all_eq_true] at hmeets
  have hlater := of_decide_eq_true (hmeets p hp)
  omega

/-- Expired callbacks are extracted, none of them of a wait that was satisfied. -/
theorem Timed.extract (h : c.Timed) (hmeets : c.meets .extract = true) :
    Timed { c with
      queued := c.queued ++ (c.timers.filter (·.2 ≤ c.now)).map (·.1)
      timers := c.timers.filter (¬·.2 ≤ c.now) } := by
  refine ⟨fun hunder p hp => h.timers hunder p (List.mem_of_mem_filter hp), ?_, h.canceling,
    h.registered, h.evicted, h.canceled_at, h.timedOut, h.canceled, h.loopEnd⟩
  rintro hunder j (hj | hj)
  · rcases List.mem_append.mp hj with hj | hj
    · exact h.unrun hunder j (.inl hj)
    · rcases List.mem_map.mp hj with ⟨p, hp, rfl⟩
      rcases List.mem_filter.mp hp with ⟨hp, hexpired⟩
      rcases h.timers hunder p hp with ⟨hwait, -, hup⟩
      exact ⟨hwait, hup, h.justified_of_expired hunder hmeets hp (of_decide_eq_true hexpired)⟩
  · exact h.unrun hunder j (.inr hj)

/-- A callback has tested the state. -/
theorem Timed.callbackTest (h : c.Timed) (queued tested : List Nat)
    (hmem : ∀ j, j ∈ queued ∨ j ∈ tested → j ∈ c.queued ∨ j ∈ c.tested) :
    Timed { c with queued := queued, tested := tested } :=
  ⟨h.timers, fun hunder j hj => h.unrun hunder j (hmem j hj), h.canceling, h.registered, h.evicted,
    h.canceled_at, h.timedOut, h.canceled, h.loopEnd⟩

/-- A callback sets `canceled`: for the current wait and with a reason, or for a call that is
over. -/
theorem Timed.callbackSet (h : c.Timed) {i j : Nat} (hj : c.tested[i]? = some j) :
    Timed { c with
      tested := c.tested.eraseIdx i
      canceling := c.canceling ++ [j]
      canceled := true
      canceledBy := if c.pc.isReturned then c.canceledBy else some j } := by
  have hmem : c.pc.isReturned = false → ∀ j', j' ∈ c.queued ∨ j' ∈ c.tested.eraseIdx i →
      j' = c.wait ∧ c.pc.timerUp = true ∧ c.Justified := by
    rintro hunder j' (hj' | hj')
    · exact h.unrun hunder j' (.inl hj')
    · exact h.unrun hunder j' (.inr (List.mem_of_mem_eraseIdx hj'))
  cases hreturned : c.pc.isReturned with
  | true =>
      have hover : ∀ {p : Prop}, c.pc.isReturned = false → p := by
        intro p hunder
        rw [hreturned] at hunder
        cases hunder
      exact ⟨h.timers, hmem, fun hunder => hover hunder, h.registered, h.evicted,
        fun _ => .inr hreturned, h.timedOut, fun _ hunder => hover hunder, h.loopEnd⟩
  | false =>
      rcases h.unrun hreturned j (.inr (List.mem_of_getElem? hj)) with ⟨rfl, hup, hjustified⟩
      refine ⟨h.timers, hmem, ?_, h.registered, h.evicted,
        fun _ => .inl (IoPC.inWait_of_timerUp hup), fun _ => ⟨rfl, hjustified⟩,
        fun _ _ => ⟨rfl, hjustified⟩, h.loopEnd⟩
      intro _ j' hj'
      rcases List.mem_append.mp hj' with hj' | hj'
      · exact ⟨(h.canceling hreturned j' hj').1, rfl⟩
      · exact ⟨List.mem_singleton.mp hj', rfl⟩

/-- `cancel_event` in a callback reaches the wait of the callback only. -/
theorem Timed.callbackCancel (h : c.Timed) {i j : Nat} (hj : c.canceling[i]? = some j) (ok : Bool) :
    Timed (if c.registered && ok then
        { c with canceling := c.canceling.eraseIdx i, registered := false, evictedBy := some j }
      else { c with canceling := c.canceling.eraseIdx i }) := by
  have herased : c.pc.isReturned = false →
      ∀ j' ∈ c.canceling.eraseIdx i, j' = c.wait ∧ c.canceled = true :=
    fun hunder j' hj' => h.canceling hunder j' (List.mem_of_mem_eraseIdx hj')
  split_ifs with hevicts
  · rw [Bool.and_eq_true] at hevicts
    have hpc := h.registered hevicts.1
    have hwait := (h.canceling (by simp [hpc, IoPC.isReturned]) j (List.mem_of_getElem? hj)).1
    refine ⟨h.timers, h.unrun, herased, by simp, ?_, h.canceled_at, h.timedOut, h.canceled,
      h.loopEnd⟩
    intro j' hj'
    cases hj'
    exact hwait
  · exact ⟨h.timers, h.unrun, herased, h.registered, h.evicted, h.canceled_at, h.timedOut,
      h.canceled, h.loopEnd⟩

/-- Behind `Yield` the call gives up its timer; no callback is left that could come later. -/
theorem Timed.resumed_cancelTimer (h : c.Timed) (hpc : c.pc = .resumed)
    (hmeets : c.noneUnrun = true) : Timed { c.cancelTimer with pc := .test } := by
  have hregistered := h.not_registered hpc (by simp)
  have hunder : c.pc.isReturned = false := by rw [hpc]; rfl
  rw [noneUnrun, Bool.and_eq_true, List.isEmpty_iff, List.isEmpty_iff] at hmeets
  exact h.cancelTimer.go hunder .test c.n c.errno c.own
    (.inl ⟨h.cancelTimer_timers hunder, hmeets.1, hmeets.2⟩)
    (by simp [IoCall.cancelTimer, hregistered]) (fun _ => .inl rfl) (by simp) (by simp)

/-- A step that meets its condition keeps timeouts justified. -/
theorem step_timed {a : IoStep} (h : c.Timed) (hmeets : c.meets a = true)
    (hstep : c.step timeout a = some c') : c'.Timed := by
  cases a with
  | attempt n errno =>
      rw [step] at hstep
      split_ifs at hstep with hpc
      cases hstep
      exact h.go_between hpc rfl rfl .attempted n errno true rfl
  | block =>
      rw [step] at hstep
      split_ifs at hstep with hpc hblock htimeout
      · cases hstep
        apply h.arm hpc
        intro p hp
        rcases List.mem_append.mp hp with hp | hp
        · exact .inl hp
        · rw [List.mem_singleton.mp hp]
          exact .inr ⟨rfl, rfl⟩
      · cases hstep
        exact h.arm hpc c.timers none fun p hp => .inl hp
      · cases hstep
        exact h.go_between hpc rfl rfl .condition c.n c.errno c.own rfl
  | addEvent ok errno =>
      rw [step] at hstep
      split_ifs at hstep with hpc hok
      · cases hstep
        exact h.register (by simp [hpc, IoPC.isReturned])
      · cases hstep
        have hregistered := h.not_registered hpc (by simp)
        exact h.cancelTimer.go (by simp [cancelTimer, hpc, IoPC.isReturned]) (.returned .addFailed)
          (-1) errno false (.inr (.inr rfl)) (by simp [cancelTimer, hregistered])
          (fun _ => .inr rfl) (by simp) (by simp)
  | resume errno =>
      rw [step] at hstep
      split_ifs at hstep with hpc
      cases hstep
      exact h.go (by simp [hpc.1, IoPC.isReturned]) .resumed c.n errno false (.inr (.inl rfl))
        (by simp [hpc.2]) (fun _ => .inl rfl) (by simp) (by simp)
  | cancelTimer =>
      rw [step] at hstep
      split_ifs at hstep with hpc
      cases hstep
      exact h.resumed_cancelTimer hpc hmeets
  | test =>
      rw [step] at hstep
      split_ifs at hstep with hpc hcanceled
      · cases hstep
        exact h.go (by simp [hpc, IoPC.isReturned]) (.returned .timedOut) (-1) ETIMEDOUT c.own
          (.inr (.inr rfl)) (by simp [h.not_registered hpc]) (fun _ => .inr rfl)
          (fun _ => hcanceled) (by simp)
      · cases hstep
        exact h.go (by simp [hpc, IoPC.isReturned]) .clear c.n c.errno c.own
          (.inl (h.idle hpc rfl rfl)) (by simp [h.not_registered hpc]) (by simp [hcanceled])
          (by simp) (by simp)
  | clear =>
      rw [step] at hstep
      split_ifs at hstep with hpc
      cases hstep
      have hgo := h.go_between hpc rfl rfl .condition c.n c.errno c.own rfl
      rwa [h.not_canceled hpc rfl rfl] at hgo
  | condition =>
      rw [step] at hstep
      split_ifs at hstep with hpc hagain
      · cases hstep
        exact h.go_between hpc rfl rfl .attempt c.n c.errno c.own rfl
      · cases hstep
        refine h.go (by simp [hpc, IoPC.isReturned]) (.returned .loopEnd) c.n c.errno c.own
          (.inr (.inr rfl)) (by simp [h.not_registered hpc]) (fun _ => .inr rfl) (by simp) ?_
        intro _ _ herrno
        simpa [meets, herrno] using hmeets
  | tick ms =>
      cases hstep
      exact h.tick ms
  | satisfy =>
      rw [step] at hstep
      split_ifs at hstep with hregistered
      cases hstep
      exact h.satisfy hregistered
  | extract =>
      cases hstep
      exact h.extract hmeets
  | callbackTest i =>
      rcases Option.map_eq_some_iff.mp hstep with ⟨j, hj, rfl⟩
      have hin := List.mem_of_getElem? hj
      split_ifs
      · apply h.callbackTest
        rintro j' (hj' | hj')
        · exact .inl (List.mem_of_mem_eraseIdx hj')
        · exact .inr hj'
      · apply h.callbackTest
        rintro j' (hj' | hj')
        · exact .inl (List.mem_of_mem_eraseIdx hj')
        · rcases List.mem_append.mp hj' with hj' | hj'
          · exact .inr hj'
          · rw [List.mem_singleton.mp hj']
            exact .inl hin
  | callbackSet i =>
      rcases Option.map_eq_some_iff.mp hstep with ⟨j, hj, rfl⟩
      exact h.callbackSet hj
  | callbackCancel i ok =>
      rcases Option.map_eq_some_iff.mp hstep with ⟨j, hj, rfl⟩
      exact h.callbackCancel hj ok

/-- What a step keeps, a run keeps. -/
theorem run_timed {steps : List IoStep} (h : c.Timed) (hmeet : c.allMeet timeout steps = true)
    (hrun : c.run timeout steps = some c') : c'.Timed := by
  apply invariant_of_allMeet _ hmeet hrun h
  intro c a c' h hmeets hstep
  exact step_timed h hmeets hstep

end Steps

end IoCall

/-- In every run in which `all_expired_cbs` never extracts the timer of a wait that was satisfied
already, `cancel_timer` never runs while an extracted callback of the call has yet to run, and no
other coroutine leaves `ETIMEDOUT` for the condition of the loop: a wait is canceled by its own
callback only, the call times out only if the timer of the current wait reached its deadline
before the wait was satisfied, and behind the loop it returns `ETIMEDOUT` only as the error of
its own attempt. -/
theorem timedOut_justified (timeout : Int) (errno now : Nat) (steps : List IoStep) (c : IoCall)
    (hmeet : (IoCall.start errno now).allMeet timeout steps = true)
    (hrun : (IoCall.start errno now).run timeout steps = some c) :
    (∀ j, c.evictedBy = some j → j = c.wait) ∧
      (c.canceled = true → c.pc.isReturned = false → c.canceledBy = some c.wait) ∧
      (c.pc = .returned .timedOut → c.canceledBy = some c.wait ∧ c.Justified) ∧
      (c.pc = .returned .loopEnd → c.n = -1 → c.errno = ETIMEDOUT → c.own = true) := by
  have h := IoCall.run_timed (IoCall.start_timed errno now) hmeet hrun
  exact ⟨h.evicted, fun hset hunder => (h.canceled hset hunder).1, h.timedOut, h.loopEnd⟩

/-- A call that waits twice: the event satisfies the first wait in time, and in the second one it
does not come, the timer expires after 10 ms and its callback cancels the wait. -/
def plainTimeout : List IoStep :=
  [.attempt (-1) EAGAIN, .block, .addEvent true 0, .tick 3, .extract, .satisfy, .resume EAGAIN,
    .cancelTimer, .test, .clear, .condition, .attempt (-1) EAGAIN, .block, .addEvent true 0,
    .tick 10, .extract, .callbackTest 0, .callbackSet 0, .callbackCancel 0 true, .resume 0,
    .cancelTimer, .test]

/-- The second wait of the call times out, with its own deadline. -/
theorem timedOut_justified_plain :
    ∃ c, (IoCall.start 0 0).run 10 plainTimeout = some c ∧ c.pc = .returned .timedOut ∧
      c.wait = 2 ∧ c.deadline = some 13 ∧ c.Justified := by
  refine ⟨_, rfl, rfl, rfl, rfl, ?_⟩
  exact ((timedOut_justified 10 0 0 plainTimeout _ (by decide) rfl).2.2.1 rfl).2

/-- The timer of the first wait expires and its callback is queued; the event comes and the
call waits again; then the callback runs. -/
def staleSteps : List IoStep :=
  [.attempt (-1) EAGAIN, .block, .addEvent true 0, .tick 10, .extract, .satisfy, .resume EAGAIN,
    .cancelTimer, .test, .clear, .condition, .attempt (-1) EAGAIN, .block, .addEvent true 0,
    .callbackTest 0, .callbackSet 0, .callbackCancel 0 true, .resume EAGAIN, .cancelTimer, .test]

/-- The second wait times out at once, through the callback of the first. -/
theorem stale_callback :
    ∃ c, (IoCall.start 0 0).run 10 staleSteps = some c ∧ c.pc = .returned .timedOut ∧
      c.errno = ETIMEDOUT ∧ c.wait = 2 ∧ c.canceledBy = some 1 ∧ c.evictedBy = some 1 ∧
      c.deadline = some 20 ∧ c.now = 10 ∧ ¬c.Justified := by
  refine ⟨_, rfl, rfl, rfl, rfl, rfl, rfl, rfl, rfl, ?_⟩
  rintro ⟨t, ht, hle, _⟩
  cases ht
  exact absurd hle (by decide)

end Hook
end Tiger
