import Mathlib.Tactic
import Tiger.Hook.SocketIo
import Tiger.Lib.Interleaving

/-!
# Hooks - connect

One call of the hooked `connect` (`src/hook.cc`), between other threads that settle its connection,
deliver its event, extract the callback of its timer and run it.  Behind its one wait the call asks
for `SO_ERROR`, which is 0 for a connection that is established and for one that is under way.

Main results:

- Theorem `connectEnter_eq_none_iff`: the call goes on to the wait for the descriptors that
  `do_socket_io` waits for, when `connect` returns `EINPROGRESS`.
- Theorem `step_sound`: the step lemma.
- Theorem `connect_results`: what the results of the call say, in every run.
- Theorem `connect_ends_iff`: a call in its wait can end without the network when its timer or the
  callback of that is there.
- Theorem `connect_unwatched`: it can be without both, whatever its timeout is.
-/

namespace Tiger
namespace Hook

open Lib (runSteps)

/-! ## The system -/

/-- `EINPROGRESS` -/
def EINPROGRESS : Nat := 115

/-- The connection, as the system has it. -/
inductive Attempt
  | underWay
  | established
  | failed (errno : Nat)
deriving DecidableEq

/-- `connect` up to its wait, with what `__enable_hook`, `get_fd` and the system call return: its
result, or `none` where it goes on. -/
def connectEnter (enableHook : Bool) (entity : Option FDEntity) (n : Int) (errno : Nat) :
    Option (Int × Nat) :=
  if !enableHook then some (n, errno)
  else
    match entity with
    | none => some (-1, EBADF)
    | some e =>
        if e.isClosed then some (-1, EBADF)
        else if !e.isSocket then some (n, errno)
        else if e.isUserNonblock then some (n, errno)
        else if n = 0 then some (n, errno)
        else if n ≠ -1 ∨ errno ≠ EINPROGRESS then some (n, errno)
        else none

/-- The call goes on to wait exactly when it is managed and the connection is under way. -/
theorem connectEnter_eq_none_iff {enableHook : Bool} {entity : Option FDEntity} {n : Int}
    {errno : Nat} : connectEnter enableHook entity n errno = none ↔
      managed enableHook entity = true ∧ n = -1 ∧ errno = EINPROGRESS := by
  cases enableHook with
  | false => simp [connectEnter, managed]
  | true =>
      cases entity with
      | none => simp [connectEnter, managed]
      | some e =>
          simp only [connectEnter, managed]
          grind

/-- The return statements behind the wait. -/
inductive ConnectExit
  /-- `errno = ETIMEDOUT; return -1;` -/
  | timedOut
  /-- `getsockopt` has failed -/
  | sockoptFailed
  /-- `SO_ERROR` -/
  | result
deriving DecidableEq

/-- Where the call is. -/
inductive ConnectPC
  /-- before `add_cond_timer` -/
  | start
  /-- before `add_event` -/
  | armed
  /-- behind `add_event`, suspended or about to be -/
  | waiting
  /-- behind `Yield`, before `cancel_timer` -/
  | resumed
  /-- before the test of `state->canceled` -/
  | test
  /-- before `getsockopt` -/
  | sockopt
  | returned (exit : ConnectExit) (n : Int) (errno : Nat)
deriving DecidableEq

/-- The call has returned. -/
def ConnectPC.isReturned : ConnectPC → Bool
  | .returned .. => true
  | _ => false

/-- Where the callback of the timer is. -/
inductive CallbackPC
  /-- there is no timer, it was cancelled, or the callback has ended -/
  | none
  /-- in `m_timers` -/
  | timer
  /-- in the task queue -/
  | queued
  /-- behind its test of the state -/
  | tested
  /-- before its `cancel_event` -/
  | canceling
deriving DecidableEq

/-- A call with its `SocketIoState`, its event and its timer.  The last members record what has
happened. -/
structure ConnectCall where
  pc : ConnectPC
  attempt : Attempt
  canceled : Bool
  registered : Bool
  callback : CallbackPC
  now : Int
  deadline : Option Int
  /-- `add_event` has failed -/
  addFailed : Bool
  /-- the event was cancelled from elsewhere -/
  evicted : Bool
  /-- the `cancel_event` of the callback has cancelled nothing -/
  missed : Bool
deriving DecidableEq

/-- The steps of the call and of the other threads. -/
inductive ConnectStep
  /-- `add_cond_timer` -/
  | arm
  /-- `add_event` -/
  | addEvent (ok : Bool)
  | resume
  /-- `cancel_timer` -/
  | cancelTimer
  /-- the test of `state->canceled` -/
  | test
  /-- `getsockopt`, with the `errno` that it leaves where it fails -/
  | getsockopt (failed : Option Nat)
  | tick (ms : Nat)
  /-- the connection is established, or fails -/
  | settle (errno : Option Nat)
  /-- the event of a connection that is settled -/
  | deliver
  /-- the event is cancelled from elsewhere -/
  | evict
  /-- `all_expired_cbs` -/
  | extract
  | callbackTest
  | callbackSet
  /-- `cancel_event` in the callback; `ok` is the result of its `epoll_ctl` -/
  | callbackCancel (ok : Bool)
deriving DecidableEq

/-- The step is one of the call, of its callback or of the clock. -/
def ConnectStep.isOwn : ConnectStep → Bool
  | .settle _ | .deliver | .evict => false
  | _ => true

namespace ConnectCall

/-- A call whose system call has returned `EINPROGRESS`. -/
def start (now : Int) : ConnectCall :=
  ⟨.start, .underWay, false, false, .none, now, none, false, false, false⟩

/-- `cancel_timer(timer)`, which finds a timer that was not extracted. -/
def cancelTimer (c : ConnectCall) : ConnectCall :=
  if c.callback = .timer then { c with callback := .none } else c

/-- One step; `none` where it cannot be taken.  `timeout` is `connect_timeout()`. -/
def step (timeout : UInt64) (c : ConnectCall) : ConnectStep → Option ConnectCall
  | .arm =>
      if c.pc = .start then
        some (if 0 < timeout then
            { c with pc := .armed, callback := .timer,
                     deadline := some (c.now + timeout.toInt64.toInt) }
          else { c with pc := .armed })
      else none
  | .addEvent ok =>
      if c.pc = .armed then
        some (if ok then { c with pc := .waiting, registered := true }
          else { c.cancelTimer with pc := .sockopt, canceled := true, addFailed := true })
      else none
  | .resume =>
      -- the wake-up is queued when the registration goes
      if c.pc = .waiting ∧ c.registered = false then some { c with pc := .resumed } else none
  | .cancelTimer => if c.pc = .resumed then some { c.cancelTimer with pc := .test } else none
  | .test =>
      if c.pc = .test then
        some (if c.canceled then { c with pc := .returned .timedOut (-1) ETIMEDOUT }
          else { c with pc := .sockopt })
      else none
  | .getsockopt failed =>
      if c.pc = .sockopt then
        some (match failed, c.attempt with
          | some errno, _ => { c with pc := .returned .sockoptFailed (-1) errno }
          | none, .failed errno => { c with pc := .returned .result (-1) errno }
          | none, _ => { c with pc := .returned .result 0 0 })
      else none
  | .tick ms => some { c with now := c.now + ms }
  | .settle errno =>
      if c.attempt = .underWay ∧ errno ≠ some 0 then
        some { c with attempt := errno.elim .established .failed }
      else none
  | .deliver =>
      if c.registered = true ∧ c.attempt ≠ .underWay then some { c with registered := false }
      else none
  | .evict =>
      if c.registered = true then some { c with registered := false, evicted := true } else none
  | .extract =>
      if c.callback = .timer ∧ c.deadline.any (· ≤ c.now) = true then
        some { c with callback := .queued }
      else none
  | .callbackTest =>
      -- the state is gone once the call has returned
      if c.callback = .queued then
        some { c with callback := if c.pc.isReturned || c.canceled then .none else .tested }
      else none
  | .callbackSet =>
      if c.callback = .tested then some { c with callback := .canceling, canceled := true }
      else none
  | .callbackCancel ok =>
      if c.callback = .canceling then
        some (if c.registered && ok then { c with callback := .none, registered := false }
          else { c with callback := .none, missed := true })
      else none

/-- Steps one after the other. -/
def run (timeout : UInt64) (c : ConnectCall) (steps : List ConnectStep) : Option ConnectCall :=
  runSteps (step timeout) c steps

/-! ## The invariant -/

/-- The connection is settled, or the call has not waited for that. -/
def Settled (c : ConnectCall) : Prop :=
  c.attempt ≠ .underWay ∨ c.addFailed = true ∨ c.evicted = true

/-- The timer has reached its deadline. -/
def Expired (c : ConnectCall) : Prop := ∃ t, c.deadline = some t ∧ t ≤ c.now

/-- What the results of the call say. -/
def Says (c : ConnectCall) (n : Int) (errno : Nat) : ConnectExit → Prop
  | .timedOut => n = -1 ∧ errno = ETIMEDOUT ∧ c.Expired
  | .sockoptFailed => n = -1
  | .result => (n = -1 ∧ c.attempt = .failed errno) ∨
      (n = 0 ∧ (c.attempt = .established ∨ c.addFailed = true ∨ c.evicted = true))

/-- A call with a timeout has a timer or a callback, unless that has come to nothing. -/
def Watched (timeout : UInt64) (c : ConnectCall) : Prop :=
  0 < timeout → c.callback ≠ .none ∨ c.missed = true

/-- What holds where the call is. -/
def Holds (timeout : UInt64) (c : ConnectCall) : ConnectPC → Prop
  | .start => c.registered = false ∧ c.addFailed = false ∧ c.canceled = false ∧ c.callback = .none
  | .armed => c.registered = false ∧ c.addFailed = false ∧ c.Watched timeout
  | .waiting => c.addFailed = false ∧ (c.registered = false → c.Settled ∨ c.canceled = true) ∧
      (c.registered = true → c.Watched timeout)
  | .resumed | .test =>
      c.registered = false ∧ c.addFailed = false ∧ (c.Settled ∨ c.canceled = true)
  | .sockopt => c.registered = false ∧ c.Settled
  | .returned exit n errno => c.registered = false ∧ c.Says n errno exit

/-- What holds of a call between any two steps. -/
structure Sound (timeout : UInt64) (c : ConnectCall) : Prop where
  place : c.Holds timeout c.pc
  timer : c.callback = .timer → c.deadline.isSome = true
  /-- a callback that has left `m_timers` has a reason -/
  expired : c.callback = .queued ∨ c.callback = .tested ∨ c.callback = .canceling → c.Expired
  set : c.callback = .canceling → c.canceled = true
  canceled : c.canceled = true →
    c.addFailed = true ∨ (c.Expired ∧ (c.callback = .canceling ∨ c.callback = .none))

theorem start_sound (timeout : UInt64) (now : Int) : (start now).Sound timeout := by
  constructor <;> simp [start, Holds]

/-! ## Steps -/

section Steps

variable {timeout : UInt64} {c c' : ConnectCall} {pc : ConnectPC}

/-- The event is registered in the wait only. -/
theorem Holds.waiting (h : c.Holds timeout pc) (hregistered : c.registered = true) :
    pc = .waiting := by
  cases pc <;> simp_all [Holds]

/-- A call whose `add_event` has failed does not wait. -/
theorem Holds.over (h : c.Holds timeout pc) (hfailed : c.addFailed = true) :
    pc = .sockopt ∨ pc.isReturned = true := by
  cases pc <;> simp_all [Holds, ConnectPC.isReturned]

/-- The callback goes on. -/
theorem Holds.callback (h : c.Holds timeout pc) (hthere : c.callback ≠ .none)
    (callback : CallbackPC) (canceled missed : Bool)
    (hcanceled : c.canceled = true → canceled = true)
    (hwatched : callback ≠ .none ∨ missed = true ∨ pc = .sockopt ∨ pc.isReturned = true) :
    Holds timeout { c with callback := callback, canceled := canceled, missed := missed } pc := by
  cases pc with
  | start => exact absurd h.2.2.2 hthere
  | armed => exact ⟨h.1, h.2.1, fun _ => by simpa [ConnectPC.isReturned] using hwatched⟩
  | waiting =>
      exact ⟨h.1, fun hr => (h.2.1 hr).imp_right hcanceled,
        fun _ _ => by simpa [ConnectPC.isReturned] using hwatched⟩
  | resumed | test => exact ⟨h.1, h.2.1, h.2.2.imp_right hcanceled⟩
  | sockopt => exact h
  | returned exit n errno => cases exit <;> exact h

theorem Expired.tick (h : c.Expired) (ms : Nat) : Expired { c with now := c.now + ms } := by
  rcases h with ⟨t, ht, hle⟩
  exact ⟨t, ht, by simp only; omega⟩

/-- What holds at a place does not depend on the clock. -/
theorem Holds.tick (h : c.Holds timeout pc) (ms : Nat) :
    Holds timeout { c with now := c.now + ms } pc := by
  cases pc with
  | returned exit n errno =>
      cases exit with
      | timedOut => exact ⟨h.1, h.2.1, h.2.2.1, h.2.2.2.tick ms⟩
      | sockoptFailed | result => exact h
  | _ => exact h

/-- What holds at a place holds when the attempt is settled. -/
theorem Holds.settle (h : c.Holds timeout pc) (hattempt : c.attempt = .underWay) (attempt : Attempt)
    (hsettled : attempt ≠ .underWay) : Holds timeout { c with attempt := attempt } pc := by
  cases pc with
  | start | armed => exact h
  | waiting => exact ⟨h.1, fun _ => .inl (.inl hsettled), h.2.2⟩
  | resumed | test => exact ⟨h.1, h.2.1, .inl (.inl hsettled)⟩
  | sockopt => exact ⟨h.1, .inl hsettled⟩
  | returned exit n errno =>
      cases exit with
      | timedOut | sockoptFailed => exact h
      | result =>
          rcases h with ⟨hr, ⟨-, hfailed⟩ | ⟨hn, hc | hc⟩⟩
          · rw [hattempt] at hfailed
            cases hfailed
          · rw [hattempt] at hc
            cases hc
          · exact ⟨hr, .inr ⟨hn, .inr hc⟩⟩

/-- What `cancel_timer` leaves. -/
theorem cancelTimer_callback (c : ConnectCall) :
    c.cancelTimer = { c with callback := if c.callback = .timer then .none else c.callback } := by
  unfold cancelTimer
  split <;> rfl

/-- Behind the wait the timer is cancelled. -/
theorem Sound.cancelTimer (h : c.Sound timeout) (hplace : c.cancelTimer.Holds timeout c.pc) :
    c.cancelTimer.Sound timeout := by
  rw [cancelTimer_callback] at hplace ⊢
  by_cases htimer : c.callback = .timer
  · simp only [htimer, if_true] at hplace ⊢
    exact { place := hplace
            timer := fun hcb => by cases hcb
            expired := by simp
            set := fun hcb => by cases hcb
            canceled := fun hset => (h.canceled hset).imp_right fun hc => ⟨hc.1, .inr rfl⟩ }
  · simp only [htimer, if_false] at hplace ⊢
    exact h

/-- The call goes on. -/
theorem Sound.go (h : c.Sound timeout) (pc : ConnectPC) (hplace : c.Holds timeout pc) :
    Sound timeout { c with pc := pc } where
  place := by cases pc <;> exact hplace
  timer := h.timer
  expired := h.expired
  set := h.set
  canceled := h.canceled

/-- The wake-up is queued. -/
theorem Sound.wake (h : c.Sound timeout) (hr : c.registered = true) (evicted : Bool)
    (hsettled : c.attempt ≠ .underWay ∨ evicted = true) :
    Sound timeout { c with registered := false, evicted := evicted } := by
  have hplace := h.place
  have hpc := hplace.waiting hr
  rw [hpc] at hplace
  refine { h with place := ?_ }
  rw [hpc]
  refine ⟨hplace.1, fun _ => .inl ?_, fun hr' => by cases hr'⟩
  exact hsettled.imp_right .inr

/-- Arming the timer keeps the call sound. -/
theorem Sound.arm (h : c.Sound timeout) (hstep : step timeout c .arm = some c') :
    c'.Sound timeout := by
  have hplace := h.place
  obtain ⟨hpc, hc⟩ := Option.ite_none_right_eq_some.mp hstep
  cases hc
  rw [hpc] at hplace
  rcases hplace with ⟨hr, hf, hs, hn⟩
  split
  · exact { place := ⟨hr, hf, fun _ => .inl (by simp)⟩, timer := fun _ => rfl
            expired := by simp
            set := fun hcb => by cases hcb
            canceled := fun hset => by simp [hs] at hset }
  case isFalse htimeout =>
    exact h.go .armed ⟨hr, hf, fun hpos => absurd hpos htimeout⟩

/-- Registering for the event keeps the call sound. -/
theorem Sound.addEvent (h : c.Sound timeout) {ok : Bool}
    (hstep : step timeout c (.addEvent ok) = some c') : c'.Sound timeout := by
  have hplace := h.place
  obtain ⟨hpc, hc⟩ := Option.ite_none_right_eq_some.mp hstep
  cases hc
  rw [hpc] at hplace
  rcases hplace with ⟨hr, hf, hw⟩
  cases ok with
  | true =>
      rw [if_pos rfl]
      exact { h with place := ⟨hf, fun hr => (by cases hr), fun _ => hw⟩ }
  | false =>
      rw [cancelTimer_callback]
      by_cases htimer : c.callback = .timer
      · simp only [htimer, if_true]
        exact { place := ⟨hr, .inr (.inl rfl)⟩, timer := fun hcb => by cases hcb
                expired := by simp, set := fun _ => rfl, canceled := fun _ => .inl rfl }
      · simp only [htimer, if_false]
        exact { place := ⟨hr, .inr (.inl rfl)⟩, timer := h.timer, expired := h.expired
                set := fun _ => rfl, canceled := fun _ => .inl rfl }

/-- The test behind the wait keeps the call sound. -/
theorem Sound.test (h : c.Sound timeout) (hstep : step timeout c .test = some c') :
    c'.Sound timeout := by
  have hplace := h.place
  obtain ⟨hpc, hc⟩ := Option.ite_none_right_eq_some.mp hstep
  cases hc
  rw [hpc] at hplace
  rcases hplace with ⟨hr, hf, hw⟩
  split
  case isTrue hset =>
    apply h.go (.returned .timedOut (-1) ETIMEDOUT)
    refine ⟨hr, rfl, rfl, ?_⟩
    rcases h.canceled hset with hf' | ⟨he, -⟩
    · rw [hf] at hf'
      cases hf'
    · exact he
  case isFalse hset =>
    exact h.go .sockopt ⟨hr, hw.resolve_right hset⟩

/-- Asking for the error keeps the call sound. -/
theorem Sound.getsockopt (h : c.Sound timeout) {failed : Option Nat}
    (hstep : step timeout c (.getsockopt failed) = some c') : c'.Sound timeout := by
  have hplace := h.place
  obtain ⟨hpc, hc⟩ := Option.ite_none_right_eq_some.mp hstep
  cases hc
  rw [hpc] at hplace
  rcases hplace with ⟨hr, hs⟩
  split
  case h_1 errno => exact h.go (.returned .sockoptFailed (-1) errno) ⟨hr, rfl⟩
  case h_2 errno hfailed =>
    exact h.go (.returned .result (-1) errno) ⟨hr, .inl ⟨rfl, hfailed⟩⟩
  case h_3 hfailed =>
    apply h.go (.returned .result 0 0)
    refine ⟨hr, .inr ⟨rfl, ?_⟩⟩
    rcases hs with ha | hs
    · cases hat : c.attempt with
      | underWay => exact absurd hat ha
      | established => exact .inl rfl
      | failed e => exact absurd hat (by simpa using hfailed e)
    · exact .inr hs

/-- Extracting the callback keeps the call sound. -/
theorem Sound.extract (h : c.Sound timeout) (hstep : step timeout c .extract = some c') :
    c'.Sound timeout := by
  have hplace := h.place
  obtain ⟨⟨htimer, hdue⟩, hc⟩ := Option.ite_none_right_eq_some.mp hstep
  cases hc
  obtain ⟨t, ht, hle⟩ := Option.any_eq_true .. |>.mp hdue
  have hthere : c.callback ≠ .none := by simp [htimer]
  exact
    { place := hplace.callback hthere .queued c.canceled c.missed id (.inl (by simp))
      timer := fun hcb => by cases hcb
      expired := fun _ => ⟨t, ht, of_decide_eq_true hle⟩
      set := fun hcb => by cases hcb
      canceled := fun hset => .inl ((h.canceled hset).resolve_right (by simp [htimer])) }

/-- The callback's test keeps the call sound. -/
theorem Sound.callbackTest (h : c.Sound timeout) (hstep : step timeout c .callbackTest = some c') :
    c'.Sound timeout := by
  have hplace := h.place
  obtain ⟨hqueued, hc⟩ := Option.ite_none_right_eq_some.mp hstep
  cases hc
  have hthere : c.callback ≠ .none := by simp [hqueued]
  -- the state is canceled before the callback only where `add_event` has failed
  have hfailed : c.canceled = true → c.addFailed = true := fun hset =>
    (h.canceled hset).resolve_right (by simp [hqueued])
  refine
    { place := hplace.callback hthere _ c.canceled c.missed id ?_
      timer := ?_, expired := ?_, set := ?_, canceled := fun hset => .inl (hfailed hset) }
  · by_cases hover : (c.pc.isReturned || c.canceled) = true
    · rcases Bool.or_eq_true .. |>.mp hover with hret | hset
      · exact .inr (.inr (.inr hret))
      · exact .inr (.inr (hplace.over (hfailed hset)))
    · simp [hover]
  · intro htimer
    split at htimer <;> cases htimer
  · intro _
    exact h.expired (.inl hqueued)
  · intro hcb
    split at hcb <;> cases hcb

/-- The callback's assignment keeps the call sound. -/
theorem Sound.callbackSet (h : c.Sound timeout) (hstep : step timeout c .callbackSet = some c') :
    c'.Sound timeout := by
  have hplace := h.place
  obtain ⟨htested, hc⟩ := Option.ite_none_right_eq_some.mp hstep
  cases hc
  have hthere : c.callback ≠ .none := by simp [htested]
  have hexpired := h.expired (.inr (.inl htested))
  exact
    { place := hplace.callback hthere .canceling true c.missed (fun _ => rfl) (.inl (by simp))
      timer := fun hcb => by cases hcb
      expired := fun _ => hexpired
      set := fun _ => rfl
      canceled := fun _ => .inr ⟨hexpired, .inl rfl⟩ }

/-- The callback's `cancel_event` keeps the call sound. -/
theorem Sound.callbackCancel (h : c.Sound timeout) {ok : Bool}
    (hstep : step timeout c (.callbackCancel ok) = some c') : c'.Sound timeout := by
  have hplace := h.place
  obtain ⟨hcb, hc⟩ := Option.ite_none_right_eq_some.mp hstep
  cases hc
  have hthere : c.callback ≠ .none := by simp [hcb]
  have hexpired := h.expired (.inr (.inr hcb))
  split
  case isTrue hcancel =>
    have hpc := hplace.waiting (Bool.and_eq_true .. |>.mp hcancel).1
    rw [hpc] at hplace
    have hset := h.set hcb
    exact
      { place := by rw [hpc]; exact ⟨hplace.1, fun _ => .inr hset, fun hr => by cases hr⟩
        timer := fun hcb => by cases hcb
        expired := by simp
        set := fun hcb => by cases hcb
        canceled := fun hset => (h.canceled hset).imp_right fun hs => ⟨hs.1, .inr rfl⟩ }
  case isFalse =>
    exact
      { place := hplace.callback hthere .none c.canceled true id (.inr (.inl rfl))
        timer := fun hcb => by cases hcb
        expired := by simp
        set := fun hcb => by cases hcb
        canceled := fun hset => (h.canceled hset).imp_right fun hs => ⟨hs.1, .inr rfl⟩ }

/-- The step lemma. -/
theorem step_sound {a : ConnectStep} (h : c.Sound timeout) (hstep : step timeout c a = some c') :
    c'.Sound timeout := by
  have hplace := h.place
  cases a with
  | arm => exact h.arm hstep
  | addEvent _ => exact h.addEvent hstep
  | resume =>
      obtain ⟨⟨hpc, hr⟩, hc⟩ := Option.ite_none_right_eq_some.mp hstep
      cases hc
      rw [hpc] at hplace
      exact h.go .resumed ⟨hr, hplace.1, hplace.2.1 hr⟩
  | cancelTimer =>
      obtain ⟨hpc, hc⟩ := Option.ite_none_right_eq_some.mp hstep
      cases hc
      rw [hpc] at hplace
      have hcanceled : c.cancelTimer.Sound timeout := by
        apply h.cancelTimer
        rw [hpc, cancelTimer_callback]
        exact hplace
      apply hcanceled.go .test
      rw [cancelTimer_callback]
      exact hplace
  | test => exact h.test hstep
  | getsockopt _ => exact h.getsockopt hstep
  | tick ms =>
      cases hstep
      exact { place := hplace.tick ms, timer := h.timer
              expired := fun hcb => (h.expired hcb).tick ms
              set := h.set
              canceled := fun hset => (h.canceled hset).imp_right fun hc => ⟨hc.1.tick ms, hc.2⟩ }
  | settle errno =>
      obtain ⟨⟨hattempt, -⟩, hc⟩ := Option.ite_none_right_eq_some.mp hstep
      cases hc
      exact { h with place := hplace.settle hattempt _ (by cases errno <;> simp) }
  | deliver =>
      obtain ⟨⟨hr, hattempt⟩, hc⟩ := Option.ite_none_right_eq_some.mp hstep
      cases hc
      exact h.wake hr c.evicted (.inl hattempt)
  | evict =>
      obtain ⟨hr, hc⟩ := Option.ite_none_right_eq_some.mp hstep
      cases hc
      exact h.wake hr true (.inr rfl)
  | extract => exact h.extract hstep
  | callbackTest => exact h.callbackTest hstep
  | callbackSet => exact h.callbackSet hstep
  | callbackCancel _ => exact h.callbackCancel hstep

end Steps

theorem run_sound {timeout : UInt64} {now : Int} {steps : List ConnectStep} {c : ConnectCall}
    (h : run timeout (start now) steps = some c) : c.Sound timeout :=
  Lib.invariant_of_runSteps (fun _ _ _ hs hstep => step_sound hs hstep) h (start_sound timeout now)

/-! ## Results -/

/-- A call that gives up has reached its deadline.  A call that fails with `SO_ERROR` has it from
its connection.  A call that says 0 is connected, or its `add_event` has failed, or its event was
cancelled from elsewhere.  And while the event of a call with a timeout is registered, there is a
timer or a callback, unless the callback has cancelled nothing. -/
theorem connect_results {timeout : UInt64} {now : Int} {steps : List ConnectStep} {c : ConnectCall}
    (h : run timeout (start now) steps = some c) :
    (∀ exit n errno, c.pc = .returned exit n errno → c.Says n errno exit) ∧
    (c.registered = true → c.pc = .waiting ∧ c.Watched timeout) := by
  have hplace := (run_sound h).place
  constructor
  · intro exit n errno hpc
    rw [hpc] at hplace
    exact hplace.2
  · intro hregistered
    have hpc := hplace.waiting hregistered
    rw [hpc] at hplace
    exact ⟨hpc, hplace.2.2 hregistered⟩

/-- The event does not come. -/
def timeoutSteps : List ConnectStep :=
  [.arm, .addEvent true, .tick 10, .extract, .callbackTest, .callbackSet, .callbackCancel true,
    .resume, .cancelTimer, .test]

theorem connect_results_timeout :
    ∃ c, run 10 (start 0) timeoutSteps = some c ∧ c.Says (-1) ETIMEDOUT .timedOut := by
  refine ⟨_, rfl, ?_⟩
  have hrun : run 10 (start 0) timeoutSteps = some _ := rfl
  exact (connect_results hrun).1 _ _ _ rfl

/-! ## The end of the wait -/

/-- No timer is left. -/
def Unwatched (c : ConnectCall) : Prop :=
  c.pc = .waiting ∧ c.registered = true ∧ c.callback = .none

/-- A call that nothing watches stays so in its own steps. -/
theorem Unwatched.step {timeout : UInt64} {c c' : ConnectCall} {a : ConnectStep}
    (h : c.Unwatched) (hown : a.isOwn = true) (hstep : step timeout c a = some c') :
    c'.Unwatched := by
  obtain ⟨hpc, hr, hn⟩ := h
  cases a with
  | settle | deliver | evict => cases hown
  | tick ms =>
      cases hstep
      exact ⟨hpc, hr, hn⟩
  | _ => simp [ConnectCall.step, hpc, hr, hn] at hstep

/-- The call can end without its connection being settled and without another coroutine. -/
def Ends (timeout : UInt64) (c : ConnectCall) : Prop :=
  ∃ steps c', (∀ a ∈ steps, a.isOwn = true) ∧ run timeout c steps = some c' ∧
    c'.pc.isReturned = true

/-- A call that nothing watches does not end by itself. -/
theorem Unwatched.not_ends {timeout : UInt64} {c : ConnectCall} (h : c.Unwatched) :
    ¬ c.Ends timeout := by
  rintro ⟨steps, c', hown, hrun, hret⟩
  induction steps generalizing c with
  | nil =>
      cases hrun
      rw [h.1] at hret
      cases hret
  | cons a steps ih =>
      rcases Option.bind_eq_some_iff.mp hrun with ⟨c₁, hfirst, hrest⟩
      exact ih (h.step (hown a (by simp)) hfirst) (fun b hb => hown b (by simp [hb])) hrest

section Ends

variable {timeout : UInt64} {c c' : ConnectCall}

/-- A call ends if it does so behind one of its own steps. -/
theorem Ends.step {a : ConnectStep} (h : c'.Ends timeout) (hown : a.isOwn = true)
    (hstep : ConnectCall.step timeout c a = some c') : c.Ends timeout := by
  rcases h with ⟨steps, c₂, hsteps, hrun, hret⟩
  refine ⟨a :: steps, c₂, ?_, ?_, hret⟩
  · intro b hb
    rcases List.mem_cons.mp hb with rfl | hb
    · exact hown
    · exact hsteps b hb
  · exact Option.bind_eq_some_iff.mpr ⟨c', hstep, hrun⟩

theorem ends_of_returned (h : c.pc.isReturned = true) : c.Ends timeout :=
  ⟨[], c, by simp, rfl, h⟩

/-- The callback cancels the event. -/
theorem ends_of_canceling (hpc : c.pc = .waiting) (hr : c.registered = true)
    (hs : c.canceled = true) (hcb : c.callback = .canceling) : c.Ends timeout := by
  have hcancel : step timeout c (.callbackCancel true) =
      some { c with callback := .none, registered := false } := by
    simp [step, hcb, hr]
  have hresume : step timeout { c with callback := .none, registered := false } .resume =
      some { c with callback := .none, registered := false, pc := .resumed } := by
    simp [step, hpc]
  have htimer : step timeout { c with callback := .none, registered := false, pc := .resumed }
      .cancelTimer = some { c with callback := .none, registered := false, pc := .test } := by
    simp [step, ConnectCall.cancelTimer]
  have htest : step timeout { c with callback := .none, registered := false, pc := .test } .test =
      some { c with callback := .none, registered := false,
                    pc := .returned .timedOut (-1) ETIMEDOUT } := by
    simp [step, hs]
  refine Ends.step ?_ rfl hcancel
  refine Ends.step ?_ rfl hresume
  refine Ends.step ?_ rfl htimer
  exact Ends.step (ends_of_returned rfl) rfl htest

/-- A callback that has passed its test wakes the call. -/
theorem ends_of_tested (hpc : c.pc = .waiting) (hr : c.registered = true)
    (hcb : c.callback = .tested) : c.Ends timeout := by
  have hset : step timeout c .callbackSet =
      some { c with callback := .canceling, canceled := true } := by
    simp [step, hcb]
  refine Ends.step ?_ rfl hset
  exact ends_of_canceling hpc hr rfl rfl

/-- A callback that is queued wakes the call. -/
theorem ends_of_queued (hpc : c.pc = .waiting) (hr : c.registered = true)
    (hs : c.canceled = false) (hcb : c.callback = .queued) : c.Ends timeout := by
  have htest : step timeout c .callbackTest = some { c with callback := .tested } := by
    simp [step, hcb, hpc, hs, ConnectPC.isReturned]
  refine Ends.step ?_ rfl htest
  exact ends_of_tested hpc hr rfl

/-- A timer that is armed wakes the call. -/
theorem ends_of_timer {t : Int} (hpc : c.pc = .waiting) (hr : c.registered = true)
    (hs : c.canceled = false) (hcb : c.callback = .timer) (ht : c.deadline = some t) :
    c.Ends timeout := by
  have htick : step timeout c (.tick (t - c.now).toNat) =
      some { c with now := c.now + (t - c.now).toNat } := rfl
  have hextract : step timeout { c with now := c.now + (t - c.now).toNat } .extract =
      some { c with now := c.now + (t - c.now).toNat, callback := .queued } := by
    simp [step, hcb, ht]
    omega
  refine (Ends.step ?_ rfl hextract).step rfl htick
  exact ends_of_queued hpc hr hs rfl

end Ends

/-- A call that waits for its event can end without it when its timer or its callback is there. -/
theorem connect_ends_iff {timeout : UInt64} {now : Int} {steps : List ConnectStep}
    {c : ConnectCall} (h : run timeout (start now) steps = some c) (hr : c.registered = true) :
    c.Ends timeout ↔ c.callback ≠ .none := by
  have hsound := run_sound h
  have hplace := hsound.place
  have hpc := hplace.waiting hr
  rw [hpc] at hplace
  have hs : c.canceled = true → c.callback = .canceling ∨ c.callback = .none := by
    intro hset
    rcases hsound.canceled hset with hf | ⟨-, hcb⟩
    · rw [hplace.1] at hf
      cases hf
    · exact hcb
  constructor
  · intro hends hnone
    exact Unwatched.not_ends ⟨hpc, hr, hnone⟩ hends
  · intro hthere
    cases hcb : c.callback with
    | none => exact absurd hcb hthere
    | timer =>
        obtain ⟨t, ht⟩ := Option.isSome_iff_exists.mp (hsound.timer hcb)
        exact ends_of_timer hpc hr (by simpa [hcb] using hs) hcb ht
    | queued => exact ends_of_queued hpc hr (by simpa [hcb] using hs) hcb
    | tested => exact ends_of_tested hpc hr hcb
    | canceling => exact ends_of_canceling hpc hr (hsound.set hcb) hcb

theorem connect_ends_iff_plain :
    ∃ c, run 10 (start 0) [.arm, .addEvent true] = some c ∧ (c.Ends 10 ↔ c.callback ≠ .none) := by
  refine ⟨_, rfl, ?_⟩
  have hrun : run 10 (start 0) [.arm, .addEvent true] = some _ := rfl
  exact connect_ends_iff hrun rfl

/-- The callback can run in front of `add_event`; the call then waits with no timer. -/
theorem connect_unwatched (timeout : UInt64) (hpos : 0 < timeout) (now : Int) :
    ∃ steps c, run timeout (start now) steps = some c ∧ c.Unwatched ∧ c.attempt = .underWay := by
  obtain ⟨ms, hdue⟩ : ∃ ms : Nat, timeout.toInt64.toInt ≤ ms := ⟨_, Int.self_le_toNat _⟩
  refine ⟨[.arm, .tick ms, .extract, .callbackTest, .callbackSet, .callbackCancel true,
    .addEvent true], ⟨.waiting, .underWay, true, true, .none, now + ms,
    some (now + timeout.toInt64.toInt), false, false, true⟩, ?_, ⟨rfl, rfl, rfl⟩, rfl⟩
  simp [run, runSteps, step, start, hpos, hdue, ConnectPC.isReturned]

end ConnectCall
end Hook
end Tiger
