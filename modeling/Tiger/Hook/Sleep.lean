import Tiger.Timers.Manager
import Mathlib.Tactic

/-!
# Hooks - sleep, usleep and nanosleep

This module embeds the three hooked functions (`src/hook.cc`) up to the timer that they make
(`src/timer.cc`).  In a thread with hooks the calling coroutine is suspended until its timer
schedules it again; in any other thread the original function is called.

The units do not agree: `sleep` multiplies in 32 bits, `usleep` passes its microseconds on as
milliseconds, and `nanosleep` divides by ten times the nanoseconds of a millisecond.  Without hooks
`nanosleep` calls itself.

Main results:

- Theorem `run_enabled`: with hooks each function is suspended for its interval.
- Theorem `nanosleep_disabled`: without hooks `nanosleep` does not return.
- Theorem `sleeps_iff`: the durations for which the three functions sleep as they should.
-/

namespace Tiger
namespace Hook
namespace Sleep

open Timers (Timer timeAdd timeAdd_eq)

/-! ## Arguments and outcomes -/

/-- A `timespec` that is a duration. -/
structure Timespec where
  tvSec : Nat
  tvNsec : Nat
  tvSec_lt : tvSec < 2 ^ 63
  tvNsec_lt : tvNsec < 1000000000

/-- A call; the second argument of `nanosleep` is only handed on. -/
inductive Call
  | sleep (seconds : UInt32)
  | usleep (usec : UInt32)
  | nanosleep (rqtp : Timespec)

/-- What a call reads: the hook flag of the thread, the thread and its running coroutine, and the
time at which the timer is made. -/
structure Context where
  enableHook : Bool
  thread : Nat
  co : Nat
  now : Nat
  now_lt : now < 2 ^ 63

/-- `iom->schedule(co, t)` -/
structure Wake where
  co : Nat
  thread : Nat

/-- How a call comes back. -/
inductive Outcome
  /-- with what the original function returns for the same arguments -/
  | original (call : Call)
  /-- behind `Yield`, with `result`, once the timer has run its callback -/
  | suspended (timer : Timer Wake Empty) (result : Int)

/-! ## The functions -/

/-- The product of two `time_t` values. -/
def timeMul (a b : Int) : Int := (a * b).bmod (2 ^ 64)

/-- `add_timer(interval, [iom, co, t]() { iom->schedule(co, t); }, false)`, `Yield`, `return 0` -/
def suspend (ctx : Context) (interval : Int) : Outcome :=
  .suspended {
    interval := interval
    loop := false
    nextTime := timeAdd ctx.now interval
    cb := some (.function ⟨ctx.co, ctx.thread⟩) } 0

/-- `sleep(seconds)` -/
def sleep (ctx : Context) (seconds : UInt32) : Outcome :=
  if !ctx.enableHook then .original (.sleep seconds)
  else suspend ctx (seconds * 1000).toNat

/-- `usleep(usec)` -/
def usleep (ctx : Context) (usec : UInt32) : Outcome :=
  if !ctx.enableHook then .original (.usleep usec)
  else suspend ctx usec.toNat

/-- `nanosleep(rqtp, rmtp)` with a bound on its calls of itself -/
def nanosleep (ctx : Context) (rqtp : Timespec) : Nat → Option Outcome
  | 0 => none
  | fuel + 1 =>
    if !ctx.enableHook then nanosleep ctx rqtp fuel
    else some (suspend ctx (timeAdd (timeMul rqtp.tvSec 1000) (rqtp.tvNsec / 10000000)))

/-- The outcome of a call. -/
def Call.run (ctx : Context) (fuel : Nat) : Call → Option Outcome
  | .sleep seconds => some (Sleep.sleep ctx seconds)
  | .usleep usec => some (Sleep.usleep ctx usec)
  | .nanosleep rqtp => Sleep.nanosleep ctx rqtp fuel

/-! ## What the functions are for -/

/-- The duration in nanoseconds. -/
def Timespec.duration (ts : Timespec) : Nat := ts.tvSec * 1000000000 + ts.tvNsec

/-- The duration in nanoseconds that a call asks for. -/
def Call.duration : Call → Nat
  | .sleep seconds => seconds.toNat * 1000000000
  | .usleep usec => usec.toNat * 1000
  | .nanosleep rqtp => rqtp.duration

/-- The product of a call fits its type. -/
def Call.ProductFits : Call → Prop
  | .sleep seconds => seconds.toNat * 1000 < 2 ^ 32
  | .usleep _ => True
  | .nanosleep rqtp => rqtp.tvSec * 1000 < 2 ^ 63

/-- An interval is within a millisecond of a duration in nanoseconds. -/
def Near (ms : Int) (duration : Nat) : Prop :=
  ms * 1000000 ≤ duration + 1000000 ∧ (duration : Int) ≤ ms * 1000000 + 1000000

/-- The coroutine is suspended for `ms` milliseconds from now on, and is then scheduled on its
thread. -/
def suspendedFor (ctx : Context) (ms : Int) : Outcome :=
  .suspended {
    interval := ms
    loop := false
    nextTime := ctx.now + ms
    cb := some (.function ⟨ctx.co, ctx.thread⟩) } 0

/-- The calls that ask for a duration sleep as they should. -/
structure Sleeps (ctx : Context) (ts : Timespec) : Prop where
  suspends : ctx.enableHook = true → ∀ call : Call, call.duration = ts.duration →
    call.ProductFits ∧ ∃ ms fuel, call.run ctx fuel = some (suspendedFor ctx ms) ∧
      Near ms ts.duration
  same : ctx.enableHook = true → ∀ call call' : Call, call.duration = ts.duration →
    call'.duration = ts.duration → ∀ ms ms' fuel fuel',
      call.run ctx fuel = some (suspendedFor ctx ms) →
        call'.run ctx fuel' = some (suspendedFor ctx ms') → ms = ms'
  delegates : ctx.enableHook = false → ∀ call : Call, call.duration = ts.duration →
    ∃ fuel, call.run ctx fuel = some (.original call)

/-- The durations for which they do: hooks are on, less than a millisecond is behind the full
seconds, microseconds that `usleep` takes denote nothing, the seconds that `sleep` takes fit in
milliseconds, and the deadline fits. -/
structure Kept (ctx : Context) (ts : Timespec) : Prop where
  enabled : ctx.enableHook = true
  deadline : ctx.now + ts.tvSec * 1000 < 2 ^ 63
  nanoseconds : ts.tvNsec ≤ 1000000
  microseconds : ts.tvNsec % 1000 = 0 → ts.duration / 1000 < 2 ^ 32 → ts.duration = 0
  seconds : ts.tvNsec = 0 → ts.tvSec < 2 ^ 32 → ts.tvSec * 1000 < 2 ^ 32

variable {ctx : Context} {ts : Timespec}

/-! ## Each function -/

/-- The interval that a call passes to `add_timer`. -/
def Call.interval : Call → Int
  | .sleep seconds => (seconds * 1000).toNat
  | .usleep usec => usec.toNat
  | .nanosleep rqtp => timeAdd (timeMul rqtp.tvSec 1000) (rqtp.tvNsec / 10000000)

/-- With hooks a call is suspended for its interval. -/
theorem run_enabled (henabled : ctx.enableHook = true) (call : Call) (fuel : Nat) :
    call.run ctx (fuel + 1) = some (suspend ctx call.interval) := by
  cases call with
  | sleep seconds => simp [Call.run, sleep, Call.interval, henabled]
  | usleep usec => simp [Call.run, usleep, Call.interval, henabled]
  | nanosleep rqtp => simp [Call.run, nanosleep, Call.interval, henabled]

/-- Without hooks `nanosleep` does not return. -/
theorem nanosleep_disabled (hdisabled : ctx.enableHook = false) (rqtp : Timespec) (fuel : Nat) :
    nanosleep ctx rqtp fuel = none := by
  induction fuel with
  | zero => rfl
  | succ fuel ih =>
    unfold nanosleep
    simp [hdisabled, ih]

/-- A call sleeps for the asked time exactly if its interval is that time and the deadline does not
wrap. -/
theorem suspend_eq_iff {interval ms : Int} :
    suspend ctx interval = suspendedFor ctx ms ↔
      interval = ms ∧ timeAdd ctx.now ms = ctx.now + ms := by
  unfold suspend suspendedFor
  simp only [Outcome.suspended.injEq, Timer.mk.injEq, true_and, and_true, and_congr_right_iff]
  rintro rfl
  rfl

/-- A call that returns as suspended is so for its interval, and its deadline does not wrap. -/
theorem interval_of_run (henabled : ctx.enableHook = true) {call : Call} {ms : Int} {fuel : Nat}
    (hrun : call.run ctx fuel = some (suspendedFor ctx ms)) :
    call.interval = ms ∧ timeAdd ctx.now ms = ctx.now + ms := by
  rw [← suspend_eq_iff, ← Option.some.injEq, ← hrun]
  cases fuel with
  | succ fuel => exact (run_enabled henabled call fuel).symm
  | zero =>
    cases call with
    | nanosleep rqtp => cases hrun
    | sleep seconds => exact (run_enabled henabled (.sleep seconds) 0).symm
    | usleep usec => exact (run_enabled henabled (.usleep usec) 0).symm

/-- Products in the range of `time_t` are exact. -/
theorem timeMul_eq {a b : Int} (hlow : -2 ^ 63 ≤ a * b) (hhigh : a * b < 2 ^ 63) :
    timeMul a b = a * b := by
  unfold timeMul
  exact Int.bmod_eq_of_le (by omega) (by omega)

/-- The interval of `nanosleep`, as the source computes it. -/
theorem interval_nanosleep (hfits : ts.tvSec * 1000 < 2 ^ 63) :
    (Call.nanosleep ts).interval = ts.tvSec * 1000 + ts.tvNsec / 10000000 := by
  have hnsec := ts.tvNsec_lt
  have hproduct : timeMul ts.tvSec 1000 = ts.tvSec * 1000 :=
    timeMul_eq (by omega) (by omega)
  have hsum : timeAdd (ts.tvSec * 1000) (ts.tvNsec / 10000000) =
      ts.tvSec * 1000 + ts.tvNsec / 10000000 :=
    timeAdd_eq (by omega) (by omega)
  rw [← hsum, ← hproduct]
  rfl

/-- With a product in 32 bits. -/
theorem interval_sleep {seconds : UInt32} (hfits : seconds.toNat * 1000 < 2 ^ 32) :
    (Call.sleep seconds).interval = seconds.toNat * 1000 := by
  have hthousand : (1000 : UInt32).toNat = 1000 := rfl
  have hproduct : (seconds * 1000).toNat = seconds.toNat * 1000 := by
    rw [UInt32.toNat_mul, hthousand, Nat.mod_eq_of_lt hfits]
  simp only [Call.interval, hproduct]
  omega

/-! ## Calls with the same duration -/

/-- `sleep` is called for a time of whole seconds. -/
theorem sleep_duration_eq_iff {seconds : UInt32} :
    (Call.sleep seconds).duration = ts.duration ↔
      seconds.toNat = ts.tvSec ∧ ts.tvNsec = 0 := by
  have hnsec := ts.tvNsec_lt
  simp only [Call.duration, Timespec.duration]
  omega

/-- `usleep` is called for a time of whole microseconds. -/
theorem usleep_duration_eq_iff {usec : UInt32} :
    (Call.usleep usec).duration = ts.duration ↔
      usec.toNat = ts.duration / 1000 ∧ ts.tvNsec % 1000 = 0 := by
  simp only [Call.duration, Timespec.duration]
  omega

/-- `nanosleep` is called for a time by its two fields. -/
theorem nanosleep_duration_eq_iff {rqtp : Timespec} :
    (Call.nanosleep rqtp).duration = ts.duration ↔
      rqtp.tvSec = ts.tvSec ∧ rqtp.tvNsec = ts.tvNsec := by
  have hnsec := ts.tvNsec_lt
  have hnsec' := rqtp.tvNsec_lt
  simp only [Call.duration, Timespec.duration]
  omega

/-! ## The durations -/

/-- For these durations all calls have the same interval. -/
theorem interval_of_kept (h : Kept ctx ts) {call : Call} (hcall : call.duration = ts.duration) :
    call.ProductFits ∧ call.interval = ts.tvSec * 1000 := by
  have hdeadline := h.deadline
  cases call with
  | sleep seconds =>
    obtain ⟨hsame, hzero⟩ := sleep_duration_eq_iff.mp hcall
    have hlt := seconds.toNat_lt
    rw [hsame] at hlt
    have hfits : seconds.toNat * 1000 < 2 ^ 32 := by
      rw [hsame]
      exact h.seconds hzero hlt
    refine ⟨hfits, ?_⟩
    rw [interval_sleep hfits, hsame]
  | usleep usec =>
    obtain ⟨hsame, hmod⟩ := usleep_duration_eq_iff.mp hcall
    have hlt := usec.toNat_lt
    rw [hsame] at hlt
    -- only the empty sleep is left
    have hzero := h.microseconds hmod hlt
    rw [hzero] at hsame
    simp only [Timespec.duration] at hzero
    refine ⟨trivial, ?_⟩
    simp only [Call.interval]
    omega
  | nanosleep rqtp =>
    obtain ⟨hsec, hnsec⟩ := nanosleep_duration_eq_iff.mp hcall
    have hbound := h.nanoseconds
    have hfits : rqtp.tvSec * 1000 < 2 ^ 63 := by omega
    refine ⟨hfits, ?_⟩
    rw [interval_nanosleep hfits]
    omega

/-- Under the condition, all three functions sleep for the time. -/
theorem Kept.sleeps (h : Kept ctx ts) : Sleeps ctx ts where
  suspends := by
    intro henabled call hcall
    obtain ⟨hfits, hinterval⟩ := interval_of_kept h hcall
    have hdeadline := h.deadline
    have hnsec := h.nanoseconds
    refine ⟨hfits, call.interval, 1, ?_, ?_⟩
    · rw [run_enabled henabled, Option.some.injEq, suspend_eq_iff]
      refine ⟨rfl, ?_⟩
      rw [hinterval]
      exact timeAdd_eq (by omega) (by omega)
    · simp only [Near, hinterval, Timespec.duration]
      omega
  same := by
    intro henabled call call' hcall hcall' ms ms' fuel fuel' hrun hrun'
    rw [← (interval_of_run henabled hrun).1, ← (interval_of_run henabled hrun').1,
      (interval_of_kept h hcall).2, (interval_of_kept h hcall').2]
  delegates := by
    intro hdisabled
    rw [h.enabled] at hdisabled
    cases hdisabled

/-- Functions that sleep are hooked. -/
theorem Sleeps.enabled (h : Sleeps ctx ts) : ctx.enableHook = true := by
  by_contra hne
  have hdisabled : ctx.enableHook = false := by simpa using hne
  obtain ⟨fuel, hrun⟩ := h.delegates hdisabled (.nanosleep ts) rfl
  simp only [Call.run, nanosleep_disabled hdisabled] at hrun
  cases hrun

/-- What a call with the right interval says about it. -/
theorem Sleeps.interval (h : Sleeps ctx ts) (call : Call) (hcall : call.duration = ts.duration) :
    call.ProductFits ∧ Near call.interval ts.duration ∧
      timeAdd ctx.now call.interval = ctx.now + call.interval := by
  obtain ⟨hfits, ms, fuel, hrun, hnear⟩ := h.suspends h.enabled call hcall
  obtain ⟨hinterval, hdeadline⟩ := interval_of_run h.enabled hrun
  rw [← hinterval] at hnear hdeadline
  exact ⟨hfits, hnear, hdeadline⟩

/-- Calls for one time have one interval. -/
theorem Sleeps.interval_eq (h : Sleeps ctx ts) {call call' : Call}
    (hcall : call.duration = ts.duration) (hcall' : call'.duration = ts.duration) :
    call.interval = call'.interval := by
  obtain ⟨-, ms, fuel, hrun, -⟩ := h.suspends h.enabled call hcall
  obtain ⟨-, ms', fuel', hrun', -⟩ := h.suspends h.enabled call' hcall'
  have hsame := h.same h.enabled call call' hcall hcall' ms ms' fuel fuel' hrun hrun'
  rw [(interval_of_run h.enabled hrun).1, (interval_of_run h.enabled hrun').1, hsame]

/-- Functions that sleep for the time meet the condition. -/
theorem Sleeps.kept (h : Sleeps ctx ts) : Kept ctx ts := by
  have hnsec := ts.tvNsec_lt
  obtain ⟨hfits, hnear, hdeadline⟩ := h.interval (.nanosleep ts) rfl
  have hinterval := interval_nanosleep hfits
  have hbound : timeAdd ctx.now (Call.nanosleep ts).interval < 2 ^ 63 :=
    Int.bmod_lt (by omega)
  simp only [Near, Timespec.duration] at hnear
  rw [hdeadline] at hbound
  refine ⟨h.enabled, by omega, by omega, ?_, ?_⟩
  · -- microseconds are passed on as they are
    intro hmod hlt
    obtain ⟨usec, husec⟩ : ∃ usec : UInt32, usec.toNat = ts.duration / 1000 :=
      ⟨UInt32.ofNat (ts.duration / 1000), UInt32.toNat_ofNat_of_lt' hlt⟩
    have hcall : (Call.usleep usec).duration = ts.duration :=
      usleep_duration_eq_iff.mpr ⟨husec, hmod⟩
    have hsame : (Call.usleep usec).interval = (Call.nanosleep ts).interval :=
      h.interval_eq hcall rfl
    rw [hinterval] at hsame
    simp only [Call.interval, husec, Timespec.duration] at hsame ⊢
    omega
  · intro hzero hlt
    obtain ⟨seconds, hseconds⟩ : ∃ seconds : UInt32, seconds.toNat = ts.tvSec :=
      ⟨UInt32.ofNat ts.tvSec, UInt32.toNat_ofNat_of_lt' hlt⟩
    have hcall : (Call.sleep seconds).duration = ts.duration :=
      sleep_duration_eq_iff.mpr ⟨hseconds, hzero⟩
    have hproduct := (h.interval _ hcall).1
    simpa only [Call.ProductFits, hseconds] using hproduct

/-- The three functions sleep as they should exactly for these durations. -/
theorem sleeps_iff : Sleeps ctx ts ↔ Kept ctx ts :=
  ⟨Sleeps.kept, Kept.sleeps⟩

/-- For fifty milliseconds `nanosleep` sleeps five. -/
theorem nanosleep_short :
    ¬ Sleeps ⟨true, 1, 1, 0, by decide⟩ ⟨0, 50000000, by decide, by decide⟩ := by
  intro h
  have hnear := (h.interval (.nanosleep _) rfl).2.1
  exact absurd hnear.2 (by decide)

end Sleep
end Hook
end Tiger
