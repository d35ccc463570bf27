import Mathlib.Order.Bounds.Defs
import Tiger.Timers.Callbacks

/-!
# Polls and deadlines

`all_expired_cbs` (`src/timer.cc`) takes the timers that are due out of a set that is ordered by
their deadlines, and puts the loops among them back with a new deadline.  `next_timer_left_time`
says how long it may wait.  `reset_timer` stores a new interval and moves the timer within the
set, but it leaves the deadline as it is.

Main results:

- Theorem `poll_delivers_due`: what a poll appends and what it leaves.
- Theorem `nextTimerLeftTime_eq`: the time that is left is that of the earliest deadline.
- Theorem `resetTakesEffect_iff`: when a reset moves the next delivery of a timer.
-/

namespace Tiger
namespace Timers

open Lib TimerManager

variable {κ ω : Type}

/-! ## Times -/

/-- The difference of two `time_t` values. -/
def timeSub (a b : Int) : Int := (a - b).bmod (2 ^ 64)

/-- The time that is left until a deadline. -/
def leftUntil (deadline now : Int) : Int :=
  if now ≥ deadline then 0
  else
    let leftTime := timeSub deadline now
    if leftTime < 0 then 0 else leftTime

/-- `next_timer_left_time`, with the clock reading. -/
def TimerManager.nextTimerLeftTime (m : TimerManager κ ω) (now : Int) : Int :=
  match m.timers with
  | [] => -1
  | p :: _ => leftUntil (m.object p).nextTime now

/-! ## What a poll does -/

section Poll

variable {m : TimerManager κ ω}

/-- The timers of the set are ordered by their deadlines. -/
theorem WellFormed.deadlines (hm : WellFormed m) :
    m.timers.Pairwise fun p q => (m.object p).nextTime ≤ (m.object q).nextTime := by
  apply hm.ordered.imp
  intro p q hpq
  rcases below_iff.mp hpq with hlt | ⟨heq, -⟩
  · exact hlt.le
  · exact heq.le

/-- A timer is armed behind a poll if it was armed before, and was not due or is a loop. -/
theorem Entry.expire_armed (e : Entry κ ω) (now : Int) :
    (e.expire now).armed = true ↔ e.armed = true ∧ (e.due now = false ∨ e.timer.loop = true) := by
  rw [Entry.expire]
  split_ifs with hdue hloop
  · rw [Entry.due, Bool.and_eq_true] at hdue
    simp [hdue.1, hloop]
  · simp [hdue, hloop]
  · simp [hdue]

/-- A timer is in the set behind a poll if it was there before, and was not due or is a loop. -/
theorem mem_allExpiredCbs_timers (hm : WellFormed m) (now : Int) (p : Ptr) :
    p ∈ (m.allExpiredCbs now).2.timers ↔
      p ∈ m.timers ∧ (¬(m.object p).nextTime ≤ now ∨ (m.object p).loop = true) := by
  rcases allExpiredCbs_schedule hm now with ⟨hm', hschedule⟩
  rw [← armed_schedule hm', hschedule, ← armed_schedule hm]
  constructor
  · rintro ⟨e, he, harmed⟩
    rcases Option.map_eq_some_iff.mp he with ⟨⟨timer, armed⟩, he₀, rfl⟩
    rw [Entry.expire_armed] at harmed
    obtain ⟨rfl, -⟩ := of_schedule he₀
    refine ⟨⟨_, he₀, harmed.1⟩, harmed.2.imp_left fun hnot => ?_⟩
    rw [Entry.due, harmed.1, Bool.true_and] at hnot
    exact of_decide_eq_false hnot
  · rintro ⟨⟨⟨timer, armed⟩, he₀, harmed⟩, hcase⟩
    obtain ⟨rfl, -⟩ := of_schedule he₀
    refine ⟨_, congrArg (Option.map (Entry.expire · now)) he₀, ?_⟩
    rw [Entry.expire_armed]
    refine ⟨harmed, hcase.imp_left fun hnot => ?_⟩
    rw [Entry.due, harmed, Bool.true_and]
    exact decide_eq_false hnot

/-- A poll appends the callbacks of the timers that are due, each once and in the order of their
deadlines.  The timers that are not due stay as they are.  The loops that are due stay in the set
with a new deadline, and the other timers that are due are out of it without a callback. -/
theorem poll_delivers_due (hm : WellFormed m) (now : Int) :
    ∃ due : List Ptr,
      due.Nodup ∧ (∀ p, p ∈ due ↔ p ∈ m.timers ∧ (m.object p).nextTime ≤ now) ∧
      (due.Pairwise fun p q => (m.object p).nextTime ≤ (m.object q).nextTime) ∧
      (m.allExpiredCbs now).1 = due.map (fun p => (m.object p).cb) ∧
      (∀ p, p ∈ (m.allExpiredCbs now).2.timers ↔
        p ∈ m.timers ∧ (p ∉ due ∨ (m.object p).loop = true)) ∧
      (∀ p ∈ m.timers, p ∉ due → (m.allExpiredCbs now).2.object p = m.object p) ∧
      (∀ p ∈ due, (m.object p).loop = true →
        (m.allExpiredCbs now).2.object p =
            { m.object p with nextTime := timeAdd (m.object p).interval now } ∧
          (-2 ^ 63 ≤ (m.object p).interval + now → (m.object p).interval + now < 2 ^ 63 →
            ((m.allExpiredCbs now).2.object p).nextTime = now + (m.object p).interval)) ∧
      (∀ p ∈ due, (m.object p).loop = false →
        (m.allExpiredCbs now).2.object p = { m.object p with cb := none }) ∧
      (m.allExpiredCbs now).2.timers.Pairwise (below (m.allExpiredCbs now).2.object) := by
  rcases allExpiredCbs_schedule hm now with ⟨hm', hschedule⟩
  have hdue := mem_expiredTimers hm now
  -- the line of a timer of the set behind the poll
  have hline : ∀ p ∈ m.timers, (m.allExpiredCbs now).2.schedule p =
      some (Entry.expire ⟨m.object p, true⟩ now) := by
    intro p hp
    rw [hschedule]
    simp only [schedule_of_mem (hm.allocated p hp) hp, Option.map_some]
  have hkept : ∀ p ∈ m.timers, p ∉ m.expiredTimers now →
      (m.allExpiredCbs now).2.schedule p = some ⟨m.object p, true⟩ := by
    intro p hp hnot
    rw [hline p hp, Entry.expire, if_neg]
    rw [hdue] at hnot
    simpa [Entry.due, hp] using hnot
  have hexpired : ∀ p ∈ m.expiredTimers now, (m.allExpiredCbs now).2.schedule p =
      some (if (m.object p).loop then
        ⟨{ m.object p with nextTime := timeAdd (m.object p).interval now }, true⟩
        else ⟨{ m.object p with cb := none }, false⟩) := by
    intro p hp
    have hmem := (hdue p).mp hp
    rw [hline p hmem.1, Entry.expire, if_pos (by simp [Entry.due, hmem.2])]
  refine ⟨m.expiredTimers now, expiredTimers_nodup hm now, hdue,
    hm.deadlines.sublist (List.takeWhile_sublist _), allExpiredCbs_fst hm now, ?_, ?_, ?_, ?_,
    hm'.ordered⟩
  · intro p
    rw [mem_allExpiredCbs_timers hm, hdue]
    constructor
    · rintro ⟨hp, hcase⟩
      exact ⟨hp, hcase.imp_left fun hnot hmem => hnot hmem.2⟩
    · rintro ⟨hp, hcase⟩
      exact ⟨hp, hcase.imp_left fun hnot hle => hnot ⟨hp, hle⟩⟩
  · intro p hp hnot
    exact (of_schedule (hkept p hp hnot)).1
  · intro p hp hloop
    have hobject := hexpired p hp
    rw [if_pos hloop] at hobject
    refine ⟨(of_schedule hobject).1, ?_⟩
    intro hlow hhigh
    rw [(of_schedule hobject).1]
    exact (timeAdd_eq hlow hhigh).trans (Int.add_comm _ _)
  · intro p hp hloop
    have hobject := hexpired p hp
    rw [if_neg (by simp [hloop])] at hobject
    exact (of_schedule hobject).1

/-- A loop, a one-shot timer with the same deadline, and a timer that is not due. -/
theorem poll_delivers_due_three :
    ∃ m : TimerManager Nat Nat, runSteps step TimerManager.new
        [.addTimer 3 0 5 (some (.function 7)) true, .addTimer 1 0 5 (some (.function 8)) false,
          .addTimer 2 0 9 (some (.function 9)) false] = some m ∧
      (m.allExpiredCbs 6).1 = [some (.function 8), some (.function 7)] ∧
      (m.allExpiredCbs 6).2.timers = [2, 3] ∧
      (m.allExpiredCbs 6).2.timers.Pairwise (below (m.allExpiredCbs 6).2.object) := by
  refine ⟨_, rfl, by decide, by decide, ?_⟩
  refine (poll_delivers_due ?_ 6).choose_spec.2.2.2.2.2.2.2.2
  exact (run_refines new_wellFormed (rfl : runSteps step TimerManager.new
    [.addTimer 3 0 5 (some (.function 7)) true, .addTimer 1 0 5 (some (.function 8)) false,
      .addTimer 2 0 9 (some (.function 9)) false] = _)).1

end Poll

/-! ## The time that is left -/

/-- With timers in the set, the time that is left is that of the earliest deadline. -/
theorem nextTimerLeftTime_eq {m : TimerManager κ ω} (hm : WellFormed m) {deadline : Int}
    (hleast : IsLeast {d | ∃ p ∈ m.timers, (m.object p).nextTime = d} deadline) (now : Int) :
    m.nextTimerLeftTime now = leftUntil deadline now := by
  obtain ⟨⟨q, hq, rfl⟩, hlower⟩ := hleast
  have hdeadlines := hm.deadlines
  unfold nextTimerLeftTime
  cases htimers : m.timers with
  | nil =>
      rw [htimers] at hq
      exact absurd hq List.not_mem_nil
  | cons p rest =>
      rw [htimers] at hq hdeadlines
      have hle : (m.object p).nextTime ≤ (m.object q).nextTime := by
        rcases List.mem_cons.mp hq with rfl | hq
        · exact le_rfl
        · exact List.rel_of_pairwise_cons hdeadlines hq
      have hge : (m.object q).nextTime ≤ (m.object p).nextTime :=
        hlower ⟨p, by rw [htimers]; exact List.mem_cons_self, rfl⟩
      exact congrArg (leftUntil · now) (le_antisymm hle hge)

/-! ## Resets -/

/-- The deadline that a timer of the set is to have behind a reset of `p` at clock reading
`now`. -/
def deadlineAfter (m : TimerManager κ ω) (p : Ptr) (now interval : Int) (q : Ptr) : Int :=
  if q = p then timeAdd now interval else (m.object q).nextTime

/-- What is asked of `reset_timer` at clock reading `now`, for every sequence of later polls:
the first poll that delivers the timer is the first one whose clock reading has reached `now`
plus the new interval, the other timers stay as they are, and the time that is left is that of
the earliest of the new deadlines. -/
structure ResetTakesEffect (m : TimerManager κ ω) (p : Ptr) (now interval : Int) : Prop where
  delivered : ∀ times : List Int,
    (polls p (m.resetTimer p interval) times).findIdx? (fun cbs => !cbs.isEmpty) =
      times.findIdx? fun t => decide (timeAdd now interval ≤ t)
  others : ∀ q, q ≠ p → (m.resetTimer p interval).schedule q = m.schedule q
  leftTime : ∀ deadline, IsLeast {d | ∃ q ∈ m.timers, deadlineAfter m p now interval q = d}
      deadline → ∀ t, (m.resetTimer p interval).nextTimerLeftTime t = leftUntil deadline t

/-- A timer that is armed is due first at the first poll that reaches its deadline. -/
theorem dueAt_findIdx (interval deadline : Int) (loop : Bool) (times : List Int) :
    (dueAt interval loop (some deadline) times).findIdx? id =
      times.findIdx? fun t => decide (deadline ≤ t) := by
  induction times with
  | nil => rfl
  | cons now times ih =>
      rw [dueAt]
      by_cases hdue : deadline ≤ now
      · simp [hdue, List.findIdx?_cons]
      · simp [hdue, List.findIdx?_cons, ih]

section Reset

variable {m : TimerManager κ ω} {p : Ptr}

/-- The line of a timer of the set behind a reset: it has the deadline it had. -/
theorem resetTimer_line (hm : WellFormed m) (hp : p ∈ m.timers) (interval : Int) :
    (m.resetTimer p interval).schedule p =
      some ⟨{ m.object p with interval := interval }, true⟩ := by
  have halloc := hm.allocated p hp
  rw [(resetTimer_acts hm halloc interval).schedule, Function.update_self,
    schedule_of_mem halloc hp, Option.map_some, Entry.reset]
  split_ifs with hsame
  · rw [← hsame]
  · rfl

/-- The first delivery behind a reset is at the old deadline. -/
theorem polls_resetTimer_findIdx (hm : WellFormed m) (hp : p ∈ m.timers) (interval : Int)
    (times : List Int) :
    (polls p (m.resetTimer p interval) times).findIdx? (fun cbs => !cbs.isEmpty) =
      times.findIdx? fun t => decide ((m.object p).nextTime ≤ t) := by
  have hwf := (resetTimer_acts hm (hm.allocated p hp) interval).wellFormed
  rw [polls_eq_dueAt hwf (resetTimer_line hm hp interval) (fun _ => rfl), List.findIdx?_map]
  have hcomp : (fun cbs : List (Option (Callback κ ω)) => !cbs.isEmpty) ∘
      (fun due => if due then [(m.object p).cb] else []) = id := by
    ext1 due
    cases due <;> rfl
  simp only [if_true]
  exact (congrArg (List.findIdx? · _) hcomp).trans (dueAt_findIdx _ _ _ _)

/-- A reset of a timer of the set keeps the set and all deadlines. -/
theorem resetTimer_deadlines (hm : WellFormed m) (hp : p ∈ m.timers) (interval : Int) (q : Ptr) :
    (q ∈ (m.resetTimer p interval).timers ↔ q ∈ m.timers) ∧
      (q ∈ m.timers → ((m.resetTimer p interval).object q).nextTime = (m.object q).nextTime) := by
  have hacts := resetTimer_acts hm (hm.allocated p hp) interval
  by_cases hq : q = p
  · subst hq
    obtain ⟨hobject, hmem⟩ := of_schedule (resetTimer_line hm hp interval)
    exact ⟨iff_of_true (of_decide_eq_true hmem) hp, fun _ => by rw [hobject]⟩
  · have hsame : (m.resetTimer p interval).schedule q = m.schedule q := by
      rw [hacts.schedule, Function.update_of_ne hq]
    constructor
    · rw [← armed_schedule hacts.wellFormed, ← armed_schedule hm, Schedule.Armed, hsame]
      rfl
    · intro hmem
      rw [schedule_of_mem (hm.allocated q hmem) hmem] at hsame
      rw [(of_schedule hsame).1]

/-- A reset takes effect when the deadline already was the new one. -/
theorem resetTakesEffect_iff_deadline (hm : WellFormed m) (hp : p ∈ m.timers)
    (now interval : Int) :
    ResetTakesEffect m p now interval ↔ (m.object p).nextTime = timeAdd now interval := by
  have hacts := resetTimer_acts hm (hm.allocated p hp) interval
  constructor
  · intro h
    have hdelivered := h.delivered
    simp only [polls_resetTimer_findIdx hm hp] at hdelivered
    -- a poll at the earlier of the two deadlines tells them apart
    rcases lt_trichotomy (m.object p).nextTime (timeAdd now interval) with hlt | heq | hgt
    · have hfirst := hdelivered [(m.object p).nextTime]
      simp [List.findIdx?_cons, hlt] at hfirst
    · exact heq
    · have hfirst := hdelivered [timeAdd now interval]
      simp [List.findIdx?_cons, hgt] at hfirst
  · intro heq
    refine ⟨?_, ?_, ?_⟩
    · intro times
      rw [polls_resetTimer_findIdx hm hp, heq]
    · intro q hq
      rw [hacts.schedule, Function.update_of_ne hq]
    · intro deadline hleast t
      apply nextTimerLeftTime_eq hacts.wellFormed
      have hafter : ∀ q, deadlineAfter m p now interval q = (m.object q).nextTime := by
        intro q
        rw [deadlineAfter]
        split_ifs with hq
        · rw [hq, heq]
        · rfl
      have hset : {d | ∃ q ∈ (m.resetTimer p interval).timers,
          ((m.resetTimer p interval).object q).nextTime = d} =
          {d | ∃ q ∈ m.timers, deadlineAfter m p now interval q = d} := by
        ext d
        constructor
        · rintro ⟨q, hq, rfl⟩
          obtain ⟨hmem, hdeadline⟩ := resetTimer_deadlines hm hp interval q
          exact ⟨q, hmem.mp hq, by rw [hafter, hdeadline (hmem.mp hq)]⟩
        · rintro ⟨q, hq, rfl⟩
          obtain ⟨hmem, hdeadline⟩ := resetTimer_deadlines hm hp interval q
          exact ⟨q, hmem.mpr hq, by rw [hafter, hdeadline hq]⟩
      rw [hset]
      exact hleast

end Reset

/-- In every state that operations reach from a new manager, for every timer of the set, every
clock reading and every new interval, a reset takes effect exactly if the deadline of the timer
was the clock reading plus the new interval already. -/
theorem resetTakesEffect_iff (cmds : List (Cmd κ ω)) (m : TimerManager κ ω)
    (hrun : runSteps step TimerManager.new cmds = some m) (p : Ptr) (hp : p ∈ m.timers)
    (now interval : Int) :
    ResetTakesEffect m p now interval ↔ (m.object p).nextTime = timeAdd now interval :=
  resetTakesEffect_iff_deadline (run_refines new_wellFormed hrun).1 hp now interval

/-- A timer that is due at 5 and gets the interval 3 at clock reading 2. -/
theorem resetTakesEffect_iff_same :
    ∃ m : TimerManager Nat Nat, runSteps step TimerManager.new
        [.addTimer 1 0 5 (some (.function 7)) false] = some m ∧ ResetTakesEffect m 1 2 3 :=
  ⟨_, rfl, (resetTakesEffect_iff [.addTimer 1 0 5 (some (.function 7)) false] _ rfl 1 (by decide)
    2 3).mpr (by decide)⟩

/-- A timer that is due at 5 and gets the interval 10 at clock reading 2 is delivered at 5, seven
before its time, and `next_timer_left_time` counts down to 5. -/
theorem resetTakesEffect_fails :
    ∃ m : TimerManager Nat Nat, runSteps step TimerManager.new
        [.addTimer 1 0 5 (some (.function 7)) false] = some m ∧ 1 ∈ m.timers ∧
      polls 1 (m.resetTimer 1 10) [5, 12] = [[some (.function 7)], []] ∧
      (m.resetTimer 1 10).nextTimerLeftTime 2 = 3 ∧ ¬ResetTakesEffect m 1 2 10 := by
  refine ⟨_, rfl, by decide, by decide, by decide, ?_⟩
  intro h
  exact absurd (h.delivered [5, 12]) (by decide)

end Timers
end Tiger
