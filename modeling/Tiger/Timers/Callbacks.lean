import Tiger.Timers.Schedule

/-!
# Callbacks of timers

Cancelling a timer and the expiry of a one-shot timer empty the callback of an object the
caller still holds.  `reset_timer` puts such an object back into the set, so a run delivers
callable functions only as long as no timer is reset behind its end.  `add_cond_timer` drops
its loop flag, so its timer differs from that of `add_timer` from the second deadline on.

Main results:

- Theorem `callbacks_callable_iff`: every state of a run only holds callable timers, and never
  delivers a cancelled one again, exactly if only armed timers are reset.
- Theorem `polls_eq_dueAt`: the polls that deliver a timer.
- Theorem `condTimer_behaves_iff`: when a conditional timer is delivered like a guarded one.
-/

namespace Tiger
namespace Timers

open Lib TimerManager

variable {κ ω : Type} {cb : Option (Callback κ ω)}

/-! ## Entries of the table -/

namespace Cmd

/-- The object an operation makes, with its address. -/
def added : Cmd κ ω → Option (Ptr × Timer κ ω)
  | addTimer p now interval cb loop => some (p, ⟨interval, loop, timeAdd now interval, cb⟩)
  | addCondTimer p now interval cb cond _ =>
      some (p, ⟨interval, false, timeAdd now interval, some (.condTimer cond cb)⟩)
  | _ => none

end Cmd

/-- What holds of new entries and is kept by what operations do to entries holds of all. -/
theorem Schedule.step_forall {Q : Entry κ ω → Prop} {s : Schedule κ ω} {c : Cmd κ ω}
    (hs : ∀ p e, s p = some e → Q e) (hadd : ∀ p t, c.added = some (p, t) → Q ⟨t, true⟩)
    (hreset : ∀ p interval e, c = .resetTimer p interval → s p = some e → Q (e.reset interval))
    (hcancel : ∀ e, Q e → Q e.cancel) (hexpire : ∀ e now, Q e → Q (e.expire now)) :
    ∀ p e, s.step c p = some e → Q e := by
  have hupdate : ∀ q v, (∀ e, v = some e → Q e) →
      ∀ p e, Function.update s q v p = some e → Q e := by
    intro q v hv p e he
    by_cases hpq : p = q
    · rw [hpq, Function.update_self] at he
      exact hv e he
    · rw [Function.update_of_ne hpq] at he
      exact hs p e he
  cases c with
  | addTimer q now interval cb loop =>
      exact hupdate q _ fun e he => Option.some.inj he ▸ hadd q _ rfl
  | addCondTimer q now interval cb cond loop =>
      exact hupdate q _ fun e he => Option.some.inj he ▸ hadd q _ rfl
  | resetTimer q interval =>
      apply hupdate q
      intro e he
      rcases Option.map_eq_some_iff.mp he with ⟨e₀, he₀, rfl⟩
      exact hreset q interval e₀ rfl he₀
  | cancelTimer timer =>
      cases timer with
      | none => exact hs
      | some q =>
          apply hupdate q
          intro e he
          rcases Option.map_eq_some_iff.mp he with ⟨e₀, he₀, rfl⟩
          exact hcancel e₀ (hs q e₀ he₀)
  | cancelAllTimer =>
      intro p e he
      rcases Option.map_eq_some_iff.mp he with ⟨e₀, he₀, rfl⟩
      exact hcancel e₀ (hs p e₀ he₀)
  | allExpiredCbs now =>
      intro p e he
      rcases Option.map_eq_some_iff.mp he with ⟨e₀, he₀, rfl⟩
      exact hexpire e₀ now (hs p e₀ he₀)

namespace Entry

/-- A timer that is not armed has no callback. -/
def Emptied (e : Entry κ ω) : Prop := e.armed = false → e.timer.cb = none

/-- A timer that is armed has a callback. -/
def Callable (e : Entry κ ω) : Prop := e.armed = true → e.timer.cb.isSome = true

variable {e : Entry κ ω}

/-- A reset of an emptied timer leaves it emptied. -/
theorem Emptied.reset (h : e.Emptied) (interval : Int) : (e.reset interval).Emptied := by
  rw [Entry.reset]
  split_ifs
  · exact h
  · exact fun harmed => absurd harmed (by simp)

/-- A cancel of an emptied timer leaves it emptied. -/
theorem Emptied.cancel (h : e.Emptied) : e.cancel.Emptied := by
  rw [Entry.cancel]
  split_ifs
  · exact fun _ => rfl
  · exact h

/-- An expiry of an emptied timer leaves it emptied. -/
theorem Emptied.expire (h : e.Emptied) (now : Int) : (e.expire now).Emptied := by
  rw [Entry.expire]
  split_ifs
  · exact fun harmed => absurd harmed (by simp)
  · exact fun _ => rfl
  · exact h

/-- Only a timer that is armed may get a new interval. -/
theorem Callable.reset (h : e.Callable) {interval : Int}
    (hok : e.timer.interval = interval ∨ e.armed = true) : (e.reset interval).Callable := by
  rw [Entry.reset]
  split_ifs with hsame
  · exact h
  · exact fun _ => h (hok.resolve_left hsame)

/-- A cancel of a callable timer leaves it callable. -/
theorem Callable.cancel (h : e.Callable) : e.cancel.Callable := by
  rw [Entry.cancel]
  split_ifs
  · exact fun harmed => absurd harmed (by simp)
  · exact h

/-- An expiry of a callable timer leaves it callable. -/
theorem Callable.expire (h : e.Callable) (now : Int) : (e.expire now).Callable := by
  rw [Entry.expire]
  split_ifs with hdue
  · rw [due, Bool.and_eq_true] at hdue
    exact fun _ => h hdue.1
  · exact fun harmed => absurd harmed (by simp)
  · exact h

end Entry

/-! ## Runs that reset armed timers only -/

namespace Cmd

/-- The caller hands in a function. -/
def hasCallback : Cmd κ ω → Bool
  | addTimer _ _ _ cb _ => cb.isSome
  | addCondTimer _ _ _ cb _ _ => cb.isSome
  | _ => true

/-- A new interval is only given to a timer that is in the set. -/
def resetsArmed (m : TimerManager κ ω) : Cmd κ ω → Bool
  | resetTimer p interval => decide ((m.object p).interval = interval) || decide (p ∈ m.timers)
  | _ => true

/-- The operation cancels the timer. -/
def cancels (p : Ptr) : Cmd κ ω → Bool
  | cancelTimer (some q) => decide (p = q)
  | cancelAllTimer => true
  | _ => false

end Cmd

section Runs

variable {m m' : TimerManager κ ω} {c : Cmd κ ω} {p : Ptr}

/-- A step that is taken was allowed. -/
theorem allowed_of_step (hstep : step m c = some m') : c.allowed m = true := by
  rw [step] at hstep
  split_ifs at hstep with h
  exact h

/-- A timer that is added with a callback has it. -/
theorem added_cb (hc : c.hasCallback = true) {t : Timer κ ω} (hadd : c.added = some (p, t)) :
    t.cb.isSome = true := by
  cases c with
  | addTimer q now interval cb loop =>
      rcases Prod.mk.inj (Option.some.inj hadd) with ⟨-, rfl⟩
      exact hc
  | addCondTimer q now interval cb cond loop =>
      rcases Prod.mk.inj (Option.some.inj hadd) with ⟨-, rfl⟩
      rfl
  | resetTimer | cancelTimer | cancelAllTimer | allExpiredCbs =>
      exact absurd hadd (by simp [Cmd.added])

/-- A timer that is in the set nowhere has no callback, along every run. -/
def AllEmptied (m : TimerManager κ ω) : Prop :=
  WellFormed m ∧ ∀ p e, m.schedule p = some e → e.Emptied

/-- The timers of the set have callbacks. -/
def AllCallable (m : TimerManager κ ω) : Prop :=
  WellFormed m ∧ ∀ p e, m.schedule p = some e → e.Callable

/-- Every step keeps all timers emptied. -/
theorem step_allEmptied (hm : AllEmptied m) (hstep : step m c = some m') : AllEmptied m' := by
  rcases step_refines hm.1 hstep with ⟨hm', hschedule⟩
  refine ⟨hm', ?_⟩
  rw [hschedule]
  apply Schedule.step_forall hm.2
  · exact fun _ _ _ harmed => absurd harmed (by simp)
  · exact fun p interval e _ he => (hm.2 p e he).reset interval
  · exact fun _ => Entry.Emptied.cancel
  · exact fun _ now h => h.expire now

/-- A step that adds a callback and resets only armed timers keeps all timers callable. -/
theorem step_allCallable (hm : AllCallable m) (hc : c.hasCallback = true)
    (hreset : c.resetsArmed m = true) (hstep : step m c = some m') : AllCallable m' := by
  rcases step_refines hm.1 hstep with ⟨hm', hschedule⟩
  refine ⟨hm', ?_⟩
  rw [hschedule]
  apply Schedule.step_forall hm.2
  · exact fun p t hadd _ => added_cb hc hadd
  · rintro p interval ⟨t, armed⟩ rfl he
    rcases of_schedule he with ⟨rfl, rfl⟩
    apply (hm.2 p _ he).reset
    simpa [Cmd.resetsArmed] using hreset
  · exact fun _ => Entry.Callable.cancel
  · exact fun _ now h => h.expire now

/-- The callbacks that a poll appends are those of timers of the set. -/
theorem AllCallable.delivers (hm : AllCallable m) :
    (∀ p ∈ m.timers, (m.object p).cb.isSome = true) ∧
      ∀ now, ∀ f ∈ (m.allExpiredCbs now).1, f.isSome = true := by
  have htimers : ∀ p ∈ m.timers, (m.object p).cb.isSome = true := by
    intro p hp
    exact hm.2 p _ (schedule_of_mem (hm.1.allocated p hp) hp) rfl
  refine ⟨htimers, ?_⟩
  intro now f hf
  rw [allExpiredCbs_fst hm.1] at hf
  rcases List.mem_map.mp hf with ⟨p, hp, rfl⟩
  exact htimers p ((mem_expiredTimers hm.1 now p).mp hp).1

/-- A new interval for a timer outside of the set puts it back without a callback. -/
theorem not_callable_of_reset (hm : AllEmptied m) (hreset : c.resetsArmed m = false)
    (hstep : step m c = some m') : ∃ p ∈ m'.timers, (m'.object p).cb = none := by
  cases c with
  | resetTimer p interval =>
      rw [Cmd.resetsArmed, Bool.or_eq_false_iff, decide_eq_false_iff_not,
        decide_eq_false_iff_not] at hreset
      have hp := allowed_of_step hstep
      have hline := schedule_of_not_mem hp hreset.2
      have hcb : (m.object p).cb = none := hm.2 p _ hline rfl
      have hnew := (step_refines hm.1 hstep).2
      have hat : m'.schedule p = some ⟨{ m.object p with interval := interval }, true⟩ := by
        rw [hnew, Schedule.step, Function.update_self, hline, Option.map_some, Entry.reset,
          if_neg hreset.1]
      rcases of_schedule hat with ⟨hobject, hmem⟩
      exact ⟨p, of_decide_eq_true hmem, by rw [hobject]; exact hcb⟩
  | addTimer | addCondTimer | cancelTimer | cancelAllTimer | allExpiredCbs =>
      exact absurd hreset (by simp [Cmd.resetsArmed])

/-- The timer exists and is not in the set. -/
def Stopped (p : Ptr) (m : TimerManager κ ω) : Prop :=
  WellFormed m ∧ ∃ t, m.schedule p = some ⟨t, false⟩

/-- A stopped timer is not among the expired ones. -/
theorem Stopped.not_delivered (h : Stopped p m) (now : Int) : p ∉ m.expiredTimers now := by
  rcases h with ⟨hm, t, ht⟩
  intro hp
  exact of_decide_eq_false (of_schedule ht).2 ((mem_expiredTimers hm now p).mp hp).1

/-- A cancelled timer is out of the set. -/
theorem stopped_of_cancels (hm : WellFormed m) (hp : m.allocated p = true)
    (hc : c.cancels p = true) (hstep : step m c = some m') : Stopped p m' := by
  rcases step_refines hm hstep with ⟨hm', hschedule⟩
  refine ⟨hm', ?_⟩
  have hline : m.schedule p = some ⟨m.object p, decide (p ∈ m.timers)⟩ := if_pos hp
  have hcancel : ∃ t, (m.schedule p).map Entry.cancel = some ⟨t, false⟩ := by
    rw [hline, Option.map_some, Entry.cancel]
    by_cases hmem : p ∈ m.timers
    · exact ⟨{ m.object p with cb := none }, by simp [hmem]⟩
    · exact ⟨m.object p, by simp [hmem]⟩
  rw [hschedule]
  cases c with
  | cancelTimer timer =>
      cases timer with
      | none => exact absurd hc (by simp [Cmd.cancels])
      | some q =>
          obtain rfl : p = q := of_decide_eq_true hc
          rw [Schedule.step, Function.update_self]
          exact hcancel
  | cancelAllTimer => exact hcancel
  | addTimer | addCondTimer | resetTimer | allExpiredCbs => exact absurd hc (by simp [Cmd.cancels])

/-- A timer outside of the set stays outside as long as it gets no new interval. -/
theorem step_stopped (h : Stopped p m) (hreset : c.resetsArmed m = true)
    (hstep : step m c = some m') : Stopped p m' := by
  rcases h with ⟨hm, t, ht⟩
  rcases step_refines hm hstep with ⟨hm', hschedule⟩
  refine ⟨hm', ?_⟩
  have hnot : p ∉ m.timers := of_decide_eq_false (of_schedule ht).2
  have hfree : ∀ q, m.allocated q = false → p ≠ q := by
    rintro q hq rfl
    rw [schedule, hq] at ht
    exact absurd ht (by simp)
  rw [hschedule]
  have hallowed := allowed_of_step hstep
  cases c with
  | addTimer q now interval cb loop =>
      have hne := hfree q (by simpa [Cmd.allowed] using hallowed)
      exact ⟨t, by rw [Schedule.step, Function.update_of_ne hne, ht]⟩
  | addCondTimer q now interval cb cond loop =>
      have hne := hfree q (by simpa [Cmd.allowed] using hallowed)
      exact ⟨t, by rw [Schedule.step, Function.update_of_ne hne, ht]⟩
  | resetTimer q interval =>
      by_cases hpq : p = q
      · subst hpq
        have hsame : (m.object p).interval = interval := by
          simpa [Cmd.resetsArmed, hnot] using hreset
        rw [(of_schedule ht).1] at hsame
        exact ⟨t, by rw [Schedule.step, Function.update_self, ht, Option.map_some, Entry.reset,
          if_pos hsame]⟩
      · exact ⟨t, by rw [Schedule.step, Function.update_of_ne hpq, ht]⟩
  | cancelTimer timer =>
      cases timer with
      | none => exact ⟨t, ht⟩
      | some q =>
          by_cases hpq : p = q
          · subst hpq
            exact ⟨t, by rw [Schedule.step, Function.update_self, ht]; rfl⟩
          · exact ⟨t, by rw [Schedule.step, Function.update_of_ne hpq, ht]⟩
  | cancelAllTimer => exact ⟨t, congrArg (Option.map Entry.cancel) ht⟩
  | allExpiredCbs now => exact ⟨t, congrArg (Option.map (Entry.expire · now)) ht⟩

theorem new_allCallable : AllCallable (TimerManager.new : TimerManager κ ω) :=
  ⟨new_wellFormed, fun _ _ he => absurd he (by simp [schedule, TimerManager.new])⟩

theorem new_allEmptied : AllEmptied (TimerManager.new : TimerManager κ ω) :=
  ⟨new_wellFormed, fun _ _ he => absurd he (by simp [schedule, TimerManager.new])⟩

/-- A run that hands in functions and only resets armed timers keeps every timer callable. -/
theorem run_allCallable {cmds : List (Cmd κ ω)} (hadds : cmds.all Cmd.hasCallback = true)
    (hmeet : allMeet step (fun m c => c.resetsArmed m) TimerManager.new cmds = true)
    (hrun : runSteps step TimerManager.new cmds = some m) : AllCallable m := by
  have hboth :
      allMeet step (fun m c => c.hasCallback && c.resetsArmed m) TimerManager.new cmds = true := by
    rw [allMeet_iff] at hmeet ⊢
    intro pre c post m₁ heq hpre
    have hc := List.all_eq_true.mp hadds c (by simp [heq])
    simp only [hc, hmeet pre c post m₁ heq hpre, Bool.and_self]
  refine invariant_of_allMeet ?_ hboth hrun new_allCallable
  intro m₀ c m₁ hm₀ hc hstep
  rw [Bool.and_eq_true] at hc
  exact step_allCallable hm₀ hc.1 hc.2 hstep

/-- What is asked of a state behind the operations `pre`: its timers have callbacks, a poll
delivers callable functions, and no timer that was cancelled on the way. -/
structure Delivers (pre : List (Cmd κ ω)) (m : TimerManager κ ω) : Prop where
  timers : ∀ p ∈ m.timers, (m.object p).cb.isSome = true
  callable : ∀ now, ∀ f ∈ (m.allExpiredCbs now).1, f.isSome = true
  neverAgain : ∀ before c after m₀ p, pre = before ++ c :: after →
    runSteps step TimerManager.new before = some m₀ → m₀.allocated p = true →
    c.cancels p = true → ∀ now, p ∉ m.expiredTimers now

/-- In a run whose timers are added with functions, every state on the way holds and delivers
callable timers only, and never a cancelled one, exactly if every new interval is given to a
timer that is armed. -/
theorem callbacks_callable_iff (cmds : List (Cmd κ ω)) (m : TimerManager κ ω)
    (hadds : cmds.all Cmd.hasCallback = true)
    (hrun : runSteps step TimerManager.new cmds = some m) :
    (∀ pre post m₁, cmds = pre ++ post → runSteps step TimerManager.new pre = some m₁ →
      Delivers pre m₁) ↔
    allMeet step (fun m c => c.resetsArmed m) TimerManager.new cmds = true := by
  constructor
  · intro h
    rw [allMeet_iff]
    intro pre c post m₁ heq hpre
    by_contra hreset
    rw [Bool.not_eq_true] at hreset
    have hemptied : AllEmptied m₁ :=
      invariant_of_runSteps (fun _ _ _ h₀ hstep => step_allEmptied h₀ hstep) hpre new_allEmptied
    have hall := hrun
    rw [heq, runSteps_append_cons hpre] at hall
    rcases Option.bind_eq_some_iff.mp hall with ⟨m₂, hstep, -⟩
    rcases not_callable_of_reset hemptied hreset hstep with ⟨p, hp, hnone⟩
    have hcall := (h (pre ++ [c]) post m₂ (by simp [heq])
      (by rw [runSteps_append_cons hpre, hstep]; rfl)).timers p hp
    rw [hnone] at hcall
    exact absurd hcall (by simp)
  · intro hmeet pre post m₁ heq hpre
    rw [allMeet_iff] at hmeet
    have hmeetPre : allMeet step (fun m c => c.resetsArmed m) TimerManager.new pre = true := by
      rw [allMeet_iff]
      intro before c after m₀ hsplit hbefore
      exact hmeet before c (after ++ post) m₀ (by simp [heq, hsplit]) hbefore
    have haddsPre : pre.all Cmd.hasCallback = true := by
      rw [heq, List.all_append, Bool.and_eq_true] at hadds
      exact hadds.1
    have hcallable := run_allCallable haddsPre hmeetPre hpre
    refine ⟨hcallable.delivers.1, hcallable.delivers.2, ?_⟩
    intro before c after m₀ p hsplit hbefore hp hc now
    have hm₀ : WellFormed m₀ := (run_refines new_wellFormed hbefore).1
    have hall := hpre
    rw [hsplit, runSteps_append_cons hbefore] at hall
    rcases Option.bind_eq_some_iff.mp hall with ⟨m₂, hstep, hafter⟩
    have hmeetAfter : allMeet step (fun m c => c.resetsArmed m) m₂ after = true := by
      rw [allMeet_iff]
      intro xs d ys m₃ hxs hrunXs
      apply hmeet (before ++ c :: xs) d (ys ++ post) m₃ (by simp [heq, hsplit, hxs])
      rw [runSteps_append_cons hbefore, hstep]
      exact hrunXs
    have hstopped : Stopped p m₁ :=
      invariant_of_allMeet (fun _ _ _ h₀ hd hs => step_stopped h₀ hd hs) hmeetAfter hafter
        (stopped_of_cancels hm₀ hp hc hstep)
    exact hstopped.not_delivered now

/-- A timer that is cancelled and then gets a new interval is delivered without a function. -/
theorem callbacks_callable_fails :
    ∃ m : TimerManager Nat Nat, runSteps step TimerManager.new
        [.addTimer 1 0 5 (some (.function 7)) false, .cancelTimer (some 1), .resetTimer 1 6] =
        some m ∧
      m.timers = [1] ∧ (m.object 1).cb = none ∧ (m.allExpiredCbs 9).1 = [none] :=
  ⟨_, rfl, by decide, by decide, by decide⟩

/-- A timer that gets a new interval while it is armed and is cancelled afterwards. -/
theorem callbacks_callable_iff_run :
    ∃ m : TimerManager Nat Nat, runSteps step TimerManager.new
        [.addTimer 1 0 5 (some (.function 7)) false, .resetTimer 1 6, .cancelTimer (some 1)] =
        some m ∧ Delivers
        [.addTimer 1 0 5 (some (.function 7)) false, .resetTimer 1 6, .cancelTimer (some 1)] m :=
  ⟨_, rfl, (callbacks_callable_iff (κ := Nat) (ω := Nat)
    [.addTimer 1 0 5 (some (.function 7)) false, .resetTimer 1 6,
      .cancelTimer (some 1)] _ (by decide)
    rfl).mpr (by decide) _ [] _ (by simp) rfl⟩

end Runs

/-! ## Conditional timers -/

/-- What a function calls when it runs, `alive` saying which condition objects still exist. -/
def Callback.calls (alive : ω → Bool) : Callback κ ω → List (Option κ)
  | .function f => [some f]
  | .condTimer cond cb => if alive cond then [cb] else []

/-- What a poll delivers for one timer. -/
def deliveredFor (m : TimerManager κ ω) (p : Ptr) (now : Int) : List (Option (Callback κ ω)) :=
  ((m.expiredTimers now).filter (· = p)).map fun q => (m.object q).cb

/-- What a sequence of polls delivers for one timer. -/
def polls (p : Ptr) : TimerManager κ ω → List Int → List (List (Option (Callback κ ω)))
  | _, [] => []
  | m, now :: times => deliveredFor m p now :: polls p (m.allExpiredCbs now).2 times

/-- The polls at which a timer is due: with its deadline, or `none` if it is not armed. -/
def dueAt (interval : Int) (loop : Bool) : Option Int → List Int → List Bool
  | none, times => times.map fun _ => false
  | some _, [] => []
  | some deadline, now :: times =>
      if deadline ≤ now then
        true :: dueAt interval loop (if loop then some (timeAdd interval now) else none) times
      else false :: dueAt interval loop (some deadline) times

/-- Behind the first poll at which the timer is due comes one at which a loop is due again. -/
def dueAgain (interval deadline : Int) (times : List Int) : Bool :=
  match times.dropWhile fun now => decide (now < deadline) with
  | [] => false
  | now :: later => later.any fun t => decide (timeAdd interval now ≤ t)

/-- A timer is in the result of a poll once if it is due and not at all if not. -/
theorem deliveredFor_eq {m : TimerManager κ ω} {p : Ptr} (hm : WellFormed m) {t : Timer κ ω}
    {armed : Bool} (hline : m.schedule p = some ⟨t, armed⟩) (now : Int) :
    deliveredFor m p now = if armed = true ∧ t.nextTime ≤ now then [t.cb] else [] := by
  rcases of_schedule hline with ⟨hobject, harmed⟩
  have hmem : p ∈ m.expiredTimers now ↔ armed = true ∧ t.nextTime ≤ now := by
    rw [mem_expiredTimers hm, hobject, ← harmed, decide_eq_true_iff]
  have hcount := (expiredTimers_nodup hm now).count (a := p)
  rw [deliveredFor, List.filter_eq, hcount]
  split_ifs with h₁ h₂ h₂
  · rw [List.replicate_one, List.map_singleton, hobject]
  · exact absurd (hmem.mp h₁) h₂
  · exact absurd (hmem.mpr h₂) h₁
  · rfl

/-- A timer is delivered at the polls at which it is due. -/
theorem polls_eq_dueAt {p : Ptr} {m : TimerManager κ ω} (hm : WellFormed m) {t : Timer κ ω}
    {armed : Bool} (hline : m.schedule p = some ⟨t, armed⟩) (hcb : armed = true → t.cb = cb)
    (times : List Int) :
    polls p m times =
      (dueAt t.interval t.loop (if armed then some t.nextTime else none) times).map
        fun due => if due then [cb] else [] := by
  induction times generalizing m t armed with
  | nil =>
      cases armed <;> rfl
  | cons now times ih =>
      rcases allExpiredCbs_schedule hm now with ⟨hm', hschedule⟩
      have hline' : (m.allExpiredCbs now).2.schedule p = some (Entry.expire ⟨t, armed⟩ now) := by
        rw [hschedule]
        exact congrArg (Option.map (Entry.expire · now)) hline
      rw [polls, deliveredFor_eq hm hline]
      by_cases hdue : armed = true ∧ t.nextTime ≤ now
      · rcases hdue with ⟨rfl, hdue⟩
        have hexpire : Entry.due (⟨t, true⟩ : Entry κ ω) now = true := by simp [Entry.due, hdue]
        rw [Entry.expire, if_pos hexpire] at hline'
        cases hloop : t.loop with
        | true =>
            simp only [hloop, if_true] at hline'
            rw [ih hm' hline' (fun _ => hcb rfl)]
            simp [dueAt, hdue, hcb rfl]
        | false =>
            simp only [hloop, Bool.false_eq_true, if_false] at hline'
            rw [ih hm' hline' (fun h => absurd h (by simp))]
            simp [dueAt, hdue, hcb rfl]
      · have hexpire : Entry.due (⟨t, armed⟩ : Entry κ ω) now = false := by
          simpa [Entry.due] using hdue
        rw [Entry.expire, hexpire, if_neg (by simp)] at hline'
        rw [ih hm' hline' hcb, if_neg hdue]
        cases armed with
        | false => simp [dueAt]
        | true =>
            have hlate : ¬t.nextTime ≤ now := fun h => hdue ⟨rfl, h⟩
            simp [dueAt, hlate]

/-- An armed timer is never due exactly if no poll reaches its deadline. -/
theorem dueAt_eq_never {interval deadline : Int} {loop : Bool} {times : List Int} :
    times.map (fun _ => false) = dueAt interval loop (some deadline) times ↔
      (times.any fun t => decide (deadline ≤ t)) = false := by
  induction times with
  | nil => simp [dueAt]
  | cons now times ih =>
      rw [dueAt, List.any_cons, List.map_cons]
      by_cases hdue : deadline ≤ now
      · simp [hdue]
      · rw [if_neg hdue, List.cons.injEq, ih]
        simp [hdue]

/-- A one-shot timer and a loop are due at the same polls unless the loop is due again. -/
theorem dueAt_oneShot_eq_loop {interval deadline : Int} {times : List Int} :
    dueAt interval false (some deadline) times = dueAt interval true (some deadline) times ↔
      dueAgain interval deadline times = false := by
  induction times with
  | nil => simp [dueAt, dueAgain]
  | cons now times ih =>
      by_cases hdue : deadline ≤ now
      · rw [dueAt, dueAt, if_pos hdue, if_pos hdue, List.cons.injEq]
        simp only [Bool.false_eq_true, if_false, if_true, true_and]
        rw [dueAt, dueAt_eq_never]
        simp [dueAgain, hdue]
      · rw [dueAt, dueAt, if_neg hdue, if_neg hdue, List.cons.injEq, ih]
        simp [dueAgain, not_le.mp hdue]

/-- What the functions of some polls call; `alive` may change from poll to poll. -/
def callsOf (alive : Nat → ω → Bool) (rounds : List (List (Option (Callback κ ω)))) :
    List (List (Option κ)) :=
  rounds.mapIdx fun i fs => fs.flatMap fun f => f.elim [] (Callback.calls (alive i))

/-- What is asked of a conditional timer that is made at clock reading `now`: the polls deliver
it like a timer made by `add_timer` with the guarded function and the same flag, at each poll
at which a timer with that flag is due, and at each of these the function is called if and
only if the condition object is alive. -/
structure CondTimerBehaves (m : TimerManager κ ω) (p : Ptr) (now interval : Int) (cb : Option κ)
    (cond : ω) (loop : Bool) (times : List Int) : Prop where
  same : polls p (m.addCondTimer p now interval cb cond loop) times =
    polls p (m.addTimer p now interval (some (.condTimer cond cb)) loop) times
  due : (polls p (m.addCondTimer p now interval cb cond loop) times).map List.length =
    (dueAt interval loop (some (timeAdd now interval)) times).map Bool.toNat
  calls : ∀ alive, callsOf alive (polls p (m.addCondTimer p now interval cb cond loop) times) =
    (dueAt interval loop (some (timeAdd now interval)) times).mapIdx
      fun i due => if due && alive i cond then [cb] else []

/-- The polls of a timer that was just added. -/
theorem polls_addTimer {m : TimerManager κ ω} {p : Ptr} (hm : WellFormed m)
    (hp : m.allocated p = false) (now interval : Int) (cb : Option (Callback κ ω)) (loop : Bool)
    (times : List Int) :
    polls p (m.addTimer p now interval cb loop) times =
      (dueAt interval loop (some (timeAdd now interval)) times).map
        fun due => if due then [cb] else [] := by
  have hacts := addTimer_acts hm hp now interval cb loop
  have hline : (m.addTimer p now interval cb loop).schedule p =
      some ⟨⟨interval, loop, timeAdd now interval, cb⟩, true⟩ := by
    rw [hacts.schedule, Function.update_self]
  exact polls_eq_dueAt hacts.wellFormed hline (fun _ => rfl) times

/-- Two timers with one callback are delivered alike if they are due at the same polls. -/
theorem delivered_inj {due due' : List Bool} (f : Option (Callback κ ω)) :
    due.map (fun due => if due then [f] else []) = due'.map (fun due => if due then [f] else []) ↔
      due = due' := by
  have hinj : Function.Injective fun due : Bool => if due then [f] else [] := by
    intro b b' h
    cases b <;> cases b' <;> simp_all
  exact (List.map_injective_iff.mpr hinj).eq_iff

/-- A timer of `add_cond_timer` behaves like a guarded timer of `add_timer` exactly if it is no
loop, or no poll comes at which a loop is due a second time. -/
theorem condTimer_behaves_iff (cmds : List (Cmd κ ω)) (m : TimerManager κ ω)
    (hrun : runSteps step TimerManager.new cmds = some m) (p : Ptr) (hp : m.allocated p = false)
    (now interval : Int) (cb : Option κ) (cond : ω) (loop : Bool) (times : List Int) :
    CondTimerBehaves m p now interval cb cond loop times ↔
      loop = false ∨ dueAgain interval (timeAdd now interval) times = false := by
  have hm := (run_refines new_wellFormed hrun).1
  have hcond : polls p (m.addCondTimer p now interval cb cond loop) times =
      (dueAt interval false (some (timeAdd now interval)) times).map
        fun due => if due then [some (.condTimer cond cb)] else [] :=
    polls_addTimer hm hp now interval _ false times
  have hguarded := polls_addTimer hm hp now interval (some (.condTimer cond cb)) loop times
  have hdue : dueAt interval false (some (timeAdd now interval)) times =
      dueAt interval loop (some (timeAdd now interval)) times ↔
        loop = false ∨ dueAgain interval (timeAdd now interval) times = false := by
    cases loop with
    | false => simp
    | true => simpa using dueAt_oneShot_eq_loop
  rw [← hdue]
  constructor
  · intro h
    have hsame := h.same
    rw [hcond, hguarded] at hsame
    exact (delivered_inj _).mp hsame
  · intro heq
    have hlist : polls p (m.addCondTimer p now interval cb cond loop) times =
        (dueAt interval loop (some (timeAdd now interval)) times).map
          fun due => if due then [some (.condTimer cond cb)] else [] := by
      rw [hcond, heq]
    refine ⟨hlist.trans hguarded.symm, ?_, ?_⟩
    · rw [hlist, List.map_map]
      apply List.map_congr_left
      intro due _
      cases due <;> rfl
    · intro alive
      rw [hlist, callsOf]
      apply List.ext_getElem?
      intro i
      simp only [List.getElem?_mapIdx, List.getElem?_map, Option.map_map]
      congr 1
      ext1 due
      cases due <;> simp [Callback.calls]

/-- A conditional timer with the loop flag is delivered at the first deadline only. -/
theorem condTimer_loop_fails :
    (polls 1 ((TimerManager.new : TimerManager Nat Nat).addCondTimer 1 0 5 (some 7) 3 true)
      [5, 10]).map List.length = [1, 0] ∧
    (polls 1 ((TimerManager.new : TimerManager Nat Nat).addTimer 1 0 5
      (some (.condTimer 3 (some 7)))
      true) [5, 10]).map List.length = [1, 1] ∧
    ¬CondTimerBehaves (TimerManager.new : TimerManager Nat Nat) 1 0 5 (some 7) 3 true [5, 10] := by
  refine ⟨by decide, by decide, ?_⟩
  intro h
  exact absurd h.due (by decide)

/-- A conditional one-shot timer among others. -/
theorem condTimer_behaves_iff_oneShot :
    ∃ m : TimerManager Nat Nat, runSteps step TimerManager.new
        [.addTimer 2 0 3 (some (.function 4)) true] = some m ∧
      CondTimerBehaves m 1 0 5 (some 7) 3 false [5, 10] :=
  ⟨_, rfl, (condTimer_behaves_iff [.addTimer 2 0 3 (some (.function 4)) true] _ rfl 1 (by decide)
    0 5 (some 7) 3 false [5, 10]).mpr (Or.inl rfl)⟩

end Timers
end Tiger
