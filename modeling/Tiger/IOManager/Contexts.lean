import Mathlib.Tactic
import Tiger.IOManager.Effects
import Tiger.Lib.Simulation

/-!
# IOManager - event contexts

A registered direction has a context with a scheduler and with a coroutine or a callback;
the context of the other direction is empty.  `del_event` clears the context that
`get_event_context` selects for the status that is left, not for the one that is taken
away.  These are the same context only when `WRITE` is taken away and nothing is left.

Main results:

- Theorem `step_wellFormed_iff`: the operations that keep the contexts well formed.
- Theorem `run_wellFormed_iff`: the runs in which they stay well formed.
- Theorem `del_read_clears_write`: a deletion, and the null scheduler that it leaves.
-/

namespace Tiger
namespace IOManager

/-! ## Well formed contexts -/

/-- A scheduler, and a coroutine or a callback, not both. -/
def EventContext.Filled (e : EventContext) : Prop :=
  e.scheduler ≠ none ∧ e.co.isSome ≠ e.cb.isSome

/-- Neither a scheduler nor a coroutine nor a callback. -/
def EventContext.Blank (e : EventContext) : Prop :=
  e.scheduler = none ∧ e.co = none ∧ e.cb = none

/-- The event contexts go with the statuses. -/
def Context.WellFormed (ctx : Context) : Prop :=
  ∀ d, (ctx.statuses.has d = true ↔ (ctx.at d).Filled) ∧
    (ctx.statuses.has d = false → (ctx.at d).Blank)

/-- All contexts are well formed, and every call of `schedule` has had a scheduler. -/
structure Manager.WellFormed (m : Manager) : Prop where
  contexts : ∀ fd, (m.contexts fd).WellFormed
  calls : ∀ call ∈ m.calls, call.scheduler ≠ none

theorem EventContext.blank_empty : EventContext.empty.Blank := ⟨rfl, rfl, rfl⟩

theorem EventContext.Blank.not_filled {e : EventContext} (h : e.Blank) : ¬e.Filled :=
  fun hfilled => hfilled.1 h.1

/-- The two cases of a direction. -/
theorem wellFormed_iff (ctx : Context) :
    ctx.WellFormed ↔ ∀ d, (ctx.statuses.has d = true → (ctx.at d).Filled) ∧
      (ctx.statuses.has d = false → (ctx.at d).Blank) := by
  constructor
  · intro h d
    exact ⟨(h d).1.mp, (h d).2⟩
  · intro h d
    refine ⟨⟨(h d).1, ?_⟩, (h d).2⟩
    intro hfilled
    by_contra hnot
    exact ((h d).2 (Bool.eq_false_of_not_eq_true hnot)).not_filled hfilled

/-- What `add_event` writes is well formed when its caller has a scheduler, and a callback or
a running coroutine. -/
theorem fill_filled_iff {e : EventContext} (h : e.Blank) (cb : Option Nat) (caller : Caller) :
    (e.fill cb caller).Filled ↔
      caller.scheduler ≠ none ∧ (cb ≠ none ∨ caller.runningCo ≠ none) := by
  rcases h with ⟨_, hco, hcb⟩
  cases cb with
  | some cb => simp [EventContext.fill, EventContext.Filled, hco]
  | none =>
      simp [EventContext.fill, EventContext.Filled, hcb]

/-! ## Effects -/

/-- `add_event` has a caller with a scheduler, and a callback or a running coroutine;
`del_event` takes `WRITE` away where `READ` is not registered. -/
def Cmd.Proper (m : Manager) : Cmd → Prop
  | .addEvent _ _ cb caller _ => caller.scheduler ≠ none ∧ (cb ≠ none ∨ caller.runningCo ≠ none)
  | .delEvent fd d _ => d = .write ∧ (m.contexts fd).statuses.has .read = false
  | _ => True

/-- The operation is proper if it goes through. -/
def Cmd.Keeps (m : Manager) (c : Cmd) : Prop := c.goesThrough m = true → c.Proper m

section Effects

variable {ctx : Context} {d : Direction}

/-- A registration. -/
theorem register_wellFormed_iff (hctx : ctx.WellFormed) (hfree : ctx.statuses.has d = false)
    (cb : Option Nat) (caller : Caller) :
    (ctx.register d cb caller).WellFormed ↔
      caller.scheduler ≠ none ∧ (cb ≠ none ∨ caller.runningCo ≠ none) := by
  rw [← fill_filled_iff ((hctx d).2 hfree) cb caller, wellFormed_iff]
  constructor
  · intro h
    have hd := (h d).1 (by rw [register_statuses, EventStatus.has_union]; simp)
    rwa [register_at, if_pos rfl] at hd
  · intro hfilled d'
    rw [register_statuses, EventStatus.has_union, register_at]
    by_cases hd' : d' = d
    · rw [if_pos hd']
      simp [hd', hfilled]
    · rw [if_neg hd']
      simpa [hd'] using (wellFormed_iff ctx).mp hctx d'

/-- A trigger. -/
theorem fire_wellFormed (hctx : ctx.WellFormed) (d : Direction) : (ctx.fire d).WellFormed := by
  rw [wellFormed_iff]
  intro d'
  rw [fire_statuses, EventStatus.has_minus, fire_at]
  by_cases hd' : d' = d
  · rw [if_pos hd']
    simp [hd', EventContext.blank_empty]
  · rw [if_neg hd']
    simpa [hd'] using (wellFormed_iff ctx).mp hctx d'

/-- Only reading is left exactly when writing was removed and reading was there. -/
theorem minus_eq_READ_iff (a : EventStatus) (d : Direction) :
    a.minus d.status = .READ ↔ d = .write ∧ a.has .read = true := by
  cases a with
  | mk r w =>
      cases d <;> cases r <;> cases w <;>
        simp [EventStatus.minus, EventStatus.has, Direction.status, EventStatus.READ,
          EventStatus.WRITE]

/-- The context that `del_event` clears: that of `READ` if `READ` is what is left, else that
of `WRITE`. -/
theorem unregister_at (ctx : Context) (d d' : Direction) :
    (ctx.unregister d).at d' =
      if d' = .read ↔ d = .write ∧ ctx.statuses.has .read = true then .empty else ctx.at d' := by
  rw [Context.unregister, Context.setEventContext]
  simp only [minus_eq_READ_iff]
  cases d' <;> split_ifs <;> simp_all [Context.at]

/-- A deletion. -/
theorem unregister_wellFormed_iff (hctx : ctx.WellFormed) (hhas : ctx.statuses.has d = true) :
    (ctx.unregister d).WellFormed ↔ d = .write ∧ ctx.statuses.has .read = false := by
  rw [wellFormed_iff]
  constructor
  · intro h
    have hread := h .read
    have hwrite := h .write
    rw [unregister_statuses, EventStatus.has_minus, unregister_at] at hread hwrite
    cases d with
    | write =>
        refine ⟨rfl, ?_⟩
        by_contra hnot
        rw [Bool.not_eq_false] at hnot
        -- the context of `READ` is cleared while `READ` stays registered
        rw [if_pos (by simp [hnot])] at hread
        exact EventContext.blank_empty.not_filled (hread.1 (by simp [hnot]))
    | read =>
        cases hother : ctx.statuses.has .write with
        | true =>
            -- the context of `WRITE` is cleared while `WRITE` stays registered
            rw [if_pos (by simp)] at hwrite
            exact absurd (hwrite.1 (by simp [hother])) EventContext.blank_empty.not_filled
        | false =>
            -- the context of `READ` stays filled
            rw [if_neg (by simp)] at hread
            exact absurd ((hctx .read).1.mp hhas) (hread.2 (by simp)).not_filled
  · rintro ⟨rfl, hread⟩ d'
    rw [unregister_statuses, EventStatus.has_minus, unregister_at]
    cases d' with
    | read =>
        rw [if_neg (by simp [hread])]
        simpa [hread] using (hctx .read).2 hread
    | write =>
        rw [if_pos (by simp [hread])]
        simp [EventContext.blank_empty]

/-- An effect keeps the context well formed when the operation does. -/
theorem Effect.wellFormed_iff {c : Cmd} {ctx' : Context} {calls : List ScheduleCall} {m : Manager}
    (heffect : Effect c (m.contexts c.fd) ctx' calls) (hthrough : c.goesThrough m = true)
    (hctx : (m.contexts c.fd).WellFormed) : ctx'.WellFormed ↔ c.Keeps m := by
  rw [Cmd.Keeps, forall_prop_of_true hthrough]
  clear hthrough
  generalize hold : m.contexts c.fd = old at heffect hctx
  cases heffect with
  | addEvent h => exact register_wellFormed_iff hctx h _ _
  | delEvent h =>
      rw [Cmd.fd] at hold
      rw [Cmd.Proper, hold]
      exact unregister_wellFormed_iff hctx h
  | cancelEvent h => exact iff_of_true (fire_wellFormed hctx _) trivial
  | cancelBoth hr hw => exact iff_of_true (fire_wellFormed (fire_wellFormed hctx _) _) trivial
  | cancelOne h => exact iff_of_true (fire_wellFormed hctx _) trivial
  | deliver hreal h => exact iff_of_true (fire_wellFormed hctx _) trivial

/-- The calls of an effect have the schedulers of registered directions. -/
theorem Effect.calls_scheduler {c : Cmd} {ctx' : Context} {calls : List ScheduleCall}
    (heffect : Effect c ctx ctx' calls) (hctx : ctx.WellFormed) :
    ∀ call ∈ calls, call.scheduler ≠ none := by
  have hcall : ∀ d, ctx.statuses.has d = true → (ctx.at d).call.scheduler ≠ none := by
    intro d hd
    rw [call_scheduler]
    exact ((hctx d).1.mp hd).1
  cases heffect with
  | addEvent h => simp
  | delEvent h => simp
  | cancelEvent h => simpa using hcall _ h
  | cancelBoth hr hw => simpa using ⟨hcall _ hr, hcall _ hw⟩
  | cancelOne h => simpa using hcall _ (by rw [h, EventStatus.has_status]; simp)
  | deliver hreal h => simpa using hcall _ h

end Effects

/-! ## Steps and runs -/

/-- A new manager is well formed. -/
theorem init_wellFormed : Manager.init.WellFormed where
  contexts := fun _ d => by cases d <;> simp [Manager.init, Context.empty, Context.at,
    EventStatus.has, EventStatus.none, EventContext.Filled, EventContext.Blank, EventContext.empty]
  calls := fun _ h => nomatch h

/-- The operations that keep the contexts well formed. -/
theorem step_wellFormed_iff {m : Manager} (hm : m.WellFormed) (hsize : 128 ≤ m.size) (c : Cmd) :
    (step m c).2.WellFormed ↔ c.Keeps m := by
  rcases step_cases m c hsize with ⟨hno, hstill⟩ | ⟨hthrough, _, ctx, calls, heffect, hmoves⟩
  · have hkeeps : c.Keeps m := by
      intro h
      rw [hno] at h
      cases h
    refine iff_of_true ⟨?_, ?_⟩ hkeeps
    · rw [hstill.contexts_eq]
      exact hm.contexts
    · rw [hstill.calls_eq]
      exact hm.calls
  · rw [← heffect.wellFormed_iff hthrough (hm.contexts c.fd)]
    constructor
    · intro h
      have hfd := h.contexts c.fd
      rwa [hmoves.contexts_eq, Function.update_self] at hfd
    · intro hctx
      constructor
      · intro fd
        rw [hmoves.contexts_eq]
        by_cases hfd : fd = c.fd
        · rwa [hfd, Function.update_self]
        · rw [Function.update_of_ne hfd]
          exact hm.contexts fd
      · intro call hcall
        rw [hmoves.calls_eq, List.mem_append] at hcall
        rcases hcall with hold | hnew
        · exact hm.calls call hold
        · exact heffect.calls_scheduler (hm.contexts c.fd) call hnew

/-- A command keeps at least the initial contexts. -/
theorem step_size_ge (m : Manager) (c : Cmd) (hsize : 128 ≤ m.size) : 128 ≤ (step m c).2.size := by
  rcases step_cases m c hsize with ⟨_, hstill⟩ | ⟨_, _, _, _, _, hmoves⟩
  · exact hsize.trans hstill.size_le
  · exact hsize.trans hmoves.size_le

/-- Every operation of the run keeps the contexts well formed. -/
def KeepsAll (m : Manager) : List Cmd → Prop
  | [] => True
  | c :: cmds => c.Keeps m ∧ KeepsAll (step m c).2 cmds

/-- A run keeps the condition exactly if every command meets it where it is executed. -/
theorem keepsAll_iff_allMeets (m : Manager) (cmds : List Cmd) :
    KeepsAll m cmds ↔ Lib.AllMeets (fun m c => (step m c).2) (fun m c => c.Keeps m) m cmds := by
  induction cmds generalizing m with
  | nil => rfl
  | cons c cmds ih =>
      rw [KeepsAll, Lib.AllMeets, ih]

/-- The contexts stay well formed along a run, and no call of `schedule` lacks a scheduler,
exactly when every `add_event` that goes through has a caller with a scheduler, and with a
callback or a running coroutine, and every `del_event` that goes through takes `WRITE` away
where `READ` is not registered. -/
theorem run_wellFormed_iff (cmds : List Cmd) :
    (∀ n, (run .init (cmds.take n)).WellFormed) ↔ KeepsAll .init cmds := by
  rw [keepsAll_iff_allMeets]
  apply Lib.forall_take_iff_allMeets (fun m => 128 ≤ m.size) Manager.WellFormed _ _ cmds le_rfl
    init_wellFormed
  · intro m c hsize
    exact step_size_ge m c hsize
  · intro m c hsize hm
    exact step_wellFormed_iff hm hsize c

/-- Coroutines wait for both directions of a descriptor, the wait for `READ` is deleted, and
`EPOLLOUT` is delivered. -/
def delReadCmds : List Cmd :=
  [.addEvent 5 .read none ⟨some 1, some 3, 7⟩ true,
    .addEvent 5 .write none ⟨some 1, some 4, 7⟩ true,
    .delEvent 5 .read true, .deliver 5 ⟨false, true, false, false⟩ true]

/-- The deletion of `READ` clears the context of `WRITE`; its delivery then calls `schedule`
of a null scheduler. -/
theorem del_read_clears_write :
    ((run .init (delReadCmds.take 3)).contexts 5).statuses = .WRITE ∧
      ((run .init (delReadCmds.take 3)).contexts 5).write = .empty ∧
      (run .init delReadCmds).calls = [⟨none, .cb none, 0⟩] ∧
      ¬∀ n, (run .init (delReadCmds.take n)).WellFormed := by
  have hcalls : (run .init delReadCmds).calls = [⟨none, .cb none, 0⟩] := by decide
  refine ⟨by decide, by decide, hcalls, ?_⟩
  intro h
  have hfour := (h 4).calls ⟨none, .cb none, 0⟩
  rw [show delReadCmds.take 4 = delReadCmds from rfl, hcalls] at hfour
  exact hfour (List.mem_singleton.mpr rfl) rfl

end IOManager
end Tiger
