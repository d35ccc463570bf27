import Mathlib.Tactic
import Tiger.IOManager.Model

/-!
# IOManager - what an operation does

Every operation leaves the contexts as they are, or changes the context of its
descriptor, has that accepted by epoll, and counts the change.  What becomes of the
context is said once for each operation; the invariants follow from that.

Main results:

- Theorem `step_cases`: an operation changes nothing, or it has its effect.
-/

namespace Tiger
namespace IOManager

/-! ## Statuses -/

namespace EventStatus

/-- The number of directions. -/
def bits (a : EventStatus) : Nat := a.read.toNat + a.write.toNat

/-- What epoll watches for a status. -/
def watch (a : EventStatus) : Option EventStatus := if a = none then Option.none else some a

/-- The direction is in the status. -/
def has (a : EventStatus) : Direction → Bool
  | .read => a.read
  | .write => a.write

theorem meets_status (a : EventStatus) (d : Direction) : a.meets d.status = a.has d := by
  cases a with
  | mk r w => cases d <;> cases r <;> cases w <;> rfl

/-- A status is none exactly if it has no direction. -/
theorem eq_none_iff (a : EventStatus) : a = none ↔ ∀ d, a.has d = false := by
  cases a with
  | mk r w =>
      constructor
      · intro h d
        cases h
        cases d <;> rfl
      · intro h
        rw [show r = false from h .read, show w = false from h .write]
        rfl

/-- Adding a direction adds one to the count. -/
theorem bits_union (a : EventStatus) (d : Direction) (h : a.has d = false) :
    (a.union d.status).bits = a.bits + 1 := by
  cases a with
  | mk r w =>
      cases d <;> cases r <;> cases w <;>
        simp_all [has, bits, union, Direction.status, READ, WRITE]

/-- Removing a direction takes one from the count. -/
theorem bits_minus (a : EventStatus) (d : Direction) (h : a.has d = true) :
    (a.minus d.status).bits + 1 = a.bits := by
  cases a with
  | mk r w =>
      cases d <;> cases r <;> cases w <;>
        simp_all [has, bits, minus, Direction.status, READ, WRITE]

/-- The directions behind adding one. -/
@[simp] theorem has_union (a : EventStatus) (d d' : Direction) :
    (a.union d.status).has d' = (a.has d' || decide (d' = d)) := by
  cases a with
  | mk r w => cases d <;> cases d' <;> simp [has, union, Direction.status, READ, WRITE]

/-- The directions behind removing one. -/
@[simp] theorem has_minus (a : EventStatus) (d d' : Direction) :
    (a.minus d.status).has d' = (a.has d' && !decide (d' = d)) := by
  cases a with
  | mk r w => cases d <;> cases d' <;> simp [has, minus, Direction.status, READ, WRITE]

/-- A status with a direction is not none. -/
theorem ne_none_of_has {a : EventStatus} {d : Direction} (h : a.has d = true) : a ≠ none := by
  intro hnone
  have hfalse := (eq_none_iff a).mp hnone d
  rw [h] at hfalse
  cases hfalse

theorem union_ne_none (a : EventStatus) (d : Direction) : a.union d.status ≠ none := by
  have hhas : (a.union d.status).has d = true := by simp
  exact ne_none_of_has hhas

/-- A status has one direction, or both, or none. -/
theorem cases_has (a : EventStatus) :
    a = .none ∨ (∃ d : Direction, a = d.status) ∨ (a.has .read = true ∧ a.has .write = true) := by
  cases a with
  | mk r w =>
      cases r with
      | false =>
          cases w with
          | false => exact .inl rfl
          | true => exact .inr (.inl ⟨.write, rfl⟩)
      | true =>
          cases w with
          | false => exact .inr (.inl ⟨.read, rfl⟩)
          | true => exact .inr (.inr ⟨rfl, rfl⟩)

theorem has_status (d d' : Direction) : d.status.has d' = decide (d' = d) := by
  cases d <;> cases d' <;> rfl

theorem minus_status (d : Direction) : d.status.minus d.status = .none := by
  cases d <;> rfl

/-- Both directions count two. -/
theorem bits_both {a : EventStatus} (hr : a.has .read = true) (hw : a.has .write = true) :
    a.bits = 2 := by
  rw [EventStatus.bits, show a.read = true from hr, show a.write = true from hw]
  rfl

theorem inter_none (a : EventStatus) : a.inter .none = .none := by
  rw [EventStatus.inter, EventStatus.none, Bool.and_false, Bool.and_false]

/-- A direction is missing exactly if the intersection with it is none. -/
theorem inter_status_eq_none {a : EventStatus} {d : Direction} :
    a.inter d.status = .none ↔ a.has d = false := by
  rw [← EventStatus.meets_status, EventStatus.meets]
  simp

end EventStatus

theorem status_ne_none (d : Direction) : d.status ≠ .none := by
  have hhas : d.status.has d = true := by rw [EventStatus.has_status, decide_eq_true rfl]
  exact EventStatus.ne_none_of_has hhas

/-! ## Contexts -/

theorem call_scheduler (e : EventContext) : e.call.scheduler = e.scheduler := by
  rw [EventContext.call]
  split <;> rfl

/-- The event context of a direction. -/
def Context.at (ctx : Context) : Direction → EventContext
  | .read => ctx.read
  | .write => ctx.write

/-- Replacing an event context keeps the statuses. -/
@[simp] theorem setEventContext_statuses (ctx : Context) (status : EventStatus) (e : EventContext) :
    (ctx.setEventContext status e).statuses = ctx.statuses := by
  rw [Context.setEventContext]
  split <;> rfl

theorem setEventContext_at (ctx : Context) (d d' : Direction) (e : EventContext) :
    (ctx.setEventContext d.status e).at d' = if d' = d then e else ctx.at d' := by
  cases d <;> cases d' <;> rfl

/-- A registration: the context behind `add_event`. -/
def Context.register (ctx : Context) (d : Direction) (cb : Option Nat) (caller : Caller) :
    Context :=
  { ctx with statuses := ctx.statuses.union d.status }.setEventContext d.status
    ((ctx.at d).fill cb caller)

/-- The context behind `del_event`. -/
def Context.unregister (ctx : Context) (d : Direction) : Context :=
  { ctx with statuses := ctx.statuses.minus d.status }.setEventContext
    (ctx.statuses.minus d.status) .empty

/-- The context behind `trigger_event` for a registered direction. -/
def Context.fire (ctx : Context) (d : Direction) : Context :=
  { ctx with statuses := ctx.statuses.minus d.status }.setEventContext d.status .empty

/-- `trigger_event` for a registered direction makes the call of its context. -/
theorem triggerEvent_registered {ctx : Context} {d : Direction} (h : ctx.statuses.has d = true) :
    ctx.triggerEvent d.status = (ctx.fire d, [(ctx.at d).call]) := by
  rw [Context.triggerEvent, EventStatus.meets_status, h]
  cases d <;> rfl

@[simp] theorem fire_statuses (ctx : Context) (d : Direction) :
    (ctx.fire d).statuses = ctx.statuses.minus d.status := by
  rw [Context.fire, setEventContext_statuses]

/-- Firing empties the event context of the direction. -/
theorem fire_at (ctx : Context) (d d' : Direction) :
    (ctx.fire d).at d' = if d' = d then .empty else ctx.at d' := by
  rw [Context.fire, setEventContext_at]
  cases d' <;> rfl

theorem register_statuses (ctx : Context) (d : Direction) (cb : Option Nat) (caller : Caller) :
    (ctx.register d cb caller).statuses = ctx.statuses.union d.status := by
  rw [Context.register, setEventContext_statuses]

/-- Registering fills the event context of the direction. -/
theorem register_at (ctx : Context) (d d' : Direction) (cb : Option Nat) (caller : Caller) :
    (ctx.register d cb caller).at d' = if d' = d then (ctx.at d).fill cb caller else ctx.at d' := by
  rw [Context.register, setEventContext_at]
  cases d' <;> rfl

theorem unregister_statuses (ctx : Context) (d : Direction) :
    (ctx.unregister d).statuses = ctx.statuses.minus d.status := by
  rw [Context.unregister, setEventContext_statuses]

/-- Nothing is left of a context when both directions are triggered. -/
theorem fire_fire_statuses (ctx : Context) : ((ctx.fire .read).fire .write).statuses = .none := by
  rw [fire_statuses, fire_statuses, EventStatus.eq_none_iff]
  intro d
  rw [EventStatus.has_minus, EventStatus.has_minus]
  cases d <;> simp

/-! ## Managers -/

/-- Nothing that the invariants speak of has changed. -/
structure Still (m m' : Manager) : Prop where
  contexts_eq : m'.contexts = m.contexts
  interest_eq : m'.interest = m.interest
  cnt_eq : m'.appendingEventCnt = m.appendingEventCnt
  calls_eq : m'.calls = m.calls
  size_le : m.size ≤ m'.size

/-- The context of a descriptor has changed, epoll watches its new status, and the change
is counted. -/
structure Moves (m m' : Manager) (fd : Nat) (ctx : Context) (calls : List ScheduleCall) : Prop where
  contexts_eq : m'.contexts = Function.update m.contexts fd ctx
  interest_eq : m'.interest = Function.update m.interest fd ctx.statuses.watch
  cnt_eq : m'.appendingEventCnt + UInt64.ofNat (m.contexts fd).statuses.bits =
    m.appendingEventCnt + UInt64.ofNat ctx.statuses.bits
  calls_eq : m'.calls = m.calls ++ calls
  size_le : m.size ≤ m'.size
  inside : fd < m'.size ∨ (m.contexts fd).statuses ≠ .none

theorem Still.refl (m : Manager) : Still m m := ⟨rfl, rfl, rfl, rfl, le_rfl⟩

/-- What becomes of the context of the descriptor when an operation goes through, and the
calls of `schedule` that it makes. -/
inductive Effect : Cmd → Context → Context → List ScheduleCall → Prop
  | addEvent {fd : Nat} {d : Direction} {cb : Option Nat} {caller : Caller} {ok : Bool}
      {ctx : Context} (h : ctx.statuses.has d = false) :
      Effect (.addEvent fd d cb caller ok) ctx (ctx.register d cb caller) []
  | delEvent {fd : Nat} {d : Direction} {ok : Bool} {ctx : Context}
      (h : ctx.statuses.has d = true) : Effect (.delEvent fd d ok) ctx (ctx.unregister d) []
  | cancelEvent {fd : Nat} {d : Direction} {ok : Bool} {ctx : Context}
      (h : ctx.statuses.has d = true) :
      Effect (.cancelEvent fd d ok) ctx (ctx.fire d) [(ctx.at d).call]
  | cancelBoth {fd : Nat} {ok : Bool} {ctx : Context} (hr : ctx.statuses.has .read = true)
      (hw : ctx.statuses.has .write = true) :
      Effect (.cancelAllEvent fd ok) ctx ((ctx.fire .read).fire .write)
        [(ctx.at .read).call, (ctx.at .write).call]
  | cancelOne {fd : Nat} {d : Direction} {ok : Bool} {ctx : Context}
      (h : ctx.statuses = d.status) :
      Effect (.cancelAllEvent fd ok) ctx (ctx.fire d) [(ctx.at d).call]
  | deliver {fd : Nat} {mask : Manager.EpollMask} {d : Direction} {ok : Bool} {ctx : Context}
      (hreal : mask.realStatus = d.status) (h : ctx.statuses.has d = true) :
      Effect (.deliver fd mask ok) ctx (ctx.fire d) [(ctx.at d).call]

/-! ## Operations -/

section Operations

variable {m : Manager} {fd : Nat}

/-- A descriptor that is not beyond the contexts is inside. -/
theorem lt_size_of_not_beyond (h : m.beyond fd = false) : fd < m.size := by
  have hle : toInt32 m.size ≤ (m.size : Int) := by
    rw [toInt32, Int.bmod_def]
    split <;> omega
  rw [Manager.beyond, decide_eq_false_iff_not] at h
  omega

/-- `add_event` has a context for the descriptor. -/
theorem locate_still (m : Manager) (fd : Nat) (hsize : 128 ≤ m.size) :
    Still m (m.locate fd) ∧ fd < (m.locate fd).size := by
  rw [Manager.locate]
  cases hbeyond : m.beyond fd with
  | false => exact ⟨Still.refl m, lt_size_of_not_beyond hbeyond⟩
  | true =>
      simp only [if_true, Manager.fdContextResize]
      split
      next hle => exact ⟨Still.refl m, by omega⟩
      next hgt => exact ⟨⟨rfl, rfl, rfl, rfl, by simp only; omega⟩, by simp only; omega⟩

@[simp] theorem epollCtl_fails (m : Manager) (op : Manager.EpollOp) (fd : Nat)
    (status : EventStatus) :
    m.epollCtl false op fd status = none := rfl

/-- epoll watches the status that is left. -/
@[simp] theorem epollCtl_modOrDel (m : Manager) (fd : Nat) (status : EventStatus) :
    m.epollCtl true (Manager.modOrDel status) fd status =
      some { m with interest := Function.update m.interest fd status.watch } := by
  rw [Manager.modOrDel, EventStatus.watch]
  split <;> rfl

/-- epoll watches the status with a new direction. -/
@[simp] theorem epollCtl_addOrMod (m : Manager) (fd : Nat) (old status : EventStatus)
    (h : status ≠ .none) :
    m.epollCtl true (if old = .none then .add else .mod) fd status =
      some { m with interest := Function.update m.interest fd status.watch } := by
  rw [EventStatus.watch, if_neg h]
  split <;> rfl

/-- The operation passes its checks and epoll accepts the new status. -/
def Cmd.goesThrough (m : Manager) : Cmd → Bool
  | .addEvent fd d _ _ ok => !(m.contexts fd).statuses.has d && ok
  | .delEvent fd d ok => !m.beyond fd && (m.contexts fd).statuses.has d && ok
  | .cancelEvent fd d ok => !m.beyond fd && (m.contexts fd).statuses.has d && ok
  | .cancelAllEvent fd ok => !m.beyond fd && decide ((m.contexts fd).statuses ≠ .none) && ok
  | .deliver fd mask ok => (m.contexts fd).statuses.meets mask.realStatus && ok

/-- An operation changes nothing, or it goes through and has its effect. -/
def Outcome (c : Cmd) (m : Manager) (r : Bool × Manager) : Prop :=
  (c.goesThrough m = false ∧ Still m r.2) ∨
    (c.goesThrough m = true ∧ r.1 = true ∧ ∃ ctx calls, Effect c (m.contexts c.fd) ctx calls ∧
      Moves m r.2 c.fd ctx calls)

/-- The locked part of `add_event`. -/
theorem addEventLocked_eq (m : Manager) (fd : Nat) (d : Direction) (cb : Option Nat)
    (caller : Caller) (ok : Bool) :
    m.addEventLocked fd d.status cb caller ok =
      if !(m.contexts fd).statuses.has d && ok then
        (true, { m with
          contexts := Function.update m.contexts fd ((m.contexts fd).register d cb caller)
          interest := Function.update m.interest fd ((m.contexts fd).statuses.union d.status).watch
          appendingEventCnt := m.appendingEventCnt + 1 })
      else (false, m) := by
  rw [Manager.addEventLocked]
  simp only [EventStatus.meets_status]
  cases hhas : (m.contexts fd).statuses.has d with
  | true => rfl
  | false =>
      cases ok with
      | false => rfl
      | true =>
          rw [epollCtl_addOrMod _ _ _ _ (EventStatus.union_ne_none _ d)]
          cases d <;> rfl

/-- The locked part of `add_event`, behind any change that the invariants do not see. -/
theorem addEventLocked_outcome {m₁ : Manager} (hstill : Still m m₁) (hinside : fd < m₁.size)
    (d : Direction) (cb : Option Nat) (caller : Caller) (ok : Bool) :
    Outcome (.addEvent fd d cb caller ok) m (m₁.addEventLocked fd d.status cb caller ok) := by
  rw [addEventLocked_eq, hstill.contexts_eq]
  cases hthrough : (!(m.contexts fd).statuses.has d && ok) with
  | false => exact .inl ⟨hthrough, hstill⟩
  | true =>
      have hhas : (m.contexts fd).statuses.has d = false := by
        rw [Bool.and_eq_true, Bool.not_eq_true'] at hthrough
        exact hthrough.1
      rw [if_pos rfl]
      refine .inr ⟨hthrough, rfl, (m.contexts fd).register d cb caller, [], .addEvent hhas, ?_⟩
      constructor
      · rfl
      · rw [register_statuses, hstill.interest_eq]
        rfl
      · rw [hstill.cnt_eq, register_statuses, EventStatus.bits_union _ d hhas, Cmd.fd,
          UInt64.ofNat_add]
        grind
      · rw [hstill.calls_eq, List.append_nil]
      · exact hstill.size_le
      · exact .inl hinside

/-- The outcome of `add_event`. -/
theorem addEvent_outcome (m : Manager) (fd : Nat) (d : Direction) (cb : Option Nat)
    (caller : Caller) (ok : Bool) (hsize : 128 ≤ m.size) :
    Outcome (.addEvent fd d cb caller ok) m (m.addEvent fd d.status cb caller ok) := by
  rcases locate_still m fd hsize with ⟨hstill, hinside⟩
  rw [Manager.addEvent]
  exact addEventLocked_outcome hstill hinside d cb caller ok

/-- The outcome of `del_event`. -/
theorem delEvent_outcome (m : Manager) (fd : Nat) (d : Direction) (ok : Bool) :
    Outcome (.delEvent fd d ok) m (m.delEvent fd d.status ok) := by
  rw [Manager.delEvent]
  cases hbeyond : m.beyond fd with
  | true => exact .inl ⟨by simp [Cmd.goesThrough, hbeyond], Still.refl m⟩
  | false =>
      simp only [EventStatus.meets_status, Bool.false_eq_true, if_false]
      cases hhas : (m.contexts fd).statuses.has d with
      | false => exact .inl ⟨by simp [Cmd.goesThrough, hhas], Still.refl m⟩
      | true =>
          cases ok with
          | false => exact .inl ⟨by simp [Cmd.goesThrough], Still.refl m⟩
          | true =>
              simp only [epollCtl_modOrDel, Bool.not_true, Bool.false_eq_true, if_false]
              refine .inr ⟨by simp [Cmd.goesThrough, hhas, hbeyond], rfl,
                (m.contexts fd).unregister d, [], .delEvent hhas, ?_⟩
              constructor
              · rfl
              · simp only [unregister_statuses]
                rfl
              · simp only [Manager.setContext, Manager.decrement, unregister_statuses, Cmd.fd,
                  ← EventStatus.bits_minus _ d hhas, UInt64.ofNat_add]
                grind
              · simp only [Manager.setContext, Manager.decrement, List.append_nil]
              · exact le_rfl
              · exact .inl (lt_size_of_not_beyond hbeyond)

/-- `trigger_event` for a registered direction, with its decrement. -/
theorem triggerEvent_eq {d : Direction} (h : (m.contexts fd).statuses.has d = true) :
    m.triggerEvent fd d.status = { m with
      contexts := Function.update m.contexts fd ((m.contexts fd).fire d)
      calls := m.calls ++ [((m.contexts fd).at d).call] } := by
  rw [Manager.triggerEvent, triggerEvent_registered h]
  rfl

/-- One registered direction is triggered and counted. -/
theorem fire_moves {m' : Manager} {d : Direction} (h : (m.contexts fd).statuses.has d = true)
    (hcontexts : m'.contexts = Function.update m.contexts fd ((m.contexts fd).fire d))
    (hinterest : m'.interest =
      Function.update m.interest fd ((m.contexts fd).statuses.minus d.status).watch)
    (hcnt : m'.appendingEventCnt = m.appendingEventCnt - 1)
    (hcalls : m'.calls = m.calls ++ [((m.contexts fd).at d).call]) (hsize : m'.size = m.size) :
    Moves m m' fd ((m.contexts fd).fire d) [((m.contexts fd).at d).call] where
  contexts_eq := hcontexts
  interest_eq := by rw [hinterest, fire_statuses]
  cnt_eq := by
    rw [hcnt, fire_statuses, ← EventStatus.bits_minus _ d h, UInt64.ofNat_add]
    grind
  calls_eq := hcalls
  size_le := hsize.ge
  inside := .inr (EventStatus.ne_none_of_has h)

/-- The outcome of `cancel_event`. -/
theorem cancelEvent_outcome (m : Manager) (fd : Nat) (d : Direction) (ok : Bool) :
    Outcome (.cancelEvent fd d ok) m (m.cancelEvent fd d.status ok) := by
  rw [Manager.cancelEvent]
  cases hbeyond : m.beyond fd with
  | true => exact .inl ⟨by simp [Cmd.goesThrough, hbeyond], Still.refl m⟩
  | false =>
      simp only [EventStatus.meets_status, Bool.false_eq_true, if_false]
      cases hhas : (m.contexts fd).statuses.has d with
      | false => exact .inl ⟨by simp [Cmd.goesThrough, hhas], Still.refl m⟩
      | true =>
          cases ok with
          | false => exact .inl ⟨by simp [Cmd.goesThrough], Still.refl m⟩
          | true =>
              simp only [Manager.cancelEventLocked, epollCtl_modOrDel, Bool.not_true,
                Bool.false_eq_true, if_false]
              refine .inr ⟨by simp [Cmd.goesThrough, hhas, hbeyond], rfl, _, _, .cancelEvent hhas,
                ?_⟩
              rw [triggerEvent_eq (d := d) (by exact hhas)]
              exact fire_moves hhas rfl rfl rfl rfl rfl

/-- A registered direction is triggered by `cancel_all_event` and by the delivery. -/
theorem triggerIf_registered {d : Direction} (h : (m.contexts fd).statuses.has d = true) :
    m.triggerIf fd true d.status = { m with
      contexts := Function.update m.contexts fd ((m.contexts fd).fire d)
      appendingEventCnt := m.appendingEventCnt - 1
      calls := m.calls ++ [((m.contexts fd).at d).call] } := by
  rw [Manager.triggerIf, if_pos rfl, triggerEvent_eq h]
  rfl

/-- One direction of `cancel_all_event`. -/
def Manager.triggerDirection (m : Manager) (fd : Nat) (d : Direction) : Manager :=
  m.triggerIf fd ((m.contexts fd).statuses.meets d.status) d.status

/-- Triggering a registered direction fires it. -/
theorem triggerDirection_registered {d : Direction} (h : (m.contexts fd).statuses.has d = true) :
    m.triggerDirection fd d = { m with
      contexts := Function.update m.contexts fd ((m.contexts fd).fire d)
      appendingEventCnt := m.appendingEventCnt - 1
      calls := m.calls ++ [((m.contexts fd).at d).call] } := by
  rw [Manager.triggerDirection, EventStatus.meets_status, h, triggerIf_registered h]

/-- Triggering an absent direction does nothing. -/
theorem triggerDirection_absent {d : Direction} (h : (m.contexts fd).statuses.has d = false) :
    m.triggerDirection fd d = m := by
  rw [Manager.triggerDirection, EventStatus.meets_status, h]
  rfl

/-- Both directions of `cancel_all_event`, when one is registered. -/
theorem triggerDirections_one {d : Direction} (h : (m.contexts fd).statuses = d.status) :
    (m.triggerDirection fd .read).triggerDirection fd .write = m.triggerDirection fd d := by
  cases d with
  | read =>
      apply triggerDirection_absent
      rw [triggerDirection_registered (by rw [h]; rfl)]
      simp only [Function.update_self, fire_statuses, h]
      rfl
  | write =>
      rw [triggerDirection_absent (d := .read) (by rw [h]; rfl)]

/-- Both directions of `cancel_all_event`, when both are registered. -/
theorem triggerDirections_both (hr : (m.contexts fd).statuses.has .read = true)
    (hw : (m.contexts fd).statuses.has .write = true) :
    (m.triggerDirection fd .read).triggerDirection fd .write = { m with
      contexts := Function.update m.contexts fd (((m.contexts fd).fire .read).fire .write)
      appendingEventCnt := m.appendingEventCnt - 1 - 1
      calls := m.calls ++
        [((m.contexts fd).at .read).call, ((m.contexts fd).at .write).call] } := by
  have hleft : ((m.triggerDirection fd .read).contexts fd) = (m.contexts fd).fire .read := by
    rw [triggerDirection_registered hr]
    simp only [Function.update_self]
  have hwrite : ((m.triggerDirection fd .read).contexts fd).statuses.has .write = true := by
    rw [hleft, fire_statuses, EventStatus.has_minus, hw]
    rfl
  rw [triggerDirection_registered hwrite, hleft, triggerDirection_registered hr]
  simp only [Function.update_idem, List.append_assoc, List.singleton_append]
  rfl

/-- Both directions are triggered and counted. -/
theorem fireBoth_moves {m' : Manager} (hr : (m.contexts fd).statuses.has .read = true)
    (hw : (m.contexts fd).statuses.has .write = true)
    (hcontexts : m'.contexts =
      Function.update m.contexts fd (((m.contexts fd).fire .read).fire .write))
    (hinterest : m'.interest = Function.update m.interest fd none)
    (hcnt : m'.appendingEventCnt = m.appendingEventCnt - 1 - 1)
    (hcalls : m'.calls =
      m.calls ++ [((m.contexts fd).at .read).call, ((m.contexts fd).at .write).call])
    (hsize : m'.size = m.size) :
    Moves m m' fd (((m.contexts fd).fire .read).fire .write)
      [((m.contexts fd).at .read).call, ((m.contexts fd).at .write).call] where
  contexts_eq := hcontexts
  interest_eq := by
    rw [hinterest, fire_fire_statuses]
    rfl
  cnt_eq := by
    rw [hcnt, fire_fire_statuses, EventStatus.bits_both hr hw]
    change m.appendingEventCnt - 1 - 1 + 2 = m.appendingEventCnt + 0
    grind
  calls_eq := hcalls
  size_le := hsize.ge
  inside := .inr (EventStatus.ne_none_of_has hr)

/-- The outcome of `cancel_all_event`. -/
theorem cancelAllEvent_outcome (m : Manager) (fd : Nat) (ok : Bool) :
    Outcome (.cancelAllEvent fd ok) m (m.cancelAllEvent fd ok) := by
  rw [Manager.cancelAllEvent]
  cases hbeyond : m.beyond fd with
  | true => exact .inl ⟨by simp [Cmd.goesThrough, hbeyond], Still.refl m⟩
  | false =>
      simp only [Bool.false_eq_true, if_false]
      by_cases hnone : (m.contexts fd).statuses = .none
      · rw [if_pos hnone]
        exact .inl ⟨by simp [Cmd.goesThrough, hnone], Still.refl m⟩
      rw [if_neg hnone]
      cases ok with
      | false => exact .inl ⟨by simp [Cmd.goesThrough], Still.refl m⟩
      | true =>
          rcases EventStatus.cases_has (m.contexts fd).statuses with h | ⟨d, hone⟩ | ⟨hr, hw⟩
          · exact absurd h hnone
          · have hhas : (m.contexts fd).statuses.has d = true := by
              rw [hone, EventStatus.has_status]
              simp
            refine .inr ⟨by simp [Cmd.goesThrough, hnone, hbeyond], rfl, _, _, .cancelOne hone, ?_⟩
            change Moves m ((Manager.triggerDirection { m with
              interest := Function.update m.interest fd none } fd .read).triggerDirection fd .write)
              fd _ _
            rw [triggerDirections_one (d := d) (by exact hone),
              triggerDirection_registered (d := d) (by exact hhas)]
            refine fire_moves hhas rfl ?_ rfl rfl rfl
            rw [hone, EventStatus.minus_status]
            rfl
          · refine .inr
              ⟨by simp [Cmd.goesThrough, hnone, hbeyond], rfl, _, _, .cancelBoth hr hw, ?_⟩
            change Moves m ((Manager.triggerDirection { m with
              interest := Function.update m.interest fd none } fd .read).triggerDirection fd .write)
              fd _ _
            rw [triggerDirections_both (by exact hr) (by exact hw)]
            exact fireBoth_moves hr hw rfl rfl rfl rfl rfl

/-- `idle` delivers one direction at most. -/
theorem realStatus_cases (mask : Manager.EpollMask) :
    mask.realStatus = .none ∨ ∃ d : Direction, mask.realStatus = d.status := by
  rw [Manager.EpollMask.realStatus]
  split
  · exact .inr ⟨.write, rfl⟩
  · split
    · exact .inr ⟨.read, rfl⟩
    · exact .inl rfl

/-- Events of no direction change nothing. -/
theorem deliver_none {mask : Manager.EpollMask} (ok : Bool) (hnone : mask.realStatus = .none) :
    m.deliver fd mask ok = m := by
  rw [Manager.deliver, hnone]
  simp only [EventStatus.inter_none, if_true]

/-- The delivery triggers the direction, if it is registered and epoll accepts what is
left. -/
theorem deliver_direction {mask : Manager.EpollMask} {d : Direction} (ok : Bool)
    (hreal : mask.realStatus = d.status) :
    m.deliver fd mask ok =
      if ok && (m.contexts fd).statuses.has d then
        Manager.triggerIf { m with
          interest :=
            Function.update m.interest fd ((m.contexts fd).statuses.minus d.status).watch }
          fd true d.status
      else m := by
  rw [Manager.deliver, hreal]
  cases hhas : (m.contexts fd).statuses.has d with
  | false =>
      rw [Bool.and_false, if_pos (EventStatus.inter_status_eq_none.mpr hhas)]
      rfl
  | true =>
      rw [Bool.and_true, if_neg (fun h => by
        rw [EventStatus.inter_status_eq_none.mp h] at hhas
        cases hhas)]
      cases ok with
      | false => rfl
      | true =>
          simp only [epollCtl_modOrDel]
          cases d <;> rfl

/-- The outcome of delivering the events of a descriptor. -/
theorem deliver_outcome (m : Manager) (fd : Nat) (mask : Manager.EpollMask) (ok : Bool) :
    Outcome (.deliver fd mask ok) m (true, m.deliver fd mask ok) := by
  rcases realStatus_cases mask with hnone | ⟨d, hreal⟩
  · refine .inl ⟨by simp [Cmd.goesThrough, hnone, EventStatus.meets, EventStatus.inter_none], ?_⟩
    rw [deliver_none ok hnone]
    exact Still.refl m
  · rw [deliver_direction ok hreal]
    cases hhas : (m.contexts fd).statuses.has d with
    | false =>
        rw [Bool.and_false]
        exact .inl ⟨by simp [Cmd.goesThrough, hreal, EventStatus.meets_status, hhas], Still.refl m⟩
    | true =>
        cases ok with
        | false => exact .inl ⟨by simp [Cmd.goesThrough], Still.refl m⟩
        | true =>
            refine .inr ⟨by simp [Cmd.goesThrough, hreal, EventStatus.meets_status, hhas], rfl,
              _, _, .deliver hreal hhas, ?_⟩
            rw [Bool.and_true, if_pos rfl, triggerIf_registered (d := d) (by exact hhas)]
            exact fire_moves hhas rfl rfl rfl rfl rfl

/-- An operation changes nothing, or it goes through and has its effect. -/
theorem step_cases (m : Manager) (c : Cmd) (hsize : 128 ≤ m.size) : Outcome c m (step m c) := by
  cases c with
  | addEvent fd d cb caller ok => exact addEvent_outcome m fd d cb caller ok hsize
  | delEvent fd d ok => exact delEvent_outcome m fd d ok
  | cancelEvent fd d ok => exact cancelEvent_outcome m fd d ok
  | cancelAllEvent fd ok => exact cancelAllEvent_outcome m fd ok
  | deliver fd mask ok => exact deliver_outcome m fd mask ok

end Operations

end IOManager
end Tiger
