import Tiger.Timers.Manager

/-!
# The manager as a table of timers

What `TimerManager` is for, without the set: a table that says of each timer object whether
it is armed.  Here a timer expires because its deadline has come, not because of its place
in an order.  The manager refines this table: every operation does to the objects and to the
membership in `m_timers` what the table says.

Main results:

- Theorem `step_refines`: one operation of the manager is one operation of the table.
- Theorem `run_refines`: so are whole runs, and the set stays well formed.
- Theorem `timers_ordered_and_found`: the set is strictly ordered at all times and finds
  exactly the armed timers.
-/

namespace Tiger
namespace Timers

open Lib

variable {κ ω : Type}

/-! ## The table -/

/-- A timer object and whether it is armed. -/
structure Entry (κ ω : Type) where
  timer : Timer κ ω
  armed : Bool
  deriving DecidableEq, Repr

namespace Entry

variable (e : Entry κ ω)

/-- A different interval arms the timer again; the deadline stays. -/
def reset (interval : Int) : Entry κ ω :=
  if e.timer.interval = interval then e else ⟨{ e.timer with interval := interval }, true⟩

/-- Cancelling an armed timer takes its callback away. -/
def cancel : Entry κ ω := if e.armed then ⟨{ e.timer with cb := none }, false⟩ else e

/-- The timer is armed and its deadline has come. -/
def due (now : Int) : Bool := e.armed && decide (e.timer.nextTime ≤ now)

/-- A timer that is due is armed again if it is a loop, else it is done. -/
def expire (now : Int) : Entry κ ω :=
  if e.due now then
    if e.timer.loop then ⟨{ e.timer with nextTime := timeAdd e.timer.interval now }, true⟩
    else ⟨{ e.timer with cb := none }, false⟩
  else e

end Entry

/-- The table of all timers that were ever added. -/
abbrev Schedule (κ ω : Type) := Ptr → Option (Entry κ ω)

namespace Schedule

/-- The timer is armed. -/
def Armed (s : Schedule κ ω) (p : Ptr) : Prop := ∃ e, s p = some e ∧ e.armed = true

/-- An operation on the table. -/
def step (s : Schedule κ ω) : Cmd κ ω → Schedule κ ω
  | .addTimer p now interval cb loop =>
      Function.update s p (some ⟨⟨interval, loop, timeAdd now interval, cb⟩, true⟩)
  | .addCondTimer p now interval cb cond _ =>
      Function.update s p
        (some ⟨⟨interval, false, timeAdd now interval, some (.condTimer cond cb)⟩, true⟩)
  | .resetTimer p interval => Function.update s p ((s p).map (Entry.reset · interval))
  | .cancelTimer none => s
  | .cancelTimer (some p) => Function.update s p ((s p).map Entry.cancel)
  | .cancelAllTimer => fun p => (s p).map Entry.cancel
  | .allExpiredCbs now => fun p => (s p).map (Entry.expire · now)

/-- The table behind a sequence of operations. -/
def after (cmds : List (Cmd κ ω)) : Schedule κ ω := cmds.foldl step fun _ => none

end Schedule

/-! ## Well-formed managers -/

/-- The set is strictly ordered and holds timers only. -/
structure WellFormed (m : TimerManager κ ω) : Prop where
  ordered : OrderedSet.Ordered (below m.object) m.timers
  allocated : ∀ p ∈ m.timers, m.allocated p = true

/-- The two managers differ at one timer only. -/
structure Frame (p : Ptr) (m m' : TimerManager κ ω) : Prop where
  object : ∀ q, q ≠ p → m'.object q = m.object q
  allocated : ∀ q, q ≠ p → m'.allocated q = m.allocated q
  mem : ∀ q, q ≠ p → (q ∈ m'.timers ↔ q ∈ m.timers)

namespace TimerManager

variable (m : TimerManager κ ω)

/-- The table the manager stands for. -/
def schedule : Schedule κ ω := fun p =>
  if m.allocated p then some ⟨m.object p, decide (p ∈ m.timers)⟩ else none

@[simp]
theorem write_object (p : Ptr) (t : Timer κ ω) :
    (m.write p t).object = Function.update m.object p t :=
  rfl

@[simp]
theorem allocate_allocated (p : Ptr) (t : Timer κ ω) :
    (m.allocate p t).allocated = Function.update m.allocated p true :=
  rfl

@[simp]
theorem refreshIf_object (b : Bool) : (m.refreshIf b).object = m.object := by
  cases b <;> rfl

@[simp]
theorem refreshIf_allocated (b : Bool) : (m.refreshIf b).allocated = m.allocated := by
  cases b <;> rfl

@[simp]
theorem refreshIf_timers (b : Bool) : (m.refreshIf b).timers = m.timers := by
  cases b <;> rfl

@[simp]
theorem schedule_refreshIf (b : Bool) : (m.refreshIf b).schedule = m.schedule := by
  cases b <;> rfl

variable {m}

/-- A timer is armed when it is in the set. -/
theorem armed_schedule (hm : WellFormed m) (p : Ptr) : m.schedule.Armed p ↔ p ∈ m.timers := by
  rw [Schedule.Armed, schedule]
  constructor
  · rintro ⟨e, he, harmed⟩
    split at he
    · rw [← Option.some.inj he] at harmed
      exact of_decide_eq_true harmed
    · exact absurd he (by simp)
  · intro hmem
    rw [if_pos (hm.allocated p hmem)]
    exact ⟨_, rfl, decide_eq_true hmem⟩

/-- The lookup finds exactly the timers of the set. -/
theorem find_isSome_iff (hm : WellFormed m) (p : Ptr) :
    (m.find (some p)).isSome = true ↔ p ∈ m.timers := by
  rw [← OrderedSet.find_isSome_iff (k := p) hm.ordered, find]
  simp only [decide_below]

/-- `find` meets the end when the timer is not in the set. -/
theorem find_beq_none (hm : WellFormed m) (p : Ptr) :
    (m.find (some p) == none) = !decide (p ∈ m.timers) := by
  have h := find_isSome_iff hm p
  cases hfind : m.find (some p) with
  | none => simpa [hfind] using h
  | some x => simpa [hfind] using h

/-- A null pointer is not found. -/
theorem find_null : m.find none = none :=
  OrderedSet.find_eq_none_of_before fun _ _ => rfl

end TimerManager

open TimerManager

/-! ## Pieces of the operations -/

section Pieces

variable {m m₁ m₂ : TimerManager κ ω} {p : Ptr}

/-- Changes of one timer add up to one. -/
theorem Frame.trans (h₁ : Frame p m m₁) (h₂ : Frame p m₁ m₂) : Frame p m m₂ where
  object q hq := (h₂.object q hq).trans (h₁.object q hq)
  allocated q hq := (h₂.allocated q hq).trans (h₁.allocated q hq)
  mem q hq := (h₂.mem q hq).trans (h₁.mem q hq)

theorem Frame.refreshIf (b : Bool) : Frame p m (m.refreshIf b) := by
  constructor <;> simp

/-- A write changes only its timer. -/
theorem Frame.write (t : Timer κ ω) : Frame p m (m.write p t) where
  object q hq := by rw [write_object, Function.update_of_ne hq]
  allocated _ _ := rfl
  mem _ _ := Iff.rfl

/-- An allocation changes only its timer. -/
theorem Frame.allocate {t : Timer κ ω} : Frame p m (m.allocate p t) where
  object := (Frame.write t).object
  allocated q hq := by rw [allocate_allocated, Function.update_of_ne hq]
  mem _ _ := Iff.rfl

/-- An insertion changes only its timer. -/
theorem Frame.insert : Frame p m (m.insert p) where
  object _ _ := rfl
  allocated _ _ := rfl
  mem q hq := by
    rw [TimerManager.insert, OrderedSet.mem_insert]
    simp [hq]

/-- An erasure changes only its timer. -/
theorem Frame.erase (hm : WellFormed m) : Frame p m (m.erase p) where
  object _ _ := rfl
  allocated _ _ := rfl
  mem q hq := by
    rw [TimerManager.erase, OrderedSet.mem_erase hm.ordered]
    simp [hq]

theorem WellFormed.refreshIf (hm : WellFormed m) (b : Bool) : WellFormed (m.refreshIf b) := by
  cases b <;> exact ⟨hm.ordered, hm.allocated⟩

/-- The deadline of a timer may only change while it is not in the set. -/
theorem WellFormed.write (hm : WellFormed m) {t : Timer κ ω}
    (hkeep : p ∈ m.timers → t.nextTime = (m.object p).nextTime) : WellFormed (m.write p t) where
  ordered := by
    have hsame : ∀ q ∈ m.timers,
        (m.object q).nextTime = (Function.update m.object p t q).nextTime := by
      intro q hq
      by_cases hqp : q = p
      · subst hqp
        rw [Function.update_self, hkeep hq]
      · rw [Function.update_of_ne hqp]
    exact hm.ordered.congr fun x hx y hy => below_congr (hsame x hx) (hsame y hy)
  allocated := hm.allocated

/-- A timer that is not in the set can be allocated. -/
theorem WellFormed.allocate (hm : WellFormed m) (hp : p ∉ m.timers) {t : Timer κ ω} :
    WellFormed (m.allocate p t) where
  ordered := (hm.write fun hmem => absurd hmem hp).ordered
  allocated q hq := by
    rw [allocate_allocated]
    by_cases hqp : q = p
    · rw [hqp, Function.update_self]
    · rw [Function.update_of_ne hqp, hm.allocated q hq]

/-- An allocated timer can be inserted. -/
theorem WellFormed.insert (hm : WellFormed m) (hp : m.allocated p = true) :
    WellFormed (m.insert p) where
  ordered := OrderedSet.insert_ordered hm.ordered
  allocated q hq := by
    rcases (OrderedSet.mem_insert q).mp hq with rfl | hq
    · exact hp
    · exact hm.allocated q hq

theorem WellFormed.erase (hm : WellFormed m) : WellFormed (m.erase p) where
  ordered := OrderedSet.erase_ordered hm.ordered
  allocated q hq := hm.allocated q (OrderedSet.erase_sublist.mem hq)

theorem mem_insert_self : p ∈ (m.insert p).timers := (OrderedSet.mem_insert p).mpr (Or.inl rfl)

theorem not_mem_erase_self (hm : WellFormed m) : p ∉ (m.erase p).timers := by
  intro hp
  exact ((OrderedSet.mem_erase hm.ordered p).mp hp).2 rfl

/-- What changes at one timer only changes one line of the table. -/
theorem Frame.schedule_eq (h : Frame p m m₁) :
    m₁.schedule = Function.update m.schedule p (m₁.schedule p) := by
  ext1 q
  by_cases hq : q = p
  · rw [hq, Function.update_self]
  · rw [Function.update_of_ne hq, schedule, schedule, h.object q hq, h.allocated q hq]
    simp only [h.mem q hq]

/-- The line of a timer that is not in the set. -/
theorem schedule_of_not_mem (hp : m.allocated p = true) (hmem : p ∉ m.timers) :
    m.schedule p = some ⟨m.object p, false⟩ := by
  rw [schedule, if_pos hp, decide_eq_false hmem]

/-- The line of a timer in the set. -/
theorem schedule_of_mem (hp : m.allocated p = true) (hmem : p ∈ m.timers) :
    m.schedule p = some ⟨m.object p, true⟩ := by
  rw [schedule, if_pos hp, decide_eq_true hmem]

/-- A schedule entry is the timer and whether it is in the set. -/
theorem of_schedule {t : Timer κ ω} {b : Bool} (h : m.schedule p = some ⟨t, b⟩) :
    m.object p = t ∧ decide (p ∈ m.timers) = b := by
  rw [schedule] at h
  split_ifs at h
  exact Entry.mk.inj (Option.some.inj h)

/-- The line of a timer that was just inserted. -/
theorem schedule_insert_self (hp : m.allocated p = true) :
    (m.insert p).schedule p = some ⟨m.object p, true⟩ :=
  schedule_of_mem (m := m.insert p) hp mem_insert_self

end Pieces

/-! ## The operations -/

section Operations

variable {m : TimerManager κ ω} {p : Ptr}

/-- What an operation on one timer does. -/
structure Acts (p : Ptr) (e : Option (Entry κ ω)) (m m' : TimerManager κ ω) : Prop where
  wellFormed : WellFormed m'
  schedule : m'.schedule = Function.update m.schedule p e

theorem Frame.acts {m' : TimerManager κ ω} {e : Option (Entry κ ω)} (h : Frame p m m')
    (hm' : WellFormed m') (he : m'.schedule p = e) : Acts p e m m' :=
  ⟨hm', he ▸ h.schedule_eq⟩

theorem Acts.refreshIf {m' : TimerManager κ ω} {e : Option (Entry κ ω)} (h : Acts p e m m')
    (b : Bool) : Acts p e m (m'.refreshIf b) :=
  ⟨h.wellFormed.refreshIf b, (m'.schedule_refreshIf b).trans h.schedule⟩

/-- `add_timer` arms a new timer. -/
theorem addTimer_acts (hm : WellFormed m) (hp : m.allocated p = false) (now interval : Int)
    (cb : Option (Callback κ ω)) (loop : Bool) :
    Acts p (some ⟨⟨interval, loop, timeAdd now interval, cb⟩, true⟩) m
      (m.addTimer p now interval cb loop) := by
  have hout : p ∉ m.timers := by
    intro hmem
    rw [hm.allocated p hmem] at hp
    exact absurd hp (by simp)
  apply Acts.refreshIf
  have hnew : ∀ t, (m.allocate p t).allocated p = true := by simp
  apply Frame.acts (Frame.allocate.trans Frame.insert) ((hm.allocate hout).insert (hnew _))
  rw [schedule_insert_self (hnew _)]
  simp [allocate]

/-- `reset_timer` on a timer. -/
theorem resetTimer_acts (hm : WellFormed m) (hp : m.allocated p = true) (interval : Int) :
    Acts p ((m.schedule p).map (Entry.reset · interval)) m (m.resetTimer p interval) := by
  have hline : m.schedule p = some ⟨m.object p, decide (p ∈ m.timers)⟩ := if_pos hp
  rw [hline, Option.map_some, Entry.reset, resetTimer]
  split_ifs with hsame
  · exact ⟨hm, by rw [← hline, Function.update_eq_self]⟩
  · apply Acts.refreshIf
    have hwrite : WellFormed (m.write p { m.object p with interval := interval }) :=
      hm.write fun _ => rfl
    have hframe : Frame p m (m.write p { m.object p with interval := interval }) := Frame.write _
    split_ifs
    · apply Frame.acts (hframe.trans Frame.insert) (hwrite.insert hp)
      rw [schedule_insert_self (m := m.write p _) hp]
      simp
    · apply Frame.acts ((hframe.trans (Frame.erase hwrite)).trans Frame.insert)
        (hwrite.erase.insert hp)
      rw [schedule_insert_self (m := (m.write p _).erase p) hp]
      simp [TimerManager.erase]

/-- Take a timer out of the set and empty its callback. -/
theorem eraseClear_acts (hm : WellFormed m) (hp : m.allocated p = true) :
    Acts p (some ⟨{ m.object p with cb := none }, false⟩) m ((m.erase p).clearCb p) := by
  have hwf : WellFormed ((m.erase p).clearCb p) := hm.erase.write fun _ => rfl
  have hframe : Frame p m ((m.erase p).clearCb p) := (Frame.erase hm).trans (Frame.write _)
  apply hframe.acts hwf
  rw [schedule_of_not_mem (m := (m.erase p).clearCb p) hp (not_mem_erase_self hm)]
  simp [clearCb, TimerManager.erase]

/-- `cancel_timer` on a timer. -/
theorem cancelTimer_acts (hm : WellFormed m) (hp : m.allocated p = true) :
    Acts p ((m.schedule p).map Entry.cancel) m (m.cancelTimer (some p)).2 := by
  rw [cancelTimer]
  simp only [find_beq_none hm]
  by_cases hmem : p ∈ m.timers
  · rw [schedule_of_mem hp hmem]
    simp only [hmem, decide_true, Bool.not_true, Bool.false_eq_true, if_false, Option.map_some]
    exact (eraseClear_acts hm hp).refreshIf _
  · rw [schedule_of_not_mem hp hmem]
    simp only [hmem, decide_false, Bool.not_false, if_true, Option.map_some]
    refine ⟨hm, ?_⟩
    rw [Entry.cancel, if_neg (by simp), ← schedule_of_not_mem hp hmem, Function.update_eq_self]

/-- `all_expired_cbs` for one timer of the set whose deadline has come. -/
theorem expireOne_acts (hm : WellFormed m) (hmem : p ∈ m.timers) {now : Int}
    (hdue : (m.object p).nextTime ≤ now) :
    Acts p ((m.schedule p).map (Entry.expire · now)) m (m.expireOne now p) := by
  have hp := hm.allocated p hmem
  have hentry : (m.schedule p).map (Entry.expire · now) =
      some (if (m.object p).loop then
        ⟨{ m.object p with nextTime := timeAdd (m.object p).interval now }, true⟩
        else ⟨{ m.object p with cb := none }, false⟩) := by
    rw [schedule_of_mem hp hmem, Option.map_some, Entry.expire, if_pos (by simp [Entry.due, hdue])]
  rw [hentry]
  by_cases hloop : (m.object p).loop = true
  · have heq : m.expireOne now p = ((m.erase p).write p
        { m.object p with nextTime := timeAdd (m.object p).interval now }).insert p :=
      if_pos hloop
    rw [heq, if_pos hloop]
    have hwrite : WellFormed ((m.erase p).write p
        { m.object p with nextTime := timeAdd (m.object p).interval now }) :=
      hm.erase.write fun hin => absurd hin (not_mem_erase_self hm)
    apply Frame.acts (((Frame.erase hm).trans (Frame.write _)).trans Frame.insert)
      (hwrite.insert hp)
    rw [schedule_insert_self (m := (m.erase p).write p _) hp]
    simp
  · have heq : m.expireOne now p = (m.erase p).clearCb p := if_neg hloop
    rw [heq, if_neg hloop]
    exact eraseClear_acts hm hp

/-- The loop of `cancel_all_timer` empties the callbacks of the timers it goes through. -/
theorem cancelLoop_fields {ps : List Ptr} (hps : m.timers = ps) :
    (cancelLoop m ps).timers = [] ∧ (cancelLoop m ps).allocated = m.allocated ∧
      ∀ q, (cancelLoop m ps).object q =
        if q ∈ ps then { m.object q with cb := none } else m.object q := by
  induction ps generalizing m with
  | nil => exact ⟨hps, rfl, fun q => (if_neg List.not_mem_nil).symm⟩
  | cons p ps ih =>
      have h := ih (m := { m.clearCb p with timers := ps }) rfl
      refine ⟨h.1, h.2.1, ?_⟩
      intro q
      rw [cancelLoop, h.2.2 q]
      by_cases hqp : q = p
      · subst hqp
        simp [clearCb]
      · simp [clearCb, hqp]

/-- `cancel_all_timer`. -/
theorem cancelAllTimer_schedule (hm : WellFormed m) :
    WellFormed m.cancelAllTimer ∧
      m.cancelAllTimer.schedule = fun p => (m.schedule p).map Entry.cancel := by
  rcases cancelLoop_fields (m := m) rfl with ⟨htimers, halloc, hobject⟩
  constructor
  · apply WellFormed.refreshIf
    constructor
    · rw [htimers]
      exact List.Pairwise.nil
    · rw [htimers]
      exact fun p hp => absurd hp List.not_mem_nil
  · ext1 q
    rw [cancelAllTimer, schedule_refreshIf, schedule, schedule, halloc, htimers, hobject]
    by_cases hq : m.allocated q = true
    · by_cases hmem : q ∈ m.timers
      · simp [hq, hmem, Entry.cancel]
      · simp [hq, hmem, Entry.cancel]
    · have hmem : q ∉ m.timers := fun hmem => hq (hm.allocated q hmem)
      simp [hq]

/-- The scan of `all_expired_cbs` finds all timers whose deadline has come. -/
theorem mem_expiredTimers (hm : WellFormed m) (now : Int) (p : Ptr) :
    p ∈ m.expiredTimers now ↔ p ∈ m.timers ∧ (m.object p).nextTime ≤ now := by
  rw [expiredTimers, OrderedSet.mem_takeWhile_iff hm.ordered]
  · simp
  · intro x y hxy hy
    rw [below_iff] at hxy
    simp only [gt_iff_lt, Bool.not_eq_true', decide_eq_false_iff_not, not_lt] at hy ⊢
    omega

theorem expiredTimers_nodup (hm : WellFormed m) (now : Int) : (m.expiredTimers now).Nodup :=
  hm.ordered.nodup.sublist (List.takeWhile_sublist _)

/-- The second loop of `all_expired_cbs` expires the timers it goes through. -/
theorem expireLoop_schedule (hm : WellFormed m) {now : Int} {ps : List Ptr} (hnodup : ps.Nodup)
    (hdue : ∀ p ∈ ps, p ∈ m.timers ∧ (m.object p).nextTime ≤ now) :
    WellFormed (expireLoop now m ps).2 ∧
      (expireLoop now m ps).1 = ps.map (fun p => (m.object p).cb) ∧
      ∀ q, (expireLoop now m ps).2.schedule q =
        if q ∈ ps then (m.schedule q).map (Entry.expire · now) else m.schedule q := by
  induction ps generalizing m with
  | nil => exact ⟨hm, rfl, fun q => (if_neg List.not_mem_nil).symm⟩
  | cons p ps ih =>
      rcases List.nodup_cons.mp hnodup with ⟨hp, hps⟩
      have hfirst := hdue p List.mem_cons_self
      have hacts := expireOne_acts hm hfirst.1 hfirst.2
      -- the timers that follow are other ones, so they are still in the set and still due
      have hline : ∀ q ∈ ps, (m.expireOne now p).schedule q = m.schedule q := by
        intro q hq
        rw [hacts.schedule, Function.update_of_ne (ne_of_mem_of_not_mem hq hp)]
      have hsame : ∀ q ∈ ps, (m.expireOne now p).object q = m.object q ∧
          decide (q ∈ (m.expireOne now p).timers) = true := by
        intro q hq
        have hq' := (hdue q (List.mem_cons_of_mem p hq)).1
        have heq := hline q hq
        rw [schedule_of_mem (hm.allocated q hq') hq'] at heq
        exact of_schedule heq
      have hrest : ∀ q ∈ ps, q ∈ (m.expireOne now p).timers ∧
          ((m.expireOne now p).object q).nextTime ≤ now := by
        intro q hq
        rw [(hsame q hq).1]
        exact ⟨of_decide_eq_true (hsame q hq).2, (hdue q (List.mem_cons_of_mem p hq)).2⟩
      rcases ih hacts.wellFormed hps hrest with ⟨hwf, hcbs, hschedule⟩
      refine ⟨hwf, ?_, ?_⟩
      · rw [expireLoop, List.map_cons]
        simp only [hcbs]
        rw [List.map_congr_left fun q hq => congrArg Timer.cb (hsame q hq).1]
      · intro q
        rw [expireLoop, hschedule q, hacts.schedule]
        by_cases hqp : q = p
        · subst hqp
          simp [hp]
        · simp [hqp]

/-- Without timers there is nothing to scan. -/
theorem allExpiredCbs_eq (m : TimerManager κ ω) (now : Int) :
    m.allExpiredCbs now = expireLoop now m (m.expiredTimers now) := by
  rw [allExpiredCbs]
  split_ifs with hempty
  · rw [expiredTimers, List.isEmpty_iff.mp hempty]
    rfl
  · rfl

/-- `all_expired_cbs` appends the callbacks of the timers it found. -/
theorem allExpiredCbs_fst (hm : WellFormed m) (now : Int) :
    (m.allExpiredCbs now).1 = (m.expiredTimers now).map fun p => (m.object p).cb := by
  rw [allExpiredCbs_eq]
  exact (expireLoop_schedule hm (expiredTimers_nodup hm now)
    fun p hp => (mem_expiredTimers hm now p).mp hp).2.1

/-- `all_expired_cbs`. -/
theorem allExpiredCbs_schedule (hm : WellFormed m) (now : Int) :
    WellFormed (m.allExpiredCbs now).2 ∧
      (m.allExpiredCbs now).2.schedule = fun p => (m.schedule p).map (Entry.expire · now) := by
  have hloop := expireLoop_schedule hm (expiredTimers_nodup hm now)
    fun p hp => (mem_expiredTimers hm now p).mp hp
  rw [allExpiredCbs_eq]
  refine ⟨hloop.1, ?_⟩
  ext1 q
  rw [hloop.2.2 q]
  split_ifs with hq
  · rfl
  · rw [mem_expiredTimers hm] at hq
    rw [schedule]
    split_ifs with halloc
    · rw [Option.map_some, Entry.expire, if_neg]
      simpa [Entry.due] using hq
    · rfl

end Operations

/-! ## Runs -/

/-- One operation of the manager is one operation of the table. -/
theorem step_refines {m m' : TimerManager κ ω} (hm : WellFormed m) {c : Cmd κ ω}
    (hstep : step m c = some m') : WellFormed m' ∧ m'.schedule = m.schedule.step c := by
  rw [step] at hstep
  split_ifs at hstep with hallowed
  rw [← Option.some.inj hstep]
  cases c with
  | addTimer p now interval cb loop =>
      have h := addTimer_acts hm (by simpa [Cmd.allowed] using hallowed) now interval cb loop
      exact ⟨h.wellFormed, h.schedule⟩
  | addCondTimer p now interval cb cond loop =>
      have h := addTimer_acts hm (by simpa [Cmd.allowed] using hallowed) now interval
        (some (.condTimer cond cb)) false
      exact ⟨h.wellFormed, h.schedule⟩
  | resetTimer p interval =>
      have h := resetTimer_acts hm hallowed interval
      exact ⟨h.wellFormed, h.schedule⟩
  | cancelTimer timer =>
      cases timer with
      | none => exact ⟨hm, rfl⟩
      | some p =>
          have h := cancelTimer_acts hm hallowed
          exact ⟨h.wellFormed, h.schedule⟩
  | cancelAllTimer => exact cancelAllTimer_schedule hm
  | allExpiredCbs now => exact allExpiredCbs_schedule hm now

theorem new_wellFormed : WellFormed (TimerManager.new : TimerManager κ ω) :=
  ⟨List.Pairwise.nil, fun _ hp => absurd hp List.not_mem_nil⟩

/-- A run of the manager is a run of the table. -/
theorem run_refines {cmds : List (Cmd κ ω)} {m m' : TimerManager κ ω} (hm : WellFormed m)
    (hrun : runSteps step m cmds = some m') :
    WellFormed m' ∧ m'.schedule = cmds.foldl Schedule.step m.schedule := by
  induction cmds generalizing m with
  | nil =>
      cases hrun
      exact ⟨hm, rfl⟩
  | cons c cmds ih =>
      rcases Option.bind_eq_some_iff.mp hrun with ⟨m₁, hfirst, hrest⟩
      rcases step_refines hm hfirst with ⟨hm₁, hschedule⟩
      rcases ih hm₁ hrest with ⟨hm', heq⟩
      exact ⟨hm', by rw [heq, hschedule, List.foldl_cons]⟩

/-- `cancel_timer` succeeds exactly on the timers in the set. -/
theorem cancelTimer_fst {m : TimerManager κ ω} (hm : WellFormed m) (p : Ptr) :
    (m.cancelTimer (some p)).1 = true ↔ p ∈ m.timers := by
  rw [cancelTimer]
  simp only [find_beq_none hm]
  by_cases hmem : p ∈ m.timers <;> simp [hmem]

/-- Along every run of operations, with any intervals and any clock readings, no timer stands
twice in `m_timers`, it is strictly ordered by the comparator, and `find`, `is_valid_timer` and
`cancel_timer` succeed exactly for the timers that are armed. -/
theorem timers_ordered_and_found (cmds : List (Cmd κ ω)) (m : TimerManager κ ω)
    (hrun : runSteps step TimerManager.new cmds = some m) :
    m.timers.Nodup ∧ m.timers.Pairwise (below m.object) ∧
      (∀ p, (m.find (some p)).isSome = true ↔ (Schedule.after cmds).Armed p) ∧
      (∀ p, m.isValidTimer (some p) = true ↔ (Schedule.after cmds).Armed p) ∧
      (∀ p, (m.cancelTimer (some p)).1 = true ↔ (Schedule.after cmds).Armed p) ∧
      m.isValidTimer none = false ∧ (m.cancelTimer none).1 = false := by
  rcases run_refines new_wellFormed hrun with ⟨hm, hschedule⟩
  have harmed : ∀ p, p ∈ m.timers ↔ (Schedule.after cmds).Armed p := by
    intro p
    rw [← armed_schedule hm, hschedule]
    rfl
  refine ⟨hm.ordered.nodup, hm.ordered, ?_, ?_, ?_, ?_, rfl⟩
  · intro p
    rw [find_isSome_iff hm, harmed]
  · intro p
    rw [isValidTimer, find_beq_none hm, Bool.not_not, decide_eq_true_iff, harmed]
  · intro p
    rw [cancelTimer_fst hm, harmed]
  · rw [isValidTimer, find_null]
    rfl

/-- Two timers with one deadline, of which the loop is armed again by the poll and the other is
reset behind it. -/
theorem timers_ordered_and_found_run :
    ∃ m : TimerManager Nat Nat, runSteps step TimerManager.new
        [.addTimer 2 0 5 (some (.function 7)) true, .addCondTimer 1 0 5 (some 8) 3 true,
          .allExpiredCbs 6, .resetTimer 1 4] = some m ∧
      m.timers = [1, 2] ∧ m.timers.Nodup ∧ m.timers.Pairwise (below m.object) :=
  have h := timers_ordered_and_found (κ := Nat) (ω := Nat)
    [.addTimer 2 0 5 (some (.function 7)) true, .addCondTimer 1 0 5 (some 8) 3 true,
      .allExpiredCbs 6, .resetTimer 1 4] _ rfl
  ⟨_, rfl, by decide, h.1, h.2.1⟩

end Timers
end Tiger
