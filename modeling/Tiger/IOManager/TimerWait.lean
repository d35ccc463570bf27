import Tiger.Timers.Schedule

/-!
# IOManager - waiting for timers

A worker in `IOManager::idle` (`src/iomanager.cc`) reads how long the first timer still has
(`next_timer_left_time`, `src/timer.cc`), counts itself in `m_idle_cnt`, and waits in
`epoll_wait` for that long, at most `EPOLL_MAX_TIMEOUT`.  Who brings a timer to the front calls
`on_timer_refresh` under the lock of the timers, and that writes a byte to the pipe if it finds a
worker counted.

A worker that has read the time and is not yet counted is not seen.  The invariant says who
wakes up for a timer: a worker that is up, a byte in the pipe, or a wait that ends in time.
Every step keeps it but one, the test of `on_timer_refresh` while all workers are in that gap.
Tasks are not part of the model: any thread may operate on timers and write to the pipe.

Main results:

- Theorem `quiet_behind`: an operation that does not call `on_timer_refresh` leaves every timer
  behind one that was there.
- Theorem `step_keeps`: the step lemma.
- Theorem `timers_covered_iff`: in which runs somebody wakes up for every timer, all along.
- Theorem `timer_overslept`: a run with a timer that nobody wakes up for.
-/

namespace Tiger
namespace IOManager
namespace TimerWait

open Lib Timers

variable {κ ω ι : Type}

/-! ## The timeout -/

/-- `EPOLL_MAX_TIMEOUT` -/
def epollMaxTimeout : Int := 5000

/-- `next_timer_left_time()` -/
def nextTimerLeftTime (m : TimerManager κ ω) (now : Int) : Int :=
  match m.timers with
  | [] => -1
  | p :: _ =>
      if now ≥ (m.object p).nextTime then 0
      else
        let leftTime := ((m.object p).nextTime - now).bmod (2 ^ 64)
        if leftTime < 0 then 0 else leftTime

/-- The timeout that `idle` passes to `epoll_wait`. -/
def epollTimeout (m : TimerManager κ ω) (now : Int) : Int :=
  let nextTime := nextTimerLeftTime m now
  let nextTime := if nextTime < 0 then epollMaxTimeout else nextTime
  if nextTime > epollMaxTimeout then epollMaxTimeout else nextTime

/-! ## Workers -/

/-- What `epoll_wait` brings: its result, and whether the pipe is among the events. -/
structure Events where
  rt : Int
  tickled : Bool

/-- Where a worker is. -/
inductive WorkerPC
  /-- in `run`, in a coroutine, or in front of `next_timer_left_time` -/
  | head
  /-- in front of `++m_idle_cnt`, with the clock reading and the timeout -/
  | measured (now timeout : Int)
  /-- in `epoll_wait` -/
  | waiting (now timeout : Int)
  /-- in front of `--m_idle_cnt` -/
  | woken (e : Events)
  /-- in front of the test of the inner loop -/
  | test (e : Events)
  /-- in front of `all_expired_cbs` -/
  | expire (e : Events)
  /-- in the loop that empties the pipe -/
  | drain
  /-- in front of the last test of a round -/
  | exitTest
  | left

/-- Counted in `m_idle_cnt`. -/
def WorkerPC.isCounted : WorkerPC → Bool
  | .waiting .. | .woken _ => true
  | _ => false

/-- The worker looks at the timers again before it waits, or its wait ends at a deadline. -/
def WorkerPC.covers (deadline : Int) : WorkerPC → Bool
  | .measured now timeout | .waiting now timeout =>
      decide (timeout = 0) || decide (now + timeout ≤ deadline)
  | .left => false
  | _ => true

/-- The lock of the timers, with where `on_timer_refresh` is. -/
inductive Lock
  | free
  /-- in front of `has_idel_thread()` -/
  | refreshTest
  /-- in front of `write(m_tickle_fds[1], "T", 1)` -/
  | refreshWrite
  deriving DecidableEq

/-- What the threads share. -/
structure Shared (κ ω : Type) where
  manager : TimerManager κ ω
  lock : Lock
  /-- `m_idle_cnt` -/
  idleCnt : Nat
  /-- the bytes in the pipe -/
  pipe : Nat
  /-- `m_is_stopping` -/
  isStopping : Bool

/-- The deadline of a timer. -/
def Shared.deadline (g : Shared κ ω) (p : Ptr) : Int := (g.manager.object p).nextTime

/-- The steps of a worker, with the readings of the clock and the choices of the system. -/
inductive WorkerAction
  | measure (now : Int)
  | count
  | wake (e : Events)
  | uncount
  | test (now : Int)
  | expire (now : Int)
  | read
  | exitTest (leave : Bool)

/-- A step of `idle`; `none` where it cannot be taken. -/
def workerStep (g : Shared κ ω) : WorkerPC → WorkerAction → Option (Shared κ ω × WorkerPC)
  | .head, .measure now =>
      if g.lock = .free then some (g, .measured now (epollTimeout g.manager now)) else none
  | .measured now timeout, .count =>
      some ({ g with idleCnt := g.idleCnt + 1 }, .waiting now timeout)
  | .waiting _ _, .wake e =>
      if e.tickled = true → 0 < e.rt ∧ 0 < g.pipe then some (g, .woken e) else none
  | .woken e, .uncount => some ({ g with idleCnt := g.idleCnt - 1 }, .test e)
  | .test e, .test now =>
      if 0 < e.rt then some (g, .expire e)
      else if g.lock = .free then
        if nextTimerLeftTime g.manager now ≤ 0 ∨ g.isStopping = true then some (g, .expire e)
        else some (g, .head)
      else none
  | .expire e, .expire now =>
      if g.lock = .free then
        some ({ g with manager := (g.manager.allExpiredCbs now).2 },
          if e.tickled then .drain else .exitTest)
      else none
  | .drain, .read =>
      if 0 < g.pipe then some ({ g with pipe := g.pipe - 1 }, .drain)
      else some (g, .exitTest)
  | .exitTest, .exitTest leave =>
      if leave then if g.isStopping then some (g, .left) else none else some (g, .head)
  | _, _ => none

/-! ## The system -/


/-- An `IOManager` with its workers. -/
structure State (κ ω ι : Type) where
  shared : Shared κ ω
  threads : ι → WorkerPC

/-- The steps. -/
inductive Action (κ ω ι : Type)
  | worker (i : ι) (a : WorkerAction)
  /-- `add_timer`, `add_cond_timer`, `reset_timer`, `cancel_timer` or `cancel_all_timer` -/
  | timer (c : Timers.Cmd κ ω)
  /-- `has_idel_thread()` in `on_timer_refresh` -/
  | refreshTest
  /-- `write` in `on_timer_refresh` -/
  | refreshWrite
  /-- `write` in `tickle` for a task -/
  | tickle
  | stop

/-- Only `idle` calls `all_expired_cbs`. -/
def callable : Timers.Cmd κ ω → Bool
  | .allExpiredCbs _ => false
  | _ => true

/-- An operation on the timers; it keeps the lock while it calls `on_timer_refresh`. -/
def Shared.timer (g : Shared κ ω) (c : Timers.Cmd κ ω) : Option (Shared κ ω) :=
  if g.lock = .free ∧ callable c = true then
    (Timers.step g.manager c).map fun m =>
      { g with
        manager := m
        lock := if m.refreshes = g.manager.refreshes then .free else .refreshTest }
  else none

section Step

variable [DecidableEq ι]

/-- One step of the system. -/
def step (s : State κ ω ι) : Action κ ω ι → Option (State κ ω ι)
  | .worker i a =>
      (workerStep s.shared (s.threads i) a).map fun r =>
        ⟨r.1, Function.update s.threads i r.2⟩
  | .timer c => (s.shared.timer c).map fun g => { s with shared := g }
  | .refreshTest =>
      if s.shared.lock = .refreshTest then
        some { s with shared := { s.shared with
          lock := if 0 < s.shared.idleCnt then .refreshWrite else .free } }
      else none
  | .refreshWrite =>
      if s.shared.lock = .refreshWrite then
        some { s with shared := { s.shared with lock := .free, pipe := s.shared.pipe + 1 } }
      else none
  | .tickle => some { s with shared := { s.shared with pipe := s.shared.pipe + 1 } }
  | .stop => some { s with shared := { s.shared with isStopping := true } }

end Step

/-- Nobody has come to `idle`, and there are no timers. -/
def initial : State κ ω ι := ⟨⟨TimerManager.new, .free, 0, 0, false⟩, fun _ => .head⟩

/-! ## Who wakes up -/

/-- Somebody looks at the timers again by a deadline. -/
def State.CoveredAt (s : State κ ω ι) (deadline : Int) : Prop :=
  0 < s.shared.pipe ∨ ∃ i, (s.threads i).covers deadline = true

/-- Somebody looks at the timers again by the deadline of each of them. -/
def State.Covered (s : State κ ω ι) : Prop :=
  ∀ p ∈ s.shared.manager.timers, s.CoveredAt (s.shared.deadline p)

/-- `on_timer_refresh` finds no worker counted, and nobody looks at the timer in front again by
its deadline. -/
def State.Missed (s : State κ ω ι) : Prop :=
  s.shared.idleCnt = 0 ∧ ∃ p ∈ s.shared.manager.timers.head?, ¬s.CoveredAt (s.shared.deadline p)

instance [Fintype ι] (s : State κ ω ι) (deadline : Int) : Decidable (s.CoveredAt deadline) :=
  inferInstanceAs (Decidable (_ ∨ _))

instance [Fintype ι] (s : State κ ω ι) : Decidable s.Missed :=
  inferInstanceAs (Decidable (_ ∧ ∃ p, p ∈ s.shared.manager.timers.head? ∧ _))

/-- The step is no test of `on_timer_refresh` that misses the workers. -/
def heard [Fintype ι] (s : State κ ω ι) : Action κ ω ι → Bool
  | .refreshTest => !decide s.Missed
  | _ => true

/-- A wait that covers a deadline covers later ones. -/
theorem WorkerPC.covers_mono {d d' : Int} (hle : d ≤ d') {pc : WorkerPC}
    (h : pc.covers d = true) : pc.covers d' = true := by
  cases pc with
  | measured now timeout =>
      simp only [covers, Bool.or_eq_true, decide_eq_true_eq] at h ⊢
      omega
  | waiting now timeout =>
      simp only [covers, Bool.or_eq_true, decide_eq_true_eq] at h ⊢
      omega
  | _ => exact h

theorem State.CoveredAt.mono {s : State κ ω ι} {d d' : Int} (h : s.CoveredAt d) (hle : d ≤ d') :
    s.CoveredAt d' :=
  h.imp_right fun ⟨i, hi⟩ => ⟨i, WorkerPC.covers_mono hle hi⟩

/-! ## Operations on the timers -/

/-- Every timer of `m'` is behind one of `m`. -/
def Behind (m m' : TimerManager κ ω) : Prop :=
  ∀ p ∈ m'.timers, ∃ q ∈ m.timers, (m.object q).nextTime ≤ (m'.object p).nextTime

section Operations

variable {m m' : TimerManager κ ω} {p : Ptr}

/-- The first timer has the first deadline. -/
theorem head_le (hm : WellFormed m) (hhead : p ∈ m.timers.head?) {q : Ptr} (hq : q ∈ m.timers) :
    (m.object p).nextTime ≤ (m.object q).nextTime := by
  cases htimers : m.timers with
  | nil => simp [htimers] at hhead
  | cons f rest =>
      rw [htimers] at hhead hq
      rw [List.head?_cons, Option.mem_some_iff] at hhead
      subst hhead
      have hordered := hm.ordered
      rw [htimers] at hordered
      rcases List.mem_cons.mp hq with rfl | hmem
      · exact le_rfl
      · rcases below_iff.mp ((List.pairwise_cons.mp hordered).1 q hmem) with hlt | heq
        · exact hlt.le
        · exact heq.1.le

/-- A timer of the set is found. -/
theorem find_self (hm : WellFormed m) (hp : p ∈ m.timers) : m.find (some p) = some p := by
  have hfind := OrderedSet.find_eq_self hm.ordered hp
  simp only [decide_below] at hfind
  exact hfind

theorem Behind.of_subset (hsub : ∀ q ∈ m'.timers, q ∈ m.timers)
    (hsame : ∀ q, (m'.object q).nextTime = (m.object q).nextTime) : Behind m m' :=
  fun q hq => ⟨q, hsub q hq, (hsame q).ge⟩

/-- A timer that is put into the set, but not to its front. -/
theorem Behind.of_insert (hm' : WellFormed m') (hfront : m'.timers.head? ≠ some p)
    (hmem : ∀ q ∈ m'.timers, q ≠ p → q ∈ m.timers)
    (hsame : ∀ q, q ≠ p → (m'.object q).nextTime = (m.object q).nextTime) : Behind m m' := by
  intro q hq
  by_cases hqp : q = p
  · subst hqp
    cases hhead : m'.timers.head? with
    | none => simp [List.head?_eq_none_iff.mp hhead] at hq
    | some f =>
        rw [hhead] at hfront
        have hne : f ≠ q := fun heq => hfront (congrArg some heq)
        have hf : f ∈ m'.timers := List.mem_of_mem_head? hhead
        refine ⟨f, hmem f hf hne, ?_⟩
        rw [← hsame f hne]
        exact head_le hm' hhead hq
  · exact ⟨q, hmem q hq hqp, (hsame q hqp).ge⟩

/-- Counting a call of `on_timer_refresh`. -/
theorem refreshIf_refreshes (b : Bool) : (m.refreshIf b).refreshes = m.refreshes + b.toNat := by
  cases b <;> rfl

/-- Without a refresh, the flag was not set. -/
theorem refreshIf_quiet {b : Bool} (h : (m.refreshIf b).refreshes = m.refreshes) : b = false := by
  rw [refreshIf_refreshes] at h
  cases b with
  | false => rfl
  | true => simp at h

/-- A refresh misses no timer. -/
theorem Behind.refreshIf (h : Behind m m') (b : Bool) : Behind m (m'.refreshIf b) := by
  intro q hq
  rw [TimerManager.refreshIf_timers] at hq
  rw [TimerManager.refreshIf_object]
  exact h q hq

/-- `add_timer` without a call of `on_timer_refresh`. -/
theorem addTimer_behind (hm : WellFormed m) (hp : m.allocated p = false) {now interval : Int}
    {cb : Option (Callback κ ω)} {loop : Bool}
    (hquiet : (m.addTimer p now interval cb loop).refreshes = m.refreshes) :
    Behind m (m.addTimer p now interval cb loop) := by
  have hout : p ∉ m.timers := by
    intro hmem
    rw [hm.allocated p hmem] at hp
    cases hp
  have hwf := (hm.allocate hout (t := ⟨interval, loop, timeAdd now interval, cb⟩)).insert
    (p := p) (by simp)
  have hfront := refreshIf_quiet hquiet
  rw [find_self hwf mem_insert_self, beq_eq_false_iff_ne] at hfront
  refine Behind.refreshIf (Behind.of_insert hwf hfront ?_ ?_) _
  · intro q hq hne
    exact ((OrderedSet.mem_insert q).mp hq).resolve_left hne
  · intro q hne
    simp [TimerManager.insert, TimerManager.allocate, hne]

/-- `reset_timer` without a call of `on_timer_refresh`; the deadlines stay as they are. -/
theorem resetTimer_behind (hm : WellFormed m) (hp : m.allocated p = true) {interval : Int}
    (hquiet : (m.resetTimer p interval).refreshes = m.refreshes) :
    Behind m (m.resetTimer p interval) := by
  rw [TimerManager.resetTimer] at hquiet ⊢
  split_ifs with hint
  · exact Behind.of_subset (fun q hq => hq) fun q => rfl
  · have hwrite : WellFormed (m.write p { m.object p with interval := interval }) :=
      hm.write fun _ => rfl
    have hsame : ∀ q, ((m.write p { m.object p with interval := interval }).object q).nextTime =
        (m.object q).nextTime := by
      intro q
      by_cases hqp : q = p
      · simp [hqp]
      · simp [hqp]
    have htimers : (m.write p { m.object p with interval := interval }).timers = m.timers := rfl
    have hrefreshes : (m.write p { m.object p with interval := interval }).refreshes =
      m.refreshes := rfl
    have halloc : (m.write p { m.object p with interval := interval }).allocated p = true := hp
    simp only [hint, if_false] at hquiet ⊢
    generalize m.write p { m.object p with interval := interval } = w at *
    rw [← hrefreshes] at hquiet
    rw [TimerManager.find_beq_none hwrite] at hquiet ⊢
    by_cases hmem : p ∈ w.timers
    · rw [if_neg (by simpa using hmem)]
      have hbehind : Behind m ((w.erase p).insert p) := by
        refine Behind.of_subset ?_ hsame
        intro q hq
        rw [← htimers]
        rcases (OrderedSet.mem_insert q).mp hq with rfl | hq
        · exact hmem
        · exact OrderedSet.erase_sublist.mem hq
      exact hbehind.refreshIf _
    · rw [if_pos (by simpa using hmem)] at hquiet ⊢
      have hwf := hwrite.insert halloc
      have hfront := refreshIf_quiet hquiet
      rw [find_self hwf mem_insert_self, beq_eq_false_iff_ne] at hfront
      have hbehind : Behind m (w.insert p) := by
        refine Behind.of_insert hwf hfront.symm ?_ fun q _ => hsame q
        intro q hq hne
        rw [← htimers]
        exact ((OrderedSet.mem_insert q).mp hq).resolve_left hne
      exact hbehind.refreshIf _

/-- Cancelling a timer misses no other. -/
theorem cancelTimer_behind (timer : Option Ptr) : Behind m (m.cancelTimer timer).2 := by
  cases timer with
  | none => exact Behind.of_subset (fun q hq => hq) fun q => rfl
  | some p =>
      rw [TimerManager.cancelTimer]
      split_ifs
      · exact Behind.of_subset (fun q hq => hq) fun q => rfl
      · refine Behind.refreshIf (Behind.of_subset ?_ ?_) _
        · exact fun q hq => OrderedSet.erase_sublist.mem hq
        · intro q
          by_cases hqp : q = p
          · simp [TimerManager.clearCb, TimerManager.erase, hqp]
          · simp [TimerManager.clearCb, TimerManager.erase, hqp]

/-- An operation that does not call `on_timer_refresh` leaves every timer behind one that was
there. -/
theorem quiet_behind (hm : WellFormed m) {c : Timers.Cmd κ ω} (hcall : callable c = true)
    (hstep : Timers.step m c = some m') (hquiet : m'.refreshes = m.refreshes) : Behind m m' := by
  rw [Timers.step] at hstep
  split_ifs at hstep with hallowed
  rw [← Option.some.inj hstep] at hquiet ⊢
  cases c with
  | addTimer p now interval cb loop =>
      exact addTimer_behind hm (by simpa [Timers.Cmd.allowed] using hallowed) hquiet
  | addCondTimer p now interval cb cond loop =>
      exact addTimer_behind hm (by simpa [Timers.Cmd.allowed] using hallowed) hquiet
  | resetTimer p interval => exact resetTimer_behind hm hallowed hquiet
  | cancelTimer timer => exact cancelTimer_behind timer
  | cancelAllTimer =>
      have hnil := (cancelLoop_fields (m := m) rfl).1
      refine Behind.refreshIf ?_ true
      intro q hq
      rw [hnil] at hq
      exact absurd hq List.not_mem_nil
  | allExpiredCbs now => cases hcall

end Operations

/-! ## One step of a worker -/

/-- The wait is never longer than `EPOLL_MAX_TIMEOUT`, and never without an end. -/
theorem epollTimeout_bounds (m : TimerManager κ ω) (now : Int) :
    0 ≤ epollTimeout m now ∧ epollTimeout m now ≤ epollMaxTimeout := by
  simp only [epollTimeout, epollMaxTimeout]
  split_ifs <;> omega

/-- The wait ends at the deadlines of the timers, or there is none. -/
theorem epollTimeout_le {m : TimerManager κ ω} (hm : WellFormed m) (now : Int) {p : Ptr}
    (hp : p ∈ m.timers) :
    epollTimeout m now = 0 ∨ now + epollTimeout m now ≤ (m.object p).nextTime := by
  cases htimers : m.timers with
  | nil => simp [htimers] at hp
  | cons f rest =>
      have hfirst : (m.object f).nextTime ≤ (m.object p).nextTime :=
        head_le hm (by rw [htimers]; rfl) hp
      simp only [epollTimeout, nextTimerLeftTime, htimers, epollMaxTimeout, Int.bmod_def]
      split_ifs <;> omega

/-- What a step of a worker does. -/
structure WorkerMoves (g g' : Shared κ ω) (pc pc' : WorkerPC) : Prop where
  isStopping_eq : g'.isStopping = g.isStopping
  lock_eq : g'.lock = g.lock
  wellFormed : WellFormed g'.manager
  idle_eq : pc.isCounted.toNat ≤ g.idleCnt →
    g'.idleCnt + pc.isCounted.toNat = g.idleCnt + pc'.isCounted.toNat
  covers : g.isStopping = false → (∀ p ∈ g'.manager.timers, pc'.covers (g'.deadline p) = true) ∨
    g'.manager = g.manager ∧ g'.pipe = g.pipe ∧ ∀ d, pc'.covers d = pc.covers d

section Moves

variable {g g' : Shared κ ω} {pc pc' : WorkerPC}

/-- Steps to a place from which the worker looks at the timers again. -/
theorem WorkerMoves.of_up (hm : WellFormed g'.manager) (hstopping : g'.isStopping = g.isStopping)
    (hlock : g'.lock = g.lock) (hidle : g'.idleCnt = g.idleCnt)
    (hpc : pc.isCounted = pc'.isCounted) (hup : ∀ d, pc'.covers d = true) :
    WorkerMoves g g' pc pc' where
  isStopping_eq := hstopping
  lock_eq := hlock
  wellFormed := hm
  idle_eq := by
    intro _
    rw [hidle, hpc]
  covers := fun _ => Or.inl fun p _ => hup _

/-- A worker does not stop the manager. -/
theorem workerStep_isStopping {a : WorkerAction} {r : Shared κ ω × WorkerPC}
    (h : workerStep g pc a = some r) : r.1.isStopping = g.isStopping := by
  unfold workerStep at h
  split at h <;> (try split_ifs at h) <;> cases h <;> rfl

/-- Measuring the time to wait is a move. -/
theorem WorkerMoves.of_measure (hm : WellFormed g.manager) (now : Int) :
    WorkerMoves g g .head (.measured now (epollTimeout g.manager now)) where
  isStopping_eq := rfl
  lock_eq := rfl
  wellFormed := hm
  idle_eq := fun _ => rfl
  covers := by
    intro _
    refine Or.inl fun p hp => ?_
    simp only [WorkerPC.covers, Bool.or_eq_true, decide_eq_true_eq]
    exact epollTimeout_le hm now hp

/-- `--m_idle_cnt` -/
theorem WorkerMoves.of_uncount (hm : WellFormed g.manager) (e : Events) :
    WorkerMoves g { g with idleCnt := g.idleCnt - 1 } (.woken e) (.test e) where
  isStopping_eq := rfl
  lock_eq := rfl
  wellFormed := hm
  idle_eq := by
    intro hle
    simp only [WorkerPC.isCounted, Bool.toNat_true, Bool.toNat_false] at hle ⊢
    omega
  covers := fun _ => Or.inl fun _ _ => rfl

/-- Every step of a worker is one of the moves. -/
theorem workerStep_moves {a : WorkerAction} (hm : WellFormed g.manager)
    (h : workerStep g pc a = some (g', pc')) : WorkerMoves g g' pc pc' := by
  unfold workerStep at h
  split at h
  · split_ifs at h
    rw [Option.some.injEq, Prod.mk.injEq] at h
    rcases h with ⟨rfl, rfl⟩
    exact .of_measure hm _
  · rw [Option.some.injEq, Prod.mk.injEq] at h
    rcases h with ⟨rfl, rfl⟩
    exact ⟨rfl, rfl, hm, fun _ => rfl, fun _ => Or.inr ⟨rfl, rfl, fun _ => rfl⟩⟩
  · split_ifs at h
    rw [Option.some.injEq, Prod.mk.injEq] at h
    rcases h with ⟨rfl, rfl⟩
    exact .of_up hm rfl rfl rfl rfl fun _ => rfl
  · rw [Option.some.injEq, Prod.mk.injEq] at h
    rcases h with ⟨rfl, rfl⟩
    exact .of_uncount hm _
  · split_ifs at h <;> rw [Option.some.injEq, Prod.mk.injEq] at h <;> rcases h with ⟨rfl, rfl⟩
    · exact .of_up hm rfl rfl rfl rfl fun _ => rfl
    · exact .of_up hm rfl rfl rfl rfl fun _ => rfl
    · exact .of_up hm rfl rfl rfl rfl fun _ => rfl
  · split_ifs at h <;> rw [Option.some.injEq, Prod.mk.injEq] at h <;> rcases h with ⟨rfl, rfl⟩
    · exact .of_up (allExpiredCbs_schedule hm _).1 rfl rfl rfl rfl fun _ => rfl
    · exact .of_up (allExpiredCbs_schedule hm _).1 rfl rfl rfl rfl fun _ => rfl
  · split_ifs at h <;> rw [Option.some.injEq, Prod.mk.injEq] at h <;> rcases h with ⟨rfl, rfl⟩
    · exact .of_up hm rfl rfl rfl rfl fun _ => rfl
    · exact .of_up hm rfl rfl rfl rfl fun _ => rfl
  · split_ifs at h with hleave hstop <;> rw [Option.some.injEq, Prod.mk.injEq] at h <;>
      rcases h with ⟨rfl, rfl⟩
    · exact ⟨rfl, rfl, hm, fun _ => rfl, fun hrunning => by rw [hrunning] at hstop; cases hstop⟩
    · exact .of_up hm rfl rfl rfl rfl fun _ => rfl
  · cases h

end Moves

/-! ## The invariant -/

/-- Who wakes up, while nobody stops the workers and nobody is in `on_timer_refresh`. -/
structure Inv [Fintype ι] (s : State κ ω ι) : Prop where
  wellFormed : WellFormed s.shared.manager
  idle_eq : s.shared.idleCnt = countOf WorkerPC.isCounted s.threads
  covered : s.shared.isStopping = false → s.shared.lock = .free → s.Covered

section Invariant

variable [Fintype ι] [DecidableEq ι] {s s' : State κ ω ι}

omit [DecidableEq ι] in
/-- The invariant holds at the start. -/
theorem inv_initial : Inv (initial : State κ ω ι) where
  wellFormed := new_wellFormed
  idle_eq := (countOf_eq_zero.mpr fun _ => rfl).symm
  covered := fun _ _ _ hp => absurd hp List.not_mem_nil

/-- A step of a worker keeps the invariant. -/
theorem Inv.worker (h : Inv s) {i : ι} {a : WorkerAction}
    (hstep : step s (.worker i a) = some s') : Inv s' := by
  rcases Option.map_eq_some_iff.mp hstep with ⟨⟨g, pc⟩, hworker, rfl⟩
  have hmoves := workerStep_moves h.wellFormed hworker
  refine ⟨hmoves.wellFormed, ?_, ?_⟩
  · have hcount := countOf_update WorkerPC.isCounted s.threads i pc
    have hle : (s.threads i).isCounted.toNat ≤ s.shared.idleCnt := by
      have hone := countOf_update WorkerPC.isCounted s.threads i .head
      have hhead : WorkerPC.head.isCounted = false := rfl
      rw [hhead, Bool.toNat_false] at hone
      rw [h.idle_eq]
      omega
    have hidle := hmoves.idle_eq hle
    have hbefore := h.idle_eq
    simp only
    omega
  · intro hrunning hfree p hp
    simp only at hrunning hfree hp
    rw [hmoves.isStopping_eq] at hrunning
    rw [hmoves.lock_eq] at hfree
    rcases hmoves.covers hrunning with hup | ⟨hmanager, hpipe, hsame⟩
    · exact Or.inr ⟨i, by simpa using hup p hp⟩
    · rw [hmanager] at hp
      have hcovered := h.covered hrunning hfree p hp
      simp only [State.CoveredAt, Shared.deadline, hmanager, hpipe] at hcovered ⊢
      refine hcovered.imp_right ?_
      rintro ⟨j, hj⟩
      refine ⟨j, ?_⟩
      by_cases hji : j = i
      · subst hji
        rwa [Function.update_self, hsame]
      · rwa [Function.update_of_ne hji]

/-- A timer operation keeps the invariant. -/
theorem Inv.timer (h : Inv s) {c : Timers.Cmd κ ω} (hstep : step s (.timer c) = some s') :
    Inv s' := by
  rcases Option.map_eq_some_iff.mp hstep with ⟨g, htimer, rfl⟩
  rw [Shared.timer] at htimer
  split_ifs at htimer with hcall
  rcases Option.map_eq_some_iff.mp htimer with ⟨m, hm, rfl⟩
  refine ⟨(step_refines h.wellFormed hm).1, h.idle_eq, ?_⟩
  intro hrunning hfree p hp
  simp only [ite_eq_left_iff, reduceCtorEq, imp_false, not_not] at hfree
  rcases quiet_behind h.wellFormed hcall.2 hm hfree p hp with ⟨q, hq, hle⟩
  exact (h.covered hrunning hcall.1 q hq).mono hle

omit [DecidableEq ι] in
/-- A byte in the pipe wakes everybody. -/
theorem Inv.post (h : Inv s) (lock : Lock) :
    Inv { s with shared := { s.shared with lock := lock, pipe := s.shared.pipe + 1 } } where
  wellFormed := h.wellFormed
  idle_eq := h.idle_eq
  covered := fun _ _ _ _ => Or.inl (Nat.succ_pos _)

/-- A test of the refresh that is heard keeps the invariant. -/
theorem Inv.refreshTest (h : Inv s) (hheard : heard s .refreshTest = true)
    (hstep : step s .refreshTest = some s') : Inv s' := by
  by_cases hlock : s.shared.lock = .refreshTest
  case neg => simp [step, hlock] at hstep
  rw [step, if_pos hlock] at hstep
  rw [heard, Bool.not_eq_true', decide_eq_false_iff_not] at hheard
  rw [← Option.some.inj hstep]
  refine ⟨h.wellFormed, h.idle_eq, ?_⟩
  intro hrunning hfree p hp
  have hidle : s.shared.idleCnt = 0 := by
    by_contra hne
    simp [Nat.pos_of_ne_zero hne] at hfree
  cases hhead : s.shared.manager.timers.head? with
  | none =>
      rw [List.head?_eq_none_iff.mp hhead] at hp
      exact absurd hp List.not_mem_nil
  | some f =>
      have hcovered : s.CoveredAt (s.shared.deadline f) := by
        by_contra hne
        exact hheard ⟨hidle, f, hhead, hne⟩
      exact State.CoveredAt.mono hcovered (head_le h.wellFormed hhead hp)

/-- Every step keeps the invariant, if its refresh is heard. -/
theorem step_keeps {a : Action κ ω ι} (h : Inv s) (hheard : heard s a = true)
    (hstep : step s a = some s') : Inv s' := by
  cases a with
  | worker i a => exact h.worker hstep
  | timer c => exact h.timer hstep
  | refreshTest => exact h.refreshTest hheard hstep
  | refreshWrite =>
      rw [step] at hstep
      split_ifs at hstep
      rw [← Option.some.inj hstep]
      exact h.post .free
  | tickle =>
      rw [← Option.some.inj hstep]
      exact h.post s.shared.lock
  | stop =>
      rw [← Option.some.inj hstep]
      exact ⟨h.wellFormed, h.idle_eq, fun hrunning => by cases hrunning⟩

omit [Fintype ι] in
/-- Once the workers are asked to stop, they are. -/
theorem running_of_step {a : Action κ ω ι} (hstep : step s a = some s')
    (hrunning : s'.shared.isStopping = false) : s.shared.isStopping = false := by
  cases a with
  | worker i a =>
      rcases Option.map_eq_some_iff.mp hstep with ⟨r, hworker, rfl⟩
      rwa [← workerStep_isStopping hworker]
  | timer c =>
      rcases Option.map_eq_some_iff.mp hstep with ⟨g, htimer, rfl⟩
      rw [Shared.timer] at htimer
      split_ifs at htimer
      rcases Option.map_eq_some_iff.mp htimer with ⟨m, hm, rfl⟩
      exact hrunning
  | refreshTest =>
      by_cases hlock : s.shared.lock = .refreshTest
      · rw [step, if_pos hlock] at hstep
        rwa [← Option.some.inj hstep] at hrunning
      · simp [step, hlock] at hstep
  | refreshWrite =>
      rw [step] at hstep
      split_ifs at hstep
      rwa [← Option.some.inj hstep] at hrunning
  | tickle => rwa [← Option.some.inj hstep] at hrunning
  | stop =>
      rw [← Option.some.inj hstep] at hrunning
      cases hrunning

omit [Fintype ι] in
/-- A manager that is running at the end of a run was running before. -/
theorem running_of_run {acts : List (Action κ ω ι)} (hrun : runSteps step s acts = some s')
    (hrunning : s'.shared.isStopping = false) : s.shared.isStopping = false := by
  by_contra hne
  have hkeeps : ∀ (t : State κ ω ι) a t', t.shared.isStopping = true → step t a = some t' →
      t'.shared.isStopping = true := by
    intro t a t' ht hstep
    by_contra hne
    have hback := running_of_step hstep (by simpa using hne)
    rw [ht] at hback
    cases hback
  have hinv := invariant_of_runSteps hkeeps hrun (by simpa using hne)
  rw [hrunning] at hinv
  cases hinv

omit [DecidableEq ι] in
/-- The workers are missed when each of them has read the time, for a wait beyond the timer in
front, and is not yet counted. -/
theorem Inv.missed_iff (h : Inv s) : s.Missed ↔ s.shared.idleCnt = 0 ∧ s.shared.pipe = 0 ∧
    ∃ p ∈ s.shared.manager.timers.head?, ∀ i, s.threads i = .left ∨ ∃ now timeout,
      s.threads i = .measured now timeout ∧ timeout ≠ 0 ∧ s.shared.deadline p < now + timeout := by
  have hplace : s.shared.idleCnt = 0 → ∀ i d, (s.threads i).covers d = false ↔
      s.threads i = .left ∨ ∃ now timeout,
        s.threads i = .measured now timeout ∧ timeout ≠ 0 ∧ d < now + timeout := by
    intro hidle i d
    have hcounted := countOf_eq_zero.mp (h.idle_eq.symm.trans hidle) i
    cases hpc : s.threads i with
    | waiting now timeout => simp [hpc, WorkerPC.isCounted] at hcounted
    | measured now timeout => simp [WorkerPC.covers]
    | _ => simp [WorkerPC.covers]
  constructor
  · rintro ⟨hidle, p, hp, hnot⟩
    simp only [State.CoveredAt, not_or, not_lt, Nat.le_zero, not_exists, Bool.not_eq_true] at hnot
    exact ⟨hidle, hnot.1, p, hp, fun i => (hplace hidle i _).mp (hnot.2 i)⟩
  · rintro ⟨hidle, hpipe, p, hp, hall⟩
    refine ⟨hidle, p, hp, ?_⟩
    rintro (hpos | ⟨i, hi⟩)
    · omega
    · rw [(hplace hidle i _).mpr (hall i)] at hi
      cases hi

omit [Fintype ι] [DecidableEq ι] in
/-- With everybody in `epoll_wait` and nothing in the pipe, some wait ends at the deadline of the
timer, or at once. -/
theorem State.CoveredAt.wait {d : Int} (h : s.CoveredAt d) (hpipe : s.shared.pipe = 0)
    (hall : ∀ i, ∃ now timeout, s.threads i = .waiting now timeout) :
    ∃ i now timeout, s.threads i = .waiting now timeout ∧ (timeout = 0 ∨ now + timeout ≤ d) := by
  rcases h with hpos | ⟨i, hi⟩
  · omega
  · rcases hall i with ⟨now, timeout, hpc⟩
    refine ⟨i, now, timeout, hpc, ?_⟩
    simpa [hpc, WorkerPC.covers] using hi

end Invariant

/-! ## Runs -/

section Runs

variable [Fintype ι] [DecidableEq ι]

/-- Somebody looks at the timers again by the deadline of each of them, whenever nobody is in
`on_timer_refresh`. -/
def CoveredAlong (acts : List (Action κ ω ι)) : Prop :=
  ∀ pre post s, acts = pre ++ post → runSteps step initial pre = some s →
    s.shared.lock = .free → s.Covered

omit [Fintype ι] in
/-- A test that misses the workers leaves the timer in front to nobody. -/
theorem not_covered_of_missed {s s' : State κ ω ι} (hmissed : s.Missed)
    (hstep : step s .refreshTest = some s') : s'.shared.lock = .free ∧ ¬s'.Covered := by
  by_cases hlock : s.shared.lock = .refreshTest
  case neg => simp [step, hlock] at hstep
  rw [step, if_pos hlock, if_neg (by rw [hmissed.1]; exact lt_irrefl 0)] at hstep
  rw [← Option.some.inj hstep]
  refine ⟨rfl, fun hcovered => ?_⟩
  rcases hmissed.2 with ⟨p, hp, hnot⟩
  exact hnot (hcovered p (List.mem_of_mem_head? hp))

/-- In a run that does not stop the workers, somebody wakes up for every timer all along exactly
if no test of `on_timer_refresh` misses them. -/
theorem timers_covered_iff {acts : List (Action κ ω ι)} {s : State κ ω ι}
    (hrun : runSteps step initial acts = some s) (hrunning : s.shared.isStopping = false) :
    CoveredAlong acts ↔ allMeet step heard initial acts = true := by
  constructor
  · intro hcovered
    apply allMeet_iff.mpr
    rintro pre a post s₁ rfl hpre
    rw [runSteps_append_cons hpre] at hrun
    rcases Option.bind_eq_some_iff.mp hrun with ⟨s₂, hstep, hpost⟩
    cases a with
    | refreshTest =>
        by_contra hnot
        have hmissed : s₁.Missed := by simpa [heard] using hnot
        have hlast : runSteps step initial (pre ++ [.refreshTest]) = some s₂ := by
          rw [runSteps_append_cons hpre, hstep]
          rfl
        have hafter := not_covered_of_missed hmissed hstep
        exact hafter.2 (hcovered (pre ++ [.refreshTest]) post s₂ (by simp) hlast hafter.1)
    | _ => rfl
  · intro hheard pre post s₁ hacts hpre hfree
    have hall := allMeet_iff.mp hheard
    have hmeet : allMeet step heard initial pre = true := by
      apply allMeet_iff.mpr
      intro l a r t hl ht
      exact hall l a (r ++ post) t (by rw [hacts, hl]; simp) ht
    have hinv := invariant_of_allMeet (fun t a t' ht ha => step_keeps ht ha) hmeet hpre
      inv_initial
    have hafter : s₁.shared.isStopping = false := by
      cases post with
      | nil =>
          rw [hacts, List.append_nil, hpre] at hrun
          rwa [Option.some.inj hrun]
      | cons a post =>
          have hrest : runSteps step s₁ (a :: post) = some s := by
            rwa [hacts, runSteps_append_cons hpre] at hrun
          exact running_of_run hrest hrunning
    exact hinv.covered hafter hfree

end Runs

/-- A timer of 100 milliseconds is added, and then the worker goes to wait. -/
theorem timers_covered_inTime : ∃ s : State Nat Nat (Fin 1),
    runSteps step initial [.timer (.addTimer 0 0 100 (some (.function 7)) false), .refreshTest,
      .worker 0 (.measure 3), .worker 0 .count] = some s ∧ s.threads 0 = .waiting 3 97 ∧
    CoveredAlong [Action.timer (.addTimer 0 0 100 (some (.function 7)) false), .refreshTest,
      .worker (0 : Fin 1) (.measure 3), .worker 0 .count] (κ := Nat) (ω := Nat) :=
  ⟨_, rfl, rfl, (timers_covered_iff rfl rfl).mpr (by decide)⟩

/-- The worker has read the time when the timer is added: it waits for five seconds. -/
theorem timer_overslept : ∃ s : State Nat Nat (Fin 1),
    runSteps step initial [.worker 0 (.measure 0),
      .timer (.addTimer 0 0 100 (some (.function 7)) false), .refreshTest,
      .worker 0 .count] = some s ∧ s.shared.lock = .free ∧ s.shared.pipe = 0 ∧
    s.threads 0 = .waiting 0 5000 ∧ s.shared.manager.timers = [0] ∧ s.shared.deadline 0 = 100 :=
  ⟨_, rfl, rfl, rfl, rfl, rfl, rfl⟩

end TimerWait
end IOManager
end Tiger
