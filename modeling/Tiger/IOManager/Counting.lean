import Mathlib.Tactic
import Tiger.Lib.Interleaving
import Tiger.IOManager.Effects

/-!
# IOManager - counter and epoll interest

`m_appending_event_cnt`, the status bits and what epoll watches are updated at different
points of the operations, with error returns between them.  They agree after every
operation.

Main results:

- Theorem `step_consistent`: the step lemma.
- Theorem `run_consistent`: the three agree after every sequence of operations, and an
  operation that returns false changes none of them.
-/

namespace Tiger
namespace IOManager

open Finset

/-- The number of status bits over all contexts. -/
def Manager.total (m : Manager) : Nat := ∑ fd ∈ range m.size, (m.contexts fd).statuses.bits

/-- The counter, the statuses and epoll agree. -/
structure Consistent (m : Manager) : Prop where
  size_ge : 128 ≤ m.size
  fresh : ∀ fd, m.size ≤ fd → (m.contexts fd).statuses = .none
  int_fd : ∀ fd, 2 ^ 31 ≤ fd → (m.contexts fd).statuses = .none
  cnt_eq : m.appendingEventCnt = UInt64.ofNat m.total
  interest_eq : ∀ fd, m.interest fd = (m.contexts fd).statuses.watch

theorem EventStatus.bits_none : EventStatus.none.bits = 0 := rfl

/-- A status has at most two directions. -/
theorem EventStatus.bits_le (a : EventStatus) : a.bits ≤ 2 := by
  rw [EventStatus.bits]
  have hread := Bool.toNat_le a.read
  have hwrite := Bool.toNat_le a.write
  omega

/-! ## The total -/

section Total

variable {m m' : Manager}

/-- New contexts hold nothing. -/
theorem total_eq_sum (hc : Consistent m) {n : Nat} (hn : m.size ≤ n) :
    m.total = ∑ fd ∈ range n, (m.contexts fd).statuses.bits := by
  apply Finset.sum_subset
  · exact range_subset_range.mpr hn
  · intro fd _ hfd
    rw [mem_range, not_lt] at hfd
    rw [hc.fresh fd hfd, EventStatus.bits_none]

/-- A changed context changes the total by its own bits. -/
theorem total_update {fd : Nat} {ctx : Context} {calls : List ScheduleCall} (hc : Consistent m)
    (hm : Moves m m' fd ctx calls) (hfd : fd < m'.size) :
    m'.total + (m.contexts fd).statuses.bits = m.total + ctx.statuses.bits := by
  rw [total_eq_sum hc hm.size_le, Manager.total, hm.contexts_eq]
  exact Lib.sum_update (range m'.size) (fun c : Context => c.statuses.bits) m.contexts
    (mem_range.mpr hfd) ctx

/-- Two bits at most for each descriptor. -/
theorem total_le {n : Nat} (hn : ∀ fd, n ≤ fd → (m.contexts fd).statuses = .none) :
    m.total ≤ n * 2 := by
  have hshort : ∑ fd ∈ range m.size ∩ range n, (m.contexts fd).statuses.bits = m.total := by
    apply Finset.sum_subset inter_subset_left
    intro fd hfd hnot
    rw [mem_inter, not_and, mem_range, mem_range, not_lt] at hnot
    rw [hn fd (hnot (mem_range.mp hfd)), EventStatus.bits_none]
  calc
    m.total = ∑ fd ∈ range m.size ∩ range n, (m.contexts fd).statuses.bits := hshort.symm
    _ ≤ ∑ fd ∈ range n, (m.contexts fd).statuses.bits := sum_le_sum_of_subset inter_subset_right
    _ ≤ (range n).card • 2 := sum_le_card_nsmul _ _ 2 fun fd _ => EventStatus.bits_le _
    _ = n * 2 := by rw [card_range, smul_eq_mul]

/-- The total is far from the bound of the counter. -/
theorem total_lt (hc : Consistent m) : m.total < 2 ^ 64 := by
  have hle := total_le hc.int_fd
  omega

end Total

/-! ## Steps and runs -/

/-- A new manager counts right. -/
theorem init_consistent : Consistent .init where
  size_ge := le_rfl
  fresh := fun _ _ => rfl
  int_fd := fun _ _ => rfl
  cnt_eq := by
    rw [Manager.total, Finset.sum_eq_zero]
    · rfl
    · intro fd _
      exact EventStatus.bits_none
  interest_eq := fun _ => rfl

/-- A command without effect keeps the count right. -/
theorem Still.consistent {m m' : Manager} (h : Still m m') (hc : Consistent m) : Consistent m' where
  size_ge := hc.size_ge.trans h.size_le
  fresh := by
    intro fd hfd
    rw [h.contexts_eq]
    exact hc.fresh fd (h.size_le.trans hfd)
  int_fd := by
    rw [h.contexts_eq]
    exact hc.int_fd
  cnt_eq := by
    rw [h.cnt_eq, hc.cnt_eq, total_eq_sum hc h.size_le, Manager.total, h.contexts_eq]
  interest_eq := by
    rw [h.contexts_eq, h.interest_eq]
    exact hc.interest_eq

/-- A command on one context keeps the count right. -/
theorem Moves.consistent {m m' : Manager} {fd : Nat} {ctx : Context} {calls : List ScheduleCall}
    (h : Moves m m' fd ctx calls) (hfd : fd < 2 ^ 31) (hc : Consistent m) : Consistent m' := by
  have hinside : fd < m'.size := by
    rcases h.inside with hlt | hsome
    · exact hlt
    · by_contra hge
      exact hsome (hc.fresh fd (h.size_le.trans (not_lt.mp hge)))
  have hother : ∀ x, x ≠ fd → m'.contexts x = m.contexts x := by
    intro x hx
    rw [h.contexts_eq, Function.update_of_ne hx]
  constructor
  · exact hc.size_ge.trans h.size_le
  · intro x hx
    rw [hother x (by omega)]
    exact hc.fresh x (h.size_le.trans hx)
  · intro x hx
    rw [hother x (by omega)]
    exact hc.int_fd x hx
  · have hcnt := h.cnt_eq
    have htotal : UInt64.ofNat m'.total + UInt64.ofNat (m.contexts fd).statuses.bits =
        UInt64.ofNat m.total + UInt64.ofNat ctx.statuses.bits := by
      rw [← UInt64.ofNat_add, ← UInt64.ofNat_add, total_update hc h hinside]
    rw [hc.cnt_eq, ← htotal] at hcnt
    grind
  · intro x
    rw [h.interest_eq]
    by_cases hx : x = fd
    · rw [hx, Function.update_self, h.contexts_eq, Function.update_self]
    · rw [Function.update_of_ne hx, hother x hx]
      exact hc.interest_eq x

/-- Every operation keeps the agreement. -/
theorem step_consistent {m : Manager} {c : Cmd} (hc : Consistent m) (hfd : c.fd < 2 ^ 31) :
    Consistent (step m c).2 := by
  rcases step_cases m c hc.size_ge with ⟨_, hstill⟩ | ⟨_, _, ctx, calls, _, hmoves⟩
  · exact hstill.consistent hc
  · exact hmoves.consistent hfd hc

/-- A run keeps the count right. -/
theorem run_keeps_consistent {m : Manager} {cmds : List Cmd} (hc : Consistent m)
    (hfds : ∀ c ∈ cmds, c.fd < 2 ^ 31) : Consistent (run m cmds) := by
  induction cmds generalizing m with
  | nil => exact hc
  | cons c cmds ih =>
      exact ih (step_consistent hc (hfds c (List.mem_cons_self ..)))
        fun c' hc' => hfds c' (List.mem_cons_of_mem _ hc')

/-- An operation that returns false changes neither statuses nor counter nor epoll. -/
theorem step_false {m : Manager} {c : Cmd} (hsize : 128 ≤ m.size) (h : (step m c).1 = false) :
    Still m (step m c).2 := by
  rcases step_cases m c hsize with ⟨_, hstill⟩ | ⟨_, htrue, _⟩
  · exact hstill
  · rw [h] at htrue
    cases htrue

/-- After every sequence of operations, whatever `epoll_ctl` answers, the counter is the
number of status bits, epoll watches the statuses of every descriptor, and a further
operation that returns false leaves all of them alone. -/
theorem run_consistent (cmds : List Cmd) (hfds : ∀ c ∈ cmds, c.fd < 2 ^ 31) :
    (run .init cmds).appendingEventCnt.toNat = (run .init cmds).total ∧
      (∀ fd, (run .init cmds).interest fd =
        if ((run .init cmds).contexts fd).statuses = .none then none
        else some ((run .init cmds).contexts fd).statuses) ∧
      ∀ c, (step (run .init cmds) c).1 = false →
        (∀ fd, ((step (run .init cmds) c).2.contexts fd).statuses =
          ((run .init cmds).contexts fd).statuses) ∧
        (step (run .init cmds) c).2.appendingEventCnt = (run .init cmds).appendingEventCnt ∧
        (step (run .init cmds) c).2.interest = (run .init cmds).interest := by
  have hc : Consistent (run .init cmds) := run_keeps_consistent init_consistent hfds
  refine ⟨?_, hc.interest_eq, ?_⟩
  · rw [hc.cnt_eq, UInt64.toNat_ofNat', Nat.mod_eq_of_lt (total_lt hc)]
  · intro c hfalse
    have hstill := step_false hc.size_ge hfalse
    refine ⟨?_, hstill.cnt_eq, hstill.interest_eq⟩
    intro fd
    rw [hstill.contexts_eq]

/-- A caller on the thread 7 of the scheduler 1, in the coroutine 3. -/
def coroutineCaller : Caller := ⟨some 1, some 3, 7⟩

/-- Both directions of a descriptor are registered, one is delivered, the other fails to be
deleted and is then cancelled. -/
def mixedCmds : List Cmd :=
  [.addEvent 5 .read none coroutineCaller true, .addEvent 5 .write (some 9) coroutineCaller true,
    .deliver 5 ⟨true, false, false, false⟩ true, .delEvent 5 .write false,
      .cancelEvent 5 .write true]

theorem run_consistent_mixed :
    (run .init mixedCmds).appendingEventCnt.toNat = (run .init mixedCmds).total :=
  (run_consistent mixedCmds (by simp [mixedCmds, Cmd.fd])).1

end IOManager
end Tiger
