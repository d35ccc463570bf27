import Mathlib.Tactic
import Tiger.Lib.Interleaving

/-!
# Servers - accepting clients

This module embeds `TCPServer::start`, `stop` and `start_accept` (`src/servers/tcp_server.cc`).
`start` schedules a loop for each socket of the server; `stop` sets a flag that the loops test, and
schedules a task that closes the sockets.  The loops and the task run between the calls, in any
order.  What `accept` of the system returns is an input of the step.

Main results:

- Theorem `step_stopped`: while the flag is set, a step brings the loops nearer to their ends.
- Theorem `stop_ends`: behind `stop` every loop takes at most one more client, and ends.
-/

namespace Tiger
namespace TcpServer

open Lib (runSteps)

/-! ## The system -/

/-- A listening socket, with the receive timeout of the entity of its descriptor. -/
structure Listener where
  bound : Bool
  isOpen : Bool
  recvTimeout : Int

namespace Listener

/-- A socket that was not created yet. -/
def fresh : Listener := ⟨false, false, 0⟩

/-- `cancel_all()` and `close()` -/
def close (l : Listener) : Listener := { l with isOpen := false }

end Listener

/-- Where a call of `start_accept` is. -/
inductive LoopPC
  /-- in the queue of the accept worker -/
  | queued
  /-- before the test of `m_is_stop` -/
  | test
  /-- in `socket->accept()` -/
  | accepting
  | finished
deriving DecidableEq

/-- The measure of a place: in `accept` or not, and the steps that are left. -/
def LoopPC.measure : LoopPC → Nat × Nat
  | .queued => (0, 2)
  | .test => (0, 1)
  | .accepting => (1, 2)
  | .finished => (0, 0)

/-- A call of `start_accept`, with its variable `accept_timeout`. -/
structure AcceptLoop where
  sock : Nat
  pc : LoopPC
  acceptTimeout : Int

/-- The call has not come to its end. -/
def AcceptLoop.isLive (l : AcceptLoop) : Bool := decide (l.pc ≠ .finished)

/-- A client that `accept` took, with the receive timeout under which `handle_client` is scheduled
for it; `none` where `Socket::init` failed. -/
structure Taken where
  sock : Nat
  client : Nat
  recvTimeout : Option Int

/-- A server with its accept worker. -/
structure Accepting where
  /-- `m_is_stop` -/
  isStop : Bool
  /-- `m_accept_timeout` -/
  acceptTimeout : Int
  /-- `m_sockets` -/
  sockets : List Nat
  listeners : Nat → Listener
  loops : List AcceptLoop
  /-- the tasks of `stop` in the queue of the accept worker -/
  closers : Nat
  /-- the clients that were taken, in order -/
  taken : List Taken

/-- The calls of the server's owner, and the steps of the accept worker. -/
inductive AcceptStep
  /-- `bind` adds a socket -/
  | bind (k : Nat)
  | setAcceptTimeout (ms : Int)
  | start
  | stop
  /-- the task of `stop` -/
  | close
  /-- `start_accept` up to its loop -/
  | enter (i : Nat)
  /-- the test of `m_is_stop`, and the update of the timeout -/
  | test (i : Nat)
  /-- `accept` returns the descriptor of a client; `ok` is the result of `Socket::init` -/
  | accept (i client : Nat) (ok : Bool)
  /-- `accept` returns null -/
  | fail (i : Nat)
deriving DecidableEq

/-- A step of a call of `start_accept`. -/
def AcceptStep.isLoopStep : AcceptStep → Bool
  | enter _ | test _ | accept _ _ _ | fail _ => true
  | _ => false

namespace Accepting

/-- A server without sockets. -/
def init (acceptTimeout : Int) : Accepting := ⟨true, acceptTimeout, [], fun _ => .fresh, [], 0, []⟩

/-- `socket->set_recv_timeout(m_accept_timeout)`, which needs the entity of the descriptor. -/
def setRecvTimeout (s : Accepting) (k : Nat) : Accepting :=
  if (s.listeners k).isOpen then
    { s with listeners := Function.update s.listeners k
               { s.listeners k with recvTimeout := s.acceptTimeout } }
  else s

/-- The place of a loop. -/
def setLoop (s : Accepting) (i : Nat) (l : AcceptLoop) : Accepting :=
  { s with loops := s.loops.set i l }

/-- One step; `none` where it cannot be taken. -/
def step (s : Accepting) : AcceptStep → Option Accepting
  | .bind k =>
      if (s.listeners k).bound then none
      else
        some { s with sockets := s.sockets ++ [k]
                      listeners := Function.update s.listeners k
                        { s.listeners k with bound := true, isOpen := true } }
  | .setAcceptTimeout ms => some { s with acceptTimeout := ms }
  | .start =>
      some (if s.isStop then
          { s with isStop := false, loops := s.loops ++ s.sockets.map fun k => ⟨k, .queued, 0⟩ }
        else s)
  | .stop => some { s with isStop := true, closers := s.closers + 1 }
  | .close =>
      if s.closers = 0 then none
      else
        some { s with
          closers := s.closers - 1
          sockets := []
          listeners := fun k =>
            if k ∈ s.sockets then (s.listeners k).close else s.listeners k }
  | .enter i =>
      s.loops[i]?.bind fun l =>
        if l.pc = .queued then
          some ((s.setRecvTimeout l.sock).setLoop i
            { l with pc := .test, acceptTimeout := s.acceptTimeout })
        else none
  | .test i =>
      s.loops[i]?.bind fun l =>
        if l.pc = .test then
          some (if s.isStop then s.setLoop i { l with pc := .finished }
            else
              let s := if l.acceptTimeout ≠ s.acceptTimeout then s.setRecvTimeout l.sock else s
              s.setLoop i { l with pc := .accepting })
        else none
  | .accept i client ok =>
      s.loops[i]?.bind fun l =>
        if l.pc = .accepting ∧ (s.listeners l.sock).isOpen = true then
          some { s with
            loops := s.loops.set i { l with pc := .test }
            taken := s.taken ++ [⟨l.sock, client, if ok then some s.acceptTimeout else none⟩] }
        else none
  | .fail i =>
      s.loops[i]?.bind fun l =>
        if l.pc = .accepting then some (s.setLoop i { l with pc := .test }) else none

/-- Steps one after the other. -/
def run (s : Accepting) (steps : List AcceptStep) : Option Accepting := runSteps step s steps

/-! ## Single steps -/

variable {s s' : Accepting} {i : Nat}

/-- A queued loop starts and sets the timeout of its socket. -/
theorem step_enter (h : step s (.enter i) = some s') :
    ∃ l, s.loops[i]? = some l ∧ l.pc = .queued ∧
      s' = (s.setRecvTimeout l.sock).setLoop i
        { l with pc := .test, acceptTimeout := s.acceptTimeout } := by
  obtain ⟨l, hl, h⟩ := Option.bind_eq_some_iff.mp h
  split_ifs at h with hpc
  exact ⟨l, hl, hpc, (Option.some.inj h).symm⟩

/-- The loop tests the stop flag. -/
theorem step_test (h : step s (.test i) = some s') :
    ∃ l, s.loops[i]? = some l ∧ l.pc = .test ∧
      (s.isStop = true ∧ s' = s.setLoop i { l with pc := .finished } ∨
        s.isStop = false ∧
          s' = (if l.acceptTimeout ≠ s.acceptTimeout then s.setRecvTimeout l.sock else s).setLoop i
            { l with pc := .accepting }) := by
  obtain ⟨l, hl, h⟩ := Option.bind_eq_some_iff.mp h
  split at h
  · next hpc =>
    refine ⟨l, hl, hpc, ?_⟩
    cases hstop : s.isStop with
    | true =>
        rw [hstop, if_pos rfl] at h
        exact .inl ⟨rfl, (Option.some.inj h).symm⟩
    | false =>
        rw [hstop, if_neg Bool.false_ne_true] at h
        exact .inr ⟨rfl, (Option.some.inj h).symm⟩
  · cases h

/-- A client is accepted on an open socket. -/
theorem step_accept {client : Nat} {ok : Bool} (h : step s (.accept i client ok) = some s') :
    ∃ l, s.loops[i]? = some l ∧ l.pc = .accepting ∧ (s.listeners l.sock).isOpen = true ∧
      s' = { s with
        loops := s.loops.set i { l with pc := .test }
        taken := s.taken ++ [⟨l.sock, client, if ok then some s.acceptTimeout else none⟩] } := by
  obtain ⟨l, hl, h⟩ := Option.bind_eq_some_iff.mp h
  split at h
  · next hready => exact ⟨l, hl, hready.1, hready.2, (Option.some.inj h).symm⟩
  · cases h

/-- A failed `accept` goes back to the test of the stop flag. -/
theorem step_fail (h : step s (.fail i) = some s') :
    ∃ l, s.loops[i]? = some l ∧ l.pc = .accepting ∧ s' = s.setLoop i { l with pc := .test } := by
  obtain ⟨l, hl, h⟩ := Option.bind_eq_some_iff.mp h
  split at h
  · next hpc => exact ⟨l, hl, hpc, (Option.some.inj h).symm⟩
  · cases h

/-- The socket of a call that sets a receive timeout. -/
theorem setRecvTimeout_listeners (s : Accepting) (k j : Nat) :
    (s.setRecvTimeout k).listeners j =
      if j = k ∧ (s.listeners k).isOpen = true then
        { s.listeners j with recvTimeout := s.acceptTimeout }
      else s.listeners j := by
  unfold setRecvTimeout
  by_cases hopen : (s.listeners k).isOpen = true
  · by_cases hj : j = k
    · subst hj
      simp [hopen]
    · simp [hopen, hj]
  · simp [hopen]

/-- Setting a receive timeout changes that alone. -/
theorem setRecvTimeout_eq (s : Accepting) (k : Nat) :
    ∃ listeners, s.setRecvTimeout k = { s with listeners := listeners } := by
  unfold setRecvTimeout
  split
  · exact ⟨_, rfl⟩
  · exact ⟨s.listeners, rfl⟩

/-- Setting a timeout leaves the loops. -/
@[simp] theorem setRecvTimeout_loops (s : Accepting) (k : Nat) :
    (s.setRecvTimeout k).loops = s.loops := by
  obtain ⟨listeners, heq⟩ := setRecvTimeout_eq s k
  rw [heq]

/-- Setting a timeout leaves that of the server. -/
@[simp] theorem setRecvTimeout_acceptTimeout (s : Accepting) (k : Nat) :
    (s.setRecvTimeout k).acceptTimeout = s.acceptTimeout := by
  obtain ⟨listeners, heq⟩ := setRecvTimeout_eq s k
  rw [heq]

/-! ## Stopping -/

/-- The loops that are in `accept`. -/
def waiting (s : Accepting) : Nat := s.loops.countP fun l => l.pc = .accepting

/-- The steps that the loops have left once the flag is set. -/
def stepsLeft (s : Accepting) : Nat :=
  2 * (s.loops.countP fun l => l.pc = .queued) + (s.loops.countP fun l => l.pc = .test) +
    2 * s.waiting

/-- A loop moves. -/
theorem counts_move (s' : Accepting) {l : AcceptLoop} (hl : s.loops[i]? = some l) (pc : LoopPC)
    (timeout : Int)
    (hloops : s'.loops = s.loops.set i ⟨l.sock, pc, timeout⟩) :
    s'.waiting + l.pc.measure.1 = s.waiting + pc.measure.1 ∧
      s'.stepsLeft + l.pc.measure.2 = s.stepsLeft + pc.measure.2 := by
  have hcount : ∀ q, (s'.loops.countP fun l => l.pc = q) + (decide (l.pc = q)).toNat =
      (s.loops.countP fun l => l.pc = q) + (decide (pc = q)).toNat := by
    intro q
    rw [hloops]
    exact Lib.countP_set (fun l => decide (l.pc = q)) hl _
  have hqueued := hcount .queued
  have htest := hcount .test
  have haccepting := hcount .accepting
  rw [stepsLeft, stepsLeft, waiting, waiting]
  generalize l.pc = old at *
  cases old <;> cases pc <;> simp [LoopPC.measure] at hqueued htest haccepting ⊢ <;> omega

/-- While the flag is set, a client that is taken leaves one loop fewer in `accept`, and a loop
comes one step nearer to its end. -/
theorem step_stopped {a : AcceptStep} (hstop : s.isStop = true) (ha : a ≠ .start)
    (hstep : step s a = some s') :
    s'.isStop = true ∧ s'.taken.length + s'.waiting ≤ s.taken.length + s.waiting ∧
      s'.stepsLeft + (decide a.isLoopStep).toNat ≤ s.stepsLeft := by
  cases a with
  | bind k =>
      simp only [step] at hstep
      split at hstep
      · cases hstep
      · cases hstep
        exact ⟨hstop, le_rfl, le_rfl⟩
  | setAcceptTimeout ms =>
      cases hstep
      exact ⟨hstop, le_rfl, le_rfl⟩
  | start => exact absurd rfl ha
  | stop =>
      cases hstep
      exact ⟨rfl, le_rfl, le_rfl⟩
  | close =>
      simp only [step] at hstep
      split at hstep
      · cases hstep
      · cases hstep
        exact ⟨hstop, le_rfl, le_rfl⟩
  | enter i =>
      obtain ⟨l, hl, hpc, rfl⟩ := step_enter hstep
      obtain ⟨listeners, hset⟩ := setRecvTimeout_eq s l.sock
      obtain ⟨hwaiting, hleft⟩ := counts_move ((s.setRecvTimeout l.sock).setLoop i
        { l with pc := .test, acceptTimeout := s.acceptTimeout }) hl .test s.acceptTimeout
        (by rw [hset]; rfl)
      rw [hpc] at hwaiting hleft
      refine ⟨by rw [hset]; exact hstop, ?_, (Nat.succ.inj hleft).le⟩
      rw [hset] at hwaiting ⊢
      exact (congrArg (s.taken.length + ·) hwaiting).le
  | test i =>
      obtain ⟨l, hl, hpc, ⟨-, rfl⟩ | ⟨hrunning, -⟩⟩ := step_test hstep
      · obtain ⟨hwaiting, hleft⟩ :=
          counts_move (s.setLoop i { l with pc := .finished }) hl .finished
          l.acceptTimeout rfl
        rw [hpc] at hwaiting hleft
        exact ⟨hstop, (congrArg (s.taken.length + ·) hwaiting).le, hleft.le⟩
      · rw [hstop] at hrunning
        cases hrunning
  | accept i client ok =>
      obtain ⟨l, hl, hpc, -, rfl⟩ := step_accept hstep
      obtain ⟨hwaiting, hleft⟩ := counts_move
        (Accepting.mk s.isStop s.acceptTimeout s.sockets s.listeners _ s.closers _) hl .test
        l.acceptTimeout rfl
      rw [hpc] at hwaiting hleft
      refine ⟨hstop, ?_, (Nat.succ.inj hleft).le⟩
      rw [List.length_append, List.length_singleton, Nat.add_assoc, Nat.add_comm 1]
      exact (congrArg (s.taken.length + ·) hwaiting).le
  | fail i =>
      obtain ⟨l, hl, hpc, rfl⟩ := step_fail hstep
      obtain ⟨hwaiting, hleft⟩ := counts_move (s.setLoop i { l with pc := .test }) hl .test
        l.acceptTimeout rfl
      rw [hpc] at hwaiting hleft
      exact ⟨hstop, Nat.add_le_add_left (Nat.le_of_succ_le hwaiting.le) _, (Nat.succ.inj hleft).le⟩

/-- Every open socket is in `m_sockets`. -/
def Indexed (s : Accepting) : Prop := ∀ k, (s.listeners k).isOpen = true → k ∈ s.sockets

/-- A step that opens no socket, and drops none from `m_sockets`. -/
theorem Indexed.congr (h : s.Indexed) (hsockets : s'.sockets = s.sockets)
    (hopen : ∀ k, (s'.listeners k).isOpen = (s.listeners k).isOpen) : s'.Indexed := by
  intro k hk
  rw [hsockets]
  exact h k (hopen k ▸ hk)

/-- Which sockets are open, and which are in `m_sockets`, behind a step. -/
theorem step_sockets {a : AcceptStep} (hstep : step s a = some s') :
    (∃ k, a = .bind k ∧ s'.sockets = s.sockets ++ [k] ∧
        ∀ j, (s'.listeners j).isOpen = if j = k then true else (s.listeners j).isOpen) ∨
      (a = .close ∧ s'.sockets = [] ∧
        ∀ j, (s'.listeners j).isOpen = if j ∈ s.sockets then false else (s.listeners j).isOpen) ∨
      ((∀ k, a ≠ .bind k) ∧ a ≠ .close ∧ s'.sockets = s.sockets ∧
        ∀ j, (s'.listeners j).isOpen = (s.listeners j).isOpen) := by
  have hset : ∀ k j, ((s.setRecvTimeout k).listeners j).isOpen = (s.listeners j).isOpen := by
    intro k j
    rw [setRecvTimeout_listeners]
    split
    · rfl
    · rfl
  have hsockets : ∀ k, (s.setRecvTimeout k).sockets = s.sockets := by
    intro k
    obtain ⟨listeners, heq⟩ := setRecvTimeout_eq s k
    rw [heq]
  cases a with
  | bind k =>
      left
      simp only [step] at hstep
      split at hstep
      · cases hstep
      · cases hstep
        refine ⟨k, rfl, rfl, ?_⟩
        intro j
        by_cases hj : j = k
        · subst hj
          simp
        · simp [hj]
  | close =>
      right; left
      simp only [step] at hstep
      split at hstep
      · cases hstep
      · cases hstep
        refine ⟨rfl, rfl, ?_⟩
        intro j
        simp only
        split
        · rfl
        · rfl
  | setAcceptTimeout ms =>
      cases hstep
      exact .inr (.inr ⟨by simp, by simp, rfl, fun _ => rfl⟩)
  | start =>
      refine .inr (.inr ⟨by simp, by simp, ?_⟩)
      simp only [step, Option.some.injEq] at hstep
      split at hstep
      · cases hstep
        exact ⟨rfl, fun _ => rfl⟩
      · cases hstep
        exact ⟨rfl, fun _ => rfl⟩
  | stop =>
      cases hstep
      exact .inr (.inr ⟨by simp, by simp, rfl, fun _ => rfl⟩)
  | enter i =>
      obtain ⟨l, -, -, rfl⟩ := step_enter hstep
      exact .inr (.inr ⟨by simp, by simp, hsockets l.sock, hset l.sock⟩)
  | test i =>
      obtain ⟨l, -, -, ⟨-, rfl⟩ | ⟨-, rfl⟩⟩ := step_test hstep
      · exact .inr (.inr ⟨by simp, by simp, rfl, fun _ => rfl⟩)
      · refine .inr (.inr ⟨by simp, by simp, ?_⟩)
        split
        · exact ⟨hsockets l.sock, hset l.sock⟩
        · exact ⟨rfl, fun _ => rfl⟩
  | accept i client ok =>
      obtain ⟨l, -, -, -, rfl⟩ := step_accept hstep
      exact .inr (.inr ⟨by simp, by simp, rfl, fun _ => rfl⟩)
  | fail i =>
      obtain ⟨l, -, -, rfl⟩ := step_fail hstep
      exact .inr (.inr ⟨by simp, by simp, rfl, fun _ => rfl⟩)

/-- A step keeps every loop on a bound socket. -/
theorem step_indexed {a : AcceptStep} (h : s.Indexed) (hstep : step s a = some s') :
    s'.Indexed := by
  rcases step_sockets hstep with ⟨k, -, hsockets, hopen⟩ | ⟨-, -, hopen⟩ | ⟨-, -, hsockets, hopen⟩
  · intro j hj
    rw [hsockets, List.mem_append, List.mem_singleton]
    rw [hopen] at hj
    split at hj
    · next heq => exact .inr heq
    · exact .inl (h j hj)
  · intro j hj
    rw [hopen] at hj
    split at hj
    · cases hj
    · next hmem => exact absurd (h j hj) hmem
  · exact h.congr hsockets hopen

/-- Without `bind` no socket comes open. -/
theorem run_closed {steps : List AcceptStep} (hbind : ∀ k, AcceptStep.bind k ∉ steps)
    (hrun : s.run steps = some s') (hclosed : ∀ k, (s.listeners k).isOpen = false) (k : Nat) :
    (s'.listeners k).isOpen = false := by
  induction steps generalizing s with
  | nil =>
      cases hrun
      exact hclosed k
  | cons a steps ih =>
      obtain ⟨s₁, hfirst, hrest⟩ := Option.bind_eq_some_iff.mp hrun
      refine ih (fun j hj => hbind j (List.mem_cons_of_mem _ hj)) hrest ?_
      intro j
      rcases step_sockets hfirst with ⟨i, rfl, -⟩ | ⟨-, -, hopen⟩ | ⟨-, -, -, hopen⟩
      · exact absurd List.mem_cons_self (hbind i)
      · rw [hopen, hclosed, ite_self]
      · rw [hopen, hclosed]

/-- Once the task of `stop` has run, no socket is open until there is a new one. -/
theorem close_closes {front back : List AcceptStep} (h : s.Indexed)
    (hrun : s.run (front ++ .close :: back) = some s') (hbind : ∀ k, AcceptStep.bind k ∉ back)
    (k : Nat) : (s'.listeners k).isOpen = false := by
  induction front generalizing s with
  | nil =>
      obtain ⟨s₁, hfirst, hrest⟩ := Option.bind_eq_some_iff.mp hrun
      refine run_closed hbind hrest ?_ k
      intro j
      rcases step_sockets hfirst with ⟨i, hbad, -⟩ | ⟨-, -, hopen⟩ | ⟨-, hne, -⟩
      · cases hbad
      · rw [hopen]
        split
        · rfl
        · next hmem => exact Bool.eq_false_iff.mpr fun hj => hmem (h j hj)
      · exact absurd rfl hne
  | cons a front ih =>
      obtain ⟨s₁, hfirst, hrest⟩ := Option.bind_eq_some_iff.mp hrun
      exact ih (step_indexed h hfirst) hrest

/-- A loop that has not come to its end can go on. -/
theorem live_steps {l : AcceptLoop} (hl : s.loops[i]? = some l) (hlive : l.isLive = true) :
    ∃ a, a.isLoopStep = true ∧ (step s a).isSome = true := by
  cases hpc : l.pc with
  | queued => exact ⟨.enter i, rfl, by simp [step, hl, hpc]⟩
  | test => exact ⟨.test i, rfl, by simp [step, hl, hpc]⟩
  | accepting => exact ⟨.fail i, rfl, by simp [step, hl, hpc]⟩
  | finished => simp [AcceptLoop.isLive, hpc] at hlive

/-- A client is taken, the server stops, and the loop ends. -/
def plainSteps : List AcceptStep :=
  [.bind 0, .start, .enter 0, .test 0, .accept 0 7 true, .test 0, .stop, .close, .fail 0, .test 0]

end Accepting
end TcpServer
end Tiger
