import Tiger.Servers.Accepting

/-!
# Servers - starting again

`TCPServer::start` (`src/servers/tcp_server.cc`) looks at the flag alone: neither at the task of
`stop`, which may still be in the queue, nor at the loops,
  which may still be in `accept`.  And a loop
of `start_accept` only sets the receive timeout of its socket while `m_accept_timeout` is not the
value with which it has started.

Main results:

- Theorem `step_orderly`: the step lemma.
- Theorem `run_orderly`: a server that is only started again when it has come to rest has at most
  one live loop for each socket.
- Theorem `restart_spins`: one that is started again before that has a loop on a closed socket.
-/

namespace Tiger
namespace TcpServer
namespace Accepting

variable {s s' : Accepting} {i : Nat}

/-! ## Order -/

/-- `start` only takes effect when the task of every `stop` has run and every loop has ended, and
the timeout is not set back to the value that a loop has started with. -/
def meets (s : Accepting) : AcceptStep → Bool
  | .start => !s.isStop || (decide (s.closers = 0) && s.loops.all fun l => !l.isLive)
  | .setAcceptTimeout ms =>
      s.loops.all fun l => !l.isLive || decide (l.pc = .queued) || decide (ms ≠ l.acceptTimeout)
  | _ => true

/-- Every step of the run meets its condition. -/
def allMeet (s : Accepting) (steps : List AcceptStep) : Bool := Lib.allMeet step meets s steps

/-- The sockets of the loops that have not ended. -/
def liveSockets (s : Accepting) : List Nat := (s.loops.filter AcceptLoop.isLive).map AcceptLoop.sock

/-- The sockets are open, and none is there twice; each has one loop at most, and while the server
runs the loops are on them.  A loop that has started with the current timeout finds it set. -/
structure Orderly (s : Accepting) : Prop where
  nodup : s.sockets.Nodup
  opened : ∀ k ∈ s.sockets, (s.listeners k).isOpen = true
  bound : ∀ k, (s.listeners k).isOpen = true → (s.listeners k).bound = true
  known : ∀ l ∈ s.loops, (s.listeners l.sock).bound = true
  single : s.liveSockets.Nodup
  running : s.isStop = false → s.closers = 0 ∧ ∀ k ∈ s.liveSockets, k ∈ s.sockets
  current : ∀ l ∈ s.loops, l.isLive = true → l.pc ≠ .queued → l.acceptTimeout = s.acceptTimeout →
    (s.listeners l.sock).isOpen = true → (s.listeners l.sock).recvTimeout = s.acceptTimeout

/-- A new server has no loop. -/
theorem init_orderly (acceptTimeout : Int) : (init acceptTimeout).Orderly where
  nodup := List.nodup_nil
  opened := by simp [init]
  bound := by simp [init, Listener.fresh]
  known := by simp [init]
  single := List.nodup_nil
  running := fun h => absurd h (by simp [init])
  current := by simp [init]

/-- A loop that moves stays on its socket, and does not come back from its end. -/
theorem liveSockets_set {loops : List AcceptLoop} {l l' : AcceptLoop} (hl : loops[i]? = some l)
    (hsock : l'.sock = l.sock) (hlive : l'.isLive = true → l.isLive = true) :
    (((loops.set i l').filter AcceptLoop.isLive).map AcceptLoop.sock).Sublist
      ((loops.filter AcceptLoop.isLive).map AcceptLoop.sock) := by
  induction loops generalizing i with
  | nil => simp at hl
  | cons t loops ih =>
      cases i with
      | zero =>
          obtain rfl : t = l := by simpa using hl
          rw [List.set_cons_zero, List.filter_cons, List.filter_cons]
          by_cases hlive' : l'.isLive = true
          · rw [if_pos hlive', if_pos (hlive hlive'), List.map_cons, List.map_cons, hsock]
          · rw [if_neg hlive']
            split
            · exact List.sublist_cons_self _ _
            · exact List.Sublist.refl _
      | succ i =>
          rw [List.set_cons_succ, List.filter_cons, List.filter_cons]
          have hrest := ih (i := i) (by simpa using hl)
          split
          · exact hrest.cons_cons _
          · exact hrest

/-- A step that leaves the sockets alone and moves one loop, if any. -/
theorem Orderly.move (h : s.Orderly)
    (hstop : s'.isStop = false → s.isStop = false ∧ s'.closers = s.closers)
    (hsockets : s'.sockets = s.sockets)
    (hopen : ∀ k, (s'.listeners k).isOpen = (s.listeners k).isOpen)
    (hbound : ∀ k, (s'.listeners k).bound = (s.listeners k).bound)
    (hknown : ∀ l ∈ s'.loops, ∃ t ∈ s.loops, t.sock = l.sock)
    (hlive : s'.liveSockets.Sublist s.liveSockets)
    (hcurrent : ∀ l ∈ s'.loops, l.isLive = true → l.pc ≠ .queued →
      l.acceptTimeout = s'.acceptTimeout → (s'.listeners l.sock).isOpen = true →
      (s'.listeners l.sock).recvTimeout = s'.acceptTimeout) : s'.Orderly where
  nodup := hsockets ▸ h.nodup
  opened k hk := by
    rw [hopen]
    exact h.opened k (hsockets ▸ hk)
  bound k hk := by
    rw [hbound]
    exact h.bound k (hopen k ▸ hk)
  known l hl := by
    obtain ⟨t, ht, hsock⟩ := hknown l hl
    rw [hbound, ← hsock]
    exact h.known t ht
  single := h.single.sublist hlive
  running hfalse := by
    obtain ⟨hnone, hmem⟩ := h.running (hstop hfalse).1
    refine ⟨(hstop hfalse).2.trans hnone, ?_⟩
    intro k hk
    rw [hsockets]
    exact hmem k (hlive.subset hk)
  current := hcurrent

/-- A loop moves, on listeners of which the receive timeout of its own one may be set. -/
theorem Orderly.setLoop (h : s.Orderly) {l l' : AcceptLoop} (hl : s.loops[i]? = some l)
    (hsock : l'.sock = l.sock) (hlive : l'.isLive = true → l.isLive = true)
    (hfollows : l'.isLive = true → l'.pc ≠ .queued → l'.acceptTimeout = s.acceptTimeout →
      (s.listeners l.sock).isOpen = true → (s.listeners l.sock).recvTimeout = s.acceptTimeout) :
    (s.setLoop i l').Orderly := by
  refine h.move (fun hfalse => ⟨hfalse, rfl⟩) rfl (fun _ => rfl) (fun _ => rfl) ?_
    (liveSockets_set hl hsock hlive) ?_
  · intro t ht
    rcases List.mem_or_eq_of_mem_set ht with hold | rfl
    · exact ⟨t, hold, rfl⟩
    · exact ⟨l, List.mem_of_getElem? hl, hsock.symm⟩
  · intro t ht htlive hpc htimeout hopen
    rcases List.mem_or_eq_of_mem_set ht with hold | rfl
    · exact h.current t hold htlive hpc htimeout hopen
    · change (s.listeners t.sock).isOpen = true at hopen
      change (s.listeners t.sock).recvTimeout = _
      rw [hsock] at hopen ⊢
      exact hfollows htlive hpc htimeout hopen

/-- The clients that were taken are not looked at. -/
theorem Orderly.take (h : s.Orderly) (taken : List Taken) : Orderly { s with taken := taken } :=
  h.move (fun hfalse => ⟨hfalse, rfl⟩) rfl (fun _ => rfl) (fun _ => rfl) (fun l hl => ⟨l, hl, rfl⟩)
    (List.Sublist.refl _) h.current

/-- Setting a timeout keeps the loops in order. -/
theorem Orderly.setRecvTimeout (h : s.Orderly) (k : Nat) : (s.setRecvTimeout k).Orderly := by
  unfold Accepting.setRecvTimeout
  split
  · refine h.move (fun hfalse => ⟨hfalse, rfl⟩) rfl ?_ ?_ (fun l hl => ⟨l, hl, rfl⟩)
      (List.Sublist.refl _) ?_
    · intro j
      by_cases hj : j = k
      · subst hj
        simp
      · simp [hj]
    · intro j
      by_cases hj : j = k
      · subst hj
        simp
      · simp [hj]
    · intro l hl hlive hpc htimeout hopen
      by_cases hj : l.sock = k
      · simp [hj]
      · simp only [Function.update_of_ne hj] at hopen ⊢
        exact h.current l hl hlive hpc htimeout hopen
  · exact h

/-- What the call of `set_recv_timeout` is for. -/
theorem setRecvTimeout_follows (s : Accepting) (k : Nat)
    (hopen : ((s.setRecvTimeout k).listeners k).isOpen = true) :
    ((s.setRecvTimeout k).listeners k).recvTimeout = s.acceptTimeout := by
  rw [setRecvTimeout_listeners] at hopen ⊢
  split
  · rfl
  · next hnot =>
    rw [if_neg hnot] at hopen
    exact absurd ⟨rfl, hopen⟩ hnot

/-- A new socket is open, and is none of those that are there. -/
theorem Orderly.bind (h : s.Orderly) {k : Nat} (hstep : step s (.bind k) = some s') :
    s'.Orderly := by
  simp only [step] at hstep
  split at hstep
  · cases hstep
  · next hbound =>
    cases hstep
    have hnew : k ∉ s.sockets := fun hk => hbound (h.bound k (h.opened k hk))
    constructor
    · exact List.nodup_append.mpr ⟨h.nodup, List.nodup_singleton k, by
        intro j hj l hl
        rw [List.mem_singleton.mp hl]
        rintro rfl
        exact hnew hj⟩
    · intro j hj
      by_cases heq : j = k
      · subst heq
        simp
      · simp only [Function.update_of_ne heq]
        rw [List.mem_append, List.mem_singleton] at hj
        exact h.opened j (hj.resolve_right heq)
    · intro j hj
      by_cases heq : j = k
      · subst heq
        simp
      · simp only [Function.update_of_ne heq] at hj ⊢
        exact h.bound j hj
    · intro l hl
      by_cases heq : l.sock = k
      · simp [heq]
      · simp only [Function.update_of_ne heq]
        exact h.known l hl
    · exact h.single
    · intro hfalse
      obtain ⟨hnone, hmem⟩ := h.running hfalse
      exact ⟨hnone, fun j hj => List.mem_append_left _ (hmem j hj)⟩
    · intro l hl hlive hpc htimeout hopen
      have hne : l.sock ≠ k := by
        intro heq
        have hknown := h.known l hl
        rw [heq] at hknown
        exact hbound hknown
      simp only [Function.update_of_ne hne] at hopen ⊢
      exact h.current l hl hlive hpc htimeout hopen

/-- The task of `stop` runs while the server does not. -/
theorem Orderly.close (h : s.Orderly) (hstep : step s .close = some s') : s'.Orderly := by
  simp only [step] at hstep
  split at hstep
  · cases hstep
  · next hclosers =>
    cases hstep
    -- a socket that is open behind the step was not in `m_sockets`
    have hother : ∀ k, (if k ∈ s.sockets then (s.listeners k).close else s.listeners k).isOpen =
        true → (if k ∈ s.sockets then (s.listeners k).close else s.listeners k) =
          s.listeners k := by
      intro k hk
      split at hk
      · cases hk
      · next hmem => rw [if_neg hmem]
    constructor
    · exact List.nodup_nil
    · intro k hk
      cases hk
    · intro k hk
      simp only at hk ⊢
      rw [hother k hk]
      rw [hother k hk] at hk
      exact h.bound k hk
    · intro l hl
      simp only
      split
      · exact h.known l hl
      · exact h.known l hl
    · exact h.single
    · intro hfalse
      exact absurd (h.running hfalse).1 hclosers
    · intro l hl hlive hpc htimeout hopen
      simp only at hopen ⊢
      rw [hother l.sock hopen]
      rw [hother l.sock hopen] at hopen
      exact h.current l hl hlive hpc htimeout hopen

/-- Starting a server that has come to rest gives each socket one loop. -/
theorem Orderly.start (h : s.Orderly) (hmeets : s.meets .start = true)
    (hstep : step s .start = some s') : s'.Orderly := by
  simp only [step, Option.some.injEq] at hstep
  split at hstep
  · next hstop =>
    cases hstep
    simp only [meets, hstop, Bool.not_true, Bool.false_or, Bool.and_eq_true, decide_eq_true_eq,
      List.all_eq_true, Bool.not_eq_true'] at hmeets
    obtain ⟨hnone, hended⟩ := hmeets
    have hlive : ((s.loops ++ s.sockets.map fun k => (⟨k, .queued, 0⟩ : AcceptLoop)).filter
        AcceptLoop.isLive).map AcceptLoop.sock = s.sockets := by
      have hold : s.loops.filter AcceptLoop.isLive = [] := by
        rw [List.filter_eq_nil_iff]
        intro l hl
        rw [hended l hl]
        exact Bool.false_ne_true
      have hnew : (s.sockets.map fun k => (⟨k, .queued, 0⟩ : AcceptLoop)).filter
          AcceptLoop.isLive = s.sockets.map fun k => ⟨k, .queued, 0⟩ := by
        rw [List.filter_eq_self]
        intro l hl
        obtain ⟨k, -, rfl⟩ := List.mem_map.mp hl
        rfl
      rw [List.filter_append, hold, hnew, List.nil_append, List.map_map]
      exact List.map_id _
    constructor
    · exact h.nodup
    · exact h.opened
    · exact h.bound
    · intro l hl
      rcases List.mem_append.mp hl with hold | hnew
      · exact h.known l hold
      · obtain ⟨k, hk, rfl⟩ := List.mem_map.mp hnew
        exact h.bound k (h.opened k hk)
    · rw [liveSockets, hlive]
      exact h.nodup
    · intro _
      refine ⟨hnone, ?_⟩
      rw [liveSockets, hlive]
      exact fun k hk => hk
    · intro l hl hliveLoop hpc htimeout hopen
      rcases List.mem_append.mp hl with hold | hnew
      · exact h.current l hold hliveLoop hpc htimeout hopen
      · obtain ⟨k, -, rfl⟩ := List.mem_map.mp hnew
        exact absurd rfl hpc
  · cases hstep
    exact h

/-- Steps that meet their condition keep the server in order. -/
theorem step_orderly {a : AcceptStep} (h : s.Orderly) (hmeets : s.meets a = true)
    (hstep : step s a = some s') : s'.Orderly := by
  cases a with
  | bind k => exact h.bind hstep
  | setAcceptTimeout ms =>
      cases hstep
      simp only [meets, List.all_eq_true] at hmeets
      refine h.move (fun hfalse => ⟨hfalse, rfl⟩) rfl (fun _ => rfl) (fun _ => rfl)
        (fun l hl => ⟨l, hl, rfl⟩) (List.Sublist.refl _) ?_
      intro l hl hlive hpc htimeout
      have hne := hmeets l hl
      rw [hlive] at hne
      simp only [Bool.not_true, Bool.false_or, Bool.or_eq_true, decide_eq_true_eq] at hne
      exact absurd htimeout.symm (hne.resolve_left hpc)
  | start => exact h.start hmeets hstep
  | stop =>
      cases hstep
      exact h.move (fun hfalse => absurd hfalse (by simp)) rfl (fun _ => rfl) (fun _ => rfl)
        (fun l hl => ⟨l, hl, rfl⟩) (List.Sublist.refl _) h.current
  | close => exact h.close hstep
  | enter i =>
      obtain ⟨l, hl, hpc, rfl⟩ := step_enter hstep
      refine (h.setRecvTimeout l.sock).setLoop (l := l) (by rwa [setRecvTimeout_loops]) rfl ?_ ?_
      · intro _
        simp [AcceptLoop.isLive, hpc]
      · intro _ _ _ hopen
        rw [setRecvTimeout_acceptTimeout]
        exact setRecvTimeout_follows s l.sock hopen
  | test i =>
      obtain ⟨l, hl, hpc, ⟨-, rfl⟩ | ⟨-, rfl⟩⟩ := step_test hstep
      · refine h.setLoop hl rfl ?_ ?_
        · intro hlive
          cases hlive
        · intro hlive
          cases hlive
      · have hlive : l.isLive = true := by simp [AcceptLoop.isLive, hpc]
        split
        · next hne =>
          refine (h.setRecvTimeout l.sock).setLoop (l := l) (by rwa [setRecvTimeout_loops]) rfl
            (fun _ => hlive) ?_
          intro _ _ _ hopen
          rw [setRecvTimeout_acceptTimeout]
          exact setRecvTimeout_follows s l.sock hopen
        · refine h.setLoop hl rfl (fun _ => hlive) ?_
          intro _ _ htimeout hopen
          exact h.current l (List.mem_of_getElem? hl) hlive (by simp [hpc]) htimeout hopen
  | accept i client ok =>
      obtain ⟨l, hl, hpc, -, rfl⟩ := step_accept hstep
      have hlive : l.isLive = true := by simp [AcceptLoop.isLive, hpc]
      have htake := h.take
        (s.taken ++ [⟨l.sock, client, if ok then some s.acceptTimeout else none⟩])
      refine htake.setLoop (l := l) hl rfl (fun _ => hlive) ?_
      intro _ _ htimeout hopen
      exact h.current l (List.mem_of_getElem? hl) hlive (by simp [hpc]) htimeout hopen
  | fail i =>
      obtain ⟨l, hl, hpc, rfl⟩ := step_fail hstep
      have hlive : l.isLive = true := by simp [AcceptLoop.isLive, hpc]
      refine h.setLoop hl rfl (fun _ => hlive) ?_
      intro _ _ htimeout hopen
      exact h.current l (List.mem_of_getElem? hl) hlive (by simp [hpc]) htimeout hopen

/-- In every run in which `start` only takes effect on a server that has come to rest, and the
timeout is not set back: a socket has one loop at most; while the server runs, no loop is on a
socket that is closed; and a loop goes into `accept` with the current timeout. -/
theorem run_orderly {acceptTimeout : Int} {steps : List AcceptStep}
    (hmeet : (init acceptTimeout).allMeet steps = true)
    (hrun : (init acceptTimeout).run steps = some s) :
    s.liveSockets.Nodup ∧
      (s.isStop = false → ∀ k ∈ s.liveSockets, (s.listeners k).isOpen = true) ∧
      ∀ i s', step s (.test i) = some s' → ∀ l, s'.loops[i]? = some l → l.pc = .accepting →
        (s'.listeners l.sock).isOpen = true →
        (s'.listeners l.sock).recvTimeout = s'.acceptTimeout := by
  have h : s.Orderly := Lib.invariant_of_allMeet
    (fun s a s' hinv hmeets hstep => step_orderly hinv hmeets hstep) hmeet hrun
    (init_orderly acceptTimeout)
  refine ⟨h.single, fun hfalse k hk => h.opened k ((h.running hfalse).2 k hk), ?_⟩
  intro i s' hstep l hl hpc hopen
  obtain ⟨t, ht, hpcTest, ⟨-, rfl⟩ | ⟨-, rfl⟩⟩ := step_test hstep
  · rw [setLoop, List.getElem?_set_self (List.getElem?_eq_some_iff.mp ht).1] at hl
    cases hl
    cases hpc
  · split at hl
    · next hne =>
      rw [setLoop, setRecvTimeout_loops,
        List.getElem?_set_self (List.getElem?_eq_some_iff.mp ht).1] at hl
      cases hl
      rw [if_pos hne] at hopen ⊢
      exact (setRecvTimeout_follows s t.sock hopen).trans
        (setRecvTimeout_acceptTimeout s t.sock).symm
    · next heq =>
      rw [setLoop, List.getElem?_set_self (List.getElem?_eq_some_iff.mp ht).1] at hl
      cases hl
      rw [if_neg heq] at hopen ⊢
      have hlive : t.isLive = true := by simp [AcceptLoop.isLive, hpcTest]
      exact h.current t (List.mem_of_getElem? ht) hlive (by simp [hpcTest]) (not_not.mp heq) hopen

/-- Two sockets are bound, and the server stops, comes to rest and starts again on two new ones. -/
def restartSteps : List AcceptStep :=
  [.bind 0, .bind 1, .start, .enter 0, .test 0, .enter 1, .test 1, .accept 1 7 true, .stop, .close,
    .fail 0, .test 0, .test 1, .bind 2, .bind 3, .start, .enter 2, .enter 3, .test 3]

/-- Behind `restartSteps` there are loops on the two new sockets, one of them in `accept`. -/
theorem run_orderly_restart : ∃ s, (init 6000).run restartSteps = some s ∧
    s.liveSockets = [2, 3] ∧ s.liveSockets.Nodup ∧
      ∀ k ∈ s.liveSockets, (s.listeners k).isOpen = true := by
  have horderly := run_orderly (show (init 6000).allMeet restartSteps = true by rfl)
    (show (init 6000).run restartSteps = some _ from rfl)
  exact ⟨_, rfl, rfl, horderly.1, horderly.2.1 rfl⟩

/-- Started again before the task of `stop` has run, the server has a loop on a closed socket. -/
theorem restart_spins : ∃ s, (init 6000).run
      [.bind 0, .start, .enter 0, .test 0, .stop, .start, .close, .fail 0, .test 0] = some s ∧
    s.isStop = false ∧ s.liveSockets = [0, 0] ∧ (s.listeners 0).isOpen = false :=
  ⟨_, rfl, rfl, rfl, rfl⟩

end Accepting
end TcpServer
end Tiger
