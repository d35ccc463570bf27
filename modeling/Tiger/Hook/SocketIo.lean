import Mathlib.Tactic
import Tiger.Hook.Flags

/-!
# Hooks - do_socket_io

This module embeds `do_socket_io` (`src/hook.cc`) as it looks from the coroutine that calls
it: what the system call returns, whether `add_event` succeeds, and what the coroutine
finds when it is resumed, come from outside.  While it is suspended other coroutines run on
its thread, and they share `errno` with it.

After a resumption the loop goes on by `continue`, which evaluates its condition, with
`errno` as the others have left it.

Main results:

- Theorem `doSocketIo_retries_iff`: a call that is resumed by readiness repeats the system
  call, and fails for reasons of its own, exactly when the others leave `EINTR` or `EAGAIN`
  in `errno`.
- Theorem `doSocketIo_gives_up`: a call that gives up.
-/

namespace Tiger
namespace Hook

/-! ## The function -/

/-- `errno` values of Linux. -/
def EINTR : Nat := 4

/-- `EBADF` -/
def EBADF : Nat := 9

/-- `EAGAIN` -/
def EAGAIN : Nat := 11

/-- `ETIMEDOUT` -/
def ETIMEDOUT : Nat := 110

/-- `n == -1 && errno == EAGAIN` -/
def wouldBlock (n : Int) (errno : Nat) : Bool := decide (n = -1) && decide (errno = EAGAIN)

/-- The condition of the loop: `n == -1 && (errno == EINTR || errno == EAGAIN)`. -/
def loopAgain (n : Int) (errno : Nat) : Bool :=
  decide (n = -1) && (decide (errno = EINTR) || decide (errno = EAGAIN))

/-- What one round of the loop gets from outside. -/
structure Round where
  /-- what the system call returns -/
  n : Int
  /-- `errno` behind the system call -/
  errno : Nat
  /-- what `add_event` returns -/
  added : Bool
  /-- `errno` behind `add_event` -/
  addErrno : Nat
  /-- `state->canceled` behind `Yield` -/
  canceled : Bool
  /-- `errno` of the thread behind `Yield` -/
  resumeErrno : Nat
deriving DecidableEq

/-- What a call does and sees. -/
inductive IoEvent
  | attempt (n : Int) (errno : Nat)
  | addEvent (ok : Bool)
  | resumed (canceled : Bool) (errno : Nat)
  | returned (n : Int) (errno : Nat)
deriving DecidableEq

/-- The loop of `do_socket_io`; it is still under way where the rounds end. -/
def socketIoLoop : List Round → List IoEvent
  | [] => []
  | r :: rounds =>
      .attempt r.n r.errno ::
        if wouldBlock r.n r.errno then
          if r.added then
            .addEvent true :: .resumed r.canceled r.resumeErrno ::
              if r.canceled then [.returned (-1) ETIMEDOUT]
              else if loopAgain r.n r.resumeErrno then socketIoLoop rounds
              else [.returned r.n r.resumeErrno]
          else [.addEvent false, .returned (-1) r.addErrno]
        else if loopAgain r.n r.errno then socketIoLoop rounds
        else [.returned r.n r.errno]

/-- The call without the hook. -/
def plainIo : List Round → List IoEvent
  | [] => []
  | r :: _ => [.attempt r.n r.errno, .returned r.n r.errno]

/-- `do_socket_io`, with what `__enable_hook` and `get_fd` return. -/
def doSocketIo (enableHook : Bool) (entity : Option FDEntity) (rounds : List Round) :
    List IoEvent :=
  if !enableHook then plainIo rounds
  else
    match entity with
    | none => plainIo rounds
    | some e =>
        if e.isClosed then [.returned (-1) EBADF]
        else if !e.isSocket || e.isUserNonblock then plainIo rounds
        else socketIoLoop rounds

/-! ## Retries -/

/-- What may follow what: a resumption by readiness is followed by the system call, and a
failure is that of the attempt before it, a timeout, or a failed `add_event`. -/
def Follows (a b : IoEvent) : Prop :=
  ((∃ e, a = .resumed false e) → ∃ n e, b = .attempt n e) ∧
    ∀ e, b = .returned (-1) e →
      a = .attempt (-1) e ∨ ((∃ e', a = .resumed true e') ∧ e = ETIMEDOUT) ∨ a = .addEvent false

/-- The descriptor is one that the loop is for. -/
def managed (enableHook : Bool) (entity : Option FDEntity) : Bool :=
  enableHook && entity.any fun e => !e.isClosed && e.isSocket && !e.isUserNonblock

/-- Whenever the call is resumed by readiness, `errno` is `EINTR` or `EAGAIN`. -/
def ErrnoKept : List Round → Prop
  | [] => True
  | r :: rounds =>
      if wouldBlock r.n r.errno then
        (r.added = true → r.canceled = false →
          (r.resumeErrno = EINTR ∨ r.resumeErrno = EAGAIN) ∧ ErrnoKept rounds)
      else loopAgain r.n r.errno = true → ErrnoKept rounds

theorem follows_attempt (a : IoEvent) (n : Int) (e : Nat) : Follows a (.attempt n e) :=
  ⟨fun _ => ⟨n, e, rfl⟩, fun _ h => nomatch h⟩

/-- The loop starts with the system call. -/
theorem isChain_cons_loop (a : IoEvent) (rounds : List Round) :
    (a :: socketIoLoop rounds).IsChain Follows ↔ (socketIoLoop rounds).IsChain Follows := by
  cases rounds with
  | nil => simp [socketIoLoop]
  | cons r rounds =>
      rw [socketIoLoop, List.isChain_cons_cons]
      exact and_iff_right (follows_attempt a _ _)

theorem loopAgain_iff {n : Int} (hn : n = -1) (errno : Nat) :
    loopAgain n errno = true ↔ errno = EINTR ∨ errno = EAGAIN := by
  simp [loopAgain, hn]

theorem wouldBlock_iff {n : Int} {errno : Nat} :
    wouldBlock n errno = true ↔ n = -1 ∧ errno = EAGAIN := by
  simp [wouldBlock]

/-- Where nothing is resumed and nothing fails, anything may follow. -/
theorem follows_of {a b : IoEvent} (ha : ∀ e, a ≠ .resumed false e)
    (hb : ∀ e, b ≠ .returned (-1) e) :
    Follows a b :=
  ⟨fun ⟨e, h⟩ => absurd h (ha e), fun e h => absurd h (hb e)⟩

/-- An attempt that is not repeated is what the call returns. -/
theorem follows_returned (n : Int) (e : Nat) : Follows (.attempt n e) (.returned n e) := by
  refine ⟨by simp, ?_⟩
  rintro e' h
  cases h
  exact .inl rfl

/-- The events of a round that waits. -/
theorem isChain_wait_iff (n : Int) (errno : Nat) (b : IoEvent) (log : List IoEvent) :
    (IoEvent.attempt n errno :: .addEvent true :: b :: log).IsChain Follows ↔
      Follows (.addEvent true) b ∧ (b :: log).IsChain Follows := by
  rw [List.isChain_cons_cons, List.isChain_cons_cons]
  exact and_iff_right (follows_of (by simp) (by simp))

/-- The loop repeats the system call exactly when `errno` is kept. -/
theorem socketIoLoop_follows_iff (rounds : List Round) :
    (socketIoLoop rounds).IsChain Follows ↔ ErrnoKept rounds := by
  induction rounds with
  | nil => exact iff_of_true List.isChain_nil trivial
  | cons r rounds ih =>
      rw [socketIoLoop, ErrnoKept]
      cases hblock : wouldBlock r.n r.errno with
      | false =>
          simp only [Bool.false_eq_true, if_false]
          cases hagain : loopAgain r.n r.errno with
          | true =>
              rw [if_pos rfl, isChain_cons_loop, ih]
              simp
          | false =>
              rw [if_neg Bool.false_ne_true]
              refine iff_of_true ?_ (fun h => nomatch h)
              exact List.isChain_cons_cons.mpr ⟨follows_returned _ _, List.isChain_singleton _⟩
      | true =>
          have hn := (wouldBlock_iff.mp hblock).1
          have hagain := loopAgain_iff hn r.resumeErrno
          simp only [if_true]
          cases hadded : r.added with
          | false =>
              refine iff_of_true ?_ (fun h => nomatch h)
              refine List.isChain_cons_cons.mpr ⟨follows_of (by simp) (by simp), ?_⟩
              refine List.isChain_cons_cons.mpr ⟨?_, List.isChain_singleton _⟩
              exact ⟨by simp, fun e _ => .inr (.inr rfl)⟩
          | true =>
              rw [if_pos rfl, isChain_wait_iff,
                and_iff_right (follows_of (by simp) (by simp)), forall_prop_of_true rfl]
              cases hcanceled : r.canceled with
              | true =>
                  refine iff_of_true ?_ (fun h => nomatch h)
                  refine List.isChain_cons_cons.mpr ⟨?_, List.isChain_singleton _⟩
                  refine ⟨by simp, ?_⟩
                  rintro e h
                  cases h
                  exact .inr (.inl ⟨⟨_, rfl⟩, rfl⟩)
              | false =>
                  rw [forall_prop_of_true rfl, if_neg Bool.false_ne_true, ← hagain]
                  cases loopAgain r.n r.resumeErrno with
                  | true =>
                      rw [if_pos rfl, isChain_cons_loop, ih]
                      exact (and_iff_right rfl).symm
                  | false =>
                      -- the call returns with what is in `errno`
                      rw [if_neg Bool.false_ne_true, List.isChain_cons_cons]
                      refine iff_of_false ?_ (fun h => nomatch h.1)
                      rintro ⟨hfollows, _⟩
                      rcases hfollows.1 ⟨_, rfl⟩ with ⟨n, e, h⟩
                      cases h

/-- A call that is resumed by readiness issues the system call again, and returns `-1` only
with the error of its last attempt, after its timeout or after a failed `add_event`, if and
only if `errno` is `EINTR` or `EAGAIN` whenever it is resumed by readiness. -/
theorem doSocketIo_retries_iff (enableHook : Bool) (entity : Option FDEntity)
    (rounds : List Round) :
    (doSocketIo enableHook entity rounds).IsChain Follows ↔
      (managed enableHook entity = true → ErrnoKept rounds) := by
  have hplain : (plainIo rounds).IsChain Follows := by
    cases rounds with
    | nil => exact List.isChain_nil
    | cons r rounds =>
        exact List.isChain_cons_cons.mpr ⟨follows_returned _ _, List.isChain_singleton _⟩
  cases enableHook with
  | false => exact iff_of_true hplain (fun h => nomatch h)
  | true =>
      cases entity with
      | none => exact iff_of_true hplain (fun h => nomatch h)
      | some e =>
          cases hclosed : e.isClosed with
          | true =>
              simp [doSocketIo, managed, hclosed]
          | false =>
              cases hplainIo : (!e.isSocket || e.isUserNonblock) with
              | true =>
                  have hnot : managed true (some e) = false := by
                    cases hsocket : e.isSocket <;> simp_all [managed]
                  rw [hnot]
                  simpa [doSocketIo, hclosed, hplainIo] using hplain
              | false =>
                  have hmanaged : managed true (some e) = true := by
                    cases hsocket : e.isSocket <;> simp_all [managed]
                  rw [hmanaged]
                  simpa [doSocketIo, hclosed, hplainIo] using socketIoLoop_follows_iff rounds

/-- The system call would block, the event is registered, another coroutine leaves `ENOENT` in
`errno`, and the call is resumed by readiness. -/
def foreignErrno : List Round := [⟨-1, EAGAIN, true, 0, false, 2⟩, ⟨5, 0, true, 0, false, 0⟩]

/-- The call returns the error of the other coroutine without another attempt. -/
theorem doSocketIo_gives_up :
    doSocketIo true (some ⟨true, true, false, true, false⟩) foreignErrno =
        [.attempt (-1) EAGAIN, .addEvent true, .resumed false 2, .returned (-1) 2] ∧
      ¬(doSocketIo true (some ⟨true, true, false, true, false⟩) foreignErrno).IsChain Follows := by
  have hlog : doSocketIo true (some ⟨true, true, false, true, false⟩) foreignErrno =
      [.attempt (-1) EAGAIN, .addEvent true, .resumed false 2, .returned (-1) 2] := by decide
  refine ⟨hlog, ?_⟩
  rw [hlog]
  intro h
  have hlast := (List.isChain_cons_cons.mp (List.isChain_cons_cons.mp
    (List.isChain_cons_cons.mp h).2).2).1
  rcases hlast.1 ⟨2, rfl⟩ with ⟨n, e, hattempt⟩
  cases hattempt

end Hook
end Tiger
