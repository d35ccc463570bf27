import Tiger.Streams.SocketStream

/-!
# IOManager - registered events

This module embeds the events of `IOManager` (`src/iomanager.h`, `src/iomanager.cc`):
the context of each descriptor, `add_event`, `del_event`, `cancel_event`,
`cancel_all_event`, and what `idle` does with an event that `epoll_wait` returns.

The state holds, besides the contexts and `m_appending_event_cnt`, what epoll watches
for each descriptor, and the calls of `schedule` that `trigger_event` has made.  Each
`epoll_ctl` succeeds or fails as it is told.  Contexts are kept for all descriptors;
those from `size` on have not been created yet.
-/

namespace Tiger
namespace IOManager

/-! ## Statuses -/

/-- The values of `EventStatus`, as sets of directions. -/
structure EventStatus where
  read : Bool
  write : Bool
deriving DecidableEq

namespace EventStatus

/-- `EventStatus::NONE` -/
def none : EventStatus := ⟨false, false⟩

/-- `EventStatus::READ` -/
def READ : EventStatus := ⟨true, false⟩

/-- `EventStatus::WRITE` -/
def WRITE : EventStatus := ⟨false, true⟩

/-- `a | b` -/
def union (a b : EventStatus) : EventStatus := ⟨a.read || b.read, a.write || b.write⟩

/-- `a & b` -/
def inter (a b : EventStatus) : EventStatus := ⟨a.read && b.read, a.write && b.write⟩

/-- `a & ~b` -/
def minus (a b : EventStatus) : EventStatus := ⟨a.read && !b.read, a.write && !b.write⟩

/-- `a & b`, as a truth value. -/
def meets (a b : EventStatus) : Bool := decide (a.inter b ≠ none)

end EventStatus

/-- The directions that callers pass. -/
inductive Direction
  | read
  | write
deriving DecidableEq

/-- The status of a direction. -/
def Direction.status : Direction → EventStatus
  | .read => .READ
  | .write => .WRITE

/-! ## Contexts -/

/-- `EventContext`; the scheduler, the coroutine and the callback are pointers that may
be null. -/
structure EventContext where
  scheduler : Option Nat
  threadId : Nat
  co : Option Nat
  cb : Option Nat
deriving DecidableEq

/-- `reset_event_context`, and a new one.  The source does not initialise `thread_id` of a
new one. -/
def EventContext.empty : EventContext := ⟨none, 0, none, none⟩

/-- What `schedule` is called with: a coroutine, or else the callback. -/
inductive Waiter
  | co (id : Nat)
  | cb (id : Option Nat)
deriving DecidableEq

/-- A call `scheduler->schedule(waiter, thread_id)`. -/
structure ScheduleCall where
  scheduler : Option Nat
  waiter : Waiter
  threadId : Nat
deriving DecidableEq

/-- The call that `trigger_event` makes. -/
def EventContext.call (e : EventContext) : ScheduleCall :=
  match e.co with
  | some co => ⟨e.scheduler, .co co, e.threadId⟩
  | none => ⟨e.scheduler, .cb e.cb, e.threadId⟩

/-- `Context` -/
structure Context where
  statuses : EventStatus
  read : EventContext
  write : EventContext
deriving DecidableEq

namespace Context

/-- A new context. -/
def empty : Context := ⟨.none, .empty, .empty⟩

/-- `get_event_context` -/
def getEventContext (ctx : Context) (status : EventStatus) : EventContext :=
  if status = .READ then ctx.read else ctx.write

/-- A change of the event context that `get_event_context` returns. -/
def setEventContext (ctx : Context) (status : EventStatus) (e : EventContext) : Context :=
  if status = .READ then { ctx with read := e } else { ctx with write := e }

/-- `trigger_event`: the context and the call that it makes. -/
def triggerEvent (ctx : Context) (status : EventStatus) : Context × List ScheduleCall :=
  if !ctx.statuses.meets status then (ctx, [])
  else
    let ctx := { ctx with statuses := ctx.statuses.minus status }
    (ctx.setEventContext status .empty, [(ctx.getEventContext status).call])

end Context

/-- What the calling thread has: its scheduler, its running coroutine, its id. -/
structure Caller where
  scheduler : Option Nat
  runningCo : Option Nat
  threadId : Nat
deriving DecidableEq

/-- What `add_event` puts into the event context. -/
def EventContext.fill (e : EventContext) (cb : Option Nat) (caller : Caller) : EventContext :=
  match cb with
  | some cb => { e with scheduler := caller.scheduler, cb := some cb }
  | none =>
      { e with scheduler := caller.scheduler, co := caller.runningCo, threadId := caller.threadId }

/-! ## The manager -/

/-- The members of `IOManager`, what epoll watches, and the calls of `schedule` so far. -/
structure Manager where
  contexts : Nat → Context
  size : Nat
  interest : Nat → Option EventStatus
  appendingEventCnt : UInt64
  calls : List ScheduleCall

namespace Manager

/-- `IOManager::IOManager` -/
def init : Manager := ⟨fun _ => .empty, 128, fun _ => none, 0, []⟩

/-- `(int)m_contexts.size() <= fd` -/
def beyond (m : Manager) (fd : Nat) : Bool := decide (toInt32 m.size ≤ (fd : Int))

/-- `fd_context_resize` -/
def fdContextResize (m : Manager) (size : Nat) : Manager :=
  if size ≤ m.size then m else { m with size := size }

/-- The operations of `epoll_ctl`. -/
inductive EpollOp
  | add
  | mod
  | del
deriving DecidableEq

/-- `epoll_ctl(m_epfd, op, fd, &event)` with `events = EPOLLET | status`; `none` when it
fails. -/
def epollCtl (m : Manager) (ok : Bool) (op : EpollOp) (fd : Nat) (status : EventStatus) :
    Option Manager :=
  if !ok then none
  else
    match op with
    | .add | .mod => some { m with interest := Function.update m.interest fd (some status) }
    | .del => some { m with interest := Function.update m.interest fd none }

/-- `left_status ? EPOLL_CTL_MOD : EPOLL_CTL_DEL` -/
def modOrDel (status : EventStatus) : EpollOp := if status = .none then .del else .mod

/-- A changed context. -/
def setContext (m : Manager) (fd : Nat) (ctx : Context) : Manager :=
  { m with contexts := Function.update m.contexts fd ctx }

/-- `ctx->trigger_event(status)` -/
def triggerEvent (m : Manager) (fd : Nat) (status : EventStatus) : Manager :=
  let r := (m.contexts fd).triggerEvent status
  { m.setContext fd r.1 with calls := m.calls ++ r.2 }

/-- `--m_appending_event_cnt` -/
def decrement (m : Manager) : Manager :=
  { m with appendingEventCnt := m.appendingEventCnt - 1 }

/-- `add_event` creates the contexts up to the descriptor. -/
def locate (m : Manager) (fd : Nat) : Manager :=
  if m.beyond fd then m.fdContextResize (3 * fd / 2) else m

/-- The part of `add_event` under the mutex of the context, with `ok` for the result of
`epoll_ctl`. -/
def addEventLocked (m : Manager) (fd : Nat) (status : EventStatus) (cb : Option Nat)
    (caller : Caller) (ok : Bool) : Bool × Manager :=
  let ctx := m.contexts fd
  if ctx.statuses.meets status then (false, m)
  else
    let op := if ctx.statuses = .none then EpollOp.add else .mod
    match m.epollCtl ok op fd (ctx.statuses.union status) with
    | none => (false, m)
    | some m =>
        let m := { m with appendingEventCnt := m.appendingEventCnt + 1 }
        let ctx := { ctx with statuses := ctx.statuses.union status }
        (true, m.setContext fd
          (ctx.setEventContext status ((ctx.getEventContext status).fill cb caller)))

/-- `add_event` -/
def addEvent (m : Manager) (fd : Nat) (status : EventStatus) (cb : Option Nat) (caller : Caller)
    (ok : Bool) : Bool × Manager :=
  (m.locate fd).addEventLocked fd status cb caller ok

/-- `del_event` -/
def delEvent (m : Manager) (fd : Nat) (status : EventStatus) (ok : Bool) : Bool × Manager :=
  if m.beyond fd then (false, m)
  else
    let ctx := m.contexts fd
    if !ctx.statuses.meets status then (false, m)
    else
      let newStatus := ctx.statuses.minus status
      match m.epollCtl ok (modOrDel newStatus) fd newStatus with
      | none => (false, m)
      | some m =>
          let ctx := { ctx with statuses := newStatus }
          -- the context of what is left is reset
          (true, m.decrement.setContext fd (ctx.setEventContext newStatus .empty))

/-- The part of `cancel_event` under the mutex of the context. -/
def cancelEventLocked (m : Manager) (fd : Nat) (status : EventStatus) (ok : Bool) :
    Bool × Manager :=
  let newStatus := (m.contexts fd).statuses.minus status
  match m.epollCtl ok (modOrDel newStatus) fd newStatus with
  | none => (false, m)
  | some m => (true, m.decrement.triggerEvent fd status)

/-- `cancel_event` -/
def cancelEvent (m : Manager) (fd : Nat) (status : EventStatus) (ok : Bool) : Bool × Manager :=
  if m.beyond fd then (false, m)
  else if !(m.contexts fd).statuses.meets status then (false, m)
  else m.cancelEventLocked fd status ok

/-- One direction of `cancel_all_event`, and of the delivery in `idle`. -/
def triggerIf (m : Manager) (fd : Nat) (wanted : Bool) (status : EventStatus) : Manager :=
  if wanted then (m.triggerEvent fd status).decrement else m

/-- The part of `cancel_all_event` under the mutex of the context. -/
def cancelAllEventLocked (m : Manager) (fd : Nat) (ok : Bool) : Bool × Manager :=
  match m.epollCtl ok .del fd .none with
  | none => (false, m)
  | some m =>
      let m := m.triggerIf fd ((m.contexts fd).statuses.meets .READ) .READ
      (true, m.triggerIf fd ((m.contexts fd).statuses.meets .WRITE) .WRITE)

/-- `cancel_all_event` -/
def cancelAllEvent (m : Manager) (fd : Nat) (ok : Bool) : Bool × Manager :=
  if m.beyond fd then (false, m)
  else if (m.contexts fd).statuses = .none then (false, m)
  else m.cancelAllEventLocked fd ok

/-! ## Delivery -/

/-- The bits of `event.events` that `idle` looks at. -/
structure EpollMask where
  epollIn : Bool
  epollOut : Bool
  epollErr : Bool
  epollHup : Bool
deriving DecidableEq

/-- `event.events |= EPOLLIN | EPOLLOUT` for errors. -/
def EpollMask.widen (mask : EpollMask) : EpollMask :=
  if mask.epollErr || mask.epollHup then { mask with epollIn := true, epollOut := true } else mask

/-- `real_status`; the second assignment overwrites the first. -/
def EpollMask.realStatus (mask : EpollMask) : EventStatus :=
  let status := if mask.widen.epollIn then .READ else EventStatus.none
  if mask.widen.epollOut then .WRITE else status

/-- The body of the loop of `idle` for an event of a descriptor. -/
def deliver (m : Manager) (fd : Nat) (mask : EpollMask) (ok : Bool) : Manager :=
  let realStatus := mask.realStatus
  let ctx := m.contexts fd
  if ctx.statuses.inter realStatus = .none then m
  else
    let leftStatus := ctx.statuses.minus realStatus
    match m.epollCtl ok (modOrDel leftStatus) fd leftStatus with
    | none => m
    | some m =>
        let m := m.triggerIf fd (realStatus.meets .READ) .READ
        m.triggerIf fd (realStatus.meets .WRITE) .WRITE

end Manager

/-! ## Sequences of operations -/

/-- The operations, each with the result of its `epoll_ctl`. -/
inductive Cmd
  | addEvent (fd : Nat) (d : Direction) (cb : Option Nat) (caller : Caller) (ok : Bool)
  | delEvent (fd : Nat) (d : Direction) (ok : Bool)
  | cancelEvent (fd : Nat) (d : Direction) (ok : Bool)
  | cancelAllEvent (fd : Nat) (ok : Bool)
  | deliver (fd : Nat) (mask : Manager.EpollMask) (ok : Bool)

/-- The descriptor of an operation. -/
def Cmd.fd : Cmd → Nat
  | .addEvent fd _ _ _ _ | .delEvent fd _ _ | .cancelEvent fd _ _ | .cancelAllEvent fd _
  | .deliver fd _ _ => fd

/-- One operation: what it returns, true for a delivery, and the manager behind it. -/
def step (m : Manager) : Cmd → Bool × Manager
  | .addEvent fd d cb caller ok => m.addEvent fd d.status cb caller ok
  | .delEvent fd d ok => m.delEvent fd d.status ok
  | .cancelEvent fd d ok => m.cancelEvent fd d.status ok
  | .cancelAllEvent fd ok => m.cancelAllEvent fd ok
  | .deliver fd mask ok => (true, m.deliver fd mask ok)

/-- Operations one after the other. -/
def run (m : Manager) (cmds : List Cmd) : Manager := cmds.foldl (fun m c => (step m c).2) m

end IOManager
end Tiger
