import Tiger.Fd.Manager
import Tiger.Hook.Flags
import Tiger.IOManager.Contexts

/-!
# Sockets - descriptors and the tables that they index

This module embeds the operations of `Socket` (`src/socket.cc`) that look a descriptor up: in
`FDManager::m_datas`, through the hooks of `socket`, `connect` and `close` and for the timeouts,
and in `IOManager::m_contexts`, to register and to cancel events.  A socket without a descriptor
has `m_sock = -1`.  Both tables compare a descriptor with their size from above only.  As before,
an operation that would index a vector outside of its size has no result.

Main results:

- Theorem `indexed_iff`: along every sequence of operations, every index is non-negative and
  below the size of its vector exactly if no timeout is read or set and nothing is cancelled
  while the socket has no descriptor, and the table of entities grows far enough for every
  descriptor that the socket gets.
-/

namespace Tiger
namespace Socket

open Lib

/-! ## Indices -/

/-- The position of `v[i]` in a vector with that many elements. -/
def element (size : Nat) (i : Int) : Option Nat :=
  if 0 ≤ i ∧ i < size then some i.toNat else none

/-- `FDManager::get_fd` without `auto_create`, for any `int`. -/
def getFd (m : Fd.FDManager) (fd : Int) : Option (Option Fd.Handle) :=
  if toInt32 m.datas.length ≤ fd then some none
  else (element m.datas.length fd).map m.entry

/-- `FDManager::del_fd`, for any `int`. -/
def delFd (m : Fd.FDManager) (fd : Int) : Option Fd.FDManager :=
  if toInt32 m.datas.length ≤ fd then some m
  else (element m.datas.length fd).bind m.delFd

/-- `IOManager::add_event`, for any `int`. -/
def addEvent (m : IOManager.Manager) (fd : Int) (d : IOManager.Direction)
    (caller : IOManager.Caller)
    (ok : Bool) : Option (Bool × IOManager.Manager) :=
  let located := if toInt32 m.size ≤ fd then m.fdContextResize (3 * fd.toNat / 2) else m
  (element located.size fd).map fun i => m.addEvent i d.status none caller ok

/-- `IOManager::cancel_event`, for any `int`. -/
def cancelEvent (m : IOManager.Manager) (fd : Int) (d : IOManager.Direction) (ok : Bool) :
    Option (Bool × IOManager.Manager) :=
  if toInt32 m.size ≤ fd then some (false, m)
  else (element m.size fd).map fun i => m.cancelEvent i d.status ok

/-- `IOManager::cancel_all_event`, for any `int`. -/
def cancelAllEvent (m : IOManager.Manager) (fd : Int) (ok : Bool) :
    Option (Bool × IOManager.Manager) :=
  if toInt32 m.size ≤ fd then some (false, m)
  else (element m.size fd).map fun i => m.cancelAllEvent i ok

/-! ## The socket -/

/-- `FDEntity`, with its timeouts. -/
structure Entity extends Hook.FDEntity where
  connectTimeout : UInt64
  recvTimeout : UInt64
  sendTimeout : UInt64
deriving DecidableEq

/-- `FDEntity::init()` of a new entity. -/
def Entity.init (isSock : Option Bool) : Entity :=
  let isSocket := isSock.getD false
  ⟨⟨isSock.isSome, isSocket, false, isSocket, false⟩, 0, 0, 0⟩

/-- A socket, the entities by their number, and the tables. -/
structure World where
  /-- `m_sock` -/
  sock : Int
  /-- `m_is_connected` -/
  isConnected : Bool
  fds : Fd.FDManager
  entities : Nat → Entity
  /-- `IOManager::GetThreadIOM()` of the calling thread -/
  iom : IOManager.Manager

/-- What the calling thread has. -/
structure Env where
  /-- `__enable_hook()` -/
  enableHook : Bool
  /-- `IOManager::GetThreadIOM()` is not null. -/
  hasIom : Bool
  caller : IOManager.Caller
deriving DecidableEq

/-- `socket_f` returns a descriptor or -1, and `fstat` says what a new entity is. -/
structure Sys where
  socket : Option Nat
  isSock : Option Bool
deriving DecidableEq

/-- The results of `connect_f`. -/
inductive Connecting
  | done
  | inProgress
  | failed
deriving DecidableEq

/-- What happens in one `connect` of a socket. -/
structure ConnectSys extends Sys where
  /-- `timeout_ms`, if it is not -1. -/
  timeoutMs : Option UInt64
  connect : Connecting
  /-- The results of `epoll_ctl`: when the event is added, when it is cancelled by the timer, and
  when the socket is closed. -/
  addOk : Bool
  cancelOk : Bool
  closeOk : Bool
  /-- The timer has run before the event. -/
  timedOut : Bool
  /-- `getsockopt` succeeds and finds no error. -/
  noError : Bool
deriving DecidableEq

namespace World

/-- `Socket::is_valid` -/
def isValid (w : World) : Bool := decide (w.sock ≠ -1)

/-- The hook of `socket`. -/
def socketHook (w : World) (env : Env) (sys : Sys) : Option (Int × World) :=
  match sys.socket with
  | none => some (-1, w)
  | some fd =>
      if !env.enableHook then some (fd, w)
      else (w.fds.getFd fd true).map fun r =>
        -- an entity that is created now has the next number
        let entities := Function.update w.entities w.fds.created (Entity.init sys.isSock)
        let w := if r.2.created = w.fds.created then w else { w with entities := entities }
        match r.1 with
        | some e => (e.fd, { w with fds := r.2 })
        | none => (fd, { w with fds := r.2 })

/-- `Socket::new_sock`; the options are set without an index. -/
def newSock (w : World) (env : Env) (sys : Sys) : Option World :=
  (w.socketHook env sys).map fun r => { r.2 with sock := r.1 }

/-- A socket that is not valid gets a descriptor first. -/
def ensureSock (w : World) (env : Env) (sys : Sys) : Option World :=
  if !w.isValid then w.newSock env sys else some w

/-- The hook of `close`. -/
def closeHook (w : World) (env : Env) (ok : Bool) : Option World :=
  if !env.enableHook then some w
  else (getFd w.fds w.sock).bind fun entity =>
    match entity with
    | none => some w
    | some _ =>
        (if env.hasIom then (cancelAllEvent w.iom w.sock ok).map Prod.snd
          else some w.iom).bind fun iom =>
            (delFd w.fds w.sock).map fun fds => { w with iom := iom, fds := fds }

/-- `Socket::close` -/
def close (w : World) (env : Env) (ok : Bool) : Option World :=
  if !w.isConnected && !w.isValid then some w
  else
    let w := { w with isConnected := false }
    if w.isValid then (w.closeHook env ok).map fun w => { w with sock := -1 } else some w

/-- An assignment to the entity of the socket, if there is one. -/
def setEntity (w : World) (f : Entity → Entity) : Option World :=
  (getFd w.fds w.sock).map fun entity =>
    match entity with
    | none => w
    | some e => { w with entities := Function.update w.entities e.serial (f (w.entities e.serial)) }

/-- The wait for a connection that is in progress: the event is added, and cancelled by the timer
if that comes first.  Without an `IOManager` the null pointer is used before any index. -/
def awaitConnect (w : World) (env : Env) (sys : ConnectSys) : Option (Bool × World) :=
  if !env.hasIom then some (false, w)
  else (addEvent w.iom w.sock .write env.caller sys.addOk).bind fun r =>
    if r.1 && sys.timedOut then
      (cancelEvent r.2 w.sock .write sys.cancelOk).map fun r => (false, { w with iom := r.2 })
    else some (sys.noError, { w with iom := r.2 })

/-- The hook of `connect`: whether it succeeds. -/
def connectHook (w : World) (env : Env) (sys : ConnectSys) : Option (Bool × World) :=
  let plain := (decide (sys.connect = .done), w)
  if !env.enableHook then some plain
  else (getFd w.fds w.sock).bind fun entity =>
    match entity with
    | none => some (false, w)
    | some e =>
        if (w.entities e.serial).isClosed then some (false, w)
        else if !(w.entities e.serial).isSocket then some plain
        else if (w.entities e.serial).isUserNonblock then some plain
        else if sys.connect ≠ .inProgress then some plain
        else w.awaitConnect env sys

/-- `Socket::connect` with a descriptor. -/
def connectValid (w : World) (env : Env) (sys : ConnectSys) : Option World :=
  (match sys.timeoutMs with
    | some t => w.setEntity fun e => { e with connectTimeout := t }
    | none => some w).bind fun w =>
      (w.connectHook env sys).bind fun r =>
        if r.1 then some { r.2 with isConnected := true } else r.2.close env sys.closeOk

/-- `Socket::connect`.  An address of another family is only logged. -/
def connect (w : World) (env : Env) (sys : ConnectSys) : Option World :=
  (w.ensureSock env sys.toSys).bind fun w =>
    if !w.isValid then some w else w.connectValid env sys

/-- `Socket::bind`; `::bind` and `getsockname` are not hooked. -/
def bind (w : World) (env : Env) (sys : Sys) : Option World :=
  w.ensureSock env sys

/-- `CreateUDP` and its siblings. -/
def createUDP (w : World) (env : Env) (sys : Sys) : Option World :=
  (w.newSock env sys).map fun w => { w with isConnected := true }

/-- `Socket::init` of an accepted socket. -/
def init (w : World) (sock : Nat) : Option World :=
  (getFd w.fds sock).map fun entity =>
    match entity with
    | none => w
    | some e =>
        if (w.entities e.serial).isSocket && !(w.entities e.serial).isClosed then
          { w with sock := sock, isConnected := true }
        else w

/-- `get_recv_timeout` and `get_send_timeout`: -1 without an entity, and the configured value
where none is set. -/
def getTimeout (w : World) (member : Entity → UInt64) (configured : UInt64) : Option UInt64 :=
  (getFd w.fds w.sock).map fun entity =>
    match entity with
    | none => -1
    | some e => if member (w.entities e.serial) = 0 then configured
      else member (w.entities e.serial)

/-- `cancel_read`, `cancel_write`, `cancel_accept`.  Without an `IOManager` the null pointer is
used before any index. -/
def cancel (w : World) (env : Env) (d : IOManager.Direction) (ok : Bool) : Option World :=
  if !env.hasIom then some w
  else (cancelEvent w.iom w.sock d ok).map fun r => { w with iom := r.2 }

/-- `cancel_all` -/
def cancelAll (w : World) (env : Env) (ok : Bool) : Option World :=
  if !env.hasIom then some w
  else (cancelAllEvent w.iom w.sock ok).map fun r => { w with iom := r.2 }

end World

/-! ## Sequences of operations -/

/-- The operations of a socket, its creation, and what others do to the tables: a manager has at
least the contexts that it is constructed with. -/
inductive Op
  | createUDP (env : Env) (sys : Sys)
  | init (sock : Nat)
  | connect (env : Env) (sys : ConnectSys)
  | bind (env : Env) (sys : Sys)
  | close (env : Env) (ok : Bool)
  | getRecvTimeout
  | getSendTimeout
  | setRecvTimeout (timeout : UInt64)
  | setSendTimeout (timeout : UInt64)
  | cancelRead (env : Env) (ok : Bool)
  | cancelWrite (env : Env) (ok : Bool)
  | cancelAccept (env : Env) (ok : Bool)
  | cancelAll (env : Env) (ok : Bool)
  | others (fds : Fd.FDManager) (entities : Nat → Entity) (iom : IOManager.Manager) (added : Nat)

namespace World

/-- `tiger.tcp.recvTimeout` and `tiger.tcp.sendTimeout` -/
def configuredTimeout : UInt64 := 6000

/-- One operation. -/
def step (w : World) : Op → Option World
  | .createUDP env sys => w.createUDP env sys
  | .init sock => w.init sock
  | .connect env sys => w.connect env sys
  | .bind env sys => w.bind env sys
  | .close env ok => w.close env ok
  | .getRecvTimeout => (w.getTimeout Entity.recvTimeout configuredTimeout).map fun _ => w
  | .getSendTimeout => (w.getTimeout Entity.sendTimeout configuredTimeout).map fun _ => w
  | .setRecvTimeout timeout => w.setEntity fun e => { e with recvTimeout := timeout }
  | .setSendTimeout timeout => w.setEntity fun e => { e with sendTimeout := timeout }
  | .cancelRead env ok => w.cancel env .read ok
  | .cancelWrite env ok => w.cancel env .write ok
  | .cancelAccept env ok => w.cancel env .read ok
  | .cancelAll env ok => w.cancelAll env ok
  | .others fds entities iom added =>
      some { w with fds := fds, entities := entities, iom := { iom with size := 128 + added } }

/-- A socket of a new process. -/
def start : World where
  sock := -1
  isConnected := false
  fds := .init
  entities _ := Entity.init none
  iom := .init

/-- An operation behind others; there is no result from the first index on that is outside of its
vector. -/
def next (s : Option World) (op : Op) : Option World := s.bind (step · op)

/-- The table of entities is long enough for a descriptor, or grows far enough. -/
def Room (m : Fd.FDManager) (fd : Nat) : Prop :=
  m.beyond fd = true → ¬ (m.datas.length % 2 = 1 ∧ fd = 3 * m.datas.length / 2) ∧
    (2 * fd < 3 * m.datas.length ∨ fd + 1 < 2 ^ 31)

/-- There is room for the descriptor that `socket` returns to a thread with hooks. -/
def RoomFor (w : World) (env : Env) (sys : Sys) : Prop :=
  ∀ fd, sys.socket = some fd → env.enableHook = true → Room w.fds fd

/-- The socket has a descriptor; a vector of `2 ^ 31` elements or more has a negative size as an
`int`, and no descriptor passes its test. -/
def Described (w : World) (size : Nat) : Prop := w.sock ≠ -1 ∨ toInt32 size < 0

/-- The condition on an operation. -/
def Meets (w : World) : Op → Prop
  | .createUDP env sys => w.RoomFor env sys
  | .connect env sys => w.sock = -1 → w.RoomFor env sys.toSys
  | .bind env sys => w.sock = -1 → w.RoomFor env sys
  | .getRecvTimeout | .getSendTimeout | .setRecvTimeout _ | .setSendTimeout _ =>
      w.Described w.fds.datas.length
  | .cancelRead env _ | .cancelWrite env _ | .cancelAccept env _ | .cancelAll env _ =>
      env.hasIom = true → w.Described w.iom.size
  | .init _ | .close _ _ | .others _ _ _ _ => True

/-! ## Single lookups -/

theorem toInt32_le (n : Nat) : toInt32 n ≤ n := by
  rw [toInt32, Int.bmod_def]
  omega

variable {m : Fd.FDManager} {iom : IOManager.Manager} {fd : Int} {size : Nat}

/-- A descriptor is in the table when it is an index of it. -/
theorem element_isSome_iff : (element size fd).isSome ↔ 0 ≤ fd ∧ fd < size := by
  rw [element]
  split
  · exact iff_of_true rfl ‹_›
  · exact iff_of_false Bool.noConfusion ‹_›

/-- What passes the test from above is inside of the vector exactly if it is not negative. -/
theorem element_tested (h : ¬ toInt32 size ≤ fd) : (element size fd).isSome ↔ 0 ≤ fd := by
  have hle := toInt32_le size
  rw [element_isSome_iff]
  omega

/-- `get_fd` is defined on descriptors, and on what its test takes for too large ones. -/
theorem getFd_isSome_iff : (getFd m fd).isSome ↔ 0 ≤ fd ∨ toInt32 m.datas.length ≤ fd := by
  rw [getFd]
  split
  next h => exact iff_of_true rfl (.inr h)
  next h => rw [Option.isSome_map, element_tested h, or_iff_left h]

/-- `cancel_event` is defined on descriptors, and on what its test takes for too large ones. -/
theorem cancelEvent_isSome_iff (d : IOManager.Direction) (ok : Bool) :
    (cancelEvent iom fd d ok).isSome ↔ 0 ≤ fd ∨ toInt32 iom.size ≤ fd := by
  rw [cancelEvent]
  split
  next h => exact iff_of_true rfl (.inr h)
  next h => rw [Option.isSome_map, element_tested h, or_iff_left h]

/-- `cancel_all_event` is defined on descriptors, and on what its test takes for too large ones. -/
theorem cancelAllEvent_isSome_iff (ok : Bool) :
    (cancelAllEvent iom fd ok).isSome ↔ 0 ≤ fd ∨ toInt32 iom.size ≤ fd := by
  rw [cancelAllEvent]
  split
  next h => exact iff_of_true rfl (.inr h)
  next h => rw [Option.isSome_map, element_tested h, or_iff_left h]

/-- `del_fd` is defined on descriptors. -/
theorem delFd_isSome (h : 0 ≤ fd) : (delFd m fd).isSome := by
  rw [delFd]
  split
  next => rfl
  next htest =>
      have hle := toInt32_le m.datas.length
      rw [element, if_pos ⟨h, by omega⟩, Option.bind_some, Fd.FDManager.delFd]
      split
      · rfl
      · rw [Fd.FDManager.store, if_pos (by omega)]
        rfl

/-- `add_event` is defined on descriptors. -/
theorem addEvent_isSome (hsize : 128 ≤ iom.size) (h : 0 ≤ fd) (d : IOManager.Direction)
    (caller : IOManager.Caller) (ok : Bool) : (addEvent iom fd d caller ok).isSome := by
  have hle := toInt32_le iom.size
  rw [addEvent, Option.isSome_map, element_isSome_iff]
  refine ⟨h, ?_⟩
  split
  · rw [IOManager.Manager.fdContextResize]
    split
    · omega
    · simp only
      omega
  · omega

/-- An entity is found or created exactly if there is room for its descriptor. -/
theorem getFd_auto_isSome_iff (m : Fd.FDManager) (fd : Nat) :
    (m.getFd fd true).isSome ↔ Room m fd := by
  have hle := toInt32_le m.datas.length
  have hlength : ∀ n, (Fd.FDManager.resize n m.datas).length = n := by
    intro n
    rw [Fd.FDManager.resize, List.length_append, List.length_take, List.length_replicate]
    omega
  cases hbeyond : m.beyond fd with
  | false =>
      rw [Fd.FDManager.beyond, decide_eq_false_iff_not] at hbeyond
      have hlt : fd < m.datas.length := by omega
      refine iff_of_true ?_ (fun h => ?_)
      · rw [Fd.FDManager.getFd, Fd.FDManager.find, Fd.FDManager.beyond, decide_eq_false hbeyond,
          if_neg Bool.noConfusion, List.getElem?_eq_getElem hlt, Option.bind_some]
        split
        · rfl
        · rw [if_pos rfl, Option.isSome_map, Fd.FDManager.addFd, Fd.FDManager.beyond,
            decide_eq_false hbeyond, if_neg Bool.noConfusion, Option.bind_some, Option.isSome_map,
            Fd.FDManager.store, if_pos hlt]
          rfl
      · rw [Fd.FDManager.beyond, decide_eq_true_eq] at h
        exact absurd h hbeyond
  | true =>
      have hadd : (m.getFd fd true).isSome ↔
          ∃ n, Fd.FDManager.newSize m.datas.length fd = some n ∧ fd < n := by
        rw [Fd.FDManager.getFd, Fd.FDManager.find, if_pos hbeyond, Option.bind_some, if_pos rfl,
          Option.isSome_map, Fd.FDManager.addFd, if_pos hbeyond]
        cases hnew : Fd.FDManager.newSize m.datas.length fd with
        | none => simp
        | some n =>
            simp only [Option.map_some, Option.bind_some, Option.isSome_map, Fd.FDManager.store,
              hlength, Option.some.injEq, exists_eq_left']
            split
            · exact iff_of_true rfl ‹_›
            · exact iff_of_false Bool.noConfusion ‹_›
      rw [hadd, Room, Fd.FDManager.newSize]
      by_cases hless : 2 * fd < 3 * m.datas.length
      · rw [if_pos hless]
        simp only [Option.some.injEq, exists_eq_left', hbeyond, forall_const, hless, true_or,
          and_true]
        omega
      · rw [if_neg hless]
        have hne : ¬ (m.datas.length % 2 = 1 ∧ fd = 3 * m.datas.length / 2) := by omega
        by_cases hfd : fd + 1 < 2 ^ 31
        · rw [if_pos hfd]
          exact iff_of_true ⟨fd + 1, rfl, by omega⟩ fun _ => ⟨hne, .inr hfd⟩
        · rw [if_neg hfd]
          refine iff_of_false (by simp) fun h => ?_
          have hor := (h hbeyond).2
          omega

/-! ## Operations -/

/-- What holds between two operations. -/
structure Sound (w : World) : Prop where
  sock : w.sock = -1 ∨ 0 ≤ w.sock
  size : 128 ≤ w.iom.size

variable {w w' : World} {env : Env}

theorem start_sound : start.Sound := ⟨.inl rfl, le_rfl⟩

theorem Sound.nonneg (h : w.Sound) (hvalid : w.sock ≠ -1) : 0 ≤ w.sock := h.sock.resolve_left hvalid

/-- A table is indexed for the socket in its range exactly if the socket has a descriptor, or the
size turns every descriptor away. -/
theorem Sound.described_iff (h : w.Sound) (size : Nat) :
    (0 ≤ w.sock ∨ toInt32 size ≤ w.sock) ↔ w.Described size := by
  rcases h.sock with hsock | hsock
  · rw [Described, hsock]
    omega
  · exact iff_of_true (.inl hsock) (.inl (by omega))

/-- `cancel_event` does not shrink the table. -/
theorem cancelEvent_size (hsize : 128 ≤ iom.size) {d : IOManager.Direction} {ok : Bool}
    {r : Bool × IOManager.Manager} (h : cancelEvent iom fd d ok = some r) : 128 ≤ r.2.size := by
  rw [cancelEvent] at h
  split at h
  · cases h
    exact hsize
  · rcases Option.map_eq_some_iff.mp h with ⟨i, -, rfl⟩
    have hstep := IOManager.step_size_ge iom (.cancelEvent i d ok) hsize
    rwa [IOManager.step] at hstep

/-- `cancel_all_event` does not shrink the table. -/
theorem cancelAllEvent_size (hsize : 128 ≤ iom.size) {ok : Bool} {r : Bool × IOManager.Manager}
    (h : cancelAllEvent iom fd ok = some r) : 128 ≤ r.2.size := by
  rw [cancelAllEvent] at h
  split at h
  · cases h
    exact hsize
  · rcases Option.map_eq_some_iff.mp h with ⟨i, -, rfl⟩
    have hstep := IOManager.step_size_ge iom (.cancelAllEvent i ok) hsize
    rwa [IOManager.step] at hstep

/-- `add_event` does not shrink the table. -/
theorem addEvent_size (hsize : 128 ≤ iom.size) {d : IOManager.Direction} {caller : IOManager.Caller}
    {ok : Bool} {r : Bool × IOManager.Manager} (h : addEvent iom fd d caller ok = some r) :
    128 ≤ r.2.size := by
  rcases Option.map_eq_some_iff.mp h with ⟨i, -, rfl⟩
  have hstep := IOManager.step_size_ge iom (.addEvent i d none caller ok) hsize
  rwa [IOManager.step] at hstep

/-! ### New descriptors -/

/-- `new_sock` is defined where the entities have room. -/
theorem newSock_isSome_iff (sys : Sys) : (w.newSock env sys).isSome ↔ w.RoomFor env sys := by
  rw [newSock, Option.isSome_map, socketHook, RoomFor]
  cases hsocket : sys.socket with
  | none => exact iff_of_true rfl (by simp)
  | some fd =>
      cases hhook : env.enableHook with
      | false => exact iff_of_true rfl (by simp)
      | true => simp [getFd_auto_isSome_iff]

/-- `new_sock` keeps the world sound. -/
theorem newSock_sound (h : w.Sound) {sys : Sys} (hnew : w.newSock env sys = some w') :
    w'.Sound := by
  rcases Option.map_eq_some_iff.mp hnew with ⟨r, hr, rfl⟩
  rw [socketHook] at hr
  split at hr
  next =>
      cases hr
      exact ⟨.inl rfl, h.size⟩
  next fd hfd =>
      split at hr
      next =>
          cases hr
          exact ⟨.inr (Int.natCast_nonneg fd), h.size⟩
      next =>
          rcases Option.map_eq_some_iff.mp hr with ⟨q, -, rfl⟩
          simp only
          split <;> split <;> exact ⟨.inr (Int.natCast_nonneg _), h.size⟩

/-- A socket that is opened on demand needs the room only when there is none. -/
theorem ensureSock_isSome_iff (sys : Sys) :
    (w.ensureSock env sys).isSome ↔ (w.sock = -1 → w.RoomFor env sys) := by
  rw [ensureSock, isValid]
  by_cases hsock : w.sock = -1
  · simp [hsock, newSock_isSome_iff]
  · simp [hsock]

/-- Opening a socket on demand keeps the world sound. -/
theorem ensureSock_sound (h : w.Sound) {sys : Sys} (hnew : w.ensureSock env sys = some w') :
    w'.Sound := by
  rw [ensureSock] at hnew
  split at hnew
  · exact newSock_sound h hnew
  · cases hnew
    exact h

/-! ### Closing -/

/-- The hook of `close` is defined on a valid socket. -/
theorem closeHook_sound (h : w.Sound) (hvalid : w.sock ≠ -1) (env : Env) (ok : Bool) :
    ∃ w', w.closeHook env ok = some w' ∧ 128 ≤ w'.iom.size := by
  have hnonneg := h.nonneg hvalid
  have hget : (getFd w.fds w.sock).isSome := getFd_isSome_iff.mpr (.inl hnonneg)
  have hcancel : (cancelAllEvent w.iom w.sock ok).isSome :=
    (cancelAllEvent_isSome_iff ok).mpr (.inl hnonneg)
  have hdel : (delFd w.fds w.sock).isSome := delFd_isSome hnonneg
  rcases Option.isSome_iff_exists.mp hget with ⟨entity, hentity⟩
  rcases Option.isSome_iff_exists.mp hcancel with ⟨r, hr⟩
  rcases Option.isSome_iff_exists.mp hdel with ⟨fds, hfds⟩
  rw [closeHook, hentity, hr, hfds]
  cases env.enableHook with
  | false => exact ⟨w, rfl, h.size⟩
  | true =>
      cases entity with
      | none => exact ⟨w, rfl, h.size⟩
      | some e =>
          cases env.hasIom with
          | false => exact ⟨_, rfl, h.size⟩
          | true => exact ⟨_, rfl, cancelAllEvent_size h.size hr⟩

/-- `close` is defined and keeps the world sound. -/
theorem close_sound (h : w.Sound) (env : Env) (ok : Bool) :
    ∃ w', w.close env ok = some w' ∧ w'.Sound := by
  rw [close]
  split
  · exact ⟨w, rfl, h⟩
  · by_cases hsock : w.sock = -1
    · rw [if_neg (by simp [isValid, hsock])]
      exact ⟨_, rfl, h.sock, h.size⟩
    · have hclosing : ({ w with isConnected := false } : World).Sound := ⟨h.sock, h.size⟩
      rcases closeHook_sound hclosing hsock env ok with ⟨w', hw', hsize⟩
      rw [if_pos (by simpa [isValid] using hsock), hw']
      exact ⟨_, rfl, .inl rfl, hsize⟩

/-! ### Connecting -/

theorem setEntity_isSome_iff (h : w.Sound) (f : Entity → Entity) :
    (w.setEntity f).isSome ↔ w.Described w.fds.datas.length := by
  rw [setEntity, Option.isSome_map, getFd_isSome_iff, h.described_iff]

/-- Storing it keeps the world sound. -/
theorem setEntity_sound (h : w.Sound) {f : Entity → Entity} (hset : w.setEntity f = some w') :
    w'.Sound ∧ w'.sock = w.sock := by
  rcases Option.map_eq_some_iff.mp hset with ⟨entity, -, rfl⟩
  split <;> exact ⟨⟨h.sock, h.size⟩, rfl⟩

/-- Waiting for `connect` is defined on a valid socket. -/
theorem awaitConnect_sound (h : w.Sound) (hvalid : w.sock ≠ -1) (env : Env) (sys : ConnectSys) :
    ∃ r, w.awaitConnect env sys = some r ∧ r.2.Sound := by
  have hnonneg := h.nonneg hvalid
  have hadd := addEvent_isSome h.size hnonneg .write env.caller sys.addOk
  rcases Option.isSome_iff_exists.mp hadd with ⟨q, hq⟩
  have hsize := addEvent_size h.size hq
  have hcancel : (cancelEvent q.2 w.sock .write sys.cancelOk).isSome :=
    (cancelEvent_isSome_iff .write sys.cancelOk).mpr (.inl hnonneg)
  rcases Option.isSome_iff_exists.mp hcancel with ⟨r, hr⟩
  rw [awaitConnect, hq, Option.bind_some, hr]
  cases env.hasIom with
  | false => exact ⟨_, rfl, h⟩
  | true =>
      rw [if_neg (by simp)]
      split
      · exact ⟨_, rfl, h.sock, cancelEvent_size hsize hr⟩
      · exact ⟨_, rfl, h.sock, hsize⟩

/-- The hook of `connect` is defined on a valid socket. -/
theorem connectHook_sound (h : w.Sound) (hvalid : w.sock ≠ -1) (env : Env) (sys : ConnectSys) :
    ∃ r, w.connectHook env sys = some r ∧ r.2.Sound := by
  have hget : (getFd w.fds w.sock).isSome := getFd_isSome_iff.mpr (.inl (h.nonneg hvalid))
  rcases Option.isSome_iff_exists.mp hget with ⟨entity, hentity⟩
  rw [connectHook, hentity]
  cases env.enableHook with
  | false => exact ⟨_, rfl, h⟩
  | true =>
      cases entity with
      | none => exact ⟨_, rfl, h⟩
      | some e =>
          simp only [Bool.not_true, Bool.false_eq_true, if_false, Option.bind_some]
          split
          · exact ⟨_, rfl, h⟩
          · split
            · exact ⟨_, rfl, h⟩
            · split
              · exact ⟨_, rfl, h⟩
              · split
                · exact ⟨_, rfl, h⟩
                · exact awaitConnect_sound h hvalid env sys

/-- Behind its test for a socket, `connect` is defined and keeps the world sound. -/
theorem connectValid_sound (h : w.Sound) (hvalid : w.sock ≠ -1) (env : Env) (sys : ConnectSys) :
    ∃ w', w.connectValid env sys = some w' ∧ w'.Sound := by
  have hset : ∃ w₁, (match sys.timeoutMs with
      | some t => w.setEntity fun e => { e with connectTimeout := t }
      | none => some w) = some w₁ ∧ w₁.Sound ∧ w₁.sock = w.sock := by
    cases sys.timeoutMs with
    | none => exact ⟨w, rfl, h, rfl⟩
    | some t =>
        have hsome : (w.setEntity fun e => { e with connectTimeout := t }).isSome :=
          (setEntity_isSome_iff h _).mpr (.inl hvalid)
        rcases Option.isSome_iff_exists.mp hsome with ⟨w₁, hw₁⟩
        exact ⟨w₁, hw₁, setEntity_sound h hw₁⟩
  rcases hset with ⟨w₁, hw₁, hsound, hsock⟩
  rcases connectHook_sound hsound (by rwa [hsock]) env sys with ⟨r, hr, hr'⟩
  rw [connectValid, hw₁, Option.bind_some, hr, Option.bind_some]
  split
  · exact ⟨_, rfl, hr'.sock, hr'.size⟩
  · exact close_sound hr' env sys.closeOk

/-- `connect` is defined where a socket can be opened. -/
theorem connect_isSome_iff (h : w.Sound) (sys : ConnectSys) :
    (w.connect env sys).isSome ↔ (w.sock = -1 → w.RoomFor env sys.toSys) := by
  rw [← ensureSock_isSome_iff, connect]
  cases hensure : w.ensureSock env sys.toSys with
  | none => rfl
  | some w₁ =>
      refine iff_of_true ?_ rfl
      rw [Option.bind_some]
      split
      · rfl
      next hvalid =>
          have hsock : w₁.sock ≠ -1 := by simpa [isValid] using hvalid
          rcases connectValid_sound (ensureSock_sound h hensure) hsock env sys with ⟨w', hw', -⟩
          rw [hw']
          rfl

/-- `connect` keeps the world sound. -/
theorem connect_sound (h : w.Sound) {sys : ConnectSys} (hconnect : w.connect env sys = some w') :
    w'.Sound := by
  rcases Option.bind_eq_some_iff.mp hconnect with ⟨w₁, hensure, hrest⟩
  have hsound := ensureSock_sound h hensure
  split at hrest
  · cases hrest
    exact hsound
  next hvalid =>
      have hsock : w₁.sock ≠ -1 := by simpa [isValid] using hvalid
      rcases connectValid_sound hsound hsock env sys with ⟨w₂, hw₂, hsound₂⟩
      rw [hrest] at hw₂
      cases hw₂
      exact hsound₂

/-! ### Timeouts, cancelling, one step -/

theorem getTimeout_isSome_iff (h : w.Sound) (member : Entity → UInt64) (configured : UInt64) :
    (w.getTimeout member configured).isSome ↔ w.Described w.fds.datas.length := by
  rw [getTimeout, Option.isSome_map, getFd_isSome_iff, h.described_iff]

/-- A direction is cancelled where the socket is described. -/
theorem cancel_isSome_iff (h : w.Sound) (d : IOManager.Direction) (ok : Bool) :
    (w.cancel env d ok).isSome ↔ (env.hasIom = true → w.Described w.iom.size) := by
  rw [cancel]
  cases env.hasIom with
  | false => exact iff_of_true rfl (by simp)
  | true => simp [cancelEvent_isSome_iff, h.described_iff]

/-- Both directions are cancelled where the socket is described. -/
theorem cancelAll_isSome_iff (h : w.Sound) (ok : Bool) :
    (w.cancelAll env ok).isSome ↔ (env.hasIom = true → w.Described w.iom.size) := by
  rw [cancelAll]
  cases env.hasIom with
  | false => exact iff_of_true rfl (by simp)
  | true => simp [cancelAllEvent_isSome_iff, h.described_iff]

/-- Cancelling a direction keeps the world sound. -/
theorem cancel_sound (h : w.Sound) {d : IOManager.Direction} {ok : Bool}
    (hcancel : w.cancel env d ok = some w') :
    w'.Sound := by
  rw [cancel] at hcancel
  split at hcancel
  · cases hcancel
    exact h
  · rcases Option.map_eq_some_iff.mp hcancel with ⟨r, hr, rfl⟩
    exact ⟨h.sock, cancelEvent_size h.size hr⟩

/-- Cancelling both directions keeps the world sound. -/
theorem cancelAll_sound (h : w.Sound) {ok : Bool} (hcancel : w.cancelAll env ok = some w') :
    w'.Sound := by
  rw [cancelAll] at hcancel
  split at hcancel
  · cases hcancel
    exact h
  · rcases Option.map_eq_some_iff.mp hcancel with ⟨r, hr, rfl⟩
    exact ⟨h.sock, cancelAllEvent_size h.size hr⟩

/-- `init` keeps the world sound. -/
theorem init_sound (h : w.Sound) {sock : Nat} (hinit : w.init sock = some w') : w'.Sound := by
  rcases Option.map_eq_some_iff.mp hinit with ⟨entity, -, rfl⟩
  split
  · exact h
  · split
    · exact ⟨.inr (Int.natCast_nonneg sock), h.size⟩
    · exact h

/-- An operation has a result exactly if it meets the condition. -/
theorem step_isSome_iff (h : w.Sound) (op : Op) : (w.step op).isSome ↔ w.Meets op := by
  cases op with
  | createUDP env sys => rw [step, createUDP, Option.isSome_map, newSock_isSome_iff, Meets]
  | init sock =>
      refine iff_of_true ?_ trivial
      rw [step, init, Option.isSome_map]
      exact getFd_isSome_iff.mpr (.inl (Int.natCast_nonneg sock))
  | connect env sys => exact connect_isSome_iff h sys
  | bind env sys => exact ensureSock_isSome_iff sys
  | close env ok =>
      rcases close_sound h env ok with ⟨w', hw', -⟩
      exact iff_of_true (by rw [step, hw']; rfl) trivial
  | getRecvTimeout => rw [step, Option.isSome_map, getTimeout_isSome_iff h, Meets]
  | getSendTimeout => rw [step, Option.isSome_map, getTimeout_isSome_iff h, Meets]
  | setRecvTimeout timeout => rw [step, setEntity_isSome_iff h, Meets]
  | setSendTimeout timeout => rw [step, setEntity_isSome_iff h, Meets]
  | cancelRead env ok => exact cancel_isSome_iff h .read ok
  | cancelWrite env ok => exact cancel_isSome_iff h .write ok
  | cancelAccept env ok => exact cancel_isSome_iff h .read ok
  | cancelAll env ok => exact cancelAll_isSome_iff h ok
  | others fds entities iom added => exact iff_of_true rfl trivial

/-- Every operation keeps the world sound. -/
theorem step_sound (h : w.Sound) {op : Op} (hstep : w.step op = some w') : w'.Sound := by
  cases op with
  | createUDP env sys =>
      rcases Option.map_eq_some_iff.mp hstep with ⟨w₁, hnew, rfl⟩
      have hsound := newSock_sound h hnew
      exact ⟨hsound.sock, hsound.size⟩
  | init sock => exact init_sound h hstep
  | connect env sys => exact connect_sound h hstep
  | bind env sys => exact ensureSock_sound h hstep
  | close env ok =>
      rcases close_sound h env ok with ⟨w₁, hw₁, hsound⟩
      rw [step, hw₁] at hstep
      cases hstep
      exact hsound
  | getRecvTimeout | getSendTimeout =>
      rcases Option.map_eq_some_iff.mp hstep with ⟨-, -, rfl⟩
      exact h
  | setRecvTimeout timeout | setSendTimeout timeout =>
      rw [step] at hstep
      exact (setEntity_sound h hstep).1
  | cancelRead env ok | cancelWrite env ok | cancelAccept env ok => exact cancel_sound h hstep
  | cancelAll env ok => exact cancelAll_sound h hstep
  | others fds entities iom added =>
      cases hstep
      exact ⟨h.sock, Nat.le_add_right 128 added⟩

/-! ## Whole runs -/

/-- The condition, where the run has got so far. -/
def MeetsNext (s : Option World) (op : Op) : Prop := ∀ w, s = some w → w.Meets op

/-- Along a sequence of operations every index is non-negative and below the size of its vector
exactly if every operation meets the condition in its turn. -/
theorem indexed_iff (ops : List Op) :
    (∀ n, ((ops.take n).foldl next (some start)).isSome) ↔
      AllMeets next MeetsNext (some start) ops := by
  apply forall_take_iff_allMeets (fun s => ∀ w, s = some w → w.Sound) (fun s => s.isSome) _ _ ops
  · rintro w ⟨⟩
    exact start_sound
  · rfl
  · intro s op h w' hnext
    rcases Option.bind_eq_some_iff.mp hnext with ⟨w, hw, hstep⟩
    exact step_sound (h w hw) hstep
  · intro s op h hsome
    rcases Option.isSome_iff_exists.mp hsome with ⟨w, rfl⟩
    refine (step_isSome_iff (h w rfl) op).trans ?_
    constructor
    · rintro hmeets w' ⟨⟩
      exact hmeets
    · intro hmeets
      exact hmeets w rfl

/-- A new socket has no descriptor: its timeouts index the table of entities, and cancelling
indexes the table of contexts, with -1. -/
theorem indexed_fails :
    (∀ timeout, next (some start) (.setRecvTimeout timeout) = none) ∧
    (∀ ok caller, next (some start) (.cancelAll ⟨true, true, caller⟩ ok) = none) ∧
    ¬ ∀ ops n, ((List.take n ops).foldl next (some start)).isSome := by
  have hset : ∀ timeout, next (some start) (.setRecvTimeout timeout) = none := fun _ => rfl
  refine ⟨hset, fun _ _ => rfl, ?_⟩
  intro h
  have hone := h [.setRecvTimeout 1000] 1
  rw [List.take_of_length_le (Nat.le_refl 1), List.foldl_cons, List.foldl_nil, hset] at hone
  cases hone

end World

end Socket
end Tiger
