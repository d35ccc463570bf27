import Tiger.Hook.Flags
import Tiger.IOManager.Model
import Mathlib.Data.List.Induction
import Mathlib.Tactic

/-!
# Hooks - timeouts of a socket

This module embeds the two ways in which a timeout reaches the entity of a socket, the hooked
`setsockopt` (`src/hook.cc`) and the members of `Socket` (`src/socket.cc`), the timeouts of
`FDEntity` (`src/fdmanager.cc`) and their selection in `do_socket_io` (`src/hook.cc`).

`setsockopt` notes a timeout only in a thread without hooks, where `do_socket_io` uses none; and a
timeout of 64 bits is selected as an `int`.

Main results:

- Theorems `selected_setsockopt` and `selected_setTimeout`: the step lemmas, what a call does to
  the timeout of each direction.
- Theorem `follows_iff`: the sequences of calls that the selected timeouts follow.
-/

namespace Tiger
namespace Hook
namespace Settings

open IOManager (EventStatus Direction)

/-! ## Entities with timeouts -/

/-- The configured `tiger.tcp.recvTimeout` and `tiger.tcp.sendTimeout` -/
structure Defaults where
  recvTimeout : UInt64
  sendTimeout : UInt64

/-- An entity: its flags, `m_recv_timeout` and `m_send_timeout` -/
structure TimedEntity where
  flags : FDEntity
  mRecvTimeout : UInt64
  mSendTimeout : UInt64

namespace TimedEntity

/-- The timeouts as `FDEntity::init()` sets them. -/
def new (flags : FDEntity) : TimedEntity := ⟨flags, 0, 0⟩

/-- `recv_timeout()` -/
def recvTimeout (defaults : Defaults) (e : TimedEntity) : UInt64 :=
  if e.mRecvTimeout = 0 then defaults.recvTimeout else e.mRecvTimeout

/-- `send_timeout()` -/
def sendTimeout (defaults : Defaults) (e : TimedEntity) : UInt64 :=
  if e.mSendTimeout = 0 then defaults.sendTimeout else e.mSendTimeout

/-- `set_recv_timeout(t)` -/
def setRecvTimeout (e : TimedEntity) (t : UInt64) : TimedEntity := { e with mRecvTimeout := t }

/-- `set_send_timeout(t)` -/
def setSendTimeout (e : TimedEntity) (t : UInt64) : TimedEntity := { e with mSendTimeout := t }

end TimedEntity

/-! ## Calls -/

/-- A `timeval` -/
structure Timeval where
  tvSec : Int64
  tvUsec : Int64

/-- The calls that set a timeout: receiving is reading, sending is writing. -/
inductive Setting
  /-- `setsockopt(fd, SOL_SOCKET, optname, &v, sizeof v)` -/
  | setsockopt (optname : Direction) (v : Timeval)
  /-- `set_recv_timeout(timeout)` or `set_send_timeout(timeout)` of the socket -/
  | setTimeout (direction : Direction) (timeout : Int64)

/-- `setsockopt` with `SO_RCVTIMEO` or `SO_SNDTIMEO`, as far as the entity goes.  Signed sums and
products wrap. -/
def setsockopt (hook : Bool) (entity : Option TimedEntity) (optname : Direction) (v : Timeval) :
    Option TimedEntity :=
  if hook then entity
  else
    entity.map fun e =>
      match optname with
      | .read => e.setRecvTimeout (v.tvSec * 1000 + v.tvUsec / 1000).toUInt64
      | .write => e.setSendTimeout (v.tvSec * 1000 + v.tvUsec / 1000).toUInt64

/-- `Socket::set_recv_timeout(timeout)` -/
def setRecvTimeout (entity : Option TimedEntity) (timeout : Int64) : Option TimedEntity :=
  entity.map (·.setRecvTimeout timeout.toUInt64)

/-- `Socket::set_send_timeout(timeout)` -/
def setSendTimeout (entity : Option TimedEntity) (timeout : Int64) : Option TimedEntity :=
  entity.map (·.setSendTimeout timeout.toUInt64)

/-- One call. -/
def step (hook : Bool) (entity : Option TimedEntity) : Setting → Option TimedEntity
  | .setsockopt optname v => setsockopt hook entity optname v
  | .setTimeout .read timeout => setRecvTimeout entity timeout
  | .setTimeout .write timeout => setSendTimeout entity timeout

/-- Calls one after the other. -/
def run (hook : Bool) (entity : Option TimedEntity) (calls : List Setting) : Option TimedEntity :=
  calls.foldl (step hook) entity

/-! ## The selection -/

/-- How `do_socket_io` goes on behind the selection. -/
inductive Selected
  /-- `return func(fd, args...)` -/
  | plain
  /-- `errno = EBADF; return -1;` -/
  | closed
  /-- into its loop -/
  | timeout (t : Int)
deriving DecidableEq

/-- `do_socket_io` up to its loop -/
def select (hook : Bool) (defaults : Defaults) (entity : Option TimedEntity)
    (status : EventStatus) : Selected :=
  if !hook then .plain
  else
    match entity with
    | none => .plain
    | some e =>
      if e.flags.isClosed then .closed
      else if !e.flags.isSocket || e.flags.isUserNonblock then .plain
      else if status.meets .READ then .timeout (toInt32 (e.recvTimeout defaults).toNat)
      else if status.meets .WRITE then .timeout (toInt32 (e.sendTimeout defaults).toNat)
      else .timeout (-1)

/-! ## What the calls ask for -/

/-- The direction that a call sets. -/
def Setting.direction : Setting → Direction
  | .setsockopt optname _ => optname
  | .setTimeout direction _ => direction

/-- The milliseconds that a call sets. -/
def Setting.value : Setting → Int
  | .setsockopt _ v => v.tvSec.toInt * 1000 + v.tvUsec.toInt.tdiv 1000
  | .setTimeout _ timeout => timeout.toInt

/-- The milliseconds last set for a direction, zero if none are. -/
def lastSet (calls : List Setting) (direction : Direction) : Int :=
  ((calls.filter (·.direction = direction)).getLast?.map Setting.value).getD 0

/-- The default of a direction. -/
def Defaults.of (defaults : Defaults) : Direction → UInt64
  | .read => defaults.recvTimeout
  | .write => defaults.sendTimeout

/-- The timeout asked for in a direction. -/
def asked (defaults : Defaults) (calls : List Setting) (direction : Direction) : Int :=
  if lastSet calls direction = 0 then (defaults.of direction).toNat else lastSet calls direction

/-- The entity of a new socket. -/
def start (kernel : Flags) : Option TimedEntity :=
  (FDEntity.init (some true) kernel).entity.map TimedEntity.new

/-- What `do_socket_io` selects behind calls, all in a thread with hooks. -/
def selected (defaults : Defaults) (kernel : Flags) (calls : List Setting)
    (direction : Direction) : Selected :=
  select true defaults (run true (start kernel) calls) direction.status

/-- Behind each of the calls, the timeout of each direction is the one asked for. -/
def Follows (defaults : Defaults) (kernel : Flags) (calls : List Setting) : Prop :=
  ∀ before, before <+: calls → ∀ direction,
    selected defaults kernel before direction = .timeout (asked defaults before direction)

/-- A value of the type `int`. -/
def FitsInt (v : Int) : Prop := -2 ^ 31 ≤ v ∧ v < 2 ^ 31

/-- A call behind others meets the condition: through the socket it sets an `int`, and through
`setsockopt` nothing but what has been asked for already. -/
def Meets (defaults : Defaults) (before : List Setting) : Setting → Prop
  | .setsockopt optname v =>
    asked defaults (before ++ [.setsockopt optname v]) optname = asked defaults before optname
  | .setTimeout _ timeout => FitsInt timeout.toInt

/-- The defaults are of the type `int`, and each call meets the condition. -/
structure Kept (defaults : Defaults) (calls : List Setting) : Prop where
  defaults_fit : ∀ direction, FitsInt (defaults.of direction).toNat
  meets : ∀ before c after, calls = before ++ c :: after → Meets defaults before c

variable {defaults : Defaults} {kernel : Flags} {calls before : List Setting}
  {direction optname : Direction}

/-! ## What is asked for -/

/-- The last call for a direction decides. -/
theorem lastSet_append (calls : List Setting) (c : Setting) (direction : Direction) :
    lastSet (calls ++ [c]) direction =
      if c.direction = direction then c.value else lastSet calls direction := by
  unfold lastSet
  by_cases hdirection : c.direction = direction
  · simp [List.filter_append, hdirection]
  · simp [List.filter_append, hdirection]

theorem asked_other (c : Setting) (h : c.direction ≠ direction) :
    asked defaults (calls ++ [c]) direction = asked defaults calls direction := by
  simp only [asked, lastSet_append, h, if_false]

/-- What was asked behind `setTimeout`. -/
theorem asked_setTimeout (direction : Direction) (timeout : Int64) :
    asked defaults (calls ++ [.setTimeout direction timeout]) direction =
      if timeout.toInt = 0 then ((defaults.of direction).toNat : Int) else timeout.toInt := by
  have hlast : lastSet (calls ++ [.setTimeout direction timeout]) direction = timeout.toInt := by
    rw [lastSet_append]
    exact if_pos rfl
  unfold asked
  rw [hlast]

/-! ## One call -/

/-- A run is its last step behind the run in front. -/
theorem run_snoc (hook : Bool) (entity : Option TimedEntity) (calls : List Setting)
    (c : Setting) : run hook entity (calls ++ [c]) = step hook (run hook entity calls) c := by
  unfold run
  rw [List.foldl_append]
  rfl

/-- The flags of a new socket. -/
def newFlags : FDEntity := ⟨true, true, false, true, false⟩

/-- The calls leave the flags as they are. -/
theorem run_start (kernel : Flags) (calls : List Setting) :
    ∃ recv send, run true (start kernel) calls = some ⟨newFlags, recv, send⟩ := by
  induction calls using List.reverseRecOn with
  | nil => exact ⟨0, 0, rfl⟩
  | append_singleton calls c ih =>
    obtain ⟨recv, send, hrun⟩ := ih
    rw [run_snoc, hrun]
    cases c with
    | setsockopt optname v => exact ⟨recv, send, rfl⟩
    | setTimeout direction timeout =>
      cases direction with
      | read => exact ⟨timeout.toUInt64, send, rfl⟩
      | write => exact ⟨recv, timeout.toUInt64, rfl⟩

/-- The timeout of reads is the receive timeout, or the default when it is zero. -/
theorem select_read (recv send : UInt64) :
    select true defaults (some ⟨newFlags, recv, send⟩) Direction.read.status =
      .timeout (toInt32 (if recv = 0 then defaults.recvTimeout else recv).toNat) := by
  simp [select, newFlags, Direction.status, EventStatus.meets, EventStatus.READ, EventStatus.inter,
    EventStatus.none, TimedEntity.recvTimeout]

/-- The timeout of writes is the send timeout, or the default when it is zero. -/
theorem select_write (recv send : UInt64) :
    select true defaults (some ⟨newFlags, recv, send⟩) Direction.write.status =
      .timeout (toInt32 (if send = 0 then defaults.sendTimeout else send).toNat) := by
  simp [select, newFlags, Direction.status, EventStatus.meets, EventStatus.READ, EventStatus.WRITE,
    EventStatus.inter, EventStatus.none, TimedEntity.sendTimeout]

/-- In front of all calls, the default is selected. -/
theorem selected_nil (direction : Direction) :
    selected defaults kernel [] direction =
      .timeout (toInt32 (defaults.of direction).toNat) := by
  cases direction with
  | read => rfl
  | write => rfl

/-- With hooks `setsockopt` changes no timeout. -/
theorem selected_setsockopt (calls : List Setting) (optname : Direction) (v : Timeval)
    (direction : Direction) :
    selected defaults kernel (calls ++ [.setsockopt optname v]) direction =
      selected defaults kernel calls direction := by
  have hstep (entity : Option TimedEntity) : step true entity (.setsockopt optname v) = entity :=
    rfl
  unfold selected
  rw [run_snoc, hstep]

/-- A timeout that is set through the socket is selected as an `int`, and the other direction
keeps its own. -/
theorem selected_setTimeout (calls : List Setting) (set : Direction) (timeout : Int64)
    (direction : Direction) :
    selected defaults kernel (calls ++ [.setTimeout set timeout]) direction =
      if set = direction then
        .timeout (toInt32
          (if timeout.toUInt64 = 0 then defaults.of direction else timeout.toUInt64).toNat)
      else selected defaults kernel calls direction := by
  obtain ⟨recv, send, hrun⟩ := run_start kernel calls
  unfold selected
  rw [run_snoc, hrun]
  cases set with
  | read =>
    have hstep (recv send : UInt64) : step true (some ⟨newFlags, recv, send⟩)
        (.setTimeout .read timeout) =
          some ⟨newFlags, timeout.toUInt64, send⟩ := rfl
    rw [hstep]
    cases direction with
    | read => simp only [select_read, if_true, Defaults.of]
    | write => simp only [select_write, reduceCtorEq, if_false]
  | write =>
    have hstep (recv send : UInt64) : step true (some ⟨newFlags, recv, send⟩)
        (.setTimeout .write timeout) =
          some ⟨newFlags, recv, timeout.toUInt64⟩ := rfl
    rw [hstep]
    cases direction with
    | read => simp only [select_read, reduceCtorEq, if_false]
    | write => simp only [select_write, if_true, Defaults.of]

/-! ## Conversions -/

/-- On the way through `uint64_t` a timeout loses nothing that an `int` has. -/
theorem toInt32_toUInt64 (timeout : Int64) :
    toInt32 timeout.toUInt64.toNat = toInt32 timeout.toInt := by
  have hsigned : timeout.toInt = (timeout.toUInt64.toNat : Int).bmod (2 ^ 64) :=
    BitVec.toInt_eq_toNat_bmod timeout.toBitVec
  unfold toInt32
  rw [hsigned, Int.bmod_bmod_of_dvd (by norm_num)]

/-- A timeout is zero as an unsigned number exactly if it is zero. -/
theorem toUInt64_eq_zero_iff {timeout : Int64} : timeout.toUInt64 = 0 ↔ timeout.toInt = 0 := by
  constructor
  · intro h
    rw [← Int64.toInt64_toUInt64 timeout, h]
    rfl
  · intro h
    have hzero : timeout = 0 := Int64.toInt_inj.mp h
    rw [hzero]
    rfl

/-! ## Sequences of calls -/

/-- A call that meets the condition keeps what is selected at what was asked. -/
theorem Meets.follows (hdefaults : ∀ direction, FitsInt (defaults.of direction).toNat)
    {c : Setting} (hmeets : Meets defaults calls c)
    (hselected : ∀ direction, selected defaults kernel calls direction =
      .timeout (asked defaults calls direction)) (direction : Direction) :
    selected defaults kernel (calls ++ [c]) direction =
      .timeout (asked defaults (calls ++ [c]) direction) := by
  cases c with
  | setsockopt optname v =>
    rw [selected_setsockopt, hselected]
    by_cases hdirection : optname = direction
    · rw [← hdirection]
      exact congrArg Selected.timeout hmeets.symm
    · rw [asked_other (.setsockopt optname v) hdirection]
  | setTimeout set timeout =>
    rw [selected_setTimeout]
    by_cases hdirection : set = direction
    · rw [if_pos hdirection, hdirection, asked_setTimeout]
      simp only [toUInt64_eq_zero_iff]
      by_cases hzero : timeout.toInt = 0
      · rw [if_pos hzero, if_pos hzero, toInt32_eq_self_iff.mpr (hdefaults direction)]
      · rw [if_neg hzero, if_neg hzero, toInt32_toUInt64, toInt32_eq_self_iff.mpr hmeets]
    · rw [if_neg hdirection, hselected, asked_other (.setTimeout set timeout) hdirection]

/-- A call behind which what is selected was asked meets the condition. -/
theorem Meets.of_selected {c : Setting}
    (hbefore : ∀ direction, selected defaults kernel before direction =
      .timeout (asked defaults before direction))
    (hbehind : ∀ direction, selected defaults kernel (before ++ [c]) direction =
      .timeout (asked defaults (before ++ [c]) direction)) : Meets defaults before c := by
  cases c with
  | setsockopt optname v =>
    have hsame := hbehind optname
    rw [selected_setsockopt, hbefore] at hsame
    exact (Selected.timeout.inj hsame).symm
  | setTimeout set timeout =>
    have hsame := hbehind set
    rw [selected_setTimeout, if_pos rfl, asked_setTimeout] at hsame
    have hvalue := Selected.timeout.inj hsame
    simp only [toUInt64_eq_zero_iff] at hvalue
    by_cases hzero : timeout.toInt = 0
    · simp only [Meets, hzero]
      exact ⟨by norm_num, by norm_num⟩
    · rw [if_neg hzero, if_neg hzero, toInt32_toUInt64] at hvalue
      exact toInt32_eq_self_iff.mp hvalue

/-- When every call meets the condition, what is selected was asked. -/
theorem Kept.follows (h : Kept defaults calls) : Follows defaults kernel calls := by
  intro before hbefore
  induction before using List.reverseRecOn with
  | nil =>
    intro direction
    rw [selected_nil, toInt32_eq_self_iff.mpr (h.defaults_fit direction)]
    rfl
  | append_singleton before c ih =>
    obtain ⟨after, hafter⟩ := hbefore
    have hsplit : calls = before ++ c :: after := by
      rw [← hafter]
      simp
    have hfront : before <+: calls := ⟨c :: after, hsplit.symm⟩
    exact (h.meets before c after hsplit).follows h.defaults_fit (ih hfront)

/-- The timeouts are the ones asked for, all along a sequence of calls, exactly when the defaults
fit and each call meets the condition. -/
theorem follows_iff : Follows defaults kernel calls ↔ Kept defaults calls := by
  constructor
  · intro h
    have hdefaults : ∀ direction, FitsInt (defaults.of direction).toNat := by
      intro direction
      have hnil := h [] (List.nil_prefix) direction
      rw [selected_nil] at hnil
      exact toInt32_eq_self_iff.mp (Selected.timeout.inj hnil)
    refine ⟨hdefaults, ?_⟩
    rintro before c after rfl
    exact Meets.of_selected (h before (List.prefix_append _ _))
      (h (before ++ [c]) ⟨after, by simp⟩)
  · exact Kept.follows

/-- With hooks a receive timeout of one second is not noted. -/
theorem setsockopt_lost :
    ¬ Follows ⟨6000, 6000⟩ 0 [.setsockopt .read ⟨1, 0⟩] := by
  intro h
  have hselected := h _ (List.prefix_refl _) .read
  exact absurd hselected (by decide)

end Settings
end Hook
end Tiger
