import Mathlib.Data.List.Nodup
import Mathlib.Tactic
import Tiger.Lib.Simulation

/-!
# HTTP - the pool of client connections

This module embeds `HTTPConnectionPool::get_connection` and `HTTPConnectionPool::ReleasePtr`
(`src/servers/http/http_connection.h`, `http_connection.cc`).  A connection is idle in
`m_conns`, lent to a caller through a shared pointer whose deleter is `ReleasePtr`, or deleted;
`m_total` is adjusted where a connection is made or deleted.

Connections are numbered in the order in which they are made.  Each call is one step.  The
clock may show anything at each reading, and a connection may be cut off at any time.
`m_total` is an integer: a live connection is an object in memory, so there are less than
`2 ^ 31` of them.

Main results:

- Theorem `pool_accounts`: `m_total` counts the idle and the lent connections, which are all
  different; a connection that is handed out is connected and not too old; none is handed out
  too often.
- Theorem `total_le_maxSize_iff`: `m_total` stays within `m_max_size` exactly if no call makes
  a connection while as many are lent.
-/

namespace Tiger
namespace Http

open Lib

/-! ## State -/

/-- `HTTPConnection`, as far as the pool looks at it. -/
structure PooledConnection where
  createTime : UInt64
  request : UInt64
  connected : Bool

/-- `HTTPConnectionPool`, the connections that exist, and those that callers hold. -/
structure HTTPConnectionPool where
  maxSize : UInt32
  maxAliveTime : UInt32
  maxRequest : UInt32
  conns : List Nat
  total : Int
  object : Nat → PooledConnection
  lent : List Nat
  created : Nat

/-- What becomes of the attempt to make a new connection. -/
inductive Creation
  /-- `IPAddress::LookupAny` returns null -/
  | lookupFails
  /-- `CreateTCP` returns null -/
  | socketFails
  /-- `socket->connect` returns false -/
  | connectFails
  /-- the connection is made, and its constructor reads the clock -/
  | connects (clock : UInt64)
deriving DecidableEq

/-- The steps. -/
inductive PoolEvent
  | getConnection (now : UInt64) (creation : Creation)
  | release (conn : Nat) (clock : UInt64)
  /-- the socket of a connection changes its state -/
  | link (conn : Nat) (connected : Bool)
deriving DecidableEq

/-- What a step hands out, with the last reading of the clock in the call. -/
inductive PoolOutcome
  | handed (conn : Nat) (clock : UInt64)
  | nothing
deriving DecidableEq

/-- The step hands out the connection. -/
def PoolOutcome.hands (conn : Nat) : PoolOutcome → Bool
  | .handed c _ => c == conn
  | .nothing => false

namespace HTTPConnectionPool

/-- The constructor. -/
def new (maxSize maxAliveTime maxRequest : UInt32) : HTTPConnectionPool where
  maxSize := maxSize
  maxAliveTime := maxAliveTime
  maxRequest := maxRequest
  conns := []
  total := 0
  object _ := ⟨0, 0, false⟩
  lent := []
  created := 0

/-- `conn->m_create_time + m_max_alive_time` -/
def aliveUntil (s : HTTPConnectionPool) (conn : Nat) : UInt64 :=
  (s.object conn).createTime + s.maxAliveTime.toUInt64

/-- The `while (!m_conns.empty())` loop of `get_connection`: the connections that are no longer
fit for use, the first one that is, and those behind it. -/
def pickIdle (s : HTTPConnectionPool) (now : UInt64) : List Nat → List Nat × Option Nat × List Nat
  | [] => ([], none, [])
  | conn :: rest =>
      if !(s.object conn).connected then
        let (invalid, ptr, rest) := pickIdle s now rest
        (conn :: invalid, ptr, rest)
      else if s.aliveUntil conn < now then
        let (invalid, ptr, rest) := pickIdle s now rest
        (conn :: invalid, ptr, rest)
      else ([], some conn, rest)

/-- `get_connection()` -/
def getConnection (s : HTTPConnectionPool) (now : UInt64) (creation : Creation) :
    PoolOutcome × HTTPConnectionPool :=
  let (invalid, ptr, rest) := s.pickIdle now s.conns
  let s := { s with conns := rest, total := s.total - invalid.length }
  match ptr with
  | some conn => (.handed conn now, { s with lent := conn :: s.lent })
  | none =>
      match creation with
      | .lookupFails | .socketFails | .connectFails => (.nothing, s)
      | .connects clock =>
          (.handed s.created clock,
            { s with
              object := Function.update s.object s.created ⟨clock, 0, true⟩
              total := s.total + 1
              lent := s.created :: s.lent
              created := s.created + 1 })

/-- `ReleasePtr(ptr, pool)`.  Only a connection that is lent can be released. -/
def releasePtr (s : HTTPConnectionPool) (conn : Nat) (clock : UInt64) : HTTPConnectionPool :=
  if conn ∉ s.lent then s
  else
    let c := { s.object conn with request := (s.object conn).request + 1 }
    let s := { s with object := Function.update s.object conn c, lent := s.lent.erase conn }
    if !c.connected || decide (s.aliveUntil conn ≤ clock) ||
        decide (s.maxRequest.toUInt64 ≤ c.request) then
      { s with total := s.total - 1 }
    else { s with conns := s.conns ++ [conn] }

/-- One step. -/
def step (s : HTTPConnectionPool) : PoolEvent → PoolOutcome × HTTPConnectionPool
  | .getConnection now creation => s.getConnection now creation
  | .release conn clock => (.nothing, s.releasePtr conn clock)
  | .link conn connected =>
      (.nothing,
        { s with
          object := Function.update s.object conn { s.object conn with connected := connected } })

/-! ## What a step does -/

variable {s : HTTPConnectionPool} {conn : Nat} {now clock : UInt64}

/-- The connection may be handed out. -/
def Fit (s : HTTPConnectionPool) (now : UInt64) (conn : Nat) : Prop :=
  (s.object conn).connected = true ∧ now ≤ s.aliveUntil conn

instance (s : HTTPConnectionPool) (now : UInt64) : DecidablePred (s.Fit now) := fun _ =>
  inferInstanceAs (Decidable (_ ∧ _))

/-- The loop drops connections up to the first one that is fit. -/
theorem pickIdle_cases (s : HTTPConnectionPool) (now : UInt64) (conns : List Nat) :
    (∃ invalid conn rest, s.pickIdle now conns = (invalid, some conn, rest) ∧
      conns = invalid ++ conn :: rest ∧ s.Fit now conn) ∨
    s.pickIdle now conns = (conns, none, []) ∧ ∀ conn ∈ conns, ¬s.Fit now conn := by
  induction conns with
  | nil => exact .inr ⟨rfl, by simp⟩
  | cons c conns ih =>
      by_cases hfit : s.Fit now c
      · refine .inl ⟨[], c, conns, ?_, rfl, hfit⟩
        rw [pickIdle, if_neg (by simp [hfit.1]), if_neg (UInt64.not_lt.mpr hfit.2)]
      · have hskip : s.pickIdle now (c :: conns) =
            (c :: (s.pickIdle now conns).1, (s.pickIdle now conns).2) := by
          rw [pickIdle]
          by_cases hconn : (s.object c).connected = true
          · have hold : s.aliveUntil c < now := UInt64.not_le.mp fun h => hfit ⟨hconn, h⟩
            rw [if_neg (by simp [hconn]), if_pos hold]
          · rw [if_pos (by simpa using hconn)]
        rw [hskip]
        rcases ih with ⟨invalid, conn, rest, hpick, hconns, hconn⟩ | ⟨hpick, hunfit⟩
        · exact .inl ⟨c :: invalid, conn, rest, by rw [hpick], by rw [hconns]; rfl, hconn⟩
        · refine .inr ⟨by rw [hpick], ?_⟩
          intro d hd
          rcases List.mem_cons.mp hd with rfl | hd
          · exact hfit
          · exact hunfit d hd

/-- `get_connection` reuses an idle connection, makes a new one, or fails.  Idle connections
that are not fit are deleted on the way. -/
theorem getConnection_cases (s : HTTPConnectionPool) (now : UInt64) (creation : Creation) :
    (∃ invalid conn rest, s.conns = invalid ++ conn :: rest ∧ s.Fit now conn ∧
      s.getConnection now creation = (.handed conn now,
        { s with conns := rest, total := s.total - invalid.length, lent := conn :: s.lent })) ∨
    (∀ conn ∈ s.conns, ¬s.Fit now conn) ∧
      ((∃ clock, creation = .connects clock ∧ s.getConnection now creation =
        (.handed s.created clock,
          { s with
            conns := []
            total := s.total - s.conns.length + 1
            object := Function.update s.object s.created ⟨clock, 0, true⟩
            lent := s.created :: s.lent
            created := s.created + 1 })) ∨
      (∀ clock, creation ≠ .connects clock) ∧ s.getConnection now creation =
        (.nothing, { s with conns := [], total := s.total - s.conns.length })) := by
  rcases pickIdle_cases s now s.conns with ⟨invalid, conn, rest, hpick, hconns, hfit⟩
    | ⟨hpick, hunfit⟩
  · refine .inl ⟨invalid, conn, rest, hconns, hfit, ?_⟩
    simp only [getConnection, hpick]
  · refine .inr ⟨hunfit, ?_⟩
    cases creation with
    | lookupFails | socketFails | connectFails =>
        exact .inr ⟨by simp, by simp only [getConnection, hpick]⟩
    | connects clock => exact .inl ⟨clock, rfl, by simp only [getConnection, hpick]⟩

/-- The object of a connection with one more request. -/
def counted (s : HTTPConnectionPool) (conn : Nat) : Nat → PooledConnection :=
  Function.update s.object conn { s.object conn with request := (s.object conn).request + 1 }

/-- `ReleasePtr` deletes the connection, or puts it back when it may be used again. -/
theorem releasePtr_cases (s : HTTPConnectionPool) (conn : Nat) (clock : UInt64) :
    (conn ∉ s.lent ∧ s.releasePtr conn clock = s) ∨
    conn ∈ s.lent ∧
      (s.releasePtr conn clock =
          { s with object := s.counted conn, lent := s.lent.erase conn, total := s.total - 1 } ∨
        (s.object conn).request + 1 < s.maxRequest.toUInt64 ∧ s.releasePtr conn clock =
          { s with
            object := s.counted conn
            lent := s.lent.erase conn
            conns := s.conns ++ [conn] }) := by
  rw [releasePtr]
  split
  next hnot => exact .inl ⟨hnot, rfl⟩
  next hlent =>
    refine .inr ⟨not_not.mp hlent, ?_⟩
    dsimp only
    split
    next => exact .inl rfl
    next hkeep =>
      refine .inr ⟨?_, rfl⟩
      simp only [Bool.or_eq_true, decide_eq_true_eq, not_or] at hkeep
      exact UInt64.not_le.mp hkeep.2

/-! ## The accounts -/

/-- How often a connection may be handed out. -/
def mostRequests (s : HTTPConnectionPool) : Nat := max 1 s.maxRequest.toNat

/-- What holds between calls. -/
structure Accounts (s : HTTPConnectionPool) : Prop where
  total_eq : s.total = s.conns.length + s.lent.length
  nodup : (s.conns ++ s.lent).Nodup
  known : ∀ conn ∈ s.conns ++ s.lent, conn < s.created
  idle : ∀ conn ∈ s.conns, (s.object conn).request.toNat < s.maxRequest.toNat
  borrowed : ∀ conn ∈ s.lent, (s.object conn).request.toNat < s.mostRequests

/-- A new pool accounts for its connections. -/
theorem new_accounts (maxSize maxAliveTime maxRequest : UInt32) :
    (new maxSize maxAliveTime maxRequest).Accounts where
  total_eq := rfl
  nodup := List.nodup_nil
  known := by simp [new]
  idle := by simp [new]
  borrowed := by simp [new]

/-- The limit of requests is a number of 32 bits. -/
theorem mostRequests_lt (s : HTTPConnectionPool) : s.mostRequests < 2 ^ 32 := by
  have hlt := s.maxRequest.toNat_lt
  rw [mostRequests]
  omega

/-- A connection that is lent counts one request more when it comes back. -/
theorem Accounts.counted_request (h : s.Accounts) (hconn : conn ∈ s.lent) :
    ((s.object conn).request + 1).toNat = (s.object conn).request.toNat + 1 := by
  have hless := h.borrowed conn hconn
  have hmost := s.mostRequests_lt
  rw [UInt64.toNat_add, UInt64.toNat_one, Nat.mod_eq_of_lt (by omega)]

/-- Lending an idle connection keeps the accounts. -/
theorem Accounts.reuse (h : s.Accounts) {invalid rest : List Nat}
    (hconns : s.conns = invalid ++ conn :: rest) :
    { s with
      conns := rest
      total := s.total - invalid.length
      lent := conn :: s.lent : HTTPConnectionPool }.Accounts := by
  have hnodup := h.nodup
  have htotal := h.total_eq
  have hidle : conn ∈ s.conns := by simp [hconns]
  refine ⟨?_, ?_, ?_, ?_, ?_⟩
  · simp only [hconns, List.length_append, List.length_cons] at htotal ⊢
    omega
  · rw [hconns, List.append_assoc, List.cons_append] at hnodup
    exact List.nodup_middle.mpr (List.nodup_append.mp hnodup).2.1
  · intro c hc
    apply h.known
    simp only [hconns, List.mem_append, List.mem_cons] at hc ⊢
    tauto
  · intro c hc
    exact h.idle c (by simp [hconns, hc])
  · intro c hc
    rcases List.mem_cons.mp hc with rfl | hc
    · exact lt_of_lt_of_le (h.idle c hidle) (le_max_right _ _)
    · exact h.borrowed c hc

/-- Dropping the idle connections keeps the accounts. -/
theorem Accounts.dropIdle (h : s.Accounts) :
    { s with conns := [], total := s.total - s.conns.length : HTTPConnectionPool }.Accounts where
  total_eq := by
    have htotal := h.total_eq
    simp only [List.length_nil]
    omega
  nodup := (List.nodup_append.mp h.nodup).2.1
  known conn hconn := h.known conn (List.mem_append_right _ hconn)
  idle := by simp
  borrowed := h.borrowed

/-- Creating a connection keeps the accounts. -/
theorem Accounts.create (h : s.Accounts) (clock : UInt64) :
    { s with
      total := s.total + 1
      object := Function.update s.object s.created ⟨clock, 0, true⟩
      lent := s.created :: s.lent
      created := s.created + 1 : HTTPConnectionPool }.Accounts := by
  have hother : ∀ c ∈ s.conns ++ s.lent,
      Function.update s.object s.created ⟨clock, 0, true⟩ c = s.object c := fun c hc =>
    Function.update_of_ne (h.known c hc).ne _ _
  refine ⟨?_, ?_, ?_, ?_, ?_⟩
  · have htotal := h.total_eq
    simp only [List.length_cons]
    omega
  · refine List.nodup_middle.mpr (List.nodup_cons.mpr ⟨?_, h.nodup⟩)
    intro hmem
    exact lt_irrefl _ (h.known _ hmem)
  · intro c hc
    rw [List.mem_append, List.mem_cons] at hc
    change c < s.created + 1
    rcases hc with hc | rfl | hc
    · exact (h.known c (List.mem_append_left _ hc)).trans (Nat.lt_succ_self _)
    · exact Nat.lt_succ_self _
    · exact (h.known c (List.mem_append_right _ hc)).trans (Nat.lt_succ_self _)
  · intro c hc
    change (Function.update s.object s.created _ c).request.toNat < _
    rw [hother c (List.mem_append_left _ hc)]
    exact h.idle c hc
  · intro c hc
    change (Function.update s.object s.created _ c).request.toNat < _
    rcases List.mem_cons.mp hc with rfl | hc
    · rw [Function.update_self]
      exact Nat.lt_of_lt_of_le Nat.zero_lt_one (le_max_left _ _)
    · rw [hother c (List.mem_append_right _ hc)]
      exact h.borrowed c hc

/-- Where a connection is lent it is not idle. -/
theorem Accounts.not_idle (h : s.Accounts) (hconn : conn ∈ s.lent) : conn ∉ s.conns := fun hidle =>
  (List.nodup_append.mp h.nodup).2.2 conn hidle conn hconn rfl

/-- A connection that is lent is not idle. -/
theorem Accounts.ne_of_idle (h : s.Accounts) (hconn : conn ∈ s.lent) {c : Nat} (hc : c ∈ s.conns) :
    c ≠ conn := by
  rintro rfl
  exact h.not_idle hconn hc

theorem Accounts.lent_nodup (h : s.Accounts) : s.lent.Nodup := (List.nodup_append.mp h.nodup).2.1

theorem counted_of_ne {c : Nat} (hne : c ≠ conn) : s.counted conn c = s.object c :=
  Function.update_of_ne hne _ _

theorem counted_self (s : HTTPConnectionPool) (conn : Nat) :
    (s.counted conn conn).request = (s.object conn).request + 1 := by
  rw [counted, Function.update_self]

/-- The callers that are left when a connection comes back. -/
theorem Accounts.mem_erase (h : s.Accounts) {c : Nat} :
    c ∈ s.lent.erase conn ↔ c ≠ conn ∧ c ∈ s.lent := h.lent_nodup.mem_erase_iff

/-- The count of a connection that comes back is not that of another one. -/
theorem Accounts.idle_counted (h : s.Accounts) (hconn : conn ∈ s.lent) {c : Nat}
    (hc : c ∈ s.conns) : (s.counted conn c).request.toNat < s.maxRequest.toNat := by
  rw [counted_of_ne (h.ne_of_idle hconn hc)]
  exact h.idle c hc

/-- Counting a request keeps the limit of the other lent connections. -/
theorem Accounts.borrowed_counted (h : s.Accounts) {c : Nat} (hc : c ∈ s.lent.erase conn) :
    (s.counted conn c).request.toNat < s.mostRequests := by
  rcases h.mem_erase.mp hc with ⟨hne, hc⟩
  rw [counted_of_ne hne]
  exact h.borrowed c hc

/-- Deleting a returned connection keeps the accounts. -/
theorem Accounts.delete (h : s.Accounts) (hconn : conn ∈ s.lent) :
    { s with
      object := s.counted conn
      lent := s.lent.erase conn
      total := s.total - 1 : HTTPConnectionPool }.Accounts := by
  refine ⟨?_, ?_, ?_, ?_, ?_⟩
  · have htotal := h.total_eq
    have hlen := List.length_erase_of_mem hconn
    have hpos := List.length_pos_of_mem hconn
    change s.total - 1 = (s.conns.length : Int) + (s.lent.erase conn).length
    omega
  · exact h.nodup.sublist (List.erase_sublist.append_left s.conns)
  · intro c hc
    exact h.known c ((List.erase_sublist.append_left s.conns).subset hc)
  · exact fun c hc => h.idle_counted hconn hc
  · exact fun c hc => h.borrowed_counted hc

/-- Putting a connection back keeps the accounts. -/
theorem Accounts.putBack (h : s.Accounts) (hconn : conn ∈ s.lent)
    (hless : (s.object conn).request + 1 < s.maxRequest.toUInt64) :
    { s with
      object := s.counted conn
      lent := s.lent.erase conn
      conns := s.conns ++ [conn] : HTTPConnectionPool }.Accounts := by
  have hperm : ((s.conns ++ [conn]) ++ s.lent.erase conn).Perm (s.conns ++ s.lent) := by
    rw [List.append_assoc]
    exact (List.perm_cons_erase hconn).symm.append_left s.conns
  refine ⟨?_, ?_, ?_, ?_, ?_⟩
  · have htotal := h.total_eq
    have hlen := hperm.length_eq
    simp only [List.length_append] at hlen ⊢
    omega
  · exact hperm.nodup_iff.mpr h.nodup
  · intro c hc
    exact h.known c (hperm.mem_iff.mp hc)
  · intro c hc
    change (s.counted conn c).request.toNat < s.maxRequest.toNat
    rcases List.mem_append.mp hc with hc | hc
    · exact h.idle_counted hconn hc
    · rw [List.mem_singleton.mp hc, counted_self]
      exact UInt64.lt_iff_toNat_lt.mp hless
  · exact fun c hc => h.borrowed_counted hc

/-- The state of a socket is not part of the accounts. -/
theorem link_request (s : HTTPConnectionPool) (conn c : Nat) (connected : Bool) :
    (Function.update s.object conn { s.object conn with connected := connected } c).request =
      (s.object c).request := by
  by_cases hc : c = conn
  · subst hc
    rw [Function.update_self]
  · rw [Function.update_of_ne hc]

/-- Every step keeps the accounts. -/
theorem step_accounts (h : s.Accounts) (e : PoolEvent) : (s.step e).2.Accounts := by
  cases e with
  | getConnection now creation =>
      rw [step]
      rcases getConnection_cases s now creation with
        ⟨invalid, conn, rest, hconns, -, heq⟩ | ⟨-, ⟨clock, -, heq⟩ | ⟨-, heq⟩⟩
      · rw [heq]
        exact h.reuse hconns
      · rw [heq]
        exact h.dropIdle.create clock
      · rw [heq]
        exact h.dropIdle
  | release conn clock =>
      change (s.releasePtr conn clock).Accounts
      rcases releasePtr_cases s conn clock with ⟨-, heq⟩ | ⟨hconn, heq | ⟨hless, heq⟩⟩
      · rwa [heq]
      · rw [heq]
        exact h.delete hconn
      · rw [heq]
        exact h.putBack hconn hless
  | link conn connected =>
      refine ⟨h.total_eq, h.nodup, h.known, ?_, ?_⟩
      · intro c hc
        change (Function.update s.object conn _ c).request.toNat < _
        rw [link_request]
        exact h.idle c hc
      · intro c hc
        change (Function.update s.object conn _ c).request.toNat < _
        rw [link_request]
        exact h.borrowed c hc

/-! ## How often a connection is handed out -/

/-- How often a connection can still be handed out. -/
def budget (s : HTTPConnectionPool) (conn : Nat) : Nat :=
  if conn ∈ s.lent then s.mostRequests - ((s.object conn).request.toNat + 1)
  else if conn ∈ s.conns then s.maxRequest.toNat - (s.object conn).request.toNat
  else if s.created ≤ conn then s.mostRequests
  else 0

theorem budget_new (maxSize maxAliveTime maxRequest : UInt32) (conn : Nat) :
    (new maxSize maxAliveTime maxRequest).budget conn = max 1 maxRequest.toNat := by
  simp [budget, new, mostRequests]

theorem budget_lent (hconn : conn ∈ s.lent) :
    s.budget conn = s.mostRequests - ((s.object conn).request.toNat + 1) := by
  rw [budget, if_pos hconn]

/-- An idle connection has the rest of its requests left. -/
theorem Accounts.budget_idle (h : s.Accounts) (hconn : conn ∈ s.conns) :
    s.budget conn = s.maxRequest.toNat - (s.object conn).request.toNat := by
  have hnot : conn ∉ s.lent := fun hlent => h.not_idle hlent hconn
  rw [budget, if_neg hnot, if_pos hconn]

/-- A deleted connection has no requests left. -/
theorem budget_deleted (hknown : conn < s.created)
    (hconn : conn ∉ s.conns ++ s.lent) : s.budget conn = 0 := by
  rw [List.mem_append, not_or] at hconn
  rw [budget, if_neg hconn.2, if_neg hconn.1, if_neg (Nat.not_le.mpr hknown)]

/-- A connection to come has all its requests left. -/
theorem Accounts.budget_new (h : s.Accounts) (hknown : s.created ≤ conn) :
    s.budget conn = s.mostRequests := by
  have hconn : conn ∉ s.conns ++ s.lent := fun hmem => Nat.not_lt.mpr hknown (h.known conn hmem)
  rw [List.mem_append, not_or] at hconn
  rw [budget, if_neg hconn.2, if_neg hconn.1, if_pos hknown]

/-- A step that leaves a connection where it is leaves its budget. -/
theorem budget_congr {s' : HTTPConnectionPool} (hlent : conn ∈ s'.lent ↔ conn ∈ s.lent)
    (hconns : conn ∈ s'.conns ↔ conn ∈ s.conns)
    (hrequest : (s'.object conn).request = (s.object conn).request)
    (hmax : s'.maxRequest = s.maxRequest) (hcreated : s'.created ≤ conn ↔ s.created ≤ conn) :
    s'.budget conn = s.budget conn := by
  simp only [budget, mostRequests, hlent, hconns, hrequest, hmax, hcreated]

/-- Lending an idle connection takes one request from its budget. -/
theorem Accounts.reuse_budget (h : s.Accounts) {invalid rest : List Nat} {c : Nat}
    (hconns : s.conns = invalid ++ c :: rest) (now : UInt64) (conn : Nat) :
    ((PoolOutcome.handed c now).hands conn).toNat +
      budget { s with
        conns := rest, total := s.total - invalid.length, lent := c :: s.lent } conn ≤
      s.budget conn := by
  by_cases hc : c = conn
  · subst hc
    have hidle : c ∈ s.conns := by simp [hconns]
    have hless := h.idle c hidle
    rw [h.budget_idle hidle, budget_lent List.mem_cons_self]
    simp only [PoolOutcome.hands, beq_self_eq_true, Bool.toNat_true, mostRequests]
    omega
  · have hhands : (PoolOutcome.handed c now).hands conn = false := by
      simpa [PoolOutcome.hands] using hc
    have hlent : conn ∈ c :: s.lent ↔ conn ∈ s.lent := by simp [Ne.symm hc]
    rw [hhands, Bool.toNat_false, Nat.zero_add]
    by_cases hinvalid : conn ∈ invalid
    · have hnodup := h.nodup
      rw [hconns, List.append_assoc] at hnodup
      have hgone : conn ∉ rest ++ c :: s.lent := by
        intro hmem
        refine (List.nodup_append.mp hnodup).2.2 conn hinvalid conn ?_ rfl
        simp only [List.mem_append, List.mem_cons] at hmem ⊢
        tauto
      have hknown := h.known conn (by simp [hconns, hinvalid])
      refine le_of_eq_of_le (budget_deleted ?_ ?_) (Nat.zero_le _)
      · exact hknown
      · exact hgone
    · apply le_of_eq
      refine budget_congr hlent ?_ rfl rfl Iff.rfl
      simp [hconns, hinvalid, Ne.symm hc]

/-- Deleting idle connections takes their budgets away. -/
theorem Accounts.dropIdle_budget (h : s.Accounts) (conn : Nat) :
    budget { s with conns := [], total := s.total - s.conns.length } conn ≤ s.budget conn := by
  by_cases hidle : conn ∈ s.conns
  · have hknown := h.known conn (List.mem_append_left _ hidle)
    have hgone : conn ∉ [] ++ s.lent := fun hlent => h.not_idle hlent hidle
    refine le_of_eq_of_le (budget_deleted ?_ ?_) (Nat.zero_le _)
    · exact hknown
    · exact hgone
  · exact le_of_eq (budget_congr Iff.rfl (by simp [hidle]) rfl rfl Iff.rfl)

/-- Creating a connection takes one request from its budget. -/
theorem Accounts.create_budget (h : s.Accounts) (clock : UInt64) (conn : Nat) :
    ((PoolOutcome.handed s.created clock).hands conn).toNat +
      budget { s with
        total := s.total + 1
        object := Function.update s.object s.created ⟨clock, 0, true⟩
        lent := s.created :: s.lent
        created := s.created + 1 } conn ≤ s.budget conn := by
  by_cases hc : s.created = conn
  · subst hc
    rw [h.budget_new le_rfl, budget_lent List.mem_cons_self]
    simp only [PoolOutcome.hands, beq_self_eq_true, Bool.toNat_true, mostRequests,
      Function.update_self, UInt64.toNat_zero]
    omega
  · have hhands : (PoolOutcome.handed s.created clock).hands conn = false := by
      simpa [PoolOutcome.hands] using hc
    rw [hhands, Bool.toNat_false, Nat.zero_add]
    apply le_of_eq
    refine budget_congr (by simp [Ne.symm hc]) Iff.rfl ?_ rfl ?_
    · change (Function.update s.object s.created _ conn).request = _
      rw [Function.update_of_ne (Ne.symm hc)]
    · change s.created + 1 ≤ conn ↔ s.created ≤ conn
      omega

/-- Deleting a connection adds to no budget. -/
theorem Accounts.delete_budget (h : s.Accounts) {c : Nat} (hc : c ∈ s.lent) (conn : Nat) :
    budget { s with
      object := s.counted c, lent := s.lent.erase c, total := s.total - 1 } conn ≤
      s.budget conn := by
  by_cases heq : conn = c
  · subst heq
    have hgone : conn ∉ s.conns ++ s.lent.erase conn := by
      rw [List.mem_append, not_or]
      exact ⟨h.not_idle hc, fun hmem => (h.mem_erase.mp hmem).1 rfl⟩
    refine le_of_eq_of_le (budget_deleted ?_ ?_) (Nat.zero_le _)
    · exact h.known conn (List.mem_append_right _ hc)
    · exact hgone
  · apply le_of_eq
    refine budget_congr ?_ Iff.rfl ?_ rfl Iff.rfl
    · exact h.mem_erase.trans (and_iff_right heq)
    · exact congrArg PooledConnection.request (counted_of_ne heq)

/-- Putting a connection back adds to no budget. -/
theorem Accounts.putBack_budget (h : s.Accounts) {c : Nat} (hc : c ∈ s.lent)
    (hless : (s.object c).request + 1 < s.maxRequest.toUInt64) (conn : Nat) :
    budget { s with
      object := s.counted c, lent := s.lent.erase c, conns := s.conns ++ [c] } conn ≤
      s.budget conn := by
  by_cases heq : conn = c
  · subst heq
    have hidle : conn ∈ s.conns ++ [conn] := by simp
    rw [(h.putBack hc hless).budget_idle hidle, budget_lent hc]
    simp only [counted_self, h.counted_request hc, mostRequests]
    omega
  · apply le_of_eq
    refine budget_congr ?_ ?_ ?_ rfl Iff.rfl
    · exact h.mem_erase.trans (and_iff_right heq)
    · simp [heq]
    · exact congrArg PooledConnection.request (counted_of_ne heq)

/-- A step that hands out a connection pays for it. -/
theorem step_budget (h : s.Accounts) (e : PoolEvent) (conn : Nat) :
    ((s.step e).1.hands conn).toNat + (s.step e).2.budget conn ≤ s.budget conn := by
  cases e with
  | getConnection now creation =>
      rw [step]
      rcases getConnection_cases s now creation with
        ⟨invalid, c, rest, hconns, -, heq⟩ | ⟨-, ⟨clock, -, heq⟩ | ⟨-, heq⟩⟩
      · rw [heq]
        exact h.reuse_budget hconns now conn
      · rw [heq]
        exact (h.dropIdle.create_budget clock conn).trans (h.dropIdle_budget conn)
      · rw [heq]
        simpa [PoolOutcome.hands] using h.dropIdle_budget conn
  | release c clock =>
      change 0 + (s.releasePtr c clock).budget conn ≤ s.budget conn
      rw [Nat.zero_add]
      rcases releasePtr_cases s c clock with ⟨-, heq⟩ | ⟨hc, heq | ⟨hless, heq⟩⟩
      · rw [heq]
      · rw [heq]
        exact h.delete_budget hc conn
      · rw [heq]
        exact h.putBack_budget hc hless conn
  | link c connected =>
      change 0 + _ ≤ s.budget conn
      rw [Nat.zero_add]
      exact le_of_eq (budget_congr Iff.rfl Iff.rfl (link_request s c conn connected) rfl Iff.rfl)

/-- A run hands out a connection as often as its budget allows. -/
theorem run_hands_le (h : s.Accounts) (es : List PoolEvent) (conn : Nat) :
    (run step s es).1.countP (PoolOutcome.hands conn) ≤ s.budget conn := by
  induction es generalizing s with
  | nil => exact Nat.zero_le _
  | cons e es ih =>
      have hstep := step_budget h e conn
      have hrest := ih (step_accounts h e)
      rw [run_cons, List.countP_cons]
      cases hhands : (s.step e).1.hands conn with
      | true =>
          rw [hhands, Bool.toNat_true] at hstep
          simp only [if_true]
          omega
      | false =>
          rw [hhands, Bool.toNat_false] at hstep
          simp only [Bool.false_eq_true, if_false]
          omega

/-! ## Runs -/

theorem run_accounts (h : s.Accounts) (es : List PoolEvent) : (run step s es).2.Accounts := by
  rw [run_snd]
  exact foldl_keeps Accounts (fun _ e hs => step_accounts hs e) es h

/-- The limits of a pool do not change. -/
theorem step_limits (s : HTTPConnectionPool) (e : PoolEvent) :
    (s.step e).2.maxSize = s.maxSize ∧ (s.step e).2.maxAliveTime = s.maxAliveTime := by
  cases e with
  | getConnection now creation =>
      rw [step]
      rcases getConnection_cases s now creation with
        ⟨invalid, c, rest, -, -, heq⟩ | ⟨-, ⟨clock, -, heq⟩ | ⟨-, heq⟩⟩
      all_goals
        rw [heq]
        exact ⟨rfl, rfl⟩
  | release conn clock =>
      change (s.releasePtr conn clock).maxSize = _ ∧ (s.releasePtr conn clock).maxAliveTime = _
      rcases releasePtr_cases s conn clock with ⟨-, heq⟩ | ⟨-, heq | ⟨-, heq⟩⟩
      all_goals
        rw [heq]
        exact ⟨rfl, rfl⟩
  | link conn connected => exact ⟨rfl, rfl⟩

/-- A run keeps the limits of the pool. -/
theorem run_limits (s : HTTPConnectionPool) (es : List PoolEvent) :
    (run step s es).2.maxSize = s.maxSize ∧ (run step s es).2.maxAliveTime = s.maxAliveTime := by
  rw [run_snd]
  refine foldl_keeps
    (fun s' : HTTPConnectionPool => s'.maxSize = s.maxSize ∧ s'.maxAliveTime = s.maxAliveTime)
    ?_ es ⟨rfl, rfl⟩
  intro s' e hs'
  exact ⟨(step_limits s' e).1.trans hs'.1, (step_limits s' e).2.trans hs'.2⟩

/-- What a step hands out is connected and not too old at the last reading of the clock. -/
theorem step_handed {e : PoolEvent} (hhanded : (s.step e).1 = .handed conn clock) :
    ((s.step e).2.object conn).connected = true ∧
      clock.toNat ≤ ((s.step e).2.object conn).createTime.toNat + s.maxAliveTime.toNat := by
  cases e with
  | release c clock' => cases hhanded
  | link c connected => cases hhanded
  | getConnection now creation =>
      rw [step] at hhanded ⊢
      rcases getConnection_cases s now creation with
        ⟨invalid, c, rest, -, hfit, heq⟩ | ⟨-, ⟨clock', -, heq⟩ | ⟨-, heq⟩⟩
      · rw [heq] at hhanded ⊢
        cases hhanded
        refine ⟨hfit.1, ?_⟩
        have hle := UInt64.le_iff_toNat_le.mp hfit.2
        rw [aliveUntil, UInt64.toNat_add, UInt32.toNat_toUInt64] at hle
        exact hle.trans (Nat.mod_le _ _)
      · rw [heq] at hhanded ⊢
        cases hhanded
        simp only [Function.update_self]
        exact ⟨trivial, Nat.le_add_right _ _⟩
      · rw [heq] at hhanded
        cases hhanded

/-- A connection that is made has room: it is not made, or fewer are lent than the pool may
hold. -/
def HasRoom (s : HTTPConnectionPool) : PoolEvent → Prop
  | .getConnection now (.connects _) =>
      (∃ conn ∈ s.conns, s.Fit now conn) ∨ s.lent.length < s.maxSize.toNat
  | _ => True

/-- A step keeps `m_total` within `m_max_size` exactly if it has room. -/
theorem step_total_le_iff (h : s.Accounts) (hle : s.total ≤ s.maxSize.toNat) (e : PoolEvent) :
    (s.step e).2.total ≤ (s.step e).2.maxSize.toNat ↔ s.HasRoom e := by
  have htotal := h.total_eq
  rw [(step_limits s e).1]
  cases e with
  | link conn connected => exact iff_of_true hle trivial
  | release conn clock =>
      refine iff_of_true ?_ trivial
      change (s.releasePtr conn clock).total ≤ _
      rcases releasePtr_cases s conn clock with ⟨-, heq⟩ | ⟨-, heq | ⟨-, heq⟩⟩
      · rwa [heq]
      · rw [heq]
        change s.total - 1 ≤ _
        omega
      · rwa [heq]
  | getConnection now creation =>
      rw [step]
      rcases getConnection_cases s now creation with
        ⟨invalid, c, rest, hconns, hfit, heq⟩ | ⟨hunfit, ⟨clock, rfl, heq⟩ | ⟨hfails, heq⟩⟩
      · rw [heq]
        refine iff_of_true ?_ ?_
        · change s.total - invalid.length ≤ _
          omega
        · cases creation with
          | lookupFails | socketFails | connectFails => trivial
          | connects clock => exact .inl ⟨c, by simp [hconns], hfit⟩
      · rw [heq]
        have hnone : ¬∃ conn ∈ s.conns, s.Fit now conn := by
          rintro ⟨conn, hconn, hfit⟩
          exact hunfit conn hconn hfit
        change s.total - s.conns.length + 1 ≤ _ ↔ _ ∨ _
        rw [or_iff_right hnone]
        omega
      · rw [heq]
        refine iff_of_true ?_ ?_
        · change s.total - s.conns.length ≤ _
          omega
        · cases creation with
          | lookupFails | socketFails | connectFails => trivial
          | connects clock => exact absurd rfl (hfails clock)

end HTTPConnectionPool

open HTTPConnectionPool

/-- Behind every sequence of steps on a new pool: `m_total` is the number of idle connections
plus the number of those that are lent; no connection is idle twice, or idle and lent; what the
next step hands out is connected and not older than `m_max_alive_time` at the last reading of
the clock in its call; and no connection has been handed out more than `max(1, m_max_request)`
times. -/
theorem pool_accounts (maxSize maxAliveTime maxRequest : UInt32) (es : List PoolEvent) :
    let r := run step (new maxSize maxAliveTime maxRequest) es
    r.2.total = r.2.conns.length + r.2.lent.length ∧
      (r.2.conns ++ r.2.lent).Nodup ∧
      (∀ e conn clock, (step r.2 e).1 = .handed conn clock →
        ((step r.2 e).2.object conn).connected = true ∧
          clock.toNat ≤ ((step r.2 e).2.object conn).createTime.toNat + maxAliveTime.toNat) ∧
      ∀ conn, r.1.countP (PoolOutcome.hands conn) ≤ max 1 maxRequest.toNat := by
  have hnew := new_accounts maxSize maxAliveTime maxRequest
  have hrun := run_accounts hnew es
  refine ⟨hrun.total_eq, hrun.nodup, ?_, ?_⟩
  · intro e conn clock hhanded
    have hstep := step_handed hhanded
    rwa [(run_limits _ es).2] at hstep
  · intro conn
    rw [← budget_new maxSize maxAliveTime maxRequest conn]
    exact run_hands_le hnew es conn

/-- Along every sequence of steps on a new pool `m_total` stays within `m_max_size` exactly if
every call that makes a connection does so while fewer than `m_max_size` are lent. -/
theorem total_le_maxSize_iff (maxSize maxAliveTime maxRequest : UInt32) (es : List PoolEvent) :
    (∀ n, (run step (new maxSize maxAliveTime maxRequest) (es.take n)).2.total ≤ maxSize.toNat) ↔
      AllMeets (fun s e => (s.step e).2) HasRoom (new maxSize maxAliveTime maxRequest) es := by
  have hsize : ∀ n, (run step (new maxSize maxAliveTime maxRequest) (es.take n)).2.maxSize =
      maxSize := fun n => (run_limits _ _).1
  rw [← forall_take_iff_allMeets Accounts (fun s => s.total ≤ s.maxSize.toNat)
    (fun _ e hs => step_accounts hs e) (fun _ e hs hle => step_total_le_iff hs hle e) es
    (new_accounts maxSize maxAliveTime maxRequest) (Int.natCast_nonneg _)]
  apply forall_congr'
  intro n
  rw [← run_snd, hsize]

/-- Two calls on a pool of one connection. -/
theorem total_le_maxSize_fails :
    (run step (new 1 30000 5)
      [.getConnection 0 (.connects 0), .getConnection 0 (.connects 0)]).2.total = 2 ∧
    ¬∀ n, (run step (new 1 30000 5)
      ([.getConnection 0 (.connects 0), .getConnection 0 (.connects 0)].take n)).2.total ≤
        (1 : UInt32).toNat := by
  have htwo : (run step (new 1 30000 5)
      [.getConnection 0 (.connects 0), .getConnection 0 (.connects 0)]).2.total = 2 := by
    decide
  refine ⟨htwo, ?_⟩
  intro h
  have hle := h 2
  change (run step (new 1 30000 5)
    [.getConnection 0 (.connects 0), .getConnection 0 (.connects 0)]).2.total ≤ 1 at hle
  rw [htwo] at hle
  omega

end Http
end Tiger
