import Tiger.Lib.Simulation

/-!
# Servers - binding addresses

This module embeds `TCPServer::bind`, on one address and on a list of them
(`src/servers/tcp_server.cc`), with `Socket::bind` and `Socket::listen` (`src/socket.cc`).  What
the system does for an address comes from outside.

The sockets of all calls are in one vector.  A call that fails clears it, and it fails if the list
of failures, which the caller passes in, is not empty behind the loop.

Main results:

- Theorem `bindLoop_eq`: what the loop over the addresses leaves in the two lists.
- Theorem `proper_iff_meets`: when a call does what it is to do.
- Theorem `bind_iff`: the same for every sequence of calls, which then loses no socket.
-/

namespace Tiger
namespace TcpServer

open Lib

/-! ## Sockets -/

/-- An `Address`. -/
structure Address where
  family : Nat
  name : Nat
deriving DecidableEq

/-- What the system does for a socket: the descriptor that `::socket` returns, and whether `::bind`
and `::listen` succeed. -/
structure System where
  fd : Option Nat
  bindOk : Bool
  listenOk : Bool

/-- A socket: its members, the address it is bound to, and whether it listens. -/
structure Socket where
  family : Nat
  isSsl : Bool
  sock : Option Nat
  bound : Option Address
  listening : Bool
deriving DecidableEq

namespace Socket

/-- `Socket::CreateTCP(addr)` or `SSLSocket::CreateTCP(addr)` -/
def createTCP (isSsl : Bool) (addr : Address) : Socket := ⟨addr.family, isSsl, none, none, false⟩

/-- `bind(addr)` -/
def bind (sys : System) (addr : Address) (s : Socket) : Bool × Socket :=
  let s := if s.sock.isNone then { s with sock := sys.fd } else s
  if s.sock.isNone then (false, s)
  else if addr.family ≠ s.family then (false, s)
  else if ¬sys.bindOk then (false, s)
  else (true, { s with bound := some addr })

/-- `listen()` -/
def listen (sys : System) (s : Socket) : Bool × Socket :=
  if s.sock.isNone then (false, s)
  else if ¬sys.listenOk then (false, s)
  else (true, { s with listening := true })

end Socket

/-! ## The server -/

/-- `m_sockets` -/
structure TCPServer where
  sockets : List Socket

/-- The loop of `bind`: the list of failures and the sockets behind it. -/
def bindLoop (isSsl : Bool) :
    List (Address × System) → List Address → List Socket → List Address × List Socket
  | [], fails, sockets => (fails, sockets)
  | (addr, sys) :: rest, fails, sockets =>
      let (bound, socket) := (Socket.createTCP isSsl addr).bind sys addr
      if ¬bound then bindLoop isSsl rest (fails ++ [addr]) sockets
      else
        let (listening, socket) := socket.listen sys
        if ¬listening then bindLoop isSsl rest (fails ++ [addr]) sockets
        else bindLoop isSsl rest fails (sockets ++ [socket])

/-- `bind(addrs, fails, is_ssl)` -/
def TCPServer.bindAll (addrs : List (Address × System)) (fails : List Address) (isSsl : Bool)
    (s : TCPServer) : Bool × List Address × TCPServer :=
  let (fails, sockets) := bindLoop isSsl addrs fails s.sockets
  if fails ≠ [] then (false, fails, ⟨[]⟩) else (true, fails, ⟨sockets⟩)

/-- `bind(addr, is_ssl)` -/
def TCPServer.bindOne (addr : Address) (sys : System) (isSsl : Bool) (s : TCPServer) :
    Bool × List Address × TCPServer :=
  s.bindAll [(addr, sys)] [] isSsl

/-! ## Calls -/

/-- A call of one of the two functions. -/
inductive Call
  | one (addr : Address) (sys : System) (isSsl : Bool)
  | all (addrs : List (Address × System)) (fails : List Address) (isSsl : Bool)

namespace Call

/-- What the call returns, the list of failures, and the server behind it. -/
def apply (s : TCPServer) : Call → Bool × List Address × TCPServer
  | one addr sys isSsl => s.bindOne addr sys isSsl
  | all addrs fails isSsl => s.bindAll addrs fails isSsl

/-- The addresses of the call. -/
def addrs : Call → List (Address × System)
  | one addr sys _ => [(addr, sys)]
  | all addrs _ _ => addrs

/-- What is in the list of failures in front of the call. -/
def given : Call → List Address
  | one .. => []
  | all _ fails _ => fails

def isSsl : Call → Bool
  | one _ _ isSsl => isSsl
  | all _ _ isSsl => isSsl

end Call

/-- The server behind a call. -/
def next (s : TCPServer) (c : Call) : TCPServer := (c.apply s).2.2

/-! ## What a call is to do -/

/-- The system creates, binds and listens. -/
def Succeeds (p : Address × System) : Prop :=
  p.2.fd.isSome = true ∧ p.2.bindOk = true ∧ p.2.listenOk = true

instance (p : Address × System) : Decidable (Succeeds p) := instDecidableAnd

/-- A socket of the right kind that listens on an address. -/
structure Listens (isSsl : Bool) (p : Address × System) (s : Socket) : Prop where
  kind_eq : s.isSsl = isSsl
  opened : s.sock.isSome = true
  bound_eq : s.bound = some p.1
  listening : s.listening = true

/-- The addresses that fail. -/
def failed (addrs : List (Address × System)) : List Address :=
  (addrs.filter fun p => ¬Succeeds p).map Prod.fst

/-- A call that returns `true` adds one listening socket per address; one that returns `false`
changes nothing and reports the addresses that failed. -/
structure Proper (s : TCPServer) (c : Call) : Prop where
  added : (c.apply s).1 = true → ∃ new, (next s c).sockets = s.sockets ++ new ∧
    List.Forall₂ (Listens c.isSsl) c.addrs new
  unchanged : (c.apply s).1 = false → (next s c).sockets = s.sockets
  reported : (c.apply s).1 = false → (c.apply s).2.1 = failed c.addrs

/-- The condition for it: the list of failures is empty, and no address fails or there are no
sockets. -/
def Meets (s : TCPServer) (c : Call) : Prop :=
  c.given = [] ∧ ((∀ p ∈ c.addrs, Succeeds p) ∨ s.sockets = [])

/-! ## One call -/

/-- The socket that listens on an address. -/
def ready (isSsl : Bool) (p : Address × System) : Socket :=
  ⟨p.1.family, isSsl, p.2.fd, some p.1, true⟩

section Loop

variable {isSsl : Bool} {p : Address × System} {rest : List (Address × System)}
  {fails : List Address} {sockets : List Socket}

/-- An address whose calls succeed is bound. -/
theorem bindLoop_cons_succeeds (h : Succeeds p) :
    bindLoop isSsl (p :: rest) fails sockets =
      bindLoop isSsl rest fails (sockets ++ [ready isSsl p]) := by
  obtain ⟨addr, fd, bindOk, listenOk⟩ := p
  obtain ⟨hfd, hbind, hlisten⟩ := h
  obtain ⟨fd, rfl⟩ := Option.isSome_iff_exists.mp hfd
  simp only at hbind hlisten
  subst hbind hlisten
  rw [bindLoop]
  simp [Socket.bind, Socket.createTCP, Socket.listen, ready]

/-- An address fails in `bind` without a descriptor or by the system, or it fails in `listen`. -/
theorem bindLoop_cons_fails (h : ¬Succeeds p) :
    bindLoop isSsl (p :: rest) fails sockets =
      bindLoop isSsl rest (fails ++ [p.1]) sockets := by
  obtain ⟨addr, fd, bindOk, listenOk⟩ := p
  rw [bindLoop]
  cases fd with
  | none => simp [Socket.bind, Socket.createTCP]
  | some fd =>
      cases bindOk with
      | false => simp [Socket.bind, Socket.createTCP]
      | true =>
          have hlisten : listenOk = false := by
            rw [← Bool.not_eq_true]
            exact fun hlisten => h ⟨rfl, rfl, hlisten⟩
          simp [Socket.bind, Socket.createTCP, Socket.listen, hlisten]

/-- The loop reports the addresses that fail and keeps the sockets of the other ones. -/
theorem bindLoop_eq (isSsl : Bool) (addrs : List (Address × System)) (fails : List Address)
    (sockets : List Socket) :
    bindLoop isSsl addrs fails sockets =
      (fails ++ failed addrs, sockets ++ (addrs.filter fun p => Succeeds p).map (ready isSsl)) := by
  induction addrs generalizing fails sockets with
  | nil => simp [bindLoop, failed]
  | cons p rest ih =>
      by_cases h : Succeeds p
      · rw [bindLoop_cons_succeeds h, ih]
        simp [failed, h]
      · rw [bindLoop_cons_fails h, ih]
        simp [failed, h]

end Loop

theorem failed_eq_nil_iff {addrs : List (Address × System)} :
    failed addrs = [] ↔ ∀ p ∈ addrs, Succeeds p := by
  simp [failed, List.filter_eq_nil_iff]

theorem ready_listens {p : Address × System} (isSsl : Bool) (h : Succeeds p) :
    Listens isSsl p (ready isSsl p) :=
  ⟨rfl, h.1, rfl, rfl⟩

/-- Both functions are the one on a list. -/
theorem apply_eq (s : TCPServer) (c : Call) : c.apply s = s.bindAll c.addrs c.given c.isSsl := by
  cases c <;> rfl

/-- A call without a failure. -/
theorem apply_succeeds (s : TCPServer) {c : Call} (hgiven : c.given = [])
    (h : ∀ p ∈ c.addrs, Succeeds p) :
    c.apply s = (true, [], ⟨s.sockets ++ c.addrs.map (ready c.isSsl)⟩) := by
  have hfilter : (c.addrs.filter fun p => Succeeds p) = c.addrs :=
    List.filter_eq_self.mpr fun p hp => decide_eq_true (h p hp)
  rw [apply_eq, TCPServer.bindAll, bindLoop_eq, hgiven, failed_eq_nil_iff.mpr h, hfilter]
  rfl

/-- A call with a failure in front of it or of its own clears the vector. -/
theorem apply_fails (s : TCPServer) {c : Call} (h : c.given ++ failed c.addrs ≠ []) :
    c.apply s = (false, c.given ++ failed c.addrs, ⟨[]⟩) := by
  rw [apply_eq, TCPServer.bindAll, bindLoop_eq]
  exact if_pos h

/-- A call does what it is to do exactly under its condition. -/
theorem proper_iff_meets (s : TCPServer) (c : Call) : Proper s c ↔ Meets s c := by
  by_cases hfails : c.given ++ failed c.addrs = []
  · -- the call returns `true`
    obtain ⟨hgiven, hfailed⟩ := List.append_eq_nil_iff.mp hfails
    have hall := failed_eq_nil_iff.mp hfailed
    have happly := apply_succeeds s hgiven hall
    refine iff_of_true ⟨fun _ => ?_, fun hret => ?_, fun hret => ?_⟩ ⟨hgiven, .inl hall⟩
    · refine ⟨c.addrs.map (ready c.isSsl), by rw [next, happly], ?_⟩
      rw [List.forall₂_map_right_iff, List.forall₂_same]
      exact fun p hp => ready_listens c.isSsl (hall p hp)
    · rw [happly] at hret
      cases hret
    · rw [happly] at hret
      cases hret
  · have happly := apply_fails s hfails
    constructor
    · intro h
      have hret : (c.apply s).1 = false := by rw [happly]
      have hreported := h.reported hret
      have hunchanged := h.unchanged hret
      rw [next] at hunchanged
      rw [happly] at hreported hunchanged
      exact ⟨List.append_left_eq_self.mp hreported, .inr hunchanged.symm⟩
    · rintro ⟨hgiven, hall | hempty⟩
      · rw [hgiven, List.nil_append] at hfails
        exact absurd (failed_eq_nil_iff.mpr hall) hfails
      · refine ⟨fun hret => ?_, fun _ => ?_, fun _ => ?_⟩
        · rw [happly] at hret
          cases hret
        · rw [next, happly, hempty]
        · rw [happly, hgiven]
          rfl

/-! ## Sequences of calls -/

/-- The sockets that the calls which return `true` add. -/
def added (s : TCPServer) : List Call → List Socket
  | [] => []
  | c :: cs => (if (c.apply s).1 then c.addrs.map (ready c.isSsl) else []) ++ added (next s c) cs

/-- Calls that meet the condition lose no socket. -/
theorem sockets_foldl (calls : List Call) {s : TCPServer} (h : AllMeets next Meets s calls) :
    (calls.foldl next s).sockets = s.sockets ++ added s calls := by
  induction calls generalizing s with
  | nil => simp [added]
  | cons c cs ih =>
      have hproper := (proper_iff_meets s c).mpr h.1
      rw [List.foldl_cons, ih h.2, added, ← List.append_assoc]
      congr 1
      cases hret : (c.apply s).1 with
      | false => simpa using hproper.unchanged hret
      | true =>
          by_cases hfails : c.given ++ failed c.addrs = []
          · obtain ⟨hgiven, hfailed⟩ := List.append_eq_nil_iff.mp hfails
            rw [next, apply_succeeds s hgiven (failed_eq_nil_iff.mp hfailed)]
            rfl
          · rw [apply_fails s hfails] at hret
            cases hret

/-- In every sequence of calls on a server, all calls do what they are to do exactly if all meet
the condition, and then the server has the sockets of all calls that returned `true`. -/
theorem bind_iff (s : TCPServer) (calls : List Call) :
    (AllMeets next Proper s calls ↔ AllMeets next Meets s calls) ∧
      (AllMeets next Meets s calls →
        (calls.foldl next s).sockets = s.sockets ++ added s calls) :=
  ⟨allMeets_congr (fun _ => True) (fun s c _ => proper_iff_meets s c) (fun _ _ _ _ => trivial)
    calls trivial, sockets_foldl calls⟩

/-- A system that opens a socket, and one whose port is in use. -/
def opens : System := ⟨some 3, true, true⟩

def portInUse : System := ⟨some 4, false, true⟩

/-- An address is bound, and the second one fails: the socket of the first one is gone.  A list of
failures that is used again makes a call fail that binds all of its addresses. -/
theorem not_proper_bind :
    (¬AllMeets next Proper ⟨[]⟩ [.one ⟨2, 80⟩ opens false, .one ⟨2, 443⟩ portInUse true] ∧
      ([Call.one ⟨2, 80⟩ opens false, .one ⟨2, 443⟩ portInUse true].foldl next ⟨[]⟩).sockets = []) ∧
    ¬Proper ⟨[]⟩ (.all [(⟨2, 80⟩, opens)] [⟨2, 443⟩] false) ∧
      ((Call.all [(⟨2, 80⟩, opens)] [⟨2, 443⟩] false).apply ⟨[]⟩).1 = false := by
  refine ⟨⟨?_, by decide⟩, ?_, by decide⟩
  · rintro ⟨-, hsecond, -⟩
    obtain ⟨-, hall | hempty⟩ := (proper_iff_meets _ _).mp hsecond
    · exact absurd (hall _ List.mem_cons_self).2.1 (by decide)
    · exact absurd hempty (by decide)
  · intro h
    exact absurd ((proper_iff_meets _ _).mp h).1 (by decide)

end TcpServer
end Tiger
