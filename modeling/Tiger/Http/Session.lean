import Tiger.Http.RequestParser

/-!
# HTTP - receiving a request

This module embeds `HTTPSession::recv_request` (`src/servers/http/http_session.cc`).
The header loop takes a bound on its rounds; a call that goes on for ever is one
that uses up every bound.  `body.resize` throws for a length that no string has;
memory for any other body is taken to be there.
-/

namespace Tiger
namespace Http

open HTTPRequestParser

/-- How the header loop ends. -/
inductive HeaderPhase
  /-- `break`, with `offset` bytes behind the header at the start of the buffer -/
  | finished (ps : HTTPRequestParser) (m : Memory) (offset : Nat) (s : SocketStream)
  /-- `return nullptr` -/
  | null (s : SocketStream)
  | abort
  | threw
  | outOfFuel

/-- The header loop of `recv_request`, for at most `fuel` rounds. -/
def recvHeader (bufferSize : Nat) :
    Nat → HTTPRequestParser → Memory → Nat → SocketStream → HeaderPhase
  | 0, _, _, _, _ => .outOfFuel
  | fuel + 1, ps, m, offset, s =>
      let r := s.read (bufferSize - offset)
      if r.1 < 0 then .null r.2.2.close
      else
        let m := store m offset r.2.1
        let length := r.1.toNat + offset
        match executeMachine m length ps with
        | .abort => .abort
        | .threw => .threw
        | .ok nparse ps =>
            let m := memmove m nparse (length - nparse)
            if ps.hasError then .null r.2.2.close
            else if ((length - nparse : Nat) : Int) = toInt32 bufferSize then .null r.2.2.close
            else if ps.isFinished then .finished ps m (length - nparse) r.2.2
            else recvHeader bufferSize fuel ps m (length - nparse) r.2.2

/-- What `recv_request` returns, or why it does not. -/
inductive Received
  | request (r : HTTPRequest)
  | null
  | abort
  | threw
  | outOfFuel
deriving DecidableEq

/-- The body and the end of `recv_request`; `length` is the content length as an
`int64_t`. -/
def recvBody (length : Int) (ps : HTTPRequestParser) (m : Memory) (offset : Nat)
    (s : SocketStream) : Received × SocketStream :=
  if length ≤ 0 then (.request ps.data.init, s)
  -- `body.resize(length)`
  else if 2 ^ 62 ≤ length then (.threw, s)
  else if length ≤ offset then
    (.request { ps.data with body := slice m 0 length.toNat }.init, s)
  else
    let r := s.readFixedSize (length - offset).toNat
    if r.1 ≤ 0 then (.null, r.2.2.close)
    else (.request { ps.data with body := slice m 0 offset ++ r.2.1 }.init, r.2.2)

/-- Conversion of a `uint64_t` to `int64_t`. -/
@[irreducible] def toInt64 (v : UInt64) : Int := (v.toNat : Int).bmod (2 ^ 64)

/-- `HTTPSession::recv_request()`, with `fuel` rounds for its header loop. -/
def recvRequest (env : Env) (bufferSize fuel : Nat) (s : SocketStream) : Received × SocketStream :=
  match recvHeader bufferSize fuel (HTTPRequestParser.init env) env.memory 0 s with
  | .null s => (.null, s)
  | .abort => (.abort, s)
  | .threw => (.threw, s)
  | .outOfFuel => (.outOfFuel, s)
  | .finished ps m offset s => recvBody (toInt64 (ps.getContentLength env)) ps m offset s

end Http
end Tiger
