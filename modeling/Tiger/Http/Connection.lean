import Tiger.Http.ResponseParser
import Tiger.Http.Session

/-!
# HTTP - receiving a response

This module embeds `HTTPConnection::recv_response`
(`src/servers/http/http_connection.cc`): the header loop, the three nested loops
for chunks, the body of a known length, and the decoding of the body.  The loops
take a bound on their rounds.
-/

namespace Tiger
namespace Http

open HTTPResponseParser

/-- `data[len] = '\0'` -/
def terminate (m : Memory) (len : Nat) : Memory := fun i => if i = len then 0 else m i

/-- What a loop hands on: the parser, the buffer with `len` bytes, the stream. -/
structure Buffered where
  ps : HTTPResponseParser
  m : Memory
  len : Nat
  s : SocketStream

/-- `read(data + len, buffer_size - len)`; a result that is not positive ends the
receiver. -/
def refill (bufferSize : Nat) (b : Buffered) : Except Failure Buffered :=
  let r := b.s.read (bufferSize - b.len)
  if r.1 ≤ 0 then .error (.null r.2.2.close)
  else .ok { b with m := store b.m b.len r.2.1, len := b.len + r.1.toNat, s := r.2.2 }

/-- A call of the parser on the buffer, with the tests behind it. -/
def parse (bufferSize : Nat) (chunck : Bool) (b : Buffered) : Except Failure Buffered :=
  match execute (terminate b.m b.len) b.len chunck b.ps with
  | .error e => .error e
  | .ok (nparse, ps, m) =>
      if ps.hasError then .error (.null b.s.close)
      else if ((b.len - nparse : Nat) : Int) = toInt32 bufferSize then .error (.null b.s.close)
      else .ok { b with ps := ps, m := m, len := b.len - nparse }

/-- The header loop. -/
def recvResponseHeader (bufferSize : Nat) : Nat → Buffered → Except Failure Buffered
  | 0, _ => .error .outOfFuel
  | fuel + 1, b =>
      match refill bufferSize b with
      | .error e => .error e
      | .ok b =>
          match parse bufferSize false b with
          | .error e => .error e
          | .ok b => if b.ps.isFinished then .ok b else recvResponseHeader bufferSize fuel b

/-! ## Chunks -/

/-- The loop for a size line; `more` is `!begin`. -/
def recvChunkSize (bufferSize : Nat) : Nat → Bool → Buffered → Except Failure Buffered
  | 0, _, _ => .error .outOfFuel
  | fuel + 1, more, b =>
      match if more || b.len == 0 then refill bufferSize b else .ok b with
      | .error e => .error e
      | .ok b =>
          match parse bufferSize true b with
          | .error e => .error e
          | .ok b =>
              if b.ps.isFinished then .ok b else recvChunkSize bufferSize fuel true b

/-- The loop for the rest of a chunk: the body, the buffer and the stream. -/
def recvLeft (bufferSize : Nat) :
    Nat → Int → Text → Memory → SocketStream → Except Failure (Text × Memory × SocketStream)
  | 0, _, _, _, _ => .error .outOfFuel
  | fuel + 1, left, body, m, s =>
      if left ≤ 0 then .ok (body, m, s)
      else
        let r := s.read (toSizeT (if left > toInt32 bufferSize then toInt32 bufferSize else left))
        if r.1 < 0 then .error (.null r.2.2.close)
        else recvLeft bufferSize fuel (left - r.1) (body ++ r.2.1) (store m 0 r.2.1) r.2.2

/-- The data of a chunk and the line end behind it. -/
def recvChunkData (bufferSize fuel : Nat) (b : Buffered) (body : Text) :
    Except Failure (Buffered × Text) :=
  let size := b.ps.contentLen
  if toInt32 (size + 2) ≤ b.len then
    if size < 0 then .error .threw
    else if b.len < size + 2 then .error .wild
    else .ok ({ b with m := memmove b.m (size.toNat + 2) (b.len - (size.toNat + 2)),
                       len := b.len - (size.toNat + 2) }, body ++ slice b.m 0 size.toNat)
  else
    match recvLeft bufferSize fuel (size - b.len + 2) (body ++ slice b.m 0 b.len) b.m b.s with
    | .error e => .error e
    | .ok (body, m, s) =>
        if body.length < 2 then .error .threw
        else .ok ({ b with m := m, len := 0, s := s }, body.take (body.length - 2))

/-- The loop over the chunks. -/
def recvChunks (bufferSize : Nat) : Nat → Buffered → Text → Except Failure (Buffered × Text)
  | 0, _, _ => .error .outOfFuel
  | fuel + 1, b, body =>
      match recvChunkSize bufferSize (fuel + 1) false b with
      | .error e => .error e
      | .ok b =>
          match recvChunkData bufferSize (fuel + 1) b body with
          | .error e => .error e
          | .ok (b, body) =>
              if b.ps.chunksDone then .ok (b, body) else recvChunks bufferSize fuel b body

/-! ## The response -/

/-- A body of a known length. -/
def recvKnownLength (env : ClientEnv) (b : Buffered) : Except Failure (Buffered × Text) :=
  let length := toInt64 (b.ps.getContentLength env)
  if length ≤ 0 then .ok (b, [])
  -- `body.resize(length)`
  else if 2 ^ 62 ≤ length then .error .threw
  else if length ≤ b.len then .ok (b, slice b.m 0 length.toNat)
  else
    let r := b.s.readFixedSize (length - b.len).toNat
    if r.1 ≤ 0 then .error (.null r.2.2.close)
    else .ok ({ b with s := r.2.2 }, slice b.m 0 b.len ++ r.2.1)

/-- `set_body`, behind the decoding. -/
def decodeBody (env : ClientEnv) (r : HTTPResponse) (body : Text) : HTTPResponse :=
  if body.isEmpty then r
  else
    let encoding := (r.headers.find (text ['c', 'o', 'n', 't', 'e', 'n', 't', '-', 'e', 'n', 'c',
      'o', 'd', 'i', 'n', 'g'])).getD []
    if caseKey encoding = caseKey (text ['g', 'z', 'i', 'p']) then
      { r with body := env.gunzip body }
    else if caseKey encoding = caseKey (text ['d', 'e', 'f', 'l', 'a', 't', 'e']) then
      { r with body := env.inflate body }
    else { r with body := body }

/-- `HTTPConnection::recv_response()`, with `fuel` rounds for its loops. -/
def recvResponse (env : ClientEnv) (bufferSize fuel : Nat) (s : SocketStream) :
    Except Failure (HTTPResponse × SocketStream) :=
  match recvResponseHeader bufferSize fuel ⟨HTTPResponseParser.init, env.memory, 0, s⟩ with
  | .error e => .error e
  | .ok b =>
      match if b.ps.chunked then recvChunks bufferSize fuel b [] else recvKnownLength env b with
      | .error e => .error e
      | .ok (b, body) => .ok (decodeBody env b.ps.data body, b.s)

end Http
end Tiger
