import Tiger.WebSocket.Frame

/-!
# WebSocket - sending and receiving messages

This module embeds `recv_message`, `send_message`, `ping` and `pong` of
`WSSession` (`src/servers/http/ws_session.cc`, the server side) and of
`WSConnection` (`src/servers/http/ws_connection.cc`, the client side).  The two
receivers differ only in that the server refuses data frames without a mask;
the two senders differ in that the client masks the data in place.

`maxSize` is the configured `tiger.websocket.msgMaxSize`, a `uint32_t`.
`cur_len` is an `int` and `length` a `uint64_t`; their sums wrap as in the
source.  A store or an index outside of `data`, or an overflow of the `int`
index, is the outcome `fault`.  The receive loop takes a bound on its rounds;
`recvMessage_ne_outOfFuel` shows that the bound it is started with is never
reached.
-/

namespace Tiger
namespace WebSocket

open Lib

/-! ## Control frames -/

/-- A head with `fin` and an opcode, all other bits zero. -/
def controlHead (opcode : Nat) (h : opcode < 16) : WSFrameHead :=
  ⟨opcode, false, false, false, true, 0, false, h, by decide⟩

/-- `ping()` -/
def ping (s : SocketStream) : Int × SocketStream :=
  let r := s.writeFixedSize (controlHead WSFrameHead.PING WSFrameHead.PING_lt).toBytes
  if r.1 < 0 then (r.1, r.2.close) else r

/-- `pong()` -/
def pong (s : SocketStream) : Int × SocketStream :=
  let r := s.writeFixedSize (controlHead WSFrameHead.PONG WSFrameHead.PONG_lt).toBytes
  if r.1 ≤ 0 then (r.1, r.2.close) else r

/-! ## Receiving -/

/-- The variables of `recv_message` that live across rounds of its loop. -/
structure Acc where
  opcode : Int
  data : List UInt8
  curLen : Int
deriving DecidableEq

/-- The initial values of `opcode`, `data` and `cur_len`. -/
def Acc.init : Acc := ⟨0, [], 0⟩

/-- How a round of the receive loop ends. -/
inductive Turn
  /-- the loop goes on -/
  | again (acc : Acc) (s : SocketStream)
  /-- `break` -/
  | leave (s : SocketStream)
  /-- `return` of a message -/
  | done (msg : WSFrameMessage) (s : SocketStream)
  /-- undefined behaviour -/
  | fault (s : SocketStream)
deriving DecidableEq

/-- The extended length field; `none` when it cannot be read. -/
def recvLength (head : WSFrameHead) (s : SocketStream) : Option Nat × SocketStream :=
  if head.payload = 126 then
    let r := s.readFixedSize 2
    if r.1 ≤ 0 then (none, r.2.2)
    else (some (bswapOnLittleEndian 2 (ofLeBytes r.2.1)), r.2.2)
  else if head.payload = 127 then
    let r := s.readFixedSize 8
    if r.1 ≤ 0 then (none, r.2.2)
    else (some (bswapOnLittleEndian 8 (ofLeBytes r.2.1)), r.2.2)
  else (some head.payload, s)

/-- `data.resize(n)` -/
def resize (data : List UInt8) (n : Nat) : List UInt8 :=
  data.take n ++ List.replicate (n - data.length) 0

/-- A transfer of `bytes` to `&data[off]`; `none` when it leaves `data`. -/
def storeAt (data : List UInt8) (off : Nat) (bytes : List UInt8) : Option (List UInt8) :=
  if bytes = [] then some data
  else if off + bytes.length ≤ data.length then
    some (data.take off ++ bytes ++ data.drop (off + bytes.length))
  else none

/-- `for (int i = 0; i < n; ++i) data[cur_len + i] ^= mask[i % 4]`; `none` when
the `int` sum overflows or the index leaves `data`. -/
def unmask (m : Mask) (data : List UInt8) (curLen n : Int) : Option (List UInt8) :=
  if n ≤ 0 then some data
  else if curLen < 0 ∨ 2 ^ 31 < curLen + n ∨ data.length < curLen + n then none
  else
    some (data.take curLen.toNat ++ maskFrom m 0 ((data.drop curLen.toNat).take n.toNat) ++
      data.drop (curLen.toNat + n.toNat))

/-- The branch of `recv_message` for data frames, after the mask bit was
accepted. -/
def recvData (maxSize : UInt32) (head : WSFrameHead) (acc : Acc) (s : SocketStream) : Turn :=
  match recvLength head s with
  | (none, s) => .leave s
  | (some length, s) =>
      let total := (toSizeT acc.curLen + length) % 2 ^ 64
      if total ≥ maxSize.toNat then .leave s
      else
        let rm := if head.mask then s.readFixedSize 4 else (1, [], s)
        if rm.1 ≤ 0 then .leave rm.2.2
        else
          let mask := Mask.ofBytes rm.2.1
          let data := resize acc.data total
          let r := rm.2.2.readFixedSize length
          match storeAt data (toSizeT acc.curLen) r.2.1 with
          | none => .fault r.2.2
          | some data =>
              if r.1 ≤ 0 then .leave r.2.2
              else
                match (if head.mask then unmask mask data acc.curLen (toInt32 length)
                    else some data) with
                | none => .fault r.2.2
                | some data =>
                    let curLen := toInt32 (acc.curLen + length)
                    let opcode : Int :=
                      if acc.opcode = 0 ∧ head.opcode ≠ WSFrameHead.CONTINUE then head.opcode
                      else acc.opcode
                    if head.fin then .done ⟨opcode, data⟩ r.2.2
                    else .again ⟨opcode, data, curLen⟩ r.2.2

/-- One round of `recv_message` behind its head.  `requireMask` holds on the
server side. -/
def recvFrame (requireMask : Bool) (maxSize : UInt32) (head : WSFrameHead) (acc : Acc)
    (s : SocketStream) : Turn :=
  if head.opcode = WSFrameHead.PING then
    let r := pong s
    if r.1 ≤ 0 then .leave r.2 else .again acc r.2
  else if head.opcode = WSFrameHead.PONG then .again acc s
  else if head.opcode = WSFrameHead.CONTINUE ∨ head.opcode = WSFrameHead.TEXT_FRAME ∨
      head.opcode = WSFrameHead.BIN_FRAME then
    if requireMask && !head.mask then .leave s
    else recvData maxSize head acc s
  else if head.opcode = WSFrameHead.CLOSE then .leave s
  else .again acc s

/-- One round of the loop of `recv_message`. -/
def recvRound (requireMask : Bool) (maxSize : UInt32) (acc : Acc) (s : SocketStream) : Turn :=
  let r := s.readFixedSize 2
  if r.1 ≤ 0 then .leave r.2.2
  else
    recvFrame requireMask maxSize (WSFrameHead.ofBytes (r.2.1.getD 0 0) (r.2.1.getD 1 0)) acc r.2.2

/-- What `recv_message` returns. -/
inductive Recvd
  | message (msg : WSFrameMessage)
  | null
  | fault
  | outOfFuel
deriving DecidableEq

/-- The `do { ... } while (true)` loop, for at most `fuel` rounds. -/
def recvLoop (requireMask : Bool) (maxSize : UInt32) :
    Nat → Acc → SocketStream → Recvd × SocketStream
  | 0, _, s => (.outOfFuel, s)
  | fuel + 1, acc, s =>
      match recvRound requireMask maxSize acc s with
      | .again acc s => recvLoop requireMask maxSize fuel acc s
      | .leave s => (.null, s.close)
      | .done msg s => (.message msg, s)
      | .fault s => (.fault, s)

/-- `recv_message()` -/
def recvMessage (requireMask : Bool) (maxSize : UInt32) (s : SocketStream) :
    Recvd × SocketStream :=
  recvLoop requireMask maxSize (s.pending + 1) Acc.init s

/-- `WSSession::recv_message()` -/
def WSSession.recvMessage (maxSize : UInt32) (s : SocketStream) : Recvd × SocketStream :=
  WebSocket.recvMessage true maxSize s

/-- `WSConnection::recv_message()` -/
def WSConnection.recvMessage (maxSize : UInt32) (s : SocketStream) : Recvd × SocketStream :=
  WebSocket.recvMessage false maxSize s

/-! ## Sending -/

/-- The payload field of a head for `size` bytes of data. -/
def payloadField (size : Nat) : Nat :=
  if size < 126 then size else if size < 65536 then 126 else 127

theorem payloadField_lt (size : Nat) : payloadField size < 128 := by
  unfold payloadField
  split_ifs <;> omega

/-- The head that both senders write. -/
def sendHead (msg : WSFrameMessage) (fin masked : Bool) : WSFrameHead where
  opcode := (msg.opcode % 16).toNat
  rsv3 := false
  rsv2 := false
  rsv1 := false
  fin := fin
  payload := payloadField msg.data.length
  mask := masked
  opcode_lt := by omega
  payload_lt := payloadField_lt _

/-- The extended length field that both senders write: the 16-bit one is
swapped, the 64-bit one is not. -/
def sendLength (payload size : Nat) : List UInt8 :=
  if payload = 126 then leBytes 2 (bswapOnLittleEndian 2 (size % 2 ^ 16))
  else if payload = 127 then leBytes 8 (bswapOnBigEndian size)
  else []

/-- Write the buffers one after the other until one write is not positive. -/
def writeAllFixed (s : SocketStream) : List (List UInt8) → Bool × SocketStream
  | [] => (true, s)
  | buf :: bufs =>
      let r := s.writeFixedSize buf
      if r.1 ≤ 0 then (false, r.2) else writeAllFixed r.2 bufs

/-- The length field is written only in two of the three forms. -/
def lengthBuffers (payload size : Nat) : List (List UInt8) :=
  if payload = 126 ∨ payload = 127 then [sendLength payload size] else []

/-- The common end of both senders. -/
def finishSend (size : Nat) (r : Bool × SocketStream) : Int × SocketStream :=
  if r.1 then (toInt32 (size + 2), r.2) else (-1, r.2.close)

/-- `WSSession::send_message(msg, fin)` -/
def WSSession.sendMessage (msg : WSFrameMessage) (fin : Bool) (s : SocketStream) :
    Int × SocketStream :=
  let head := sendHead msg fin false
  let size := msg.data.length
  finishSend size
    (writeAllFixed s ([head.toBytes] ++ lengthBuffers head.payload size ++ [msg.data]))

/-- `WSConnection::send_message(msg, fin)`, with the mask that `rand()` chose.
The data is masked in place once the head and the length are out, so the
message is returned too. -/
def WSConnection.sendMessage (mask : Mask) (msg : WSFrameMessage) (fin : Bool)
    (s : SocketStream) : Int × WSFrameMessage × SocketStream :=
  let head := sendHead msg fin true
  let size := msg.data.length
  let front := writeAllFixed s ([head.toBytes] ++ lengthBuffers head.payload size)
  if front.1 then
    let msg := { msg with data := maskFrom mask 0 msg.data }
    let r := finishSend size (writeAllFixed front.2 [mask.bytes, msg.data])
    (r.1, msg, r.2)
  else (-1, msg, front.2.close)

end WebSocket
end Tiger
