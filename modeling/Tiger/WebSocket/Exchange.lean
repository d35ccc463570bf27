import Tiger.WebSocket.Rounds

/-!
# WebSocket - exchange of single messages

A message that one side sends in one frame is read back by the other side.
The senders treat a write of no bytes as a failure and put the 64-bit length
field out in host order, so the exchange works for messages of 1 to 65535
bytes.

Main results:

- Theorem `clientSend_spec` and `serverSend_spec`: what the senders put on the
  wire is a frame.
- Theorem `recvMessage_frame`: a single-frame message is read back.
- Theorem `exchange_iff`: the exact sizes for which both directions work.
-/

namespace Tiger
namespace WebSocket

open Lib SocketStream

/-! ## Writing buffers -/

/-- A write of the buffer succeeds: its size is positive as an `int`. -/
def Sendable (buf : List UInt8) : Prop := 0 < toInt32 buf.length

/-- A buffer below 2^31 bytes can be sent. -/
theorem sendable_of_lt {buf : List UInt8} (hpos : 0 < buf.length) (hlt : buf.length < 2 ^ 31) :
    Sendable buf := by
  rw [Sendable, toInt32_of_lt hlt]
  omega

/-- While sends succeed, all buffers go out. -/
theorem writeAllFixed_spec {s : SocketStream} (hconn : s.connected = true)
    (hsends : s.SendsSucceed) {bufs : List (List UInt8)} (hbufs : ∀ b ∈ bufs, Sendable b) :
    ∃ sends, writeAllFixed s bufs =
        (true, { s with sends := sends, sent := s.sent ++ bufs.flatten }) ∧
      ∀ e ∈ sends, ∃ n, e = .accept n := by
  induction bufs generalizing s with
  | nil => exact ⟨s.sends, by simp [writeAllFixed], hsends⟩
  | cons buf bufs ih =>
      rcases writeFixedSize_spec hconn hsends buf with ⟨sends, hrun, hgood⟩
      have hbuf : ¬ toInt32 buf.length ≤ 0 := Int.not_le.mpr (hbufs buf List.mem_cons_self)
      have hconn₁ : ({ s with sends := sends, sent := s.sent ++ buf } :
          SocketStream).connected = true := hconn
      rcases ih hconn₁ hgood (fun b hb => hbufs b (List.mem_cons_of_mem _ hb)) with
        ⟨sends', hrest, hgood'⟩
      refine ⟨sends', ?_, hgood'⟩
      rw [writeAllFixed, hrun]
      simp only [if_neg hbuf, hrest, List.flatten_cons, List.append_assoc]

/-- A buffer that cannot be sent stops the sender. -/
theorem writeAllFixed_fails {s : SocketStream} (hconn : s.connected = true)
    (hsends : s.SendsSucceed) {bufs : List (List UInt8)} (hbuf : ∃ b ∈ bufs, ¬ Sendable b) :
    (writeAllFixed s bufs).1 = false := by
  induction bufs generalizing s with
  | nil => simp at hbuf
  | cons buf bufs ih =>
      rcases writeFixedSize_spec hconn hsends buf with ⟨sends, hrun, hgood⟩
      rw [writeAllFixed, hrun]
      by_cases hfirst : toInt32 buf.length ≤ 0
      · simp only [if_pos hfirst]
      · simp only [if_neg hfirst]
        refine ih ?_ hgood ?_
        · exact hconn
        · rcases hbuf with ⟨b, hb, hbad⟩
          rcases List.mem_cons.mp hb with rfl | hb
          · exact absurd (Int.not_le.mp hfirst) hbad
          · exact ⟨b, hb, hbad⟩

/-! ## The frame of a message -/

/-- The encoding that the senders choose below 65536 bytes. -/
def formFor (size : Nat) : LengthForm := if size < 126 then .short else .medium

/-- The form of a length below 65536 fits it. -/
theorem formFor_fits {size : Nat} (h : size < 65536) : (formFor size).Fits size := by
  unfold formFor
  split
  next hshort => exact hshort
  next => exact h

/-- The frame of a message below 65536 bytes. -/
def messageFrame (op : Nat) (hop : op < 16) (mask : Option Mask) (data : List UInt8)
    (h : data.length < 65536) : Frame :=
  ⟨true, op, mask, formFor data.length, data, hop, formFor_fits h⟩

/-- The head of the frame is the one that is sent. -/
theorem messageFrame_head {op : Nat} (hop : op < 16) (mask : Option Mask) {data : List UInt8}
    (h : data.length < 65536) :
    (messageFrame op hop mask data h).head = sendHead ⟨op, data⟩ true mask.isSome := by
  have hopcode : ((op : Int) % 16).toNat = op := by omega
  have hfield : (formFor data.length).field data.length = payloadField data.length := by
    unfold formFor payloadField
    split
    next hshort => exact Nat.mod_eq_of_lt (by omega)
    next => simp only [LengthForm.field]
  simp only [Frame.head, messageFrame, sendHead, hopcode, hfield]

/-- The length of the frame is the one that is sent. -/
theorem messageFrame_ext {size : Nat} (h : size < 65536) :
    (lengthBuffers (payloadField size) size).flatten = (formFor size).ext size := by
  unfold lengthBuffers formFor payloadField
  by_cases hshort : size < 126
  · have hne : ¬ (size = 126 ∨ size = 127) := by omega
    simp only [if_pos hshort, if_neg hne]
    rfl
  · rw [if_neg hshort, if_neg hshort, if_pos h, if_pos (Or.inl rfl), List.flatten_singleton,
      sendLength, if_pos rfl, leBytes_bswapOnLittleEndian, Nat.mod_eq_of_lt (by omega)]
    rfl

/-! ## The senders -/

/-- The buffers that `WSSession::send_message` writes. -/
def serverBuffers (msg : WSFrameMessage) (fin : Bool) : List (List UInt8) :=
  [(sendHead msg fin false).toBytes] ++
    lengthBuffers (payloadField msg.data.length) msg.data.length ++ [msg.data]

/-- The buffers that `WSConnection::send_message` writes. -/
def clientBuffers (mask : Mask) (msg : WSFrameMessage) (fin : Bool) : List (List UInt8) :=
  [(sendHead msg fin true).toBytes] ++
    lengthBuffers (payloadField msg.data.length) msg.data.length ++
    [mask.bytes, maskFrom mask 0 msg.data]

/-- Buffers are written until one fails. -/
theorem writeAllFixed_append (s : SocketStream) (xs ys : List (List UInt8)) :
    writeAllFixed s (xs ++ ys) =
      if (writeAllFixed s xs).1 then writeAllFixed (writeAllFixed s xs).2 ys
      else (false, (writeAllFixed s xs).2) := by
  induction xs generalizing s with
  | nil => rfl
  | cons x xs ih =>
      simp only [List.cons_append, writeAllFixed]
      split
      · rfl
      · exact ih _

/-- The stream after a message of the client is the stream after its buffers. -/
theorem clientSend_stream (mask : Mask) (msg : WSFrameMessage) (fin : Bool) (s : SocketStream) :
    (WSConnection.sendMessage mask msg fin s).2.2 =
      (finishSend msg.data.length (writeAllFixed s (clientBuffers mask msg fin))).2 := by
  unfold WSConnection.sendMessage clientBuffers
  rw [writeAllFixed_append]
  simp only
  change (if _ then _ else _ : Int × WSFrameMessage × SocketStream).2.2 = _
  split
  next hfront =>
    have hhead : (sendHead msg fin true).payload = payloadField msg.data.length := rfl
    rw [hhead] at hfront ⊢
    rw [if_pos hfront]
  next hfront =>
    have hhead : (sendHead msg fin true).payload = payloadField msg.data.length := rfl
    rw [hhead] at hfront ⊢
    rw [if_neg hfront]
    rfl

/-- A sender whose buffers can all be sent keeps the connection. -/
theorem finishSend_spec {s : SocketStream} (hconn : s.connected = true) (hsends : s.SendsSucceed)
    {bufs : List (List UInt8)} (hbufs : ∀ b ∈ bufs, Sendable b) (size : Nat) :
    (finishSend size (writeAllFixed s bufs)).2.connected = true ∧
      (finishSend size (writeAllFixed s bufs)).2.sent = s.sent ++ bufs.flatten := by
  rcases writeAllFixed_spec hconn hsends hbufs with ⟨sends, hrun, _⟩
  rw [hrun]
  exact ⟨hconn, rfl⟩

/-- A sender with a buffer that cannot be sent closes the connection. -/
theorem finishSend_fails {s : SocketStream} (hconn : s.connected = true) (hsends : s.SendsSucceed)
    {bufs : List (List UInt8)} (hbuf : ∃ b ∈ bufs, ¬ Sendable b) (size : Nat) :
    (finishSend size (writeAllFixed s bufs)).2.connected = false := by
  rw [finishSend, writeAllFixed_fails hconn hsends hbuf]
  rfl

/-- The buffers of a length can be sent. -/
theorem lengthBuffers_sendable (payload size : Nat) :
    ∀ b ∈ lengthBuffers payload size, Sendable b := by
  intro b hb
  unfold lengthBuffers at hb
  split at hb
  next hform =>
    rw [List.mem_singleton] at hb
    rw [hb, sendLength]
    rcases hform with h | h
    · rw [if_pos h]
      exact sendable_of_lt (by simp) (by simp)
    · rw [h, if_neg (by decide), if_pos rfl]
      exact sendable_of_lt (by simp) (by simp)
  next => exact absurd hb List.not_mem_nil

theorem head_sendable (h : WSFrameHead) : Sendable h.toBytes :=
  sendable_of_lt (by simp) (by simp)

/-- What the server writes can be sent. -/
theorem serverBuffers_sendable (msg : WSFrameMessage) (h : Sendable msg.data) (fin : Bool) :
    ∀ b ∈ serverBuffers msg fin, Sendable b := by
  intro b hb
  simp only [serverBuffers, List.mem_append, List.mem_singleton] at hb
  rcases hb with (hb | hb) | hb
  · rw [hb]
    exact head_sendable _
  · exact lengthBuffers_sendable _ _ b hb
  · rw [hb]
    exact h

/-- What the client writes can be sent. -/
theorem clientBuffers_sendable (mask : Mask) (msg : WSFrameMessage) (h : Sendable msg.data)
    (fin : Bool) : ∀ b ∈ clientBuffers mask msg fin, Sendable b := by
  intro b hb
  simp only [clientBuffers, List.mem_append, List.mem_cons, List.not_mem_nil, or_false] at hb
  rcases hb with (hb | hb) | hb | hb
  · rw [hb]
    exact head_sendable _
  · exact lengthBuffers_sendable _ _ b hb
  · rw [hb]
    exact sendable_of_lt (by simp) (by simp)
  · rw [hb, Sendable, maskFrom_length]
    exact h

/-! ## Single frames -/

/-- A message in one frame below the limits is read back. -/
theorem recvMessage_frame {s : SocketStream} {f : Frame} {rest : List UInt8} {maxSize : UInt32}
    (requireMask : Bool) (hs : Ahead s (f.wire ++ rest)) (hfin : f.fin = true)
    (hop : f.opcode = WSFrameHead.TEXT_FRAME ∨ f.opcode = WSFrameHead.BIN_FRAME)
    (hmask : requireMask = true → f.mask.isSome = true)
    (hgo : ¬ Stops maxSize 0 f.payload.length) :
    ∃ s', recvMessage requireMask maxSize s = (.message ⟨f.opcode, f.payload⟩, s') ∧
      Ahead s' rest ∧ s'.consumed = s.consumed + f.wire.length := by
  have hgo' : ¬ Stops maxSize ([] : List UInt8).length f.payload.length := hgo
  rcases recvRound_data requireMask 0 hs (Or.inr hop) hmask hgo' with
    ⟨s', hround, hs', hadv, _⟩
  have hkeep : keepOpcode 0 f = f.opcode := by
    rw [keepOpcode, if_pos]
    refine ⟨rfl, ?_⟩
    rcases hop with h | h <;> rw [h] <;> decide
  refine ⟨s', ?_, hs', hadv.consumed_eq⟩
  rw [hfin, if_pos rfl, hkeep] at hround
  rw [recvMessage, Acc.init_eq, recvLoop, hround]
  rfl

/-- A length below `2 ^ 32` in host order reads as at least `2 ^ 32`. -/
theorem le_bswapOnLittleEndian {n : Nat} (hpos : 0 < n) (hlt : n < 2 ^ 32) :
    2 ^ 32 ≤ bswapOnLittleEndian 8 (ofLeBytes (leBytes 8 n)) := by
  rw [ofLeBytes_leBytes, Nat.mod_eq_of_lt (by omega)]
  simp only [bswapOnLittleEndian, byteswap, leBytes, ofLeBytes, List.reverse_cons,
    List.reverse_nil, List.nil_append, List.cons_append, UInt8.toNat_ofNat']
  omega

/-- A 64-bit length in host order is read as too large. -/
theorem recvMessage_hostLength {s : SocketStream} {h : WSFrameHead} {n : Nat} {rest : List UInt8}
    (requireMask : Bool) (maxSize : UInt32) (hs : Ahead s (h.toBytes ++ (leBytes 8 n ++ rest)))
    (hop : h.opcode = WSFrameHead.TEXT_FRAME ∨ h.opcode = WSFrameHead.BIN_FRAME)
    (hfield : h.payload = 127) (hpos : 0 < n) (hlt : n < 2 ^ 32) :
    (recvMessage requireMask maxSize s).1 = .null := by
  rcases recvRound_toBytes requireMask maxSize Acc.init hs with ⟨s₁, hround, hs₁, _, _⟩
  rcases readFixedSize_ahead (leBytes 8 n) hs₁ (by simp) with ⟨s₂, hread, _, _⟩
  rw [leBytes_length] at hread
  have hbig := le_bswapOnLittleEndian hpos hlt
  have hvalue : bswapOnLittleEndian 8 (ofLeBytes (leBytes 8 n)) < 2 ^ 64 := by
    have h := ofLeBytes_lt (leBytes 8 (ofLeBytes (leBytes 8 n))).reverse
    rwa [List.length_reverse, leBytes_length] at h
  have hlength : recvLength h s₁ =
      (some (bswapOnLittleEndian 8 (ofLeBytes (leBytes 8 n))), s₂) := by
    rw [recvLength, if_neg (by omega), if_pos hfield]
    simp only [hread]
    rfl
  have hleave : ∃ s', recvFrame requireMask maxSize h Acc.init s₁ = .leave s' := by
    have hdata : ∃ s', recvData maxSize h Acc.init s₁ = .leave s' := by
      refine ⟨s₂, ?_⟩
      have hmax := maxSize.toNat_lt
      have htotal : (toSizeT Acc.init.curLen +
          bswapOnLittleEndian 8 (ofLeBytes (leBytes 8 n))) % 2 ^ 64 ≥ maxSize.toNat := by
        change (0 + _) % 2 ^ 64 ≥ _
        rw [Nat.zero_add, Nat.mod_eq_of_lt hvalue]
        omega
      rw [recvData, hlength]
      simp only [if_pos htotal]
    rw [recvFrame_data (Or.inr hop)]
    split
    · exact ⟨s₁, rfl⟩
    · exact hdata
  rcases hleave with ⟨s', hleave⟩
  rw [recvMessage, recvLoop, hround, hleave]

/-! ## Both directions -/

/-- What a connection sends to its peer arrives: after a write that leaves the
sender's connection `c'` open, the new bytes are read back as the message, and
the reader is right behind them, however the bytes are cut. -/
def Delivers (recv : SocketStream → Recvd × SocketStream) (c c' : SocketStream)
    (msg : WSFrameMessage) : Prop :=
  c'.connected = true ∧ ∃ bytes, c'.sent = c.sent ++ bytes ∧
    ∀ s rest, Ahead s (bytes ++ rest) →
      ∃ s', recv s = (.message msg, s') ∧ Ahead s' rest ∧
        s'.consumed = s.consumed + bytes.length

/-- A message of the client reaches the server, and one of the server the
client. -/
def Exchanges (maxSize : UInt32) (op : Nat) (mask : Mask) (data : List UInt8) : Prop :=
  ∀ c : SocketStream, c.connected = true → c.SendsSucceed →
    Delivers (WSSession.recvMessage maxSize) c
      (WSConnection.sendMessage mask ⟨op, data⟩ true c).2.2 ⟨op, data⟩ ∧
    Delivers (WSConnection.recvMessage maxSize) c
      (WSSession.sendMessage ⟨op, data⟩ true c).2 ⟨op, data⟩

section Exchange

variable {maxSize : UInt32} {op : Nat} {data : List UInt8}

/-- The client writes a masked frame. -/
theorem clientBuffers_flatten (hop : op < 16) (mask : Mask) (h : data.length < 65536) :
    (clientBuffers mask ⟨op, data⟩ true).flatten =
      (messageFrame op hop (some mask) data h).wire := by
  simp only [clientBuffers, List.flatten_append, messageFrame_ext h, Frame.wire, Frame.tail,
    messageFrame_head hop (some mask) h, List.flatten_cons, List.flatten_nil, List.append_nil,
    List.append_assoc]
  rfl

/-- The server writes a plain one. -/
theorem serverBuffers_flatten (hop : op < 16) (h : data.length < 65536) :
    (serverBuffers ⟨op, data⟩ true).flatten = (messageFrame op hop none data h).wire := by
  simp only [serverBuffers, List.flatten_append, messageFrame_ext h, Frame.wire, Frame.tail,
    messageFrame_head hop none h, List.flatten_cons, List.flatten_nil, List.append_nil,
    List.append_assoc]
  rfl

/-- Messages of 1 to 65535 bytes are exchanged. -/
theorem exchanges_of_lt (hop : op = WSFrameHead.TEXT_FRAME ∨ op = WSFrameHead.BIN_FRAME)
    (mask : Mask) (hmax : data.length < maxSize.toNat) (hpos : 0 < data.length)
    (hlt : data.length < 65536) : Exchanges maxSize op mask data := by
  intro c hconn hsends
  have hop16 : op < 16 := by rcases hop with rfl | rfl <;> decide
  have hsend : Sendable data := sendable_of_lt hpos (by omega)
  have hgo : ¬ Stops maxSize 0 data.length := by
    simp only [Stops, not_or]
    omega
  constructor
  · rcases finishSend_spec hconn hsends
      (clientBuffers_sendable mask ⟨op, data⟩ hsend true) data.length with ⟨hc, hs⟩
    rw [clientSend_stream]
    refine ⟨hc, _, hs, ?_⟩
    intro s rest hahead
    rw [clientBuffers_flatten hop16 mask hlt] at hahead ⊢
    exact recvMessage_frame true hahead rfl hop (fun _ => rfl) hgo
  · rcases finishSend_spec hconn hsends
      (serverBuffers_sendable ⟨op, data⟩ hsend true) data.length with ⟨hc, hs⟩
    refine ⟨hc, _, hs, ?_⟩
    intro s rest hahead
    rw [serverBuffers_flatten hop16 hlt] at hahead ⊢
    exact recvMessage_frame false hahead rfl hop (fun h => absurd h (by decide)) hgo

/-- The client closes its connection on data that cannot be sent. -/
theorem clientSend_fails (op : Nat) {c : SocketStream} (hconn : c.connected = true)
    (hsends : c.SendsSucceed)
    (mask : Mask) (hbad : ¬ Sendable data) :
    (WSConnection.sendMessage mask ⟨op, data⟩ true c).2.2.connected = false := by
  rw [clientSend_stream]
  refine finishSend_fails hconn hsends ⟨maskFrom mask 0 data, ?_, ?_⟩ _
  · simp [clientBuffers]
  · rw [Sendable, maskFrom_length]
    exact hbad

/-- A longer length is written in the order of the host. -/
theorem clientBuffers_flatten_long (mask : Mask) (h : 65536 ≤ data.length) :
    (clientBuffers mask ⟨op, data⟩ true).flatten =
      (sendHead ⟨op, data⟩ true true).toBytes ++
        (leBytes 8 data.length ++ (mask.bytes ++ maskFrom mask 0 data)) := by
  have hfield : payloadField data.length = 127 := by
    rw [payloadField, if_neg (by omega), if_neg (by omega)]
  have hlength : lengthBuffers (payloadField data.length) data.length =
      [leBytes 8 data.length] := by
    rw [hfield]
    rfl
  simp [clientBuffers, hlength]

/-- Longer messages and empty ones are not exchanged: already the message of the
client is lost. -/
theorem not_exchanges (hop : op = WSFrameHead.TEXT_FRAME ∨ op = WSFrameHead.BIN_FRAME)
    (mask : Mask) (hmax : data.length < maxSize.toNat)
    (hbad : ¬ (0 < data.length ∧ data.length < 65536)) : ¬ Exchanges maxSize op mask data := by
  intro hgood
  have hmax32 := maxSize.toNat_lt
  have hsends := wholeStream_sendsSucceed []
  have hclient := (hgood (wholeStream []) rfl hsends).1
  by_cases hsend : Sendable data
  · have hlong : 65536 ≤ data.length := by
      by_contra hlt
      have hnil : data.length = 0 := by omega
      rw [Sendable, hnil] at hsend
      exact absurd hsend (by decide)
    rcases finishSend_spec rfl hsends (clientBuffers_sendable mask ⟨op, data⟩ hsend true)
      data.length with ⟨_, hsent⟩
    rw [clientSend_stream] at hclient
    rcases hclient with ⟨_, bytes, hbytes, hrecv⟩
    simp only at hbytes
    rw [hsent] at hbytes
    have hwire := (List.append_cancel_left hbytes).symm
    rw [clientBuffers_flatten_long mask hlong] at hwire
    subst hwire
    have hne : (sendHead ⟨op, data⟩ true true).toBytes ++
        (leBytes 8 data.length ++ (mask.bytes ++ maskFrom mask 0 data)) ≠ [] := by
      exact List.append_ne_nil_of_left_ne_nil (List.ne_nil_of_length_pos (by simp)) _
    have hahead := wholeStream_ahead hne
    rcases hrecv _ _ hahead with ⟨s', hrun, _⟩
    rw [List.append_assoc, List.append_assoc] at hahead
    have hfield : (sendHead ⟨op, data⟩ true true).payload = 127 := by
      change payloadField data.length = 127
      rw [payloadField, if_neg (by omega), if_neg (by omega)]
    have hhead : (sendHead ⟨op, data⟩ true true).opcode = WSFrameHead.TEXT_FRAME ∨
        (sendHead ⟨op, data⟩ true true).opcode = WSFrameHead.BIN_FRAME := by
      rcases hop with rfl | rfl
      · exact Or.inl rfl
      · exact Or.inr rfl
    have hnull := recvMessage_hostLength true maxSize hahead hhead hfield (by omega) (by omega)
    rw [WSSession.recvMessage] at hrun
    rw [hrun] at hnull
    exact absurd hnull (by simp)
  · have hclosed := clientSend_fails op rfl hsends mask hsend
    rw [hclient.1] at hclosed
    exact absurd hclosed (by simp)

/-- Below the configured maximum, exactly the messages of 1 to 65535 bytes are
exchanged in both directions. -/
theorem exchange_iff (hop : op = WSFrameHead.TEXT_FRAME ∨ op = WSFrameHead.BIN_FRAME)
    (mask : Mask) (hmax : data.length < maxSize.toNat) :
    Exchanges maxSize op mask data ↔ 0 < data.length ∧ data.length < 65536 := by
  constructor
  · intro hgood
    by_contra hbad
    exact not_exchanges hop mask hmax hbad hgood
  · intro h
    exact exchanges_of_lt hop mask hmax h.1 h.2

/-- A text of two bytes is exchanged. -/
theorem exchange_two : Exchanges 1024 WSFrameHead.TEXT_FRAME ⟨1, 2, 3, 4⟩ [104, 105] :=
  (exchange_iff (Or.inl rfl) _ (by decide)).mpr ⟨by decide, by decide⟩

/-- The empty text is below every maximum and is not exchanged. -/
theorem exchange_fails :
    ([] : List UInt8).length < (1024 : UInt32).toNat ∧
      ¬ Exchanges 1024 WSFrameHead.TEXT_FRAME ⟨1, 2, 3, 4⟩ [] := by
  have hmax : ([] : List UInt8).length < (1024 : UInt32).toNat := by decide
  exact ⟨hmax, not_exchanges (Or.inl rfl) _ hmax (fun h => absurd h.1 (by decide))⟩

end Exchange

end WebSocket
end Tiger
