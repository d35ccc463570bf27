import Tiger.WebSocket.Exchange

/-!
# WebSocket - sending a message again

`WSConnection::send_message` (`src/servers/http/ws_connection.cc`) masks the data of the message
that it is given, and does not undo that.  A message that is sent once more then goes out with
the masks of all the sends before it.

Main results:

- Theorem `Send.message_eq_self_iff`: the sends that leave the message alone.
- Theorem `resend_receives`: what the peer receives.
- Theorem `resends_iff`: the runs of sends that leave the message alone, and those in which the
  peer receives it each time.
-/

namespace Tiger
namespace WebSocket

open Lib SocketStream

/-! ## Masks that change nothing -/

/-- No byte of the data meets a byte of the mask that is not zero. -/
def Leaves (mask : Mask) (data : List UInt8) : Prop := ∀ i < data.length, mask.get i = 0

instance (mask : Mask) (data : List UInt8) : Decidable (Leaves mask data) :=
  inferInstanceAs (Decidable (∀ i < data.length, mask.get i = 0))

/-- Masking changes nothing when every byte of the mask in use is zero. -/
theorem maskFrom_eq_self_iff (mask : Mask) (i : Nat) (data : List UInt8) :
    maskFrom mask i data = data ↔ ∀ j < data.length, mask.get (i + j) = 0 := by
  induction data generalizing i with
  | nil => simp [maskFrom]
  | cons b data ih =>
      have hbyte : b ^^^ mask.get i = b ↔ mask.get i = 0 := by
        constructor
        · intro h
          have hxor := congrArg (b ^^^ ·) h
          simpa [← UInt8.xor_assoc] using hxor
        · intro h
          rw [h, UInt8.xor_zero]
      rw [maskFrom, List.cons.injEq, hbyte, ih]
      constructor
      · rintro ⟨hhead, htail⟩ j hj
        cases j with
        | zero => exact hhead
        | succ j =>
            have hj' := htail j (by simpa using hj)
            rwa [show i + 1 + j = i + (j + 1) by omega] at hj'
      · intro h
        refine ⟨h 0 (by simp), ?_⟩
        intro j hj
        rw [show i + 1 + j = i + (j + 1) by omega]
        exact h (j + 1) (by simpa using hj)

/-- Masking leaves the data alone if and only if the mask does. -/
theorem maskFrom_zero_eq_iff (mask : Mask) (data : List UInt8) :
    maskFrom mask 0 data = data ↔ Leaves mask data := by
  rw [maskFrom_eq_self_iff, Leaves]
  simp only [Nat.zero_add]

/-! ## Runs of sends -/

/-- One call of `send_message`: the mask that `rand()` chooses, `fin`, and the stream as the
call finds it. -/
structure Send where
  mask : Mask
  fin : Bool
  stream : SocketStream

namespace Send

/-- The message behind the call. -/
def message (send : Send) (msg : WSFrameMessage) : WSFrameMessage :=
  (WSConnection.sendMessage send.mask msg send.fin send.stream).2.1

/-- The head and the length field of the message go out. -/
def FrontWritten (send : Send) (msg : WSFrameMessage) : Prop :=
  (writeAllFixed send.stream ([(sendHead msg send.fin true).toBytes] ++
    lengthBuffers (payloadField msg.data.length) msg.data.length)).1 = true

/-- The call fails in front of the data, or its mask leaves the data alone. -/
def Meets (send : Send) (msg : WSFrameMessage) : Prop :=
  ¬send.FrontWritten msg ∨ Leaves send.mask msg.data

/-- The data is masked as soon as the head and the length field are out. -/
theorem message_of_written {send : Send} {msg : WSFrameMessage} (h : send.FrontWritten msg) :
    send.message msg = { msg with data := maskFrom send.mask 0 msg.data } := by
  have hhead : (sendHead msg send.fin true).payload = payloadField msg.data.length := rfl
  rw [FrontWritten] at h
  rw [message, WSConnection.sendMessage, hhead]
  simp only
  rw [if_pos h]

/-- A send whose front is not written leaves the message as it is. -/
theorem message_of_not_written {send : Send} {msg : WSFrameMessage} (h : ¬send.FrontWritten msg) :
    send.message msg = msg := by
  have hhead : (sendHead msg send.fin true).payload = payloadField msg.data.length := rfl
  rw [FrontWritten] at h
  rw [message, WSConnection.sendMessage, hhead]
  simp only
  rw [if_neg h]

/-- No send changes the opcode. -/
theorem message_opcode (send : Send) (msg : WSFrameMessage) :
    (send.message msg).opcode = msg.opcode := by
  by_cases h : send.FrontWritten msg
  · rw [message_of_written h]
  · rw [message_of_not_written h]

/-- A send leaves the message alone if and only if it meets the condition. -/
theorem message_eq_self_iff (send : Send) (msg : WSFrameMessage) :
    send.message msg = msg ↔ send.Meets msg := by
  by_cases h : send.FrontWritten msg
  · rw [message_of_written h, Meets, ← maskFrom_zero_eq_iff]
    constructor
    · intro heq
      exact Or.inr (congrArg WSFrameMessage.data heq)
    · rintro (hnot | hdata)
      · exact absurd h hnot
      · rw [hdata]
  · rw [message_of_not_written h, Meets]
    exact ⟨fun _ => Or.inl h, fun _ => rfl⟩

end Send

/-- The message behind a run of sends. -/
def messageAfter (sends : List Send) (msg : WSFrameMessage) : WSFrameMessage :=
  sends.foldl (fun msg send => send.message msg) msg

/-- The message is the same in every state of a run if and only if all sends meet the
condition. -/
theorem messageAfter_take_iff (sends : List Send) (msg : WSFrameMessage) :
    (∀ j, messageAfter (sends.take j) msg = msg) ↔ ∀ send ∈ sends, send.Meets msg := by
  induction sends with
  | nil => simp [messageAfter]
  | cons send sends ih =>
      rw [List.forall_mem_cons, ← Send.message_eq_self_iff]
      constructor
      · intro h
        have hone : send.message msg = msg := h 1
        refine ⟨hone, ih.mp ?_⟩
        intro j
        have htail := h (j + 1)
        rw [List.take_succ_cons, messageAfter, List.foldl_cons, hone] at htail
        exact htail
      · rintro ⟨hone, htail⟩ j
        cases j with
        | zero => rfl
        | succ j =>
            rw [List.take_succ_cons, messageAfter, List.foldl_cons, hone]
            exact ih.mpr htail j

/-! ## What the peer receives -/

/-- The sends of one message on one connection, with `fin` set. -/
def resend : List Mask → WSFrameMessage → SocketStream → WSFrameMessage × SocketStream
  | [], msg, c => (msg, c)
  | mask :: masks, msg, c =>
      let r := WSConnection.sendMessage mask msg true c
      resend masks r.2.1 r.2.2

/-- The data of the message in front of each send. -/
def dataBefore : List Mask → List UInt8 → List (List UInt8)
  | [], _ => []
  | mask :: masks, data => data :: dataBefore masks (maskFrom mask 0 data)

/-- So many calls of `recv_message` by the peer. -/
def recvTimes (maxSize : UInt32) : Nat → SocketStream → List Recvd × SocketStream
  | 0, s => ([], s)
  | n + 1, s =>
      let r := WSSession.recvMessage maxSize s
      let rs := recvTimes maxSize n r.2
      (r.1 :: rs.1, rs.2)

/-- The bytes that `c'` sent since it was `c` are received as these messages, however they are
cut. -/
def Receives (maxSize : UInt32) (c c' : SocketStream) (msgs : List WSFrameMessage) : Prop :=
  ∃ bytes, c'.sent = c.sent ++ bytes ∧ ∀ s rest, Ahead s (bytes ++ rest) →
    ∃ s', recvTimes maxSize msgs.length s = (msgs.map .message, s') ∧ Ahead s' rest

/-- There is one text for each mask. -/
theorem dataBefore_length (masks : List Mask) (data : List UInt8) :
    (dataBefore masks data).length = masks.length := by
  induction masks generalizing data with
  | nil => rfl
  | cons mask masks ih => rw [dataBefore, List.length_cons, List.length_cons, ih]

/-- The data is the same in front of each send if and only if all masks but the last one leave
it alone. -/
theorem dataBefore_eq_replicate_iff (masks : List Mask) (data : List UInt8) :
    dataBefore masks data = List.replicate masks.length data ↔
      ∀ mask ∈ masks.dropLast, Leaves mask data := by
  induction masks with
  | nil => simp [dataBefore]
  | cons mask masks ih =>
      rw [dataBefore, List.length_cons, List.replicate_succ, List.cons.injEq]
      cases masks with
      | nil => simp [dataBefore]
      | cons mask' masks =>
          rw [List.dropLast_cons_cons, List.forall_mem_cons, ← ih, ← maskFrom_zero_eq_iff]
          constructor
          · rintro ⟨-, htail⟩
            have hdata : maskFrom mask 0 data = data := by
              rw [dataBefore, List.length_cons, List.replicate_succ, List.cons.injEq] at htail
              exact htail.1
            rw [hdata] at htail
            exact ⟨hdata, htail⟩
          · rintro ⟨hdata, htail⟩
            rw [hdata]
            exact ⟨rfl, htail⟩

section Peer

variable {maxSize : UInt32} {op : Nat} {data : List UInt8}

/-- One send: its message arrives, and the connection can send on. -/
theorem sendMessage_delivers (hop : op = WSFrameHead.TEXT_FRAME ∨ op = WSFrameHead.BIN_FRAME)
    (mask : Mask) (hmax : data.length < maxSize.toNat) (hpos : 0 < data.length)
    (hlt : data.length < 65536) {c : SocketStream} (hconn : c.connected = true)
    (hsends : c.SendsSucceed) :
    (WSConnection.sendMessage mask ⟨op, data⟩ true c).2.1 = ⟨op, maskFrom mask 0 data⟩ ∧
      (WSConnection.sendMessage mask ⟨op, data⟩ true c).2.2.SendsSucceed ∧
      Delivers (WSSession.recvMessage maxSize) c
        (WSConnection.sendMessage mask ⟨op, data⟩ true c).2.2 ⟨op, data⟩ := by
  have hsend : Sendable data := sendable_of_lt hpos (by omega)
  have hbufs := clientBuffers_sendable mask ⟨op, data⟩ hsend true
  refine ⟨?_, ?_, (exchanges_of_lt hop mask hmax hpos hlt c hconn hsends).1⟩
  · have hfront : (Send.mk mask true c).FrontWritten ⟨op, data⟩ := by
      have hsendable : ∀ b ∈ [(sendHead ⟨op, data⟩ true true).toBytes] ++
          lengthBuffers (payloadField data.length) data.length, Sendable b :=
        fun b hb => hbufs b (List.mem_append_left _ hb)
      obtain ⟨sends, hrun, -⟩ := writeAllFixed_spec hconn hsends hsendable
      rw [Send.FrontWritten, hrun]
    have hmessage := Send.message_of_written hfront
    rw [Send.message] at hmessage
    exact hmessage
  · obtain ⟨sends, hrun, hgood⟩ := writeAllFixed_spec hconn hsends hbufs
    rw [clientSend_stream, hrun]
    exact hgood

/-- The peer receives what the message holds in front of each send. -/
theorem resend_receives (hop : op = WSFrameHead.TEXT_FRAME ∨ op = WSFrameHead.BIN_FRAME)
    (masks : List Mask) (hmax : data.length < maxSize.toNat) (hpos : 0 < data.length)
    (hlt : data.length < 65536) {c : SocketStream} (hconn : c.connected = true)
    (hsends : c.SendsSucceed) :
    Receives maxSize c (resend masks ⟨op, data⟩ c).2
      ((dataBefore masks data).map fun d => ⟨op, d⟩) := by
  induction masks generalizing data c with
  | nil => exact ⟨[], by simp [resend], fun s rest hahead => ⟨s, rfl, hahead⟩⟩
  | cons mask masks ih =>
      obtain ⟨hmsg, hgood, hconn', bytes, hbytes, hrecv⟩ :=
        sendMessage_delivers hop mask hmax hpos hlt hconn hsends
      have hmax' : (maskFrom mask 0 data).length < maxSize.toNat := by simpa using hmax
      obtain ⟨tail, htail, hrest⟩ :=
        ih hmax' (by simpa using hpos) (by simpa using hlt) hconn' hgood
      rw [resend]
      simp only [hmsg]
      refine ⟨bytes ++ tail, ?_, ?_⟩
      · rw [htail, hbytes, List.append_assoc]
      · intro s rest hahead
        rw [List.append_assoc] at hahead
        obtain ⟨s₁, hfirst, hs₁, -⟩ := hrecv s (tail ++ rest) hahead
        obtain ⟨s₂, hothers, hs₂⟩ := hrest s₁ rest hs₁
        refine ⟨s₂, ?_, hs₂⟩
        rw [dataBefore, List.map_cons, List.length_cons, recvTimes]
        simp only [hfirst, hothers]
        rfl

/-- The bytes determine what is received. -/
theorem Receives.unique {c c' : SocketStream} {msgs msgs' : List WSFrameMessage}
    (hlen : msgs.length = msgs'.length) (h : Receives maxSize c c' msgs)
    (h' : Receives maxSize c c' msgs') : msgs = msgs' := by
  obtain ⟨bytes, hbytes, hrecv⟩ := h
  obtain ⟨bytes', hbytes', hrecv'⟩ := h'
  have heq : bytes = bytes' := by
    rw [hbytes] at hbytes'
    exact List.append_cancel_left hbytes'
  subst heq
  obtain ⟨s, hahead⟩ : ∃ s, Ahead s (bytes ++ []) := by
    by_cases hnil : bytes = []
    · rw [hnil]
      exact ⟨⟨true, [], 0, [], []⟩, rfl, rfl⟩
    · exact ⟨_, wholeStream_ahead hnil⟩
  obtain ⟨s₁, hrun, -⟩ := hrecv s [] hahead
  obtain ⟨s₂, hrun', -⟩ := hrecv' s [] hahead
  rw [hlen, hrun', Prod.mk.injEq] at hrun
  apply List.map_injective_iff.mpr _ hrun.1.symm
  intro a b hab
  exact Recvd.message.inj hab

/-- In every run of sends the message is the same in every state if and only if in each send the
head or the length field cannot be written, or the mask leaves the data alone.  A peer that gets
the sends of one connection receives the original message each time if and only if all masks but
the last one leave the data alone. -/
theorem resends_iff (sends : List Send) (msg : WSFrameMessage) :
    ((∀ j, messageAfter (sends.take j) msg = msg) ↔ ∀ send ∈ sends, send.Meets msg) ∧
    (messageAfter sends msg).opcode = msg.opcode ∧
    ∀ (maxSize : UInt32) (op : Nat) (data : List UInt8) (masks : List Mask) (c : SocketStream),
      op = WSFrameHead.TEXT_FRAME ∨ op = WSFrameHead.BIN_FRAME → data.length < maxSize.toNat →
      0 < data.length → data.length < 65536 → c.connected = true → c.SendsSucceed →
      (Receives maxSize c (resend masks ⟨op, data⟩ c).2 (List.replicate masks.length ⟨op, data⟩) ↔
        ∀ mask ∈ masks.dropLast, Leaves mask data) := by
  refine ⟨messageAfter_take_iff sends msg, ?_, ?_⟩
  · induction sends generalizing msg with
    | nil => rfl
    | cons send sends ih =>
        rw [messageAfter, List.foldl_cons]
        exact (ih _).trans (send.message_opcode msg)
  · intro maxSize op data masks c hop hmax hpos hlt hconn hsends
    have hreceives := resend_receives hop masks hmax hpos hlt hconn hsends
    rw [← dataBefore_eq_replicate_iff]
    constructor
    · intro h
      have heq := h.unique (by rw [List.length_map, dataBefore_length, List.length_replicate])
        hreceives
      have hdata := congrArg (List.map WSFrameMessage.data) heq
      rw [List.map_replicate, List.map_map] at hdata
      simpa [Function.comp_def] using hdata.symm
    · intro h
      rw [h, List.map_replicate] at hreceives
      exact hreceives

end Peer

/-- With masks of zeros the peer receives `hi` twice. -/
theorem resends_iff_zeros :
    Receives 1024 (wholeStream [])
      (resend [⟨0, 0, 0, 0⟩, ⟨0, 0, 0, 0⟩] ⟨1, [104, 105]⟩ (wholeStream [])).2
      [⟨1, [104, 105]⟩, ⟨1, [104, 105]⟩] :=
  ((resends_iff [] ⟨1, [104, 105]⟩).2.2 1024 1 [104, 105] [⟨0, 0, 0, 0⟩, ⟨0, 0, 0, 0⟩]
    (wholeStream []) (by decide) (by decide) (by decide) (by decide) rfl
    (wholeStream_sendsSucceed [])).mpr (by decide)

/-- The message `hi`, sent twice with a mask of ones: it holds other bytes behind the first
send, and the peer receives these the second time. -/
theorem resend_changes :
    messageAfter [⟨⟨1, 1, 1, 1⟩, true, wholeStream []⟩] ⟨1, [104, 105]⟩ = ⟨1, [105, 104]⟩ ∧
      (resend [⟨1, 1, 1, 1⟩, ⟨0, 0, 0, 0⟩] ⟨1, [104, 105]⟩ (wholeStream [])).2.sent =
        [0x81, 0x82, 1, 1, 1, 1, 105, 104, 0x81, 0x82, 0, 0, 0, 0, 105, 104] ∧
      (recvTimes 1024 2 (wholeStream [0x81, 0x82, 1, 1, 1, 1, 105, 104, 0x81, 0x82, 0, 0, 0, 0,
        105, 104])).1 = [.message ⟨1, [104, 105]⟩, .message ⟨1, [105, 104]⟩] := by
  decide

end WebSocket
end Tiger
