import Tiger.WebSocket.Exchange
import Tiger.WebSocket.Service

/-!
# WebSocket - conversations

Both ends together: a client opens the connection with `WSConnection::Create`, sends PINGs and
messages, and receives what the servlet of the server sends back with `WSSession::send_message`.

Main results:

- Theorem `Talk.servlet_gives`: a servlet that replies with messages gives a service.
- Theorem `Hears.append`: a client hears what was said, through the PONGs in between.
- Theorem `conversation`: the server is told what the client says, and the client receives what
  the server replies.
-/

namespace Tiger
namespace WebSocket

open Http HTTPRequestParser SocketStream

variable {σ : Type}

/-! ## Saying -/

/-- Nothing is sent by doing nothing. -/
theorem Put.refl {s : SocketStream} (h : s.SendsSucceed) : Put s s [] where
  reader := ⟨rfl, rfl, rfl⟩
  sendsSucceed := h
  sent_eq := (List.append_nil _).symm

/-- What is sent comes one behind the other. -/
theorem Put.trans {s₁ s₂ s₃ : SocketStream} {out₁ out₂ : List UInt8} (h₁ : Put s₁ s₂ out₁)
    (h₂ : Put s₂ s₃ out₂) : Put s₁ s₃ (out₁ ++ out₂) where
  reader := h₁.reader.trans h₂.reader
  sendsSucceed := h₂.sendsSucceed
  sent_eq := by rw [h₂.sent_eq, h₁.sent_eq, List.append_assoc]

/-- A message that is sent in one frame and read back by a peer with this maximum. -/
structure Sayable (maxSize : UInt32) (msg : WSFrameMessage) : Prop where
  opcode : msg.opcode = WSFrameHead.TEXT_FRAME ∨ msg.opcode = WSFrameHead.BIN_FRAME
  pos : 0 < msg.data.length
  lt : msg.data.length < 65536
  small : msg.data.length < maxSize.toNat

namespace Sayable

variable {maxSize : UInt32} {msg : WSFrameMessage}

/-- A message that can be said is text or binary. -/
theorem toNat_opcode (h : Sayable maxSize msg) :
    (msg.opcode.toNat = WSFrameHead.TEXT_FRAME ∨ msg.opcode.toNat = WSFrameHead.BIN_FRAME) ∧
      (msg.opcode.toNat : Int) = msg.opcode := by
  rcases h.opcode with hop | hop <;> rw [hop] <;> decide

theorem lt_sixteen (h : Sayable maxSize msg) : msg.opcode.toNat < 16 := by
  rcases h.toNat_opcode.1 with hop | hop <;> rw [hop] <;> decide

theorem eq_mk (h : Sayable maxSize msg) :
    (⟨msg.opcode.toNat, msg.data⟩ : WSFrameMessage) = msg := by
  rw [h.toNat_opcode.2]

theorem sendable (h : Sayable maxSize msg) : Sendable msg.data :=
  sendable_of_lt h.pos (h.lt.trans (by decide))

/-- The length of a message that can be said does not stop the receiver. -/
theorem not_stops (h : Sayable maxSize msg) : ¬ Stops maxSize 0 msg.data.length := by
  have hpos := h.pos
  have hlt := h.lt
  have hsmall := h.small
  simp only [Stops, not_or]
  omega

/-- The frame of the message. -/
def frame (h : Sayable maxSize msg) (mask : Option Mask) : Frame :=
  messageFrame msg.opcode.toNat h.lt_sixteen mask msg.data h.lt

/-- The server sends a message as one frame. -/
theorem serverBuffers_eq (h : Sayable maxSize msg) :
    (serverBuffers msg true).flatten = (h.frame none).wire := by
  have hwire := serverBuffers_flatten h.lt_sixteen h.lt
  rwa [h.eq_mk] at hwire

/-- The client sends a message as one masked frame. -/
theorem clientBuffers_eq (h : Sayable maxSize msg) (mask : Mask) :
    (clientBuffers mask msg true).flatten = (h.frame (some mask)).wire := by
  have hwire := clientBuffers_flatten h.lt_sixteen mask h.lt
  rwa [h.eq_mk] at hwire

end Sayable

/-- A sender that gets all its buffers out has put them behind each other. -/
theorem finishSend_put {s : SocketStream} (hconn : s.connected = true) (hsends : s.SendsSucceed)
    {bufs : List (List UInt8)} (hbufs : ∀ b ∈ bufs, Sendable b) (size : Nat) :
    Put s (finishSend size (writeAllFixed s bufs)).2 bufs.flatten := by
  obtain ⟨sends, hrun, hgood⟩ := writeAllFixed_spec hconn hsends hbufs
  rw [hrun]
  exact ⟨⟨rfl, rfl, rfl⟩, hgood, rfl⟩

/-! ## Servlets that reply -/

/-- `session->send_message(msg)` for one message after the other. -/
def sendAll : List WSFrameMessage → SocketStream → SocketStream
  | [], s => s
  | msg :: msgs, s => sendAll msgs (WSSession.sendMessage msg true s).2

/-- The bytes of messages of a server. -/
def said (msgs : List WSFrameMessage) : List UInt8 :=
  msgs.flatMap fun msg => (serverBuffers msg true).flatten

/-- Messages are sent one behind the other. -/
theorem sendAll_put {maxSize : UInt32} {msgs : List WSFrameMessage}
    (hmsgs : ∀ msg ∈ msgs, Sayable maxSize msg) {s : SocketStream} (hconn : s.connected = true)
    (hsends : s.SendsSucceed) : Put s (sendAll msgs s) (said msgs) := by
  induction msgs generalizing s with
  | nil => exact .refl hsends
  | cons msg msgs ih =>
      obtain ⟨hmsg, hothers⟩ := List.forall_mem_cons.mp hmsgs
      have hfirst : Put s (WSSession.sendMessage msg true s).2 (serverBuffers msg true).flatten :=
        finishSend_put hconn hsends (serverBuffers_sendable msg hmsg.sendable true) msg.data.length
      exact hfirst.trans
        (ih hothers (hfirst.reader.connected_eq.trans hconn) hfirst.sendsSucceed)

/-- What a servlet says: when a client connects, and to each message. -/
structure Talk (σ : Type) where
  greet : σ → List WSFrameMessage × σ
  replies : WSFrameMessage → σ → List WSFrameMessage × σ

namespace Talk

variable (t : Talk σ)

/-- The callbacks that send what is to be said. -/
def servlet : WSServlet σ :=
  functionWSServlet
    (some fun _ msg s a => ⟨0, sendAll (t.replies msg a).1 s, (t.replies msg a).2⟩)
    (some fun _ s a => ⟨0, sendAll (t.greet a).1 s, (t.greet a).2⟩) none

/-- The service that the callbacks are for. -/
def service : Service σ where
  greet a := (said (t.greet a).1, (t.greet a).2)
  answer msg a := (said (t.replies msg a).1, (t.replies msg a).2)
  leave a := a

/-- All that is said to messages of a kind is read back by a client with this maximum. -/
structure Speaks (maxSize : UInt32) (kind : WSFrameMessage → Prop) : Prop where
  greet : ∀ a, ∀ msg ∈ (t.greet a).1, Sayable maxSize msg
  replies : ∀ msg, kind msg → ∀ a, ∀ reply ∈ (t.replies msg a).1, Sayable maxSize reply

variable {t}

/-- A servlet that replies with messages gives a service. -/
theorem servlet_gives {maxSize : UInt32} {kind : WSFrameMessage → Prop}
    (h : t.Speaks maxSize kind) (header : HTTPRequest) :
    t.servlet.Gives t.service header kind where
  onConnect _ a hconn hsends := ⟨rfl, sendAll_put (h.greet a) hconn hsends, rfl⟩
  handle msg hkind _ a hconn hsends := ⟨rfl, sendAll_put (h.replies msg hkind a) hconn hsends, rfl⟩
  onClose _ _ _ := ⟨rfl, rfl⟩

end Talk

/-! ## Hearing -/

/-- So many calls of `recv_message` by a client. -/
def recvMessages (maxSize : UInt32) : Nat → SocketStream → List Recvd × SocketStream
  | 0, c => ([], c)
  | n + 1, c =>
      let r := WSConnection.recvMessage maxSize c
      let rs := recvMessages maxSize n r.2
      (r.1 :: rs.1, rs.2)

/-- Messages are received one behind the other. -/
theorem recvMessages_add (maxSize : UInt32) (m n : Nat) (c : SocketStream) :
    recvMessages maxSize (m + n) c =
      ((recvMessages maxSize m c).1 ++
          (recvMessages maxSize n (recvMessages maxSize m c).2).1,
        (recvMessages maxSize n (recvMessages maxSize m c).2).2) := by
  induction m generalizing c with
  | zero => rw [Nat.zero_add]; rfl
  | succ m ih =>
      rw [Nat.add_right_comm, recvMessages, ih]
      rfl

/-- So many PONG frames. -/
def pongFrames (n : Nat) : List UInt8 := wire (List.replicate n .pong)

/-- Pongs are sent one behind the other. -/
theorem pongFrames_add (m n : Nat) : pongFrames m ++ pongFrames n = pongFrames (m + n) := by
  induction m with
  | zero => rw [Nat.zero_add]; rfl
  | succ m ih =>
      have hsucc : ∀ k, pongFrames (k + 1) = (Item.frame .pong).wire ++ pongFrames k := fun _ => rfl
      rw [Nat.add_right_comm, hsucc, hsucc, List.append_assoc, ih]

/-- The PONGs that answer a client. -/
theorem pongs_eq (is : List Item) : ∃ n, pongs is = pongFrames n := by
  induction is with
  | nil => exact ⟨0, rfl⟩
  | cons i is ih =>
      obtain ⟨n, hn⟩ := ih
      cases i with
      | data f => exact ⟨n, hn⟩
      | ping => exact ⟨n + 1, by rw [pongs, hn]; rfl⟩
      | pong => exact ⟨n, hn⟩

/-- PONGs are skipped. -/
theorem recvLoop_pongFrames (maxSize : UInt32) (acc : Acc) (n fuel : Nat) {c : SocketStream}
    {rest : List UInt8} (hc : Ahead c (pongFrames n ++ rest)) :
    ∃ c', recvLoop false maxSize (n + fuel) acc c = recvLoop false maxSize fuel acc c' ∧
      Ahead c' rest := by
  induction n generalizing c with
  | zero => exact ⟨c, by rw [Nat.zero_add], hc⟩
  | succ n ih =>
      rw [pongFrames, List.replicate_succ, wire, List.append_assoc] at hc
      obtain ⟨c₁, hround, hc₁, -⟩ : ∃ c₁, recvLoop false maxSize (n + fuel + 1) acc c =
          recvLoop false maxSize (n + fuel) acc c₁ ∧
        Ahead c₁ (wire (List.replicate n .pong) ++ rest) ∧ Advanced c c₁ 2 := recvLoop_pong hc
      obtain ⟨c', hrun, hc'⟩ := ih hc₁
      exact ⟨c', by rw [Nat.add_right_comm, hround, hrun], hc'⟩

/-- Behind PONGs a message in one frame is read. -/
theorem recvMessage_behind {maxSize : UInt32} {msg : WSFrameMessage} (h : Sayable maxSize msg)
    (n : Nat) {c : SocketStream} {rest : List UInt8}
    (hc : Ahead c (pongFrames n ++ ((h.frame none).wire ++ rest))) :
    ∃ c', WSConnection.recvMessage maxSize c = (.message msg, c') ∧ Ahead c' rest := by
  have hle : n ≤ c.pending := by
    have hitems := items_le_pending hc
    rwa [List.length_replicate] at hitems
  obtain ⟨c₁, hloop, hc₁⟩ := recvLoop_pongFrames maxSize Acc.init n (c.pending - n + 1) hc
  have hgo : ¬ Stops maxSize ([] : List UInt8).length (h.frame none).payload.length := h.not_stops
  obtain ⟨c', hround, hc', -⟩ := recvRound_data false 0 hc₁ (.inr h.toNat_opcode.1)
    (fun hmask => absurd hmask (by decide)) hgo
  have hkeep : keepOpcode 0 (h.frame none) = msg.opcode := by
    rw [keepOpcode, if_pos]
    · exact h.toNat_opcode.2
    · refine ⟨rfl, ?_⟩
      change msg.opcode.toNat ≠ _
      rcases h.toNat_opcode.1 with hop | hop <;> rw [hop] <;> decide
  have hfin : (h.frame none).fin = true := rfl
  refine ⟨c', ?_, hc'⟩
  rw [WSConnection.recvMessage, recvMessage, show c.pending + 1 = n + (c.pending - n + 1) by omega,
    hloop, Acc.init_eq, recvLoop, hround, hfin, if_pos rfl, hkeep]
  rfl

/-- A client that has these bytes ahead, behind any number of PONGs, receives these messages. -/
def Hears (maxSize : UInt32) (bytes : List UInt8) (msgs : List WSFrameMessage) : Prop :=
  ∀ n c rest, Ahead c (pongFrames n ++ (bytes ++ rest)) →
    ∃ k c', recvMessages maxSize msgs.length c = (msgs.map .message, c') ∧
      Ahead c' (pongFrames k ++ rest)

namespace Hears

variable {maxSize : UInt32}

theorem nil (maxSize : UInt32) : Hears maxSize [] [] := fun n c _ hc => ⟨n, c, rfl, hc⟩

/-- Messages are heard one behind the other. -/
theorem append {xs ys : List UInt8} {msgs msgs' : List WSFrameMessage} (h : Hears maxSize xs msgs)
    (h' : Hears maxSize ys msgs') : Hears maxSize (xs ++ ys) (msgs ++ msgs') := by
  intro n c rest hc
  rw [List.append_assoc] at hc
  obtain ⟨k, c₁, hfirst, hc₁⟩ := h n c (ys ++ rest) hc
  obtain ⟨k', c₂, hothers, hc₂⟩ := h' k c₁ rest hc₁
  refine ⟨k', c₂, ?_, hc₂⟩
  rw [List.length_append, recvMessages_add, hfirst, hothers, List.map_append]

/-- Pongs are no messages. -/
theorem pongs (is : List Item) : Hears maxSize (pongs is) [] := by
  obtain ⟨k, hk⟩ := pongs_eq is
  intro n c rest hc
  refine ⟨n + k, c, rfl, ?_⟩
  rwa [hk, ← List.append_assoc, pongFrames_add] at hc

/-- Messages that are said are heard. -/
theorem said {msgs : List WSFrameMessage} (hmsgs : ∀ msg ∈ msgs, Sayable maxSize msg) :
    Hears maxSize (said msgs) msgs := by
  induction msgs with
  | nil => exact .nil maxSize
  | cons msg msgs ih =>
      obtain ⟨hmsg, hothers⟩ := List.forall_mem_cons.mp hmsgs
      have hfirst : Hears maxSize (serverBuffers msg true).flatten [msg] := by
        intro n c rest hc
        rw [hmsg.serverBuffers_eq] at hc
        obtain ⟨c', hrecv, hc'⟩ := recvMessage_behind hmsg n hc
        exact ⟨0, c', by rw [List.length_singleton, recvMessages, hrecv]; rfl, hc'⟩
      exact hfirst.append (ih hothers)

end Hears

/-! ## What is said to a run -/

namespace Talk

variable (t : Talk σ)

/-- All replies to messages one behind the other. -/
def repliesAll : List WSFrameMessage → σ → List WSFrameMessage × σ
  | [], a => ([], a)
  | msg :: msgs, a =>
      let r := t.replies msg a
      let rest := repliesAll msgs r.2
      (r.1 ++ rest.1, rest.2)

/-- All that is said to a client, and the state behind it. -/
def transcript (msgs : List WSFrameMessage) (a : σ) : List WSFrameMessage × σ :=
  ((t.greet a).1 ++ (t.repliesAll msgs (t.greet a).2).1, (t.repliesAll msgs (t.greet a).2).2)

variable {t}

/-- The servlet replies to the messages of the client. -/
theorem run_snd {maxSize : UInt32} (ms : List (ClientMessage maxSize)) (a : σ) :
    (t.service.run ms a).2 = (t.repliesAll (ms.map ClientMessage.message) a).2 := by
  induction ms generalizing a with
  | nil => rfl
  | cons m ms ih => exact ih _

/-- A client hears the replies of a run, in order. -/
theorem hears_run {maxSize clientMax : UInt32} {kind : WSFrameMessage → Prop}
    (h : t.Speaks clientMax kind) {ms : List (ClientMessage maxSize)}
    (hkind : ∀ m ∈ ms, kind m.message) (a : σ) :
    Hears clientMax (t.service.run ms a).1 (t.repliesAll (ms.map ClientMessage.message) a).1 := by
  induction ms generalizing a with
  | nil => exact .nil clientMax
  | cons m ms ih =>
      obtain ⟨hfirst, hothers⟩ := List.forall_mem_cons.mp hkind
      have hreplies := Hears.said (h.replies m.message hfirst a)
      exact ((Hears.pongs m.items).append hreplies).append (ih hothers _)

end Talk

/-! ## The client -/

/-- What a client does: so many calls of `ping`, and a call of `send_message` with the mask that
`rand()` chooses. -/
structure Saying (maxSize : UInt32) where
  pings : Nat
  mask : Mask
  msg : WSFrameMessage
  sayable : Sayable maxSize msg

/-- So many calls of `ping`. -/
def pingTimes : Nat → SocketStream → SocketStream
  | 0, c => c
  | n + 1, c => pingTimes n (ping c).2

/-- The connection of a client behind all that it does. -/
def sayAll {maxSize : UInt32} : List (Saying maxSize) → SocketStream → SocketStream
  | [], c => c
  | m :: ms, c => sayAll ms (WSConnection.sendMessage m.mask m.msg true (pingTimes m.pings c)).2.2

/-- A ping is sent as its frame. -/
theorem ping_put {c : SocketStream} (hconn : c.connected = true) (hsends : c.SendsSucceed) :
    Put c (ping c).2 (Item.frame .ping).wire := by
  obtain ⟨sends, hrun, hgood⟩ := writeFixedSize_spec hconn hsends
    (controlHead WSFrameHead.PING WSFrameHead.PING_lt).toBytes
  rw [ping, hrun]
  exact ⟨⟨rfl, rfl, rfl⟩, hgood, rfl⟩

/-- Pings are sent one behind the other. -/
theorem pingTimes_put (n : Nat) {c : SocketStream} (hconn : c.connected = true)
    (hsends : c.SendsSucceed) : Put c (pingTimes n c) (wire (List.replicate n .ping)) := by
  induction n generalizing c with
  | zero => exact .refl hsends
  | succ n ih =>
      have hfirst := ping_put hconn hsends
      exact hfirst.trans (ih (hfirst.reader.connected_eq.trans hconn) hfirst.sendsSucceed)

namespace Saying

variable {maxSize : UInt32}

/-- What the server sees of it. -/
def items (m : Saying maxSize) : List Item :=
  List.replicate m.pings .ping ++ [.data (m.sayable.frame (some m.mask))]

/-- The frames of a message hold its data. -/
theorem payload_items (m : Saying maxSize) : payload m.items = m.msg.data := by
  have hpings : ∀ n, payload (List.replicate n .ping ++ [.data (m.sayable.frame (some m.mask))]) =
      m.msg.data := by
    intro n
    induction n with
    | zero => exact List.append_nil _
    | succ n ih => exact ih
  exact hpings m.pings

/-- The frames of a message are a message. -/
theorem isMessage (m : Saying maxSize) : IsMessage m.msg.opcode.toNat m.items := by
  have hpings : ∀ n, IsMessage m.msg.opcode.toNat
      (List.replicate n .ping ++ [.data (m.sayable.frame (some m.mask))]) := by
    intro n
    induction n with
    | zero => exact .last rfl rfl rfl (List.ne_nil_of_length_pos m.sayable.pos)
    | succ n ih => exact .ping ih
  exact hpings m.pings

/-- The lengths of the frames of a message fit an `int`. -/
theorem fitsInt (m : Saying maxSize) : FitsInt 0 m.items := by
  have hlt := m.sayable.lt
  refine ⟨?_, by rw [m.payload_items]; omega⟩
  intro f hf
  rw [items, List.mem_append, List.mem_replicate, List.mem_singleton] at hf
  rcases hf with ⟨-, hping⟩ | hdata
  · cases hping
  · rw [Item.data.inj hdata]
    exact hlt.trans (by decide)

/-- The message that the server receives. -/
def clientMessage (m : Saying maxSize) : ClientMessage maxSize where
  op := m.msg.opcode.toNat
  items := m.items
  opcode := m.sayable.toNat_opcode.1
  isMessage := m.isMessage
  small := by
    rw [m.payload_items]
    exact m.sayable.small
  fits := m.fitsInt

/-- The message that arrives is the one that was sent. -/
theorem message_eq (m : Saying maxSize) : m.clientMessage.message = m.msg := by
  have hpayload := m.payload_items
  rw [ClientMessage.message, clientMessage, hpayload]
  exact m.sayable.eq_mk

/-- What the client sends is its frames. -/
theorem put (m : Saying maxSize) {c : SocketStream} (hconn : c.connected = true)
    (hsends : c.SendsSucceed) :
    Put c (WSConnection.sendMessage m.mask m.msg true (pingTimes m.pings c)).2.2
      m.clientMessage.bytes := by
  have hpings := pingTimes_put m.pings hconn hsends
  have hsend := finishSend_put (hpings.reader.connected_eq.trans hconn) hpings.sendsSucceed
    (clientBuffers_sendable m.mask m.msg m.sayable.sendable true) m.msg.data.length
  rw [← clientSend_stream, m.sayable.clientBuffers_eq] at hsend
  have hbytes : m.clientMessage.bytes =
      wire (List.replicate m.pings .ping) ++ (m.sayable.frame (some m.mask)).wire := by
    have hwire : ∀ n, wire (List.replicate n .ping ++ [.data (m.sayable.frame (some m.mask))]) =
        wire (List.replicate n .ping) ++ (m.sayable.frame (some m.mask)).wire := by
      intro n
      induction n with
      | zero => exact List.append_nil _
      | succ n ih =>
          rw [List.replicate_succ, List.cons_append, wire, wire, ih, List.append_assoc]
    exact hwire m.pings
  rw [hbytes]
  exact hpings.trans hsend

end Saying

/-- What a client says in turn is sent as all its frames. -/
theorem sayAll_put {maxSize : UInt32} (ms : List (Saying maxSize)) {c : SocketStream}
    (hconn : c.connected = true) (hsends : c.SendsSucceed) :
    Put c (sayAll ms c) ((ms.map Saying.clientMessage).flatMap ClientMessage.bytes) := by
  induction ms generalizing c with
  | nil => exact .refl hsends
  | cons m ms ih =>
      have hfirst := m.put hconn hsends
      exact hfirst.trans (ih (hfirst.reader.connected_eq.trans hconn) hfirst.sendsSucceed)

/-! ## The handshake of the client -/

/-- The request that `WSConnection::Create` sends, as the server receives it. -/
theorem createRequest_wire (env : Env) {secKey host path query fragment : Text}
    (hpath : isPath path = true) (hquery : isQuery query = true)
    (hfragment : isQuery fragment = true)
    (hhost : isHost host = true) (hkey : isFieldValue (Hash.base64Decode secKey) = true)
    {text : Text} (hdump : (createRequest secKey host path query fragment []).dump = some text)
    (hsmall : text.length < 2 ^ 62) :
    ∃ q : WireRequest env, q.header = text ∧ q.body = [] ∧
      q.request.headers = createHeaders secKey host [] ∧ q.request.path = path := by
  obtain ⟨r, hmsg, hheaders⟩ :=
    createRequest_message env hpath hquery hfragment hhost hkey hdump hsmall
  refine ⟨⟨text, [], r, hmsg⟩, rfl, rfl, hheaders, ?_⟩
  obtain ⟨ps, hexec, -, -, rfl⟩ := hmsg.parsed
  rw [createRequest_dump, Option.some.injEq] at hdump
  subst hdump
  obtain ⟨ps', hexec', hps'⟩ :=
    exec_headText env (createRequest_line secKey host hpath hquery hfragment)
    (createHeaders_fields hkey hhost) (at_store env.memory _) hsmall
  rw [hexec, Option.some.injEq, Prod.mk.injEq] at hexec'
  have hdata := hps'.data
  rw [← hexec'.2] at hdata
  have hinit : ∀ r : HTTPRequest, r.init.path = r.path := by
    intro r
    unfold HTTPRequest.init
    simp only
    split
    · rfl
    · rfl
  have hrequest : (requestOf env ps []).path = ps.data.path := by
    unfold requestOf
    split
    · exact hinit _
    · exact hinit _
  rw [hrequest, hdata]
  rfl

/-- The request of the client passes the checks of the server, which reads the decoded key. -/
theorem upgradable_of_headers {castInt : Text → Option Int} {r : HTTPRequest} {secKey host : Text}
    (hheaders : r.headers = createHeaders secKey host [])
    (hcast : castInt (text ['1', '3']) = some 13) (hkey : Hash.base64Decode secKey ≠ []) :
    Upgradable castInt r ∧ r.getHeader secKeyName = Hash.base64Decode secKey := by
  rw [createHeaders_nil] at hheaders
  have hsecKey : r.getHeader secKeyName = Hash.base64Decode secKey :=
    getHeader_eq (by rw [hheaders]; rfl)
  refine ⟨⟨?_, ?_, ?_, ?_⟩, hsecKey⟩
  · rw [getHeader_eq (v := websocketText) (by rw [hheaders]; rfl)]
  · rw [getHeader_eq (v := upgradeName) (by rw [hheaders]; rfl)]
  · have hfind : r.headers.find secVersionName = some (text ['1', '3']) := by
      rw [hheaders]
      rfl
    rw [HTTPRequest.getHeaderAsInt, hfind]
    simp only [hcast, Option.getD_some]
  · rwa [hsecKey]

/-! ## Conversations -/

/-- A client opens a connection with `Create` and says something; the server reads the request of
the client with its first read.  Then the servlet is told of the connection, of each message of the
client once and in order, and of the end.  Its state is that behind the transcript, and a client
behind the response to its handshake receives the transcript, however the bytes are cut.  The
string that `tiger::SHA1` makes for the key must end in its buffer. -/
theorem conversation (h : Host σ) (t : Talk σ) {clientMax : UInt32}
    {secKey host path query fragment text : Text} (hpath : isPath path = true)
    (hquery : isQuery query = true) (hfragment : isQuery fragment = true)
    (hhost : isHost host = true) (hkey : isFieldValue (Hash.base64Decode secKey) = true)
    (hcast : h.castInt (Http.text ['1', '3']) = some 13) {accept : Text}
    (haccept : h.sha1.accept (Hash.base64Decode secKey) = some accept)
    (hdump : (createRequest secKey host path query fragment []).dump = some text)
    (hsmall : text.length < 2 ^ 62) (hbuffer : toInt32 h.bufferSize ≠ 0)
    (hlookup : ∃ rounds, getWSServlet h.dispatch h.fnmatch path rounds = some (some t.servlet))
    (ms : List (Saying h.maxSize)) (hspeaks : t.Speaks clientMax (· ∈ ms.map Saying.msg))
    {c : SocketStream} (hconn : c.connected = true) (hsends : c.SendsSucceed) :
    ∃ bytes, (sayAll ms c).sent = c.sent ++ bytes ∧
      ∀ s, CutStream s (text ++ bytes) → s.SendsSucceed →
        s.readLength h.bufferSize = text.length → ∀ fuel, ms.length < fuel → ∀ a,
        ∃ req s' out, (req.path = path ∧ req.headers = createHeaders secKey host []) ∧
          handleClient h fuel s a =
            (.connect :: ms.map (fun m => .message m.msg) ++ [.close],
              .ok (s', (t.transcript (ms.map Saying.msg) a).2)) ∧
          s'.connected = false ∧
          s'.sent = s.sent ++ (upgradeResponse accept req).dump ++ out ∧
          ∀ c' rest, Ahead c' (out ++ rest) →
            (recvMessages clientMax (t.transcript (ms.map Saying.msg) a).1.length c').1 =
              (t.transcript (ms.map Saying.msg) a).1.map .message := by
  refine ⟨_, (sayAll_put ms hconn hsends).sent_eq, ?_⟩
  intro s hs hgood hread fuel hfuel a
  obtain ⟨q, hheader, hbody, hheaders, hqpath⟩ :=
    createRequest_wire h.env hpath hquery hfragment hhost hkey hdump hsmall
  have hbytes : q.bytes = text := by rw [WireRequest.bytes, hheader, hbody, List.append_nil]
  have hne : Hash.base64Decode secKey ≠ [] := by
    intro hnil
    rw [hnil] at hkey
    simp [isFieldValue] at hkey
  have hmap : (ms.map Saying.clientMessage).map ClientMessage.message = ms.map Saying.msg := by
    rw [List.map_map]
    exact List.map_congr_left fun m _ => m.message_eq
  have hfits : q.Fits h.bufferSize s := by
    rw [WireRequest.Fits, hbytes, hheader, hread, hbody]
    refine ⟨le_rfl, le_rfl, ?_, by decide, fun hlt => absurd hlt (lt_irrefl _)⟩
    rw [Nat.sub_self]
    exact fun heq => hbuffer heq.symm
  obtain ⟨hupgradable, hsecKey⟩ := upgradable_of_headers hheaders hcast hne
  have hgives : t.servlet.Gives t.service q.request
      (· ∈ (ms.map Saying.clientMessage).map ClientMessage.message) := by
    rw [hmap]
    exact Talk.servlet_gives hspeaks q.request
  rw [← hbytes, ← List.append_nil (List.flatMap _ _)] at hs
  rw [← hqpath] at hlookup
  obtain ⟨s', hrun, hclosed, hsent⟩ := handleClient_gives h hs hgood hfits
    hupgradable (hsecKey ▸ haccept) hlookup hgives (.inl rfl)
    (by rwa [List.length_map]) a
  have hcalls : (ms.map Saying.clientMessage).map (fun m => Call.message m.message) =
      ms.map (fun m => Call.message m.msg) := by
    rw [List.map_map]
    exact List.map_congr_left fun m _ => congrArg Call.message m.message_eq
  have hears : Hears clientMax
      (said (t.greet a).1 ++ (t.service.run (ms.map Saying.clientMessage) (t.greet a).2).1)
      (t.transcript (ms.map Saying.msg) a).1 := by
    rw [Talk.transcript, ← hmap]
    refine (Hears.said (hspeaks.greet a)).append (Talk.hears_run hspeaks ?_ (t.greet a).2)
    intro m hm
    rw [← hmap]
    exact List.mem_map_of_mem hm
  rw [hcalls, Talk.run_snd, hmap] at hrun
  refine ⟨q.request, s',
    said (t.greet a).1 ++ (t.service.run (ms.map Saying.clientMessage) (t.greet a).2).1,
    ⟨hqpath, hheaders⟩, hrun, hclosed, ?_, ?_⟩
  · rw [hsent, List.append_assoc (s.sent ++ _)]
    rfl
  · intro c' rest hc'
    obtain ⟨k, c'', hrecv, -⟩ := hears 0 c' rest hc'
    rw [hrecv]

/-- A servlet that sends every message back. -/
def echo : Talk Unit where
  greet a := ([], a)
  replies msg a := ([msg], a)

/-- A server on which every path is answered by `echo`. -/
def echoHost : Host Unit where
  env := plainEnv
  castInt := decimalInt
  sha1 := defaultDigester
  fnmatch _ _ := false
  bufferSize := 4096
  maxSize := 1024
  dispatch := .new (some echo.servlet)

/-- `hi`, and `you` behind a PING -/
def hiYou : List (Saying 1024) :=
  [⟨0, ⟨1, 2, 3, 4⟩, ⟨1, [104, 105]⟩, ⟨.inl rfl, by decide, by decide, by decide⟩⟩,
    ⟨1, ⟨5, 6, 7, 8⟩, ⟨1, [121, 111, 117]⟩, ⟨.inl rfl, by decide, by decide, by decide⟩⟩]

/-- The two messages come in one read behind the handshake, and are sent back. -/
theorem conversation_echo : ∃ request bytes, (sampleRequest defaultSecKey).dump = some request ∧
    (sayAll hiYou (wholeStream [])).sent = bytes ∧
    ∃ s', handleClient echoHost 3 (ofCuts [request, bytes]) () =
      ([.connect, .message ⟨1, [104, 105]⟩, .message ⟨1, [121, 111, 117]⟩, .close],
        .ok (s', ())) := by
  have hdump := createRequest_dump defaultSecKey (text ['h']) (text ['/']) [] []
  have hspeaks : echo.Speaks 1024 (· ∈ hiYou.map Saying.msg) := by
    refine ⟨fun a msg hmsg => absurd hmsg List.not_mem_nil, ?_⟩
    intro msg hmsg a reply hreply
    rw [List.mem_singleton.mp hreply]
    obtain ⟨m, -, rfl⟩ := List.mem_map.mp hmsg
    exact m.sayable
  obtain ⟨accept, haccept⟩ :=
    (echoHost.sha1.accept_iff (Hash.base64Decode defaultSecKey)).mpr (defaultDigester_ends _)
  obtain ⟨bytes, hbytes, hall⟩ := conversation echoHost echo (by decide) (by decide) (by decide)
    (by decide) (by decide) (by decide) haccept hdump (by decide +kernel) (by decide) ⟨1, rfl⟩ hiYou
    hspeaks (show (wholeStream []).connected = true from rfl) (wholeStream_sendsSucceed [])
  have hne : bytes ≠ [] := by
    intro hnil
    rw [hnil] at hbytes
    exact absurd hbytes (by decide)
  refine ⟨_, bytes, hdump, hbytes, ?_⟩
  obtain ⟨req, s', out, -, hrun, -⟩ := hall (ofCuts [_, bytes])
    (by simpa using ofCuts_cutStream (List.forall_mem_cons.mpr
      ⟨by decide, List.forall_mem_singleton.mpr hne⟩))
    (wholeStream_sendsSucceed []) (by rw [readLength_ofCuts]; decide +kernel) 3 (by decide) ()
  exact ⟨s', hrun⟩

end WebSocket
end Tiger
