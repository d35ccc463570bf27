import Tiger.WebSocket.Server

/-!
# WebSocket - services

A servlet stands for a service: to each message it has an answer, and a state that the message
changes.  `WSServer::handle_client` gives the service to a client that sends its messages behind
the handshake, in any number of frames, and any cutting of the stream.

Main results:

- Theorem `messageLoop_messages`: messages one behind the other are handled in order.
- Theorem `handleClient_gives`: a connection is a run of the service.
-/

namespace Tiger
namespace WebSocket

open Http SocketStream

variable {σ : Type}

/-! ## Services -/

/-- `s'` is `s` once `out` was sent: nothing was read, and sends go on to succeed. -/
structure Put (s s' : SocketStream) (out : List UInt8) : Prop where
  reader : SameReader s s'
  sendsSucceed : s'.SendsSucceed
  sent_eq : s'.sent = s.sent ++ out

/-- What a servlet is for: the bytes that it sends on every occasion, and its state behind it. -/
structure Service (σ : Type) where
  greet : σ → List UInt8 × σ
  answer : WSFrameMessage → σ → List UInt8 × σ
  leave : σ → σ

/-- The servlet gives the service for messages of a kind, on a session that can send. -/
structure WSServlet.Gives (slt : WSServlet σ) (svc : Service σ) (header : HTTPRequest)
    (kind : WSFrameMessage → Prop) : Prop where
  onConnect : ∀ s a, s.connected = true → s.SendsSucceed →
    (slt.onConnect header s a).rt = 0 ∧
      Put s (slt.onConnect header s a).session (svc.greet a).1 ∧
      (slt.onConnect header s a).state = (svc.greet a).2
  handle : ∀ msg, kind msg → ∀ s a, s.connected = true → s.SendsSucceed →
    (slt.handle header msg s a).rt = 0 ∧
      Put s (slt.handle header msg s a).session (svc.answer msg a).1 ∧
      (slt.handle header msg s a).state = (svc.answer msg a).2
  onClose : ∀ s a, s.connected = false →
    (slt.onClose header s a).session.sent = s.sent ∧ (slt.onClose header s a).state = svc.leave a

/-! ## Messages on the wire -/

/-- A message of a client, as a server with a maximum takes it: its frames, with control frames in
between. -/
structure ClientMessage (maxSize : UInt32) where
  op : Nat
  items : List Item
  opcode : op = WSFrameHead.TEXT_FRAME ∨ op = WSFrameHead.BIN_FRAME
  isMessage : IsMessage op items
  small : (payload items).length < maxSize.toNat
  fits : FitsInt 0 items

namespace ClientMessage

variable {maxSize : UInt32}

/-- What the message says. -/
def message (m : ClientMessage maxSize) : WSFrameMessage := ⟨m.op, payload m.items⟩

/-- The bytes of the message. -/
def bytes (m : ClientMessage maxSize) : List UInt8 := wire m.items

/-- The call returns the message, and goes on behind it. -/
theorem recvMessage_eq (m : ClientMessage maxSize) {s : SocketStream} {rest : List UInt8}
    (hs : Ahead s (m.bytes ++ rest)) (hsends : s.SendsSucceed) :
    ∃ s', WSSession.recvMessage maxSize s = (.message m.message, s') ∧ Ahead s' rest ∧
      s'.SendsSucceed ∧ s'.sent = s.sent ++ pongs m.items := by
  have hopcode : (if (0 : Int) = 0 ∧ m.op ≠ WSFrameHead.CONTINUE then (m.op : Int) else 0) =
      m.op := by
    rcases m.opcode with h | h <;> rw [h] <;> rfl
  have hfuel : m.items.length ≤ s.pending + 1 := Nat.le_succ_of_le (items_le_pending hs)
  have hmax : ([] : List UInt8).length + (payload m.items).length < maxSize.toNat := by
    simpa using m.small
  obtain ⟨s', hrun, hs', hsent, -⟩ :=
    recvLoop_message m.isMessage (.inr m.opcode) hopcode [] hfuel hs hsends hmax m.fits
  have hleft := recvLoop_sendsLeft true maxSize (s.pending + 1) Acc.init s
  refine ⟨s', hrun, hs', ?_, hsent⟩
  rw [Acc.init_eq, hrun] at hleft
  exact hleft.sendsSucceed hsends

end ClientMessage

/-- The client says no more: the stream ends, or a CLOSE frame comes. -/
def Leaving (tail : List UInt8) : Prop :=
  tail = [] ∨ ∃ (f : Frame) (rest : List UInt8), tail = f.wire ++ rest ∧
    f.opcode = WSFrameHead.CLOSE

/-- At the end of the stream the session is closed, and nothing is sent. -/
theorem recvRound_none {s : SocketStream} (hs : Ahead s []) (requireMask : Bool)
    (maxSize : UInt32) (acc : Acc) :
    ∃ s', recvRound requireMask maxSize acc s = .leave s' ∧ s'.sent = s.sent := by
  have hread : (s.readFixedSize 2).1 ≤ 0 :=
    readFixedSize_none (by decide) (by decide) hs.available_eq
  refine ⟨(s.readFixedSize 2).2.2, ?_, (readFixedSize_silent s 2).2⟩
  rw [recvRound]
  exact if_pos hread

/-- A client that says no more gets the session closed, and nothing is sent. -/
theorem recvMessage_leaving {s : SocketStream} {tail : List UInt8} (hend : Leaving tail)
    (hs : Ahead s tail) (maxSize : UInt32) :
    ∃ s', WSSession.recvMessage maxSize s = (.null, s') ∧ s'.connected = false ∧
      s'.sent = s.sent := by
  have hleave : ∃ s', recvRound true maxSize Acc.init s = .leave s' ∧ s'.sent = s.sent := by
    rcases hend with rfl | ⟨f, rest, rfl, hop⟩
    · exact recvRound_none hs true maxSize Acc.init
    · obtain ⟨s', hround, -, hadv, -⟩ := recvRound_head true maxSize Acc.init hs
      have hhead : f.head.opcode = WSFrameHead.CLOSE := hop
      refine ⟨s', ?_, hadv.sent_eq⟩
      rw [hround, recvFrame, hhead, if_neg (by decide), if_neg (by decide), if_neg (by decide),
        if_pos rfl]
  obtain ⟨s', hround, hsent⟩ := hleave
  refine ⟨s'.close, ?_, rfl, hsent⟩
  rw [WSSession.recvMessage, recvMessage, recvLoop, hround]

/-! ## Runs -/

/-- The service for messages one behind the other, with the PONGs in front of every answer. -/
def Service.run (svc : Service σ) {maxSize : UInt32} :
    List (ClientMessage maxSize) → σ → List UInt8 × σ
  | [], a => ([], a)
  | m :: ms, a =>
      let r := svc.answer m.message a
      let rest := svc.run ms r.2
      (pongs m.items ++ r.1 ++ rest.1, rest.2)

section Runs

variable {slt : WSServlet σ} {svc : Service σ} {header : HTTPRequest}
  {kind : WSFrameMessage → Prop} {maxSize : UInt32}

/-- Messages one behind the other are handled in order, until the client says no more. -/
theorem messageLoop_messages (hgives : slt.Gives svc header kind) {tail : List UInt8}
    (hend : Leaving tail) {ms : List (ClientMessage maxSize)} (hkind : ∀ m ∈ ms, kind m.message)
    {fuel : Nat} (hfuel : ms.length < fuel) {s : SocketStream}
    (hs : Ahead s (ms.flatMap ClientMessage.bytes ++ tail)) (hsends : s.SendsSucceed) (a : σ) :
    ∃ s', messageLoop slt maxSize header fuel s a =
        (ms.map ClientMessage.message, .ok (s', (svc.run ms a).2)) ∧
      s'.connected = false ∧ s'.sent = s.sent ++ (svc.run ms a).1 := by
  induction ms generalizing fuel s a with
  | nil =>
      obtain ⟨fuel, rfl⟩ : ∃ n, fuel = n + 1 := ⟨fuel - 1, by simp at hfuel; omega⟩
      obtain ⟨s', hrecv, hclosed, hsent⟩ := recvMessage_leaving hend hs maxSize
      refine ⟨s', ?_, hclosed, ?_⟩
      · rw [messageLoop, hrecv]
        rfl
      · rw [hsent, Service.run, List.append_nil]
  | cons m ms ih =>
      obtain ⟨fuel, rfl⟩ : ∃ n, fuel = n + 1 := ⟨fuel - 1, by simp at hfuel; omega⟩
      rw [List.flatMap_cons, List.append_assoc] at hs
      obtain ⟨hfirst, hothers⟩ := List.forall_mem_cons.mp hkind
      obtain ⟨s₁, hrecv, hs₁, hsends₁, hsent₁⟩ := m.recvMessage_eq hs hsends
      obtain ⟨hrt, hput, hstate⟩ := hgives.handle m.message hfirst s₁ a hs₁.connected hsends₁
      -- the answer leaves the stream in front of the other messages
      have hs₂ : Ahead (slt.handle header m.message s₁ a).session
          (ms.flatMap ClientMessage.bytes ++ tail) :=
        ⟨hput.reader.connected_eq.trans hs₁.connected,
          by rw [hput.reader.incoming_eq, hs₁.available_eq]⟩
      obtain ⟨s', hloop, hclosed, hsent⟩ :=
        ih hothers (Nat.lt_of_succ_lt_succ hfuel) hs₂ hput.sendsSucceed (svc.answer m.message a).2
      refine ⟨s', ?_, hclosed, ?_⟩
      · rw [messageLoop, hrecv]
        simp only [hrt, ne_eq, not_true_eq_false, if_false, hstate, hloop]
        rfl
      · rw [hsent, hput.sent_eq, hsent₁, Service.run]
        simp only [List.append_assoc]

end Runs

/-! ## The handshake -/

/-- The checks of `handle_shake`. -/
def Upgradable (castInt : Text → Option Int) (req : HTTPRequest) : Prop :=
  caseKey (req.getHeader upgradeName) = caseKey websocketText ∧
    caseKey (req.getHeader connectionName) = caseKey upgradeName ∧
    req.getHeaderAsInt castInt secVersionName = 13 ∧ req.getHeader secKeyName ≠ []

/-- A handshake that the first read fits is answered, and the stream is behind it. -/
theorem handleShake_whole {env : Env} {castInt : Text → Option Int} {sha1 : Digester}
    {accept : Text} {q : WireRequest env} {rest : Text} {s : SocketStream} {bufferSize : Nat}
    (hs : CutStream s (q.bytes ++ rest)) (hfits : q.Fits bufferSize s)
    (hupgrade : Upgradable castInt q.request)
    (haccept : sha1.accept (q.request.getHeader secKeyName) = some accept) (fuel : Nat) :
    recvRequest env bufferSize (fuel + 1) s = (.request q.request, s.skip q.bytes.length) ∧
      handleShake env castInt sha1 bufferSize (fuel + 1) s =
        .upgraded q.request (upgradeResponse accept q.request) := by
  have hlen := q.bytes_length
  rcases hfits with ⟨hfirst, hend, hfull, hsmall, hint⟩
  rw [hlen] at hint
  have hmax : max (s.readLength bufferSize) (q.header.length + q.body.length) = q.bytes.length := by
    omega
  have hrecv := recvRequest_whole q.isMessage hs hfirst hfull hsmall hint fuel
  rw [hmax] at hrecv
  rcases hupgrade with ⟨hupgradeField, hconnection, hversion, hkey⟩
  refine ⟨hrecv, ?_⟩
  rw [handleShake, hrecv]
  simp [hupgradeField, hconnection, hversion, hkey, haccept]

/-! ## The whole connection -/

/-- A connection is a run of the service.  Behind a handshake that the first read fits, the client
sends messages in any frames, with PINGs and PONGs in between, and any cutting; then the servlet is
told of the connection, of each message once and in order, and of the end, its state is that of the
service, and what was sent is the response to the handshake and what the service says. -/
theorem handleClient_gives (h : Host σ) {slt : WSServlet σ} {svc : Service σ}
    {q : WireRequest h.env} {ms : List (ClientMessage h.maxSize)} {tail : List UInt8}
    {s : SocketStream} (hs : CutStream s (q.bytes ++ (ms.flatMap ClientMessage.bytes ++ tail)))
    (hsends : s.SendsSucceed) (hfits : q.Fits h.bufferSize s)
    (hupgrade : Upgradable h.castInt q.request) {accept : Text}
    (haccept : h.sha1.accept (q.request.getHeader secKeyName) = some accept)
    (hlookup : ∃ rounds,
      getWSServlet h.dispatch h.fnmatch q.request.path rounds = some (some slt))
    (hgives : slt.Gives svc q.request (· ∈ ms.map ClientMessage.message)) (hend : Leaving tail)
    {fuel : Nat} (hfuel : ms.length < fuel) (a : σ) :
    ∃ s', handleClient h fuel s a =
        (.connect :: ms.map (fun m => .message m.message) ++ [.close],
          .ok (s', svc.leave (svc.run ms (svc.greet a).2).2)) ∧
      s'.connected = false ∧
      s'.sent = s.sent ++ (upgradeResponse accept q.request).dump ++ (svc.greet a).1 ++
        (svc.run ms (svc.greet a).2).1 := by
  obtain ⟨fuel, rfl⟩ : ∃ n, fuel = n + 1 := ⟨fuel - 1, by omega⟩
  obtain ⟨hrecv, hshake⟩ := handleShake_whole hs hfits hupgrade haccept fuel
  obtain ⟨rounds, hlookup⟩ := hlookup
  have hfound : getWSServlet h.dispatch h.fnmatch q.request.path (fuel + 1) = some (some slt) := by
    rw [getWSServlet, Option.map_eq_some_iff] at hlookup ⊢
    rcases hlookup with ⟨r, hr, hjoin⟩
    exact ⟨r, ServletDispatch.getMatchedServlet_succ hr fuel, hjoin⟩
  -- behind the handshake, and behind its response
  have hbehind := hs.skip q.bytes.length
  rw [List.drop_left] at hbehind
  obtain ⟨sends, hsend, hgood⟩ := writeFixedSize_spec (s := s.skip q.bytes.length) hs.connected
    hsends (upgradeResponse accept q.request).dump
  generalize hs₁ : (sendResponse (upgradeResponse accept q.request)
    (s.skip q.bytes.length)).2 = s₁
  have hs₁eq : s₁ = { s.skip q.bytes.length with
      sends := sends
      sent := s.sent ++ (upgradeResponse accept q.request).dump } := by
    rw [← hs₁, sendResponse, hsend]
    rfl
  have hconn₁ : s₁.connected = true := by
    rw [hs₁eq]
    exact hs.connected
  have hgood₁ : s₁.SendsSucceed := by
    rw [hs₁eq]
    exact hgood
  obtain ⟨hrt, hput, hstate⟩ := hgives.onConnect s₁ a hconn₁ hgood₁
  have hahead : Ahead (slt.onConnect q.request s₁ a).session
      (ms.flatMap ClientMessage.bytes ++ tail) := by
    refine ⟨hput.reader.connected_eq.trans hconn₁, ?_⟩
    rw [hput.reader.incoming_eq, hs₁eq]
    exact hbehind.available_eq
  obtain ⟨s', hloop, hclosed, hsent⟩ := messageLoop_messages hgives hend
    (fun m hm => List.mem_map_of_mem hm) hfuel hahead hput.sendsSucceed (svc.greet a).2
  obtain ⟨hsentClose, hstateClose⟩ := hgives.onClose s' (svc.run ms (svc.greet a).2).2 hclosed
  refine ⟨(slt.onClose q.request s' (svc.run ms (svc.greet a).2).2).session.close, ?_, rfl, ?_⟩
  · rw [handleClient]
    simp only [hshake, hrecv, hfound, hs₁]
    rw [serveSession]
    simp only [hrt, ne_eq, not_true_eq_false, if_false, hstate, hloop, hstateClose, List.map_map]
    rfl
  · have hclose : (slt.onClose q.request s' (svc.run ms (svc.greet a).2).2).session.close.sent =
        (slt.onClose q.request s' (svc.run ms (svc.greet a).2).2).session.sent := rfl
    rw [hclose, hsentClose, hsent, hput.sent_eq, hs₁eq]

end WebSocket
end Tiger
