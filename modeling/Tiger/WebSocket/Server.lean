import Tiger.Http.Handshake
import Tiger.Http.Server
import Tiger.WebSocket.Lengths
import Tiger.WebSocket.Reassembly

/-!
# WebSocket - a server

This module embeds `WSServer::handle_client` (`src/servers/http/ws_server.cc`) and
`FunctionWSServlet` (`src/servers/http/ws_servlet.cc`): behind the handshake a servlet is told of
the connection, of every message, and of the end.  A servlet has a state of its own, and it may
use the session.  The embedding records the calls of the servlet.

Main results:

- Theorem `messageLoop_ends`: the loop over the messages ends on every stream.
- Theorem `serveSession_ends`: behind the handshake the server comes to an end on every stream, with
  the session closed, and tells its servlet of the end exactly when that took the connection.
-/

namespace Tiger
namespace WebSocket

open Http SocketStream

/-! ## Servlets -/

/-- What a call of a servlet leaves: its result, the session, and its own state. -/
structure Called (σ : Type) where
  rt : Int
  session : SocketStream
  state : σ

/-- A `WSServlet` with a state. -/
structure WSServlet (σ : Type) where
  /-- `on_connect(header, session)` -/
  onConnect : HTTPRequest → SocketStream → σ → Called σ
  /-- `on_close(header, session)` -/
  onClose : HTTPRequest → SocketStream → σ → Called σ
  /-- `handle(header, msg, session)` -/
  handle : HTTPRequest → WSFrameMessage → SocketStream → σ → Called σ

variable {σ : Type}

/-- `FunctionWSServlet`: an empty callback is not called, and the result of one that is called is
dropped. -/
def functionWSServlet (cb : Option (HTTPRequest → WSFrameMessage → SocketStream → σ → Called σ))
    (connectCb closeCb : Option (HTTPRequest → SocketStream → σ → Called σ)) : WSServlet σ where
  onConnect header s a := connectCb.elim ⟨0, s, a⟩ fun f => { f header s a with rt := 0 }
  onClose header s a := closeCb.elim ⟨0, s, a⟩ fun f => { f header s a with rt := 0 }
  handle header msg s a := cb.elim ⟨0, s, a⟩ fun f => { f header msg s a with rt := 0 }

/-- `WSServletDispatch::get_ws_servlet` after a number of rounds of its lookup.  A servlet of
another kind is `some none`; the cast makes a null pointer of it. -/
def getWSServlet (d : ServletDispatch (Option (WSServlet σ))) (fnmatch : String → String → Bool)
    (path : Text) (rounds : Nat) : Option (Option (WSServlet σ)) :=
  (d.getMatchedServlet fnmatch (pathString path) rounds).map Option.join

/-! ## The server -/

/-- A call of a servlet. -/
inductive Call
  | connect
  | message (msg : WSFrameMessage)
  | close
deriving DecidableEq

/-- Why `handle_client` does not return. -/
inductive Broken
  | abort
  | threw
  /-- undefined behaviour in `recv_message` or in `tiger::SHA1` -/
  | fault
  | outOfFuel
deriving DecidableEq

/-- The loop over the messages: the messages that were handled, and what the loop leaves. -/
def messageLoop (slt : WSServlet σ) (maxSize : UInt32) (header : HTTPRequest) :
    Nat → SocketStream → σ → List WSFrameMessage × Except Broken (SocketStream × σ)
  | 0, _, _ => ([], .error .outOfFuel)
  | fuel + 1, s, a =>
      match WSSession.recvMessage maxSize s with
      | (.null, s) => ([], .ok (s, a))
      | (.fault, _) => ([], .error .fault)
      | (.outOfFuel, _) => ([], .error .outOfFuel)
      | (.message msg, s) =>
          let r := slt.handle header msg s a
          if r.rt ≠ 0 then ([msg], .ok (r.session, r.state))
          else
            let rest := messageLoop slt maxSize header fuel r.session r.state
            (msg :: rest.1, rest.2)

/-- `handle_client` behind the handshake and the lookup. -/
def serveSession (slt : WSServlet σ) (maxSize : UInt32) (header : HTTPRequest) (fuel : Nat)
    (s : SocketStream) (a : σ) : List Call × Except Broken (SocketStream × σ) :=
  let c := slt.onConnect header s a
  if c.rt ≠ 0 then ([.connect], .ok (c.session.close, c.state))
  else
    let m := messageLoop slt maxSize header fuel c.session c.state
    match m.2 with
    | .error e => (.connect :: m.1.map .message, .error e)
    | .ok (s, a) =>
        let d := slt.onClose header s a
        (.connect :: m.1.map .message ++ [.close], .ok (d.session.close, d.state))

/-- What a server takes from outside. -/
structure Host (σ : Type) where
  env : Env
  /-- `boost::lexical_cast<int>` -/
  castInt : Text → Option Int
  /-- what `tiger::SHA1` depends on -/
  sha1 : Digester
  fnmatch : String → String → Bool
  bufferSize : Nat
  /-- `tiger.websocket.msgMaxSize` -/
  maxSize : UInt32
  /-- `m_dispatch` -/
  dispatch : ServletDispatch (Option (WSServlet σ))

/-- `handle_client(client)`, with `fuel` rounds for each of its loops. -/
def handleClient (h : Host σ) (fuel : Nat) (s : SocketStream) (a : σ) :
    List Call × Except Broken (SocketStream × σ) :=
  let received := (recvRequest h.env h.bufferSize fuel s).2
  match handleShake h.env h.castInt h.sha1 h.bufferSize fuel s with
  | .abort => ([], .error .abort)
  | .threw => ([], .error .threw)
  | .wild => ([], .error .fault)
  | .outOfFuel => ([], .error .outOfFuel)
  | .null => ([], .ok (received.close, a))
  | .upgraded header rsp =>
      let s := (sendResponse rsp received).2
      match getWSServlet h.dispatch h.fnmatch header.path fuel with
      | none => ([], .error .outOfFuel)
      | some none => ([], .ok (s.close, a))
      | some (some slt) => serveSession slt h.maxSize header fuel s a

/-! ## Sends that are left -/

/-- The sends that are still to come are the last ones of those before. -/
def SendsLeft (s s' : SocketStream) : Prop := s'.sends <:+ s.sends

theorem SendsLeft.refl (s : SocketStream) : SendsLeft s s := List.suffix_rfl

theorem SendsLeft.trans {s₁ s₂ s₃ : SocketStream} (h₁ : SendsLeft s₁ s₂) (h₂ : SendsLeft s₂ s₃) :
    SendsLeft s₁ s₃ :=
  List.IsSuffix.trans h₂ h₁

theorem SendsLeft.sendsSucceed {s s' : SocketStream} (h : SendsLeft s s')
    (hsends : s.SendsSucceed) : s'.SendsSucceed :=
  fun e he => hsends e (h.subset he)

/-- Nothing was sent from `s` to `s'`. -/
def Silent (s s' : SocketStream) : Prop := s'.sends = s.sends ∧ s'.sent = s.sent

theorem Silent.trans {s₁ s₂ s₃ : SocketStream} (h₁ : Silent s₁ s₂) (h₂ : Silent s₂ s₃) :
    Silent s₁ s₃ :=
  ⟨h₂.1.trans h₁.1, h₂.2.trans h₁.2⟩

/-- A read sends nothing. -/
theorem read_silent (s : SocketStream) (len : Nat) : Silent s (s.read len).2.2 := by
  unfold SocketStream.read
  split
  · exact ⟨rfl, rfl⟩
  · split
    · exact ⟨rfl, rfl⟩
    · exact ⟨rfl, rfl⟩
    · exact ⟨rfl, rfl⟩

/-- A fixed read sends nothing. -/
theorem readFixedLoop_silent (len fuel left : Nat) (got : List UInt8) (s : SocketStream) :
    Silent s (readFixedLoop len fuel left got s).2.2 := by
  induction fuel generalizing left got s with
  | zero => exact ⟨rfl, rfl⟩
  | succ fuel ih =>
      rw [readFixedLoop]
      split
      · exact ⟨rfl, rfl⟩
      · simp only
        split
        · exact read_silent s left
        · exact (read_silent s left).trans (ih _ _ _)

/-- Reading sends nothing. -/
theorem readFixedSize_silent (s : SocketStream) (len : Nat) :
    Silent s (s.readFixedSize len).2.2 := by
  rw [readFixedSize]
  split
  · exact readFixedLoop_silent _ _ _ _ s
  · exact ⟨rfl, rfl⟩

theorem readFixedSize_sendsLeft (s : SocketStream) (len : Nat) :
    SendsLeft s (s.readFixedSize len).2.2 := by
  rw [SendsLeft, (readFixedSize_silent s len).1]

/-- A write uses the next send. -/
theorem write_sendsLeft (s : SocketStream) (buf : List UInt8) : SendsLeft s (s.write buf).2 := by
  unfold SocketStream.write SendsLeft
  split
  · exact List.suffix_rfl
  · split
    · exact List.suffix_rfl
    · next rt rest hsends => exact hsends ▸ List.suffix_cons _ rest
    · next k rest hsends => exact hsends ▸ List.suffix_cons _ rest

/-- A fixed write uses some of the sends. -/
theorem writeFixedLoop_sendsLeft (len fuel : Nat) (buf : List UInt8) (s : SocketStream) :
    SendsLeft s (writeFixedLoop len fuel buf s).2 := by
  induction fuel generalizing buf s with
  | zero => exact .refl s
  | succ fuel ih =>
      rw [writeFixedLoop]
      split
      · exact .refl s
      · simp only
        split
        · exact write_sendsLeft s buf
        · exact (write_sendsLeft s buf).trans (ih _ _)

theorem writeFixedSize_sendsLeft (s : SocketStream) (buf : List UInt8) :
    SendsLeft s (s.writeFixedSize buf).2 :=
  writeFixedLoop_sendsLeft buf.length buf.length buf s

/-- A pong uses some of the sends. -/
theorem pong_sendsLeft (s : SocketStream) : SendsLeft s (pong s).2 := by
  have hwrite := writeFixedSize_sendsLeft s
    (controlHead WSFrameHead.PONG WSFrameHead.PONG_lt).toBytes
  rw [pong]
  split
  · exact hwrite
  · exact hwrite

/-- Reading a length uses no send. -/
theorem recvLength_sendsLeft (head : WSFrameHead) (s : SocketStream) :
    SendsLeft s (recvLength head s).2 := by
  unfold recvLength
  simp only
  split_ifs
  · exact readFixedSize_sendsLeft s 2
  · exact readFixedSize_sendsLeft s 2
  · exact readFixedSize_sendsLeft s 8
  · exact readFixedSize_sendsLeft s 8
  · exact .refl s

/-- Reading data uses no send. -/
theorem recvData_sendsLeft (maxSize : UInt32) (head : WSFrameHead) (acc : Acc)
    (s : SocketStream) : SendsLeft s (recvData maxSize head acc s).stream := by
  have hlength := recvLength_sendsLeft head s
  unfold recvData
  rcases hrun : recvLength head s with ⟨o, s₁⟩
  rw [hrun] at hlength
  cases o with
  | none => exact hlength
  | some length =>
      have hmask : SendsLeft s₁ (if head.mask then s₁.readFixedSize 4 else (1, [], s₁)).2.2 := by
        split
        · exact readFixedSize_sendsLeft s₁ 4
        · exact .refl s₁
      simp only
      generalize (if head.mask then s₁.readFixedSize 4 else (1, [], s₁)) = rm at hmask
      have hbody := readFixedSize_sendsLeft rm.2.2 length
      generalize rm.2.2.readFixedSize length = r at hbody
      have hall : SendsLeft s r.2.2 := (hlength.trans hmask).trans hbody
      split
      · exact hlength
      · split
        · exact hlength.trans hmask
        · split
          · exact hall
          · split
            · exact hall
            · generalize (if head.mask = true then unmask (Mask.ofBytes rm.2.1) _ acc.curLen
                (toInt32 length) else some _) = o
              cases o with
              | none => exact hall
              | some data =>
                  simp only
                  split
                  · exact hall
                  · exact hall

/-- A round uses only the sends of its pong. -/
theorem recvRound_sendsLeft (requireMask : Bool) (maxSize : UInt32) (acc : Acc)
    (s : SocketStream) : SendsLeft s (recvRound requireMask maxSize acc s).stream := by
  have hread := readFixedSize_sendsLeft s 2
  unfold recvRound
  simp only
  split
  · exact hread
  · refine hread.trans ?_
    unfold recvFrame
    simp only
    split_ifs
    · exact pong_sendsLeft _
    · exact pong_sendsLeft _
    · exact .refl _
    · exact .refl _
    · exact recvData_sendsLeft maxSize _ acc _
    · exact .refl _
    · exact .refl _

/-- What `recv_message` sends are PONGs; the sends behind them are left. -/
theorem recvLoop_sendsLeft (requireMask : Bool) (maxSize : UInt32) (fuel : Nat) (acc : Acc)
    (s : SocketStream) : SendsLeft s (recvLoop requireMask maxSize fuel acc s).2 := by
  induction fuel generalizing acc s with
  | zero => exact .refl s
  | succ fuel ih =>
      have hround := recvRound_sendsLeft requireMask maxSize acc s
      rw [recvLoop]
      cases hturn : recvRound requireMask maxSize acc s with
      | again acc' s' =>
          rw [hturn] at hround
          exact hround.trans (ih acc' s')
      | leave s' =>
          rw [hturn] at hround
          exact hround
      | done msg s' =>
          rw [hturn] at hround
          exact hround
      | fault s' =>
          rw [hturn] at hround
          exact hround

/-! ## Every stream -/

/-- The bytes that are still to come are those of the peer: no call of the servlet adds to them. -/
structure WSServlet.AddsNothing (slt : WSServlet σ) : Prop where
  onConnect : ∀ header s a, (slt.onConnect header s a).session.pending ≤ s.pending
  handle : ∀ header msg s a, (slt.handle header msg s a).session.pending ≤ s.pending

/-- A round that returns a message has used up bytes of the stream. -/
theorem recvRound_done_pending {requireMask : Bool} {maxSize : UInt32} {acc : Acc}
    {msg : WSFrameMessage} {s s' : SocketStream}
    (h : recvRound requireMask maxSize acc s = .done msg s') : s'.pending < s.pending := by
  unfold recvRound at h
  simp only at h
  split_ifs at h with hread
  have hframe := recvFrame_pending_le requireMask maxSize
    (WSFrameHead.ofBytes ((s.readFixedSize 2).2.1.getD 0 0) ((s.readFixedSize 2).2.1.getD 1 0))
    acc (s.readFixedSize 2).2.2
  rw [h] at hframe
  exact hframe.trans_lt (readFixedSize_pending_lt (by decide) (by decide) hread)

/-- A message takes bytes off the stream. -/
theorem recvLoop_message_pending {requireMask : Bool} {maxSize : UInt32} {fuel : Nat} {acc : Acc}
    {msg : WSFrameMessage} {s s' : SocketStream}
    (h : recvLoop requireMask maxSize fuel acc s = (.message msg, s')) :
    s'.pending < s.pending := by
  induction fuel generalizing acc s with
  | zero => cases h
  | succ fuel ih =>
      rw [recvLoop] at h
      cases hround : recvRound requireMask maxSize acc s with
      | again acc' s₁ =>
          rw [hround] at h
          exact (ih h).trans (recvRound_again_pending hround)
      | leave s₁ =>
          rw [hround] at h
          cases h
      | done msg' s₁ =>
          rw [hround] at h
          cases h
          exact recvRound_done_pending hround
      | fault s₁ =>
          rw [hround] at h
          cases h

/-- A message that is returned is below the maximum. -/
theorem recvMessage_size {maxSize : UInt32} (hmax : maxSize.toNat < 2 ^ 31) {requireMask : Bool}
    {msg : WSFrameMessage} {s s' : SocketStream}
    (h : recvMessage requireMask maxSize s = (.message msg, s')) :
    msg.data.length < maxSize.toNat := by
  have hstart : Rounds requireMask maxSize s [] Acc.init s := .start
  obtain ⟨lengths, acc, s₁, hrounds, hdone⟩ :=
    (recvLoop_keeps hmax (s.pending + 1) hstart).2 msg s' h
  obtain ⟨s₂, hleave⟩ | ⟨acc', s₂, hagain, -⟩ | ⟨msg', s₂, hdone', -, hsize⟩ :=
    recvRound_keeps hmax requireMask (hrounds.sound hmax) s₁
  · rw [hleave] at hdone
    cases hdone
  · rw [hagain] at hdone
    cases hdone
  · rw [hdone'] at hdone
    cases hdone
    exact hsize

/-- The loop over the messages ends: every message uses up bytes of the stream. -/
theorem messageLoop_ends {slt : WSServlet σ} (hadds : slt.AddsNothing) {maxSize : UInt32}
    (hmax : maxSize.toNat < 2 ^ 31) (header : HTTPRequest) {fuel : Nat} {s : SocketStream}
    (hfuel : s.pending < fuel) (a : σ) :
    ∃ msgs s' a', messageLoop slt maxSize header fuel s a = (msgs, .ok (s', a')) ∧
      ∀ msg ∈ msgs, msg.data.length < maxSize.toNat := by
  induction fuel generalizing s a with
  | zero => omega
  | succ fuel ih =>
      rcases hrecv : WSSession.recvMessage maxSize s with ⟨rcvd, s₁⟩
      cases rcvd with
      | null => exact ⟨[], s₁, a, by rw [messageLoop, hrecv], by simp⟩
      | fault =>
          have hstart : Rounds true maxSize s [] Acc.init s := .start
          have hsafe := (recvLoop_keeps hmax (s.pending + 1) hstart).1
          exact absurd (congrArg Prod.fst hrecv) hsafe
      | outOfFuel =>
          exact absurd (congrArg Prod.fst hrecv) (recvMessage_ne_outOfFuel true maxSize s)
      | message msg =>
          have hsize := recvMessage_size hmax hrecv
          have hless := recvLoop_message_pending hrecv
          have hle := hadds.handle header msg s₁ a
          by_cases hrt : (slt.handle header msg s₁ a).rt ≠ 0
          · exact ⟨[msg], _, _, by rw [messageLoop, hrecv]; exact if_pos hrt, by simpa using hsize⟩
          · have hleft : (slt.handle header msg s₁ a).session.pending < fuel := by omega
            obtain ⟨msgs, s', a', hrest, hsizes⟩ := ih hleft (slt.handle header msg s₁ a).state
            refine ⟨msg :: msgs, s', a', ?_, List.forall_mem_cons.mpr ⟨hsize, hsizes⟩⟩
            rw [messageLoop, hrecv]
            simp only [if_neg hrt, hrest]

/-- Behind the handshake the server comes to an end on every stream, with the session closed: the
servlet refuses the connection, or it is told of messages below the maximum and then, once, of the
end. -/
theorem serveSession_ends {slt : WSServlet σ} (hadds : slt.AddsNothing) {maxSize : UInt32}
    (hmax : maxSize.toNat < 2 ^ 31) (header : HTTPRequest) {fuel : Nat} {s : SocketStream}
    (hfuel : s.pending < fuel) (a : σ) :
    ∃ calls s' a', serveSession slt maxSize header fuel s a = (calls, .ok (s', a')) ∧
      s'.connected = false ∧
      ((slt.onConnect header s a).rt ≠ 0 ∧ calls = [.connect] ∨
        (slt.onConnect header s a).rt = 0 ∧
          ∃ msgs : List WSFrameMessage, calls = .connect :: msgs.map .message ++ [.close] ∧
            ∀ msg ∈ msgs, msg.data.length < maxSize.toNat) := by
  by_cases hrt : (slt.onConnect header s a).rt ≠ 0
  · exact ⟨_, _, _, by rw [serveSession]; exact if_pos hrt, rfl, .inl ⟨hrt, rfl⟩⟩
  · have hleft := (hadds.onConnect header s a).trans_lt hfuel
    obtain ⟨msgs, s', a', hloop, hsizes⟩ :=
      messageLoop_ends hadds hmax header hleft (slt.onConnect header s a).state
    refine ⟨_, (slt.onClose header s' a').session.close, (slt.onClose header s' a').state, ?_, rfl,
      .inr ⟨not_not.mp hrt, msgs, rfl, hsizes⟩⟩
    rw [serveSession]
    simp only [if_neg hrt, hloop]

/-- A servlet without callbacks. -/
def silentServlet : WSServlet Unit := functionWSServlet none none none

/-- A text frame, half a frame, and the end of the stream. -/
theorem serveSession_ends_silent : ∃ calls s' a',
    serveSession silentServlet 1024 HTTPRequest.fresh 12
      (wholeStream [0x81, 0x82, 1, 2, 3, 4, 105, 107, 0x81, 0x82, 1]) () = (calls, .ok (s', a')) ∧
    s'.connected = false ∧
    ((silentServlet.onConnect HTTPRequest.fresh
        (wholeStream [0x81, 0x82, 1, 2, 3, 4, 105, 107, 0x81, 0x82, 1]) ()).rt ≠ 0 ∧
        calls = [.connect] ∨
      (silentServlet.onConnect HTTPRequest.fresh
        (wholeStream [0x81, 0x82, 1, 2, 3, 4, 105, 107, 0x81, 0x82, 1]) ()).rt = 0 ∧
        ∃ msgs : List WSFrameMessage, calls = .connect :: msgs.map .message ++ [.close] ∧
          ∀ msg ∈ msgs, msg.data.length < (1024 : UInt32).toNat) :=
  serveSession_ends ⟨fun _ _ _ => le_rfl, fun _ _ _ _ => le_rfl⟩ (by decide) HTTPRequest.fresh
    (by decide) ()

end WebSocket
end Tiger
