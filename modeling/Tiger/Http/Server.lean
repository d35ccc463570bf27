import Tiger.Http.Dump
import Tiger.Http.Pipeline
import Tiger.Http.Servlet

/-!
# HTTP - a server

This module embeds `HTTPServer::handle_client` (`src/servers/http/http_server.cc`): one coroutine
receives the requests of a connection, has each answered by a servlet, and sends the response,
until a request asks for the connection to be closed.  A servlet may do to the request, the
response and the session what it likes.

Main results:

- Theorem `handleLoop_first`: one round of the loop on a request that the reads fit.
- Theorem `handleClient_iff`: on requests back to back the server is one that takes whole requests
  off the stream, and it returns only behind one that closes the connection.
- Theorem `Serves.sent_eq`: what it has sent are the responses, one for each request.
-/

namespace Tiger

namespace SocketStream

/-! ## Streams that read alike -/

/-- A stream that reads the same is cut the same. -/
theorem SameReader.cutStream {s s' : SocketStream} {bytes : List UInt8} (h : SameReader s s')
    (hs : CutStream s bytes) : CutStream s' bytes where
  connected := h.connected_eq.trans hs.connected
  pieces := h.incoming_eq ▸ hs.pieces
  available_eq := by rw [h.incoming_eq, hs.available_eq]

theorem SameReader.readLength_eq {s s' : SocketStream} (h : SameReader s s') (len : Nat) :
    s'.readLength len = s.readLength len :=
  readLength_congr h.connected_eq h.incoming_eq len

/-- Streams that read the same still do so behind a read. -/
theorem SameReader.skip {s s' : SocketStream} (h : SameReader s s') (n : Nat) :
    SameReader (s.skip n) (s'.skip n) where
  connected_eq := h.connected_eq
  incoming_eq := by rw [SocketStream.skip, SocketStream.skip, h.incoming_eq]
  consumed_eq := by rw [SocketStream.skip, SocketStream.skip, h.consumed_eq]

end SocketStream

namespace Http

open SocketStream

/-! ## Servlets -/

/-- `HTTPResponse::HTTPResponse(version, close)` -/
def OutResponse.new (version : Nat) (close : Bool) : OutResponse where
  status := 200
  version := version
  body := []
  reason := []
  headers := []
  close := close
  websocket := false
  cookies := []

/-- What `Servlet::handle` is called with; it may change all three. -/
structure ServletCall where
  request : HTTPRequest
  response : OutResponse
  session : SocketStream

/-- The `handle` of a servlet; what it returns is not looked at. -/
abbrev Servlet := ServletCall → ServletCall

/-- A line of the text of a missing page. -/
def pageLine (indent : Nat) (line : List Char) : Text := List.replicate indent 32 ++ text line

/-- `rsp_body` of `NotFoundServlet::handle`; the lines are joined in the source. -/
def notFoundPage : Text :=
  pageLine 0 ['<', 'h', 't', 'm', 'l', '>'] ++
  pageLine 12 ['<', 'h', 'e', 'a', 'd', '>'] ++
  pageLine 16 ['<', 't', 'i', 't', 'l', 'e', '>'] ++
  pageLine 20 ['4', '0', '4', ' ', 'N', 'o', 't', ' ', 'F', 'o', 'u', 'n', 'd'] ++
  pageLine 16 ['<', '/', 't', 'i', 't', 'l', 'e', '>'] ++
  pageLine 12 ['<', '/', 'h', 'e', 'a', 'd', '>'] ++
  pageLine 12 ['<', 'b', 'o', 'd', 'y', '>'] ++
  pageLine 16 ['<', 'c', 'e', 'n', 't', 'e', 'r', '>'] ++
  pageLine 20 ['<', 'h', '1', '>', '4', '0', '4', ' ', 'N', 'o', 't', ' ', 'F', 'o', 'u', 'n', 'd',
    '<', '/', 'h', '1', '>'] ++
  pageLine 16 ['<', '/', 'c', 'e', 'n', 't', 'e', 'r', '>'] ++
  pageLine 12 ['<', '/', 'b', 'o', 'd', 'y', '>'] ++
  pageLine 8 ['<', '/', 'h', 't', 'm', 'l', '>']

/-- `"Content-Type"` -/
def contentTypeName : Text :=
  text ['C', 'o', 'n', 't', 'e', 'n', 't', '-', 'T', 'y', 'p', 'e']

/-- `"Server"` -/
def serverName : Text := text ['S', 'e', 'r', 'v', 'e', 'r']

/-- `NotFoundServlet::handle` -/
def notFoundServlet : Servlet := fun c =>
  { c with response :=
    { c.response with
      status := 404
      headers := (c.response.headers.set contentTypeName
        (text ['t', 'e', 'x', 't', '/', 'h', 't', 'm', 'l'])).set serverName
        (text ['t', 'i', 'g', 'e', 'r', 'k', 'i', 'n', '/', '1', '.', '0', '.', '0'])
      body := notFoundPage } }

/-- A path as the key of a servlet. -/
def pathString (path : Text) : String := String.ofList (path.map fun b => Char.ofNat b.toNat)

/-- `ServletDispatch::handle` after a number of rounds of its lookup. -/
def ServletDispatch.apply (d : ServletDispatch Servlet) (fnmatch : String → String → Bool)
    (rounds : Nat) (c : ServletCall) : Option ServletCall :=
  (d.handle fnmatch (pathString c.request.path) rounds).map fun called =>
    called.foldl (fun c slt => slt c) c

/-- `HTTPSession::send_response(rsp)` -/
def sendResponse (rsp : OutResponse) (s : SocketStream) : Int × SocketStream :=
  s.writeFixedSize rsp.dump

/-! ## The server -/

/-- An `HTTPServer`. -/
structure HTTPServer where
  /-- `m_keepalive` -/
  keepalive : Bool
  /-- `m_dispatch` -/
  dispatch : ServletDispatch Servlet

/-- How `handle_client` ends. -/
inductive Served
  /-- it returns, with the session closed -/
  | returned (s : SocketStream)
  | abort
  | threw
  | outOfFuel

namespace HTTPServer

section Model

variable (server : HTTPServer) (env : Env) (fnmatch : String → String → Bool) (bufferSize : Nat)

/-- The response that a servlet is given. -/
def response (req : HTTPRequest) : OutResponse :=
  .new req.version (req.close || !server.keepalive)

/-- The loop of `handle_client`; `rounds` is for the loops inside it. -/
def handleLoop (rounds : Nat) : Nat → SocketStream → Served
  | 0, _ => .outOfFuel
  | fuel + 1, s =>
      match recvRequest env bufferSize rounds s with
      | (.null, s) => .returned s.close
      | (.abort, _) => .abort
      | (.threw, _) => .threw
      | (.outOfFuel, _) => .outOfFuel
      | (.request req, s) =>
          match server.dispatch.apply fnmatch rounds ⟨req, server.response req, s⟩ with
          | none => .outOfFuel
          | some c =>
              let s := (sendResponse c.response c.session).2
              if !server.keepalive || c.request.close then .returned s.close
              else handleLoop rounds fuel s

/-- `handle_client(client)`, with `fuel` rounds for each of its loops. -/
def handleClient (fuel : Nat) (s : SocketStream) : Served :=
  server.handleLoop env fnmatch bufferSize fuel fuel s

end Model

/-! ## Requests back to back -/

section Runs

variable (server : HTTPServer) {env : Env} (fnmatch : String → String → Bool)

/-- The servlet of the lookup has handled a request. -/
def Answers (req : HTTPRequest) (s : SocketStream) (c : ServletCall) : Prop :=
  ∃ rounds, server.dispatch.apply fnmatch rounds ⟨req, server.response req, s⟩ = some c

/-- The test behind the response. -/
def closes (c : ServletCall) : Bool := !server.keepalive || c.request.close

/-- A server that takes whole requests off the stream: it answers one after the other and leaves
behind the first one that closes the connection.  The responses are those that were sent. -/
inductive Serves :
    List (WireRequest env) → SocketStream → List OutResponse → SocketStream → Prop
  | last {q : WireRequest env} {qs : List (WireRequest env)} {s : SocketStream} {c : ServletCall}
      (answers : server.Answers fnmatch q.request (s.skip q.bytes.length) c)
      (closed : server.closes c = true) :
      Serves (q :: qs) s [c.response] (sendResponse c.response c.session).2.close
  | next {q : WireRequest env} {qs : List (WireRequest env)} {s s' : SocketStream}
      {c : ServletCall} {rsps : List OutResponse}
      (answers : server.Answers fnmatch q.request (s.skip q.bytes.length) c)
      (stays : server.closes c = false)
      (rest : Serves qs (sendResponse c.response c.session).2 rsps s') :
      Serves (q :: qs) s (c.response :: rsps) s'

/-- The servlets that a lookup may find. -/
def Registered (slt : Servlet) : Prop :=
  (∃ path, server.dispatch.datas path = some (some slt)) ∨
    (∃ entry ∈ server.dispatch.globs, entry.2 = some slt) ∨
      server.dispatch.defaultServlet = some slt

/-- No servlet takes bytes from the session or closes it. -/
def LeavesReader : Prop :=
  ∀ slt, server.Registered slt → ∀ c, SameReader c.session (slt c).session

end Runs

end HTTPServer

/-! ## Lookups -/

namespace ServletDispatch

/-- A lookup that ends does so in its first round. -/
theorem getMatchedServlet_succ {S : Type} {d : ServletDispatch S}
    {fnmatch : String → String → Bool} {path : String} {rounds : Nat} {r : Option S}
    (h : d.getMatchedServlet fnmatch path rounds = some r) (rounds' : Nat) :
    d.getMatchedServlet fnmatch path (rounds' + 1) = some r := by
  rcases getMatchedServlet_returns_iff.mp ⟨rounds, h⟩ with
    hexact | ⟨hexact, ⟨hglobs, rfl⟩ | ⟨entry, rest, hglobs, hmatch, rfl⟩⟩
  · simp only [getMatchedServlet, hexact]
  · simp [getMatchedServlet, hexact, hglobs, Lib.loop, lookupBody]
  · simp [getMatchedServlet, hexact, hglobs, hmatch, Lib.loop, lookupBody]

/-- More rounds do not change the servlet that was called. -/
theorem apply_succ {d : ServletDispatch Servlet} {fnmatch : String → String → Bool}
    {rounds : Nat} {c c' : ServletCall} (h : d.apply fnmatch rounds c = some c') (rounds' : Nat) :
    d.apply fnmatch (rounds' + 1) c = some c' := by
  simp only [ServletDispatch.apply, handle, Option.map_map] at h ⊢
  rcases Option.map_eq_some_iff.mp h with ⟨slt, hslt, rfl⟩
  rw [getMatchedServlet_succ hslt, Option.map_some]

/-- A lookup finds what is registered. -/
theorem registered_of_getMatchedServlet {S : Type} {d : ServletDispatch S}
    {fnmatch : String → String → Bool} {path : String} {rounds : Nat} {slt : S}
    (h : d.getMatchedServlet fnmatch path rounds = some (some slt)) :
    (∃ path, d.datas path = some (some slt)) ∨ (∃ entry ∈ d.globs, entry.2 = some slt) ∨
      d.defaultServlet = some slt := by
  rcases getMatchedServlet_returns_iff.mp ⟨rounds, h⟩ with
    hexact | ⟨-, ⟨-, hdefault⟩ | ⟨entry, rest, hglobs, -, hentry⟩⟩
  · exact .inl ⟨path, hexact⟩
  · exact .inr (.inr hdefault)
  · exact .inr (.inl ⟨entry, hglobs ▸ List.mem_cons_self, hentry⟩)

end ServletDispatch

namespace HTTPServer

variable {server : HTTPServer} {env : Env} {fnmatch : String → String → Bool} {bufferSize : Nat}

/-- The servlet is not run where there is none; one that is registered keeps the reader. -/
theorem LeavesReader.answers (hquiet : server.LeavesReader) {req : HTTPRequest} {s : SocketStream}
    {c : ServletCall} (h : server.Answers fnmatch req s c) : SameReader s c.session := by
  rcases h with ⟨rounds, h⟩
  simp only [ServletDispatch.apply, ServletDispatch.handle, Option.map_map] at h
  rcases Option.map_eq_some_iff.mp h with ⟨slt, hslt, rfl⟩
  cases slt with
  | none => exact ⟨rfl, rfl, rfl⟩
  | some slt =>
      exact hquiet slt (ServletDispatch.registered_of_getMatchedServlet hslt)
        ⟨req, server.response req, s⟩

end HTTPServer

/-! ## Rounds -/

/-- A request fits a stream that reads the same. -/
theorem fits_of_sameReader {env : Env} {q : WireRequest env} {bufferSize : Nat}
    {s s' : SocketStream} (h : SameReader s s') (hfits : q.Fits bufferSize s) :
    q.Fits bufferSize s' := by
  rw [WireRequest.Fits] at hfits ⊢
  rwa [h.readLength_eq]

/-- Requests that fit a stream fit one that reads the same. -/
theorem fitsAll_of_sameReader {env : Env} {bufferSize : Nat} {qs : List (WireRequest env)}
    {s s' : SocketStream} (h : SameReader s s') (hfits : FitsAll bufferSize qs s) :
    FitsAll bufferSize qs s' := by
  induction qs generalizing s s' with
  | nil => exact hfits
  | cons q qs ih => exact ⟨fits_of_sameReader h hfits.1, ih (h.skip _) hfits.2⟩

theorem sendResponse_sameReader (rsp : OutResponse) (s : SocketStream) :
    SameReader s (sendResponse rsp s).2 :=
  writeFixedSize_sameReader s rsp.dump

/-- At the end of the stream `recv_request` does not return. -/
theorem recvRequest_idle {s : SocketStream} (hs : CutStream s []) {bufferSize : Nat}
    (hfull : toInt32 bufferSize ≠ 0) (env : Env) (fuel : Nat) :
    recvRequest env bufferSize fuel s = (.outOfFuel, s) := by
  have hopen : (HTTPRequestParser.init env).isFinished = false := by
    change Lib.Ragel.isFinal (Lib.Ragel.start (RequestGrammar.main env.uriRelaxed)) = false
    cases env.uriRelaxed <;> decide
  rw [recvRequest, recvHeader_idle hs hfull rfl hopen]

namespace HTTPServer

variable {server : HTTPServer} {env : Env} {fnmatch : String → String → Bool} {bufferSize : Nat}

/-- One round on a request that the reads fit. -/
theorem handleLoop_first {q : WireRequest env} {rest : Text} {s : SocketStream}
    (hs : CutStream s (q.bytes ++ rest)) (hfits : q.Fits bufferSize s) (rounds fuel : Nat) :
    server.handleLoop env fnmatch bufferSize (rounds + 1) (fuel + 1) s =
      match server.dispatch.apply fnmatch (rounds + 1)
        ⟨q.request, server.response q.request, s.skip q.bytes.length⟩ with
      | none => .outOfFuel
      | some c =>
          if server.closes c then .returned (sendResponse c.response c.session).2.close
          else server.handleLoop env fnmatch bufferSize (rounds + 1) fuel
            (sendResponse c.response c.session).2 := by
  have hlen := q.bytes_length
  rcases hfits with ⟨hfirst, hend, hfull, hsmall, hint⟩
  rw [hlen] at hint
  have hmax : max (s.readLength bufferSize) (q.header.length + q.body.length) = q.bytes.length := by
    omega
  rw [handleLoop, recvRequest_whole q.isMessage hs hfirst hfull hsmall hint rounds, hmax]
  rfl

/-- Behind a request the stream is in front of the next ones, as far as reading goes. -/
theorem LeavesReader.next (hquiet : server.LeavesReader) {q : WireRequest env}
    {qs : List (WireRequest env)} {s : SocketStream} {c : ServletCall}
    (hanswers : server.Answers fnmatch q.request (s.skip q.bytes.length) c)
    (hs : CutStream s ((q :: qs).flatMap WireRequest.bytes))
    (hfits : FitsAll bufferSize (q :: qs) s) :
    CutStream (sendResponse c.response c.session).2 (qs.flatMap WireRequest.bytes) ∧
      FitsAll bufferSize qs (sendResponse c.response c.session).2 := by
  have hsame := (hquiet.answers hanswers).trans (sendResponse_sameReader c.response c.session)
  have hnext := hs.skip q.bytes.length
  rw [List.flatMap_cons, List.drop_left] at hnext
  exact ⟨hsame.cutStream hnext, fitsAll_of_sameReader hsame hfits.2⟩

/-! ## Runs -/

/-- As many rounds as responses are enough. -/
theorem Serves.handleLoop_eq (hquiet : server.LeavesReader) {qs : List (WireRequest env)}
    {s r : SocketStream} {rsps : List OutResponse} (h : server.Serves fnmatch qs s rsps r)
    (hs : CutStream s (qs.flatMap WireRequest.bytes)) (hfits : FitsAll bufferSize qs s)
    (rounds fuel : Nat) :
    server.handleLoop env fnmatch bufferSize (rounds + 1) (rsps.length + fuel) s = .returned r := by
  induction h generalizing fuel with
  | @last q qs s c answers closed =>
      rcases answers with ⟨k, hk⟩
      rw [List.length_singleton, Nat.add_comm 1 fuel, handleLoop_first hs hfits.1,
        ServletDispatch.apply_succ hk]
      simp only [closed, if_true]
  | @next q qs s s' c rsps answers stays rest ih =>
      have hnext := hquiet.next answers hs hfits
      rcases answers with ⟨k, hk⟩
      rw [List.length_cons, Nat.add_right_comm, handleLoop_first hs hfits.1,
        ServletDispatch.apply_succ hk]
      simp only [stays, Bool.false_eq_true, if_false]
      exact ih hnext.1 hnext.2 fuel

/-- The loop goes on or it has served the requests. -/
theorem handleLoop_cases (hquiet : server.LeavesReader) (hfull : toInt32 bufferSize ≠ 0)
    (rounds fuel : Nat) {qs : List (WireRequest env)} {s : SocketStream}
    (hs : CutStream s (qs.flatMap WireRequest.bytes)) (hfits : FitsAll bufferSize qs s) :
    server.handleLoop env fnmatch bufferSize rounds fuel s = .outOfFuel ∨
      ∃ rsps r, server.handleLoop env fnmatch bufferSize rounds fuel s = .returned r ∧
        server.Serves fnmatch qs s rsps r := by
  induction qs generalizing s fuel with
  | nil =>
      left
      cases fuel with
      | zero => rfl
      | succ fuel => rw [handleLoop, recvRequest_idle hs hfull]
  | cons q qs ih =>
      cases fuel with
      | zero => exact .inl rfl
      | succ fuel =>
          cases rounds with
          | zero => exact .inl rfl
          | succ rounds =>
              rw [handleLoop_first hs hfits.1]
              cases happly : server.dispatch.apply fnmatch (rounds + 1)
                  ⟨q.request, server.response q.request, s.skip q.bytes.length⟩ with
              | none => exact .inl rfl
              | some c =>
                  have hanswers : server.Answers fnmatch q.request (s.skip q.bytes.length) c :=
                    ⟨rounds + 1, happly⟩
                  simp only
                  cases hcloses : server.closes c with
                  | true => exact .inr ⟨_, _, by rw [if_pos rfl], .last hanswers hcloses⟩
                  | false =>
                      rw [if_neg Bool.false_ne_true]
                      have hnext := hquiet.next hanswers hs hfits
                      rcases ih fuel hnext.1 hnext.2 with hout | ⟨rsps, r, hrun, hserves⟩
                      · exact .inl hout
                      · exact .inr ⟨_, r, hrun, .next hanswers hcloses hserves⟩

/-! ## What is sent -/

/-- No servlet uses the session. -/
def AnswersOnly (server : HTTPServer) : Prop :=
  ∀ slt, server.Registered slt → ∀ c, (slt c).session = c.session

/-- Servlets that only answer leave what is read. -/
theorem AnswersOnly.leavesReader (h : server.AnswersOnly) : server.LeavesReader := by
  intro slt hslt c
  rw [h slt hslt c]
  exact ⟨rfl, rfl, rfl⟩

/-- Servlets that only answer leave the session. -/
theorem AnswersOnly.session_eq (h : server.AnswersOnly) {req : HTTPRequest} {s : SocketStream}
    {c : ServletCall} (hanswers : server.Answers fnmatch req s c) : c.session = s := by
  rcases hanswers with ⟨rounds, hanswers⟩
  simp only [ServletDispatch.apply, ServletDispatch.handle, Option.map_map] at hanswers
  rcases Option.map_eq_some_iff.mp hanswers with ⟨slt, hslt, rfl⟩
  cases slt with
  | none => rfl
  | some slt => exact h slt (ServletDispatch.registered_of_getMatchedServlet hslt) _

/-- The responses are sent one behind the other. -/
theorem Serves.sent_eq (honly : server.AnswersOnly) {qs : List (WireRequest env)}
    {s r : SocketStream} {rsps : List OutResponse} (h : server.Serves fnmatch qs s rsps r)
    (hconn : s.connected = true) (hsends : s.SendsSucceed) :
    r.sent = s.sent ++ rsps.flatMap OutResponse.dump := by
  induction h with
  | @last q qs s c answers closed =>
      obtain ⟨sends, hsend, -⟩ := writeFixedSize_spec (s := s.skip q.bytes.length) hconn hsends
        c.response.dump
      rw [sendResponse, honly.session_eq answers, hsend]
      simp [SocketStream.close, SocketStream.skip]
  | @next q qs s s' c rsps answers stays rest ih =>
      obtain ⟨sends, hsend, hgood⟩ := writeFixedSize_spec (s := s.skip q.bytes.length) hconn hsends
        c.response.dump
      rw [sendResponse, honly.session_eq answers, hsend] at ih
      rw [ih hconn hgood, List.flatMap_cons, List.append_assoc]
      rfl

/-- The requests that were answered were taken from the stream, and nothing else was. -/
theorem Serves.consumed_eq (hquiet : server.LeavesReader) {qs : List (WireRequest env)}
    {s r : SocketStream} {rsps : List OutResponse} (h : server.Serves fnmatch qs s rsps r) :
    r.connected = false ∧
      r.consumed = s.consumed + ((qs.take rsps.length).flatMap WireRequest.bytes).length := by
  induction h with
  | @last q qs s c answers closed =>
      have hsame := (hquiet.answers answers).trans (sendResponse_sameReader c.response c.session)
      refine ⟨rfl, ?_⟩
      rw [SocketStream.close]
      simp [hsame.consumed_eq, SocketStream.skip]
  | @next q qs s s' c rsps answers stays rest ih =>
      have hsame := (hquiet.answers answers).trans (sendResponse_sameReader c.response c.session)
      refine ⟨ih.1, ?_⟩
      rw [ih.2, hsame.consumed_eq, SocketStream.skip]
      simp only [List.length_cons, List.take_succ_cons, List.flatMap_cons, List.length_append]
      omega

/-! ## The whole connection -/

/-- Requests back to back, in any cutting that the reads fit: `handle_client` returns exactly when
one of them closes the connection and the lookups up to it end, and otherwise it goes on for ever.
When it returns the session is closed, exactly the requests up to that one were taken from the
stream, and servlets that leave the session alone have sent one response for each of them. -/
theorem handleClient_iff (server : HTTPServer) (env : Env) (fnmatch : String → String → Bool)
    {bufferSize : Nat} (hquiet : server.LeavesReader) (hfull : toInt32 bufferSize ≠ 0)
    {qs : List (WireRequest env)} {s : SocketStream}
    (hs : CutStream s (qs.flatMap WireRequest.bytes)) (hfits : FitsAll bufferSize qs s) :
    (∀ r, (∃ fuel, server.handleClient env fnmatch bufferSize fuel s = .returned r) ↔
        ∃ rsps, server.Serves fnmatch qs s rsps r) ∧
      ((¬∃ rsps r, server.Serves fnmatch qs s rsps r) →
        ∀ fuel, server.handleClient env fnmatch bufferSize fuel s = .outOfFuel) ∧
      ∀ rsps r, server.Serves fnmatch qs s rsps r → r.connected = false ∧
        r.consumed = s.consumed + ((qs.take rsps.length).flatMap WireRequest.bytes).length ∧
        (server.AnswersOnly → s.SendsSucceed →
          r.sent = s.sent ++ rsps.flatMap OutResponse.dump) := by
  refine ⟨fun r => ⟨?_, ?_⟩, ?_, ?_⟩
  · rintro ⟨fuel, hrun⟩
    rw [handleClient] at hrun
    rcases handleLoop_cases hquiet hfull fuel fuel hs hfits with hout | ⟨rsps, r', hrun', hserves⟩
    · rw [hout] at hrun
      cases hrun
    · rw [hrun'] at hrun
      cases hrun
      exact ⟨rsps, hserves⟩
  · rintro ⟨rsps, hserves⟩
    refine ⟨rsps.length + 1, ?_⟩
    exact hserves.handleLoop_eq hquiet hs hfits rsps.length 1
  · intro hnone fuel
    rcases handleLoop_cases hquiet hfull fuel fuel hs hfits with hout | ⟨rsps, r, -, hserves⟩
    · exact hout
    · exact absurd ⟨rsps, r, hserves⟩ hnone
  · intro rsps r hserves
    rcases hserves.consumed_eq hquiet with ⟨hclosed, hconsumed⟩
    exact ⟨hclosed, hconsumed, fun honly hsends => hserves.sent_eq honly hs.connected hsends⟩

/-- A server on which no servlet is registered. -/
def notFoundServer (keepalive : Bool) : HTTPServer := ⟨keepalive, .new notFoundServlet⟩

/-- The server without servlets has only the default one. -/
theorem notFoundServer_registered {keepalive : Bool} {slt : Servlet}
    (h : (notFoundServer keepalive).Registered slt) : slt = notFoundServlet := by
  rcases h with ⟨path, hexact⟩ | ⟨entry, hmem, -⟩ | hdefault
  · cases hexact
  · cases hmem
  · exact (Option.some.inj hdefault).symm

/-- The default servlet only answers. -/
theorem notFoundServer_answersOnly (keepalive : Bool) : (notFoundServer keepalive).AnswersOnly := by
  intro slt hslt c
  rw [notFoundServer_registered hslt]
  rfl

/-- A request without a connection field is the last one. -/
theorem handleClient_two :
    ∃ fuel r, (notFoundServer true).handleClient plainEnv (fun _ _ => false) 4096 fuel
      (ofCuts [putOne.bytes, getRequest.bytes]) = .returned r := by
  have hs : CutStream (ofCuts [putOne.bytes, getRequest.bytes])
      ([putOne, getRequest].flatMap WireRequest.bytes) := ofCuts_cutStream (by decide)
  have hfits : FitsAll 4096 [putOne, getRequest] (ofCuts [putOne.bytes, getRequest.bytes]) :=
    ⟨⟨by decide, by decide, by decide, by decide⟩, ⟨by decide, by decide, by decide, by decide⟩,
      trivial⟩
  have hall := handleClient_iff (notFoundServer true) plainEnv (fun _ _ => false)
    (notFoundServer_answersOnly true).leavesReader (by decide) hs hfits
  obtain ⟨fuel, hfuel⟩ := (hall.1 _).mpr ⟨_, .last ⟨1, rfl⟩ rfl⟩
  exact ⟨fuel, _, hfuel⟩

end HTTPServer

end Http
end Tiger
