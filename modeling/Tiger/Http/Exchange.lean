import Tiger.Http.ContentLength
import Tiger.Http.ResponseRoundTrip
import Tiger.Http.Server

/-!
# HTTP - requests and their responses

Both ends of a connection: a client that sends its requests with `HTTPConnectionPool::request`
(`src/servers/http/http_connection.cc`), one after the other on one connection, and a server in
`HTTPServer::handle_client`.  What one end has sent reaches the other in pieces.

Main results:

- Theorem `Sendable.isMessage`: the text of a request is a message, and what the server receives
  is the request that was sent, with the fields that `dump` derives.
- Theorem `Conforms.recvResponse_skip`: the receiver of a response takes its bytes and no others.
- Theorem `exchanges_answered`: every call of the client returns the response that the servlet of
  its request has made.
-/

namespace Tiger
namespace Http

open Lib.Ragel SocketStream

/-! ## Printed lengths -/

/-- A printed number is cast back. -/
theorem lexicalCastUInt64_printNat {n : Nat} (hn : n < 2 ^ 64) :
    lexicalCastUInt64 (printNat n) = some (UInt64.ofNat n) := by
  have hdigits : decimalDigits (printNat n) = some n := by
    rw [decimalDigits, if_pos, digitsValue_printNat]
    refine ⟨by simpa using printNat_ne_nil n, List.all_eq_true.mpr fun c hc => ?_⟩
    exact decide_eq_true (printNat_digit hc)
  have hdenotes : denotes (printNat n) = some (n : Int) := by
    have hsign : ∀ c ∈ printNat n, c ≠ 45 ∧ c ≠ 43 := by
      intro c hc
      have hrange := printNat_digit hc
      refine ⟨?_, ?_⟩
      · rintro rfl
        exact absurd hrange.1 (by decide)
      · rintro rfl
        exact absurd hrange.1 (by decide)
    cases hprint : printNat n with
    | nil => exact absurd hprint (printNat_ne_nil n)
    | cons c ds =>
        rw [hprint] at hdigits hsign
        have hc := hsign c List.mem_cons_self
        rw [denotes, hdigits]
        · rfl
        · intro ds' hds
          exact hc.1 (List.cons.inj hds).1
        · intro ds' hds
          exact hc.2 (List.cons.inj hds).1
  rw [lexicalCastUInt64, hdenotes]
  simp only [Int.natAbs_natCast, if_pos hn]
  congr 2
  omega

/-! ## The request on the wire -/

/-- A request as a client sends it: its parts are those of the grammar, no header name starts with
an end of line, and the fields that tell the length of the body are left to `dump`. -/
structure Sendable (r : OutRequest) : Prop where
  conforms : Conforms r
  ordered : r.headers.Ordered
  lineStart : NoLineStart r.headers
  length : ∀ e ∈ r.headers, caseKey e.1 ≠ caseKey contentLengthName
  websocket : r.websocket = false
  cookies : r.cookies = []
  small : ∀ data, r.dump = some data → data.length < 2 ^ 31

/-- The header of the text of a request. -/
def OutRequest.headText (r : OutRequest) : Text :=
  Http.headText ((httpMethodToString r.method).getD []) r (fieldsOf r ++ lengthFields r.body)

/-- The request that a server receives. -/
def OutRequest.received (r : OutRequest) : HTTPRequest :=
  { r.toHTTPRequest with headers := sentHeaders r }

/-- `init` reads the connection that `dump` has derived. -/
theorem OutRequest.init_received (r : OutRequest) (close : Bool) :
    ({ r.received with close := close } : HTTPRequest).init = r.received := by
  have hfind : (sentHeaders r).find
      (text ['c', 'o', 'n', 'n', 'e', 'c', 't', 'i', 'o', 'n']) =
        some (connectionValue r.close) := by
    have hset : ((printedHeaders false r.headers).set connectionName (connectionValue r.close)).find
        (text ['c', 'o', 'n', 'n', 'e', 'c', 't', 'i', 'o', 'n']) =
          some (connectionValue r.close) := by
      have hkey : caseKey (text ['c', 'o', 'n', 'n', 'e', 'c', 't', 'i', 'o', 'n']) =
          caseKey connectionName := by decide
      rw [FieldMap.find_eq_entry, FieldMap.entry_congr hkey, ← FieldMap.find_eq_entry]
      exact FieldMap.find_set_self _
    rw [sentHeaders]
    split
    · exact hset
    · rw [FieldMap.find_set_of_ne _ (by decide), hset]
  rw [HTTPRequest.init, OutRequest.received]
  simp only [hfind, Option.getD_some]
  have hvalue : ∀ b, (connectionValue b).isEmpty = false ∧ decide (caseKey (connectionValue b) ≠
      caseKey (text ['k', 'e', 'e', 'p', '-', 'a', 'l', 'i', 'v', 'e'])) = b := by decide
  simp only [(hvalue r.close).1, (hvalue r.close).2, Bool.false_eq_true, if_false]

namespace Sendable

variable {r : OutRequest}

/-- The method of a request that can be sent is printed. -/
theorem method_eq (h : Sendable r) :
    httpMethodToString r.method = some ((httpMethodToString r.method).getD []) := by
  rcases h.conforms.method with ⟨t, ht, -⟩
  rw [ht, Option.getD_some]

/-- A request that can be sent has a text. -/
theorem dump_eq (h : Sendable r) : r.dump = some (r.headText ++ r.body) := by
  rcases h.conforms.method with ⟨t, ht, -⟩
  have hdump : r.dump = some (t ++ (printLine r ++ (printConnection r ++
      ((printedHeaders r.websocket r.headers).flatMap headerLine ++
        (printCookies r.cookies ++ printBody r.body))))) := by
    rw [OutRequest.dump, ht, Option.map_some]
  rcases dump_eq_headText hdump h.cookies with ⟨method, hmethod, htext⟩
  rw [hdump, htext, OutRequest.headText, hmethod, Option.getD_some]

theorem text_length_lt (h : Sendable r) : (r.headText ++ r.body).length < 2 ^ 31 :=
  h.small _ h.dump_eq

/-- The printed fields are fields of header lines. -/
theorem isField (h : Sendable r) :
    ∀ e ∈ fieldsOf r ++ lengthFields r.body, HTTPRequestParser.IsField e := by
  intro e he
  rcases List.mem_append.mp he with he | he
  · exact h.conforms.isField he (not_lineStart_fieldsOf h.lineStart e he)
  · exact isField_length e he

/-- The length that the server finds is that of the body. -/
theorem contentLength_eq (h : Sendable r) {env : Env}
    (hcast : env.lexicalCast = lexicalCastUInt64) :
    contentLength env (sentHeaders r) = r.body.length := by
  have hsmall := h.text_length_lt
  rw [List.length_append] at hsmall
  by_cases hempty : r.body.isEmpty = true
  · have hfind : (sentHeaders r).find contentLengthName = none := by
      rw [sentHeaders, if_pos hempty, FieldMap.find_set_of_ne _ (by decide)]
      exact FieldMap.find_eq_none fun e he => (h.length e (mem_printedHeaders he)).symm
    rw [contentLength_getAs, getAs, hfind, List.isEmpty_iff.mp hempty]
    unfold toInt64
    simp
  · have hfind : (sentHeaders r).find contentLengthName = some (printNat r.body.length) := by
      rw [sentHeaders, if_neg hempty, FieldMap.find_set_self]
    rw [contentLength_getAs, getAs, hfind, hcast]
    simp only [lexicalCastUInt64_printNat (show r.body.length < 2 ^ 64 by omega), Option.getD_some]
    exact OutResponse.toInt64_ofNat (by omega)

/-- The text of a request is a message. -/
theorem isMessage (h : Sendable r) {env : Env} (hcast : env.lexicalCast = lexicalCastUInt64) :
    IsMessage env r.headText r.body r.received := by
  have hsmall := h.text_length_lt
  rw [List.length_append] at hsmall
  rcases exec_headText env (h.conforms.line h.method_eq) h.isField
    (at_store env.memory _) (show r.headText.length < 2 ^ 62 by omega) with ⟨ps, hexec, hps⟩
  have hheaders : ps.data.headers = sentHeaders r := by
    rw [hps.data, ← setAll_fields h.ordered h.websocket]
  refine ⟨isHeader_of_exec hexec hps.cs (by decide), by omega, ps, hexec, ?_, ?_, ?_⟩
  · rw [HTTPRequestParser.hasError, hps.ok, hps.cs]
    rfl
  · rw [hheaders, h.contentLength_eq hcast, Int.toNat_natCast]
  · rw [requestOf, hheaders, h.contentLength_eq hcast, hps.data,
      setAll_fields h.ordered h.websocket]
    by_cases hempty : r.body = []
    · rw [if_pos (by rw [hempty]; simp), ← r.init_received true, OutRequest.received, hempty]
      rfl
    · have hpos := List.length_pos_iff.mpr hempty
      rw [if_neg (by omega), ← r.init_received true]
      rfl

end Sendable

/-! ## The response on the wire -/

section Responses

variable {r : OutResponse} {bufferSize : Nat} {s : SocketStream} {rest : Text}

/-- The stream behind a read into the buffer. -/
theorem refill_stream {b b' : Buffered} (h : refill bufferSize b = .ok b') :
    b'.s = (b.s.read (bufferSize - b.len)).2.2 := by
  rw [refill] at h
  split at h
  · cases h
  · rw [← Except.ok.inj h]

/-- A call of the parser leaves the stream alone. -/
theorem parse_stream {chunck : Bool} {b b' : Buffered} (h : parse bufferSize chunck b = .ok b') :
    b'.s = b.s := by
  rw [parse] at h
  split at h
  · cases h
  · split at h
    · cases h
    · split at h
      · cases h
      · rw [← Except.ok.inj h]

/-- A header that the first round finishes. -/
theorem recvResponseHeader_one {b b' : Buffered} (h : recvResponseHeader bufferSize 1 b = .ok b') :
    b'.s = (b.s.read (bufferSize - b.len)).2.2 ∧
      ∀ fuel, recvResponseHeader bufferSize (fuel + 1) b = .ok b' := by
  rw [recvResponseHeader] at h
  cases hrefill : refill bufferSize b with
  | error e =>
      rw [hrefill] at h
      cases h
  | ok b₁ =>
      rw [hrefill] at h
      cases hparse : parse bufferSize false b₁ with
      | error e =>
          simp only [hparse] at h
          cases h
      | ok b₂ =>
          simp only [hparse, recvResponseHeader] at h
          split at h
          · next hfin =>
            cases h
            refine ⟨(parse_stream hparse).trans (refill_stream hrefill), fun fuel => ?_⟩
            rw [recvResponseHeader, hrefill]
            simp only [hparse, hfin, if_true]
          · cases h

/-- What is behind the header is the body, and the receiver takes what is missing of it. -/
theorem recvKnownLength_skip {env : ClientEnv} {b : Buffered} {body bytes : Text}
    (hlength : toInt64 (b.ps.getContentLength env) = body.length) (hsmall : body.length < 2 ^ 31)
    (hs : CutStream b.s bytes) (hlen : b.len ≤ body.length)
    (hbytes : body.length ≤ b.len + bytes.length) {b' : Buffered} {got : Text}
    (h : recvKnownLength env b = .ok (b', got)) : b'.s = b.s.skip (body.length - b.len) := by
  rw [recvKnownLength] at h
  simp only [hlength] at h
  split at h
  · next hzero =>
    have hnone : body.length - b.len = 0 := by omega
    cases h
    rw [hnone, hs.skip_zero]
  · rw [if_neg (by omega)] at h
    split at h
    · next hall =>
      have hnone : body.length - b.len = 0 := by omega
      cases h
      rw [hnone, hs.skip_zero]
    · have hleft : ((body.length : Int) - b.len).toNat = body.length - b.len := by omega
      rw [hleft, hs.readFixedSize_eq (by omega) (by omega)] at h
      simp only at h
      split at h
      · cases h
      · cases h
        rfl

/-- The receiver takes the bytes of the response from the stream, and no others. -/
theorem OutResponse.Conforms.recvResponse_skip (h : r.Conforms) (env : ClientEnv)
    (hsmall : r.dump.length < 2 ^ 31) (hcast : env.lexicalCast = lexicalCastUInt64)
    (hs : CutStream s (r.dump ++ rest)) (hfirst : r.headText.length ≤ s.readLength bufferSize)
    (hend : s.readLength bufferSize ≤ r.dump.length)
    (hroom : ((s.readLength bufferSize - r.headText.length : Nat) : Int) ≠ toInt32 bufferSize)
    (fuel : Nat) : recvResponse env bufferSize (fuel + 1) s =
      .ok ({ r.sent with body := r.decodedBody env }, s.skip r.dump.length) := by
  have hdump : r.dump.length = r.headText.length + r.body.length := by
    rw [h.dump_eq, List.length_append]
  have hbody : r.body.length < 2 ^ 31 := by omega
  have hprint : env.lexicalCast (printNat r.body.length) = some (UInt64.ofNat r.body.length) := by
    rw [hcast]
    exact lexicalCastUInt64_printNat (by omega)
  -- the value is that of `recvResponse_dump`, and the stream that of the two reads
  rcases h.recvResponse_dump env hsmall hprint hs hfirst hroom fuel with ⟨s', hrun⟩
  rcases h.recvHeader_dump hs hfirst hroom env.memory 0 with
    ⟨b, hheader, hdata, hplain, bytes, hbytes, hrest⟩
  rcases recvResponseHeader_one hheader with ⟨hstream, hrounds⟩
  simp only [Nat.sub_zero, hs.read_eq] at hstream
  have hlen := congrArg List.length hrest
  simp only [List.length_append, slice_length] at hlen
  have hbytesLen : bytes.length = r.dump.length + rest.length - s.readLength bufferSize := by
    have hskip := hs.skip (s.readLength bufferSize)
    rw [← hstream] at hskip
    rw [← hbytes.available_eq, hskip.available_eq, List.length_drop, List.length_append]
  rw [recvResponse, hrounds] at hrun ⊢
  simp only [hplain, Bool.false_eq_true, if_false] at hrun ⊢
  cases hknown : recvKnownLength env b with
  | error e => simp only [hknown] at hrun; cases hrun
  | ok got =>
      rcases got with ⟨b', body⟩
      have hskip := recvKnownLength_skip (h.contentLength_sent hdata hbody hprint) hbody hbytes
        (by omega) (by omega) hknown
      simp only [hknown] at hrun ⊢
      have hvalue := (Prod.mk.inj (Except.ok.inj hrun)).1
      rw [hvalue, hskip, hstream, hs.skip_skip]
      congr 3
      omega

end Responses

/-! ## The client -/

/-- What a call of the client returns: a response, or the error code. -/
inductive HTTPResult
  | ok (rsp : HTTPResponse)
  | sendCloseByPeer
  | sendSocketError
  | timeout
deriving DecidableEq

/-- `HTTPConnectionPool::request(req, timeout)` on the connection that the pool has given out. -/
def request (env : ClientEnv) (bufferSize fuel : Nat) (req : OutRequest) (s : SocketStream) :
    Except HTTPResponseParser.Failure (HTTPResult × SocketStream) :=
  match req.dump with
  | none => .error .wild
  | some data =>
      let r := s.writeFixedSize data
      if r.1 = 0 then .ok (.sendCloseByPeer, r.2)
      else if r.1 < 0 then .ok (.sendSocketError, r.2)
      else
        match recvResponse env bufferSize fuel r.2 with
        | .error (.null s) => .ok (.timeout, s)
        | .error e => .error e
        | .ok (rsp, s) => .ok (.ok rsp, s)

/-- Calls one after the other on one connection. -/
def requests (env : ClientEnv) (bufferSize fuel : Nat) :
    List OutRequest → SocketStream →
      Except HTTPResponseParser.Failure (List HTTPResult × SocketStream)
  | [], s => .ok ([], s)
  | req :: reqs, s =>
      match request env bufferSize fuel req s with
      | .error e => .error e
      | .ok (res, s) =>
          match requests env bufferSize fuel reqs s with
          | .error e => .error e
          | .ok (ress, s) => .ok (res :: ress, s)

/-- In front of every response the next read has its header and nothing from behind its body. -/
def RepliesFit (bufferSize : Nat) : List OutResponse → SocketStream → Prop
  | [], _ => True
  | r :: rs, s => r.headText.length ≤ s.readLength bufferSize ∧
      s.readLength bufferSize ≤ r.dump.length ∧
      ((s.readLength bufferSize - r.headText.length : Nat) : Int) ≠ toInt32 bufferSize ∧
      RepliesFit bufferSize rs (s.skip r.dump.length)

/-- Whether replies fit depends on the bytes to read only. -/
theorem repliesFit_of_sameReader {bufferSize : Nat} {rs : List OutResponse} {s s' : SocketStream}
    (h : SameReader s s') (hfits : RepliesFit bufferSize rs s) : RepliesFit bufferSize rs s' := by
  induction rs generalizing s s' with
  | nil => exact hfits
  | cons r rs ih =>
      rw [RepliesFit] at hfits ⊢
      rw [h.readLength_eq]
      exact ⟨hfits.1, hfits.2.1, hfits.2.2.1, ih (h.skip _) hfits.2.2.2⟩

/-- The bytes of a request. -/
def OutRequest.bytes (r : OutRequest) : Text := r.headText ++ r.body

/-- What the client makes of a response. -/
def OutResponse.delivered (env : ClientEnv) (r : OutResponse) : HTTPResponse :=
  { r.sent with body := r.decodedBody env }

/-- A response that can be read back. -/
structure OutResponse.Readable (r : OutResponse) : Prop where
  conforms : r.Conforms
  small : r.dump.length < 2 ^ 31

/-- One call in front of its response. -/
theorem request_answered {env : ClientEnv} {bufferSize : Nat} {req : OutRequest}
    {rsp : OutResponse} {s : SocketStream} {rest : Text} (hreq : Sendable req)
    (hrsp : rsp.Readable) (hcast : env.lexicalCast = lexicalCastUInt64)
    (hs : CutStream s (rsp.dump ++ rest)) {rsps : List OutResponse}
    (hfits : RepliesFit bufferSize (rsp :: rsps) s) (hsends : s.SendsSucceed) (fuel : Nat) :
    ∃ s', request env bufferSize (fuel + 1) req s = .ok (.ok (rsp.delivered env), s') ∧
      s'.sent = s.sent ++ req.bytes ∧ CutStream s' rest ∧ RepliesFit bufferSize rsps s' ∧
      s'.SendsSucceed := by
  obtain ⟨sends, hwrite, hgood⟩ := writeFixedSize_spec hs.connected hsends req.bytes
  have hpos : 0 < req.bytes.length := by simp [OutRequest.bytes, OutRequest.headText, headText]
  have hint : toInt32 req.bytes.length = req.bytes.length := toInt32_of_lt hreq.text_length_lt
  have hsame : SameReader s { s with sends := sends, sent := s.sent ++ req.bytes } :=
    ⟨rfl, rfl, rfl⟩
  have hcut := hsame.cutStream hs
  have hfits' := repliesFit_of_sameReader hsame hfits
  have hrecv := hrsp.conforms.recvResponse_skip env hrsp.small hcast hcut hfits'.1 hfits'.2.1
    hfits'.2.2.1 fuel
  have hnext := hcut.skip rsp.dump.length
  rw [List.drop_left] at hnext
  refine ⟨_, ?_, rfl, hnext, hfits'.2.2.2, hgood⟩
  have hdump : req.dump = some req.bytes := hreq.dump_eq
  rw [request, hdump]
  simp only [hwrite, hint]
  rw [if_neg (by omega), if_neg (by omega), hrecv]
  rfl

/-- All calls, in front of their responses. -/
theorem requests_answered {env : ClientEnv} {bufferSize : Nat} {reqs : List OutRequest}
    {rsps : List OutResponse} {s : SocketStream} (hreqs : ∀ req ∈ reqs, Sendable req)
    (hrsps : ∀ rsp ∈ rsps, rsp.Readable) (hlen : reqs.length = rsps.length)
    (hcast : env.lexicalCast = lexicalCastUInt64)
    (hs : CutStream s (rsps.flatMap OutResponse.dump)) (hfits : RepliesFit bufferSize rsps s)
    (hsends : s.SendsSucceed) (fuel : Nat) :
    ∃ s', requests env bufferSize (fuel + 1) reqs s =
        .ok (rsps.map fun rsp => .ok (rsp.delivered env), s') ∧
      s'.sent = s.sent ++ reqs.flatMap OutRequest.bytes := by
  induction reqs generalizing rsps s with
  | nil =>
      cases rsps with
      | nil => exact ⟨s, rfl, by simp⟩
      | cons rsp rsps => simp at hlen
  | cons req reqs ih =>
      cases rsps with
      | nil => simp at hlen
      | cons rsp rsps =>
          rw [List.flatMap_cons] at hs
          rcases request_answered (hreqs req List.mem_cons_self) (hrsps rsp List.mem_cons_self)
            hcast hs hfits hsends fuel with ⟨s₁, hrun, hsent, hs₁, hfits₁, hsends₁⟩
          rcases ih (fun q hq => hreqs q (List.mem_cons_of_mem _ hq))
            (fun q hq => hrsps q (List.mem_cons_of_mem _ hq)) (by simpa using hlen) hs₁ hfits₁
            hsends₁ with ⟨s₂, hrest, hsent₂⟩
          refine ⟨s₂, ?_, ?_⟩
          · rw [requests, hrun]
            simp only [hrest, List.map_cons]
          · rw [hsent₂, hsent, List.flatMap_cons, List.append_assoc]

/-! ## The server -/

namespace HTTPServer

variable {server : HTTPServer} {env : Env} {fnmatch : String → String → Bool}

/-- Every servlet fills the response in and leaves the rest alone, and the response can be read
back. -/
structure FillsResponse (server : HTTPServer) : Prop where
  request_eq : ∀ slt, server.Registered slt → ∀ c, (slt c).request = c.request
  session_eq : server.AnswersOnly
  readable : ∀ slt, server.Registered slt → ∀ c, HTTPRequestParser.isVersion c.request.version →
    c.response = server.response c.request → (slt c).response.Readable

/-- The lookup for a request ends. -/
def LooksUp (server : HTTPServer) (fnmatch : String → String → Bool) (req : HTTPRequest) : Prop :=
  ∃ rounds slt, server.dispatch.getMatchedServlet fnmatch (pathString req.path) rounds = some slt

/-- A servlet has made the response for the request. -/
def Replies (server : HTTPServer) (fnmatch : String → String → Bool) (req : HTTPRequest)
    (rsp : OutResponse) : Prop :=
  ∃ s c, server.Answers fnmatch req s c ∧ c.response = rsp

/-- A request that is looked up is answered. -/
theorem LooksUp.answers {req : HTTPRequest} (h : server.LooksUp fnmatch req) (s : SocketStream) :
    ∃ c, server.Answers fnmatch req s c := by
  rcases h with ⟨rounds, slt, hslt⟩
  refine ⟨slt.toList.foldl (fun c slt => slt c) ⟨req, server.response req, s⟩, rounds, ?_⟩
  rw [ServletDispatch.apply, ServletDispatch.handle, hslt]
  rfl

/-- The request that was answered is the one that came. -/
theorem FillsResponse.request_of_answers (hfills : server.FillsResponse) {req : HTTPRequest}
    {s : SocketStream} {c : ServletCall}
    (h : server.Answers fnmatch req s c) : c.request = req := by
  rcases h with ⟨rounds, h⟩
  simp only [ServletDispatch.apply, ServletDispatch.handle, Option.map_map] at h
  rcases Option.map_eq_some_iff.mp h with ⟨slt, hslt, rfl⟩
  cases slt with
  | none => rfl
  | some slt => exact hfills.request_eq slt (ServletDispatch.registered_of_getMatchedServlet hslt) _

/-- A response that no servlet has touched. -/
theorem response_readable (server : HTTPServer) {req : HTTPRequest}
    (h : HTTPRequestParser.isVersion req.version) :
    (server.response req).Readable where
  conforms :=
    { status_ge := show (-2 ^ 31 : Int) ≤ 200 by decide
      status_lt := show (200 : Int) < 2 ^ 31 by decide
      version := h
      reason := rfl
      ordered := List.Pairwise.nil
      name := by simp [response, OutResponse.new]
      value := by simp [response, OutResponse.new]
      length := by simp [response, OutResponse.new]
      encoding := by simp [response, OutResponse.new]
      websocket := rfl
      cookies := rfl }
  small := by
    rw [response]
    rcases h with hversion | hversion <;> rw [hversion] <;>
      cases (req.close || !server.keepalive) <;> decide

/-- A reply to a request can be read. -/
theorem FillsResponse.readable_of_replies (hfills : server.FillsResponse) {req : HTTPRequest}
    {rsp : OutResponse} (hversion : HTTPRequestParser.isVersion req.version)
    (h : server.Replies fnmatch req rsp) : rsp.Readable := by
  rcases h with ⟨s, c, ⟨rounds, h⟩, rfl⟩
  simp only [ServletDispatch.apply, ServletDispatch.handle, Option.map_map] at h
  rcases Option.map_eq_some_iff.mp h with ⟨slt, hslt, rfl⟩
  cases slt with
  | none => exact server.response_readable hversion
  | some slt =>
      exact hfills.readable slt (ServletDispatch.registered_of_getMatchedServlet hslt) _ hversion
        rfl

/-- All replies can be read. -/
theorem FillsResponse.readable_all (hfills : server.FillsResponse) {reqs : List HTTPRequest}
    {rsps : List OutResponse} (hversion : ∀ req ∈ reqs, HTTPRequestParser.isVersion req.version)
    (h : List.Forall₂ (server.Replies fnmatch) reqs rsps) : ∀ rsp ∈ rsps, rsp.Readable := by
  induction h with
  | nil => simp
  | cons hreply _ ih =>
      intro rsp hrsp
      rcases List.mem_cons.mp hrsp with rfl | hrsp
      · exact hfills.readable_of_replies (hversion _ List.mem_cons_self) hreply
      · exact ih (fun q hq => hversion q (List.mem_cons_of_mem _ hq)) rsp hrsp

/-- Requests that keep the connection, and one that closes it: the server answers all of them. -/
theorem FillsResponse.serves_all (hfills : server.FillsResponse) (hkeep : server.keepalive = true)
    {front : List (WireRequest env)} {last : WireRequest env}
    (hfront : ∀ q ∈ front, q.request.close = false) (hlast : last.request.close = true)
    (hlookups : ∀ q ∈ front ++ [last], server.LooksUp fnmatch q.request) (s : SocketStream) :
    ∃ rsps r, server.Serves fnmatch (front ++ [last]) s rsps r ∧
      List.Forall₂ (fun q rsp => server.Replies fnmatch q.request rsp) (front ++ [last]) rsps := by
  induction front generalizing s with
  | nil =>
      rcases (hlookups last (by simp)).answers (s.skip last.bytes.length) with ⟨c, hc⟩
      have hcloses : server.closes c = true := by
        rw [closes, hfills.request_of_answers hc, hlast, Bool.or_true]
      exact ⟨_, _, .last hc hcloses, .cons ⟨_, c, hc, rfl⟩ .nil⟩
  | cons q front ih =>
      rcases (hlookups q (by simp)).answers (s.skip q.bytes.length) with ⟨c, hc⟩
      have hstays : server.closes c = false := by
        rw [closes, hfills.request_of_answers hc, hkeep, hfront q List.mem_cons_self]
        rfl
      rcases ih (fun q' hq' => hfront q' (List.mem_cons_of_mem _ hq'))
        (fun q' hq' => hlookups q' (List.mem_cons_of_mem _ hq'))
        (sendResponse c.response c.session).2 with ⟨rsps, r, hserves, hreplies⟩
      exact ⟨_, r, .next hc hstays hserves, .cons ⟨_, c, hc, rfl⟩ hreplies⟩

end HTTPServer

/-! ## Both ends -/

/-- A request that a client may send. -/
abbrev ClientRequest := { r : OutRequest // Sendable r }

/-- The request as the server meets it. -/
def ClientRequest.wire (env : Env) (hcast : env.lexicalCast = lexicalCastUInt64)
    (q : ClientRequest) : WireRequest env :=
  ⟨q.1.headText, q.1.body, q.1.received, q.2.isMessage hcast⟩

/-- `smallRequest`, on a connection that is kept or not. -/
def smallSend (close : Bool) : OutRequest := { smallRequest with close := close }

/-- The sample request can be sent. -/
theorem smallSend_sendable (close : Bool) : Sendable (smallSend close) where
  conforms :=
    { method := smallRequest_conforms.method
      version := smallRequest_conforms.version
      path := smallRequest_conforms.path
      query := smallRequest_conforms.query
      fragment := smallRequest_conforms.fragment
      name := smallRequest_conforms.name
      value := smallRequest_conforms.value }
  ordered := List.pairwise_singleton _ _
  lineStart := by simp [NoLineStart, smallSend, smallRequest]; decide
  length := by simp [smallSend, smallRequest]; decide
  websocket := rfl
  cookies := rfl
  small := by
    intro data hdata
    cases close <;> cases hdata <;> decide

/-- `smallSend` as a request of a client. -/
def smallCall (close : Bool) : ClientRequest := ⟨smallSend close, smallSend_sendable close⟩

/-- The surroundings of a server that uses `boost::lexical_cast` only. -/
def castingServer : Env := ⟨false, fun _ => 0, lexicalCastUInt64⟩

/-- The surroundings of a client that uses `boost::lexical_cast` only. -/
def castingClient64 : ClientEnv := ⟨fun _ => 0, lexicalCastUInt64, id, id⟩

/-- The fields of a missing page. -/
def notFoundHeaders : FieldMap :=
  [(contentTypeName, text ['t', 'e', 'x', 't', '/', 'h', 't', 'm', 'l']),
    (serverName, text ['t', 'i', 'g', 'e', 'r', 'k', 'i', 'n', '/', '1', '.', '0', '.', '0'])]

/-- The response for a missing page. -/
def missingPage (version : Nat) (close : Bool) : OutResponse :=
  { OutResponse.new version close with
    status := 404
    headers := notFoundHeaders
    body := notFoundPage }

/-- The servlet for missing pages fills the response with its page. -/
theorem notFoundServlet_response {c : ServletCall} {version : Nat} {close : Bool}
    (h : c.response = .new version close) :
    (notFoundServlet c).response = missingPage version close := by
  have hset : ((FieldMap.set contentTypeName (text ['t', 'e', 'x', 't', '/', 'h', 't', 'm', 'l'])
      []).set serverName (text ['t', 'i', 'g', 'e', 'r', 'k', 'i', 'n', '/', '1', '.', '0', '.',
        '0'])) = notFoundHeaders := by decide
  rw [notFoundServlet, h]
  simp only [OutResponse.new, hset, missingPage]

/-- The missing page can be read back. -/
theorem notFoundServlet_readable {c : ServletCall} {version : Nat} {close : Bool}
    (hversion : HTTPRequestParser.isVersion version) (h : c.response = .new version close) :
    (notFoundServlet c).response.Readable := by
  rw [notFoundServlet_response h]
  refine ⟨?_, ?_⟩
  · exact {
      status_ge := show (-2 ^ 31 : Int) ≤ 404 by decide
      status_lt := show (404 : Int) < 2 ^ 31 by decide
      version := hversion
      reason := rfl
      ordered := show notFoundHeaders.Ordered by simp [FieldMap.Ordered, notFoundHeaders]; decide
      name := show ∀ e ∈ notFoundHeaders, _ by decide
      value := show ∀ e ∈ notFoundHeaders, _ by decide
      length := show ∀ e ∈ notFoundHeaders, _ by decide
      encoding := show ∀ e ∈ notFoundHeaders, _ by decide
      websocket := rfl
      cookies := rfl }
  · rcases hversion with rfl | rfl <;> cases close <;> decide +kernel

/-- The server of missing pages fills its responses. -/
theorem notFoundServer_fillsResponse (keepalive : Bool) :
    (HTTPServer.notFoundServer keepalive).FillsResponse where
  request_eq := by
    intro slt hslt c
    rw [HTTPServer.notFoundServer_registered hslt]
    rfl
  session_eq := HTTPServer.notFoundServer_answersOnly keepalive
  readable := by
    intro slt hslt c hversion hresponse
    rw [HTTPServer.notFoundServer_registered hslt]
    exact notFoundServlet_readable hversion hresponse

/-- A server without servlets replies to every request with the missing page. -/
theorem notFoundServer_replies {fnmatch : String → String → Bool} {req : HTTPRequest}
    {rsp : OutResponse} (h : (HTTPServer.notFoundServer true).Replies fnmatch req rsp) :
    rsp = missingPage req.version req.close := by
  rcases h with ⟨s, c, ⟨rounds, hc⟩, rfl⟩
  have hresponse : (HTTPServer.notFoundServer true).response req = .new req.version req.close := by
    rw [HTTPServer.response]
    simp [HTTPServer.notFoundServer]
  cases rounds with
  | zero => cases hc
  | succ rounds =>
      cases hc
      exact notFoundServlet_response hresponse

end Http
end Tiger
