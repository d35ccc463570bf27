import Tiger.Hash.Sha1
import Tiger.Http.RequestRoundTrip
import Tiger.Http.RequestValues

/-!
# HTTP - the handshake of a websocket

This module embeds the request that `WSConnection::Create` sends
(`src/servers/http/ws_connection.cc`) and `WSSession::handle_shake`
(`src/servers/http/ws_session.cc`).  The client puts the configured key into the header
decoded, so that its bytes are arbitrary.

`boost::lexical_cast<int>` is a parameter, and so are the digest function of OpenSSL and what the
buffer of `tiger::SHA1` on the stack held.

Main results:

- Theorem `handshake_iff`: the server takes the request exactly when the decoded key is a value
  of a header field and the string of the digest ends in its buffer.
-/

namespace Tiger
namespace Http

open Lib.Ragel HTTPRequestParser RequestGrammar SocketStream

/-! ## The client -/

/-- `"Host"` -/
def hostName : Text := text ['H', 'o', 's', 't']

/-- `"Upgrade"` -/
def upgradeName : Text := text ['U', 'p', 'g', 'r', 'a', 'd', 'e']

/-- `"Sec-WebSocket-Version"` -/
def secVersionName : Text :=
  text ['S', 'e', 'c', '-', 'W', 'e', 'b', 'S', 'o', 'c', 'k', 'e', 't', '-', 'V', 'e', 'r', 's',
    'i', 'o', 'n']

/-- `"Sec-WebSocket-Key"` -/
def secKeyName : Text :=
  text ['S', 'e', 'c', '-', 'W', 'e', 'b', 'S', 'o', 'c', 'k', 'e', 't', '-', 'K', 'e', 'y']

/-- `"Sec-WebSocket-Accept"` -/
def secAcceptName : Text :=
  text ['S', 'e', 'c', '-', 'W', 'e', 'b', 'S', 'o', 'c', 'k', 'e', 't', '-', 'A', 'c', 'c', 'e',
    'p', 't']

/-- `"websocket"` -/
def websocketText : Text := text ['w', 'e', 'b', 's', 'o', 'c', 'k', 'e', 't']

/-- The loop of `Create` over the headers of its caller: the map, `has_host` and `has_conn`. -/
def createLoop (headers : List (Text × Text)) : FieldMap × Bool × Bool :=
  headers.foldl (fun s e =>
    let flags :=
      if caseKey e.1 = caseKey connectionName then (s.2.1, true)
      else if !s.2.1 ∧ caseKey e.1 = caseKey hostName then (!e.2.isEmpty, s.2.2)
      else s.2
    (s.1.set e.1 e.2, flags)) ([], false, false)

/-- The header fields of the request that `Create` sends. -/
def createHeaders (secKey host : Text) (headers : List (Text × Text)) : FieldMap :=
  let s := createLoop headers
  let m := if s.2.2 then s.1 else s.1.set connectionName upgradeName
  let m := m.set upgradeName websocketText
  let m := m.set secVersionName (text ['1', '3'])
  let m := m.set secKeyName (Hash.base64Decode secKey)
  if s.2.1 then m else m.set hostName host

/-- The request that `WSConnection::Create` sends. -/
def createRequest (secKey host path query fragment : Text) (headers : List (Text × Text)) :
    OutRequest where
  method := .GET
  version := 0x11
  close := true
  path := path
  query := query
  fragment := fragment
  body := []
  headers := createHeaders secKey host headers
  websocket := true
  cookies := []

/-! ## The server -/

/-- `get_header_as<int>(key)`, with `castInt` for `boost::lexical_cast<int>`. -/
def HTTPRequest.getHeaderAsInt (castInt : Text → Option Int) (r : HTTPRequest) (key : Text) : Int :=
  match r.headers.find key with
  | none => 0
  | some v => (castInt v).getD 0

/-- How `handle_shake` ends. -/
inductive Shaken
  /-- the response is sent and the request returned -/
  | upgraded (req : HTTPRequest) (rsp : OutResponse)
  /-- `return nullptr` -/
  | null
  | abort
  | threw
  /-- `tiger::SHA1` reads behind its buffer -/
  | wild
  | outOfFuel

/-- What `tiger::SHA1` takes from outside: the digest function of OpenSSL, and what its buffer held
before. -/
structure Digester where
  digest : Text → Vector UInt8 20
  prior : Vector UInt8 1024

/-- The accept value for a key, `none` when `tiger::SHA1` reads behind its buffer. -/
def Digester.accept (sha1 : Digester) (key : Text) : Option Text :=
  Hash.secWebSocketAccept sha1.digest sha1.prior key

/-- There is a NUL in the digest for a key or behind it in the buffer. -/
def Digester.Ends (sha1 : Digester) (key : Text) : Prop :=
  0 ∈ (sha1.digest (key ++ Hash.guid)).toList ++ sha1.prior.toList.drop 20

/-- The response to an upgrade with an accept value. -/
def upgradeResponse (accept : Text) (req : HTTPRequest) : OutResponse where
  status := 101
  version := req.version
  body := []
  reason := text ['W', 'e', 'b', 's', 'o', 'c', 'k', 'e', 't', ' ', 'P', 'r', 'o', 't', 'o', 'c',
    'o', 'l', ' ', 'H', 'a', 'n', 'd', 's', 'h', 'a', 'k', 'e']
  headers :=
    FieldMap.set secAcceptName accept
      (FieldMap.set connectionName upgradeName
        (FieldMap.set upgradeName (text ['W', 'e', 'b', 'S', 'o', 'c', 'k', 'e', 't']) []))
  close := req.close
  websocket := true
  cookies := []

/-- `WSSession::handle_shake()`, with `fuel` rounds for the header loop. -/
def handleShake (env : Env) (castInt : Text → Option Int) (sha1 : Digester)
    (bufferSize fuel : Nat) (s : SocketStream) : Shaken :=
  match (recvRequest env bufferSize fuel s).1 with
  | .null => .null
  | .abort => .abort
  | .threw => .threw
  | .outOfFuel => .outOfFuel
  | .request req =>
      if caseKey (req.getHeader upgradeName) ≠ caseKey websocketText then .null
      else if caseKey (req.getHeader connectionName) ≠ caseKey upgradeName then .null
      else if req.getHeaderAsInt castInt secVersionName ≠ 13 then .null
      else if (req.getHeader secKeyName).isEmpty then .null
      else
        match sha1.accept (req.getHeader secKeyName) with
        | none => .wild
        | some accept => .upgraded req (upgradeResponse accept req)

/-- The server takes a request that comes with one read: the text is one request, the server
reads the key that the client put into the header, and answers with status 101. -/
def Upgrades (env : Env) (castInt : Text → Option Int) (sha1 : Digester) (bufferSize : Nat)
    (text key : Text) : Prop :=
  IsHeader env text ∧ ∃ fuel req rsp,
    handleShake env castInt sha1 bufferSize fuel (ofCuts [text]) = .upgraded req rsp ∧
      req.getHeader secKeyName = key ∧ key ≠ [] ∧ req.getHeaderAsInt castInt secVersionName = 13 ∧
      caseKey (req.getHeader upgradeName) = caseKey websocketText ∧
      caseKey (req.getHeader connectionName) = caseKey upgradeName ∧ rsp.status = 101

/-! ## The text of the request -/

/-- The header fields without those of a caller, in the order of the map. -/
theorem createHeaders_nil (secKey host : Text) :
    createHeaders secKey host [] =
      [(connectionName, upgradeName), (hostName, host), (secKeyName, Hash.base64Decode secKey),
        (secVersionName, text ['1', '3']), (upgradeName, websocketText)] := by
  rfl

/-- A host of a URI: bytes of a value that are no blanks. -/
def isHost (host : Text) : Bool := host.all fun c => isValueByte c && !isBlank c

/-- A host is a clean value. -/
theorem clean_of_isHost {host : Text} (h : isHost host = true) : Clean host := by
  cases host with
  | nil => exact .inl rfl
  | cons c host =>
      refine .inr ?_
      simp only [isHost, List.all_cons, Bool.and_eq_true, List.all_eq_true] at h
      simp only [isFieldValue, List.all_cons, List.head?_cons, Option.any_some, Bool.and_eq_true,
        List.all_eq_true]
      exact ⟨⟨h.1.1, fun d hd => (h.2 d hd).1⟩, h.1.2⟩

section

variable (secKey host : Text) {path query fragment : Text}

/-- The request line of the client is one of the grammar. -/
theorem createRequest_line (hpath : isPath path = true) (hquery : isQuery query = true)
    (hfragment : isQuery fragment = true) :
    LineConforms (text ['G', 'E', 'T']) (createRequest secKey host path query fragment []) where
  printed := show httpMethodToString .GET = some (text ['G', 'E', 'T']) by decide
  token := by decide
  version := .inr rfl
  path := hpath
  query := hquery
  fragment := hfragment

/-- The text of the client is a header. -/
theorem createRequest_dump (path query fragment : Text) :
    (createRequest secKey host path query fragment []).dump =
      some (headText (text ['G', 'E', 'T']) (createRequest secKey host path query fragment [])
        (createHeaders secKey host [])) := by
  have hfields : fieldsOf (createRequest secKey host path query fragment []) =
      createHeaders secKey host [] := by
    simp [fieldsOf, createRequest, printedHeaders]
  have hmethod : httpMethodToString .GET = some (text ['G', 'E', 'T']) := by decide
  cases hdump : (createRequest secKey host path query fragment []).dump with
  | none => simp [OutRequest.dump, createRequest, hmethod] at hdump
  | some t =>
      rcases dump_eq_headText hdump rfl with ⟨method, hprinted, rfl⟩
      rw [show (createRequest secKey host path query fragment []).method = .GET from rfl, hmethod,
        Option.some.injEq] at hprinted
      rw [hfields, ← hprinted]
      exact congrArg some (List.append_nil _)

variable {secKey host}

/-- The header fields of the client are those of header lines. -/
theorem createHeaders_fields (hkey : isFieldValue (Hash.base64Decode secKey) = true)
    (hhost : isHost host = true) : ∀ e ∈ createHeaders secKey host [], IsField e := by
  rw [createHeaders_nil]
  intro e he
  simp only [List.mem_cons, List.not_mem_nil, or_false] at he
  rcases he with rfl | rfl | rfl | rfl | rfl
  · exact ⟨by decide, by decide, .inr (by decide)⟩
  · exact ⟨show isFieldName hostName = true by decide, show isLineStart hostName = false by decide,
      clean_of_isHost hhost⟩
  · exact ⟨show isFieldName secKeyName = true by decide,
      show isLineStart secKeyName = false by decide, .inr hkey⟩
  · exact ⟨by decide, by decide, .inr (by decide)⟩
  · exact ⟨by decide, by decide, .inr (by decide)⟩

/-- Setting the header fields one after the other gives the map. -/
theorem setAll_createHeaders (secKey host : Text) :
    FieldMap.setAll [] (createHeaders secKey host []) = createHeaders secKey host [] := by
  rw [createHeaders_nil]
  rfl

/-- The request has no body. -/
theorem contentLength_createHeaders (env : Env) (secKey host : Text) :
    contentLength env (createHeaders secKey host []) = 0 := by
  have hfind : (createHeaders secKey host []).find contentLengthName = none := by
    rw [createHeaders_nil]
    rfl
  have hzero : toInt64 0 = 0 := by
    unfold toInt64
    decide
  unfold contentLength getAs
  rw [show FieldMap.find
    (text ['c', 'o', 'n', 't', 'e', 'n', 't', '-', 'l', 'e', 'n', 'g', 't', 'h'])
    (createHeaders secKey host []) = none from hfind]
  exact hzero

/-- The request as the server receives it. -/
theorem createRequest_message (env : Env) (hpath : isPath path = true)
    (hquery : isQuery query = true) (hfragment : isQuery fragment = true)
    (hhost : isHost host = true) (hkey : isFieldValue (Hash.base64Decode secKey) = true)
    {t : Text} (hdump : (createRequest secKey host path query fragment []).dump = some t)
    (hsmall : t.length < 2 ^ 62) :
    ∃ r, IsMessage env t [] r ∧ r.headers = createHeaders secKey host [] := by
  rw [createRequest_dump, Option.some.injEq] at hdump
  subst hdump
  rcases exec_headText env (createRequest_line secKey host hpath hquery hfragment)
    (createHeaders_fields hkey hhost) (at_store env.memory _) hsmall with ⟨ps, hexec, hps⟩
  have hheaders : ps.data.headers = createHeaders secKey host [] := by
    rw [hps.data]
    exact setAll_createHeaders secKey host
  refine ⟨requestOf env ps [], ⟨isHeader_of_exec hexec hps.cs (by decide), by omega,
    ps, hexec, ?_, ?_, rfl⟩, ?_⟩
  · rw [hasError, hps.ok, hps.cs]
    rfl
  · rw [hheaders, contentLength_createHeaders]
    rfl
  · rw [requestOf_headers, hheaders]

end

/-! ## The handshake -/

theorem getHeader_eq {r : HTTPRequest} {key v : Text} (h : r.headers.find key = some v) :
    r.getHeader key = v := by
  rw [HTTPRequest.getHeader, h, Option.getD_some]

/-- The string of the digest ends in the buffer exactly when there is an accept value. -/
theorem Digester.accept_iff (sha1 : Digester) (key : Text) :
    (∃ accept, sha1.accept key = some accept) ↔ sha1.Ends key := by
  rw [Digester.accept, Hash.secWebSocketAccept, Hash.sha1, Hash.cString, Digester.Ends]
  split
  · next hnul => exact ⟨fun _ => hnul, fun _ => ⟨_, rfl⟩⟩
  · next hnul =>
      refine ⟨?_, fun h => absurd h hnul⟩
      rintro ⟨accept, haccept⟩
      cases haccept

/-- A request with the header fields of the client is taken. -/
theorem handleShake_upgraded {env : Env} {castInt : Text → Option Int} {sha1 : Digester}
    {accept : Text} {bufferSize fuel : Nat} {s s' : SocketStream} {r : HTTPRequest}
    {secKey host : Text}
    (hrecv : recvRequest env bufferSize fuel s = (.request r, s'))
    (hheaders : r.headers = createHeaders secKey host [])
    (hcast : castInt (text ['1', '3']) = some 13) (hkey : Hash.base64Decode secKey ≠ [])
    (haccept : sha1.accept (Hash.base64Decode secKey) = some accept) :
    handleShake env castInt sha1 bufferSize fuel s = .upgraded r (upgradeResponse accept r) ∧
      r.getHeader secKeyName = Hash.base64Decode secKey ∧
      r.getHeaderAsInt castInt secVersionName = 13 ∧
      r.getHeader upgradeName = websocketText ∧ r.getHeader connectionName = upgradeName := by
  rw [createHeaders_nil] at hheaders
  have hupgrade : r.getHeader upgradeName = websocketText := getHeader_eq (by rw [hheaders]; rfl)
  have hconnection : r.getHeader connectionName = upgradeName :=
    getHeader_eq (by rw [hheaders]; rfl)
  have hsecKey : r.getHeader secKeyName = Hash.base64Decode secKey :=
    getHeader_eq (by rw [hheaders]; rfl)
  have hversion : r.getHeaderAsInt castInt secVersionName = 13 := by
    have hfind : r.headers.find secVersionName = some (text ['1', '3']) := by
      rw [hheaders]
      rfl
    rw [HTTPRequest.getHeaderAsInt, hfind]
    simp only [hcast, Option.getD_some]
  refine ⟨?_, hsecKey, hversion, hupgrade, hconnection⟩
  rw [handleShake, hrecv]
  simp only [hupgrade, hconnection, hversion, hsecKey, haccept]
  simp [hkey]

/-- The values of a request that came with one read are clean. -/
theorem recvRequest_clean {env : Env} {bufferSize : Nat} {bytes : Text} {r : HTTPRequest}
    (h : Accepts env bufferSize bytes r) : CleanHeaders r.headers := by
  rcases h.message with ⟨hd, bd, rest, hbytes, hmsg⟩
  have hlength : hd.length ≤ maxTransfer := by
    have hle := h.2.2.1
    rw [hbytes, List.length_append, List.length_append] at hle
    omega
  rcases hmsg.parsed with ⟨ps, hexec, -, -, rfl⟩
  rw [requestOf_headers]
  have hsmall : 0 + hd.length < 2 ^ 62 := by
    rw [maxTransfer] at hlength
    omega
  exact exec_clean (.front rfl InFront.start) hsmall (by simp [CleanHeaders, HTTPRequestParser.init,
    HTTPRequest.fresh]) hexec

/-- Taking a request starts with receiving it, and there is an accept value for its key. -/
theorem recvRequest_of_upgraded {env : Env} {castInt : Text → Option Int} {sha1 : Digester}
    {bufferSize fuel : Nat} {s : SocketStream} {r : HTTPRequest} {rsp : OutResponse}
    (h : handleShake env castInt sha1 bufferSize fuel s = .upgraded r rsp) :
    (∃ s', recvRequest env bufferSize fuel s = (.request r, s')) ∧
      ∃ accept, sha1.accept (r.getHeader secKeyName) = some accept := by
  cases hrecv : recvRequest env bufferSize fuel s with
  | mk res s' =>
      rw [handleShake, hrecv] at h
      cases res with
      | request r' =>
          simp only at h
          split_ifs at h
          cases haccept : sha1.accept (r'.getHeader secKeyName) with
          | none =>
              rw [haccept] at h
              cases h
          | some accept =>
              rw [haccept] at h
              cases h
              exact ⟨⟨s', rfl⟩, accept, haccept⟩
      | null => simp at h
      | abort => simp at h
      | threw => simp at h
      | outOfFuel => simp at h

/-- A request that is one whole header leaves an empty buffer, which must not be taken for a
full one. -/
theorem toInt32_ne_zero_of_recv {env : Env} {bufferSize fuel : Nat} {t : Text} {r : HTTPRequest}
    {s' : SocketStream} (hheader : IsHeader env t) (hsize : t.length ≤ bufferSize)
    (hmax : t.length ≤ maxTransfer)
    (h : recvRequest env bufferSize fuel (ofCuts [t]) = (.request r, s')) :
    toInt32 bufferSize ≠ 0 := by
  have hne : t ≠ [] := List.length_pos_iff.mp hheader.length_pos
  rcases hheader with ⟨threads, hscan⟩
  rw [recvRequest] at h
  split at h
  · simp at h
  · simp at h
  · simp at h
  · simp at h
  · next ps m offset s₁ hfinished =>
    rcases recvHeader_single hne hsize hmax hfinished with ⟨k, ths, hscan', -, -, -, -, hfull, -⟩
    rw [hscan, Scan.stopped.injEq] at hscan'
    rw [← hscan'.1, Nat.sub_self] at hfull
    exact fun h => hfull h.symm

/-- The key of a request that the server takes is a value of a header field. -/
theorem Upgrades.isFieldValue {env : Env} {castInt : Text → Option Int} {sha1 : Digester}
    {bufferSize : Nat} {t key : Text} (h : Upgrades env castInt sha1 bufferSize t key)
    (hsize : t.length ≤ bufferSize) (hmax : t.length ≤ maxTransfer) :
    isFieldValue key = true := by
  rcases h with ⟨hheader, fuel, req, rsp, hshake, hkey, hne, -⟩
  rcases recvRequest_of_upgraded hshake with ⟨⟨s', hrecv⟩, -⟩
  have hclean : CleanHeaders req.headers :=
    recvRequest_clean ⟨List.length_pos_iff.mp hheader.length_pos, hsize, hmax, fuel, s', hrecv⟩
  cases hfind : req.headers.find secKeyName with
  | none =>
      rw [HTTPRequest.getHeader, hfind] at hkey
      exact absurd hkey.symm hne
  | some v =>
      rw [getHeader_eq hfind] at hkey
      rw [hkey] at hfind
      exact (hclean.find hfind).resolve_left hne

/-- The server takes the request of the client exactly when the decoded key is a value of a
header field: it is not empty, does not start with a blank and has no CR, LF, NUL or DEL; and the
string that `tiger::SHA1` makes of its buffer ends there. -/
theorem handshake_iff (env : Env) {castInt : Text → Option Int} (sha1 : Digester)
    {bufferSize : Nat} {secKey host path query fragment t : Text}
    (hcast : castInt (text ['1', '3']) = some 13) (hpath : isPath path = true)
    (hquery : isQuery query = true) (hfragment : isQuery fragment = true)
    (hhost : isHost host = true)
    (hdump : (createRequest secKey host path query fragment []).dump = some t)
    (hsize : t.length ≤ bufferSize) (hmax : t.length ≤ maxTransfer) :
    Upgrades env castInt sha1 bufferSize t (Hash.base64Decode secKey) ↔
      isFieldValue (Hash.base64Decode secKey) = true ∧ toInt32 bufferSize ≠ 0 ∧
        sha1.Ends (Hash.base64Decode secKey) := by
  constructor
  · intro h
    refine ⟨h.isFieldValue hsize hmax, ?_⟩
    rcases h with ⟨hheader, fuel, req, rsp, hshake, hsecKey, -⟩
    rcases recvRequest_of_upgraded hshake with ⟨⟨s', hrecv⟩, haccept⟩
    rw [hsecKey] at haccept
    exact ⟨toInt32_ne_zero_of_recv hheader hsize hmax hrecv, (sha1.accept_iff _).mp haccept⟩
  · rintro ⟨hkey, hfull, hends⟩
    obtain ⟨accept, haccept⟩ := (sha1.accept_iff _).mpr hends
    have hne : Hash.base64Decode secKey ≠ [] := by
      intro h
      rw [h] at hkey
      simp [isFieldValue] at hkey
    rcases createRequest_message env hpath hquery hfragment hhost hkey hdump
      (hmax.trans_lt (by decide)) with ⟨r, hmsg, hheaders⟩
    have htext : t ≠ [] := List.length_pos_iff.mp hmsg.header.length_pos
    have hs : CutStream (ofCuts [t]) (t ++ [] ++ []) := by
      simpa using ofCuts_cutStream (show ∀ c ∈ [t], c ≠ [] by simpa using htext)
    have hread : (ofCuts [t]).readLength bufferSize = t.length := by
      rw [readLength_ofCuts]
      omega
    have hrecv := recvRequest_whole hmsg hs (by rw [hread])
      (by rw [hread, Nat.sub_self]; exact fun h => hfull h.symm) (by simp) (by simp [hread]) 0
    rcases handleShake_upgraded hrecv hheaders hcast hne haccept with
      ⟨hshake, hsecKey, hversion, hupgrade, hconnection⟩
    exact ⟨hmsg.header, 1, r, _, hshake, hsecKey, hne, hversion, by rw [hupgrade],
      by rw [hconnection], rfl⟩

/-- `boost::lexical_cast<int>` on decimal numbers -/
def decimalInt (v : Text) : Option Int := (decimal v).map fun n => n.toNat

/-- The default of `tiger.websocket.secKey` -/
def defaultSecKey : Text :=
  text ['a', 'b', 'c', 'd', 'e', 'f', 'g', 'h', 'i', 'j', 'k', 'l', 'm', 'n', 'o', 'p']

/-- The request for `ws://h/` -/
def sampleRequest (secKey : Text) : OutRequest :=
  createRequest secKey (text ['h']) (text ['/']) [] [] []

/-- The digest of the decoded default key and the GUID, in a buffer of NULs -/
def defaultDigester : Digester where
  digest _ := #v[104, 88, 250, 150, 46, 68, 235, 72, 232, 229, 123, 203, 181, 246, 151, 217, 166,
    99, 245, 39]
  prior := Vector.replicate 1024 0

/-- There is a NUL behind the digest. -/
theorem defaultDigester_ends (key : Text) : defaultDigester.Ends key := by
  refine List.mem_append_right _ ?_
  rw [defaultDigester, Vector.toList_replicate, List.drop_replicate]
  exact List.mem_replicate.mpr ⟨by decide, rfl⟩

/-- The request with the default key is taken. -/
theorem handshake_default : ∃ t, (sampleRequest defaultSecKey).dump = some t ∧
    Upgrades plainEnv decimalInt defaultDigester 4096 t (Hash.base64Decode defaultSecKey) := by
  refine ⟨_, createRequest_dump _ _ _ _ _, ?_⟩
  exact (handshake_iff plainEnv defaultDigester (by decide) (by decide) (by decide) (by decide)
    (by decide) (createRequest_dump _ _ _ _ _) (by decide +kernel) (by decide +kernel)).mpr
    ⟨by decide, by decide, defaultDigester_ends _⟩

/-- A key whose decoding has a line feed is not read by the server. -/
theorem handshake_fails : ∃ t, (sampleRequest (text ['Y', 'Q', 'p', 'i'])).dump = some t ∧
    ¬Upgrades plainEnv decimalInt defaultDigester 4096 t
      (Hash.base64Decode (text ['Y', 'Q', 'p', 'i'])) := by
  refine ⟨_, createRequest_dump _ _ _ _ _, ?_⟩
  intro h
  exact absurd (h.isFieldValue (by decide) (by decide)) (by decide)

end Http
end Tiger
