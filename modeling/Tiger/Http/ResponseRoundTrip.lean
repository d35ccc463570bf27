import Tiger.Http.Chunked
import Tiger.Http.RequestRoundTrip
import Tiger.Http.ResponseReads

/-!
# HTTP - reading a printed response

What `HTTPResponseParser::execute` makes of the text that `HTTPResponse::dump` writes, and what
`HTTPConnection::recv_response` then returns.  A body whose header names an encoding is decoded
by the receiver.

Main results:

- Theorem `execute_head`: a call with the whole header takes it, and the response has the fields.
- Theorem `recvResponse_dump`: the receiver returns the response with its body, decoded.
- Theorem `response_readsBack`: both for every response without cookies.
-/

namespace Tiger
namespace Http

open Lib.Ragel ResponseGrammar SocketStream HTTPResponseParser

/-! ## The text of a response -/

/-- `"transfer-encoding"` -/
def transferEncodingName : Text :=
  text ['t', 'r', 'a', 'n', 's', 'f', 'e', 'r', '-', 'e', 'n', 'c', 'o', 'd', 'i', 'n', 'g']

namespace HTTPResponseParser

/-- `HTTPResponseParser::execute` on a text of any length: an assert compares the length with its
value as an `int`.  `recv_response` has the length as an `int` and always passes it. -/
def executeText (m : Memory) (length : Nat) (ps : HTTPResponseParser) :
    Except Failure (Nat × HTTPResponseParser × Memory) :=
  if toInt32 length ≠ length then .error .abort else execute m length false ps

end HTTPResponseParser

namespace OutResponse

/-- The parts of a response are those of the grammar; it is no answer to a websocket and has no
cookies, and the fields that tell the length of the body are left to `dump`. -/
structure Conforms (r : OutResponse) : Prop where
  status_ge : -2 ^ 31 ≤ r.status
  status_lt : r.status < 2 ^ 31
  version : r.version = 0x10 ∨ r.version = 0x11
  reason : r.reason.all isTextByte = true
  ordered : r.headers.Ordered
  name : ∀ e ∈ r.headers, isName e.1 = true
  value : ∀ e ∈ r.headers, isValue e.2 = true
  length : ∀ e ∈ r.headers, caseKey e.1 ≠ caseKey contentLengthName
  encoding : ∀ e ∈ r.headers, caseKey e.1 ≠ caseKey transferEncodingName
  websocket : r.websocket = false
  cookies : r.cookies = []

/-- The reason as it is printed. -/
def sentReason (r : OutResponse) : Text :=
  if r.reason.isEmpty then httpStatusToString r.status else r.reason

/-- The header fields of a response as they are sent: with the connection that `dump` derives
and the length of a body that is not empty. -/
def sentHeaders (r : OutResponse) : FieldMap :=
  let headers := (printedHeaders false r.headers).set connectionText (connectionValue r.close)
  if r.body.isEmpty then headers else headers.set contentLengthName (printNat r.body.length)

/-- The response that the parser makes of the header. -/
def sent (r : OutResponse) : HTTPResponse :=
  ⟨r.status, r.version, [], r.sentReason, r.sentHeaders⟩

/-- The header of a text. -/
def headText (r : OutResponse) : Text :=
  r.printLine ++ ((printedHeaders false r.headers).flatMap headerLine ++
    (headerLine (connectionText, connectionValue r.close) ++
      ((lengthFields r.body).flatMap headerLine ++ ([13] ++ [10]))))

variable {r : OutResponse}

theorem Conforms.dump_eq (h : r.Conforms) : r.dump = r.headText ++ r.body := by
  rw [dump, headText, h.websocket, h.cookies, printBody_eq]
  simp [connectionText]

/-- Every text of a status is one of the grammar. -/
theorem isReason_httpStatusToString (status : Int) :
    isReason (httpStatusToString status) = true := by
  have hall : ∀ e ∈ httpStatusMap, isReason (text e.2) = true := by decide
  rw [httpStatusToString]
  split
  next e hfind => exact hall e (List.mem_of_find?_eq_some hfind)
  next => decide

/-- The reason that is sent is a reason. -/
theorem Conforms.isReason_sentReason (h : r.Conforms) : isReason r.sentReason = true := by
  rw [sentReason]
  split
  · exact isReason_httpStatusToString r.status
  · next hne => simp [isReason, hne, h.reason]

/-- The grammar does not know the fields that are printed in front of the connection. -/
theorem Conforms.isKnown_printed (h : r.Conforms) {e : Text × Text}
    (he : e ∈ printedHeaders false r.headers) : isKnown e.1 = false := by
  have hmem := mem_printedHeaders he
  have hconnection := (List.mem_filter.mp he).2
  rw [isKnown, List.any_eq_false]
  intro k _ hk
  rw [decide_eq_true_eq] at hk
  cases k with
  | transferEncoding => exact h.encoding e hmem (hk.trans (by decide))
  | connection =>
      have hsame : isConnection e.1 = true := decide_eq_true (hk.trans (by decide))
      simp [hsame] at hconnection
  | contentLength => exact h.length e hmem (hk.trans (by decide))

/-- Setting the fields of the text gives the fields that were sent. -/
theorem Conforms.setAll_printed (h : r.Conforms) :
    FieldMap.setAll [] (printedHeaders false r.headers ++
      ((connectionText, connectionValue r.close) :: lengthFields r.body)) = r.sentHeaders := by
  have hord : ([] ++ printedHeaders false r.headers : FieldMap).Ordered :=
    h.ordered.sublist List.filter_sublist
  rw [FieldMap.setAll_append, FieldMap.setAll_ordered hord, List.nil_append, sentHeaders,
    lengthFields]
  split
  · rfl
  · rfl

/-! ## One call -/

variable {m : Memory} {length : Nat}

/-- The lines in front of the empty line. -/
def lines (r : OutResponse) : Text :=
  statusText r.version (r.status % 2 ^ 32).toNat r.sentReason ++
    ((printedHeaders false r.headers).flatMap headerLine ++
    (headerLine (connectionText, connectionValue r.close) ++
      (lengthFields r.body).flatMap headerLine))

theorem headText_eq (r : OutResponse) : r.headText = r.lines ++ ([13] ++ [10]) := by
  simp only [headText, lines, statusText, printLine, sentReason, List.append_assoc]

/-- The line of the length, if there is one. -/
theorem reads_lengthFields {close : Bool} {d : HTTPResponse} {ps : HTTPResponseParser} {p : Nat}
    (body : Text) (h : Reading (LinePlace.afterConnection close).threads d ps)
    (hat : At m p ((lengthFields body).flatMap headerLine))
    (hsmall : p + ((lengthFields body).flatMap headerLine).length < 2 ^ 62) :
    ∃ close' ps', (runner m length).Reads p ((lengthFields body).flatMap headerLine) ps ps' ∧
      Reading (LinePlace.afterConnection close').threads
        { d with headers := d.headers.setAll (lengthFields body) } ps' := by
  by_cases hempty : body.isEmpty = true
  · rw [lengthFields, if_pos hempty] at hat ⊢
    exact ⟨close, ps, Runner.Reads.refl, h⟩
  · rw [lengthFields, if_neg hempty, List.flatMap_singleton] at hat hsmall ⊢
    rcases reads_line length (length_line close (isNumber_printNat body.length))
      (by simp [contentLengthName, text]) h hat hsmall with ⟨ps', hreads, hps'⟩
    exact ⟨false, ps', hreads, hps'⟩

/-- The lines give the response that was sent. -/
theorem Conforms.reads_lines (h : r.Conforms) (hat : At m 0 r.lines)
    (hle : r.lines.length ≤ length) (hsmall : length < 2 ^ 62) :
    ∃ close ps, (runner m length).Reads 0 r.lines HTTPResponseParser.init ps ∧
      Reading (LinePlace.afterConnection close).threads r.sent ps := by
  have hinit : Reading (start main) HTTPResponse.fresh HTTPResponseParser.init :=
    ⟨⟨rfl, rfl, rfl, rfl⟩, rfl⟩
  have hfields : ∀ e ∈ printedHeaders false r.headers,
      isName e.1 = true ∧ isKnown e.1 = false ∧ isValue e.2 = true := fun e he =>
    ⟨h.name e (mem_printedHeaders he), h.isKnown_printed he, h.value e (mem_printedHeaders he)⟩
  have hcode : (r.status % 2 ^ 32).toNat < 2 ^ 63 := by omega
  have hstatus := toInt32_status h.status_ge h.status_lt
  have hsent : r.sent = { HTTPResponse.fresh with
      version := r.version, status := r.status, reason := r.sentReason
      headers := FieldMap.setAll [] (printedHeaders false r.headers ++
        ((connectionText, connectionValue r.close) :: lengthFields r.body)) } := by
    rw [h.setAll_printed]
    rfl
  rw [lines] at hat hle ⊢
  generalize (r.status % 2 ^ 32).toNat = k at hcode hstatus hat hle ⊢
  rcases at_append.mp hat with ⟨hatStatus, hatRest⟩
  rcases at_append.mp hatRest with ⟨hatFields, hatRest⟩
  rcases at_append.mp hatRest with ⟨hatConnection, hatLength⟩
  simp only [List.length_append] at hle
  rcases reads_statusLine h.version hcode h.isReason_sentReason hinit hatStatus (by omega) hsmall
    with ⟨ps₁, hreads₁, hps₁⟩
  rw [hstatus] at hps₁
  rcases reads_plainLines length hfields hps₁ hatFields (by omega) with ⟨ps₂, hreads₂, hps₂⟩
  rcases reads_line length (connection_line r.close) (by simp [connectionText, text]) hps₂
    hatConnection (by omega) with ⟨ps₃, hreads₃, hps₃⟩
  rcases reads_lengthFields r.body hps₃ hatLength (by omega) with ⟨close, ps₄, hreads₄, hps₄⟩
  refine ⟨close, ps₄, hreads₁.append (hreads₂.append (hreads₃.append hreads₄)), ?_⟩
  rw [hsent, FieldMap.setAll_append]
  exact hps₄

/-- The machine ends with the header. -/
theorem Conforms.exec_head (h : r.Conforms) (hat : At m 0 r.headText)
    (hle : r.headText.length ≤ length) (hsmall : length < 2 ^ 62) :
    ∃ ps, exec m length length 0 HTTPResponseParser.init = some (r.headText.length, ps) ∧
      Reading [.eps] r.sent ps ∧ ps.bodyStart = r.headText.length := by
  have hlines : r.headText.length = r.lines.length + 2 := by
    rw [headText_eq, List.length_append]
    rfl
  rw [headText_eq] at hat
  rw [hlines] at hle ⊢
  rcases at_append.mp hat with ⟨hatLines, hatEnd⟩
  rcases h.reads_lines hatLines (by omega) hsmall with ⟨close, ps, hreads, hps⟩
  rcases exec_lastLine length (length - (r.lines.length + 2)) hps hatEnd with
    ⟨ps', hexec, hps', hbody⟩
  rw [Nat.zero_add] at hexec hbody
  refine ⟨ps', ?_, hps', hbody⟩
  have hall := hreads (length - (r.lines.length + 2) + 2)
  rw [show length - (r.lines.length + 2) + 2 + r.lines.length = length by omega,
    Nat.zero_add] at hall
  exact hall.trans hexec

/-- A call with the whole header takes it, and the response has the fields. -/
theorem Conforms.execute_head (h : r.Conforms) (hat : At m 0 r.headText) (hend : m length = 0)
    (hle : r.headText.length ≤ length) (hsmall : length < 2 ^ 62) :
    ∃ ps, execute m length false HTTPResponseParser.init =
        .ok (r.headText.length, ps, memmove m r.headText.length (length - r.headText.length)) ∧
      ps.cs = some [.eps] ∧ Healthy r.sent { ps with nread := 0 } := by
  have hpos : 0 < r.headText.length := by simp [headText]
  rcases h.exec_head hat hle hsmall with ⟨ps, hexec, hps, hbody⟩
  have hinit : Before 0 HTTPResponseParser.init := ⟨le_rfl, le_rfl, le_rfl⟩
  rcases exec_before hinit (by omega) hexec with ⟨⟨hmark, hstart, hlen⟩, -⟩
  have hnread : ps.nread + r.headText.length = r.headText.length := by
    rw [hps.nread, Nat.zero_add]
  refine ⟨{ ps with nread := r.headText.length }, ?_, hps.cs, hps.data, hps.ok, hps.plain, rfl⟩
  rw [execute, if_neg (by simp [hend])]
  simp only [Bool.false_eq_true, if_false, hexec, hnread]
  rw [if_neg (by omega), if_neg (by omega)]

/-- A call of the parser with the text, which ends with a NUL, takes it up to the body, without
an error, and gives the response back. -/
def ReadsBack (m : Memory) (r : OutResponse) : Prop :=
  ∃ nparse ps m', executeText (terminate (store m 0 r.dump) r.dump.length) r.dump.length
      HTTPResponseParser.init = .ok (nparse, ps, m') ∧
    ps.hasError = false ∧ ps.isFinished = true ∧
    nparse + r.body.length = r.dump.length ∧ r.dump.drop nparse = r.body ∧
    ps.data.status = r.status ∧ ps.data.version = r.version ∧ ps.data.reason = r.sentReason ∧
    ps.data.headers = r.sentHeaders

/-- A text that was read into a buffer and ended with a NUL. -/
theorem at_terminate (m : Memory) (xs : Text) : At (terminate (store m 0 xs) xs.length) 0 xs := by
  rw [At, slice_terminate, slice_store_all]

/-- A conforming response below 2^31 bytes is read back. -/
theorem Conforms.readsBack (h : r.Conforms) (m : Memory) (hsmall : r.dump.length < 2 ^ 31) :
    ReadsBack m r := by
  have hlength : r.dump.length = r.headText.length + r.body.length := by
    rw [h.dump_eq, List.length_append]
  have hat : At (terminate (store m 0 r.dump) r.dump.length) 0 (r.headText ++ r.body) := by
    rw [← h.dump_eq]
    exact at_terminate m r.dump
  have hend := terminate_self (store m 0 r.dump) r.dump.length
  rcases h.execute_head (at_append.mp hat).1 hend (by omega) (by omega) with
    ⟨ps, hexecute, hcs, hps⟩
  have hcast := (toInt32_eq_iff _).mpr hsmall
  have hcall := hexecute
  rw [← show executeText _ _ _ = execute _ _ false _ from if_neg (by rw [hcast]; simp)] at hcall
  refine ⟨r.headText.length, ps, _, hcall, ?_, ?_, hlength.symm, ?_, ?_⟩
  · have hok : ps.error = false := hps.ok
    rw [hasError, hok, hcs]
    rfl
  · rw [isFinished, hcs]
    simp
  · rw [h.dump_eq, List.drop_left' rfl]
  · have hdata : ps.data = r.sent := hps.data
    rw [hdata]
    exact ⟨rfl, rfl, rfl, rfl⟩

/-! ## Receiving the response -/

/-- A body behind the decoding that an encoding asks for. -/
def decoded (env : ClientEnv) (encoding body : Text) : Text :=
  if body.isEmpty then []
  else if caseKey encoding = caseKey (text ['g', 'z', 'i', 'p']) then env.gunzip body
  else if caseKey encoding = caseKey (text ['d', 'e', 'f', 'l', 'a', 't', 'e']) then
    env.inflate body
  else body

/-- The body of a response behind the decoding that its header asks for. -/
def decodedBody (env : ClientEnv) (r : OutResponse) : Text :=
  decoded env ((r.headers.find contentEncoding).getD []) r.body

/-- Decoding a body changes only the body. -/
theorem decodeBody_eq (env : ClientEnv) {rsp : HTTPResponse} (hbody : rsp.body = []) (body : Text) :
    decodeBody env rsp body =
      { rsp with body := decoded env ((rsp.headers.find contentEncoding).getD []) body } := by
  rw [decodeBody, decoded, contentEncoding]
  generalize (rsp.headers.find (text ['c', 'o', 'n', 't', 'e', 'n', 't', '-', 'e', 'n', 'c', 'o',
    'd', 'i', 'n', 'g'])).getD [] = encoding
  simp only
  split_ifs
  · rw [← hbody]
  · rfl
  · rfl
  · rfl

/-- A field that `dump` does not derive is sent as it is. -/
theorem find_sentHeaders {key : Text} (hconnection : caseKey key ≠ caseKey connectionText)
    (hlength : caseKey key ≠ caseKey contentLengthName) :
    r.sentHeaders.find key = r.headers.find key := by
  have hprinted : (printedHeaders false r.headers).find key = r.headers.find key := by
    apply FieldMap.find_filter
    intro e _ hkey
    have hother : isConnection e.1 = false := decide_eq_false (hkey ▸ hconnection)
    simp [hother]
  rw [sentHeaders]
  split
  · rw [FieldMap.find_set_of_ne _ hconnection, hprinted]
  · rw [FieldMap.find_set_of_ne _ hlength, FieldMap.find_set_of_ne _ hconnection, hprinted]

/-- The body of a sent response is decoded from what was sent. -/
theorem decodeBody_sent (env : ClientEnv) (r : OutResponse) :
    decodeBody env r.sent r.body = { r.sent with body := r.decodedBody env } := by
  have hfind : r.sent.headers.find contentEncoding = r.headers.find contentEncoding :=
    find_sentHeaders (by decide) (by decide)
  rw [decodeBody_eq env rfl, hfind, decodedBody]

theorem toInt64_ofNat {k : Nat} (hk : k < 2 ^ 63) : toInt64 (UInt64.ofNat k) = k := by
  unfold toInt64
  rw [UInt64.toNat_ofNat_of_lt' (by rw [UInt64.size]; omega), Int.bmod_eq_of_le] <;> omega

/-- The length that the receiver finds is that of the body. -/
theorem Conforms.contentLength_sent (h : r.Conforms) {env : ClientEnv} {ps : HTTPResponseParser}
    (hps : ps.data = r.sent) (hsmall : r.body.length < 2 ^ 31)
    (hcast : env.lexicalCast (printNat r.body.length) = some (UInt64.ofNat r.body.length)) :
    toInt64 (ps.getContentLength env) = r.body.length := by
  rw [← toInt64_ofNat (show r.body.length < 2 ^ 63 by omega)]
  congr 1
  change getAs env.lexicalCast ps.data.headers contentLengthName 0 = _
  have hheaders : r.sent.headers = r.sentHeaders := rfl
  rw [getAs, hps, hheaders]
  by_cases hempty : r.body.isEmpty = true
  · have hfind : r.sentHeaders.find contentLengthName = none := by
      rw [sentHeaders, if_pos hempty, FieldMap.find_set_of_ne _ (by decide)]
      exact FieldMap.find_eq_none fun e he => (h.length e (mem_printedHeaders he)).symm
    rw [hfind, List.isEmpty_iff.mp hempty]
    rfl
  · have hfind : r.sentHeaders.find contentLengthName = some (printNat r.body.length) := by
      rw [sentHeaders, if_neg hempty, FieldMap.find_set_self]
    rw [hfind]
    simp only [hcast, Option.getD_some]

/-- The receiver takes the body behind the header, from the buffer and from the stream. -/
theorem recvKnownLength_body {env : ClientEnv} {b : Buffered} {body rest bytes : Text}
    (hlength : toInt64 (b.ps.getContentLength env) = body.length) (hsmall : body.length < 2 ^ 31)
    (hs : CutStream b.s bytes) (hbytes : slice b.m 0 b.len ++ bytes = body ++ rest) :
    ∃ b', recvKnownLength env b = .ok (b', body) ∧ b'.ps = b.ps := by
  have hall := congrArg List.length hbytes
  simp only [List.length_append, slice_length] at hall
  rw [recvKnownLength]
  simp only [hlength]
  by_cases hzero : body.length = 0
  · rw [if_pos (by omega), List.length_eq_zero_iff.mp hzero]
    exact ⟨b, rfl, rfl⟩
  · rw [if_neg (by omega), if_neg (by omega)]
    by_cases hbuffered : body.length ≤ b.len
    · refine ⟨b, ?_, rfl⟩
      have hslice : slice b.m 0 body.length = body := by
        have htake := congrArg (List.take body.length) hbytes
        rwa [List.take_left' rfl,
          List.take_append_of_le_length (by rw [slice_length]; exact hbuffered),
          ← Nat.add_sub_cancel' hbuffered, slice_add, List.take_left' (slice_length _ _ _)] at htake
      rw [if_pos (by omega), Int.toNat_natCast, hslice]
    · have hleft : ((body.length : Int) - b.len).toNat = body.length - b.len := by omega
      have hread := hs.readFixedSize_eq (show body.length - b.len < 2 ^ 63 by omega) (by omega)
      have hgot : slice b.m 0 b.len ++ bytes.take (body.length - b.len) = body := by
        have htake := congrArg (List.take body.length) hbytes
        rwa [List.take_left' rfl, List.take_append, slice_length,
          List.take_of_length_le (by rw [slice_length]; omega)] at htake
      rw [if_neg (by omega), hleft, hread, if_neg (by rw [toInt32_of_lt (by omega)]; omega), hgot]
      exact ⟨_, rfl, rfl⟩

section

variable {bufferSize : Nat} {s : SocketStream} {rest : Text}

/-- The header loop ends with the first read when that brings the whole header. -/
theorem Conforms.recvHeader_dump (h : r.Conforms) (hs : CutStream s (r.dump ++ rest))
    (hfirst : r.headText.length ≤ s.readLength bufferSize)
    (hroom : ((s.readLength bufferSize - r.headText.length : Nat) : Int) ≠ toInt32 bufferSize)
    (m : Memory) (fuel : Nat) :
    ∃ b, recvResponseHeader bufferSize (fuel + 1) ⟨HTTPResponseParser.init, m, 0, s⟩ = .ok b ∧
      b.ps.data = r.sent ∧ b.ps.chunked = false ∧
      ∃ bytes, CutStream b.s bytes ∧ slice b.m 0 b.len ++ bytes = r.body ++ rest := by
  have hread := hs.read_eq bufferSize
  have hskip := hs.skip (s.readLength bufferSize)
  have hlength := hs.take_readLength_length bufferSize
  have hmax := (hs.readLength_le bufferSize).2.2
  have hpos : 0 < r.headText.length := by simp [headText]
  have hdump : r.dump ++ rest = r.headText ++ (r.body ++ rest) := by
    rw [h.dump_eq, List.append_assoc]
  generalize s.readLength bufferSize = k at hfirst hroom hread hskip hlength hmax
  have hmaxLt : maxTransfer < 2 ^ 62 := by decide
  have htake : (r.dump ++ rest).take k =
      r.headText ++ (r.body ++ rest).take (k - r.headText.length) := by
    rw [hdump, List.take_append, List.take_of_length_le hfirst]
  have hbuffer : At (terminate (store m 0 ((r.dump ++ rest).take k)) k) 0
      (r.headText ++ (r.body ++ rest).take (k - r.headText.length)) := by
    have hall := at_terminate m ((r.dump ++ rest).take k)
    rw [hlength] at hall
    rwa [← htake]
  have hslice : slice (store m 0 ((r.dump ++ rest).take k)) 0 k = (r.dump ++ rest).take k := by
    have hall := slice_store_all m ((r.dump ++ rest).take k)
    rwa [hlength] at hall
  have hend := terminate_self (store m 0 ((r.dump ++ rest).take k)) k
  rcases h.execute_head (at_append.mp hbuffer).1 hend hfirst (by omega) with
    ⟨ps, hexecute, hcs, hps⟩
  have herror : ps.hasError = false := by
    have hok : ps.error = false := hps.ok
    rw [hasError, hok, hcs]
    rfl
  have hfinished : ps.isFinished = true := by
    rw [isFinished, hcs]
    simp
  refine ⟨⟨ps, memmove (terminate (store m 0 ((r.dump ++ rest).take k)) k) r.headText.length
    (k - r.headText.length), k - r.headText.length, s.skip k⟩, ?_, hps.data, hps.plain, ?_⟩
  · rw [recvResponseHeader, refill]
    simp only [Nat.sub_zero, hread]
    rw [if_neg (by omega)]
    simp only [parse, Nat.zero_add, Int.toNat_natCast, hexecute, herror, Bool.false_eq_true,
      if_false]
    rw [if_neg hroom]
    simp only [hfinished, if_true]
  · refine ⟨_, hskip, ?_⟩
    simp only
    rw [slice_memmove _ hfirst, slice_terminate, hslice,
      ← List.drop_append_of_le_length (by rw [hlength]; exact hfirst), List.take_append_drop, hdump,
      List.drop_left' rfl]

/-- The receiver returns the response with its body, decoded. -/
theorem Conforms.recvResponse_dump (h : r.Conforms) (env : ClientEnv)
    (hsmall : r.dump.length < 2 ^ 31)
    (hcast : env.lexicalCast (printNat r.body.length) = some (UInt64.ofNat r.body.length))
    (hs : CutStream s (r.dump ++ rest)) (hfirst : r.headText.length ≤ s.readLength bufferSize)
    (hroom : ((s.readLength bufferSize - r.headText.length : Nat) : Int) ≠ toInt32 bufferSize)
    (fuel : Nat) : ∃ s', recvResponse env bufferSize (fuel + 1) s =
      .ok ({ r.sent with body := r.decodedBody env }, s') := by
  have hbody : r.body.length < 2 ^ 31 := by
    rw [h.dump_eq, List.length_append] at hsmall
    omega
  rcases h.recvHeader_dump hs hfirst hroom env.memory fuel with
    ⟨b, hheader, hdata, hplain, bytes, hbytes, hrest⟩
  rcases recvKnownLength_body (h.contentLength_sent hdata hbody hcast) hbody hbytes hrest with
    ⟨b', hknown, hps⟩
  refine ⟨b'.s, ?_⟩
  rw [recvResponse, hheader]
  simp only [hplain, Bool.false_eq_true, if_false, hknown]
  rw [hps, hdata, decodeBody_sent]

end

/-- The text of a response is read back by one call of the parser, and the receiver returns the
response with its body, decoded as the header asks for it. -/
theorem response_readsBack (env : ClientEnv) (m : Memory) {r : OutResponse} (h : r.Conforms)
    (hsmall : r.dump.length < 2 ^ 31)
    (hcast : env.lexicalCast (printNat r.body.length) = some (UInt64.ofNat r.body.length)) :
    ReadsBack m r ∧
      ∀ (bufferSize : Nat) (s : SocketStream) (rest : Text), CutStream s (r.dump ++ rest) →
        r.headText.length ≤ s.readLength bufferSize →
        ((s.readLength bufferSize - r.headText.length : Nat) : Int) ≠ toInt32 bufferSize →
        ∀ fuel, ∃ s', recvResponse env bufferSize (fuel + 1) s =
          .ok ({ r.sent with body := r.decodedBody env }, s') :=
  ⟨h.readsBack m hsmall, fun _ _ _ hs hfirst hroom fuel =>
    h.recvResponse_dump env hsmall hcast hs hfirst hroom fuel⟩

/-- `200 OK` with a header field and a body -/
def smallResponse (name value body : Text) : OutResponse where
  status := 200
  version := 0x11
  body := body
  reason := []
  headers := [(name, value)]
  close := true
  websocket := false
  cookies := []

/-- The surroundings of a call that uses `boost::lexical_cast` only. -/
def castingClient : ClientEnv := ⟨fun _ => 0, decimal, id, id⟩

/-- `"hi"` -/
def hiText : Text := text ['h', 'i']

/-- `"hi"` as `gzip` compresses it -/
def zippedHi : Text :=
  [31, 139, 8, 0, 0, 0, 0, 0, 2, 255, 203, 200, 4, 0, 172, 42, 147, 216, 2, 0, 0, 0]

/-- `X: y` -/
def plainResponse : OutResponse := smallResponse (text ['X']) (text ['y']) hiText

/-- `Content-Encoding: gzip` -/
def zippedResponse : OutResponse :=
  smallResponse (text ['C', 'o', 'n', 't', 'e', 'n', 't', '-', 'E', 'n', 'c', 'o', 'd', 'i', 'n',
    'g']) (text ['g', 'z', 'i', 'p']) zippedHi

/-- A response with one header conforms. -/
theorem smallResponse_conforms {name value body : Text} (hname : isName name = true)
    (hvalue : isValue value = true) (hlength : caseKey name ≠ caseKey contentLengthName)
    (hencoding : caseKey name ≠ caseKey transferEncodingName) :
    (smallResponse name value body).Conforms where
  status_ge := show (-2 ^ 31 : Int) ≤ 200 by decide
  status_lt := show (200 : Int) < 2 ^ 31 by decide
  version := .inr rfl
  reason := rfl
  ordered := List.pairwise_singleton _ _
  name := by simpa [smallResponse] using hname
  value := by simpa [smallResponse] using hvalue
  length := by simpa [smallResponse] using hlength
  encoding := by simpa [smallResponse] using hencoding
  websocket := rfl
  cookies := rfl

/-- A text that arrives in one read. -/
theorem Conforms.whole_read {r : OutResponse} (h : r.Conforms) {bufferSize : Nat}
    (hsize : r.dump.length ≤ bufferSize) (hint : bufferSize < 2 ^ 31)
    (hmax : r.dump.length ≤ maxTransfer) :
    CutStream (ofCuts [r.dump]) (r.dump ++ []) ∧
      r.headText.length ≤ (ofCuts [r.dump]).readLength bufferSize ∧
      (((ofCuts [r.dump]).readLength bufferSize - r.headText.length : Nat) : Int) ≠
        toInt32 bufferSize := by
  have hpos : 0 < r.headText.length := by simp [headText]
  have hlength : r.dump.length = r.headText.length + r.body.length := by
    rw [h.dump_eq, List.length_append]
  have hread : (ofCuts [r.dump]).readLength bufferSize = r.dump.length := by
    rw [readLength_ofCuts]
    omega
  have hne : r.dump ≠ [] := List.length_pos_iff.mp (by omega)
  rw [hread, toInt32_of_lt hint]
  refine ⟨?_, by omega, by omega⟩
  simpa using ofCuts_cutStream (show ∀ c ∈ [r.dump], c ≠ [] by simpa using hne)

theorem plainResponse_conforms : plainResponse.Conforms :=
  smallResponse_conforms (by decide) (by decide) (by decide) (by decide)

theorem zippedResponse_conforms : zippedResponse.Conforms :=
  smallResponse_conforms (by decide) (by decide) (by decide) (by decide)

/-- A response with the body `hi` is read back. -/
theorem response_readsBack_hi : ReadsBack (fun _ => 0) plainResponse ∧
    ∃ s', recvResponse castingClient 4096 1 (ofCuts [plainResponse.dump]) =
      .ok ({ plainResponse.sent with body := hiText }, s') := by
  have hread := plainResponse_conforms.whole_read (show _ ≤ 4096 by decide) (by decide)
    (by decide)
  have hbody : plainResponse.decodedBody castingClient = hiText := by decide
  have hback := response_readsBack castingClient (fun _ => 0) plainResponse_conforms
    (by decide) (by decide)
  rw [hbody] at hback
  exact ⟨hback.1, hback.2 4096 _ [] hread.1 hread.2.1 hread.2.2 0⟩

/-- A client whose `gunzip` knows one text. -/
def zippedClient : ClientEnv :=
  ⟨fun _ => 0, decimal, fun body => if body = zippedHi then hiText else [], id⟩

/-- A compressed body is not returned as it was sent. -/
theorem response_readsBack_fails : zippedResponse.Conforms ∧
    ∀ fuel, ¬∃ rsp s', recvResponse zippedClient 4096 fuel (ofCuts [zippedResponse.dump]) =
      .ok (rsp, s') ∧ rsp.body = zippedResponse.body := by
  refine ⟨zippedResponse_conforms, ?_⟩
  rintro fuel ⟨rsp, s', hrecv, hbody⟩
  have hread := zippedResponse_conforms.whole_read (show _ ≤ 4096 by decide) (by decide)
    (by decide)
  cases fuel with
  | zero => simp [recvResponse, recvResponseHeader] at hrecv
  | succ fuel =>
      rcases zippedResponse_conforms.recvResponse_dump zippedClient (by decide)
        (by decide) hread.1 hread.2.1 hread.2.2 fuel with ⟨s'', hdump⟩
      rw [hdump, Except.ok.injEq, Prod.mk.injEq] at hrecv
      rw [← hrecv.1] at hbody
      exact absurd hbody (by decide)

end OutResponse

end Http
end Tiger
