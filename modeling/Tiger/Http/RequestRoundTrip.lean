import Tiger.Http.Cuts
import Tiger.Http.Params
import Tiger.Http.RequestReads

/-!
# HTTP - reading a printed request

What `HTTPRequestParser::execute` makes of the text that `HTTPRequest::dump` writes.  The
parser asserts that the length of a call survives the conversion to `int`, and it takes a
header name that starts with an end of line for the end of the header.

Main results:

- Theorem `readsBack_iff`: a request without cookies is read back exactly when its text is
  shorter than `2 ^ 31` bytes and no header name starts with an end of line.
- Theorem `not_readsBackWithCookies`: a request with cookies is never read back.
-/

namespace Tiger
namespace Http

open Lib.Ragel HTTPRequestParser RequestGrammar

/-! ## One call -/

namespace HTTPRequestParser

/-- `HTTPRequestParser::execute`, without the move of what is left; the first assert compares
the length with its value as an `int`. -/
def execute (m : Memory) (length : Nat) (ps : HTTPRequestParser) : Executed :=
  if toInt32 length ≠ length then .abort else executeMachine m length ps

/-- A call that returns passed the first assert. -/
theorem execute_length_lt {m : Memory} {length nparse : Nat} {ps ps' : HTTPRequestParser}
    (h : execute m length ps = .ok nparse ps') : length < 2 ^ 31 := by
  rw [← toInt32_eq_iff]
  by_contra hne
  rw [execute, if_pos hne] at h
  simp at h

/-- A first call that the machine ends at some position returns that position. -/
theorem execute_ok {env : Env} {m : Memory} {length p nparse : Nat} {ps ps' : HTTPRequestParser}
    (hlen : 0 < length) (hexec : exec m length 0 (HTTPRequestParser.init env) = some (p, ps))
    (h : execute m length (HTTPRequestParser.init env) = .ok nparse ps') :
    nparse = p ∧ ps' = { ps with nread := p } := by
  have hnread := (exec_scan rfl hexec).1
  rw [execute] at h
  split at h
  · simp at h
  · rw [executeMachine, if_neg (by omega)] at h
    simp only [hexec] at h
    split at h
    · simp only [Executed.ok.injEq] at h
      have hzero : ps.nread + p = p := by
        rw [hnread]
        exact Nat.zero_add p
      rw [hzero] at h
      exact ⟨h.1.symm, h.2.symm⟩
    · simp at h

end HTTPRequestParser

/-! ## The text of a request -/

/-- The header fields in front of the cookies. -/
def fieldsOf (r : OutRequest) : List (Text × Text) :=
  (if r.websocket then [] else [(connectionName, connectionValue r.close)]) ++
    printedHeaders r.websocket r.headers

/-- The header field behind them. -/
def lengthFields (body : Text) : List (Text × Text) :=
  if body.isEmpty then [] else [(contentLengthName, printNat body.length)]

/-- The end of a dump: the content length, the empty line and the body. -/
theorem printBody_eq (body : Text) :
    printBody body = (lengthFields body).flatMap headerLine ++ (([13] ++ [10]) ++ body) := by
  rw [printBody, lengthFields]
  split
  next hempty =>
    rw [List.isEmpty_iff.mp hempty]
    rfl
  next => simp

/-- A dump by its lines. -/
theorem dump_eq {r : OutRequest} {text : Text} (h : r.dump = some text) :
    ∃ method, httpMethodToString r.method = some method ∧
      text = lineText method r ++ ((fieldsOf r).flatMap headerLine ++
        (printCookies r.cookies ++ printBody r.body)) := by
  rcases Option.map_eq_some_iff.mp h with ⟨method, hmethod, rfl⟩
  refine ⟨method, hmethod, ?_⟩
  have hfields : (fieldsOf r).flatMap headerLine =
      printConnection r ++ (printedHeaders r.websocket r.headers).flatMap headerLine := by
    rw [fieldsOf, printConnection, List.flatMap_append]
    split
    · rfl
    · simp
  rw [hfields]
  simp only [lineText, printLine, List.append_assoc]

/-- The request line and header lines. -/
theorem reads_head (env : Env) {r : OutRequest} {method : Text} {m : Memory}
    {es : List (Text × Text)} (hline : LineConforms method r) (hes : ∀ e ∈ es, IsField e)
    (hat : At m 0 (lineText method r ++ es.flatMap headerLine))
    (hsmall : (lineText method r ++ es.flatMap headerLine).length < 2 ^ 62) :
    ∃ ps', Reads m 0 (lineText method r ++ es.flatMap headerLine) (HTTPRequestParser.init env) ps' ∧
      Reading HeaderState.top.threads
        { lineRequest r with headers := FieldMap.setAll [] es } ps' := by
  rw [List.length_append] at hsmall
  rcases at_append.mp hat with ⟨hatLine, hatFields⟩
  rcases reads_requestLine hline hatLine (by omega) with ⟨ps₁, hreads₁, hps₁⟩
  rcases reads_headerLines hes hps₁ hatFields (by omega) with ⟨ps₂, hreads₂, hps₂⟩
  exact ⟨ps₂, hreads₁.append hreads₂, hps₂⟩

/-- The connection header is a field. -/
theorem isField_connection (close : Bool) : IsField (connectionName, connectionValue close) := by
  cases close
  · exact ⟨by decide, by decide, .inr (by decide)⟩
  · exact ⟨by decide, by decide, .inr (by decide)⟩

/-- A printed number is a field value. -/
theorem isFieldValue_printNat (n : Nat) : isFieldValue (printNat n) = true := by
  have hdigits : ∀ k < 58, 48 ≤ k →
      isValueByte (UInt8.ofNat k) = true ∧ isBlank (UInt8.ofNat k) = false := by decide
  have hdigit : ∀ c ∈ printNat n, isValueByte c = true ∧ isBlank c = false := by
    intro c hc
    have hrange := printNat_digit hc
    have hc := hdigits c.toNat (by omega) hrange.1
    rwa [UInt8.ofNat_toNat] at hc
  rw [isFieldValue, Bool.and_eq_true]
  refine ⟨List.all_eq_true.mpr fun c hc => (hdigit c hc).1, ?_⟩
  cases hnat : printNat n with
  | nil => exact absurd hnat (printNat_ne_nil n)
  | cons c rest => simp [(hdigit c (by rw [hnat]; exact List.mem_cons_self)).2]

/-- The content length is a field. -/
theorem isField_length {body : Text} : ∀ e ∈ lengthFields body, IsField e := by
  intro e he
  rw [lengthFields] at he
  split at he
  · simp at he
  · rw [List.mem_singleton.mp he]
    exact ⟨show isFieldName contentLengthName = true by decide,
      show isLineStart contentLengthName = false by decide, .inr (isFieldValue_printNat _)⟩

/-! ## The whole header -/

/-- A text whose last byte ends the call is one whole header. -/
theorem isHeader_of_exec {env : Env} {hd : Text} {m : Memory} {ps : HTTPRequestParser}
    {threads : List E}
    (hexec : exec (store m 0 hd) hd.length 0 (HTTPRequestParser.init env) = some (hd.length, ps))
    (hcs : ps.cs = some threads) (hfinal : isFinal threads = true) : IsHeader env hd := by
  have hstops := (exec_scan rfl hexec).2
  rw [slice_store_all] at hstops
  change Stops _ _ _ _ (scan .done (startState env) hd) at hstops
  cases hscan : scan .done (startState env) hd with
  | running ths =>
      rw [hscan, Stops, hcs, Option.some.injEq] at hstops
      have hreach : RequestReach env.uriRelaxed ths := Reach.start.running hscan
      rw [hstops.2, hreach.not_isFinal] at hfinal
      simp at hfinal
  | stopped k ths =>
      rw [hscan, Stops] at hstops
      have hk : k = hd.length := by omega
      exact ⟨ths, by rw [hscan, hk]⟩
  | failed k =>
      rw [hscan, Stops, hcs] at hstops
      simp at hstops

/-- The header of a text. -/
def headText (method : Text) (r : OutRequest) (es : List (Text × Text)) : Text :=
  (lineText method r ++ es.flatMap headerLine) ++ ([13] ++ [10])

/-- The machine ends with the header. -/
theorem exec_headText (env : Env) {m : Memory} {r : OutRequest} {method : Text}
    {es : List (Text × Text)} (hline : LineConforms method r) (hes : ∀ e ∈ es, IsField e)
    (hat : At m 0 (headText method r es)) (hsmall : (headText method r es).length < 2 ^ 62) :
    ∃ ps, exec m (headText method r es).length 0 (HTTPRequestParser.init env) =
        some ((headText method r es).length, ps) ∧
      Reading headerDone { lineRequest r with headers := FieldMap.setAll [] es } ps := by
  rw [headText] at hat hsmall ⊢
  rcases at_append.mp hat with ⟨hatHead, hatEnd⟩
  rw [List.length_append] at hsmall
  rcases reads_head env hline hes hatHead (by omega) with ⟨ps₁, hreads, hps₁⟩
  rcases exec_headerEnd 0 hps₁ hatEnd with ⟨ps₂, hexec, hps₂⟩
  refine ⟨ps₂, ?_, hps₂⟩
  rw [hreads.exec_append, @List.length_append UInt8 (_ ++ _)]
  simp only [Nat.zero_add] at hexec ⊢
  exact hexec

/-- A call with the whole header returns its length, and the request has the fields. -/
theorem execute_whole (env : Env) {m : Memory} {r : OutRequest} {method : Text}
    {es : List (Text × Text)} (hline : LineConforms method r) (hes : ∀ e ∈ es, IsField e)
    (body : Text) (hsmall : (headText method r es ++ body).length < 2 ^ 31) :
    ∃ ps, execute (store m 0 (headText method r es ++ body)) (headText method r es ++ body).length
          (HTTPRequestParser.init env) = .ok (headText method r es).length ps ∧
      Reading headerDone { lineRequest r with headers := FieldMap.setAll [] es } ps := by
  have hhead : (headText method r es).length < 2 ^ 31 := by
    rw [List.length_append] at hsmall
    omega
  rcases exec_headText env hline hes (at_store m _) (by omega) with ⟨ps, hexec, hps⟩
  have hheader : IsHeader env (headText method r es) :=
    isHeader_of_exec hexec hps.cs (by decide)
  refine ⟨{ ps with nread := (headText method r es).length }, ?_, hps.cs, hps.data, hps.ok⟩
  have hcast := (toInt32_eq_iff _).mpr hsmall
  rw [execute, if_neg (by rw [hcast]; simp), executeMachine_header hheader (by omega) m m body]
  simp only [hexec]

/-! ## Names that start with an end of line -/

private theorem step_top_feed :
    step HeaderState.top.threads 10 = some ([.startField, .done], headerDone) := by
  decide

/-- A name that starts with an end of line ends the header. -/
theorem exec_lineStart {m : Memory} {p : Nat} {d : HTTPRequest} {ps : HTTPRequestParser}
    {name : Text} (h : Reading HeaderState.top.threads d ps) (hname : isLineStart name = true)
    (hat : At m p name) (n : Nat) :
    ∃ k ps', k ≤ name.length ∧ exec m (n + name.length) p ps = some (p + k, ps') := by
  fun_cases isLineStart name with
  | case1 rest =>
      rcases act_done m p { ps with fieldStart := p } with ⟨ps₁, hact, -⟩
      have hacts : acts m p [.startField, .done] ps = some ps₁ := by
        rw [acts, act, Option.bind_some, acts, hact]
        rfl
      have hstep : step HeaderState.top.threads (m p) =
          some ([.startField, .done], headerDone) := by
        rw [(at_cons.mp hat).1]
        exact step_top_feed
      exact ⟨1, _, by simp, exec_stop h.cs hstep (by simp) hacts⟩
  | case2 rest =>
      have hend : At m p ([13] ++ [10]) :=
        (at_append.mp (show At m p (([13] ++ [10]) ++ rest) from hat)).1
      rcases exec_headerEnd (n + rest.length) h hend with ⟨ps₁, hexec, -⟩
      exact ⟨2, ps₁, by simp, hexec⟩
  | case3 => simp [isLineStart] at hname

/-- A call stops in front of the body when a header name starts with an end of line. -/
theorem exec_badName (env : Env) {m : Memory} {r : OutRequest} {method : Text}
    {es es' : List (Text × Text)} {e : Text × Text} {rest : Text}
    (hline : LineConforms method r) (hes : ∀ e ∈ es, IsField e) (he : isLineStart e.1 = true)
    (hat : At m 0 (lineText method r ++ ((es ++ e :: es').flatMap headerLine ++ rest)))
    (hsmall :
      (lineText method r ++ ((es ++ e :: es').flatMap headerLine ++ rest)).length < 2 ^ 31) :
    ∃ p ps, exec m (lineText method r ++ ((es ++ e :: es').flatMap headerLine ++ rest)).length 0
        (HTTPRequestParser.init env) = some (p, ps) ∧
      p + rest.length <
        (lineText method r ++ ((es ++ e :: es').flatMap headerLine ++ rest)).length := by
  have htext : lineText method r ++ ((es ++ e :: es').flatMap headerLine ++ rest) =
      (lineText method r ++ es.flatMap headerLine) ++
        (e.1 ++ ((58 :: 32 :: (e.2 ++ [13, 10])) ++ (es'.flatMap headerLine ++ rest))) := by
    simp [headerLine]
  rw [htext] at hat hsmall ⊢
  rcases at_append.mp hat with ⟨hatHead, hatRest⟩
  simp only [List.length_append] at hsmall
  rcases reads_head env hline hes hatHead
    (by simp only [List.length_append]; omega) with ⟨ps₁, hreads, hps₁⟩
  rcases exec_lineStart hps₁ he (at_append.mp hatRest).1
    ((58 :: 32 :: (e.2 ++ [13, 10])) ++ (es'.flatMap headerLine ++ rest)).length with
    ⟨k, ps₂, hk, hexec⟩
  refine ⟨0 + (lineText method r ++ es.flatMap headerLine).length + k, ps₂, ?_, ?_⟩
  · rw [hreads.exec_append, List.length_append, Nat.add_comm e.1.length]
    exact hexec
  · simp only [List.length_append, List.length_cons]
    omega

/-! ## Requests without cookies -/

/-- The parts of a request are those of the grammar. -/
structure Conforms (r : OutRequest) : Prop where
  method : ∃ t, httpMethodToString r.method = some t ∧ isFieldName t = true
  version : isVersion r.version
  path : isPathAbsolute r.path = true
  query : isQuery r.query = true
  fragment : isQuery r.fragment = true
  name : ∀ e ∈ r.headers, isFieldName e.1 = true
  value : ∀ e ∈ r.headers, isFieldValue e.2 = true

/-- The header fields of a request as they are sent: with the connection that `dump` derives
and the length of a body that is not empty. -/
def sentHeaders (r : OutRequest) : FieldMap :=
  let headers := (printedHeaders false r.headers).set connectionName (connectionValue r.close)
  if r.body.isEmpty then headers else headers.set contentLengthName (printNat r.body.length)

/-- A call of the parser with the text takes it up to the body, without an error, and gives the
request back. -/
def ReadsBack (env : Env) (m : Memory) (r : OutRequest) (text : Text) : Prop :=
  ∃ nparse ps, execute (store m 0 text) text.length (HTTPRequestParser.init env) = .ok nparse ps ∧
    ps.hasError = false ∧ ps.isFinished = true ∧
    nparse + r.body.length = text.length ∧ text.drop nparse = r.body ∧
    ps.data.method = r.method ∧ ps.data.version = r.version ∧ ps.data.path = r.path ∧
    ps.data.query = r.query ∧ ps.data.fragment = r.fragment ∧ ps.data.headers = sentHeaders r

/-- No header name starts with an end of line. -/
def NoLineStart (headers : FieldMap) : Prop := ∀ e ∈ headers, isLineStart e.1 = false

/-- A conforming request with a method of the table has a conforming first line. -/
theorem Conforms.line {r : OutRequest} (h : Conforms r) {method : Text}
    (hmethod : httpMethodToString r.method = some method) : LineConforms method r where
  printed := hmethod
  token := by
    rcases h.method with ⟨t, ht, htoken⟩
    rw [hmethod, Option.some.injEq] at ht
    rwa [ht]
  version := h.version
  path := by rw [isPath, h.path, Bool.or_true]
  query := h.query
  fragment := h.fragment

theorem mem_printedHeaders {websocket : Bool} {headers : FieldMap} {e : Text × Text}
    (h : e ∈ printedHeaders websocket headers) : e ∈ headers :=
  (List.mem_filter.mp h).1

/-- The fields in front of the cookies are those of header lines. -/
theorem Conforms.isField {r : OutRequest} (h : Conforms r) {e : Text × Text}
    (he : e ∈ fieldsOf r) (hstart : isLineStart e.1 = false) : IsField e := by
  rcases List.mem_append.mp he with he | he
  · split at he
    · simp at he
    · rw [List.mem_singleton.mp he]
      exact isField_connection r.close
  · have hmem := mem_printedHeaders he
    exact ⟨h.name e hmem, hstart, .inr (h.value e hmem)⟩

/-- A name is that of the connection header up to case. -/
theorem isConnection_iff {name : Text} :
    isConnection name = true ↔ caseKey name = caseKey connectionName := by
  rw [isConnection, decide_eq_true_eq]
  exact Eq.congr_right (by decide)

/-- Setting the fields of the text gives the fields that were sent. -/
theorem setAll_fields {r : OutRequest} (h : r.headers.Ordered)
    (hplain : r.websocket = false) :
    FieldMap.setAll [] (fieldsOf r ++ lengthFields r.body) = sentHeaders r := by
  have hord : ([] ++ printedHeaders false r.headers : FieldMap).Ordered :=
    h.sublist List.filter_sublist
  have hne : ∀ e ∈ printedHeaders false r.headers, caseKey e.1 ≠ caseKey connectionName := by
    intro e he hkey
    have hfilter := (List.mem_filter.mp he).2
    rw [isConnection_iff.mpr hkey] at hfilter
    simp at hfilter
  have hset : FieldMap.setAll [] (fieldsOf r) =
      (printedHeaders false r.headers).set connectionName (connectionValue r.close) := by
    rw [fieldsOf, hplain]
    exact FieldMap.setAll_set hord hne
  rw [FieldMap.setAll_append, hset, sentHeaders, lengthFields]
  split
  · rfl
  · rfl

/-- The text of a request without cookies. -/
theorem dump_eq_headText {r : OutRequest} {text : Text} (h : r.dump = some text)
    (hcookies : r.cookies = []) :
    ∃ method, httpMethodToString r.method = some method ∧
      text = headText method r (fieldsOf r ++ lengthFields r.body) ++ r.body := by
  rcases dump_eq h with ⟨method, hmethod, rfl⟩
  refine ⟨method, hmethod, ?_⟩
  rw [hcookies, printBody_eq, headText, List.flatMap_append]
  simp [printCookies]

/-- The first header name that starts with an end of line. -/
theorem exists_first_lineStart {es : List (Text × Text)} {e : Text × Text} (he : e ∈ es)
    (hstart : isLineStart e.1 = true) :
    ∃ l e' l', es = l ++ e' :: l' ∧ isLineStart e'.1 = true ∧ ∀ x ∈ l, isLineStart x.1 = false := by
  cases hfind : es.find? fun x => isLineStart x.1 with
  | none => exact absurd hstart (List.find?_eq_none.mp hfind e he)
  | some e' =>
      rcases List.find?_eq_some_iff_append.mp hfind with ⟨hstart', l, l', rfl, hl⟩
      exact ⟨l, e', l', rfl, hstart', fun x hx => by simpa using hl x hx⟩

/-- A name that ends the header lines is not that of the connection header. -/
theorem not_isConnection_of_lineStart {name : Text} (h : isLineStart name = true) :
    isConnection name = false := by
  rw [Bool.eq_false_iff, ne_eq, isConnection_iff]
  fun_cases isLineStart name with
  | case1 rest => simp [caseKey, connectionName, text, byte]
  | case2 rest => simp [caseKey, connectionName, text, byte]
  | case3 => simp [isLineStart] at h

/-- A header whose name ends the header lines is printed. -/
theorem mem_fieldsOf_of_lineStart {r : OutRequest} {e : Text × Text} (he : e ∈ r.headers)
    (h : isLineStart e.1 = true) : e ∈ fieldsOf r := by
  refine List.mem_append_right _ (List.mem_filter.mpr ⟨he, ?_⟩)
  rw [not_isConnection_of_lineStart h]
  simp

/-- No printed field ends the header lines when no header does. -/
theorem not_lineStart_fieldsOf {r : OutRequest} (h : NoLineStart r.headers) :
    ∀ e ∈ fieldsOf r, isLineStart e.1 = false := by
  intro e he
  rcases List.mem_append.mp he with he | he
  · split at he
    · simp at he
    · rw [List.mem_singleton.mp he]
      exact (isField_connection r.close).2.1
  · exact h e (mem_printedHeaders he)

/-- A header name that starts with an end of line ends the call in front of the text behind the
header fields. -/
theorem exec_lineStart_dump (env : Env) {m : Memory} {r : OutRequest} {method rest : Text}
    {e : Text × Text} (hr : Conforms r) (hmethod : httpMethodToString r.method = some method)
    (he : e ∈ r.headers) (hstart : isLineStart e.1 = true)
    (hsmall : (lineText method r ++ ((fieldsOf r).flatMap headerLine ++ rest)).length < 2 ^ 31) :
    ∃ p ps, exec (store m 0 (lineText method r ++ ((fieldsOf r).flatMap headerLine ++ rest)))
        (lineText method r ++ ((fieldsOf r).flatMap headerLine ++ rest)).length 0
        (HTTPRequestParser.init env) = some (p, ps) ∧
      p + rest.length < (lineText method r ++
        ((fieldsOf r).flatMap headerLine ++ rest)).length := by
  rcases exists_first_lineStart (mem_fieldsOf_of_lineStart he hstart) hstart with
    ⟨l, e', l', hsplit, hstart', hl⟩
  have hmem : ∀ x ∈ l, x ∈ fieldsOf r := fun x hx => hsplit ▸ List.mem_append_left _ hx
  rw [hsplit] at hsmall ⊢
  exact exec_badName env (hr.line hmethod) (fun x hx => hr.isField (hmem x hx) (hl x hx)) hstart'
    (at_store m _) hsmall

/-- A request without cookies is read back exactly when its text is shorter than `2 ^ 31`
bytes and no header name starts with an end of line. -/
theorem readsBack_iff (env : Env) (m : Memory) {r : OutRequest} {text : Text} (hr : Conforms r)
    (hord : r.headers.Ordered) (hplain : r.websocket = false) (hcookies : r.cookies = [])
    (hdump : r.dump = some text) :
    ReadsBack env m r text ↔ text.length < 2 ^ 31 ∧ NoLineStart r.headers := by
  constructor
  · rintro ⟨nparse, ps, hexecute, -, -, hlength, -⟩
    have hsmall := execute_length_lt hexecute
    refine ⟨hsmall, ?_⟩
    by_contra hbad
    simp only [NoLineStart, not_forall] at hbad
    rcases hbad with ⟨e, he, hstart⟩
    rw [Bool.not_eq_false] at hstart
    rcases dump_eq hdump with ⟨method, hmethod, rfl⟩
    rcases exec_lineStart_dump env (m := m) hr hmethod he hstart hsmall
      with ⟨p, ps', hexec, hlt⟩
    have hp := (execute_ok (by omega) hexec hexecute).1
    rw [printBody_eq] at hlt hlength
    simp only [List.length_append] at hlt hlength
    omega
  · rintro ⟨hsmall, hstart⟩
    rcases dump_eq_headText hdump hcookies with ⟨method, hmethod, rfl⟩
    have hfields : ∀ e ∈ fieldsOf r ++ lengthFields r.body, IsField e := by
      intro e he
      rcases List.mem_append.mp he with he | he
      · exact hr.isField he (not_lineStart_fieldsOf hstart e he)
      · exact isField_length e he
    rcases execute_whole env (m := m) (hr.line hmethod) hfields r.body hsmall with
      ⟨ps, hexecute, hps⟩
    refine ⟨_, ps, hexecute, ?_, ?_, by rw [List.length_append], by simp, ?_⟩
    · rw [hasError, hps.ok, hps.cs]
      rfl
    · rw [isFinished, hps.cs]
      decide
    · rw [hps.data, ← setAll_fields hord hplain]
      exact ⟨rfl, rfl, rfl, rfl, rfl, rfl⟩

/-- `PUT /a?b#c` with a header field and a body -/
def smallRequest : OutRequest where
  method := .PUT
  version := 0x11
  close := false
  path := text ['/', 'a']
  query := text ['b']
  fragment := text ['c']
  body := text ['h', 'i']
  headers := [(text ['H', 'o', 's', 't'], text ['x'])]
  websocket := false
  cookies := []

/-- The small request conforms. -/
theorem smallRequest_conforms : Conforms smallRequest where
  method := ⟨text ['P', 'U', 'T'], by decide, by decide⟩
  version := .inr rfl
  path := by decide
  query := by decide
  fragment := by decide
  name := by simp [smallRequest]; decide
  value := by simp [smallRequest]; decide

/-- A `PUT` request is read back. -/
theorem readsBack_put : ∃ text, smallRequest.dump = some text ∧
    ReadsBack plainEnv (fun _ => 0) smallRequest text := by
  refine ⟨_, rfl, (readsBack_iff plainEnv (fun _ => 0) smallRequest_conforms
    (List.pairwise_singleton _ _) rfl rfl rfl).mpr ?_⟩
  exact ⟨by decide, by simp [NoLineStart, smallRequest]; decide⟩

/-- `GET /` with a body -/
def bodyRequest (body : Text) : OutRequest where
  method := .GET
  version := 0x11
  close := true
  path := text ['/']
  query := []
  fragment := []
  body := body
  headers := []
  websocket := false
  cookies := []

theorem bodyRequest_method (body : Text) :
    httpMethodToString (bodyRequest body).method = some (text ['G', 'E', 'T']) :=
  show httpMethodToString .GET = some (text ['G', 'E', 'T']) by decide

/-- The request with a body conforms. -/
theorem bodyRequest_conforms (body : Text) : Conforms (bodyRequest body) where
  method := ⟨text ['G', 'E', 'T'], bodyRequest_method body, by decide⟩
  version := .inr rfl
  path := show isPathAbsolute (text ['/']) = true by decide
  query := rfl
  fragment := rfl
  name := by simp [bodyRequest]
  value := by simp [bodyRequest]

/-- The dump of a request is at least as long as its body. -/
theorem bodyRequest_dump (body : Text) :
    ∃ text, (bodyRequest body).dump = some text ∧ body.length ≤ text.length := by
  have hdump : ∃ text, (bodyRequest body).dump = some text := by
    rw [OutRequest.dump, bodyRequest_method]
    exact ⟨_, rfl⟩
  rcases hdump with ⟨text, hdump⟩
  refine ⟨text, hdump, ?_⟩
  rcases dump_eq_headText hdump rfl with ⟨method, -, rfl⟩
  rw [List.length_append]
  exact Nat.le_add_left _ _

/-- A request with a body of 2^31 bytes is not read back. -/
theorem readsBack_fails : ∃ text, (bodyRequest (List.replicate (2 ^ 31) 0)).dump = some text ∧
    Conforms (bodyRequest (List.replicate (2 ^ 31) 0)) ∧
    ¬ReadsBack plainEnv (fun _ => 0) (bodyRequest (List.replicate (2 ^ 31) 0)) text := by
  rcases bodyRequest_dump (List.replicate (2 ^ 31) 0) with ⟨text, hdump, hlength⟩
  have hconforms := bodyRequest_conforms (List.replicate (2 ^ 31) 0)
  refine ⟨text, hdump, hconforms, ?_⟩
  intro hreads
  rcases hreads with ⟨nparse, ps, hexecute, -⟩
  have hsmall := execute_length_lt hexecute
  rw [List.length_replicate] at hlength
  omega

/-! ## Requests with cookies -/

/-- A header name that `dump` or the cookies may bring in. -/
def isReserved (name : Text) : Bool :=
  isConnection name || decide (caseKey name = caseKey contentLengthName) ||
    decide (caseKey name = caseKey setCookieName) ||
    decide (caseKey name = caseKey (text ['c', 'o', 'o', 'k', 'i', 'e']))

/-- A call of the parser with the text takes it up to the body, without an error; the request
has the cookies, and the other header fields are as they were. -/
def ReadsBackWithCookies (env : Env) (m : Memory) (r : OutRequest) (text : Text) : Prop :=
  ∃ nparse ps, execute (store m 0 text) text.length (HTTPRequestParser.init env) = .ok nparse ps ∧
    ps.hasError = false ∧ text.drop nparse = r.body ∧
    (∀ e ∈ r.cookies, ps.data.getCookie e.1 = e.2) ∧
    ∀ name, isReserved name = false → ps.data.headers.find name = r.headers.find name

private theorem step_top_tab : step HeaderState.top.threads 9 = none := by
  decide

/-- The machine has no way on at the tab in front of a cookie. -/
theorem exec_cookies {m : Memory} {p : Nat} {d : HTTPRequest} {ps : HTTPRequestParser} {rest : Text}
    (h : Reading HeaderState.top.threads d ps)
    (hat : At m p ((setCookieName ++ ([58] ++ [32])) ++ ([10] ++ ([9] ++ rest))))
    (hsmall : p + 12 < 2 ^ 62) :
    ∃ q ps', exec m ((setCookieName ++ ([58] ++ [32])) ++ ([10] ++ ([9] ++ rest))).length p ps =
      some (q, ps') ∧ ps'.cs = none := by
  have hname : isFieldName setCookieName = true := by decide
  have hlength : (setCookieName ++ ([58] ++ [32])).length = 12 := rfl
  rcases at_append.mp hat with ⟨hatName, hatRest⟩
  rcases at_append.mp hatRest with ⟨hatFeed, hatTab⟩
  rcases reads_name hname (by decide) h hatName
    (by rw [show setCookieName.length = 10 from rfl]; omega) with ⟨ps₁, hreads₁, hps₁⟩
  -- the line feed ends a value without bytes
  rcases hps₁.takes_empty rfl hatFeed (by rw [hlength]; exact hsmall) with ⟨ps₂, hreads₂, hps₂⟩
  have hstep : step HeaderState.top.threads
      (m (p + (setCookieName ++ ([58] ++ [32])).length + ([10] : Text).length)) = none := by
    rw [(at_cons.mp hatTab).1]
    exact step_top_tab
  refine ⟨p + (setCookieName ++ ([58] ++ [32])).length + ([10] : Text).length,
    { ps₂ with cs := none }, ?_, rfl⟩
  rw [hreads₁.exec_append, hreads₂.exec_append, List.length_append, Nat.add_comm]
  exact exec_fail hps₂.cs hstep

/-- The text of cookies starts with a name, an end of line and a tab. -/
theorem printCookies_of_ne {cookies : FieldMap} (h : cookies ≠ []) : ∃ rest,
    printCookies cookies = (setCookieName ++ ([58] ++ [32])) ++ ([10] ++ ([9] ++ rest)) := by
  cases cookies with
  | nil => exact absurd rfl h
  | cons e cookies => exact ⟨_, rfl⟩

/-- A request with cookies is never read back: the parser fails at the first cookie. -/
theorem not_readsBackWithCookies (env : Env) (m : Memory) {r : OutRequest} {text : Text}
    (hr : Conforms r) (hcookies : r.cookies ≠ []) (hdump : r.dump = some text) :
    ¬ReadsBackWithCookies env m r text := by
  rintro ⟨nparse, ps, hexecute, herror, hbody, -⟩
  have hsmall := execute_length_lt hexecute
  rcases dump_eq hdump with ⟨method, hmethod, rfl⟩
  by_cases hstart : NoLineStart r.headers
  · rcases printCookies_of_ne hcookies with ⟨rest, hprinted⟩
    have htext : lineText method r ++ ((fieldsOf r).flatMap headerLine ++
        (printCookies r.cookies ++ printBody r.body)) =
        (lineText method r ++ (fieldsOf r).flatMap headerLine) ++
          ((setCookieName ++ ([58] ++ [32])) ++ ([10] ++ ([9] ++ (rest ++ printBody r.body)))) := by
      rw [hprinted]
      simp only [List.append_assoc]
    rw [htext] at hexecute hsmall
    have hat := at_append.mp (at_store m ((lineText method r ++ (fieldsOf r).flatMap headerLine) ++
      ((setCookieName ++ ([58] ++ [32])) ++ ([10] ++ ([9] ++ (rest ++ printBody r.body))))))
    simp only [List.length_append] at hsmall
    rcases reads_head env (hr.line hmethod)
      (fun e he => hr.isField he (not_lineStart_fieldsOf hstart e he)) hat.1
      (by simp only [List.length_append]; omega) with ⟨ps₁, hreads, hps₁⟩
    rcases exec_cookies hps₁ hat.2 (by simp only [List.length_append]; omega) with
      ⟨q, ps₂, hexec, hcs⟩
    rw [← hreads.exec_append] at hexec
    rw [(execute_ok (by simp) hexec hexecute).2, hasError] at herror
    simp [hcs] at herror
  · simp only [NoLineStart, not_forall] at hstart
    rcases hstart with ⟨e, he, hstart⟩
    rw [Bool.not_eq_false] at hstart
    rcases exec_lineStart_dump env (m := m) hr hmethod he hstart hsmall with
      ⟨p, ps', hexec, hlt⟩
    have hp := (execute_ok (by omega) hexec hexecute).1
    have hlength := congrArg List.length hbody
    rw [List.length_drop, hp] at hlength
    rw [printBody_eq] at hlt hlength
    simp only [List.length_append] at hlt hlength
    omega

/-- `smallRequest` with the cookie `k` of value `v` -/
def cookieRequest : OutRequest :=
  { smallRequest with cookies := [(text ['k'], text ['v'])] }

/-- The request with a cookie conforms. -/
theorem cookieRequest_conforms : Conforms cookieRequest :=
  ⟨smallRequest_conforms.method, smallRequest_conforms.version, smallRequest_conforms.path,
    smallRequest_conforms.query, smallRequest_conforms.fragment, smallRequest_conforms.name,
    smallRequest_conforms.value⟩

/-- A `PUT` request with a cookie is not read back. -/
theorem not_readsBackWithCookies_put : ∃ text, cookieRequest.dump = some text ∧
    ¬ReadsBackWithCookies plainEnv (fun _ => 0) cookieRequest text :=
  ⟨_, rfl, not_readsBackWithCookies plainEnv (fun _ => 0) cookieRequest_conforms
    (List.cons_ne_nil _ _) rfl⟩

/-- A call that does not return, or returns with an error. -/
def HTTPRequestParser.Executed.fails : Executed → Bool
  | .ok _ ps => ps.hasError
  | _ => true

/-- Not every conforming request is read back with its cookies. -/
theorem readsBackWithCookies_fails : ∃ text, cookieRequest.dump = some text ∧
    ¬ReadsBackWithCookies plainEnv (fun _ => 0) cookieRequest text := by
  refine ⟨_, rfl, ?_⟩
  rintro ⟨nparse, ps, hexecute, herror, -⟩
  have hfails : (execute (store (fun _ => 0) 0 (cookieRequest.dump.getD []))
      (cookieRequest.dump.getD []).length (HTTPRequestParser.init plainEnv)).fails = true := by
    decide
  change execute (store (fun _ => 0) 0 (cookieRequest.dump.getD []))
      (cookieRequest.dump.getD []).length (HTTPRequestParser.init plainEnv) = _ at hexecute
  rw [hexecute, Executed.fails, herror] at hfails
  simp at hfails

end Http
end Tiger
