import Tiger.Http.Exchange

/-!
# HTTP - the requests of the client calls

`HTTPConnection::Request` and `HTTPConnectionPool::request` (`src/servers/http/http_connection.cc`)
build a request from a method, a target, a map of header fields and a body.  The pool puts the
target together as one text, which it sets as the path.

Main results:

- Theorem `build_eq`: the loop over the header fields in closed form.
- Theorem `pool_dump_eq`: the pool's request has the text of one whose target is set in parts.
- Theorem `poolRequest_received`: what a server receives of a request of the pool.
- Theorem `connectionRequest_received`: the same for a request on a connection of its own.
-/

namespace Tiger
namespace Http

/-! ## Building a request -/

/-- `"host"`, as the calls look for it. -/
def hostField : Text := text ['h', 'o', 's', 't']

/-- `strcasecmp(name, "host") == 0` -/
def isHostField (name : Text) : Bool := decide (caseKey name = caseKey hostField)

/-- `strcasecmp(value, "keep-alive") == 0` -/
def isKeepAlive (value : Text) : Bool :=
  decide (caseKey value = caseKey (text ['k', 'e', 'e', 'p', '-', 'a', 'l', 'i', 'v', 'e']))

/-- `HTTPRequest::HTTPRequest()`, for a request that is sent. -/
def OutRequest.fresh : OutRequest := { HTTPRequest.fresh with websocket := false, cookies := [] }

/-- `set_header(key, val)` -/
def OutRequest.setHeader (r : OutRequest) (key val : Text) : OutRequest :=
  { r with headers := r.headers.set key val }

/-- The variables of the loop over the header fields. -/
structure Building where
  request : OutRequest
  hasHost : Bool

/-- One round of the loop; `other` is what a connection that is not kept does to the close flag. -/
def Building.header (other : Bool → Bool) (b : Building) (e : Text × Text) : Building :=
  if isConnection e.1 then
    let close := if isKeepAlive e.2 then false else other b.request.close
    { b with request := { b.request with close := close } }
  else
    { request := b.request.setHeader e.1 e.2
      hasHost := if !b.hasHost && isHostField e.1 then !e.2.isEmpty else b.hasHost }

/-- The body of both functions; `host` is the default of the field. -/
def build (other : Bool → Bool) (host : Text) (target : OutRequest)
    (headers : List (Text × Text)) (body : Text) : OutRequest :=
  let b := headers.foldl (Building.header other) ⟨target, false⟩
  let r := if b.hasHost then b.request else b.request.setHeader (text ['H', 'o', 's', 't']) host
  { r with body := body }

/-- The parts of an URI that a request has. -/
structure Target where
  path : Text
  query : Text
  fragment : Text
deriving DecidableEq

/-- `HTTPConnection::Request(method, uri, timeout, headers, body)`, up to the call with the request.
`host` is that of the URI. -/
def connectionRequest (method : HTTPMethod) (host : Text) (t : Target)
    (headers : List (Text × Text)) (body : Text) : OutRequest :=
  build id host
    { OutRequest.fresh with
      method := method
      path := t.path
      query := t.query
      close := true
      fragment := t.fragment }
    headers body

/-- The default host of a pool. -/
def poolHost (host vhost : Text) : Text := if vhost.isEmpty then host else vhost

/-- `HTTPConnectionPool::request(method, path, timeout, headers, body)`, up to the call with the
request. -/
def poolRequestPath (host vhost : Text) (method : HTTPMethod) (path : Text)
    (headers : List (Text × Text)) (body : Text) : OutRequest :=
  build (fun _ => true) (poolHost host vhost)
    { OutRequest.fresh with path := path, method := method, close := false } headers body

/-- `HTTPConnectionPool::request(method, uri, timeout, headers, body)` -/
def poolRequest (host vhost : Text) (method : HTTPMethod) (t : Target)
    (headers : List (Text × Text)) (body : Text) : OutRequest :=
  poolRequestPath host vhost method (targetText t.path t.query t.fragment) headers body

/-! ## The loop -/

/-- The close flag behind the header fields. -/
def closeOf (other : Bool → Bool) (close : Bool) (headers : List (Text × Text)) : Bool :=
  (headers.filter fun e => isConnection e.1).foldl
    (fun close e => if isKeepAlive e.2 then false else other close) close

/-- The header fields that are set. -/
def fieldsSet (headers : List (Text × Text)) : List (Text × Text) :=
  headers.filter fun e => !isConnection e.1

/-- A host is given. -/
def hostGiven (headers : List (Text × Text)) : Bool :=
  (fieldsSet headers).any fun e => isHostField e.1 && !e.2.isEmpty

/-- The loop over the caller's headers sets the fields and the flags. -/
theorem foldl_header (other : Bool → Bool) (headers : List (Text × Text)) (b : Building) :
    headers.foldl (Building.header other) b =
      ⟨{ b.request with
          headers := FieldMap.setAll b.request.headers (fieldsSet headers)
          close := closeOf other b.request.close headers },
        b.hasHost || hostGiven headers⟩ := by
  induction headers generalizing b with
  | nil => simp [fieldsSet, closeOf, hostGiven, FieldMap.setAll]
  | cons e headers ih =>
      rw [List.foldl_cons, ih]
      by_cases hconn : isConnection e.1 = true
      · simp [Building.header, hconn, fieldsSet, closeOf, hostGiven]
      · simp [Building.header, hconn, fieldsSet, closeOf, hostGiven, OutRequest.setHeader,
          FieldMap.setAll]
        cases b.hasHost <;> cases isHostField e.1 <;> simp

/-- The header fields of a request that was built. -/
def builtHeaders (host : Text) (headers : List (Text × Text)) : FieldMap :=
  let set := FieldMap.setAll [] (fieldsSet headers)
  if hostGiven headers then set else set.set (text ['H', 'o', 's', 't']) host

/-- The loop in closed form. -/
theorem build_eq (other : Bool → Bool) (host : Text) {target : OutRequest}
    (hplain : target.headers = []) (headers : List (Text × Text)) (body : Text) :
    build other host target headers body =
      { target with
        headers := builtHeaders host headers
        close := closeOf other target.close headers
        body := body } := by
  rw [build, foldl_header, hplain]
  simp only [Bool.false_or, builtHeaders]
  split <;> rfl

/-! ## The fields -/

/-- The last value that a name is given. -/
def lastValue (fields : List (Text × Text)) (name : Text) : Option Text :=
  ((fields.filter fun e => decide (caseKey e.1 = caseKey name)).getLast?).map Prod.snd

namespace FieldMap

theorem find_congr {k key : Text} (h : caseKey k = caseKey key) (m : FieldMap) :
    find k m = find key m := by
  rw [find_eq_entry, entry_congr h, ← find_eq_entry]

/-- A lookup behind fields that were set one after the other gives the last one. -/
theorem find_setAll (m : FieldMap) (fields : List (Text × Text)) (name : Text) :
    find name (setAll m fields) = (lastValue fields name).or (find name m) := by
  induction fields generalizing m with
  | nil => rfl
  | cons e fields ih =>
      have hset : setAll m (e :: fields) = setAll (m.set e.1 e.2) fields := rfl
      rw [hset, ih]
      by_cases hkey : caseKey e.1 = caseKey name
      · rw [find_congr hkey.symm, find_set_self, lastValue, lastValue,
          List.filter_cons_of_pos (by simpa using hkey), List.getLast?_cons]
        cases (fields.filter fun e => decide (caseKey e.1 = caseKey name)).getLast? <;> rfl
      · rw [find_set_of_ne m (Ne.symm hkey), lastValue, lastValue,
          List.filter_cons_of_neg (by simpa using hkey)]

/-- A map has the names and values that were set. -/
theorem forall_mem_set {P Q : Text → Prop} {m : FieldMap} {key val : Text}
    (hm : ∀ e ∈ m, P e.1 ∧ Q e.2) (hkey : P key) (hval : Q val) :
    ∀ e ∈ m.set key val, P e.1 ∧ Q e.2 := by
  induction m with
  | nil =>
      intro e he
      rw [List.mem_singleton.mp he]
      exact ⟨hkey, hval⟩
  | cons e' m ih =>
      obtain ⟨a, b⟩ := e'
      rcases List.forall_mem_cons.mp hm with ⟨hhead, hrest⟩
      rcases lt_trichotomy (caseKey key) (caseKey a) with hlt | heq | hgt
      · rw [set_cons_of_less hlt]
        exact List.forall_mem_cons.mpr ⟨⟨hkey, hval⟩, hm⟩
      · rw [set_cons_of_eq heq.symm]
        exact List.forall_mem_cons.mpr ⟨⟨hhead.1, hval⟩, hrest⟩
      · rw [set_cons_of_greater hgt]
        exact List.forall_mem_cons.mpr ⟨hhead, ih hrest⟩

/-- A property of the fields holds behind setting fields that have it. -/
theorem forall_mem_setAll {P Q : Text → Prop} {m : FieldMap} {fields : List (Text × Text)}
    (hm : ∀ e ∈ m, P e.1 ∧ Q e.2) (hfields : ∀ e ∈ fields, P e.1 ∧ Q e.2) :
    ∀ e ∈ setAll m fields, P e.1 ∧ Q e.2 := by
  induction fields generalizing m with
  | nil => exact hm
  | cons e fields ih =>
      rcases List.forall_mem_cons.mp hfields with ⟨hhead, hrest⟩
      exact ih (forall_mem_set hm hhead.1 hhead.2) hrest

/-- Setting fields one after the other keeps the map ordered. -/
theorem Ordered.setAll {m : FieldMap} (h : m.Ordered) (fields : List (Text × Text)) :
    (setAll m fields).Ordered := by
  induction fields generalizing m with
  | nil => exact h
  | cons e fields ih => exact ih (h.set e.1 e.2)

end FieldMap

section Fields

variable {host name : Text} {headers : List (Text × Text)}

/-- The headers of a built request are ordered. -/
theorem builtHeaders_ordered (host : Text) (headers : List (Text × Text)) :
    (builtHeaders host headers).Ordered := by
  have hset : (FieldMap.setAll [] (fieldsSet headers)).Ordered :=
    FieldMap.Ordered.setAll List.Pairwise.nil _
  rw [builtHeaders]
  split
  · exact hset
  · exact hset.set _ _

/-- A property of names and values holds of the headers of a built request. -/
theorem forall_mem_builtHeaders {P Q : Text → Prop} (hname : P (text ['H', 'o', 's', 't']))
    (hhost : Q host) (hheaders : ∀ e ∈ headers, P e.1 ∧ Q e.2) :
    ∀ e ∈ builtHeaders host headers, P e.1 ∧ Q e.2 := by
  have hset : ∀ e ∈ FieldMap.setAll [] (fieldsSet headers), P e.1 ∧ Q e.2 :=
    FieldMap.forall_mem_setAll (by simp) fun e he => hheaders e (List.mem_filter.mp he).1
  rw [builtHeaders]
  split
  · exact hset
  · exact FieldMap.forall_mem_set hset hname hhost

/-- The field of the connection is not among those that are set. -/
theorem lastValue_fieldsSet (hname : isConnection name = false) :
    lastValue (fieldsSet headers) name = lastValue headers name := by
  rw [lastValue, lastValue, fieldsSet, List.filter_filter]
  congr 2
  apply List.filter_congr
  intro e _
  by_cases hkey : caseKey e.1 = caseKey name
  · have hconn : isConnection e.1 = false := by
      rw [← hname, isConnection, isConnection, hkey]
    simp [hkey, hconn]
  · simp [hkey]

/-- A field of the caller is found with its last value. -/
theorem find_builtHeaders (hconn : isConnection name = false) (hhost : isHostField name = false) :
    (builtHeaders host headers).find name = lastValue headers name := by
  have hfind : (FieldMap.setAll [] (fieldsSet headers)).find name = lastValue headers name := by
    rw [FieldMap.find_setAll, lastValue_fieldsSet hconn]
    exact Option.or_none
  have hne : caseKey name ≠ caseKey (text ['H', 'o', 's', 't']) := by
    intro hkey
    rw [isHostField, hkey] at hhost
    exact absurd hhost (by decide)
  rw [builtHeaders]
  split
  · exact hfind
  · rw [FieldMap.find_set_of_ne _ hne, hfind]

/-- The host is the caller's last one, or that of the connection. -/
theorem find_builtHeaders_host : (builtHeaders host headers).find hostField =
    if hostGiven headers then lastValue headers hostField else some host := by
  rw [builtHeaders]
  split
  · rw [FieldMap.find_setAll, lastValue_fieldsSet (by decide)]
    exact Option.or_none
  · have hkey : caseKey hostField = caseKey (text ['H', 'o', 's', 't']) := by decide
    rw [FieldMap.find_congr hkey, FieldMap.find_set_self]

end Fields

/-! ## The connection -/

/-- The pool goes by the last connection that is given. -/
def poolClose (headers : List (Text × Text)) : Bool :=
  (headers.filter fun e => isConnection e.1).getLast?.any fun e => !isKeepAlive e.2

/-- A connection of its own is kept when any of those that are given says so. -/
def ownClose (headers : List (Text × Text)) : Bool :=
  !(headers.filter fun e => isConnection e.1).any fun e => isKeepAlive e.2

/-- The pool closes as `poolClose` says. -/
theorem closeOf_pool (headers : List (Text × Text)) :
    closeOf (fun _ => true) false headers = poolClose headers := by
  rw [closeOf, poolClose]
  generalize headers.filter (fun e => isConnection e.1) = fields
  induction fields using List.reverseRecOn with
  | nil => rfl
  | append_singleton fields e ih =>
      rw [List.foldl_append, List.getLast?_concat]
      cases hkeep : isKeepAlive e.2 <;> simp [hkeep]

/-- A connection of its own closes as `ownClose` says. -/
theorem closeOf_own (headers : List (Text × Text)) :
    closeOf id true headers = ownClose headers := by
  rw [closeOf, ownClose]
  generalize headers.filter (fun e => isConnection e.1) = fields
  induction fields using List.reverseRecOn with
  | nil => rfl
  | append_singleton fields e ih =>
      rw [List.foldl_append, ih, List.any_append]
      cases hkeep : isKeepAlive e.2 <;> simp [hkeep]

/-- The two differ where a connection is given twice. -/
example : poolClose [(connectionName, connectionValue false),
    (text ['c', 'o', 'n', 'n', 'e', 'c', 't', 'i', 'o', 'n'], connectionValue true)] = true ∧
    ownClose [(connectionName, connectionValue false),
      (text ['c', 'o', 'n', 'n', 'e', 'c', 't', 'i', 'o', 'n'], connectionValue true)] = false := by
  decide

/-! ## What the server receives -/

/-- The arguments of a call are those of the grammar, and the length of the body is left to
`dump`. -/
structure CallConforms (method : HTTPMethod) (host : Text) (t : Target)
    (headers : List (Text × Text)) : Prop where
  method : ∃ m, httpMethodToString method = some m ∧ isFieldName m = true
  path : isPathAbsolute t.path = true
  query : isQuery t.query = true
  fragment : isQuery t.fragment = true
  host : isFieldValue host = true
  name : ∀ e ∈ headers, isFieldName e.1 = true ∧ isLineStart e.1 = false ∧
    caseKey e.1 ≠ caseKey contentLengthName
  value : ∀ e ∈ headers, isFieldValue e.2 = true

/-- The request of a call, with its target in parts. -/
def builtRequest (close : Bool) (method : HTTPMethod) (host : Text) (t : Target)
    (headers : List (Text × Text)) (body : Text) : OutRequest :=
  { OutRequest.fresh with
    method := method
    close := close
    path := t.path
    query := t.query
    fragment := t.fragment
    body := body
    headers := builtHeaders host headers }

section Received

variable {method : HTTPMethod} {host vhost : Text} {t : Target} {headers : List (Text × Text)}

/-- A call that conforms builds a request that can be sent. -/
theorem CallConforms.sendable (h : CallConforms method host t headers) (close : Bool) (body : Text)
    (hsmall : ∀ data, (builtRequest close method host t headers body).dump = some data →
      data.length < 2 ^ 31) :
    Sendable (builtRequest close method host t headers body) := by
  have hfields : ∀ e ∈ builtHeaders host headers,
      (isFieldName e.1 = true ∧ isLineStart e.1 = false ∧
        caseKey e.1 ≠ caseKey contentLengthName) ∧ isFieldValue e.2 = true :=
    forall_mem_builtHeaders (P := fun name => isFieldName name = true ∧ isLineStart name = false ∧
        caseKey name ≠ caseKey contentLengthName) (Q := fun value => isFieldValue value = true)
      (by decide) h.host fun e he => ⟨h.name e he, h.value e he⟩
  exact
    { conforms :=
        { method := h.method
          version := .inr rfl
          path := h.path
          query := h.query
          fragment := h.fragment
          name := fun e he => (hfields e he).1.1
          value := fun e he => (hfields e he).2 }
      ordered := builtHeaders_ordered host headers
      lineStart := fun e he => (hfields e he).1.2.1
      length := fun e he => (hfields e he).1.2.2
      websocket := rfl
      cookies := rfl
      small := hsmall }

/-- What the server sees of a call. -/
structure Sees (close : Bool) (method : HTTPMethod) (host : Text) (t : Target)
    (headers : List (Text × Text)) (body : Text) (r : HTTPRequest) : Prop where
  method : r.method = method
  target : (⟨r.path, r.query, r.fragment⟩ : Target) = t
  body : r.body = body
  close : r.close = close
  host : r.headers.find hostField =
    if hostGiven headers then lastValue headers hostField else some host
  field : ∀ name, isConnection name = false → isHostField name = false →
    caseKey name ≠ caseKey contentLengthName → r.headers.find name = lastValue headers name

/-- Of a lookup the connection and the length of the body are the ones that `dump` has derived. -/
theorem find_sentHeaders (r : OutRequest) {name : Text} (hconn : isConnection name = false)
    (hlength : caseKey name ≠ caseKey contentLengthName) :
    (sentHeaders r).find name = r.headers.find name := by
  have hne : caseKey name ≠ caseKey connectionName := by
    intro hkey
    rw [isConnection_iff.mpr hkey] at hconn
    cases hconn
  have hprinted : (printedHeaders false r.headers).find name = r.headers.find name := by
    apply FieldMap.find_filter
    intro e _ hkey
    have hother : isConnection e.1 = false := by
      rw [← hconn, isConnection, isConnection, hkey]
    simp [hother]
  rw [sentHeaders]
  split
  · rw [FieldMap.find_set_of_ne _ hne, hprinted]
  · rw [FieldMap.find_set_of_ne _ hlength, FieldMap.find_set_of_ne _ hne, hprinted]

/-- The server sees what the client asked. -/
theorem received_sees (close : Bool) (method : HTTPMethod) (host : Text) (t : Target)
    (headers : List (Text × Text)) (body : Text) :
    Sees close method host t headers body
      (builtRequest close method host t headers body).received where
  method := rfl
  target := rfl
  body := rfl
  close := rfl
  host := (find_sentHeaders _ (by decide) (by decide)).trans find_builtHeaders_host
  field name hconn hhost hlength := by
    exact (find_sentHeaders _ hconn hlength).trans (find_builtHeaders hconn hhost)

/-- A path that has the whole target is printed as the target in parts. -/
theorem dump_targetText (r : OutRequest) (t : Target) :
    ({ r with
        path := targetText t.path t.query t.fragment
        query := []
        fragment := [] } : OutRequest).dump =
      ({ r with path := t.path, query := t.query, fragment := t.fragment } : OutRequest).dump := by
  have htarget : targetText (targetText t.path t.query t.fragment) [] [] =
      targetText t.path t.query t.fragment := by
    simp [targetText]
  simp only [OutRequest.dump, printLine, htarget]
  rfl

/-- The text of a request of the pool is that of the built request. -/
theorem pool_dump_eq (host vhost : Text) (method : HTTPMethod) (t : Target)
    (headers : List (Text × Text)) (body : Text) :
    (poolRequest host vhost method t headers body).dump =
      (builtRequest (poolClose headers) method (poolHost host vhost) t headers body).dump := by
  rw [poolRequest, poolRequestPath, build_eq _ _ rfl, ← closeOf_pool]
  exact dump_targetText (builtRequest (closeOf (fun _ => true) false headers) method
    (poolHost host vhost) t headers body) t

/-- A request on a connection of its own is the built request. -/
theorem connectionRequest_eq (method : HTTPMethod) (host : Text) (t : Target)
    (headers : List (Text × Text)) (body : Text) :
    connectionRequest method host t headers body =
      builtRequest (ownClose headers) method host t headers body := by
  rw [connectionRequest, build_eq _ _ rfl, ← closeOf_own]
  rfl

/-- A request of the pool is a message, and the server that it reaches sees the method, the parts of
the URI, the body, a host, every other header field with the last value that it was given, and the
connection that the pool goes by. -/
theorem poolRequest_received (env : Env) (hcast : env.lexicalCast = lexicalCastUInt64)
    (host vhost : Text) (h : CallConforms method (poolHost host vhost) t headers) (body : Text)
    (hsmall : ∀ data, (poolRequest host vhost method t headers body).dump = some data →
      data.length < 2 ^ 31) :
    ∃ q : WireRequest env, (poolRequest host vhost method t headers body).dump = some q.bytes ∧
      q.body = body ∧
      Sees (poolClose headers) method (poolHost host vhost) t headers body q.request := by
  rw [pool_dump_eq] at hsmall ⊢
  have hsend := h.sendable (poolClose headers) body hsmall
  exact ⟨ClientRequest.wire env hcast ⟨_, hsend⟩, hsend.dump_eq, rfl, received_sees ..⟩

/-- A request on a connection of its own is received as it was asked. -/
theorem connectionRequest_received (env : Env) (hcast : env.lexicalCast = lexicalCastUInt64)
    (h : CallConforms method host t headers) (body : Text)
    (hsmall : ∀ data, (connectionRequest method host t headers body).dump = some data →
      data.length < 2 ^ 31) :
    ∃ q : WireRequest env, (connectionRequest method host t headers body).dump = some q.bytes ∧
      q.body = body ∧ Sees (ownClose headers) method host t headers body q.request := by
  rw [connectionRequest_eq] at hsmall ⊢
  have hsend := h.sendable (ownClose headers) body hsmall
  exact ⟨ClientRequest.wire env hcast ⟨_, hsend⟩, hsend.dump_eq, rfl, received_sees ..⟩

end Received

/-- `/a?b#c` -/
def smallTarget : Target := ⟨text ['/', 'a'], text ['b'], text ['c']⟩

/-- A field, and a connection that is not kept. -/
def smallHeaders : List (Text × Text) :=
  [(connectionName, connectionValue true), (text ['X'], text ['1'])]

/-- The sample call conforms. -/
theorem small_callConforms :
    CallConforms .PUT (poolHost (text ['h']) []) smallTarget smallHeaders where
  method := ⟨text ['P', 'U', 'T'], by decide, by decide⟩
  path := by decide
  query := by decide
  fragment := by decide
  host := by decide
  name := by decide
  value := by decide

/-- The sample request of the pool is received. -/
theorem poolRequest_received_small :
    ∃ q : WireRequest castingServer,
      (poolRequest (text ['h']) [] .PUT smallTarget smallHeaders (text ['h', 'i'])).dump =
        some q.bytes ∧ q.request.query = text ['b'] ∧ q.request.close = true := by
  have hsmall : ∀ data, (poolRequest (text ['h']) [] .PUT smallTarget smallHeaders
      (text ['h', 'i'])).dump = some data → data.length < 2 ^ 31 := by
    intro data hdata
    cases hdata
    decide
  obtain ⟨q, hdump, -, hsees⟩ := poolRequest_received castingServer rfl (text ['h']) []
    small_callConforms (text ['h', 'i']) hsmall
  refine ⟨q, hdump, ?_, hsees.close⟩
  exact congrArg Target.query hsees.target

end Http
end Tiger
