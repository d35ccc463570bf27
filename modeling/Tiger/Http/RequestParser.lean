import Tiger.Http.Message
import Tiger.Http.RequestGrammar
import Tiger.Streams.SocketStream

/-!
# HTTP - the request parser

This module embeds `http_request_parser_execute` with the actions of
`http_request_parser.rl`, and `HTTPRequestParser` with its callbacks
(`src/servers/http/http_parser.cc`).

`mark`, `field_start` and `query_start` are offsets into the buffer of the call
that set them.  The length that an action passes to a callback is the `size_t`
difference of the current position and such an offset; when the offset is
larger the difference wraps, and `std::string` throws `std::length_error`.
The asserts are active in every build of the repository.

`uri_relaxed` is not initialised by the source, and `boost::lexical_cast` is not
part of it; these are parameters.  `query_start` is not initialised either; it
is `none` until `start_query` sets it, and reading it before that has no
result.
-/

namespace Tiger
namespace Http

open Lib.Ragel

/-- What the source takes from outside. -/
structure Env where
  /-- the value of the member `uri_relaxed` -/
  uriRelaxed : Bool
  /-- what a new buffer holds -/
  memory : Memory
  /-- `boost::lexical_cast<uint64_t>`, `none` when it throws -/
  lexicalCast : Text → Option UInt64

/-- `HTTPParserError` but `OK` -/
inductive HTTPParserError
  | INVALID_METHOD_ERROR
  | INVALID_VERSION_ERROR
  | INVALID_FIELD_ERROR
deriving DecidableEq

/-- `http_request_parser` together with the members of `HTTPRequestParser`.  The
machine state is `none` for `http_request_parser_error`. -/
structure HTTPRequestParser where
  cs : Option (List (Expr RequestAction))
  bodyStart : Nat
  contentLen : Int
  nread : Nat
  mark : Nat
  fieldStart : Nat
  fieldLen : Nat
  queryStart : Option Nat
  xmlSent : Bool
  jsonSent : Bool
  data : HTTPRequest
  error : Option HTTPParserError

namespace HTTPRequestParser

/-- `HTTPRequestParser::HTTPRequestParser()` -/
def init (env : Env) : HTTPRequestParser where
  cs := some (start (RequestGrammar.main env.uriRelaxed))
  bodyStart := 0
  contentLen := 0
  nread := 0
  mark := 0
  fieldStart := 0
  fieldLen := 0
  queryStart := none
  xmlSent := false
  jsonSent := false
  data := HTTPRequest.fresh
  error := none

/-! ## Callbacks -/

/-- `LEN(at, fpc)` -/
def len (start p : Nat) : Nat := toSizeT ((p : Int) - (start : Int))

/-- `std::string(at, length)`; `none` when the constructor throws. -/
def string (m : Memory) (start length : Nat) : Option Text :=
  if length < 2 ^ 62 then some (slice m start length) else none

/-- `on_request_method` -/
def onRequestMethod (m : Memory) (start length : Nat) (ps : HTTPRequestParser) :
    Option HTTPRequestParser :=
  let method := charsToHTTPMethod m start
  if method = .INVALID_METHOD then
    -- the warning prints the text
    (string m start length).map fun _ => { ps with error := some .INVALID_METHOD_ERROR }
  else some { ps with data := { ps.data with method := method } }

/-- `on_request_fragment` -/
def onRequestFragment (m : Memory) (start length : Nat) (ps : HTTPRequestParser) :
    Option HTTPRequestParser :=
  (string m start length).map fun v => { ps with data := { ps.data with fragment := v } }

/-- `on_request_path` -/
def onRequestPath (m : Memory) (start length : Nat) (ps : HTTPRequestParser) :
    Option HTTPRequestParser :=
  (string m start length).map fun v => { ps with data := { ps.data with path := v } }

/-- `on_request_query_string` -/
def onRequestQueryString (m : Memory) (start length : Nat) (ps : HTTPRequestParser) :
    Option HTTPRequestParser :=
  (string m start length).map fun v => { ps with data := { ps.data with query := v } }

/-- `on_request_http_version` -/
def onRequestHttpVersion (m : Memory) (start length : Nat) (ps : HTTPRequestParser) :
    Option HTTPRequestParser :=
  if strncmpEq m start ['H', 'T', 'T', 'P', '/', '1', '.', '1'] length then
    some { ps with data := { ps.data with version := 0x11 } }
  else if strncmpEq m start ['H', 'T', 'T', 'P', '/', '1', '.', '0'] length then
    some { ps with data := { ps.data with version := 0x10 } }
  else (string m start length).map fun _ => { ps with error := some .INVALID_VERSION_ERROR }

/-- `on_request_http_field` -/
def onRequestHttpField (m : Memory) (field flen value vlen : Nat) (ps : HTTPRequestParser) :
    Option HTTPRequestParser :=
  if flen = 0 then some ps
  else
    match string m field flen, string m value vlen with
    | some k, some v => some { ps with data := { ps.data with headers := ps.data.headers.set k v } }
    | _, _ => none

/-! ## Actions -/

/-- One action at position `p`; `none` when a callback throws. -/
def act (m : Memory) (p : Nat) (a : RequestAction) (ps : HTTPRequestParser) :
    Option HTTPRequestParser :=
  match a with
  | .mark => some { ps with mark := p }
  | .startField => some { ps with fieldStart := p }
  | .writeField => some { ps with fieldLen := len ps.fieldStart p }
  | .startValue => some { ps with mark := p }
  | .writeValue => onRequestHttpField m ps.fieldStart ps.fieldLen ps.mark (len ps.mark p) ps
  | .requestMethod => onRequestMethod m ps.mark (len ps.mark p) ps
  | .requestUri => some ps
  | .fragment => onRequestFragment m ps.mark (len ps.mark p) ps
  | .startQuery => some { ps with queryStart := some p }
  | .queryString => ps.queryStart.bind fun q => onRequestQueryString m q (len q p) ps
  | .httpVersion => onRequestHttpVersion m ps.mark (len ps.mark p) ps
  | .requestPath => onRequestPath m ps.mark (len ps.mark p) ps
  | .done =>
      if ps.xmlSent || ps.jsonSent then
        some { ps with bodyStart := ps.mark, contentLen := toInt32 (len ps.mark p + 1) }
      else some { ps with bodyStart := p + 1 }
  | .xml => some { ps with xmlSent := true }
  | .json => some { ps with jsonSent := true }

/-- Actions one after the other. -/
def acts (m : Memory) (p : Nat) : List RequestAction → HTTPRequestParser → Option HTTPRequestParser
  | [], ps => some ps
  | a :: as, ps => (act m p a ps).bind (acts m p as)

/-! ## Execution -/

/-- The machine on the bytes from `p` on, `n` of them at most: the position
where it stops and the parser there; `none` when a callback throws.  It stops
behind the byte of `done`, which breaks, and in front of a byte that has no
transition. -/
def exec (m : Memory) : Nat → Nat → HTTPRequestParser → Option (Nat × HTTPRequestParser)
  | 0, p, ps => some (p, ps)
  | n + 1, p, ps =>
      match ps.cs with
      | none => some (p, ps)
      | some threads =>
          match step threads (m p) with
          | none => some (p, { ps with cs := none })
          | some (as, threads') =>
              (acts m p as { ps with cs := some threads' }).bind fun ps' =>
                if as.contains .done then some (p + 1, ps') else exec m n (p + 1) ps'

/-- How a call of the parser ends. -/
inductive Executed
  | ok (nparse : Nat) (ps : HTTPRequestParser)
  /-- an assert fails -/
  | abort
  /-- `std::length_error` -/
  | threw

/-- The asserts behind the machine. -/
def AssertsHold (ps : HTTPRequestParser) (length : Nat) : Prop :=
  ps.nread ≤ length ∧ ps.bodyStart ≤ length ∧ ps.mark < length ∧ ps.fieldLen ≤ length ∧
    ps.fieldStart < length

instance (ps : HTTPRequestParser) (length : Nat) : Decidable (AssertsHold ps length) :=
  inferInstanceAs (Decidable (_ ∧ _ ∧ _ ∧ _ ∧ _))

/-- `http_request_parser_execute(parser, buffer, length, 0)` -/
def executeMachine (m : Memory) (length : Nat) (ps : HTTPRequestParser) : Executed :=
  if length = 0 then .ok 0 ps
  else
    match exec m length 0 ps with
    | none => .threw
    | some (p, ps) =>
        let ps := { ps with nread := ps.nread + p }
        if AssertsHold ps length then .ok ps.nread ps else .abort

/-- `HTTPRequestParser::has_error()` -/
def hasError (ps : HTTPRequestParser) : Bool := ps.error.isSome || ps.cs.isNone

/-- `HTTPRequestParser::is_finished()`, the value -1 of
`http_request_parser_finish` counting as true. -/
def isFinished (ps : HTTPRequestParser) : Bool :=
  match ps.cs with
  | none => true
  | some threads => isFinal threads

/-- `HTTPRequestParser::get_content_length()` -/
def getContentLength (env : Env) (ps : HTTPRequestParser) : UInt64 :=
  getAs env.lexicalCast ps.data.headers
    (text ['c', 'o', 'n', 't', 'e', 'n', 't', '-', 'l', 'e', 'n', 'g', 't', 'h']) 0

end HTTPRequestParser

end Http
end Tiger
