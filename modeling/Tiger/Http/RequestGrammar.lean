import Tiger.Lib.Ragel

/-!
# HTTP - the request grammar

This module is the machine of `src/servers/http/http_request_parser.rl`, rule by
rule and under the names of the source.  Some rules do not say what they seem
to say, because `-` is the difference of languages in this notation: `(0 - 31)`
is the byte 0 alone, `("1"-"9")` is the digit 1, `("0"-"4")` and `("0"-"5")` are
the digit 0, and the number in front of a group in `IPv6address` is a byte with
that code.

The number of an action is its place in the order in which the compiler embeds
actions; the rules that occur twice in the machine take their first number.
`uri_relaxed` is a member of the parser that no code sets; it decides about
three more delimiters.
-/

namespace Tiger
namespace Http

open Lib.Ragel Lib.Ragel.Expr

/-- The actions of the machine. -/
inductive RequestAction
  | mark
  | startField
  | writeField
  | startValue
  | writeValue
  | requestMethod
  | requestUri
  | fragment
  | startQuery
  | queryString
  | httpVersion
  | requestPath
  | done
  | xml
  | json
deriving DecidableEq

namespace RequestGrammar

/-- Expressions of this grammar. -/
abbrev E := Expr RequestAction

/-! ## Classes of bytes -/

def any : ByteClass := .range 0 255
def ascii : ByteClass := .range 0 127
def upper : ByteClass := .range 65 90
def lower : ByteClass := .range 97 122
def alpha : ByteClass := .union upper lower
def digit : ByteClass := .range 48 57
def xdigit : ByteClass := .union digit (.union (.range 65 70) (.range 97 102))
def space : ByteClass := .union (.range 9 13) (.char ' ')

def CRLF : E := choice [lit ['\r', '\n'], lit ['\n']]

/-! ## URIs -/

def moreDelims (uriRelaxed : Bool) : ByteClass :=
  if uriRelaxed then .oneOf ['{', '}', '^'] else .range 1 0

def subDelims (r : Bool) : ByteClass :=
  .union (.oneOf ['!', '$', '&', '\'', '(', ')', '*', '+', ',', ';', '=']) (moreDelims r)

def unreserved : ByteClass := .union alpha (.union digit (.oneOf ['-', '.', '_', '~']))

def pctEncoded : E := seq [lit ['%'], chars xdigit, chars xdigit]

def pchar (r : Bool) : E :=
  choice [chars unreserved, pctEncoded, chars (subDelims r), lit [':'], lit ['@']]

def fragment (n : Nat) (r : Bool) : E :=
  leaving (n + 1) .fragment (entering n .mark (star (choice [pchar r, lit ['/'], lit ['?']])))

def query (n : Nat) (r : Bool) : E :=
  leaving n .queryString (star (choice [pchar r, lit ['/'], lit ['?']]))

def segmentNzNc (r : Bool) : E :=
  plus (choice [chars unreserved, pctEncoded, chars (subDelims r), lit ['@']])

def segmentNz (r : Bool) : E := plus (pchar r)

def segment (r : Bool) : E := star (pchar r)

def pathEmpty (r : Bool) : E := times 0 (pchar r)

def pathRootless (r : Bool) : E := seq [segmentNz r, star (seq [lit ['/'], segment r])]

def pathNoscheme (r : Bool) : E := seq [segmentNzNc r, star (seq [lit ['/'], segment r])]

def pathAbsolute (r : Bool) : E :=
  seq [lit ['/'], opt (seq [segmentNz r, star (seq [lit ['/'], segment r])])]

def pathAbempty (r : Bool) : E := star (seq [lit ['/'], segment r])

def regName (r : Bool) : E :=
  star (choice [chars unreserved, pctEncoded, chars (subDelims r)])

def decOctet : E :=
  choice [
    chars digit,
    seq [chars (.diff (.char '1') (.char '9')), chars digit],
    seq [lit ['1'], times 2 (chars digit)],
    seq [lit ['2'], chars (.diff (.char '0') (.char '4')), chars digit],
    seq [lit ['2', '5'], chars (.diff (.char '0') (.char '5'))]]

def IPv4address : E :=
  seq [decOctet, lit ['.'], decOctet, lit ['.'], decOctet, lit ['.'], decOctet]

def h16 : E := between 1 4 (chars xdigit)

def ls32 : E := choice [seq [h16, lit [':'], h16], IPv4address]

/-- `n( h16 ":" )`: the byte with code `n` comes first. -/
def numbered (n : Nat) : E := seq [chars (.range n n), h16, lit [':']]

/-- `( ( h16 ":" ){n,} h16 )?` -/
def groups (n : Nat) : E := opt (seq [atLeast n (seq [h16, lit [':']]), h16])

def IPv6address : E :=
  choice [
    seq [numbered 6, ls32],
    seq [lit [':', ':'], numbered 5, ls32],
    seq [opt h16, lit [':', ':'], numbered 4, ls32],
    seq [groups 1, lit [':', ':'], numbered 3, ls32],
    seq [groups 2, lit [':', ':'], numbered 2, ls32],
    seq [groups 3, lit [':', ':'], h16, lit [':'], ls32],
    seq [groups 4, lit [':', ':'], ls32],
    seq [groups 5, lit [':', ':'], h16],
    seq [groups 6, lit [':', ':']]]

def IPvFuture (r : Bool) : E :=
  seq [lit ['v'], plus (chars xdigit), lit ['.'],
    plus (choice [chars unreserved, chars (subDelims r), lit [':']])]

def IPLiteral (r : Bool) : E := seq [lit ['['], choice [IPv6address, IPvFuture r], lit [']']]

def port : E := star (chars digit)

def host (r : Bool) : E := choice [IPLiteral r, IPv4address, regName r]

def userinfo (r : Bool) : E :=
  star (choice [chars unreserved, pctEncoded, chars (subDelims r), lit [':']])

def authority (r : Bool) : E :=
  seq [opt (seq [userinfo r, lit ['@']]), host r, opt (seq [lit [':'], port])]

def scheme : E :=
  seq [chars alpha, star (choice [chars alpha, chars digit, lit ['+'], lit ['-'], lit ['.']])]

def relativePart (r : Bool) : E :=
  choice [seq [lit ['/', '/'], authority r, pathAbempty r], pathAbsolute r, pathNoscheme r,
    pathEmpty r]

def hierPart (r : Bool) : E :=
  choice [seq [lit ['/', '/'], authority r, pathAbempty r], pathAbsolute r, pathRootless r,
    pathEmpty r]

/-- `( part %request_path ( "?" %start_query query )? ) >mark %request_uri` -/
def target (n : Nat) (r : Bool) (part : E) : E :=
  leaving (n + 4) .requestUri (entering n .mark
    (seq [leaving (n + 1) .requestPath part,
      opt (seq [leaving (n + 2) .startQuery (lit ['?']), query (n + 3) r])]))

def relativeRef (r : Bool) : E :=
  seq [target 9 r (relativePart r), opt (seq [lit ['#'], fragment 14 r])]

def URI (r : Bool) : E :=
  seq [scheme, lit [':'], target 2 r (hierPart r), opt (seq [lit ['#'], fragment 7 r])]

def URIReference (r : Bool) : E := choice [URI r, relativeRef r]

/-! ## Requests -/

def Method : E :=
  leaving 1 .requestMethod (entering 0 .mark (between 1 20 (chars (.union upper digit))))

def httpNumber : E := seq [lit ['1', '.'], chars (.oneOf ['0', '1'])]

def HTTPVersion : E :=
  leaving 17 .httpVersion (entering 16 .mark (seq [lit ['H', 'T', 'T', 'P', '/'], httpNumber]))

def RequestLine (r : Bool) : E :=
  seq [Method, lit [' '], URIReference r, lit [' '], HTTPVersion, CRLF]

def HTTPCTL : ByteClass := .union (.diff (.range 0 0) (.range 31 31)) (.range 127 127)

def HTTPSeparator : ByteClass :=
  .oneOf ['(', ')', '<', '>', '@', ',', ';', ':', '\\', '"', '/', '[', ']', '?', '=',
    '{', '}', ' ', '\t']

def lws : E := seq [opt CRLF, plus (chars (.oneOf [' ', '\t']))]

def token : ByteClass := .diff ascii (.union HTTPCTL HTTPSeparator)

def content : E := choice [chars (.diff any HTTPCTL), lws]

def fieldName : E := leaving 19 .writeField (entering 18 .startField (plus (chars token)))

def fieldValue : E := leaving 21 .writeValue (entering 20 .startValue (star content))

def messageHeader : E :=
  guardEntry 0 (seq [fieldName, lit [':'], star lws, fieldValue]) CRLF

def Request (r : Bool) : E := seq [RequestLine r, star messageHeader, CRLF]

/-! ## Socket requests -/

def NUL : E := chars (.range 0 0)

def SocketJSONStart (r : Bool) : E := seq [lit ['@'], relativePart r]

def SocketJSONData : E := guardFinish 1 (seq [lit ['{'], star (chars any), lit ['}']]) NUL

def SocketXMLData : E :=
  guardFinish 2
    (seq [
      leaving 23 .requestPath (entering 22 .mark (seq [lit ['<'],
        plus (chars (.union (.range 97 122) (.union digit (.union (.range 65 90)
          (.oneOf ['-', '.'])))))])),
      chars (.union (.oneOf ['/', '>']) space), star (chars any), lit ['>']])
    NUL

def SocketJSON (r : Bool) : E :=
  seq [leaving 26 .requestPath (entering 25 .mark (SocketJSONStart r)), lit [' '],
    finishing 28 .json (entering 27 .mark SocketJSONData)]

def SocketXML : E := finishing 24 .xml SocketXMLData

def SocketRequest (r : Bool) : E := choice [SocketXML, SocketJSON r]

/-- `main := (Request | SocketRequest) @done;` -/
def main (uriRelaxed : Bool) : E :=
  finishing 29 .done (choice [Request uriRelaxed, SocketRequest uriRelaxed])

end RequestGrammar

end Http
end Tiger
