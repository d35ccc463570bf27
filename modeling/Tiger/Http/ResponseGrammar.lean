import Tiger.Lib.Ragel

/-!
# HTTP - the response grammar

This module is the machine of `src/servers/http/http_response_parser.rl`, rule by
rule and under the names of the source.  It matches a response header or the
size line of a chunk.  As in the request grammar, the number of an action is its
place in the order in which the compiler embeds actions.
-/

namespace Tiger
namespace Http

open Lib.Ragel Lib.Ragel.Expr

/-- The actions of the machine. -/
inductive ResponseAction
  | mark
  | startField
  | writeField
  | startValue
  | writeContentLen
  | writeConnectionClose
  | writeValue
  | reasonPhrase
  | statusCode
  | httpVersion
  | chunkSize
  | transChunked
  | done
deriving DecidableEq

namespace ResponseGrammar

/-- Expressions of this grammar. -/
abbrev E := Expr ResponseAction

def any : ByteClass := .range 0 255
def ascii : ByteClass := .range 0 127
def cntrl : ByteClass := .range 0 31
def digit : ByteClass := .range 48 57
def xdigit : ByteClass := .union digit (.union (.range 65 70) (.range 97 102))
def space : ByteClass := .union (.range 9 13) (.char ' ')

def CRLF : E := choice [lit ['\r', '\n'], lit ['\n']]

def CTL : ByteClass := .union cntrl (.range 127 127)

def tspecials : ByteClass :=
  .oneOf ['(', ')', '<', '>', '@', ',', ';', ':', '\\', '"', '/', '[', ']', '?', '=', '{', '}',
    ' ', '\t']

def token : ByteClass := .diff ascii (.union CTL tspecials)

/-! ## Responses -/

def ReasonPhrase : E :=
  leaving 5 .reasonPhrase (entering 4 .mark (plus (chars (.diff any (.char '\n')))))

def StatusCode : E := leaving 3 .statusCode (entering 2 .mark (plus (chars digit)))

def httpNumber : E := seq [plus (chars digit), lit ['.'], plus (chars digit)]

def HTTPVersion : E :=
  leaving 1 .httpVersion (entering 0 .mark (seq [lit ['H', 'T', 'T', 'P', '/'], httpNumber]))

def StatusLine : E :=
  guardEntry 0 (seq [HTTPVersion, lit [' '], StatusCode, lit [' '], ReasonPhrase]) CRLF

def fieldName : E := leaving 18 .writeField (entering 17 .startField (plus (chars token)))

def fieldValue : E := leaving 20 .writeValue (entering 19 .startValue (star (chars any)))

def fields : E :=
  guardEntry 1 (seq [fieldName, lit [':'], star (chars space), fieldValue]) CRLF

def contentLength : E :=
  seq [leaving 13 .writeField (entering 12 .startField
      (litNoCase ['C', 'o', 'n', 't', 'e', 'n', 't', '-', 'L', 'e', 'n', 'g', 't', 'h'])),
    lit [':'], star (chars space),
    leaving 16 .writeValue (leaving 15 .writeContentLen (entering 14 .startValue
      (plus (chars digit)))), CRLF]

def connClose : E :=
  seq [litNoCase ['C', 'o', 'n', 'n', 'e', 'c', 't', 'i', 'o', 'n'], lit [':'],
    star (chars space), litNoCase ['c', 'l', 'o', 's', 'e'],
    leaving 11 .writeConnectionClose CRLF]

def transferEncodingChunked : E :=
  seq [leaving 7 .writeField (entering 6 .startField
      (litNoCase ['T', 'r', 'a', 'n', 's', 'f', 'e', 'r', '-', 'E', 'n', 'c', 'o', 'd', 'i', 'n',
        'g'])),
    lit [':'], star (chars space),
    leaving 9 .writeValue (entering 8 .startValue
      (litNoCase ['c', 'h', 'u', 'n', 'k', 'e', 'd'])),
    finishing 10 .transChunked CRLF]

def messageHeader : E := choice [transferEncodingChunked, connClose, contentLength, fields]

def Response : E := seq [StatusLine, star messageHeader, CRLF]

/-! ## Chunks -/

def chunkExtVal : E := plus (chars token)

def chunkExtName : E := plus (chars token)

def chunkExtension : E :=
  star (leaving 27 .writeValue (seq [lit [';'],
    leaving 25 .startValue (leaving 24 .writeField (entering 23 .startField chunkExtName)),
    opt (seq [lit ['='], entering 26 .startValue chunkExtVal])]))

def chunkSize : E := plus (chars xdigit)

def ChunkedHeader : E :=
  guardEntry 2 (seq [leaving 22 .chunkSize (entering 21 .mark chunkSize), chunkExtension]) CRLF

/-- `main := (Response | Chunked_Header) @done;` -/
def main : E := finishing 28 .done (choice [Response, ChunkedHeader])

end ResponseGrammar

end Http
end Tiger
