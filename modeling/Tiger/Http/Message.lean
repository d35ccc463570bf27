import Tiger.Http.Buffer
import Tiger.Lib.Ragel

/-!
# HTTP - requests

This module embeds the parts of `src/servers/http/http.h` and `http.cc` that
receiving a request uses: the methods, the map of header fields and
`HTTPRequest`.
-/

namespace Tiger
namespace Http

open Lib.Ragel

/-- The text of a list of characters. -/
def text (cs : List Char) : Text := cs.map byte

/-! ## Methods -/

/-- `HTTPMethod` -/
inductive HTTPMethod
  | DELETE | GET | HEAD | POST | PUT
  | CONNECT | OPTIONS | TRACE
  | COPY | LOCK | MKCOL | MOVE | PROPFIND | PROPPATCH | SEARCH | UNLOCK | BIND | REBIND | UNBIND
  | ACL
  | REPORT | MKACTIVITY | CHECKOUT | MERGE
  | MSEARCH | NOTIFY | SUBSCRIBE | UNSUBSCRIBE
  | PATCH | PURGE
  | MKCALENDAR
  | LINK | UNLINK
  | SOURCE
  | INVALID_METHOD
deriving DecidableEq

/-- `HTTP_METHOD_MAP`.  The text of `MSEARCH` is the stringified `M - SEARCH`. -/
def httpMethodMap : List (HTTPMethod × List Char) :=
  [(.DELETE, ['D', 'E', 'L', 'E', 'T', 'E']),
    (.GET, ['G', 'E', 'T']),
    (.HEAD, ['H', 'E', 'A', 'D']),
    (.POST, ['P', 'O', 'S', 'T']),
    (.PUT, ['P', 'U', 'T']),
    (.CONNECT, ['C', 'O', 'N', 'N', 'E', 'C', 'T']),
    (.OPTIONS, ['O', 'P', 'T', 'I', 'O', 'N', 'S']),
    (.TRACE, ['T', 'R', 'A', 'C', 'E']),
    (.COPY, ['C', 'O', 'P', 'Y']),
    (.LOCK, ['L', 'O', 'C', 'K']),
    (.MKCOL, ['M', 'K', 'C', 'O', 'L']),
    (.MOVE, ['M', 'O', 'V', 'E']),
    (.PROPFIND, ['P', 'R', 'O', 'P', 'F', 'I', 'N', 'D']),
    (.PROPPATCH, ['P', 'R', 'O', 'P', 'P', 'A', 'T', 'C', 'H']),
    (.SEARCH, ['S', 'E', 'A', 'R', 'C', 'H']),
    (.UNLOCK, ['U', 'N', 'L', 'O', 'C', 'K']),
    (.BIND, ['B', 'I', 'N', 'D']),
    (.REBIND, ['R', 'E', 'B', 'I', 'N', 'D']),
    (.UNBIND, ['U', 'N', 'B', 'I', 'N', 'D']),
    (.ACL, ['A', 'C', 'L']),
    (.REPORT, ['R', 'E', 'P', 'O', 'R', 'T']),
    (.MKACTIVITY, ['M', 'K', 'A', 'C', 'T', 'I', 'V', 'I', 'T', 'Y']),
    (.CHECKOUT, ['C', 'H', 'E', 'C', 'K', 'O', 'U', 'T']),
    (.MERGE, ['M', 'E', 'R', 'G', 'E']),
    (.MSEARCH, ['M', ' ', '-', ' ', 'S', 'E', 'A', 'R', 'C', 'H']),
    (.NOTIFY, ['N', 'O', 'T', 'I', 'F', 'Y']),
    (.SUBSCRIBE, ['S', 'U', 'B', 'S', 'C', 'R', 'I', 'B', 'E']),
    (.UNSUBSCRIBE, ['U', 'N', 'S', 'U', 'B', 'S', 'C', 'R', 'I', 'B', 'E']),
    (.PATCH, ['P', 'A', 'T', 'C', 'H']),
    (.PURGE, ['P', 'U', 'R', 'G', 'E']),
    (.MKCALENDAR, ['M', 'K', 'C', 'A', 'L', 'E', 'N', 'D', 'A', 'R']),
    (.LINK, ['L', 'I', 'N', 'K']),
    (.UNLINK, ['U', 'N', 'L', 'I', 'N', 'K']),
    (.SOURCE, ['S', 'O', 'U', 'R', 'C', 'E'])]

/-- `strncmp(m + pos, s, n) == 0` -/
def strncmpEq (m : Memory) : Nat → List Char → Nat → Bool
  | _, _, 0 => true
  | pos, [], _ + 1 => m pos == 0
  | pos, c :: cs, n + 1 => m pos == byte c && strncmpEq m (pos + 1) cs n

/-- `strncmp` over the length of a name finds the name exactly where it stands in the buffer. -/
theorem strncmpEq_iff {m : Memory} {p : Nat} {cs : List Char} :
    strncmpEq m p cs cs.length = true ↔ At m p (text cs) := by
  induction cs generalizing p with
  | nil => exact ⟨fun _ => rfl, fun _ => rfl⟩
  | cons c cs ih =>
      rw [List.length_cons, strncmpEq, Bool.and_eq_true, beq_iff_eq, ih]
      exact at_cons.symm

/-- `CharsToHTTPMethod(m + pos)`: the first method whose text is a prefix. -/
def charsToHTTPMethod (m : Memory) (pos : Nat) : HTTPMethod :=
  match httpMethodMap.find? fun e => strncmpEq m pos e.2 e.2.length with
  | some e => e.1
  | none => .INVALID_METHOD

/-! ## Header fields -/

/-- What `strcasecmp` sees of a string: the lower-case bytes up to a NUL. -/
def caseKey (s : Text) : List Nat :=
  (s.takeWhile (· != 0)).map fun c =>
    if 65 ≤ c.toNat ∧ c.toNat ≤ 90 then c.toNat + 32 else c.toNat

/-- `CaseInsensitiveLess` -/
def caseInsensitiveLess (lhs rhs : Text) : Bool := decide (caseKey lhs < caseKey rhs)

/-- `std::map<std::string, std::string, CaseInsensitiveLess>`, in its order. -/
abbrev FieldMap := List (Text × Text)

namespace FieldMap

/-- `m[key] = val` -/
def set (key val : Text) : FieldMap → FieldMap
  | [] => [(key, val)]
  | (k, v) :: rest =>
      if caseInsensitiveLess key k then (key, val) :: (k, v) :: rest
      else if caseInsensitiveLess k key then (k, v) :: set key val rest
      else (k, val) :: rest

/-- `m.find(key)` -/
def find (key : Text) : FieldMap → Option Text
  | [] => none
  | (k, v) :: rest =>
      if caseInsensitiveLess key k || caseInsensitiveLess k key then find key rest else some v

end FieldMap

/-- `GetAs<uint64_t>(m, key, def)`, with `lexicalCast` for
`boost::lexical_cast<uint64_t>`. -/
def getAs (lexicalCast : Text → Option UInt64) (m : FieldMap) (key : Text) (dflt : UInt64) :
    UInt64 :=
  match m.find key with
  | none => dflt
  | some v => (lexicalCast v).getD dflt

/-! ## Requests -/

/-- `HTTPRequest`, without the members that the receiver does not touch. -/
structure HTTPRequest where
  method : HTTPMethod
  version : Nat
  close : Bool
  path : Text
  query : Text
  fragment : Text
  body : Text
  headers : FieldMap
deriving DecidableEq

/-- `HTTPRequest::HTTPRequest()` -/
def HTTPRequest.fresh : HTTPRequest := ⟨.GET, 0x11, true, text ['/'], [], [], [], []⟩

/-- `get_header(key)` -/
def HTTPRequest.getHeader (r : HTTPRequest) (key : Text) : Text := (r.headers.find key).getD []

/-- `HTTPRequest::init()` -/
def HTTPRequest.init (r : HTTPRequest) : HTTPRequest :=
  let conn := (r.headers.find (text ['c', 'o', 'n', 'n', 'e', 'c', 't', 'i', 'o', 'n'])).getD []
  if conn.isEmpty then r
  else
    let keepAlive := text ['k', 'e', 'e', 'p', '-', 'a', 'l', 'i', 'v', 'e']
    { r with close := decide (caseKey conn ≠ caseKey keepAlive) }

end Http
end Tiger
