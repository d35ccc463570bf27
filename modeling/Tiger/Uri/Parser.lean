import Tiger.Http.Dump
import Tiger.Lib.Phases
import Tiger.Uri.Grammar

/-!
# URIs - the parser and the printer

This module embeds `URI` (`src/uri.h`) with `URI::Create` and its actions, the members that read
a URI, and the printing of it (`src/uri.rl`).  `mark` is an offset into the text, or null.
`URI::Create` sets `eof`, so the actions of a final state run at the end of the text.
-/

namespace Tiger
namespace Uri

open Lib.Ragel
open Http (Text text strtol printNat marked)

/-- `URI` -/
structure URI where
  scheme : Text
  user : Text
  host : Text
  port : Int
  path : Text
  query : Text
  fragment : Text
deriving DecidableEq

namespace URI

/-- `URI::URI()` -/
def fresh : URI := ⟨[], [], [], 0, [], [], []⟩

/-- `get_path` -/
def getPath (u : URI) : Text := if u.path.isEmpty then text ['/'] else u.path

/-- `m_scheme == "wss" || m_scheme == "https"` -/
def isSecure (u : URI) : Bool :=
  decide (u.scheme = text ['w', 's', 's']) || decide (u.scheme = text ['h', 't', 't', 'p', 's'])

/-- `m_scheme == "ws" || m_scheme == "http"` -/
def isPlain (u : URI) : Bool :=
  decide (u.scheme = text ['w', 's']) || decide (u.scheme = text ['h', 't', 't', 'p'])

/-- `get_port` -/
def getPort (u : URI) : Int :=
  if u.port ≠ 0 then u.port
  else if u.isSecure then 443
  else if u.isPlain then 80
  else u.port

/-- `is_default_port` -/
def isDefaultPort (u : URI) : Bool :=
  if u.port = 0 then true
  else if u.isSecure then decide (u.port = 80)
  else if u.isPlain then decide (u.port = 443)
  else false

/-- `std::to_string` of an `int32_t` -/
def printInt (v : Int) : Text :=
  if v < 0 then text ['-'] ++ printNat v.natAbs else printNat v.natAbs

/-- Both forms of `operator<<` -/
def print (u : URI) : Text :=
  u.scheme ++ text [':', '/', '/'] ++
    u.user ++ (if u.user.isEmpty then [] else text ['@']) ++
    u.host ++ (if u.isDefaultPort then [] else text [':'] ++ printInt u.port) ++
    u.path ++ marked 63 u.query ++ marked 35 u.fragment

/-- `os << p` for a pointer -/
def printPointer (address : Nat) : Text :=
  if address = 0 then text ['0'] else text (['0', 'x'] ++ Nat.toDigits 16 address)

/-- `to_string` prints `this`, the address of the object. -/
def toString (_ : URI) (address : Nat) : Text := printPointer address

end URI

/-! ## Parsing -/

/-- The variables of `URI::Create`. -/
structure Parser where
  cs : List E
  mark : Option Nat
  uri : URI

namespace Parser

/-- `std::string(mark, fpc - mark)` -/
def string (s : Text) (mark p : Nat) : Text := (s.drop mark).take (p - mark)

/-- `if (mark) member = std::string(mark, fpc - mark); mark = nullptr;` -/
def save (s : Text) (p : Nat) (set : Text → URI → URI) (ps : Parser) : Parser :=
  match ps.mark with
  | some mark => { ps with mark := none, uri := set (string s mark p) ps.uri }
  | none => ps

/-- `atoi` -/
def atoi (s : Text) : Int := toInt32 (strtol 10 s)

/-- An action at position `p` of the text.  There is no result when a null pointer is read. -/
def action (s : Text) (p : Nat) (ps : Parser) : UriAction → Option Parser
  | .marku => some { ps with mark := some p }
  | .markh => some { ps with mark := some p }
  | .saveScheme =>
      match ps.mark with
      | some mark => some { ps with mark := none, uri := { ps.uri with scheme := string s mark p } }
      | none => none
  | .savePort =>
      match ps.mark with
      | some mark =>
          if p ≠ mark then some
            { ps with mark := none, uri := { ps.uri with port := atoi (s.drop mark) } }
          else some { ps with mark := none }
      | none => none
  | .saveUser => some (ps.save s p fun v u => { u with user := v })
  | .saveHost => some (ps.save s p fun v u => { u with host := v })
  | .savePath => some (ps.save s p fun v u => { u with path := v })
  | .saveQuery => some (ps.save s p fun v u => { u with query := v })
  | .saveFragment => some (ps.save s p fun v u => { u with fragment := v })

/-- The actions of a step, one after the other. -/
def actions (s : Text) (p : Nat) (as : List UriAction) (ps : Parser) : Option Parser :=
  as.foldlM (action s p) ps

/-- `write exec`: the rest of the text from position `p` on; `some none` in the error state. -/
def exec (s : Text) : Nat → Text → Parser → Option (Option Parser)
  | _, [], ps => some (some ps)
  | p, c :: rest, ps =>
      match step ps.cs c with
      | none => some none
      | some (as, cs) => (actions s p as ps).bind fun ps => exec s (p + 1) rest { ps with cs := cs }

/-- The end of the text: the actions of a final state. -/
def atEof (s : Text) (ps : Parser) : Option (Option URI) :=
  if isFinal ps.cs then (actions s s.length (finalActions ps.cs) ps).map fun ps => some ps.uri
  else some none

/-- `write init` -/
def init : Parser := ⟨start Grammar.main, none, URI.fresh⟩

end Parser

/-- `URI::Create`; `some none` is the null pointer. -/
def URI.create (s : Text) : Option (Option URI) :=
  (Parser.exec s 0 s Parser.init).bind fun r =>
    match r with
    | some ps => ps.atEof s
    | none => some none

end Uri
end Tiger
