import Tiger.Http.Message

/-!
# HTTP - parameters and cookies of a request

This module embeds the macro `PARSE_PARAM` with `StringUtils::UrlEncode` and
`StringUtils::Trim` (`src/util.cc`), and how a request that was received reads its cookies
(`src/servers/http/http.cc`).
-/

namespace Tiger
namespace Http

open Lib.Ragel

/-- `CHAR_IS_UNRESERVED`: the letters, the digits and `-`, `.`, `=`, `_`, `~`. -/
def charIsUnreserved (c : UInt8) : Bool :=
  decide (48 ≤ c.toNat ∧ c.toNat ≤ 57 ∨ 65 ≤ c.toNat ∧ c.toNat ≤ 90 ∨ 97 ≤ c.toNat ∧ c.toNat ≤ 122 ∨
    c = 45 ∨ c = 46 ∨ c = 61 ∨ c = 95 ∨ c = 126)

/-- `hexdigits[n]` -/
def hexdigits (n : Nat) : UInt8 := UInt8.ofNat (if n < 10 then 48 + n else 55 + n)

/-- `StringUtils::UrlEncode` -/
def urlEncode (spaceAsPlus : Bool) (s : Text) : Text :=
  s.flatMap fun c =>
    if charIsUnreserved c then [c]
    else if c = 32 ∧ spaceAsPlus then [43]
    else [37, hexdigits (c.toNat / 16), hexdigits (c.toNat % 16)]

/-- The bytes that `StringUtils::Trim` removes by default. -/
def isTrimmed (c : UInt8) : Bool := c == 32 || c == 9 || c == 13 || c == 10

/-- `StringUtils::Trim` -/
def trim (s : Text) : Text := ((s.dropWhile isTrimmed).reverse.dropWhile isTrimmed).reverse

/-- `m.insert(std::make_pair(key, val))`: a field that is there stays as it is. -/
def FieldMap.insert (key val : Text) (m : FieldMap) : FieldMap :=
  match m.find key with
  | some _ => m
  | none => m.set key val

/-- `PARSE_PARAM(str, m, flag, trim)`, with `str` from `pos` on: the name reaches up to the
next `=`, over a separator too, and the value up to the separator behind it. -/
def parseParam (flag : UInt8) (trim : Text → Text) (str : Text) (m : FieldMap) : FieldMap :=
  match _hkey : str.dropWhile (· != 61) with
  | [] => m
  | _ :: value =>
      let m := m.insert (trim (str.takeWhile (· != 61)))
        (urlEncode true (value.takeWhile (· != flag)))
      match _hend : value.dropWhile (· != flag) with
      | [] => m
      | _ :: rest => parseParam flag trim rest m
termination_by str.length
decreasing_by
  have hvalue := (List.dropWhile_suffix (l := str) (· != 61)).length_le
  have hrest := (List.dropWhile_suffix (l := value) (· != flag)).length_le
  rw [_hkey, List.length_cons] at hvalue
  rw [_hend, List.length_cons] at hrest
  omega

/-- `init_cookies()` of a request that was received: the map is empty before. -/
def HTTPRequest.initCookies (r : HTTPRequest) : FieldMap :=
  let cookie := (r.headers.find (text ['c', 'o', 'o', 'k', 'i', 'e'])).getD []
  if cookie.isEmpty then [] else parseParam 59 trim cookie []

/-- `get_cookie(key)` of a request that was received -/
def HTTPRequest.getCookie (r : HTTPRequest) (key : Text) : Text :=
  (r.initCookies.find key).getD []

end Http
end Tiger
