import Tiger.Http.ResponseParser

/-!
# HTTP - printing requests and responses

This module embeds `HTTPRequest::dump` and `HTTPResponse::dump`
(`src/servers/http/http.cc`), with `HTTPMethodToString` and `HTTPStatusToString`.
-/

namespace Tiger
namespace Http

open Lib.Ragel

/-! ## Parts -/

/-- `os << n` for an unsigned number -/
def printNat (n : Nat) : Text := text (Nat.toDigits 10 n)

theorem printNat_ne_nil (n : Nat) : printNat n ≠ [] := by
  simp [printNat, text, Nat.toDigits_ne_nil]

/-- A number is printed with digits. -/
theorem printNat_digit {n : Nat} {c : UInt8} (h : c ∈ printNat n) :
    48 ≤ c.toNat ∧ c.toNat ≤ 57 := by
  rcases List.mem_map.mp h with ⟨d, hd, rfl⟩
  have hdigit := Nat.isDigit_of_mem_toDigits (by norm_num) (by norm_num) hd
  rw [Char.isDigit, Bool.and_eq_true, decide_eq_true_eq, decide_eq_true_eq] at hdigit
  have hlow : 48 ≤ d.toNat := hdigit.1
  have hhigh : d.toNat ≤ 57 := hdigit.2
  rw [byte, UInt8.toNat_ofNat_of_lt' (by rw [UInt8.size]; omega)]
  exact ⟨hlow, hhigh⟩

/-- The digits of a printed number have its value. -/
theorem digitsValue_printNat (n : Nat) : digitsValue 10 (printNat n) = n := by
  rw [digitsValue, printNat, text, List.foldl_map]
  conv_rhs => rw [← Nat.ofDigitChars_ten_toDigits (n := n), Nat.ofDigitChars_eq_foldl]
  apply List.foldl_ext
  intro v c hc
  have hdigit := printNat_digit (List.mem_map_of_mem hc : byte c ∈ printNat n)
  have hlt : c.toNat < 256 := by
    have hrange := Nat.isDigit_of_mem_toDigits (by norm_num) (by norm_num) hc
    rw [Char.isDigit, Bool.and_eq_true, decide_eq_true_eq, decide_eq_true_eq] at hrange
    have hhigh : c.toNat ≤ 57 := hrange.2
    omega
  rw [(digit_plain hdigit).2.2.2.2, byte, UInt8.toNat_ofNat_of_lt' hlt]
  rfl

/-- `"HTTP/" << (version >> 4) << "." << (version & 0x0F)` -/
def printVersion (version : Nat) : Text :=
  text ['H', 'T', 'T', 'P', '/'] ++
    (printNat (version / 16) ++ (text ['.'] ++ printNat (version % 16)))

/-- `(s.empty() ? "" : c) << s` -/
def marked (c : UInt8) (s : Text) : Text := (if s.isEmpty then [] else [c]) ++ s

@[simp] theorem marked_nil (c : UInt8) : marked c [] = [] := rfl

theorem marked_of_ne {c : UInt8} {s : Text} (h : s ≠ []) : marked c s = [c] ++ s := by
  rw [marked, if_neg (by simpa using h)]

/-- `os << name << ": " << value << "\r\n"` -/
def headerLine (e : Text × Text) : Text := e.1 ++ ([58] ++ ([32] ++ (e.2 ++ ([13] ++ [10]))))

/-- `strcasecmp(name, "connection") == 0` -/
def isConnection (name : Text) : Bool :=
  decide (caseKey name = caseKey (text ['c', 'o', 'n', 'n', 'e', 'c', 't', 'i', 'o', 'n']))

/-- `close ? "close" : "keep-alive"` -/
def connectionValue (close : Bool) : Text :=
  if close then text ['c', 'l', 'o', 's', 'e']
  else text ['k', 'e', 'e', 'p', '-', 'a', 'l', 'i', 'v', 'e']

/-- The header fields that are printed: without the websocket flag the connection is not. -/
def printedHeaders (websocket : Bool) (headers : FieldMap) : FieldMap :=
  headers.filter fun e => !(!websocket && isConnection e.1)

/-- `"content-length"` -/
def contentLengthName : Text :=
  text ['c', 'o', 'n', 't', 'e', 'n', 't', '-', 'l', 'e', 'n', 'g', 't', 'h']

/-- The end of both dumps: the length of a body that is not empty, the empty line, the body. -/
def printBody (body : Text) : Text :=
  if body.isEmpty then [13] ++ [10]
  else headerLine (contentLengthName, printNat body.length) ++ (([13] ++ [10]) ++ body)

/-! ## Requests -/

/-- `HTTPRequest` with the members that only `dump` reads. -/
structure OutRequest extends HTTPRequest where
  websocket : Bool
  cookies : FieldMap
deriving DecidableEq

/-- `HTTPMethodToString`; the index of `INVALID_METHOD` is the size of the table, which the
check lets pass, and there is no text behind the table. -/
def httpMethodToString (method : HTTPMethod) : Option Text :=
  (httpMethodMap.find? fun e => e.1 = method).map fun e => text e.2

/-- The target of a request. -/
def targetText (path query fragment : Text) : Text :=
  path ++ (marked 63 query ++ marked 35 fragment)

/-- The request line, behind the method. -/
def printLine (r : OutRequest) : Text :=
  [32] ++ (targetText r.path r.query r.fragment ++
    ([32] ++ (printVersion r.version ++ ([13] ++ [10]))))

/-- `"\t" << name << ":" << value << "\n"` -/
def cookieLine (e : Text × Text) : Text := [9] ++ (e.1 ++ ([58] ++ (e.2 ++ [10])))

/-- The cookies of a request. -/
def printCookies (cookies : FieldMap) : Text :=
  if cookies.isEmpty then []
  else text ['S', 'e', 't', '-', 'C', 'o', 'o', 'k', 'i', 'e', ':', ' ', '\n'] ++
    cookies.flatMap cookieLine

/-- `"Connection"` -/
def connectionName : Text := text ['C', 'o', 'n', 'n', 'e', 'c', 't', 'i', 'o', 'n']

/-- The line of the connection, which comes first. -/
def printConnection (r : OutRequest) : Text :=
  if r.websocket then [] else headerLine (connectionName, connectionValue r.close)

/-- `HTTPRequest::dump`; `none` when the method has no text. -/
def OutRequest.dump (r : OutRequest) : Option Text :=
  (httpMethodToString r.method).map fun method =>
    method ++ (printLine r ++ (printConnection r ++
      ((printedHeaders r.websocket r.headers).flatMap headerLine ++
        (printCookies r.cookies ++ printBody r.body))))

/-! ## Responses -/

/-- `HTTP_STATUS_MAP`.  The texts are stringified, with blanks around the `-`. -/
def httpStatusMap : List (Nat × List Char) :=
  [(100, ['C', 'o', 'n', 't', 'i', 'n', 'u', 'e']),
    (101, ['S', 'w', 'i', 't', 'c', 'h', 'i', 'n', 'g', ' ', 'P', 'r', 'o', 't', 'o', 'c', 'o',
      'l', 's']),
    (102, ['P', 'r', 'o', 'c', 'e', 's', 's', 'i', 'n', 'g']),
    (200, ['O', 'K']),
    (201, ['C', 'r', 'e', 'a', 't', 'e', 'd']),
    (202, ['A', 'c', 'c', 'e', 'p', 't', 'e', 'd']),
    (203, ['N', 'o', 'n', ' ', '-', ' ', 'A', 'u', 't', 'h', 'o', 'r', 'i', 't', 'a', 't', 'i',
      'v', 'e', ' ', 'I', 'n', 'f', 'o', 'r', 'm', 'a', 't', 'i', 'o', 'n']),
    (204, ['N', 'o', ' ', 'C', 'o', 'n', 't', 'e', 'n', 't']),
    (205, ['R', 'e', 's', 'e', 't', ' ', 'C', 'o', 'n', 't', 'e', 'n', 't']),
    (206, ['P', 'a', 'r', 't', 'i', 'a', 'l', ' ', 'C', 'o', 'n', 't', 'e', 'n', 't']),
    (207, ['M', 'u', 'l', 't', 'i', ' ', '-', ' ', 'S', 't', 'a', 't', 'u', 's']),
    (208, ['A', 'l', 'r', 'e', 'a', 'd', 'y', ' ', 'R', 'e', 'p', 'o', 'r', 't', 'e', 'd']),
    (226, ['I', 'M', ' ', 'U', 's', 'e', 'd']),
    (300, ['M', 'u', 'l', 't', 'i', 'p', 'l', 'e', ' ', 'C', 'h', 'o', 'i', 'c', 'e', 's']),
    (301, ['M', 'o', 'v', 'e', 'd', ' ', 'P', 'e', 'r', 'm', 'a', 'n', 'e', 'n', 't', 'l', 'y']),
    (302, ['F', 'o', 'u', 'n', 'd']),
    (303, ['S', 'e', 'e', ' ', 'O', 't', 'h', 'e', 'r']),
    (304, ['N', 'o', 't', ' ', 'M', 'o', 'd', 'i', 'f', 'i', 'e', 'd']),
    (305, ['U', 's', 'e', ' ', 'P', 'r', 'o', 'x', 'y']),
    (307, ['T', 'e', 'm', 'p', 'o', 'r', 'a', 'r', 'y', ' ', 'R', 'e', 'd', 'i', 'r', 'e', 'c',
      't']),
    (308, ['P', 'e', 'r', 'm', 'a', 'n', 'e', 'n', 't', ' ', 'R', 'e', 'd', 'i', 'r', 'e', 'c',
      't']),
    (400, ['B', 'a', 'd', ' ', 'R', 'e', 'q', 'u', 'e', 's', 't']),
    (401, ['U', 'n', 'a', 'u', 't', 'h', 'o', 'r', 'i', 'z', 'e', 'd']),
    (402, ['P', 'a', 'y', 'm', 'e', 'n', 't', ' ', 'R', 'e', 'q', 'u', 'i', 'r', 'e', 'd']),
    (403, ['F', 'o', 'r', 'b', 'i', 'd', 'd', 'e', 'n']),
    (404, ['N', 'o', 't', ' ', 'F', 'o', 'u', 'n', 'd']),
    (405, ['M', 'e', 't', 'h', 'o', 'd', ' ', 'N', 'o', 't', ' ', 'A', 'l', 'l', 'o', 'w', 'e',
      'd']),
    (406, ['N', 'o', 't', ' ', 'A', 'c', 'c', 'e', 'p', 't', 'a', 'b', 'l', 'e']),
    (407, ['P', 'r', 'o', 'x', 'y', ' ', 'A', 'u', 't', 'h', 'e', 'n', 't', 'i', 'c', 'a', 't',
      'i', 'o', 'n', ' ', 'R', 'e', 'q', 'u', 'i', 'r', 'e', 'd']),
    (408, ['R', 'e', 'q', 'u', 'e', 's', 't', ' ', 'T', 'i', 'm', 'e', 'o', 'u', 't']),
    (409, ['C', 'o', 'n', 'f', 'l', 'i', 'c', 't']),
    (410, ['G', 'o', 'n', 'e']),
    (411, ['L', 'e', 'n', 'g', 't', 'h', ' ', 'R', 'e', 'q', 'u', 'i', 'r', 'e', 'd']),
    (412, ['P', 'r', 'e', 'c', 'o', 'n', 'd', 'i', 't', 'i', 'o', 'n', ' ', 'F', 'a', 'i', 'l',
      'e', 'd']),
    (413, ['P', 'a', 'y', 'l', 'o', 'a', 'd', ' ', 'T', 'o', 'o', ' ', 'L', 'a', 'r', 'g', 'e']),
    (414, ['U', 'R', 'I', ' ', 'T', 'o', 'o', ' ', 'L', 'o', 'n', 'g']),
    (415, ['U', 'n', 's', 'u', 'p', 'p', 'o', 'r', 't', 'e', 'd', ' ', 'M', 'e', 'd', 'i', 'a',
      ' ', 'T', 'y', 'p', 'e']),
    (416, ['R', 'a', 'n', 'g', 'e', ' ', 'N', 'o', 't', ' ', 'S', 'a', 't', 'i', 's', 'f', 'i',
      'a', 'b', 'l', 'e']),
    (417, ['E', 'x', 'p', 'e', 'c', 't', 'a', 't', 'i', 'o', 'n', ' ', 'F', 'a', 'i', 'l', 'e',
      'd']),
    (421, ['M', 'i', 's', 'd', 'i', 'r', 'e', 'c', 't', 'e', 'd', ' ', 'R', 'e', 'q', 'u', 'e',
      's', 't']),
    (422, ['U', 'n', 'p', 'r', 'o', 'c', 'e', 's', 's', 'a', 'b', 'l', 'e', ' ', 'E', 'n', 't',
      'i', 't', 'y']),
    (423, ['L', 'o', 'c', 'k', 'e', 'd']),
    (424, ['F', 'a', 'i', 'l', 'e', 'd', ' ', 'D', 'e', 'p', 'e', 'n', 'd', 'e', 'n', 'c', 'y']),
    (426, ['U', 'p', 'g', 'r', 'a', 'd', 'e', ' ', 'R', 'e', 'q', 'u', 'i', 'r', 'e', 'd']),
    (428, ['P', 'r', 'e', 'c', 'o', 'n', 'd', 'i', 't', 'i', 'o', 'n', ' ', 'R', 'e', 'q', 'u',
      'i', 'r', 'e', 'd']),
    (429, ['T', 'o', 'o', ' ', 'M', 'a', 'n', 'y', ' ', 'R', 'e', 'q', 'u', 'e', 's', 't', 's']),
    (431, ['R', 'e', 'q', 'u', 'e', 's', 't', ' ', 'H', 'e', 'a', 'd', 'e', 'r', ' ', 'F', 'i',
      'e', 'l', 'd', 's', ' ', 'T', 'o', 'o', ' ', 'L', 'a', 'r', 'g', 'e']),
    (451, ['U', 'n', 'a', 'v', 'a', 'i', 'l', 'a', 'b', 'l', 'e', ' ', 'F', 'o', 'r', ' ', 'L',
      'e', 'g', 'a', 'l', ' ', 'R', 'e', 'a', 's', 'o', 'n', 's']),
    (500, ['I', 'n', 't', 'e', 'r', 'n', 'a', 'l', ' ', 'S', 'e', 'r', 'v', 'e', 'r', ' ', 'E',
      'r', 'r', 'o', 'r']),
    (501, ['N', 'o', 't', ' ', 'I', 'm', 'p', 'l', 'e', 'm', 'e', 'n', 't', 'e', 'd']),
    (502, ['B', 'a', 'd', ' ', 'G', 'a', 't', 'e', 'w', 'a', 'y']),
    (503, ['S', 'e', 'r', 'v', 'i', 'c', 'e', ' ', 'U', 'n', 'a', 'v', 'a', 'i', 'l', 'a', 'b',
      'l', 'e']),
    (504, ['G', 'a', 't', 'e', 'w', 'a', 'y', ' ', 'T', 'i', 'm', 'e', 'o', 'u', 't']),
    (505, ['H', 'T', 'T', 'P', ' ', 'V', 'e', 'r', 's', 'i', 'o', 'n', ' ', 'N', 'o', 't', ' ',
      'S', 'u', 'p', 'p', 'o', 'r', 't', 'e', 'd']),
    (506, ['V', 'a', 'r', 'i', 'a', 'n', 't', ' ', 'A', 'l', 's', 'o', ' ', 'N', 'e', 'g', 'o',
      't', 'i', 'a', 't', 'e', 's']),
    (507, ['I', 'n', 's', 'u', 'f', 'f', 'i', 'c', 'i', 'e', 'n', 't', ' ', 'S', 't', 'o', 'r',
      'a', 'g', 'e']),
    (508, ['L', 'o', 'o', 'p', ' ', 'D', 'e', 't', 'e', 'c', 't', 'e', 'd']),
    (510, ['N', 'o', 't', ' ', 'E', 'x', 't', 'e', 'n', 'd', 'e', 'd']),
    (511, ['N', 'e', 't', 'w', 'o', 'r', 'k', ' ', 'A', 'u', 't', 'h', 'e', 'n', 't', 'i', 'c',
      'a', 't', 'i', 'o', 'n', ' ', 'R', 'e', 'q', 'u', 'i', 'r', 'e', 'd'])]

/-- `HTTPStatusToString` -/
def httpStatusToString (status : Int) : Text :=
  match httpStatusMap.find? fun e => (e.1 : Int) = status with
  | some e => text e.2
  | none => text ['U', 'N', 'K', 'N', 'O', 'W', 'N']

/-- `HTTPResponse` with the members that only `dump` reads. -/
structure OutResponse extends HTTPResponse where
  close : Bool
  websocket : Bool
  cookies : List Text
deriving DecidableEq

/-- The status line; the status is printed as a `uint32_t`. -/
def OutResponse.printLine (r : OutResponse) : Text :=
  printVersion r.version ++ ([32] ++ (printNat (r.status % 2 ^ 32).toNat ++ ([32] ++
    ((if r.reason.isEmpty then httpStatusToString r.status else r.reason) ++ ([13] ++ [10])))))

/-- `"Set-Cookie"` -/
def setCookieName : Text := text ['S', 'e', 't', '-', 'C', 'o', 'o', 'k', 'i', 'e']

/-- `HTTPResponse::dump` -/
def OutResponse.dump (r : OutResponse) : Text :=
  r.printLine ++ ((printedHeaders r.websocket r.headers).flatMap headerLine ++
    (r.cookies.flatMap (fun v => headerLine (setCookieName, v)) ++
      ((if r.websocket then []
        else headerLine (text ['c', 'o', 'n', 'n', 'e', 'c', 't', 'i', 'o', 'n'],
          connectionValue r.close)) ++
        printBody r.body)))

end Http
end Tiger
