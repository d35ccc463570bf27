import Tiger.Http.Message
import Tiger.Http.ResponseGrammar
import Tiger.Streams.SocketStream

/-!
# HTTP - the response parser

This module embeds `http_response_parser_execute` with the actions of
`http_response_parser.rl`, and `HTTPResponseParser` with its callbacks
(`src/servers/http/http_parser.cc`).  The same machine reads the header of a
response and the size lines of its chunks; for a size line it is initialised
anew in every call.

The source calls the machine finished in its first final state only.  All final
states are the one behind the whole expression, where nothing is left to match.
-/

namespace Tiger
namespace Http

open Lib.Ragel

/-! ## Numbers in texts -/

/-- The C string that starts at `pos` in a buffer of `len` bytes and a NUL. -/
def cString (m : Memory) (pos len : Nat) : Text := (slice m pos (len - pos)).takeWhile (· != 0)

/-- `isspace` -/
def isSpace (c : UInt8) : Bool := (decide (9 ≤ c.toNat) && decide (c.toNat ≤ 13)) || c == 32

/-- The value of a digit or a letter. -/
def digitValue (c : UInt8) : Nat :=
  if 48 ≤ c.toNat ∧ c.toNat ≤ 57 then c.toNat - 48
  else if 65 ≤ c.toNat ∧ c.toNat ≤ 90 then c.toNat - 55
  else if 97 ≤ c.toNat ∧ c.toNat ≤ 122 then c.toNat - 87
  else 36

/-- The value of a sequence of digits. -/
def digitsValue (base : Nat) (ds : Text) : Nat := ds.foldl (fun v c => base * v + digitValue c) 0

/-- A hexadecimal number may start with `0x`. -/
def skipHexMark (base : Nat) : Text → Text
  | 48 :: x :: d :: rest =>
      if base = 16 ∧ (x = 120 ∨ x = 88) ∧ digitValue d < 16 then d :: rest else 48 :: x :: d :: rest
  | s => s

/-- The digits at the start of a text, in the range of `long`. -/
def strtolDigits (base : Nat) (negative : Bool) (s : Text) : Int :=
  let v := digitsValue base ((skipHexMark base s).takeWhile fun c => decide (digitValue c < base))
  if negative then max (-(v : Int)) (-2 ^ 63) else min (v : Int) (2 ^ 63 - 1)

/-- `strtol(s, NULL, base)` -/
def strtol (base : Nat) (s : Text) : Int :=
  match s.dropWhile isSpace with
  | 45 :: rest => strtolDigits base true rest
  | 43 :: rest => strtolDigits base false rest
  | rest => strtolDigits base false rest

/-- A decimal digit is no blank and no sign. -/
theorem digit_plain {c : UInt8} (h : 48 ≤ c.toNat ∧ c.toNat ≤ 57) :
    isSpace c = false ∧ c ≠ 45 ∧ c ≠ 43 ∧ c ≠ 0 ∧ digitValue c = c.toNat - 48 := by
  have hall : ∀ k < 58, 48 ≤ k → isSpace (UInt8.ofNat k) = false ∧ UInt8.ofNat k ≠ 45 ∧
      UInt8.ofNat k ≠ 43 ∧ UInt8.ofNat k ≠ 0 ∧ digitValue (UInt8.ofNat k) = k - 48 := by
    decide
  have hc := hall c.toNat (by omega) h.1
  rwa [UInt8.ofNat_toNat] at hc

/-- In base ten there is no mark to skip. -/
theorem skipHexMark_ten (s : Text) : skipHexMark 10 s = s := by
  unfold skipHexMark
  split
  · rw [if_neg (by simp)]
  · rfl

/-- `strtol` reads the digits up to the first byte that is not one. -/
theorem strtol_ten {ds rest : Text} (hne : ds ≠ []) (h : ∀ c ∈ ds, 48 ≤ c.toNat ∧ c.toNat ≤ 57)
    (hlt : digitsValue 10 ds < 2 ^ 63) (hrest : ∀ c ∈ rest.head?, 10 ≤ digitValue c) :
    strtol 10 (ds ++ rest) = digitsValue 10 ds := by
  have hdigits : ∀ c ∈ ds, decide (digitValue c < 10) = true := by
    intro c hc
    have hdigit := h c hc
    rw [(digit_plain hdigit).2.2.2.2, decide_eq_true_eq]
    omega
  have hstop : rest.takeWhile (fun c => decide (digitValue c < 10)) = [] := by
    cases rest with
    | nil => rfl
    | cons c rest =>
        rw [List.takeWhile_cons, if_neg]
        have hc := hrest c rfl
        simpa using hc
  have hvalue : strtolDigits 10 false (ds ++ rest) = digitsValue 10 ds := by
    rw [strtolDigits, skipHexMark_ten, List.takeWhile_append_of_pos hdigits, hstop, List.append_nil]
    simp only [Bool.false_eq_true, if_false]
    omega
  cases ds with
  | nil => exact absurd rfl hne
  | cons c ds =>
      have hc := digit_plain (h c List.mem_cons_self)
      rw [← hvalue, strtol, List.cons_append, List.dropWhile_cons, if_neg (by simp [hc.1])]
      split
      next hcons => exact absurd (List.cons.inj hcons).1 hc.2.1
      next hcons => exact absurd (List.cons.inj hcons).1 hc.2.2.1
      next => rfl

/-! ## Responses -/

/-- `HTTPResponse`, without the members that the receiver does not touch. -/
structure HTTPResponse where
  status : Int
  version : Nat
  body : Text
  reason : Text
  headers : FieldMap
deriving DecidableEq

/-- `HTTPResponse::HTTPResponse()` -/
def HTTPResponse.fresh : HTTPResponse := ⟨200, 0x11, [], [], []⟩

/-- What the source takes from outside. -/
structure ClientEnv where
  /-- what a new buffer holds -/
  memory : Memory
  /-- `boost::lexical_cast<uint64_t>`, `none` when it throws -/
  lexicalCast : Text → Option UInt64
  /-- the stream of `ZlibStream::CreateGzip(false)` applied to a body -/
  gunzip : Text → Text
  /-- the stream of `ZlibStream::CreateDeflate(false)` applied to a body -/
  inflate : Text → Text

/-- `http_response_parser` together with the members of `HTTPResponseParser`.
The machine state is `none` for `http_response_parser_error`, and `error` is
whether `m_error` is set. -/
structure HTTPResponseParser where
  cs : Option (List (Expr ResponseAction))
  bodyStart : Nat
  contentLen : Int
  status : Int
  chunked : Bool
  chunksDone : Bool
  close : Bool
  nread : Nat
  mark : Nat
  fieldStart : Nat
  fieldLen : Nat
  data : HTTPResponse
  error : Bool

namespace HTTPResponseParser

/-- `http_response_parser_init`; it leaves `status` alone. -/
def reinit (ps : HTTPResponseParser) : HTTPResponseParser :=
  { ps with
    cs := some (start ResponseGrammar.main)
    bodyStart := 0
    contentLen := -1
    chunked := false
    chunksDone := false
    mark := 0
    nread := 0
    fieldLen := 0
    fieldStart := 0
    close := false }

/-- `HTTPResponseParser::HTTPResponseParser()` -/
def init : HTTPResponseParser :=
  reinit ⟨none, 0, 0, 0, false, false, false, 0, 0, 0, 0, HTTPResponse.fresh, false⟩

/-! ## Callbacks and actions -/

/-- `LEN(at, fpc)` -/
def len (start p : Nat) : Nat := toSizeT ((p : Int) - (start : Int))

/-- `std::string(at, length)`; `none` when the constructor throws. -/
def string (m : Memory) (start length : Nat) : Option Text :=
  if length < 2 ^ 62 then some (slice m start length) else none

/-- `on_response_http_version` -/
def onResponseHttpVersion (m : Memory) (start length : Nat) (ps : HTTPResponseParser) :
    Option HTTPResponseParser :=
  if strncmpEq m start ['H', 'T', 'T', 'P', '/', '1', '.', '1'] length then
    some { ps with data := { ps.data with version := 0x11 } }
  else if strncmpEq m start ['H', 'T', 'T', 'P', '/', '1', '.', '0'] length then
    some { ps with data := { ps.data with version := 0x10 } }
  else (string m start length).map fun _ => { ps with error := true }

/-- `on_response_http_field` -/
def onResponseHttpField (m : Memory) (field flen value vlen : Nat) (ps : HTTPResponseParser) :
    Option HTTPResponseParser :=
  if flen = 0 then some ps
  else
    match string m field flen, string m value vlen with
    | some k, some v => some { ps with data := { ps.data with headers := ps.data.headers.set k v } }
    | _, _ => none

/-- One action at position `p` of a call with `length` bytes; `none` when a
callback throws. -/
def act (m : Memory) (length p : Nat) (a : ResponseAction) (ps : HTTPResponseParser) :
    Option HTTPResponseParser :=
  match a with
  | .mark => some { ps with mark := p }
  | .startField => some { ps with fieldStart := p }
  | .writeField => some { ps with fieldLen := len ps.fieldStart p }
  | .startValue => some { ps with mark := p }
  | .writeContentLen =>
      some { ps with contentLen := toInt32 (strtol 10 (cString m ps.mark length)) }
  | .writeConnectionClose => some { ps with close := true }
  | .writeValue => onResponseHttpField m ps.fieldStart ps.fieldLen ps.mark (len ps.mark p) ps
  | .reasonPhrase =>
      (string m ps.mark (len ps.mark p)).map fun v =>
        { ps with data := { ps.data with reason := v } }
  | .statusCode =>
      let v := toInt32 (strtol 10 (cString m ps.mark length))
      some { ps with status := v, data := { ps.data with status := v } }
  | .httpVersion => onResponseHttpVersion m ps.mark (len ps.mark p) ps
  | .chunkSize =>
      let v := toInt32 (strtol 16 (cString m ps.mark length))
      some { ps with chunked := true, contentLen := v, chunksDone := decide (v ≤ 0) }
  | .transChunked => some { ps with chunked := true }
  | .done => some { ps with bodyStart := p + 1 }

/-- Actions one after the other. -/
def acts (m : Memory) (length p : Nat) :
    List ResponseAction → HTTPResponseParser → Option HTTPResponseParser
  | [], ps => some ps
  | a :: as, ps => (act m length p a ps).bind (acts m length p as)

/-! ## Execution -/

/-- The machine on the bytes from `p` on, `n` of them at most: the position
where it stops and the parser there; `none` when a callback throws. -/
def exec (m : Memory) (length : Nat) :
    Nat → Nat → HTTPResponseParser → Option (Nat × HTTPResponseParser)
  | 0, p, ps => some (p, ps)
  | n + 1, p, ps =>
      match ps.cs with
      | none => some (p, ps)
      | some threads =>
          match step threads (m p) with
          | none => some (p, { ps with cs := none })
          | some (as, threads') =>
              (acts m length p as { ps with cs := some threads' }).bind fun ps' =>
                if as.contains .done then some (p + 1, ps') else exec m length n (p + 1) ps'

/-- How a receiver ends without a response. -/
inductive Failure
  /-- `close()` and `return nullptr` -/
  | null (s : SocketStream)
  /-- an assert fails -/
  | abort
  /-- `std::length_error` -/
  | threw
  /-- the count -1 of a failed check, or an overflow, is used as an offset -/
  | wild
  /-- the bound on the rounds is used up -/
  | outOfFuel
deriving DecidableEq

/-- `HTTPResponseParser::execute(data, length, chunck)`: the count that is
returned, the parser and the buffer.  The call reads `*pe`, which the caller has
set to NUL. -/
def execute (m : Memory) (length : Nat) (chunck : Bool) (ps : HTTPResponseParser) :
    Except Failure (Nat × HTTPResponseParser × Memory) :=
  if m length ≠ 0 then .error .abort
  else
    match exec m length length 0 (if chunck then ps.reinit else ps) with
    | none => .error .threw
    | some (p, ps) =>
        let ps := { ps with nread := ps.nread + p }
        if ¬ (ps.nread ≤ length ∧ ps.bodyStart ≤ length) then .error .abort
        else if ¬ (ps.mark < length ∧ ps.fieldLen ≤ length ∧ ps.fieldStart < length) then
          .error .wild
        else .ok (ps.nread, ps, memmove m ps.nread (length - ps.nread))

/-- `HTTPResponseParser::has_error()` -/
def hasError (ps : HTTPResponseParser) : Bool := ps.error || ps.cs.isNone

/-- `HTTPResponseParser::is_finished()` -/
def isFinished (ps : HTTPResponseParser) : Bool := decide (ps.cs = some [.eps])

/-- `HTTPResponseParser::get_content_length()` -/
def getContentLength (env : ClientEnv) (ps : HTTPResponseParser) : UInt64 :=
  getAs env.lexicalCast ps.data.headers
    (text ['c', 'o', 'n', 't', 'e', 'n', 't', '-', 'l', 'e', 'n', 'g', 't', 'h']) 0

end HTTPResponseParser

end Http
end Tiger
