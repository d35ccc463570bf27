import Tiger.Http.Dump
import Tiger.Lib.Trace

/-!
# HTTP - the parts of a response text

How the machine of `http_response_parser.rl` takes the parts of a response: the version, the
status code and the reason of the status line, and the names and values of header fields.  A
header line is matched by up to three alternatives side by side: the one for every field, and
those for the names that the grammar knows, which live as long as the name agrees with theirs.

Main results:

- Theorem `takes_fieldName`: a name, with the alternatives that are left behind it.
- Theorem `plain_line`: the line of a field that the grammar does not know.
- Theorem `connection_line`, `length_line`: the lines that end the header of a printed response.
-/

namespace Tiger
namespace Http

open Lib.Ragel Lib.Ragel.Expr ResponseGrammar

namespace ResponseGrammar

/-! ## Strings of the grammar -/

/-- `field_name` -/
def isName (s : Text) : Bool := !s.isEmpty && s.all token.mem

/-- A byte that does not end a line. -/
def isTextByte (c : UInt8) : Bool := decide (c ≠ 13 ∧ c ≠ 10)

/-- A value that is not empty and does not start with white space. -/
def isValue (s : Text) : Bool := s.all isTextByte && s.head?.any fun c => !space.mem c

/-- A reason that the grammar takes. -/
def isReason (s : Text) : Bool := !s.isEmpty && s.all isTextByte

/-- A number. -/
def isNumber (s : Text) : Bool := !s.isEmpty && s.all digit.mem

/-! ## States -/

/-- The states of the machine outside of the version and the names of header fields. -/
inductive LinePlace
  /-- in front of the status code -/
  | code
  | inCode
  /-- in front of the reason -/
  | reason
  | inReason
  /-- behind the carriage return of the status line -/
  | statusReturn
  /-- in front of a header line -/
  | top
  /-- in front of a header line, behind the line that closes the connection -/
  | closed
  /-- behind the colon of a field that the grammar does not know -/
  | colon
  /-- behind the blank -/
  | spaces
  /-- in a value -/
  | value
  /-- behind the carriage return of a header line -/
  | lineReturn
  /-- behind the colon of a connection -/
  | connectionColon
  | connectionSpaces
  /-- behind the text `close` -/
  | close
  | closeReturn
  /-- behind the colon of a length -/
  | lengthColon
  | lengthSpaces
  | lengthDigits
  /-- behind the carriage return of the empty line -/
  | lastReturn
deriving DecidableEq

/-- A part of the status line, and what follows it. -/
def inStatus (x : E) : E :=
  finishing 28 .done (cat (cat (prioAll 0 0 x) (prioStart 0 1 CRLF))
    (cat (star messageHeader) CRLF))

/-- A part of a header line, and what follows it. -/
def inLine (x : E) : E := finishing 28 .done (cat (cat x (star messageHeader)) CRLF)

/-- A part of a field, in front of the end of its line. -/
def inField (x : E) : E := inLine (cat (prioAll 1 0 x) (prioStart 1 1 CRLF))

/-- The value `close` and the end of its line. -/
def closeRest : E :=
  cat (litNoCase ['c', 'l', 'o', 's', 'e']) (leaving 11 .writeConnectionClose CRLF)

/-- A length and the end of its line. -/
def lengthRest : E :=
  cat (leaving 16 .writeValue (leaving 15 .writeContentLen (entering 14 .startValue
    (plus (chars digit))))) CRLF

/-- White space and a value of any field. -/
def valueThread : E := inField (seq [star (chars space), fieldValue])

/-- The rest of a value of any field. -/
def valueRest : E := inField (leaving 20 .writeValue (star (chars any)))

/-- The threads of the machine in a state. -/
def LinePlace.threads : LinePlace → List E
  | code => [inStatus (seq [StatusCode, lit [' '], ReasonPhrase])]
  | inCode => [inStatus
    (cat (leaving 3 .statusCode (star (chars digit))) (seq [lit [' '], ReasonPhrase]))]
  | reason => [inStatus ReasonPhrase]
  | inReason => [inStatus (leaving 5 .reasonPhrase (star (chars (.diff any (.char '\n')))))]
  | statusReturn => [finishing 28 .done (cat (lit ['\n']) (cat (star messageHeader) CRLF))]
  | top => [finishing 28 .done (cat (star messageHeader) CRLF)]
  | closed =>
      [inLine (leaving 11 .writeConnectionClose eps),
        finishing 28 .done (cat (star messageHeader) CRLF)]
  | colon => [valueThread]
  | spaces => [valueThread, valueRest]
  | value => [valueRest]
  | lineReturn => [inLine (lit ['\n'])]
  | connectionColon => [inLine (cat (star (chars space)) closeRest), valueThread]
  | connectionSpaces => [inLine (cat (star (chars space)) closeRest), valueThread, valueRest]
  | close => [inLine (leaving 11 .writeConnectionClose CRLF), valueRest]
  | closeReturn => [inLine (leaving 11 .writeConnectionClose (lit ['\n'])), inLine (lit ['\n'])]
  | lengthColon => [inLine (cat (star (chars space)) lengthRest), valueThread]
  | lengthSpaces => [inLine (cat (star (chars space)) lengthRest), valueThread, valueRest]
  | lengthDigits =>
      [inLine (cat (leaving 16 .writeValue (leaving 15 .writeContentLen (star (chars digit))))
        CRLF), valueRest]
  | lastReturn => [finishing 28 .done (lit ['\n'])]

/-- The kinds of bytes behind names. -/
inductive ByteKind
  | digit | carriageReturn | lineFeed | blank | space | other
deriving DecidableEq

/-- The kind of a byte. -/
def byteKind (c : UInt8) : ByteKind :=
  if digit.mem c then .digit
  else if c = 13 then .carriageReturn
  else if c = 10 then .lineFeed
  else if c = 32 then .blank
  else if space.mem c then .space
  else .other

/-- What the machine does in a state on a byte of a kind, as far as printed responses need it. -/
def LinePlace.next : LinePlace → ByteKind → Option (List ResponseAction × LinePlace)
  | code, .digit => some ([.mark], inCode)
  | inCode, .digit => some ([], inCode)
  | inCode, .blank => some ([.statusCode], reason)
  | reason, .carriageReturn => none
  | reason, .lineFeed => none
  | reason, _ => some ([.mark], inReason)
  | inReason, .carriageReturn => some ([.reasonPhrase], statusReturn)
  | inReason, .lineFeed => none
  | inReason, _ => some ([], inReason)
  | statusReturn, .lineFeed => some ([], top)
  | top, .carriageReturn => some ([], lastReturn)
  | closed, .carriageReturn => some ([.writeConnectionClose], lastReturn)
  | colon, .blank => some ([.startValue], spaces)
  | spaces, .digit => some ([.startValue], value)
  | spaces, .other => some ([.startValue], value)
  | value, .carriageReturn => some ([.writeValue], lineReturn)
  | value, .lineFeed => none
  | value, _ => some ([], value)
  | lineReturn, .lineFeed => some ([], top)
  | connectionColon, .blank => some ([.startValue], connectionSpaces)
  | close, .carriageReturn => some ([.writeValue], closeReturn)
  | closeReturn, .lineFeed => some ([], closed)
  | lengthColon, .blank => some ([.startValue], lengthSpaces)
  | lengthSpaces, .digit => some ([.startValue], lengthDigits)
  | lengthDigits, .digit => some ([], lengthDigits)
  | lengthDigits, .carriageReturn => some ([.writeContentLen, .writeValue], lineReturn)
  | _, _ => none

/-- One byte of each kind. -/
def ByteKind.rep : ByteKind → UInt8
  | digit => 48
  | carriageReturn => 13
  | lineFeed => 10
  | blank => 32
  | space => 9
  | other => 33

/-- The classes behind names. -/
def lineClasses : List ByteClass :=
  [ResponseGrammar.digit, .char ' ', .diff any (.char '\n'), .char '\r', .char '\n',
    ResponseGrammar.space, any]

/-- The states, those that start a header line last. -/
def LinePlace.all : List LinePlace :=
  [code, inCode, reason, inReason, statusReturn, colon, spaces, value, lineReturn, close,
    closeReturn, lengthColon, lengthSpaces, lengthDigits, lastReturn, top, closed, connectionColon,
    connectionSpaces]

theorem LinePlace.mem_all (q : LinePlace) : q ∈ LinePlace.all := by
  cases q <;> decide

/-- The states whose threads look at further classes. -/
def LinePlace.isOpen (q : LinePlace) : Bool :=
  decide (q = .top ∨ q = .closed ∨ q = .connectionColon ∨ q = .connectionSpaces)

/-- The check of the classes that the threads of a state look at. -/
def LinePlace.headsOk (q : LinePlace) : Bool :=
  q.isOpen || q.threads.all fun t => t.heads.all (· ∈ lineClasses)

private theorem linePlace_heads : LinePlace.all.all LinePlace.headsOk = true := by
  decide +kernel

/-- The check of one transition. -/
def LinePlace.stepOk (q : LinePlace) (k : ByteKind) : Bool :=
  match q.next k with
  | none => true
  | some (as, q') => decide (step q.threads k.rep = some (as, q'.threads))

/-- The kinds. -/
def ByteKind.all : List ByteKind := [digit, carriageReturn, lineFeed, blank, space, other]

theorem ByteKind.mem_all (k : ByteKind) : k ∈ ByteKind.all := by
  cases k <;> decide

private theorem linePlace_steps :
    LinePlace.all.all (fun q => ByteKind.all.all q.stepOk) = true := by
  decide +kernel

/-- A kind of one byte. -/
def ByteKind.isSingle (k : ByteKind) : Bool :=
  decide (k = .carriageReturn ∨ k = .lineFeed ∨ k = .blank)

/-- A byte has its classes from the representative of its kind. -/
private theorem byteKind_rep : ∀ n < 256,
    (∀ k ∈ lineClasses, k.mem (UInt8.ofNat n) = k.mem (byteKind (UInt8.ofNat n)).rep) ∧
      ((byteKind (UInt8.ofNat n)).isSingle = true →
        (byteKind (UInt8.ofNat n)).rep = UInt8.ofNat n) := by
  decide +kernel

private theorem linePlace_open : ∀ q ∈ LinePlace.all, ∀ k ∈ ByteKind.all,
    q.isOpen = true → (q.next k).isSome = true → k.isSingle = true := by
  decide +kernel

/-- A step depends on the kind of the byte only. -/
theorem LinePlace.step_next {q q' : LinePlace} {c : UInt8} {as : List ResponseAction}
    (hnext : q.next (byteKind c) = some (as, q')) : step q.threads c = some (as, q'.threads) := by
  have hrep := byteKind_rep c.toNat c.toNat_lt
  rw [UInt8.ofNat_toNat] at hrep
  have hstep : step q.threads (byteKind c).rep = some (as, q'.threads) := by
    have hok := List.all_eq_true.mp (List.all_eq_true.mp linePlace_steps q q.mem_all) _
      (byteKind c).mem_all
    rw [LinePlace.stepOk, hnext] at hok
    exact of_decide_eq_true hok
  have hheads := List.all_eq_true.mp linePlace_heads q q.mem_all
  rw [LinePlace.headsOk, Bool.or_eq_true] at hheads
  rcases hheads with hopen | hheads
  · have hsingle := linePlace_open q q.mem_all _ (byteKind c).mem_all hopen (by rw [hnext]; rfl)
    rwa [hrep.2 hsingle] at hstep
  · rw [List.all_eq_true] at hheads
    rwa [step_congr_heads fun t ht k hk =>
      hrep.1 k (of_decide_eq_true (List.all_eq_true.mp (hheads t ht) k hk))]

/-- A part of a text, from one state to another one that its bytes do not leave. -/
theorem LinePlace.takes_next {q q' : LinePlace} {c : UInt8} {xs : Text} {as : List ResponseAction}
    (hfirst : q.next (byteKind c) = some (as, q'))
    (hrest : ∀ d ∈ xs, q'.next (byteKind d) = some ([], q')) :
    takes q.threads (c :: xs) = some (as, q'.threads) :=
  takes_cons (step_next hfirst) (quiet_loop fun d hd => step_next (hrest d hd))

/-! ## Numbers, reasons and values -/

theorem byteKind_of_digit {c : UInt8} (h : digit.mem c = true) : byteKind c = .digit := by
  rw [byteKind, if_pos h]

/-- A number in a state that goes on with digits. -/
theorem LinePlace.takes_number {q q' : LinePlace} {as : List ResponseAction} {ds : Text}
    (hds : isNumber ds = true) (hfirst : q.next .digit = some (as, q'))
    (hrest : q'.next .digit = some ([], q')) : takes q.threads ds = some (as, q'.threads) := by
  cases ds with
  | nil => simp [isNumber] at hds
  | cons d ds =>
      rw [isNumber, List.isEmpty_cons, Bool.not_false, Bool.true_and, List.all_eq_true] at hds
      refine takes_next ?_ ?_
      · rw [byteKind_of_digit (hds d List.mem_cons_self)]
        exact hfirst
      · intro c hc
        rw [byteKind_of_digit (hds c (List.mem_cons_of_mem d hc))]
        exact hrest

/-- A byte of a text is no line end. -/
theorem byteKind_of_text {c : UInt8} (h : isTextByte c = true) :
    byteKind c ≠ .carriageReturn ∧ byteKind c ≠ .lineFeed := by
  have hall : ∀ n < 256, isTextByte (UInt8.ofNat n) = true →
      byteKind (UInt8.ofNat n) ≠ .carriageReturn ∧ byteKind (UInt8.ofNat n) ≠ .lineFeed := by
    decide +kernel
  have hc := hall c.toNat c.toNat_lt
  rw [UInt8.ofNat_toNat] at hc
  exact hc h

/-- A byte of a text does not end the state of a reason or a value. -/
theorem LinePlace.next_text {c : UInt8} (h : isTextByte c = true) :
    reason.next (byteKind c) = some ([.mark], inReason) ∧
      inReason.next (byteKind c) = some ([], inReason) ∧
      value.next (byteKind c) = some ([], value) := by
  rcases byteKind_of_text h with ⟨hreturn, hfeed⟩
  cases hk : byteKind c with
  | carriageReturn => exact absurd hk hreturn
  | lineFeed => exact absurd hk hfeed
  | digit => exact ⟨rfl, rfl, rfl⟩
  | blank => exact ⟨rfl, rfl, rfl⟩
  | space => exact ⟨rfl, rfl, rfl⟩
  | other => exact ⟨rfl, rfl, rfl⟩

/-- A reason is marked at its first byte. -/
theorem takes_reason {s : Text} (hs : isReason s = true) :
    takes LinePlace.reason.threads s = some ([.mark], LinePlace.inReason.threads) := by
  cases s with
  | nil => simp [isReason] at hs
  | cons c s =>
      rw [isReason, List.isEmpty_cons, Bool.not_false, Bool.true_and, List.all_eq_true] at hs
      exact LinePlace.takes_next (LinePlace.next_text (hs c List.mem_cons_self)).1
        fun d hd => (LinePlace.next_text (hs d (List.mem_cons_of_mem c hd))).2.1

/-- The kind of the first byte of a text. -/
private theorem byteKind_first : ∀ n < 256, isTextByte (UInt8.ofNat n) = true →
    space.mem (UInt8.ofNat n) = false →
    byteKind (UInt8.ofNat n) = .digit ∨ byteKind (UInt8.ofNat n) = .other := by
  decide +kernel

/-- A value is marked at its first byte. -/
theorem takes_fieldValue {s : Text} (hs : isValue s = true) :
    takes LinePlace.spaces.threads s = some ([.startValue], LinePlace.value.threads) := by
  cases s with
  | nil => simp [isValue] at hs
  | cons c s =>
      simp only [isValue, List.head?_cons, Option.any_some, Bool.and_eq_true, List.all_eq_true,
        Bool.not_eq_eq_eq_not, Bool.not_true] at hs
      have hkind := byteKind_first c.toNat c.toNat_lt
      rw [UInt8.ofNat_toNat] at hkind
      refine LinePlace.takes_next ?_
        fun d hd => (LinePlace.next_text (hs.1 d (List.mem_cons_of_mem c hd))).2.2
      rcases hkind (hs.1 c List.mem_cons_self) hs.2 with h | h
      · rw [h]
        rfl
      · rw [h]
        rfl

/-! ## Names -/

/-- The names that the grammar knows. -/
inductive Known
  | transferEncoding | connection | contentLength
deriving DecidableEq

namespace Known

/-- The characters of a name. -/
def name : Known → List Char
  | transferEncoding =>
      ['T', 'r', 'a', 'n', 's', 'f', 'e', 'r', '-', 'E', 'n', 'c', 'o', 'd', 'i', 'n', 'g']
  | connection => ['C', 'o', 'n', 'n', 'e', 'c', 't', 'i', 'o', 'n']
  | contentLength => ['C', 'o', 'n', 't', 'e', 'n', 't', '-', 'L', 'e', 'n', 'g', 't', 'h']

/-- What the grammar has behind a name. -/
def behind : Known → E
  | transferEncoding =>
      seq [lit [':'], star (chars space),
        leaving 9 .writeValue (entering 8 .startValue
          (litNoCase ['c', 'h', 'u', 'n', 'k', 'e', 'd'])),
        finishing 10 .transChunked CRLF]
  | connection => seq [lit [':'], star (chars space), closeRest]
  | contentLength => seq [lit [':'], star (chars space), lengthRest]

/-- The thread for a name of which some characters are left. -/
def thread (k : Known) (left : List Char) : E :=
  match k with
  | transferEncoding => inLine (cat (leaving 7 .writeField (litNoCase left)) k.behind)
  | connection => inLine (andThen (litNoCase left) k.behind)
  | contentLength => inLine (cat (leaving 13 .writeField (litNoCase left)) k.behind)

end Known

/-- What is left of a name behind a text that agrees with its start. -/
def strip : List Char → Text → Option (List Char)
  | name, [] => some name
  | [], _ :: _ => none
  | x :: name, c :: s =>
      if (ByteClass.oneOf [x.toLower, x.toUpper]).mem c then strip name s else none

/-- The names that the grammar knows. -/
def Known.all : List Known := [.transferEncoding, .connection, .contentLength]

/-- The thread for the name of any field. -/
def nameThread : E :=
  inField (cat (leaving 18 .writeField (star (chars token)))
    (seq [lit [':'], star (chars space), fieldValue]))

/-- The threads for those of some names that agree with a text. -/
def knownThreads (ks : List Known) (s : Text) : List E :=
  ks.filterMap fun k => (strip k.name s).map k.thread

/-- The threads behind a part of a name. -/
def inName (s : Text) : List E := knownThreads Known.all s ++ [nameThread]

/-! ## Steps inside of a name -/

section

variable {c : UInt8} {s name : Text} {x : Char} {xs left : List Char}

/-- A move inside of a header line. -/
theorem moves_inLine {a b : E} {prios : List (Nat × Nat)} (ha : a.nullable = false) (hb : b ≠ eps)
    (hmoves : a.moves c = [⟨[], prios, b⟩]) : (inLine a).moves c = [⟨[], prios, inLine b⟩] := by
  have hrest : CRLF.nullable = false := rfl
  simp only [inLine, moves, ha, hmoves, nullable]
  cases b with
  | eps => exact absurd rfl hb
  | _ => simp [Move.mapNext, Move.addFinish, andThen, wrap, nullable, hrest]

theorem moves_inLine_nil {a : E} (ha : a.nullable = false) (hmoves : a.moves c = []) :
    (inLine a).moves c = [] := by
  simp [inLine, moves, ha, hmoves, nullable]

/-- A literal moves on its first character in either case. -/
theorem moves_litNoCase (x : Char) (xs : List Char) (c : UInt8) :
    (litNoCase (x :: xs) : E).moves c =
      if (ByteClass.oneOf [x.toLower, x.toUpper]).mem c then [⟨[], [], litNoCase xs⟩] else [] := by
  simp only [litNoCase, moves, nullable]
  split <;> simp [Move.mapNext, andThen]

/-- The threads of names whose length is written. -/
theorem moves_written (n : Nat) (b : E) :
    (inLine (cat (leaving n .writeField (litNoCase (x :: xs))) b)).moves c =
      if (ByteClass.oneOf [x.toLower, x.toUpper]).mem c then
        [⟨[], [], inLine (cat (leaving n .writeField (litNoCase xs)) b)⟩] else [] := by
  have hlit := moves_litNoCase x xs c
  have hnull : (litNoCase (x :: xs) : E).nullable = false := rfl
  by_cases hmem : (ByteClass.oneOf [x.toLower, x.toUpper]).mem c = true
  · rw [if_pos hmem] at hlit ⊢
    apply moves_inLine
    · simp [nullable, hnull]
    · simp
    · simp [moves, nullable, hnull, hlit, Move.mapNext, andThen]
  · rw [if_neg hmem] at hlit ⊢
    apply moves_inLine_nil
    · simp [nullable, hnull]
    · simp [moves, nullable, hnull, hlit]

/-- The thread of a name whose length is not. -/
theorem moves_unwritten (a b : E) :
    (inLine (andThen (litNoCase (x :: xs)) (cat a b))).moves c =
      if (ByteClass.oneOf [x.toLower, x.toUpper]).mem c then
        [⟨[], [], inLine (andThen (litNoCase xs) (cat a b))⟩] else [] := by
  have hlit := moves_litNoCase x xs c
  have hnull : (litNoCase (x :: xs) : E).nullable = false := rfl
  have hcons : andThen (litNoCase (x :: xs)) (cat a b) = cat (litNoCase (x :: xs)) (cat a b) := rfl
  by_cases hmem : (ByteClass.oneOf [x.toLower, x.toUpper]).mem c = true
  · rw [if_pos hmem] at hlit ⊢
    apply moves_inLine
    · simp [nullable, hnull, hcons]
    · cases xs <;> simp [litNoCase, andThen]
    · simp [moves, hnull, hlit, hcons, Move.mapNext]
  · rw [if_neg hmem] at hlit ⊢
    apply moves_inLine_nil
    · simp [nullable, hnull, hcons]
    · simp [moves, hnull, hlit, hcons]

/-- The thread of a name goes on with its next character only. -/
theorem Known.moves_cons (k : Known) (x : Char) (xs : List Char) (c : UInt8) :
    (k.thread (x :: xs)).moves c =
      if (ByteClass.oneOf [x.toLower, x.toUpper]).mem c then [⟨[], [], k.thread xs⟩] else [] := by
  cases k with
  | transferEncoding => exact moves_written 7 _
  | connection => exact moves_unwritten _ _
  | contentLength => exact moves_written 13 _

/-- Behind the whole name it goes on with a colon only. -/
theorem Known.moves_nil (k : Known) (hc : (ByteClass.char ':').mem c = false) :
    (k.thread []).moves c = [] := by
  cases k with
  | transferEncoding =>
      exact moves_inLine_nil rfl (by simp [behind, moves, litNoCase, seq, lit, hc, nullable])
  | connection =>
      exact moves_inLine_nil rfl
        (by simp [behind, moves, litNoCase, andThen, seq, lit, hc, nullable])
  | contentLength =>
      exact moves_inLine_nil rfl (by simp [behind, moves, litNoCase, seq, lit, hc, nullable])

/-- The colon is no byte of a token. -/
theorem not_colon_of_token (hc : token.mem c = true) : (ByteClass.char ':').mem c = false := by
  have hall : ∀ n < 256, token.mem (UInt8.ofNat n) = true →
      (ByteClass.char ':').mem (UInt8.ofNat n) = false := by
    decide +kernel
  have h := hall c.toNat c.toNat_lt
  rw [UInt8.ofNat_toNat] at h
  exact h hc

/-- The thread of a name goes on at a byte of a token. -/
theorem moves_nameThread (hc : token.mem c = true) :
    nameThread.moves c = [⟨[], [(1, 0)], nameThread⟩] := by
  have hcolon := not_colon_of_token hc
  apply moves_inLine
  · rfl
  · simp
  · simp [moves, hc, lit, nullable, seq, Move.mapNext, andThen, hcolon, wrap, Move.addPrio]

/-- One more byte of a name. -/
theorem strip_concat (name : List Char) (s : Text) (c : UInt8) :
    strip name (s ++ [c]) = (strip name s).bind fun left => strip left [c] := by
  induction s generalizing name with
  | nil => cases name <;> rfl
  | cons d s ih =>
      cases name with
      | nil => rfl
      | cons x name =>
          rw [List.cons_append, strip, strip]
          split
          · exact ih name
          · rfl

theorem strip_nil (xs : List Char) : strip xs [] = some xs := by
  cases xs <;> rfl

/-- What is left of a name is a part of it. -/
theorem mem_of_strip (h : strip xs s = some left) (hx : x ∈ left) : x ∈ xs := by
  induction s generalizing xs with
  | nil =>
      rw [strip_nil, Option.some.injEq] at h
      rwa [h]
  | cons d s ih =>
      cases xs with
      | nil => simp [strip] at h
      | cons y xs =>
          rw [strip] at h
          split at h
          · exact List.mem_cons_of_mem y (ih h)
          · simp at h

/-- The threads of the known names go on without actions. -/
theorem moves_known (hc : token.mem c = true) (s : Text) (ks : List Known) :
    (knownThreads ks s).flatMap (moves c) =
      (knownThreads ks (s ++ [c])).map fun t => ⟨[], [], t⟩ := by
  induction ks with
  | nil => rfl
  | cons k ks ih =>
      rw [knownThreads] at ih ⊢
      rw [knownThreads] at ih ⊢
      rw [List.filterMap_cons, List.filterMap_cons, strip_concat]
      cases hstrip : strip k.name s with
      | none => simpa using ih
      | some left =>
          cases left with
          | nil => simpa [strip, Known.moves_nil k (not_colon_of_token hc)] using ih
          | cons x xs =>
              simp only [Option.map_some, Option.bind_some, List.flatMap_cons, Known.moves_cons,
                strip, ih]
              split <;> simp

/-- Threads of different known names differ. -/
theorem Known.thread_injective {k k' : Known} {left left' : List Char}
    (h : k.thread left = k'.thread left') : k = k' := by
  have hmixed : ∀ (l l' : List Char) (n : Nat) (b : E),
      andThen (litNoCase l) Known.connection.behind ≠
        cat (leaving n .writeField (litNoCase l')) b := by
    intro l l' n b
    cases l <;> simp [litNoCase, andThen, Known.behind, seq, lit]
  cases k <;> cases k' <;> simp [Known.thread, inLine, hmixed, (hmixed _ _ _ _).symm] at h ⊢

/-- The thread of a known name is not that of a name. -/
theorem Known.thread_ne_nameThread (k : Known) (left : List Char) : k.thread left ≠ nameThread := by
  cases k with
  | transferEncoding => simp [Known.thread, nameThread, inField, inLine]
  | connection =>
      cases left <;>
        simp [Known.thread, nameThread, inField, inLine, litNoCase, andThen, Known.behind, seq, lit]
  | contentLength => simp [Known.thread, nameThread, inField, inLine]

/-- The threads inside a name are different. -/
theorem nodup_inName (s : Text) : (inName s).Nodup := by
  rw [inName, List.nodup_append]
  refine ⟨?_, List.nodup_singleton _, ?_⟩
  · apply List.Nodup.filterMap _ (by decide)
    intro k k' t ht ht'
    rcases Option.map_eq_some_iff.mp ht with ⟨left, -, rfl⟩
    rcases Option.map_eq_some_iff.mp ht' with ⟨left', -, h⟩
    exact (Known.thread_injective h).symm
  · intro t ht t' ht'
    rw [List.mem_singleton.mp ht']
    rcases List.mem_filterMap.mp ht with ⟨k, -, hk⟩
    rcases Option.map_eq_some_iff.mp hk with ⟨left, -, rfl⟩
    exact k.thread_ne_nameThread left

/-- The moves on a byte of a name. -/
def nameMoves (s : Text) : List (Move ResponseAction) :=
  ((knownThreads Known.all s).map fun t => ⟨[], [], t⟩) ++ [⟨[], [(1, 0)], nameThread⟩]

theorem nameMoves_next (s : Text) : (nameMoves s).map Move.next = inName s := by
  simp [nameMoves, inName, Function.comp_def]

/-- The moves inside a name have no action and at most the priority of a name. -/
theorem nameMoves_plain {m : Move ResponseAction} (h : m ∈ nameMoves s) :
    m.acts = [] ∧ (m.prios = [] ∨ m.prios = [(1, 0)]) := by
  rcases List.mem_append.mp h with h | h
  · rcases List.mem_map.mp h with ⟨t, -, rfl⟩
    exact ⟨rfl, .inl rfl⟩
  · rw [List.mem_singleton.mp h]
    exact ⟨rfl, .inr rfl⟩

/-- A byte of a name keeps the alternatives that agree with it. -/
theorem step_inName (hc : token.mem c = true) (s : Text) :
    step (inName s) c = some ([], inName (s ++ [c])) := by
  have hmoves : (inName s).flatMap (moves c) = nameMoves (s ++ [c]) := by
    rw [inName, List.flatMap_append, moves_known hc, List.flatMap_cons, moves_nameThread hc]
    rfl
  rw [← nameMoves_next (s ++ [c])]
  apply step_quiet hmoves
  · simp [nameMoves]
  · intro m hm
    exact (nameMoves_plain hm).1
  · intro m hm m' hm'
    rcases (nameMoves_plain hm).2 with h | h <;> rcases (nameMoves_plain hm').2 with h' | h' <;>
      simp [Move.outrankedBy, h, h']
  · rw [nameMoves_next]
    exact nodup_inName _

/-- The check of the first byte of a header line. -/
def topOk (c : UInt8) : Bool :=
  decide (step LinePlace.top.threads c = some ([.startField], inName [c]))

private theorem top_token : ∀ n < 256, token.mem (UInt8.ofNat n) = true →
    topOk (UInt8.ofNat n) = true := by
  decide +kernel

/-- A name is read without an action. -/
theorem quiet_inName (s : Text) {rest : Text} (h : ∀ c ∈ rest, token.mem c = true) :
    quiet (inName s) rest = some (inName (s ++ rest)) := by
  induction rest generalizing s with
  | nil => rw [List.append_nil, quiet]
  | cons c rest ih =>
      rw [quiet_cons (step_inName (h c List.mem_cons_self) s),
        ih (s ++ [c]) fun d hd => h d (List.mem_cons_of_mem c hd), List.append_assoc]
      rfl

/-- A name from a state that its first byte starts. -/
theorem takes_fieldName {t : List E} {as : List ResponseAction} (hname : isName name = true)
    (hfirst : ∀ d ∈ name.head?, step t d = some (as, inName [d])) :
    takes t name = some (as, inName name) := by
  cases name with
  | nil => simp [isName] at hname
  | cons d name =>
      rw [isName, List.isEmpty_cons, Bool.not_false, Bool.true_and, List.all_eq_true] at hname
      exact takes_cons (hfirst d rfl)
        (quiet_inName [d] fun c hc => hname c (List.mem_cons_of_mem d hc))

/-- The first byte of a name starts a field. -/
theorem step_top (hc : token.mem c = true) :
    step LinePlace.top.threads c = some ([.startField], inName [c]) := by
  have h := top_token c.toNat c.toNat_lt
  rw [UInt8.ofNat_toNat] at h
  exact of_decide_eq_true (h hc)

/-! ## The end of a name -/

/-- Equal up to case to a name that the grammar knows. -/
def isKnown (name : Text) : Bool :=
  Known.all.any fun k => decide (caseKey name = caseKey (text k.name))

theorem Known.mem_all (k : Known) : k ∈ Known.all := by
  cases k <;> decide

/-- The check of a character of a name: it is no colon, and a byte that agrees with it is the
character up to case. -/
def charOk (x : Char) : Bool :=
  !(ByteClass.oneOf [x.toLower, x.toUpper]).mem 58 && byte x != 0 &&
    [byte x.toLower, byte x.toUpper].all fun c =>
      c != 0 && decide (caseKey [c] = caseKey [byte x])

private theorem known_charsOk : Known.all.all (fun k => k.name.all charOk) = true := by
  decide +kernel

/-- A character of a known name stands for its two cases. -/
theorem Known.char_spec (k : Known) (hx : x ∈ k.name) :
    (ByteClass.oneOf [x.toLower, x.toUpper]).mem 58 = false ∧ byte x ≠ 0 ∧
      ∀ c ∈ [byte x.toLower, byte x.toUpper], c ≠ 0 ∧ caseKey [c] = caseKey [byte x] := by
  have hok := List.all_eq_true.mp (List.all_eq_true.mp known_charsOk k k.mem_all) x hx
  simp only [charOk, Bool.and_eq_true, Bool.not_eq_eq_eq_not, Bool.not_true, bne_iff_ne,
    List.all_eq_true, decide_eq_true_eq] at hok
  exact ⟨hok.1.1, hok.1.2, hok.2⟩

theorem eq_byte_of_mem {y : Char} (h : (ByteClass.char y).mem c = true) : c = byte y := by
  rw [ByteClass.char, ByteClass.mem, Bool.and_eq_true, decide_eq_true_eq, decide_eq_true_eq] at h
  rw [byte, Nat.le_antisymm h.1 h.2, UInt8.ofNat_toNat]

/-- A class of two characters has two bytes. -/
theorem mem_of_oneOf {y : Char} (h : (ByteClass.oneOf [x, y]).mem c = true) :
    c ∈ [byte x, byte y] := by
  simp only [ByteClass.oneOf, ByteClass.mem, Bool.or_eq_true] at h
  rcases h with h | h | h
  · rw [eq_byte_of_mem h]
    exact List.mem_cons_self
  · rw [eq_byte_of_mem h]
    exact List.mem_cons_of_mem _ List.mem_cons_self
  · simp only [Bool.and_eq_true, decide_eq_true_eq] at h
    omega

theorem caseKey_cons (hc : c ≠ 0) (s : Text) : caseKey (c :: s) = caseKey [c] ++ caseKey s := by
  simp [caseKey, hc]

/-- A text that agrees with a whole name is that name up to case. -/
theorem caseKey_of_strip (k : Known) (hsub : ∀ y ∈ xs, y ∈ k.name) (h : strip xs s = some []) :
    caseKey s = caseKey (text xs) := by
  induction s generalizing xs with
  | nil =>
      rw [strip_nil, Option.some.injEq] at h
      rw [h]
      rfl
  | cons d s ih =>
      cases xs with
      | nil => simp [strip] at h
      | cons y xs =>
          rw [strip] at h
          split at h
          next hmem =>
            rcases (k.char_spec (hsub y List.mem_cons_self)).2 with ⟨hne, hcases⟩
            rcases hcases d (mem_of_oneOf hmem) with ⟨hd, hkey⟩
            have htail := ih (fun z hz => hsub z (List.mem_cons_of_mem y hz)) h
            rw [caseKey_cons hd, hkey, htail]
            exact (caseKey_cons hne (text xs)).symm
          next => simp at h

/-- No known name is read to its end in an unknown one. -/
theorem strip_ne_of_unknown (hname : isKnown name = false) (k : Known) :
    strip k.name name ≠ some [] := by
  intro h
  have hkey := caseKey_of_strip k (fun y hy => hy) h
  exact absurd (decide_eq_true hkey) (List.any_eq_false.mp hname k k.mem_all)

/-- The threads of the known names end at a colon that comes too early. -/
theorem moves_known_colon (hname : isKnown name = false) (ks : List Known) :
    (knownThreads ks name).flatMap (moves 58) = [] := by
  rw [List.flatMap_eq_nil_iff]
  intro t ht
  rcases List.mem_filterMap.mp ht with ⟨k, -, hk⟩
  rcases Option.map_eq_some_iff.mp hk with ⟨left, hstrip, rfl⟩
  cases left with
  | nil => exact absurd hstrip (strip_ne_of_unknown hname k)
  | cons y ys =>
      have hy := k.char_spec (mem_of_strip hstrip List.mem_cons_self)
      rw [Known.moves_cons, hy.1]
      rfl

private theorem step_nameThread_colon :
    step [nameThread] 58 = some ([.writeField], LinePlace.colon.threads) := by
  decide +kernel

/-- A colon behind a name that the grammar does not know. -/
theorem step_inName_colon (hname : isKnown name = false) :
    step (inName name) 58 = some ([.writeField], LinePlace.colon.threads) := by
  rw [← step_nameThread_colon]
  apply step_congr_moves
  rw [inName, List.flatMap_append, moves_known_colon hname, List.nil_append]

end

/-! ## Header lines -/

/-- The actions that start a header line, behind a line that may have closed the connection. -/
def lineStart (close : Bool) : List ResponseAction :=
  if close then [.writeConnectionClose, .startField] else [.startField]

/-- The actions behind a value, which may be a length. -/
def lineEnd (counted : Bool) : List ResponseAction :=
  if counted then [.writeContentLen, .writeValue] else [.writeValue]

/-- A header line takes the machine from one state to another one. -/
def TakesLine (t : List E) (close : Bool) (name value : Text) (counted : Bool) (t' : List E) :
    Prop :=
  ∃ t₁ t₂ t₃ t₄ t₅, takes t name = some (lineStart close, t₁) ∧
    takes t₁ [58] = some ([.writeField], t₂) ∧ takes t₂ [32] = some ([.startValue], t₃) ∧
    takes t₃ value = some ([.startValue], t₄) ∧ takes t₄ [13] = some (lineEnd counted, t₅) ∧
    takes t₅ [10] = some ([], t')

/-- The line of a field that the grammar does not know. -/
theorem plain_line {name value : Text} (hname : isName name = true)
    (hunknown : isKnown name = false) (hvalue : isValue value = true) :
    TakesLine LinePlace.top.threads false name value false LinePlace.top.threads := by
  have htoken : ∀ d ∈ name.head?, token.mem d = true := by
    intro d hd
    rw [isName, Bool.and_eq_true, List.all_eq_true] at hname
    exact hname.2 d (List.mem_of_mem_head? hd)
  exact ⟨_, _, _, _, _, takes_fieldName hname fun d hd => step_top (htoken d hd),
    takes_single (step_inName_colon hunknown), takes_single (LinePlace.step_next rfl),
    takes_fieldValue hvalue, takes_single (LinePlace.step_next rfl),
    takes_single (LinePlace.step_next rfl)⟩

/-- `"connection"` -/
def connectionText : Text := text ['c', 'o', 'n', 'n', 'e', 'c', 't', 'i', 'o', 'n']

/-- The state behind the line of the connection. -/
def LinePlace.afterConnection (close : Bool) : LinePlace := if close then closed else top

/-- The steps of the header lines that the machine knows, one by one. -/
private theorem known_steps :
    step (inName connectionText) 58 = some ([.writeField], LinePlace.connectionColon.threads) ∧
    takes LinePlace.connectionSpaces.threads (text ['c', 'l', 'o', 's', 'e']) =
      some ([.startValue], LinePlace.close.threads) ∧
    step LinePlace.connectionSpaces.threads 107 = some ([.startValue], LinePlace.value.threads) ∧
    step LinePlace.closed.threads 99 = some ([.writeConnectionClose, .startField], inName [99]) ∧
    step (inName contentLengthName) 58 = some ([.writeField], LinePlace.lengthColon.threads) ∧
    step LinePlace.lastReturn.threads 10 = some ([.done], [.eps]) := by
  decide +kernel

/-- The line of the connection. -/
theorem connection_line (close : Bool) :
    TakesLine LinePlace.top.threads false connectionText (connectionValue close) false
      (LinePlace.afterConnection close).threads := by
  have hname : takes LinePlace.top.threads connectionText =
      some ([.startField], inName connectionText) :=
    takes_fieldName (by decide) fun d hd => step_top (by
      rw [← Option.some.inj hd]
      decide)
  refine ⟨inName connectionText, LinePlace.connectionColon.threads,
    LinePlace.connectionSpaces.threads, ?_⟩
  cases close with
  | true =>
      exact ⟨_, _, hname, takes_single known_steps.1, takes_single (LinePlace.step_next rfl),
        known_steps.2.1, takes_single (LinePlace.step_next rfl),
        takes_single (LinePlace.step_next rfl)⟩
  | false =>
      have hvalue : (text ['e', 'e', 'p', '-', 'a', 'l', 'i', 'v', 'e']).all isTextByte = true := by
        decide
      rw [List.all_eq_true] at hvalue
      exact ⟨_, _, hname, takes_single known_steps.1, takes_single (LinePlace.step_next rfl),
        takes_cons known_steps.2.2.1
          (quiet_loop fun d hd => LinePlace.step_next (LinePlace.next_text (hvalue d hd)).2.2),
        takes_single (LinePlace.step_next rfl), takes_single (LinePlace.step_next rfl)⟩

/-- The line of the length, behind the line of the connection. -/
theorem length_line (close : Bool) {ds : Text} (hds : isNumber ds = true) :
    TakesLine (LinePlace.afterConnection close).threads close contentLengthName ds true
      LinePlace.top.threads := by
  have hname : takes (LinePlace.afterConnection close).threads contentLengthName =
      some (lineStart close, inName contentLengthName) := by
    apply takes_fieldName (by decide)
    intro d hd
    rw [← Option.some.inj hd]
    cases close with
    | true => exact known_steps.2.2.2.1
    | false => exact step_top (by decide)
  exact ⟨_, _, _, _, _, hname, takes_single known_steps.2.2.2.2.1,
    takes_single (LinePlace.step_next rfl), LinePlace.takes_number hds rfl rfl,
    takes_single (LinePlace.step_next rfl), takes_single (LinePlace.step_next rfl)⟩

theorem step_lastReturn : step LinePlace.lastReturn.threads 10 = some ([.done], [.eps]) :=
  known_steps.2.2.2.2.2

/-! ## The version -/

/-- The state behind a version. -/
def versionDone : List E :=
  [inStatus (cat (leaving 1 .httpVersion (star (chars digit)))
    (seq [lit [' '], StatusCode, lit [' '], ReasonPhrase]))]

/-- The two versions, byte by byte. -/
private theorem takes_versions :
    takes (start main) (printVersion 0x10) = some ([.mark], versionDone) ∧
    takes (start main) (printVersion 0x11) = some ([.mark], versionDone) ∧
    step versionDone 32 = some ([.httpVersion], LinePlace.code.threads) := by
  decide +kernel

/-- A version is marked at its first byte. -/
theorem takes_httpVersion {version : Nat} (h : version = 0x10 ∨ version = 0x11) :
    takes (start main) (printVersion version) = some ([.mark], versionDone) := by
  rcases h with rfl | rfl
  · exact takes_versions.1
  · exact takes_versions.2.1

theorem step_versionDone : step versionDone 32 = some ([.httpVersion], LinePlace.code.threads) :=
  takes_versions.2.2

end ResponseGrammar

end Http
end Tiger
