import Tiger.Http.RequestMachine
import Tiger.Http.Message
import Tiger.Lib.Trace

/-!
# HTTP - the parts of a request text

How the machine of `http_request_parser.rl` takes the parts of a request: the method, the
parts of the target, the version, and the names and values of header fields.  Each part has
its actions on the first byte, and the byte behind it has those that leave it.  The
alternatives for a target are told apart behind its first slash; the blank behind a colon
may belong to the value or not, and the value starts at the first byte that is no blank.

Main results:

- Theorem `takes_method`: the methods.
- Theorems `takes_path`, `takes_query`, `takes_fragment`: the parts of the target.
- Theorems `takes_name`, `takes_value`: the parts of a header line.
-/

namespace Tiger
namespace Http

open Lib.Ragel Lib.Ragel.Expr RequestGrammar

/-! ## Strings of the grammar -/

/-- Bytes of `pchar` that stand for themselves, without the relaxed delimiters. -/
def isPchar (c : UInt8) : Bool :=
  unreserved.mem c || (subDelims false).mem c || c == 58 || c == 64

/-- A sequence of `pchar` and of further bytes. -/
def isPchars (more : UInt8 → Bool) : Text → Bool
  | [] => true
  | 37 :: a :: b :: rest => xdigit.mem a && xdigit.mem b && isPchars more rest
  | c :: rest => (isPchar c || more c) && isPchars more rest

/-- The further bytes of paths. -/
def isSlash (c : UInt8) : Bool := c == 47

/-- The further bytes of queries and fragments. -/
def isSlashOrQuestion (c : UInt8) : Bool := c == 47 || c == 63

/-- `path_absolute`: a slash, and behind it segments of which the first is not empty. -/
def isPathAbsolute : Text → Bool
  | 47 :: rest => decide (rest.head? ≠ some 47) && isPchars isSlash rest
  | _ => false

/-- `query` and `fragment` -/
def isQuery (s : Text) : Bool := isPchars isSlashOrQuestion s

/-- `field_name` -/
def isFieldName (s : Text) : Bool := !s.isEmpty && s.all token.mem

/-- The text reads as the empty line behind the header. -/
def isLineStart : Text → Bool
  | 10 :: _ => true
  | 13 :: 10 :: _ => true
  | _ => false

/-- A byte of a value: no CR, LF, NUL or DEL. -/
def isValueByte (c : UInt8) : Bool := decide (c ≠ 10 ∧ c ≠ 13 ∧ c ≠ 0 ∧ c ≠ 127)

/-- The byte is a blank. -/
def isBlank (c : UInt8) : Bool := decide (c = 9 ∨ c = 32)

/-- A value that is not empty and does not start with a blank. -/
def isFieldValue (s : Text) : Bool :=
  s.all isValueByte && s.head?.any fun c => !isBlank c

/-! ## The request line -/

/-- The states of the machine in the target of a request. -/
inductive LineState
  /-- behind the method -/
  | target
  /-- behind the first slash -/
  | slash
  /-- in the path -/
  | path
  /-- behind a percent sign in the path -/
  | pathPercent
  /-- behind the first digit -/
  | pathDigit
  /-- behind the question mark -/
  | question
  /-- in the query -/
  | query
  | queryPercent
  | queryDigit
  /-- behind the number sign -/
  | hash
  /-- in the fragment -/
  | fragment
  | fragmentPercent
  | fragmentDigit
  /-- in front of the version -/
  | version
deriving DecidableEq

namespace LineState

/-- A part of the target, and what follows it. -/
def inUri (x : E) : E :=
  finishing 29 .done (cat (cat x (seq [lit [' '], HTTPVersion, CRLF])) headerRest)

/-- A part of the target in front of the fragment. -/
def inTarget (r : Bool) (x : E) : E :=
  inUri (cat (leaving 13 .requestUri x) (opt (seq [lit ['#'], RequestGrammar.fragment 14 r])))

/-- A part of the path. -/
def inPath (r : Bool) (x : E) : E :=
  inTarget r (cat (leaving 10 .requestPath x)
    (opt (seq [leaving 11 .startQuery (lit ['?']), RequestGrammar.query 12 r])))

/-- The repeated part of queries and fragments. -/
def qchars (r : Bool) : E := star (choice [pchar r, lit ['/'], lit ['?']])

/-- A part of the query. -/
def inQuery (r : Bool) (x : E) : E := inTarget r (leaving 12 .queryString x)

/-- A part of the fragment. -/
def inFragment (x : E) : E := inUri (leaving 15 .fragment x)

/-- The threads of the machine in a state. -/
def threads (r : Bool) : LineState → List E
  | target => [inUri (URIReference r)]
  | slash =>
      [inPath r (cat (lit ['/']) (cat (authority r) (pathAbempty r))),
        inPath r (alt (cat (segmentNz r) (pathAbempty r)) eps)]
  | path => [inPath r (cat (segment r) (pathAbempty r))]
  | pathPercent =>
      [inPath r (cat (cat (cat (chars xdigit) (chars xdigit)) (segment r)) (pathAbempty r))]
  | pathDigit => [inPath r (cat (cat (chars xdigit) (segment r)) (pathAbempty r))]
  | question => [inTarget r (cat (leaving 11 .startQuery eps) (RequestGrammar.query 12 r))]
  | query => [inQuery r (qchars r)]
  | queryPercent => [inQuery r (cat (cat (chars xdigit) (chars xdigit)) (qchars r))]
  | queryDigit => [inQuery r (cat (chars xdigit) (qchars r))]
  | hash => [inUri (RequestGrammar.fragment 14 r)]
  | fragment => [inFragment (qchars r)]
  | fragmentPercent => [inFragment (cat (cat (chars xdigit) (chars xdigit)) (qchars r))]
  | fragmentDigit => [inFragment (cat (chars xdigit) (qchars r))]
  | version => [finishing 29 .done (cat (seq [HTTPVersion, CRLF]) headerRest)]

end LineState

/-- The kinds of bytes in a target. -/
inductive UriKind
  | hex | plain | percent | slash | question | hash | blank | other
deriving DecidableEq

/-- The kind of a byte. -/
def uriKind (c : UInt8) : UriKind :=
  if xdigit.mem c then .hex
  else if isPchar c then .plain
  else if c = 37 then .percent
  else if c = 47 then .slash
  else if c = 63 then .question
  else if c = 35 then .hash
  else if c = 32 then .blank
  else .other

namespace LineState

/-- What the machine does in a state on a byte of a kind, as far as texts need it. -/
def next : LineState → UriKind → Option (List RequestAction × LineState)
  | target, .slash => some ([.mark], slash)
  | slash, .hex => some ([], path)
  | slash, .plain => some ([], path)
  | slash, .percent => some ([], pathPercent)
  | path, .hex => some ([], path)
  | path, .plain => some ([], path)
  | path, .slash => some ([], path)
  | path, .percent => some ([], pathPercent)
  | pathPercent, .hex => some ([], pathDigit)
  | pathDigit, .hex => some ([], path)
  | question, .hex => some ([.startQuery], query)
  | question, .plain => some ([.startQuery], query)
  | question, .slash => some ([.startQuery], query)
  | question, .question => some ([.startQuery], query)
  | question, .percent => some ([.startQuery], queryPercent)
  | query, .hex => some ([], query)
  | query, .plain => some ([], query)
  | query, .slash => some ([], query)
  | query, .question => some ([], query)
  | query, .percent => some ([], queryPercent)
  | queryPercent, .hex => some ([], queryDigit)
  | queryDigit, .hex => some ([], query)
  | hash, .hex => some ([.mark], fragment)
  | hash, .plain => some ([.mark], fragment)
  | hash, .slash => some ([.mark], fragment)
  | hash, .question => some ([.mark], fragment)
  | hash, .percent => some ([.mark], fragmentPercent)
  | fragment, .hex => some ([], fragment)
  | fragment, .plain => some ([], fragment)
  | fragment, .slash => some ([], fragment)
  | fragment, .question => some ([], fragment)
  | fragment, .percent => some ([], fragmentPercent)
  | fragmentPercent, .hex => some ([], fragmentDigit)
  | fragmentDigit, .hex => some ([], fragment)
  | target, .question => some ([.mark, .requestPath], question)
  | slash, .question => some ([.requestPath], question)
  | path, .question => some ([.requestPath], question)
  | target, .hash => some ([.mark, .requestPath, .requestUri], hash)
  | slash, .hash => some ([.requestPath, .requestUri], hash)
  | path, .hash => some ([.requestPath, .requestUri], hash)
  | query, .hash => some ([.queryString, .requestUri], hash)
  | target, .blank => some ([.mark, .requestPath, .requestUri], version)
  | slash, .blank => some ([.requestPath, .requestUri], version)
  | path, .blank => some ([.requestPath, .requestUri], version)
  | query, .blank => some ([.queryString, .requestUri], version)
  | fragment, .blank => some ([.fragment], version)
  | _, _ => none

end LineState

/-- One byte of each kind that the classes of targets tell apart. -/
def uriRep (c : UInt8) : UInt8 :=
  if xdigit.mem c then 97
  else if unreserved.mem c then 103
  else if (subDelims false).mem c then 33
  else c

/-- The classes of targets behind their first byte. -/
def lineHeads (r : Bool) : List ByteClass :=
  [unreserved, .char '%', subDelims r, .char ':', .char '@', .char '/', .char '?', .char '#',
    .char ' ', xdigit]

/-- A byte has its kind and its classes from its representative. -/
private theorem uriRep_table : ∀ n < 256, uriRep (UInt8.ofNat n) = UInt8.ofNat n ∨
    uriKind (uriRep (UInt8.ofNat n)) = uriKind (UInt8.ofNat n) ∧ ∀ r, ∀ k ∈ lineHeads r,
      k.mem (UInt8.ofNat n) = k.mem (uriRep (UInt8.ofNat n)) := by
  decide +kernel

/-- A byte is of the kind of the one that stands for it. -/
theorem uriRep_same (r : Bool) (c : UInt8) :
    uriKind (uriRep c) = uriKind c ∧ ∀ k ∈ lineHeads r, k.mem c = k.mem (uriRep c) := by
  have htable := uriRep_table c.toNat c.toNat_lt
  rw [UInt8.ofNat_toNat] at htable
  rcases htable with hself | ⟨hkind, hmem⟩
  · rw [hself]
    exact ⟨rfl, fun _ _ => rfl⟩
  · exact ⟨hkind, hmem r⟩

/-- The bytes that stand for their kinds. -/
def uriReps : List UInt8 := [97, 103, 33, 58, 64, 37, 47, 63, 35, 32]

private theorem uriRep_cases : ∀ n < 256,
    uriKind (UInt8.ofNat n) = .other ∨ uriRep (UInt8.ofNat n) ∈ uriReps := by
  decide +kernel

/-- The states. -/
def LineState.all : List LineState :=
  [target, slash, path, pathPercent, pathDigit, question, query, queryPercent, queryDigit, hash,
    fragment, fragmentPercent, fragmentDigit, version]

theorem LineState.mem_all (q : LineState) : q ∈ LineState.all := by
  cases q <;> decide

/-- The check of the classes that the threads of a state look at. -/
def LineState.headsOk (r : Bool) (q : LineState) : Bool :=
  decide (q = .target ∨ q = .version) || (q.threads r).all fun t => t.heads.all (· ∈ lineHeads r)

private theorem lineState_heads (r : Bool) : LineState.all.all (LineState.headsOk r) = true := by
  cases r <;> decide +kernel

/-- The check of one transition. -/
def LineState.stepOk (r : Bool) (q : LineState) (c : UInt8) : Bool :=
  match q.next (uriKind c) with
  | none => true
  | some (as, q') => decide (step (q.threads r) c = some (as, q'.threads r))

private theorem lineState_reps (r : Bool) :
    LineState.all.all (fun q => uriReps.all (q.stepOk r)) = true := by
  cases r <;> decide +kernel

/-- Behind the first byte of the target, a step depends on the kind of the byte only. -/
theorem LineState.step_next (r : Bool) {q q' : LineState} {c : UInt8} {as : List RequestAction}
    (hnext : q.next (uriKind c) = some (as, q')) (hself : q = .target → uriRep c = c) :
    step (q.threads r) c = some (as, q'.threads r) := by
  obtain ⟨hkind, hmem⟩ := uriRep_same r c
  have hcases := uriRep_cases c.toNat c.toNat_lt
  rw [UInt8.ofNat_toNat] at hcases
  have hother : uriKind c ≠ .other := by
    intro hother
    rw [hother] at hnext
    cases q <;> cases hnext
  have hrep : step (q.threads r) (uriRep c) = some (as, q'.threads r) := by
    have hok := List.all_eq_true.mp (List.all_eq_true.mp (lineState_reps r) q q.mem_all) _
      (hcases.resolve_left hother)
    rw [LineState.stepOk, hkind, hnext] at hok
    exact of_decide_eq_true hok
  have hheads := List.all_eq_true.mp (lineState_heads r) q q.mem_all
  rw [LineState.headsOk, Bool.or_eq_true, decide_eq_true_eq] at hheads
  rcases hheads with (hq | rfl) | hheads
  · rwa [hself hq] at hrep
  · cases hk : uriKind c <;> rw [hk] at hnext <;> cases hnext
  · rw [List.all_eq_true] at hheads
    rwa [step_congr_heads fun t ht k hk =>
      hmem k (of_decide_eq_true (List.all_eq_true.mp (hheads t ht) k hk))]

/-! ## Paths, queries and fragments -/

theorem uriKind_of_xdigit {c : UInt8} (h : xdigit.mem c = true) : uriKind c = .hex := by
  rw [uriKind, if_pos h]

/-- The kind of a path character. -/
theorem uriKind_of_pchar {c : UInt8} (h : isPchar c = true) :
    uriKind c = .hex ∨ uriKind c = .plain := by
  by_cases hx : xdigit.mem c = true
  · exact .inl (uriKind_of_xdigit hx)
  · exact .inr (by rw [uriKind, if_neg hx, if_pos h])

/-- The bytes of a sequence get from one state to another one, or to the one behind a percent
sign, with some actions. -/
structure Starts (more : UInt8 → Bool) (as : List RequestAction) (s q q₁ : LineState) : Prop where
  ne_target : s ≠ .target
  plain : ∀ c, (isPchar c || more c) = true → s.next (uriKind c) = some (as, q)
  percent : s.next .percent = some (as, q₁)

/-- The bytes of a sequence do not leave the state. -/
structure Loops (more : UInt8 → Bool) (q q₁ q₂ : LineState) : Prop where
  starts : Starts more [] q q q₁
  first : q₁.next .hex = some ([], q₂)
  second : q₂.next .hex = some ([], q)
  ne_target : q₁ ≠ .target ∧ q₂ ≠ .target

variable {more : UInt8 → Bool} {as : List RequestAction} {s q q₁ q₂ : LineState}

theorem Starts.step (h : Starts more as s q q₁) (r : Bool) {c : UInt8}
    (hc : (isPchar c || more c) = true) : step (s.threads r) c = some (as, q.threads r) :=
  LineState.step_next r (h.plain c hc) fun hs => absurd hs h.ne_target

/-- A percent sign may be the first byte of a part. -/
theorem Starts.step_percent (h : Starts more as s q q₁) (r : Bool) :
    Lib.Ragel.step (s.threads r) 37 = some (as, q₁.threads r) :=
  LineState.step_next r (by rw [show uriKind 37 = .percent by decide]; exact h.percent)
    fun hs => absurd hs h.ne_target

/-- The digits behind a percent sign. -/
theorem Loops.quiet_digits (h : Loops more q q₁ q₂) (r : Bool) {a b : UInt8} {xs : Text}
    (ha : xdigit.mem a = true) (hb : xdigit.mem b = true) :
    quiet (q₁.threads r) (a :: b :: xs) = quiet (q.threads r) xs := by
  have hfirst : step (q₁.threads r) a = some ([], q₂.threads r) :=
    LineState.step_next r (by rw [uriKind_of_xdigit ha]; exact h.first)
      fun hs => absurd hs h.ne_target.1
  have hsecond : step (q₂.threads r) b = some ([], q.threads r) :=
    LineState.step_next r (by rw [uriKind_of_xdigit hb]; exact h.second)
      fun hs => absurd hs h.ne_target.2
  rw [quiet_cons hfirst, quiet_cons hsecond]

/-- A sequence does not leave its state. -/
theorem Loops.quiet (h : Loops more q q₁ q₂) (r : Bool) {xs : Text}
    (hxs : isPchars more xs = true) : quiet (q.threads r) xs = some (q.threads r) := by
  fun_induction isPchars more xs with
  | case1 => rfl
  | case2 a b rest ih =>
      simp only [Bool.and_eq_true] at hxs
      rw [quiet_cons (h.starts.step_percent r), h.quiet_digits r hxs.1.1 hxs.1.2]
      exact ih hxs.2
  | case3 c rest hpct ih =>
      rw [Bool.and_eq_true] at hxs
      rw [quiet_cons (h.starts.step r hxs.1)]
      exact ih hxs.2

/-- A sequence that is not empty, from the state in front of it. -/
theorem Starts.takes (hs : Starts more as s q q₁) (h : Loops more q q₁ q₂) (r : Bool) {xs : Text}
    (hxs : isPchars more xs = true) (hne : xs ≠ []) :
    takes (s.threads r) xs = some (as, q.threads r) := by
  fun_cases isPchars more xs with
  | case1 => exact absurd rfl hne
  | case2 a b rest =>
      simp only [isPchars, Bool.and_eq_true] at hxs
      refine takes_cons (hs.step_percent r) ?_
      rw [h.quiet_digits r hxs.1.1 hxs.1.2, h.quiet r hxs.2]
  | case3 c rest hpct =>
      rw [isPchars, Bool.and_eq_true] at hxs
      · exact takes_cons (hs.step r hxs.1) (h.quiet r hxs.2)
      · exact hpct

/-- The kind of a byte of the path. -/
theorem uriKind_of_path {c : UInt8} (h : (isPchar c || isSlash c) = true) :
    uriKind c = .hex ∨ uriKind c = .plain ∨ uriKind c = .slash := by
  rcases Bool.or_eq_true_iff.mp h with h | h
  · exact (uriKind_of_pchar h).imp_right .inl
  · rw [beq_iff_eq.mp h]
    decide

/-- The kind of a byte of the query. -/
theorem uriKind_of_query {c : UInt8} (h : (isPchar c || isSlashOrQuestion c) = true) :
    uriKind c = .hex ∨ uriKind c = .plain ∨ uriKind c = .slash ∨ uriKind c = .question := by
  rcases Bool.or_eq_true_iff.mp h with h | h
  · exact (uriKind_of_pchar h).imp_right .inl
  · rcases Bool.or_eq_true_iff.mp h with h | h
    · rw [beq_iff_eq.mp h]
      decide
    · rw [beq_iff_eq.mp h]
      decide

/-- The path is read by a loop over its characters. -/
theorem loops_path : Loops isSlash .path .pathPercent .pathDigit where
  starts := ⟨by decide, fun c hc => by
    rcases uriKind_of_path hc with hk | hk | hk <;> rw [hk] <;> rfl, rfl⟩
  first := rfl
  second := rfl
  ne_target := by decide

theorem starts_query : Starts isSlashOrQuestion [.startQuery] .question .query .queryPercent :=
  ⟨by decide, fun c hc => by
    rcases uriKind_of_query hc with hk | hk | hk | hk <;> rw [hk] <;> rfl, rfl⟩

/-- The query is read by a loop over its characters. -/
theorem loops_query : Loops isSlashOrQuestion .query .queryPercent .queryDigit where
  starts := ⟨by decide, fun c hc => by
    rcases uriKind_of_query hc with hk | hk | hk | hk <;> rw [hk] <;> rfl, rfl⟩
  first := rfl
  second := rfl
  ne_target := by decide

theorem starts_fragment : Starts isSlashOrQuestion [.mark] .hash .fragment .fragmentPercent :=
  ⟨by decide, fun c hc => by
    rcases uriKind_of_query hc with hk | hk | hk | hk <;> rw [hk] <;> rfl, rfl⟩

/-- The fragment is read by a loop over its characters. -/
theorem loops_fragment : Loops isSlashOrQuestion .fragment .fragmentPercent .fragmentDigit where
  starts := ⟨by decide, fun c hc => by
    rcases uriKind_of_query hc with hk | hk | hk | hk <;> rw [hk] <;> rfl, rfl⟩
  first := rfl
  second := rfl
  ne_target := by decide

/-- Behind the first slash a segment that is not empty gets to the state of paths. -/
theorem quiet_slash (r : Bool) {xs : Text} (hne : xs ≠ []) (hslash : xs.head? ≠ some 47)
    (hxs : isPchars isSlash xs = true) :
    quiet (LineState.slash.threads r) xs = some (LineState.path.threads r) := by
  fun_cases isPchars isSlash xs with
  | case1 => exact absurd rfl hne
  | case2 a b rest =>
      simp only [isPchars, Bool.and_eq_true] at hxs
      have hstep : step (LineState.slash.threads r) 37 =
          some ([], LineState.pathPercent.threads r) :=
        LineState.step_next r (by decide) (by decide)
      rw [quiet_cons hstep, loops_path.quiet_digits r hxs.1.1 hxs.1.2, loops_path.quiet r hxs.2]
  | case3 c rest hpct =>
      rw [isPchars, Bool.and_eq_true] at hxs
      · have hc : isPchar c = true := by
          refine (Bool.or_eq_true_iff.mp hxs.1).resolve_right ?_
          intro hc
          exact hslash (by rw [List.head?_cons, beq_iff_eq.mp hc])
        have hstep : step (LineState.slash.threads r) c = some ([], LineState.path.threads r) := by
          refine LineState.step_next r ?_ fun hq => nomatch hq
          rcases uriKind_of_pchar hc with hk | hk <;> rw [hk] <;> rfl
        rw [quiet_cons hstep, loops_path.quiet r hxs.2]
      · exact hpct

/-- A path is marked at its slash. -/
theorem takes_path (r : Bool) {path : Text} (h : isPathAbsolute path = true) :
    ∃ q : LineState, (q = .slash ∨ q = .path) ∧
      takes (LineState.target.threads r) path = some ([.mark], q.threads r) := by
  fun_cases isPathAbsolute path with
  | case1 rest =>
      simp only [isPathAbsolute, Bool.and_eq_true, decide_eq_true_eq] at h
      have hstep : step (LineState.target.threads r) 47 =
          some ([.mark], LineState.slash.threads r) :=
        LineState.step_next r (by decide) (by decide)
      cases rest with
      | nil => exact ⟨.slash, .inl rfl, takes_single hstep⟩
      | cons c rest =>
          exact ⟨.path, .inr rfl, takes_cons hstep (quiet_slash r (by simp) h.1 h.2)⟩
  | case2 => simp [isPathAbsolute] at h

/-- A query starts behind its question mark. -/
theorem takes_query (r : Bool) {query : Text} (h : isQuery query = true) (hne : query ≠ []) :
    takes (LineState.question.threads r) query = some ([.startQuery], LineState.query.threads r) :=
  starts_query.takes loops_query r h hne

/-- A fragment starts behind its number sign. -/
theorem takes_fragment (r : Bool) {fragment : Text} (h : isQuery fragment = true)
    (hne : fragment ≠ []) :
    takes (LineState.hash.threads r) fragment = some ([.mark], LineState.fragment.threads r) :=
  starts_fragment.takes loops_fragment r h hne

/-- A byte that ends a part of the target. -/
theorem takes_next (r : Bool) {q q' : LineState} {c : UInt8} {as : List RequestAction}
    (hnext : q.next (uriKind c) = some (as, q')) (hself : uriRep c = c) :
    takes (q.threads r) [c] = some (as, q'.threads r) :=
  takes_single (LineState.step_next r hnext fun _ => hself)

/-! ## Method and version -/

/-- A method and the blank behind it. -/
def methodTaken (r : Bool) (method : Text) : Bool :=
  match takes (start (main r)) method with
  | some (as, threads) =>
      decide (as = [.mark]) &&
        decide (step threads 32 = some ([.requestMethod], LineState.target.threads r))
  | none => false

private theorem methods_taken (r : Bool) :
    httpMethodMap.all (fun e => !isFieldName (text e.2) || methodTaken r (text e.2)) = true := by
  cases r <;> decide +kernel

/-- A method is marked at its start. -/
theorem takes_method (r : Bool) {e : HTTPMethod × List Char} (he : e ∈ httpMethodMap)
    (htoken : isFieldName (text e.2) = true) :
    ∃ threads, takes (start (main r)) (text e.2) = some ([.mark], threads) ∧
      takes threads [32] = some ([.requestMethod], LineState.target.threads r) := by
  have hall := List.all_eq_true.mp (methods_taken r) e he
  rw [htoken, Bool.not_true, Bool.false_or, methodTaken] at hall
  split at hall
  next as threads htakes =>
    simp only [Bool.and_eq_true, decide_eq_true_eq] at hall
    rw [hall.1] at htakes
    exact ⟨threads, htakes, takes_single hall.2⟩
  next => simp at hall

/-- The text of a version. -/
def versionText (minor : Char) : List Char := ['H', 'T', 'T', 'P', '/', '1', '.', minor]

/-- The state behind the version. -/
def versionEnd : List E :=
  [finishing 29 .done (cat (cat (leaving 17 .httpVersion eps) CRLF) headerRest)]

/-- The state behind the carriage return of the request line. -/
def lineReturn : List E := [finishing 29 .done (cat (lit ['\n']) headerRest)]

/-- A version is marked at its start. -/
theorem takes_version (r : Bool) {minor : Char} (h : minor = '0' ∨ minor = '1') :
    takes (LineState.version.threads r) (text (versionText minor)) =
      some ([.mark], versionEnd) := by
  change takes (LineState.version.threads false) _ = _
  rcases h with rfl | rfl
  · decide +kernel
  · decide +kernel

theorem takes_versionEnd : takes versionEnd [13] = some ([.httpVersion], lineReturn) := by
  decide +kernel

theorem takes_lineReturn : takes lineReturn [10] = some ([], HeaderState.top.threads) := by
  decide +kernel

/-! ## Header lines -/

private theorem token_kinds : ∀ n < 256, token.mem (UInt8.ofNat n) = true →
    kindOf (UInt8.ofNat n) = 97 ∨ UInt8.ofNat n = 10 ∨ UInt8.ofNat n = 13 := by
  decide +kernel

/-- The representatives of the bytes of a value, one by one. -/
private theorem value_kinds : ∀ n < 256, isValueByte (UInt8.ofNat n) = true →
    isBlank (UInt8.ofNat n) = true ∨ kindOf (UInt8.ofNat n) = 58 ∨
      kindOf (UInt8.ofNat n) = 97 ∨ kindOf (UInt8.ofNat n) = 200 := by
  decide +kernel

/-- The representative of a byte of a token. -/
theorem kindOf_token {c : UInt8} (h : token.mem c = true) : kindOf c = 97 ∨ c = 10 ∨ c = 13 := by
  have hkinds := token_kinds c.toNat c.toNat_lt
  rw [UInt8.ofNat_toNat] at hkinds
  exact hkinds h

/-- The representative of a byte of a value. -/
theorem kindOf_value {c : UInt8} (h : isValueByte c = true) :
    isBlank c = true ∨ kindOf c = 58 ∨ kindOf c = 97 ∨ kindOf c = 200 := by
  have hkinds := value_kinds c.toNat c.toNat_lt
  rw [UInt8.ofNat_toNat] at hkinds
  exact hkinds h

namespace HeaderState

/-- What the machine does in a state on a byte of a kind, but for `done`. -/
def does : HeaderState → UInt8 → Option (List RequestAction × HeaderState)
  | top, 13 => some ([.startField], nameOrEnd)
  | top, 97 => some ([.startField], name)
  | name, 10 => some ([], name)
  | name, 13 => some ([], name)
  | name, 97 => some ([], name)
  | name, 58 => some ([.writeField], colon)
  | nameOrEnd, 13 => some ([], name)
  | nameOrEnd, 97 => some ([], name)
  | nameOrEnd, 58 => some ([.writeField], colon)
  | colon, 9 => some ([.startValue], space)
  | colon, 32 => some ([.startValue], space)
  | colon, 10 => some ([.startValue, .writeValue], top)
  | colon, 13 => some ([.startValue, .writeValue], lineEnd)
  | colon, 58 => some ([.startValue], value)
  | colon, 97 => some ([.startValue], value)
  | colon, 200 => some ([.startValue], value)
  | space, 9 => some ([.startValue], space)
  | space, 32 => some ([.startValue], space)
  | space, 10 => some ([.startValue, .writeValue], top)
  | space, 13 => some ([.startValue, .writeValue], lineEnd)
  | space, 58 => some ([.startValue], value)
  | space, 97 => some ([.startValue], value)
  | space, 200 => some ([.startValue], value)
  | value, 9 => some ([], valueSpace)
  | value, 32 => some ([], valueSpace)
  | value, 10 => some ([.writeValue], top)
  | value, 13 => some ([.writeValue], lineEnd)
  | value, 58 => some ([], value)
  | value, 97 => some ([], value)
  | value, 200 => some ([], value)
  | valueSpace, 9 => some ([], valueSpace)
  | valueSpace, 32 => some ([], valueSpace)
  | valueSpace, 10 => some ([.writeValue], top)
  | valueSpace, 13 => some ([.writeValue], lineEnd)
  | valueSpace, 58 => some ([], value)
  | valueSpace, 97 => some ([], value)
  | valueSpace, 200 => some ([], value)
  | lineEnd, 10 => some ([], top)
  | _, _ => none

/-- The states. -/
def all : List HeaderState := [top, name, nameOrEnd, colon, value, space, lineEnd, valueSpace]

theorem mem_all (q : HeaderState) : q ∈ all := by
  cases q <;> decide

/-- The check of one transition: it is in the table, or it is one of `done`. -/
def doesOk (q : HeaderState) (c : UInt8) : Bool :=
  match q.does c with
  | some (as, q') => decide (step q.threads c = some (as, q'.threads))
  | none => (step q.threads c).all fun s => decide (.done ∈ s.1 ∧ .writeValue ∉ s.1)

/-- The kinds of bytes. -/
def kinds : List UInt8 := [0, 9, 10, 13, 32, 58, 97, 200]

/-- Every representative is one of the kinds. -/
theorem kindOf_mem_kinds (c : UInt8) : kindOf c ∈ kinds := by
  rcases kindOf_cases c with ⟨hself, hc⟩ | ⟨hkind | hkind | hkind, -⟩
  · rw [hself]
    rcases hc with rfl | rfl | rfl | rfl | rfl <;> decide
  · rw [hkind]
    decide
  · rw [hkind]
    decide
  · rw [hkind]
    decide

private theorem doesOk_all : all.all (fun q => kinds.all q.doesOk) = true := by
  decide

theorem doesOk_kindOf (q : HeaderState) (c : UInt8) : q.doesOk (kindOf c) = true :=
  List.all_eq_true.mp (List.all_eq_true.mp doesOk_all q q.mem_all) _ (kindOf_mem_kinds c)

/-- A step of the header as in the table. -/
theorem step_does {q q' : HeaderState} {c : UInt8} {as : List RequestAction}
    (h : q.does (kindOf c) = some (as, q')) : step q.threads c = some (as, q'.threads) := by
  have hok := q.doesOk_kindOf c
  rw [doesOk, h] at hok
  rw [step_kindOf]
  exact of_decide_eq_true hok

/-- Every step of the header is in the table, or it is one of `done`. -/
theorem does_of_step {q : HeaderState} {c : UInt8} {as : List RequestAction} {threads' : List E}
    (hstep : step q.threads c = some (as, threads')) :
    (∃ q', q.does (kindOf c) = some (as, q') ∧ threads' = q'.threads) ∨
      .done ∈ as ∧ .writeValue ∉ as := by
  have hok := q.doesOk_kindOf c
  rw [step_kindOf] at hstep
  rw [doesOk, hstep] at hok
  split at hok
  next as' q' hdoes =>
    rcases Prod.mk.inj (Option.some.inj (of_decide_eq_true hok)) with ⟨rfl, rfl⟩
    exact .inl ⟨q', hdoes, rfl⟩
  next => exact .inr (of_decide_eq_true hok)

/-- A byte of a name goes on in the name. -/
theorem step_name {c : UInt8} (h : token.mem c = true) :
    step name.threads c = some ([], name.threads) := by
  refine step_does ?_
  rcases kindOf_token h with hk | rfl | rfl
  · rw [hk]
    rfl
  · rfl
  · rfl

/-- A byte of a name behind a line feed starts the name. -/
theorem step_nameOrEnd {c : UInt8} (h : token.mem c = true) (hc : c ≠ 10) :
    step nameOrEnd.threads c = some ([], name.threads) := by
  refine step_does ?_
  rcases kindOf_token h with hk | rfl | rfl
  · rw [hk]
    rfl
  · exact absurd rfl hc
  · rfl

/-- A byte of a name behind the request line starts a field. -/
theorem step_top {c : UInt8} (h : token.mem c = true) (h10 : c ≠ 10) (h13 : c ≠ 13) :
    step top.threads c = some ([.startField], name.threads) := by
  refine step_does ?_
  rw [((kindOf_token h).resolve_right (by simp [h10, h13]))]
  rfl

/-- A state in a value. -/
def inAValue (q : HeaderState) : Prop := q = value ∨ q = valueSpace

instance (q : HeaderState) : Decidable q.inAValue :=
  inferInstanceAs (Decidable (q = value ∨ q = valueSpace))

/-- A byte of a value goes on in the value. -/
theorem step_value {q : HeaderState} (hq : inAValue q) {c : UInt8} (h : isValueByte c = true) :
    ∃ q', inAValue q' ∧ step q.threads c = some ([], q'.threads) := by
  rcases kindOf_value h with hb | hk
  · refine ⟨valueSpace, .inr rfl, step_does ?_⟩
    rcases of_decide_eq_true hb with rfl | rfl <;> rcases hq with rfl | rfl <;> rfl
  · refine ⟨value, .inl rfl, step_does ?_⟩
    rcases hk with hk | hk | hk <;> rw [hk] <;> rcases hq with rfl | rfl <;> rfl

/-- The first byte of a value that is no blank starts it. -/
theorem step_space {c : UInt8} (h : isValueByte c = true) (hb : isBlank c = false) :
    step space.threads c = some ([.startValue], value.threads) := by
  refine step_does ?_
  rcases kindOf_value h with hb' | hk
  · rw [hb] at hb'
    simp at hb'
  · rcases hk with hk | hk | hk <;> rw [hk] <;> rfl

end HeaderState

/-- A field name starts at its first byte. -/
theorem takes_name {name : Text} (h : isFieldName name = true) (hstart : isLineStart name = false) :
    ∃ q : HeaderState, (q = .name ∨ q = .nameOrEnd) ∧
      takes HeaderState.top.threads name = some ([.startField], q.threads) := by
  cases name with
  | nil => simp [isFieldName] at h
  | cons c rest =>
      rw [isFieldName, List.isEmpty_cons, Bool.not_false, Bool.true_and, List.all_cons,
        Bool.and_eq_true, List.all_eq_true] at h
      by_cases h13 : c = 13
      · subst h13
        cases rest with
        | nil => exact ⟨.nameOrEnd, .inr rfl, takes_single (HeaderState.step_does rfl)⟩
        | cons d rest =>
            have hd : d ≠ 10 := by
              rintro rfl
              simp [isLineStart] at hstart
            refine ⟨.name, .inl rfl, takes_cons (HeaderState.step_does rfl) ?_⟩
            rw [quiet_cons (HeaderState.step_nameOrEnd (h.2 d List.mem_cons_self) hd)]
            exact quiet_loop fun b hb => HeaderState.step_name (h.2 b (List.mem_cons_of_mem d hb))
      · have h10 : c ≠ 10 := by
          rintro rfl
          simp [isLineStart] at hstart
        exact ⟨.name, .inl rfl, takes_cons (HeaderState.step_top h.1 h10 h13)
          (quiet_loop fun b hb => HeaderState.step_name (h.2 b hb))⟩

/-- The colon ends a name. -/
theorem takes_colon {q : HeaderState} (hq : q = .name ∨ q = .nameOrEnd) :
    takes q.threads [58] = some ([.writeField], HeaderState.colon.threads) := by
  rcases hq with rfl | rfl
  · exact takes_single (HeaderState.step_does rfl)
  · exact takes_single (HeaderState.step_does rfl)

/-- A value is read without an action. -/
private theorem quiet_value {q : HeaderState} (hq : q.inAValue) {xs : Text}
    (hxs : xs.all isValueByte = true) :
    ∃ q' : HeaderState, q'.inAValue ∧ quiet q.threads xs = some q'.threads := by
  induction xs generalizing q with
  | nil => exact ⟨q, hq, rfl⟩
  | cons c xs ih =>
      rw [List.all_cons, Bool.and_eq_true] at hxs
      rcases HeaderState.step_value hq hxs.1 with ⟨q₁, hq₁, hstep⟩
      rw [quiet_cons hstep]
      exact ih hq₁ hxs.2

/-- A value starts at its first byte that is no blank. -/
theorem takes_value {value : Text} (h : isFieldValue value = true) :
    ∃ q : HeaderState, q.inAValue ∧
      takes HeaderState.space.threads value = some ([.startValue], q.threads) := by
  cases value with
  | nil => simp [isFieldValue] at h
  | cons c rest =>
      simp only [isFieldValue, List.all_cons, List.head?_cons, Option.any_some, Bool.and_eq_true,
        Bool.not_eq_true'] at h
      rcases quiet_value (q := .value) (.inl rfl) h.1.2 with ⟨q, hq, hrest⟩
      exact ⟨q, hq, takes_cons (HeaderState.step_space h.1.1 h.2) hrest⟩

/-- The carriage return stores the value. -/
theorem takes_valueEnd {q : HeaderState} (hq : q.inAValue) :
    takes q.threads [13] = some ([.writeValue], HeaderState.lineEnd.threads) := by
  rcases hq with rfl | rfl
  · exact takes_single (HeaderState.step_does rfl)
  · exact takes_single (HeaderState.step_does rfl)

end Http
end Tiger
