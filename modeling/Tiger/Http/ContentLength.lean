import Tiger.Http.Body
import Tiger.Http.Dump

/-!
# HTTP - the value of `Content-Length`

`HTTPRequestParser::get_content_length` (`src/servers/http/http_parser.cc`) casts the text of the
header to `uint64_t`, with 0 for a text that the cast rejects, and
`HTTPSession::recv_request` takes the result for an `int64_t`.  `GetHTTPRequestMaxBodySize` is
called nowhere.

Main results:

- Theorem `recvHeader_data`: what every callback keeps of the request, the header loop keeps.
- Theorem `recvRequest_contentLength_iff`: the values for which the body has the announced length
  and is no longer than the maximum.
-/

namespace Tiger
namespace Http

open Lib.Ragel HTTPRequestParser SocketStream

/-! ## Values -/

/-- The number of a sequence of decimal digits. -/
def decimalDigits (ds : Text) : Option Nat :=
  if ¬ds.isEmpty ∧ ds.all (fun c => decide (48 ≤ c.toNat ∧ c.toNat ≤ 57)) then
    some (digitsValue 10 ds)
  else none

/-- The number that a text denotes: decimal digits, with a sign or without. -/
def denotes : Text → Option Int
  | 45 :: ds => (decimalDigits ds).map fun n => -(n : Int)
  | 43 :: ds => (decimalDigits ds).map fun n => (n : Int)
  | ds => (decimalDigits ds).map fun n => (n : Int)

/-- `boost::lexical_cast<uint64_t>`, which takes a sign and wraps: numbers of less than 64 bits
behind the sign, modulo `2 ^ 64`. -/
def lexicalCastUInt64 (v : Text) : Option UInt64 :=
  match denotes v with
  | none => none
  | some z => if z.natAbs < 2 ^ 64 then some (UInt64.ofNat (z % 2 ^ 64).toNat) else none

/-- A number that wraps to 64 bits, read as a signed one. -/
theorem toInt64_wrap (z : Int) : toInt64 (UInt64.ofNat (z % 2 ^ 64).toNat) = z.bmod (2 ^ 64) := by
  have hnonneg : 0 ≤ z % 2 ^ 64 := Int.emod_nonneg z (by norm_num)
  have hlt : z % 2 ^ 64 < 2 ^ 64 := Int.emod_lt_of_pos z (by norm_num)
  unfold toInt64
  rw [UInt64.toNat_ofNat_of_lt' (by rw [UInt64.size]; omega), Int.toNat_of_nonneg hnonneg]
  exact Int.emod_bmod z (2 ^ 64)

/-- The content length is read off the field of its name. -/
theorem contentLength_getAs (env : Env) (headers : FieldMap) :
    contentLength env headers = toInt64 (getAs env.lexicalCast headers contentLengthName 0) := by
  unfold contentLength contentLengthName
  rfl

/-- The content length of a value that denotes no number, or a number out of range. -/
theorem contentLength_malformed {env : Env} {headers : FieldMap} {v : Text}
    (hfind : headers.find contentLengthName = some v) (hcast : env.lexicalCast v = none) :
    contentLength env headers = 0 := by
  rw [contentLength_getAs, getAs, hfind]
  simp only [hcast, Option.getD_none]
  unfold toInt64
  simp

/-- The content length of a value in range. -/
theorem contentLength_wrap {env : Env} {headers : FieldMap} {v : Text} {z : Int}
    (hfind : headers.find contentLengthName = some v)
    (hcast : env.lexicalCast v = some (UInt64.ofNat (z % 2 ^ 64).toNat)) :
    contentLength env headers = z.bmod (2 ^ 64) := by
  rw [contentLength_getAs, getAs, hfind]
  simp only [hcast, Option.getD_some]
  exact toInt64_wrap z

/-! ## The header keeps the body empty -/

section Data

variable {P : HTTPRequest → Prop}

/-- Every callback keeps `P`. -/
def CallbacksKeep (P : HTTPRequest → Prop) : Prop :=
  ∀ (m : Memory) (p : Nat) (a : RequestAction) (ps ps' : HTTPRequestParser),
    P ps.data → act m p a ps = some ps' → P ps'.data

/-- The actions keep what the callbacks keep. -/
theorem acts_data (hkeep : CallbacksKeep P) {m : Memory} {p : Nat} {as : List RequestAction}
    {ps ps' : HTTPRequestParser} (hdata : P ps.data) (h : acts m p as ps = some ps') :
    P ps'.data := by
  induction as generalizing ps with
  | nil => exact Option.some.inj h ▸ hdata
  | cons a as ih =>
      rcases Option.bind_eq_some_iff.mp h with ⟨ps₁, hact, hrest⟩
      exact ih (hkeep m p a ps ps₁ hdata hact) hrest

/-- The machine keeps what the callbacks keep. -/
theorem exec_data (hkeep : CallbacksKeep P) {m : Memory} {n p q : Nat}
    {ps ps' : HTTPRequestParser} (hdata : P ps.data) (h : exec m n p ps = some (q, ps')) :
    P ps'.data := by
  induction n generalizing p ps with
  | zero =>
      simp only [exec, Option.some.injEq, Prod.mk.injEq] at h
      exact h.2 ▸ hdata
  | succ n ih =>
      rw [exec] at h
      cases hcs : ps.cs with
      | none =>
          simp only [hcs, Option.some.injEq, Prod.mk.injEq] at h
          exact h.2 ▸ hdata
      | some threads =>
          simp only [hcs] at h
          cases hstep : step threads (m p) with
          | none =>
              simp only [hstep, Option.some.injEq, Prod.mk.injEq] at h
              exact h.2 ▸ hdata
          | some r =>
              simp only [hstep] at h
              rcases Option.bind_eq_some_iff.mp h with ⟨ps₁, hacts, hrest⟩
              have hdata₁ : P ps₁.data :=
                acts_data hkeep (show P { ps with cs := some r.2 }.data from hdata) hacts
              split at hrest
              · simp only [Option.some.injEq, Prod.mk.injEq] at hrest
                exact hrest.2 ▸ hdata₁
              · exact ih hdata₁ hrest

/-- A call keeps what the callbacks keep. -/
theorem executeMachine_data (hkeep : CallbacksKeep P) {m : Memory} {length nparse : Nat}
    {ps ps' : HTTPRequestParser} (hdata : P ps.data)
    (h : executeMachine m length ps = .ok nparse ps') : P ps'.data := by
  rw [executeMachine] at h
  split at h
  · cases h
    exact hdata
  · cases hexec : exec m length 0 ps with
    | none => simp [hexec] at h
    | some r =>
        have hdata₁ := exec_data hkeep hdata (show exec m length 0 ps = some (r.1, r.2) from hexec)
        simp only [hexec] at h
        split at h
        · cases h
          exact hdata₁
        · cases h

/-- What every callback keeps of the request, the header loop keeps. -/
theorem recvHeader_data (hkeep : CallbacksKeep P) {bufferSize fuel : Nat}
    {ps ps' : HTTPRequestParser} {m m' : Memory} {offset offset' : Nat} {s s' : SocketStream}
    (hdata : P ps.data)
    (h : recvHeader bufferSize fuel ps m offset s = .finished ps' m' offset' s') :
    P ps'.data := by
  induction fuel generalizing ps m offset s with
  | zero => cases h
  | succ fuel ih =>
      rw [recvHeader] at h
      simp only at h
      split at h
      · cases h
      · split at h
        · cases h
        · cases h
        · next hcall =>
            have hdata₁ := executeMachine_data hkeep hdata hcall
            split at h
            · cases h
            · split at h
              · cases h
              · split at h
                · cases h
                  exact hdata₁
                · exact ih hdata₁ h

end Data

/-- No callback touches the body. -/
theorem callbacksKeep_body (body : Text) : CallbacksKeep fun r => r.body = body := by
  intro m p a ps ps' hbody h
  cases a with
  | writeValue =>
      simp only [act, onRequestHttpField] at h
      split at h
      · exact Option.some.inj h ▸ hbody
      · split at h
        · exact Option.some.inj h ▸ hbody
        · cases h
  | requestMethod =>
      simp only [act, onRequestMethod] at h
      split at h
      · rcases Option.map_eq_some_iff.mp h with ⟨v, -, rfl⟩
        exact hbody
      · exact Option.some.inj h ▸ hbody
  | httpVersion =>
      simp only [act, onRequestHttpVersion] at h
      split at h
      · exact Option.some.inj h ▸ hbody
      · split at h
        · exact Option.some.inj h ▸ hbody
        · rcases Option.map_eq_some_iff.mp h with ⟨v, -, rfl⟩
          exact hbody
  | fragment =>
      rcases Option.map_eq_some_iff.mp h with ⟨v, -, rfl⟩
      exact hbody
  | requestPath =>
      rcases Option.map_eq_some_iff.mp h with ⟨v, -, rfl⟩
      exact hbody
  | queryString =>
      rcases Option.bind_eq_some_iff.mp h with ⟨q, -, hq⟩
      rcases Option.map_eq_some_iff.mp hq with ⟨v, -, rfl⟩
      exact hbody
  | done =>
      simp only [act] at h
      split at h
      · exact Option.some.inj h ▸ hbody
      · exact Option.some.inj h ▸ hbody
  | _ => exact Option.some.inj h ▸ hbody

/-! ## Requests -/

/-- What comes of a request whose `Content-Length` is `v`: a body of the length that `v` denotes,
at most `maxBody`, or a closed session.  `length` is the size that the body is given. -/
structure Handled (maxBody : Nat) (v : Text) (length : Int) (r : Received × SocketStream) :
    Prop where
  size : length ≤ maxBody
  outcome : (r.1 = .null ∧ r.2.connected = false) ∨
    ∃ (n : Nat) (q : HTTPRequest), denotes v = some (n : Int) ∧ n ≤ maxBody ∧
      r.1 = .request q ∧ q.body.length = n

/-- A body of `n` bytes that is given up: the buffer holds too few of them, and too few arrive or
so many are missing that their number is not positive as an `int`. -/
def Missing (n offset : Nat) (s : SocketStream) : Prop :=
  offset < n ∧ (s.arriving.length < n - offset ∨ toInt32 ((n - offset : Nat) : Int) ≤ 0)

/-- The values that are handled: a number from 0 to the maximum that is the length of a string, or
a negative number that wraps to such a length and for which the body is given up. -/
def Acceptable (maxBody : Nat) (v : Text) (offset : Nat) (s : SocketStream) : Prop :=
  ∃ z, denotes v = some z ∧
    (0 ≤ z ∧ z ≤ maxBody ∧ z < 2 ^ 62 ∨
      z < 0 ∧ 0 < z + 2 ^ 64 ∧ z + 2 ^ 64 < 2 ^ 62 ∧ z + 2 ^ 64 ≤ maxBody ∧
        Missing (z + 2 ^ 64).toNat offset s)

section Body

variable {ps : HTTPRequestParser} {m : Memory} {offset n : Nat} {s : SocketStream}

/-- A body that does not arrive closes the session. -/
theorem recvBody_missing (ps : HTTPRequestParser) (m : Memory) (hlt : n < 2 ^ 62)
    (h : Missing n offset s) :
    (recvBody n ps m offset s).1 = .null ∧ (recvBody n ps m offset s).2.connected = false := by
  rcases h with ⟨hoffset, hcase⟩
  have hmissing : ((n : Int) - (offset : Nat)).toNat = n - offset := by omega
  have hresult : (s.readFixedSize (n - offset)).1 ≤ 0 := by
    by_cases hlacks : s.arriving.length < n - offset
    · exact (readFixedSize_cut (by omega) hlacks).1
    · obtain ⟨s', hrun, -⟩ := readFixedSize_full (by omega : n - offset < 2 ^ 63)
        (by omega : n - offset ≤ s.arriving.length)
      have hwrap := hcase.resolve_left hlacks
      simpa only [hrun] using hwrap
  rw [recvBody, if_neg (by omega), if_neg (by omega), if_neg (by omega), hmissing]
  simp only
  rw [if_pos hresult]
  exact ⟨rfl, rfl⟩

/-- `body.resize` throws for a length that no string has, and the body is not handled. -/
theorem handled_of_too_long {maxBody : Nat} {v : Text} (hlong : 2 ^ 62 ≤ n) :
    ¬ Handled maxBody v n (recvBody n ps m offset s) := by
  rw [recvBody, if_neg (by omega), if_pos (by omega)]
  rintro ⟨-, hnull | ⟨n', q, -, -, hq, -⟩⟩
  · exact absurd hnull.1 (by simp)
  · exact absurd hq (by simp)

/-- A body that arrives is returned whole. -/
theorem recvBody_complete (ps : HTTPRequestParser) (m : Memory) (hpos : 0 < n) (hlt : n < 2 ^ 62)
    (h : ¬ Missing n offset s) :
    ∃ q, (recvBody n ps m offset s).1 = .request q ∧ q.body.length = n := by
  rw [recvBody, if_neg (by omega), if_neg (by omega)]
  by_cases hoffset : offset < n
  · have hmissing : ((n : Int) - (offset : Nat)).toNat = n - offset := by omega
    have hcase := not_or.mp fun hor => h ⟨hoffset, hor⟩
    obtain ⟨s', hrun, -⟩ := readFixedSize_full (by omega : n - offset < 2 ^ 63)
        (by omega : n - offset ≤ s.arriving.length)
    rw [if_neg (by omega), hmissing, hrun]
    simp only
    rw [if_neg hcase.2]
    refine ⟨_, rfl, ?_⟩
    rw [init_body, List.length_append, slice_length, List.length_take]
    omega
  · rw [if_pos (by omega)]
    refine ⟨_, rfl, ?_⟩
    rw [init_body, slice_length, Int.toNat_natCast]

/-- A request without a body is handled if its length denotes 0. -/
theorem handled_empty_iff {maxBody : Nat} {v : Text} {length : Int} (hle : length ≤ 0)
    (hbody : ps.data.body = []) :
    Handled maxBody v length (recvBody length ps m offset s) ↔ denotes v = some 0 := by
  rw [recvBody, if_pos hle]
  constructor
  · rintro ⟨-, hnull | ⟨n, q, hv, -, hq, hlen⟩⟩
    · exact absurd hnull.1 (by simp)
    · cases hq
      rw [init_body, hbody] at hlen
      rw [hv, ← hlen]
      rfl
  · intro hv
    refine ⟨by omega, .inr ⟨0, _, hv, Nat.zero_le maxBody, rfl, ?_⟩⟩
    rw [init_body, hbody]
    rfl

/-- A request with a body is handled if the body is not too long, and is given up or as long as
its length says. -/
theorem handled_body_iff {maxBody : Nat} {v : Text} (hpos : 0 < n) :
    Handled maxBody v n (recvBody n ps m offset s) ↔
      n < 2 ^ 62 ∧ n ≤ maxBody ∧ (Missing n offset s ∨ denotes v = some (n : Int)) := by
  by_cases hlt : n < 2 ^ 62
  swap
  · exact iff_of_false (handled_of_too_long (by omega)) fun h => hlt h.1
  simp only [hlt, true_and]
  by_cases hmissing : Missing n offset s
  · have hnull := recvBody_missing ps m hlt hmissing
    constructor
    · intro h
      have hsize := h.size
      exact ⟨by omega, .inl hmissing⟩
    · rintro ⟨hle, -⟩
      exact ⟨by omega, .inl hnull⟩
  · obtain ⟨q, hrequest, hlen⟩ := recvBody_complete ps m hpos hlt hmissing
    constructor
    · rintro ⟨hsize, hnull | ⟨n', q', hv, -, hq, hlen'⟩⟩
      · rw [hrequest] at hnull
        exact absurd hnull.1 (by simp)
      · rw [hrequest] at hq
        cases hq
        rw [hlen] at hlen'
        exact ⟨by omega, .inr (by rw [hv, hlen'])⟩
    · rintro ⟨hle, hcase⟩
      exact ⟨by omega, .inr ⟨n, q, hcase.resolve_left hmissing, hle, hrequest, hlen⟩⟩

end Body

/-- A number of less than 64 bits behind its sign, modulo `2 ^ 64` and as an `int64_t`. -/
theorem bmod_wrap {z : Int} (hlow : -2 ^ 64 < z) (hhigh : z < 2 ^ 64) :
    z.bmod (2 ^ 64) = if z < -2 ^ 63 then z + 2 ^ 64 else if z < 2 ^ 63 then z else z - 2 ^ 64 := by
  rw [Int.bmod_def]
  split_ifs <;> omega

/-- When a denoted length is handled as the standard asks. -/
theorem acceptable_iff {maxBody : Nat} {v : Text} {offset : Nat} {s : SocketStream} {z : Int}
    (hv : denotes v = some z) :
    Acceptable maxBody v offset s ↔
      0 ≤ z ∧ z ≤ maxBody ∧ z < 2 ^ 62 ∨
        z < 0 ∧ 0 < z + 2 ^ 64 ∧ z + 2 ^ 64 < 2 ^ 62 ∧ z + 2 ^ 64 ≤ maxBody ∧
          Missing (z + 2 ^ 64).toNat offset s := by
  constructor
  · rintro ⟨z', hz', hcase⟩
    rw [hv] at hz'
    cases hz'
    exact hcase
  · exact fun hcase => ⟨z, hv, hcase⟩

/-- The body behind a header whose `Content-Length` is in range of the cast. -/
theorem handled_wrap_iff {maxBody : Nat} {v : Text} {ps : HTTPRequestParser} {m : Memory}
    {offset : Nat} {s : SocketStream} {z : Int} (hbody : ps.data.body = [])
    (hv : denotes v = some z) (hlow : -2 ^ 64 < z) (hhigh : z < 2 ^ 64) :
    Handled maxBody v (z.bmod (2 ^ 64)) (recvBody (z.bmod (2 ^ 64)) ps m offset s) ↔
      Acceptable maxBody v offset s := by
  rw [acceptable_iff hv, bmod_wrap hlow hhigh]
  by_cases hneg : z < -2 ^ 63
  · obtain ⟨n, hn⟩ := Int.eq_ofNat_of_zero_le (a := z + 2 ^ 64) (by omega)
    rw [if_pos hneg, hn, handled_body_iff (by omega), hv, Option.some.injEq, Int.toNat_natCast]
    constructor
    · rintro ⟨hlt, hle, hcase⟩
      exact .inr ⟨by omega, by omega, by omega, by omega, hcase.resolve_right (by omega)⟩
    · rintro (h | ⟨-, -, hlt, hle, hmissing⟩)
      · omega
      · exact ⟨by omega, by omega, .inl hmissing⟩
  · rw [if_neg hneg]
    by_cases hpos : 0 < z ∧ z < 2 ^ 63
    · obtain ⟨n, rfl⟩ := Int.eq_ofNat_of_zero_le hpos.1.le
      rw [if_pos hpos.2, handled_body_iff (by omega)]
      constructor
      · rintro ⟨hlt, hle, -⟩
        exact .inl ⟨by omega, by omega, by omega⟩
      · rintro (h | h)
        · exact ⟨by omega, by omega, .inr hv⟩
        · omega
    · have hle : (if z < 2 ^ 63 then z else z - 2 ^ 64) ≤ 0 := by
        split <;> omega
      rw [handled_empty_iff hle hbody, hv, Option.some.injEq]
      omega

/-- The body behind a header with a `Content-Length` of any text. -/
theorem handled_iff_acceptable {env : Env} (hcast : ∀ v, env.lexicalCast v = lexicalCastUInt64 v)
    {ps : HTTPRequestParser} (hbody : ps.data.body = []) {v : Text}
    (hfind : ps.data.headers.find contentLengthName = some v) (maxBody : Nat) (m : Memory)
    (offset : Nat) (s : SocketStream) :
    Handled maxBody v (contentLength env ps.data.headers)
        (recvBody (contentLength env ps.data.headers) ps m offset s) ↔
      Acceptable maxBody v offset s := by
  cases hv : denotes v with
  | none =>
      have hnone : env.lexicalCast v = none := by rw [hcast, lexicalCastUInt64, hv]
      rw [contentLength_malformed hfind hnone, handled_empty_iff le_rfl hbody, hv]
      constructor
      · nofun
      · rintro ⟨z, hz, -⟩
        rw [hv] at hz
        nomatch hz
  | some z =>
      by_cases hrange : z.natAbs < 2 ^ 64
      · have hsome : env.lexicalCast v = some (UInt64.ofNat (z % 2 ^ 64).toNat) := by
          rw [hcast, lexicalCastUInt64, hv]
          exact if_pos hrange
        rw [contentLength_wrap hfind hsome]
        exact handled_wrap_iff hbody hv (by omega) (by omega)
      · have hnone : env.lexicalCast v = none := by
          rw [hcast, lexicalCastUInt64, hv]
          exact if_neg hrange
        rw [contentLength_malformed hfind hnone, handled_empty_iff le_rfl hbody,
          acceptable_iff hv, hv, Option.some.injEq]
        omega

/-- Behind a complete header there is the body, of a request that has none yet. -/
theorem recvRequest_of_header {env : Env} {bufferSize fuel : Nat} {s s' : SocketStream}
    {ps : HTTPRequestParser} {m : Memory} {offset : Nat}
    (hheader : recvHeader bufferSize fuel (HTTPRequestParser.init env) env.memory 0 s =
      .finished ps m offset s') :
    recvRequest env bufferSize fuel s =
        recvBody (contentLength env ps.data.headers) ps m offset s' ∧
      ps.data.body = [] := by
  refine ⟨?_, recvHeader_data (callbacksKeep_body []) rfl hheader⟩
  rw [recvRequest, hheader]
  simp only [contentLength_eq]

/-- What is made of a `Content-Length` of any text: the request has a body of the announced length
and of at most `maxBody` bytes, or the session is closed, exactly for the acceptable values. -/
theorem recvRequest_contentLength_iff {env : Env}
    (hcast : ∀ v, env.lexicalCast v = lexicalCastUInt64 v) {bufferSize fuel : Nat}
    {s s' : SocketStream} {ps : HTTPRequestParser} {m : Memory} {offset : Nat}
    (hheader : recvHeader bufferSize fuel (HTTPRequestParser.init env) env.memory 0 s =
      .finished ps m offset s') {v : Text}
    (hfind : ps.data.headers.find contentLengthName = some v) (maxBody : Nat) :
    Handled maxBody v (toInt64 (ps.getContentLength env)) (recvRequest env bufferSize fuel s) ↔
      Acceptable maxBody v offset s' := by
  obtain ⟨hrun, hbody⟩ := recvRequest_of_header hheader
  rw [hrun, contentLength_eq]
  exact handled_iff_acceptable hcast hbody hfind maxBody m offset s'

/-! ## Values on the wire -/

/-- A setting with the cast of the source. -/
def castEnv : Env := ⟨false, fun _ => 0, lexicalCastUInt64⟩

/-- `PUT / HTTP/1.1` with the content length `v`, and a byte behind the header. -/
def putOf (v : List Char) : Text :=
  text (['P', 'U', 'T', ' ', '/', ' ', 'H', 'T', 'T', 'P', '/', '1', '.', '1', '\n', 'C', 'o', 'n',
    't', 'e', 'n', 't', '-', 'L', 'e', 'n', 'g', 't', 'h', ':'] ++ v ++ ['\n', '\n', 'x'])

/-- The first call completes the header of `putOf v` and stores the value. -/
def storesLength (v : List Char) : Bool :=
  match firstCall castEnv (putOf v) with
  | .ok nparse ps => decide (nparse + 1 = (putOf v).length) && !ps.hasError && ps.isFinished &&
      decide (ps.data.headers.find contentLengthName = some (text v))
  | _ => false

/-- The sample header with a length is read in one round. -/
theorem recvHeader_putOf {v : List Char}
    (hread : firstRead 4096 (ofCuts [putOf v]) = putOf v) (h : storesLength v = true) :
    ∃ ps m offset s', recvHeader 4096 1 (HTTPRequestParser.init castEnv) castEnv.memory 0
        (ofCuts [putOf v]) = .finished ps m offset s' ∧
      ps.data.headers.find contentLengthName = some (text v) := by
  unfold storesLength at h
  cases hfirst : firstCall castEnv (putOf v) with
  | abort => simp [hfirst] at h
  | threw => simp [hfirst] at h
  | ok nparse ps =>
      simp only [hfirst, Bool.and_eq_true, decide_eq_true_eq, Bool.not_eq_true'] at h
      rcases h with ⟨⟨⟨hparse, herror⟩, hfinished⟩, hfind⟩
      have hcompletes : HeaderCompletes castEnv 4096 (ofCuts [putOf v]) nparse ps :=
        ⟨Int.natCast_nonneg _, by rw [hread, hfirst], herror,
          by rw [hread, ← hparse, Nat.add_sub_cancel_left]; decide, hfinished⟩
      obtain ⟨m, hrun, -⟩ := recvHeader_completed hcompletes 0
      exact ⟨ps, m, _, _, hrun, hfind⟩

/-- The length 1 is handled. -/
theorem recvRequest_contentLength_one :
    ∃ ps m offset s', recvHeader 4096 1 (HTTPRequestParser.init castEnv) castEnv.memory 0
        (ofCuts [putOf ['1']]) = .finished ps m offset s' ∧
      Handled (64 * 1024 * 1024) (text ['1']) (toInt64 (ps.getContentLength castEnv))
        (recvRequest castEnv 4096 1 (ofCuts [putOf ['1']])) := by
  obtain ⟨ps, m, offset, s', hheader, hfind⟩ :=
    recvHeader_putOf (v := ['1']) (by decide) (by decide +kernel)
  refine ⟨ps, m, offset, s', hheader,
    (recvRequest_contentLength_iff (fun _ => rfl) hheader hfind _).mpr ?_⟩
  exact ⟨1, by decide, .inl (by decide)⟩

/-- A request with the content length `v` is taken for one whose length is 0 or too much. -/
def Mishandled (v : List Char) : Prop :=
  ∃ ps m offset s', recvHeader 4096 1 (HTTPRequestParser.init castEnv) castEnv.memory 0
      (ofCuts [putOf v]) = .finished ps m offset s' ∧
    ps.data.headers.find contentLengthName = some (text v) ∧
    ¬ Handled (64 * 1024 * 1024) (text v) (toInt64 (ps.getContentLength castEnv))
      (recvRequest castEnv 4096 1 (ofCuts [putOf v]))

/-- The sample lengths are mishandled. -/
theorem mishandled {v : List Char} (hread : firstRead 4096 (ofCuts [putOf v]) = putOf v)
    (hstores : storesLength v = true)
    (hvalue : ∀ z ∈ denotes (text v), z = -1 ∨ z = 64 * 1024 * 1024 + 1) : Mishandled v := by
  obtain ⟨ps, m, offset, s', hheader, hfind⟩ := recvHeader_putOf hread hstores
  obtain ⟨hrun, hbody⟩ := recvRequest_of_header hheader
  refine ⟨ps, m, offset, s', hheader, hfind, ?_⟩
  rw [hrun, contentLength_eq, handled_iff_acceptable (fun _ => rfl) hbody hfind]
  rintro ⟨z, hz, hcase⟩
  rcases hvalue z hz with rfl | rfl
  · omega
  · omega

/-- A value that is no number, a negative one, and one byte more than the maximum. -/
theorem recvRequest_contentLength_fails :
    Mishandled ['x'] ∧ Mishandled ['-', '1'] ∧
      Mishandled ['6', '7', '1', '0', '8', '8', '6', '5'] :=
  ⟨mishandled (by decide) (by decide +kernel) (by decide),
    mishandled (by decide) (by decide +kernel) (by decide),
    mishandled (by decide) (by decide +kernel) (by decide)⟩

end Http
end Tiger
