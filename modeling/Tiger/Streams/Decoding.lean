import Tiger.Http.Chunked
import Tiger.Streams.Inflate

/-!
# Streams - errors of a decoding stream

This module follows the codes of `inflate` through `ZlibStream::decode`
(`src/streams/zlib_stream.cc`) to the callers of `write` and `flush`, and through the decoding of
a body in `HTTPConnection::recv_response` (`src/servers/http/http_connection.cc`).  `decode` looks
for `Z_STREAM_ERROR` only and returns `Z_OK` otherwise; `recv_response` does not look at what
`write` and `flush` return.

Main results:

- Theorem `allOk_iff`: the calls of a stream return `Z_OK` whatever other code `inflate` returned.
- Theorem `run_status`: how far `inflate` has come behind a run of writes.
- Theorem `surfaces_iff`: when success of a stream, or the body of a response, means that the
  stream was decoded to its end.
-/

namespace Tiger
namespace Zlib

open Http

/-! ## The two uses -/

/-- The encodings of a body. -/
inductive Coding
  | gzip
  | deflate

/-- The value of `content-encoding`. -/
def Coding.name : Coding → Text
  | gzip => text ['g', 'z', 'i', 'p']
  | deflate => text ['d', 'e', 'f', 'l', 'a', 't', 'e']

/-- `zs->write(body); zs->flush()` on a stream of `CreateGzip(false)` or `CreateDeflate(false)`. -/
def decode (lib : Library) (fuel : Nat) (body : Text) : Except Stop (List Int) × ZlibStream :=
  run lib fuel [.write body, .flush] (ZlibStream.create false 4096)

/-- The decoding of `recv_response`, by the library. -/
def zlibEnv (env : ClientEnv) (libs : Coding → Library) (fuel : Nat) : ClientEnv :=
  { env with
    gunzip := fun body => (decode (libs .gzip) fuel body).2.getResult
    inflate := fun body => (decode (libs .deflate) fuel body).2.getResult }

/-- A use of a decoding stream: some calls and a final `flush`, or the body of a response. -/
inductive Use
  | stream (lib : Library) (f : Format) (buffSize : UInt32) (calls : List Call)
  | response (coding : Coding) (r : HTTPResponse) (body : Text)

namespace Use

variable (env : ClientEnv) (libs : Coding → Library) (formats : Coding → Format) (fuel : Nat)

/-- The calls of the stream, and what they return. -/
def run : Use → Except Stop (List Int) × ZlibStream
  | stream lib _ buffSize calls =>
      Zlib.run lib fuel (calls ++ [.flush]) (ZlibStream.create false buffSize)
  | response coding _ body => decode (libs coding) fuel body

/-- A response has a body and a header that asks for decoding.  The library does what is
documented. -/
def Valid : Use → Prop
  | stream lib f _ _ => Documented f lib.inflate
  | response coding r body =>
      body ≠ [] ∧ caseKey ((r.headers.find contentEncoding).getD []) = caseKey coding.name ∧
        Documented (formats coding) (libs coding).inflate

/-- What success means: the stream was decoded if all calls returned `Z_OK`, or if its bytes are
the body of the response. -/
def Surfaces (results : List Int) (s : ZlibStream) : Use → Prop
  | stream .. => (∀ r ∈ results, r = zOk) → Whole s.codes
  | response _ r body =>
      (decodeBody (zlibEnv env libs fuel) r body).body = s.getResult → Whole s.codes

/-- The condition for it: what is written, or the body, begins with a whole stream for which there
is memory; or the stream is flushed before its last flush. -/
def Condition : Use → Prop
  | stream _ f _ calls =>
      Call.flush ∈ calls ∨ f.Complete ((calls ++ [Call.flush]).flatMap Call.offered)
  | response coding _ body =>
      (formats coding).Complete ([Call.write body, Call.flush].flatMap Call.offered)

end Use

/-! ## What the callers see -/

/-- All calls return `Z_OK` exactly if `inflate` never returned `Z_STREAM_ERROR`. -/
theorem allOk_iff {lib : Library} {fuel : Nat} {calls : List Call} {encode : Bool}
    {buffSize : UInt32} {results : List Int} {s : ZlibStream}
    (hrun : run lib fuel calls (ZlibStream.create encode buffSize) = (.ok results, s)) :
    (∀ r ∈ results, r = zOk) ↔ zStreamError ∉ s.codes := by
  have houtcome := run_outcome lib fuel (holds_create encode buffSize) calls
  rw [hrun] at houtcome
  cases houtcome with
  | ok hlength hcodes hiff =>
      have hcreate : (ZlibStream.create encode buffSize).codes = [] := rfl
      rw [hcreate, List.nil_append] at hcodes
      rw [hiff, ← hcodes]

/-- The body of a response is what the stream handed out, whatever its calls returned. -/
theorem decodeBody_decode (env : ClientEnv) (libs : Coding → Library) (fuel : Nat)
    {coding : Coding} {r : HTTPResponse} {body : Text} (hbody : body ≠ [])
    (hcoding : caseKey ((r.headers.find contentEncoding).getD []) = caseKey coding.name) :
    (decodeBody (zlibEnv env libs fuel) r body).body =
      (decode (libs coding) fuel body).2.getResult := by
  have hempty : body.isEmpty = false := by simpa using hbody
  rw [contentEncoding] at hcoding
  rw [decodeBody, hempty]
  simp only [Bool.false_eq_true, if_false, hcoding]
  cases coding with
  | gzip => exact congrArg HTTPResponse.body (if_pos rfl)
  | deflate => exact congrArg HTTPResponse.body ((if_neg (by decide)).trans (if_pos rfl))

/-! ## How far `inflate` comes -/

section Runs

variable {f : Format} {codec : Codec} {lib : Library} {s s' : ZlibStream} {vs : List (List UInt8)}
  {size fuel : Nat}

/-- The stream is open, and its calls of `inflate` were the ones for these pieces. -/
structure Follows (f : Format) (codec : Codec) (size : Nat) (vs : List (List UInt8))
    (s : ZlibStream) : Prop where
  holds : Holds size s
  made : codec.Makes s.zstream.calls
  ended : s.zstream.ended = false
  status : Status f vs s.zstream.calls

/-- What a call of the library makes of `m_zstream`. -/
theorem round_step (codec : Codec) (junk : Nat → Nat → UInt8) (h : Sized s) (flush : Flush) :
    (s.round codec junk flush).1 = (s.answer codec junk flush).code ∧
      (s.round codec junk flush).2.zstream =
        { nextIn := s.zstream.nextIn.drop (s.answer codec junk flush).consumed
          availOut := s.buffSize.toNat - (s.room junk).2.iovLen -
            (s.answer codec junk flush).out.length
          ended := s.zstream.ended
          calls := s.zstream.calls ++ [(s.request junk flush, s.answer codec junk flush)] } := by
  rw [round_eq codec junk h]
  exact ⟨rfl, rfl⟩

/-- `inflate` is called for a piece until it leaves space. -/
theorem fill_status (hdoc : Documented f codec) {junk : Nat → Nat → UInt8} {flush : Flush}
    {v : List UInt8} {code : Int} (hholds : Holds size s) (hmade : codec.Makes s.zstream.calls)
    (hended : s.zstream.ended = false)
    (h : Closed f (vs ++ [v]) s.zstream.calls ∨ Amid f vs v s.zstream.nextIn s.zstream.calls)
    (hrun : s.fill codec junk flush fuel = (.ok code, s')) :
    code ≠ zStreamError ∧ Follows f codec size (vs ++ [v]) s' := by
  induction fuel generalizing s with
  | zero => cases hrun
  | succ fuel ih =>
      have hholds' := holds_round codec junk hholds flush
      have hcall := hdoc.call hmade (q := s.request junk flush) hended h
      have hmade' := hmade.call (s.request junk flush)
      obtain ⟨hcode, hzstream⟩ := round_step codec junk hholds.sized flush
      have hopen : (s.answer codec junk flush).code ≠ zStreamError := by
        intro herror
        have htrue : s.zstream.ended = true := (hdoc.streamError _ _).mp herror
        rw [hended] at htrue
        cases htrue
      rw [ZlibStream.fill] at hrun
      generalize s.round codec junk flush = r at hholds' hcode hzstream hrun
      obtain ⟨first, s₁⟩ := r
      simp only at hholds' hcode hzstream hrun
      rw [if_neg (hcode ▸ hopen)] at hrun
      split at hrun
      · exact ih hholds' (by rwa [hzstream]) (by rwa [hzstream]) (by rw [hzstream]; exact hcall.1)
          hrun
      · next hroom =>
        cases hrun
        refine ⟨by decide, hholds', by rwa [hzstream], by rwa [hzstream], ?_⟩
        rw [hzstream] at hroom ⊢
        refine hcall.2 ?_
        simp only at hroom
        change (s.answer codec junk flush).out.length < s.buffSize.toNat - (s.room junk).2.iovLen
        omega

/-- A loop over the pieces that returns has handed them all to `inflate`. -/
theorem pieces_status (hdoc : Documented f codec) {junk : Nat → Nat → UInt8} {finish : Bool}
    {ws : List (List UInt8)} {code : Int} (h : Follows f codec size vs s)
    (hrun : s.pieces codec junk fuel finish ws = (.ok code, s')) :
    code ≠ zStreamError ∧
      Follows f codec size (vs ++ ws.map fun w => w.take (w.length % 2 ^ 32)) s' := by
  induction ws generalizing s vs with
  | nil =>
      cases hrun
      exact ⟨by decide, by simpa using h⟩
  | cons w ws ih =>
      rw [ZlibStream.pieces] at hrun
      simp only at hrun
      split at hrun
      next => cases hrun
      next first s₁ hfill =>
        have hholds := (kept_holds junk).nextIn s (w.take (w.length % 2 ^ 32)) h.holds
        have hamid := h.status.amid (w.take (w.length % 2 ^ 32))
        obtain ⟨hfirst, hnext⟩ := fill_status hdoc hholds h.made h.ended hamid hfill
        rw [if_neg hfirst] at hrun
        have hrest := ih hnext hrun
        rwa [List.append_assoc] at hrest

/-- A write returns `Z_OK`, and the stream stays open. -/
theorem apply_status (hdoc : Documented f lib.inflate) (hdecode : s.encode = false) {c : Call}
    {code : Int} (h : Follows f lib.inflate size vs s)
    (hrun : c.apply lib fuel s = (.ok code, s')) :
    code = zOk ∧ Status f (vs ++ c.offered) s'.zstream.calls ∧
      (c ≠ .flush → Follows f lib.inflate size (vs ++ c.offered) s') := by
  rw [c.apply_eq, ZlibStream.code, hdecode] at hrun
  simp only [Bool.false_eq_true, if_false, ZlibStream.transform] at hrun
  split at hrun
  next => cases hrun
  next first s₁ hpieces =>
    obtain ⟨hfirst, hnext⟩ := pieces_status hdoc h hpieces
    rw [if_neg hfirst] at hrun
    split at hrun
    next hfinish =>
      cases hrun
      refine ⟨rfl, hnext.status, fun hne => ?_⟩
      cases c with
      | flush => exact absurd rfl hne
      | _ => exact absurd hfinish.1 Bool.false_ne_true
    next =>
      cases hrun
      exact ⟨rfl, hnext.status, fun _ => hnext⟩

variable (lib fuel) in
/-- A stream stays a decoding one. -/
theorem apply_encode (c : Call) (hdecode : s.encode = false) :
    (c.apply lib fuel s).2.encode = false := by
  have hkept : Kept lib.junk fun s => s.encode = false :=
    ⟨fun _ _ _ h => h, fun _ _ h => h, fun _ h => h⟩
  exact hkept.apply fuel c hdecode

/-- Writes and a final `flush`: all calls return `Z_OK`, and `inflate` has come through all
pieces. -/
theorem run_status (hdoc : Documented f lib.inflate) {calls : List Call}
    (hwrites : Call.flush ∉ calls) {results : List Int} (hdecode : s.encode = false)
    (h : Follows f lib.inflate size vs s)
    (hrun : run lib fuel (calls ++ [.flush]) s = (.ok results, s')) :
    (∀ r ∈ results, r = zOk) ∧
      Status f (vs ++ (calls ++ [Call.flush]).flatMap Call.offered) s'.zstream.calls := by
  induction calls generalizing s vs results with
  | nil =>
      rw [List.nil_append, run] at hrun
      split at hrun
      next => cases hrun
      next code s₁ hflush =>
        cases hrun
        obtain ⟨hcode, hstatus, -⟩ := apply_status hdoc hdecode h hflush
        exact ⟨by simpa using hcode, by simpa using hstatus⟩
  | cons c cs ih =>
      rw [List.mem_cons, not_or] at hwrites
      rw [List.cons_append, run] at hrun
      split at hrun
      next => cases hrun
      next code s₁ happly =>
        obtain ⟨hcode, -, hnext⟩ := apply_status hdoc hdecode h happly
        have hencode := apply_encode lib fuel c hdecode
        rw [happly] at hencode
        split at hrun
        next => cases hrun
        next codes s₂ hrest =>
          cases hrun
          obtain ⟨hcodes, hstatus⟩ := ih hwrites.2 hencode (hnext (Ne.symm hwrites.1)) hrest
          refine ⟨List.forall_mem_cons.mpr ⟨hcode, hcodes⟩, ?_⟩
          rwa [List.append_assoc] at hstatus

/-- The stream was flushed, or `inflate` has found that it was. -/
def Flushed (s : ZlibStream) : Prop := s.zstream.ended = true ∨ zStreamError ∈ s.codes

/-- A stream error stays in the codes. -/
theorem kept_streamError (junk : Nat → Nat → UInt8) :
    Kept junk fun s => zStreamError ∈ s.codes where
  round codec flush s h := by
    rw [codes_round]
    exact List.mem_append_left _ h
  nextIn _ _ h := h
  ended _ h := h

/-- A flushed stream stays flushed. -/
theorem kept_flushed (junk : Nat → Nat → UInt8) : Kept junk Flushed where
  round codec flush s h := h.imp id ((kept_streamError junk).round codec flush s)
  nextIn _ _ h := h
  ended _ _ := .inl rfl

/-- On a state that was freed the first call of the loop fails. -/
theorem fill_ended (hdoc : Documented f codec) {junk : Nat → Nat → UInt8} {flush : Flush}
    {code : Int} (hended : s.zstream.ended = true)
    (hrun : s.fill codec junk flush fuel = (.ok code, s')) : zStreamError ∈ s'.codes := by
  cases fuel with
  | zero => cases hrun
  | succ fuel =>
      have hcode : (s.round codec junk flush).1 = zStreamError :=
        (hdoc.streamError _ _).mpr hended
      have hcodes := codes_round codec junk s flush
      rw [ZlibStream.fill] at hrun
      generalize s.round codec junk flush = r at hcode hcodes hrun
      obtain ⟨first, s₁⟩ := r
      simp only at hcode hcodes hrun
      rw [if_pos hcode] at hrun
      cases hrun
      rw [hcodes, hcode]
      exact List.mem_append_right _ (List.mem_singleton_self _)

/-- The loop over one empty piece is a call of `fill`. -/
theorem pieces_empty {code : Int}
    (hrun : s.pieces codec junk fuel true [[]] = (.ok code, s')) :
    ∃ first, ZlibStream.fill codec junk .finish fuel
        { s with zstream := { s.zstream with nextIn := [] } } = (.ok first, s') ∧
      (first = zStreamError ∧ code = first ∨ first ≠ zStreamError ∧ code = zOk) := by
  rw [ZlibStream.pieces] at hrun
  split at hrun
  next => cases hrun
  next ret s₁ hfill =>
    by_cases hret : ret = zStreamError
    · rw [if_pos hret] at hrun
      cases hrun
      exact ⟨_, hfill, .inl ⟨hret, rfl⟩⟩
    · rw [if_neg hret, ZlibStream.pieces] at hrun
      cases hrun
      exact ⟨_, hfill, .inr ⟨hret, rfl⟩⟩

/-- A `flush` goes through `decode` with an empty piece. -/
theorem flush_cases (hdecode : s.encode = false) {code : Int}
    (hrun : Call.flush.apply lib fuel s = (.ok code, s')) :
    ∃ first s₁, ZlibStream.fill lib.inflate lib.junk .finish fuel
        { s with zstream := { s.zstream with nextIn := [] } } = (.ok first, s₁) ∧
      s'.codes = s₁.codes ∧ (first = zStreamError ∨ s'.zstream.ended = true) := by
  have htake :
      ([[]] : List (List UInt8)).take (([[]] : List (List UInt8)).length % 2 ^ 32) = [[]] := rfl
  rw [Call.apply, ZlibStream.flush, ZlibStream.code, hdecode] at hrun
  simp only [Bool.false_eq_true, if_false, ZlibStream.transform, htake] at hrun
  generalize hpieces : s.pieces lib.inflate lib.junk fuel true [[]] = r at hrun
  obtain ⟨ret, s₁⟩ := r
  cases ret with
  | error e => cases hrun
  | ok last =>
      obtain ⟨first, hfill, ⟨herror, rfl⟩ | ⟨hfirst, rfl⟩⟩ := pieces_empty hpieces
      · simp only [herror, if_true] at hrun
        cases hrun
        exact ⟨_, _, hfill, rfl, .inl herror⟩
      · simp only [if_neg (show ¬zOk = zStreamError by decide)] at hrun
        cases hrun
        exact ⟨_, _, hfill, rfl, .inr rfl⟩

/-- A flush that returns leaves a flushed stream. -/
theorem flush_flushed (hdecode : s.encode = false) (hholds : Holds size s) {code : Int}
    (hrun : Call.flush.apply lib fuel s = (.ok code, s')) : Flushed s' := by
  obtain ⟨first, s₁, hfill, hcodes, hfirst | hended⟩ := flush_cases hdecode hrun
  · have houtcome := fill_outcome lib.inflate lib.junk fuel
      ((kept_holds lib.junk).nextIn s [] hholds) .finish
    rw [hfill, hfirst] at houtcome
    cases houtcome with
    | streamError hmore hmem =>
        refine .inr ?_
        rw [hcodes, hmore]
        exact List.mem_append_right _ hmem
  · exact .inl hended

/-- The next `flush` finds it. -/
theorem flush_again (hdoc : Documented f lib.inflate) (hdecode : s.encode = false)
    (h : Flushed s) {code : Int} (hrun : Call.flush.apply lib fuel s = (.ok code, s')) :
    zStreamError ∈ s'.codes := by
  rcases h with hended | hmem
  · obtain ⟨first, s₁, hfill, hcodes, -⟩ := flush_cases hdecode hrun
    rw [hcodes]
    exact fill_ended (s := { s with zstream := { s.zstream with nextIn := [] } }) hdoc hended hfill
  · have hkept := (kept_streamError lib.junk).apply fuel .flush hmem
    rwa [hrun] at hkept

/-- A stream that is flushed twice. -/
theorem run_flushed (hdoc : Documented f lib.inflate) {calls : List Call} {results : List Int}
    (hdecode : s.encode = false) (hholds : Holds size s) (h : Flushed s ∨ Call.flush ∈ calls)
    (hrun : run lib fuel (calls ++ [.flush]) s = (.ok results, s')) : zStreamError ∈ s'.codes := by
  induction calls generalizing s results with
  | nil =>
      rw [List.nil_append, run] at hrun
      split at hrun
      next => cases hrun
      next code s₁ hflush =>
        cases hrun
        exact flush_again hdoc hdecode (h.resolve_right List.not_mem_nil) hflush
  | cons c cs ih =>
      rw [List.cons_append, run] at hrun
      split at hrun
      next => cases hrun
      next code s₁ happly =>
        have hencode := apply_encode lib fuel c hdecode
        have hholds₁ := (kept_holds lib.junk).apply fuel c hholds
        have hkept := fun hs => (kept_flushed lib.junk).apply fuel c (s := s) hs
        rw [happly] at hencode hholds₁ hkept
        have hnext : Flushed s₁ ∨ Call.flush ∈ cs := by
          rcases h with hs | hmem
          · exact .inl (hkept hs)
          · rcases List.mem_cons.mp hmem with rfl | hmem
            · exact .inl (flush_flushed hdecode hholds happly)
            · exact .inr hmem
        split at hrun
        next => cases hrun
        next codes s₂ hrest =>
          cases hrun
          exact ih hencode hholds₁ hnext hrest

end Runs

/-- A new stream is in front of the first piece. -/
theorem follows_create (f : Format) (codec : Codec) (buffSize : UInt32) :
    Follows f codec buffSize.toNat [] (ZlibStream.create false buffSize) where
  holds := holds_create false buffSize
  made := .nil
  ended := rfl
  status := .running ⟨List.not_mem_nil, by simp [ZlibStream.create, codesOf]⟩ rfl
    Format.not_begins_nil Format.supplies_nil

/-- Success means that the stream was decoded to its end in two cases: for the calls of a stream,
if it is flushed twice or what is written begins with a whole stream for which there is memory, and
for a response only if its body does. -/
theorem surfaces_iff (env : ClientEnv) (libs : Coding → Library) (formats : Coding → Format)
    {fuel : Nat} (u : Use) {results : List Int} {s : ZlibStream} (hvalid : u.Valid libs formats)
    (hrun : u.run libs fuel = (.ok results, s)) :
    u.Surfaces env libs fuel results s ↔ u.Condition formats := by
  cases u with
  | stream lib f buffSize calls =>
      rw [Use.Surfaces, Use.Condition]
      by_cases hflush : Call.flush ∈ calls
      · refine iff_of_true (fun hok => ?_) (.inl hflush)
        have hmem := run_flushed hvalid rfl (holds_create false buffSize) (.inr hflush) hrun
        exact absurd hmem ((allOk_iff hrun).mp hok)
      · obtain ⟨hok, hstatus⟩ := run_status hvalid hflush rfl
          (follows_create f lib.inflate buffSize) hrun
        rw [List.nil_append] at hstatus
        rw [or_iff_right hflush, ← hstatus.whole_iff]
        exact ⟨fun h => h hok, fun h _ => h⟩
  | response coding r body =>
      obtain ⟨hbody, hcoding, hdoc⟩ := hvalid
      have hpresented := decodeBody_decode env libs fuel hbody hcoding
      have hstream : (decode (libs coding) fuel body).2 = s := congrArg Prod.snd hrun
      rw [hstream] at hpresented
      have hflush : Call.flush ∉ [Call.write body] := by simp
      obtain ⟨-, hstatus⟩ := run_status hdoc hflush rfl
        (follows_create (formats coding) (libs coding).inflate 4096) hrun
      rw [List.nil_append, List.singleton_append] at hstatus
      rw [Use.Surfaces, Use.Condition, ← hstatus.whole_iff]
      exact ⟨fun h => h hpresented, fun h _ => h⟩

/-- A response that asks for decoding. -/
def deflated : HTTPResponse :=
  { HTTPResponse.fresh with headers := [(contentEncoding, Coding.deflate.name)] }

/-- An environment whose own decoding is not used. -/
def plainEnv : ClientEnv := ⟨fun _ => 0, fun _ => none, id, id⟩

/-- The body of a response that is the whole stream of a letter. -/
theorem surfaces_iff_deflated :
    (Use.response .deflate deflated letter).Surfaces plainEnv (fun _ => letterLibrary) 2 [zOk, zOk]
      (decode letterLibrary 2 letter).2 := by
  have hvalid : (Use.response .deflate deflated letter).Valid (fun _ => letterLibrary)
      (fun _ => letterFormat) := ⟨by decide, by decide, inflateLetter_documented⟩
  refine (surfaces_iff plainEnv (fun _ => letterLibrary) (fun _ => letterFormat) _ hvalid
    (Prod.ext rfl rfl)).mpr ⟨⟨letter, rfl, by decide⟩, fun _ _ _ _ => trivial⟩

/-- A stream that was cut after its first letter: `write` and `flush` return `Z_OK`, and the
letter is the body of the response. -/
theorem not_surfaces_cut :
    (decode letterLibrary 2 [0x4b, 0x04]).1 = .ok [zOk, zOk] ∧
      ¬(Use.stream letterLibrary letterFormat 4096 [.write [0x4b, 0x04]]).Surfaces plainEnv
        (fun _ => letterLibrary) 2 [zOk, zOk] (decode letterLibrary 2 [0x4b, 0x04]).2 ∧
      (decodeBody (zlibEnv plainEnv (fun _ => letterLibrary) 2) deflated [0x4b, 0x04]).body = [97] ∧
      ¬(Use.response .deflate deflated [0x4b, 0x04]).Surfaces plainEnv (fun _ => letterLibrary) 2
        [zOk, zOk] (decode letterLibrary 2 [0x4b, 0x04]).2 := by
  have hcodes : (decode letterLibrary 2 [0x4b, 0x04]).2.codes = [0, -5] := rfl
  have hpart : ¬Whole (decode letterLibrary 2 [0x4b, 0x04]).2.codes := by
    intro h
    have hends := h.ends
    rw [hcodes] at hends
    exact absurd hends (by decide)
  have hbody := decodeBody_decode plainEnv (fun _ => letterLibrary) 2
    (show ([0x4b, 0x04] : Text) ≠ [] by decide)
    (show caseKey ((deflated.headers.find contentEncoding).getD []) = caseKey Coding.deflate.name
      by decide)
  refine ⟨rfl, fun h => hpart (h (by decide)), ?_, fun h => hpart (h hbody)⟩
  rw [hbody]
  rfl

end Zlib
end Tiger
