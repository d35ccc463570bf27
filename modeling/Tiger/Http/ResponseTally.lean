import Tiger.Http.ResponseRounds
import Tiger.Http.RequestTally

/-!
# HTTP - what the bytes say of a response

The machine of `http_response_parser.rl` reads the header of a response and the
size lines of its chunks.  Whether a call of the parser goes through, and what is
known behind it, can be read off the bytes of the call and the grammar, as for a
request.

Main results:

- Theorem `LineCall.execute_cases`: a call goes through exactly when its bytes
  pass, and what is known behind it is what they say.
- Theorem `LineCall.parse_cases`: the same with the tests of the receiver.
-/

namespace Tiger
namespace Http

open Lib Lib.Ragel HTTPResponseParser ResponseGrammar
open HeaderRead (fits knownVersion)

/-! ## What is known of a line -/

/-- What is known of a header or of a size line: where its texts start, whether the version is
refused, whether the body comes in chunks, whether the chunk is the last one, the size of the
chunk, and the fields. -/
structure LineRead where
  mark : Nat
  fieldStart : Nat
  fieldLen : Nat
  refused : Bool
  chunked : Bool
  last : Bool
  size : Int
  fields : FieldMap

namespace LineRead

/-- In front of the first byte. -/
def fresh : LineRead := ⟨0, 0, 0, false, false, false, -1, []⟩

/-- The action at position `p` takes no text, or one that a `std::string` can hold. -/
def admits (m : Memory) (p : Nat) (a : ResponseAction) (v : LineRead) : Bool :=
  match a with
  | .writeValue => decide (v.fieldLen = 0) || fits v.fieldLen && fits (len v.mark p)
  | .reasonPhrase => fits (len v.mark p)
  | .httpVersion => knownVersion m v.mark (len v.mark p) || fits (len v.mark p)
  | _ => true

/-- What is known behind the action at position `p` of a text of `length` bytes. -/
def after (m : Memory) (length p : Nat) (a : ResponseAction) (v : LineRead) : LineRead :=
  match a with
  | .mark => { v with mark := p }
  | .startField => { v with fieldStart := p }
  | .writeField => { v with fieldLen := len v.fieldStart p }
  | .startValue => { v with mark := p }
  | .writeContentLen => { v with size := toInt32 (strtol 10 (cString m v.mark length)) }
  | .writeValue =>
      if v.fieldLen = 0 then v
      else { v with fields := v.fields.set (slice m v.fieldStart v.fieldLen)
                                           (slice m v.mark (len v.mark p)) }
  | .httpVersion =>
      if knownVersion m v.mark (len v.mark p) then v else { v with refused := true }
  | .chunkSize =>
      let size := toInt32 (strtol 16 (cString m v.mark length))
      { v with chunked := true, size := size, last := decide (size ≤ 0) }
  | .transChunked => { v with chunked := true }
  | _ => v

/-- The tally of a text of `length` bytes in a buffer. -/
def tally (m : Memory) (length : Nat) : Tally ResponseAction LineRead :=
  ⟨admits m, after m length⟩

end LineRead

open LineRead

/-- The buffer that the parser sees and the one that is tallied: they are the same, or they have
the same text and nothing is known of the fields. -/
inductive SameText (exact : Bool) (length : Nat) (m m' : Memory) : Prop
  | same (h : m = m')
  | text (hfields : exact = false) (h : ∀ i < length, m i = m' i)

/-- The parser in front of position `p` has stored what is known of the line, and its offsets lie
in front of `p`, or of `bound` as long as they are older.  Only an exact account has the fields. -/
structure Stored (exact : Bool) (count bound p : Nat) (ps : HTTPResponseParser) (v : LineRead) :
    Prop where
  mark_eq : ps.mark = v.mark
  fieldStart_eq : ps.fieldStart = v.fieldStart
  fieldLen_eq : ps.fieldLen = v.fieldLen
  error_eq : ps.error = v.refused
  chunked_eq : ps.chunked = v.chunked
  chunksDone_eq : ps.chunksDone = v.last
  contentLen_eq : ps.contentLen = v.size
  headers_eq : exact = true → ps.data.headers = v.fields
  nread_eq : ps.nread = count
  mark_lt : ps.mark < max p bound
  fieldStart_lt : ps.fieldStart < max p bound
  bodyStart_le : ps.bodyStart ≤ max p bound

namespace HTTPResponseParser

/-- Without an action the parser stays as it is. -/
theorem acts_nil (m : Memory) (length p : Nat) (ps : HTTPResponseParser) :
    acts m length p [] ps = some ps := rfl

/-- The response parser executes the actions of its machine. -/
def executor (m : Memory) (length : Nat) : Executor ResponseAction HTTPResponseParser where
  byteAt := m
  stop := .done
  threads := cs
  goto t ps := { ps with cs := t }
  act := act m length
  acts := acts m length
  exec := exec m length
  threads_goto _ _ := rfl
  acts_nil := acts_nil m length
  acts_cons _ _ _ _ := rfl
  exec_zero _ _ := rfl
  exec_fail ht hstep := by simp only [exec, ht, hstep]
  exec_step ht hstep := by simp only [exec, ht, hstep, List.contains_iff_mem]

end HTTPResponseParser

/-! ## Actions -/

section Actions

variable {exact : Bool} {m m' : Memory} {length count bound p : Nat} {ps : HTTPResponseParser}
  {v : LineRead}

/-- The string up to the terminator is the same in both buffers. -/
theorem SameText.cString_eq (h : SameText exact length m m') (mark : Nat) :
    cString m mark length = cString m' mark length := by
  cases h with
  | same h => rw [h]
  | text _ h => rw [cString, cString, slice_congr fun i hlow hhigh => h i (by omega)]

/-- The version is in front of position `p`, where the buffers have the same bytes. -/
theorem SameText.knownVersion_eq (h : SameText exact length m m') {mark : Nat}
    (hmark : exact = false → mark ≤ p) (hp : p < length) :
    knownVersion m mark (len mark p) = knownVersion m' mark (len mark p) := by
  cases h with
  | same h => rw [h]
  | text hfields h =>
      have hle : mark + len mark p ≤ length := by
        have := hmark hfields
        unfold len toSizeT
        omega
      rw [knownVersion, knownVersion, HTTPRequestParser.strncmpEq_congr h hle,
        HTTPRequestParser.strncmpEq_congr h hle]

theorem response_string_of_fits {start length : Nat} (h : fits length = true) :
    string m start length = some (slice m start length) := if_pos (of_decide_eq_true h)

theorem response_string_of_not_fits {start length : Nat} (h : ¬ fits length = true) :
    string m start length = none := if_neg (mt (decide_eq_true (p := length < 2 ^ 62)) h)

/-- The callback for a header field. -/
theorem onResponseHttpField_tally (hsame : SameText exact length m m')
    (h : Stored exact count bound (p + 1) ps v) :
    (admits m' p .writeValue v = false ∧ act m length p .writeValue ps = none) ∨
      admits m' p .writeValue v = true ∧ ∃ ps', act m length p .writeValue ps = some ps' ∧
        ps'.cs = ps.cs ∧ Stored exact count bound (p + 1) ps'
          (after m' length p .writeValue v) := by
  have hact : act m length p .writeValue ps =
      onResponseHttpField m v.fieldStart v.fieldLen v.mark (len v.mark p) ps := by
    rw [act, h.fieldStart_eq, h.fieldLen_eq, h.mark_eq]
  rw [hact, onResponseHttpField]
  by_cases hempty : v.fieldLen = 0
  · have hafter : after m' length p .writeValue v = v := if_pos hempty
    rw [if_pos hempty, hafter]
    exact .inr ⟨by simp [admits, hempty], ps, rfl, rfl, h⟩
  · rw [if_neg hempty]
    by_cases hname : fits v.fieldLen = true
    · by_cases hvalue : fits (len v.mark p) = true
      · have hafter : after m' length p .writeValue v = { v with
            fields := v.fields.set (slice m' v.fieldStart v.fieldLen)
              (slice m' v.mark (len v.mark p)) } := if_neg hempty
        rw [response_string_of_fits hname, response_string_of_fits hvalue, hafter]
        refine .inr ⟨by simp [admits, hname, hvalue], _, rfl, rfl, ?_⟩
        refine { h with headers_eq := fun hexact => ?_ }
        cases hsame with
        | same hm => rw [hm, ← h.headers_eq hexact]
        | text hfields _ =>
            rw [hfields] at hexact
            cases hexact
      · rw [response_string_of_fits hname, response_string_of_not_fits hvalue]
        exact .inl ⟨by simpa [admits, hempty, hname] using hvalue, rfl⟩
    · rw [response_string_of_not_fits hname]
      exact .inl ⟨by simp [admits, hempty, hname], rfl⟩

/-- The callback for the version. -/
theorem onResponseHttpVersion_tally (hsame : SameText exact length m m')
    (hbound : exact = false → bound ≤ 1) (hp : p < length)
    (h : Stored exact count bound (p + 1) ps v) :
    (admits m' p .httpVersion v = false ∧ act m length p .httpVersion ps = none) ∨
      admits m' p .httpVersion v = true ∧ ∃ ps', act m length p .httpVersion ps = some ps' ∧
        ps'.cs = ps.cs ∧
        Stored exact count bound (p + 1) ps' (after m' length p .httpVersion v) := by
  have hmark := h.mark_lt
  have hact : act m length p .httpVersion ps =
      onResponseHttpVersion m v.mark (len v.mark p) ps := by
    rw [act, h.mark_eq]
  have hversion : knownVersion m v.mark (len v.mark p) = knownVersion m' v.mark (len v.mark p) := by
    refine hsame.knownVersion_eq (fun hfields => ?_) hp
    have hone := hbound hfields
    rw [← h.mark_eq]
    omega
  rw [hact, onResponseHttpVersion]
  by_cases hknown : knownVersion m v.mark (len v.mark p) = true
  · have hadmits : admits m' p .httpVersion v = true := by simp [admits, ← hversion, hknown]
    have hafter : after m' length p .httpVersion v = v := if_pos (hversion ▸ hknown)
    rw [hafter]
    rcases Bool.or_eq_true _ _ ▸ hknown with hone | hzero
    · rw [if_pos hone]
      exact .inr ⟨hadmits, _, rfl, rfl, { h with }⟩
    · rw [if_pos hzero]
      split
      · exact .inr ⟨hadmits, _, rfl, rfl, { h with }⟩
      · exact .inr ⟨hadmits, _, rfl, rfl, { h with }⟩
  · have hafter : after m' length p .httpVersion v = { v with refused := true } :=
      if_neg (hversion ▸ hknown)
    have hadmits : admits m' p .httpVersion v = fits (len v.mark p) := by
      simp [admits, ← hversion, hknown]
    rw [knownVersion, Bool.or_eq_true, not_or] at hknown
    rw [if_neg hknown.1, if_neg hknown.2, hafter, hadmits]
    by_cases htext : fits (len v.mark p) = true
    · rw [response_string_of_fits htext, Option.map_some]
      exact .inr ⟨htext, _, rfl, rfl, { h with error_eq := rfl }⟩
    · rw [response_string_of_not_fits htext, Option.map_none]
      exact .inl ⟨Bool.eq_false_iff.mpr htext, rfl⟩

/-- An action of the parser, and what the bytes say of it. -/
theorem response_act_tally (hsame : SameText exact length m m')
    (hbound : exact = false → bound ≤ 1) (hp : p < length)
    (h : Stored exact count bound (p + 1) ps v) (a : ResponseAction) :
    (admits m' p a v = false ∧ act m length p a ps = none) ∨
      admits m' p a v = true ∧ ∃ ps', act m length p a ps = some ps' ∧ ps'.cs = ps.cs ∧
        Stored exact count bound (p + 1) ps' (after m' length p a v) := by
  have hpos : p < max (p + 1) bound := by omega
  have hnumber : cString m ps.mark length = cString m' v.mark length := by
    rw [h.mark_eq, hsame.cString_eq]
  cases a with
  | mark => exact .inr ⟨rfl, _, rfl, rfl, { h with mark_eq := rfl, mark_lt := hpos }⟩
  | startValue => exact .inr ⟨rfl, _, rfl, rfl, { h with mark_eq := rfl, mark_lt := hpos }⟩
  | startField =>
      exact .inr ⟨rfl, _, rfl, rfl, { h with fieldStart_eq := rfl, fieldStart_lt := hpos }⟩
  | writeField =>
      refine .inr ⟨rfl, _, rfl, rfl, { h with fieldLen_eq := ?_ }⟩
      exact congrArg (fun start => len start p) h.fieldStart_eq
  | writeContentLen =>
      refine .inr ⟨rfl, _, rfl, rfl, { h with contentLen_eq := ?_ }⟩
      exact congrArg (fun t => toInt32 (strtol 10 t)) hnumber
  | writeConnectionClose => exact .inr ⟨rfl, _, rfl, rfl, { h with }⟩
  | writeValue => exact onResponseHttpField_tally hsame h
  | reasonPhrase =>
      have hact : act m length p .reasonPhrase ps = (string m v.mark (len v.mark p)).map fun x =>
          { ps with data := { ps.data with reason := x } } := by
        rw [act, h.mark_eq]
      rw [hact]
      by_cases htext : fits (len v.mark p) = true
      · rw [response_string_of_fits htext, Option.map_some]
        exact .inr ⟨htext, _, rfl, rfl, { h with }⟩
      · rw [response_string_of_not_fits htext, Option.map_none]
        exact .inl ⟨Bool.eq_false_iff.mpr htext, rfl⟩
  | statusCode => exact .inr ⟨rfl, _, rfl, rfl, { h with }⟩
  | httpVersion => exact onResponseHttpVersion_tally hsame hbound hp h
  | chunkSize =>
      refine .inr ⟨rfl, _, rfl, rfl,
        { h with chunked_eq := rfl, contentLen_eq := ?_, chunksDone_eq := ?_ }⟩
      · exact congrArg (fun t => decide (toInt32 (strtol 16 t) ≤ 0)) hnumber
      · exact congrArg (fun t => toInt32 (strtol 16 t)) hnumber
  | transChunked => exact .inr ⟨rfl, _, rfl, rfl, { h with chunked_eq := rfl }⟩
  | done => exact .inr ⟨rfl, _, rfl, rfl, { h with bodyStart_le := hpos }⟩

/-- The actions of the parser keep to the tally. -/
theorem response_executor_keeps (hsame : SameText exact length m m')
    (hbound : exact = false → bound ≤ 1) (count : Nat) :
    (HTTPResponseParser.executor m length).Keeps (tally m' length) length
      (Stored exact count bound) where
  enter _ h := { h with
    mark_lt := h.mark_lt.trans_le (by omega)
    fieldStart_lt := h.fieldStart_lt.trans_le (by omega)
    bodyStart_le := h.bodyStart_le.trans (by omega) }
  fail h := { h with }
  act a hp h := response_act_tally hsame hbound hp h a

end Actions

/-! ## Calls -/

/-- A call of the parser: the buffer with the text, the state of the machine, what is known of the
line, and how many bytes the calls before have taken. -/
structure LineCall where
  memory : Memory
  threads : List E
  known : LineRead
  taken : Nat
  text : Text

namespace LineCall

variable (c : LineCall)

/-- How far the grammar gets in the text. -/
def scan : Scan ResponseAction := Lib.Ragel.scan .done c.threads c.text

/-- The actions that the grammar gives the text. -/
def actions : List (Nat × ResponseAction) := trace .done 0 c.threads c.text

/-- What is known behind the call. -/
def read : LineRead := (tally c.memory c.text.length).behind c.actions c.known

/-- How many bytes the calls have taken behind this one. -/
def count : Nat := c.taken + c.scan.taken c.text.length

/-- The bytes that are left in the buffer. -/
def left : Text := c.text.drop c.count

/-- All texts that the actions take fit into a string, and neither the bytes that all calls have
taken nor the last name of a field are longer than the text of this call. -/
def Passes : Prop :=
  (tally c.memory c.text.length).admitsAll c.actions c.known = true ∧ c.count ≤ c.text.length ∧
    c.read.fieldLen ≤ c.text.length

instance : Decidable c.Passes := inferInstanceAs (Decidable (_ ∧ _ ∧ _))

/-- There is no way on in the grammar, the version is refused, or the bytes that are left are taken
for a full buffer. -/
def GivesUp (bufferSize : Nat) : Prop :=
  c.scan.threads = none ∨ c.read.refused = true ∨ (c.left.length : Int) = toInt32 bufferSize

instance (bufferSize : Nat) : Decidable (c.GivesUp bufferSize) :=
  inferInstanceAs (Decidable (_ ∨ _ ∨ _))

/-- The header or the size line is complete. -/
def Finished : Prop := c.scan.threads = some [.eps]

instance : Decidable c.Finished := inferInstanceAs (Decidable (_ = _))

/-- The parser in front of the call. -/
def Before (exact : Bool) (ps : HTTPResponseParser) : Prop :=
  ps.cs = some c.threads ∧ Stored exact c.taken (max 1 c.taken) 0 ps c.known

/-- The parser behind the call. -/
def Behind (exact : Bool) (ps : HTTPResponseParser) : Prop :=
  ps.cs = c.scan.threads ∧ Stored exact c.count (max 1 c.count) 0 ps c.read

variable {c}

theorem left_length : c.left.length = c.text.length - c.count := List.length_drop

/-- A call on at least one byte takes one, unless the grammar has no way on. -/
theorem count_pos (hpos : 0 < c.text.length) (hgoes : c.scan.threads ≠ none) : 0 < c.count :=
  Nat.add_pos_right _ (scan_taken_pos (List.length_pos_iff.mp hpos) hgoes)

section

variable {exact : Bool} {m : Memory} {chunck : Bool} {ps : HTTPResponseParser}

/-- The call goes through exactly when it passes, and then it leaves what the bytes say. -/
theorem execute_cases (hpos : 0 < c.text.length) (htext : slice m 0 c.text.length = c.text)
    (hend : m c.text.length = 0) (hsame : SameText exact c.text.length m c.memory)
    (hline : exact = false → c.taken = 0)
    (h : c.Before exact (if chunck then ps.reinit else ps)) :
    (¬ c.Passes ∧ ∃ e, execute m c.text.length chunck ps = .error e) ∨
      c.Passes ∧ ∃ ps', execute m c.text.length chunck ps =
        .ok (c.count, ps', memmove m c.count (c.text.length - c.count)) ∧ c.Behind exact ps' := by
  obtain ⟨hcs, hstored⟩ := h
  have hat : ∀ i < c.text.length,
      c.text[i]? = some ((HTTPResponseParser.executor m c.text.length).byteAt (0 + i)) := by
    intro i hi
    have hbyte := slice_getElem? m 0 c.text.length i hi
    rwa [htext] at hbyte
  have hcases := Executor.exec_tally (response_executor_keeps hsame
    (fun hfields => by rw [hline hfields]; exact le_rfl) c.taken) hcs hat (by omega) hstored
  simp only [Nat.zero_add] at hcases
  change (tally c.memory c.text.length).admitsAll c.actions c.known = false ∧
      exec m c.text.length c.text.length 0 (if chunck then ps.reinit else ps) = none ∨
    (tally c.memory c.text.length).admitsAll c.actions c.known = true ∧ ∃ ps',
      exec m c.text.length c.text.length 0 (if chunck then ps.reinit else ps) =
        some (c.scan.taken c.text.length, ps') ∧ ps'.cs = c.scan.threads ∧
      Stored exact c.taken (max 1 c.taken) (c.scan.taken c.text.length) ps' c.read at hcases
  rw [execute, if_neg (by simp [hend])]
  rcases hcases with ⟨hbad, hexec⟩ | ⟨hgood, ps₁, hexec, hcs₁, hstored₁⟩
  · refine .inl ⟨fun hpass => absurd hpass.1 (by simp [hbad]), .threw, ?_⟩
    rw [hexec]
  · have hmark := hstored₁.mark_lt
    have hfield := hstored₁.fieldStart_lt
    have hbody := hstored₁.bodyStart_le
    have hname := hstored₁.fieldLen_eq
    have hcount : ps₁.nread + c.scan.taken c.text.length = c.count := by
      rw [hstored₁.nread_eq, count]
    have hfront : max (c.scan.taken c.text.length) (max 1 c.taken) ≤ max 1 c.count := by
      rw [count]
      omega
    have hpass : c.Passes ↔ c.count ≤ c.text.length ∧ c.read.fieldLen ≤ c.text.length :=
      ⟨fun h => h.2, fun h => ⟨hgood, h⟩⟩
    simp only [hexec, hcount]
    by_cases hasserts : c.count ≤ c.text.length ∧ ps₁.bodyStart ≤ c.text.length
    · rw [if_neg (not_not.mpr hasserts)]
      by_cases hoffsets : ps₁.mark < c.text.length ∧ ps₁.fieldLen ≤ c.text.length ∧
          ps₁.fieldStart < c.text.length
      · rw [if_neg (not_not.mpr hoffsets)]
        refine .inr ⟨hpass.mpr ⟨hasserts.1, hname ▸ hoffsets.2.1⟩, _, rfl, hcs₁, ?_⟩
        exact { hstored₁ with
          nread_eq := rfl
          mark_lt := hmark.trans_le (by omega)
          fieldStart_lt := hfield.trans_le (by omega)
          bodyStart_le := hbody.trans (by omega) }
      · rw [if_pos hoffsets]
        refine .inl ⟨fun h => hoffsets ?_, _, rfl⟩
        obtain ⟨hle, hlen⟩ := hpass.mp h
        exact ⟨hmark.trans_le (by omega), hname ▸ hlen, hfield.trans_le (by omega)⟩
    · rw [if_pos hasserts]
      refine .inl ⟨fun h => hasserts ?_, _, rfl⟩
      obtain ⟨hle, -⟩ := hpass.mp h
      exact ⟨hle, hbody.trans (by omega)⟩

/-- A call with the tests of the receiver behind it: it fails when the bytes do not pass, the
receiver gives up, or it goes on with the bytes that are left. -/
theorem parse_cases (bufferSize : Nat) {b : Buffered} (hpos : 0 < c.text.length)
    (hb : Holds b c.text)
    (hsame : SameText exact c.text.length (terminate b.m c.text.length) c.memory)
    (hline : exact = false → c.taken = 0)
    (h : c.Before exact (if chunck then b.ps.reinit else b.ps)) :
    (¬ c.Passes ∧ ∃ e, Fatal e ∧ parse bufferSize chunck b = .error e) ∨
      (c.Passes ∧ c.GivesUp bufferSize ∧ ∃ s, parse bufferSize chunck b = .error (.null s)) ∨
      c.Passes ∧ ¬ c.GivesUp bufferSize ∧ ∃ ps', c.Behind exact ps' ∧
        parse bufferSize chunck b =
          .ok ⟨ps', memmove (terminate b.m c.text.length) c.count c.left.length,
          c.left.length, b.s⟩ := by
  have hlen := hb.len_eq
  have htext : slice (terminate b.m c.text.length) 0 c.text.length = c.text := by
    rw [slice_terminate, hb.text_eq]
  rcases execute_cases hpos htext (terminate_self b.m _) hsame hline h with
    ⟨hbad, e, hexec⟩ | ⟨hgood, ps', hexec, hbehind⟩
  · refine .inl ⟨hbad, e, execute_fatal hexec, ?_⟩
    rw [parse, hlen, hexec]
  · have herror : ps'.hasError = true ↔ c.read.refused = true ∨ c.scan.threads = none := by
      rw [hasError, Bool.or_eq_true, Option.isNone_iff_eq_none, hbehind.1, hbehind.2.error_eq]
    have hparse : parse bufferSize chunck b =
        if ps'.hasError then .error (.null b.s.close)
        else if (c.left.length : Int) = toInt32 bufferSize then .error (.null b.s.close)
        else .ok ⟨ps', memmove (terminate b.m c.text.length) c.count c.left.length, c.left.length,
          b.s⟩ := by
      rw [left_length, parse, hlen, hexec]
    rw [hparse]
    by_cases hgives : c.GivesUp bufferSize
    · refine .inr (.inl ⟨hgood, hgives, b.s.close, ?_⟩)
      rcases hgives with hfailed | hrefused | hfull
      · rw [if_pos (herror.mpr (.inr hfailed))]
      · rw [if_pos (herror.mpr (.inl hrefused))]
      · rw [if_pos hfull, ite_self]
    · refine .inr (.inr ⟨hgood, hgives, ps', hbehind, ?_⟩)
      have hok : ¬ ps'.hasError = true := by
        intro hbad
        rcases herror.mp hbad with hrefused | hfailed
        · exact hgives (.inr (.inl hrefused))
        · exact hgives (.inl hfailed)
      rw [if_neg hok, if_neg fun hfull => hgives (.inr (.inr hfull))]

end

end LineCall

end Http
end Tiger
