import Tiger.Http.RequestRun
import Tiger.Lib.Tally

/-!
# HTTP - what the bytes say of a request header

Whether a call of the request parser goes through, and what is known of the
header behind it, can be read off the bytes and the grammar.  The grammar gives
the bytes their actions; an action that takes a text fails when the text starts
behind its end, and the asserts behind the machine are about the number of bytes
taken and the length of the last field name.

Main results:

- Theorem `HeaderCall.executeMachine_cases`: a call returns exactly when its
  bytes pass, and what is known of the header behind it is what they say.
-/

namespace Tiger
namespace Http

open Lib.Ragel HTTPRequestParser RequestGrammar

/-! ## What is known of a header -/

/-- What is known of a header: where its texts start, its fields, and whether its
method or its version is refused. -/
structure HeaderRead where
  mark : Nat
  fieldStart : Nat
  fieldLen : Nat
  queryStart : Option Nat
  fields : FieldMap
  refused : Bool

namespace HeaderRead

/-- In front of the first byte. -/
def fresh : HeaderRead := ⟨0, 0, 0, none, [], false⟩

/-- A `std::string` can have this length. -/
def fits (length : Nat) : Bool := decide (length < 2 ^ 62)

/-- The text is one of the two versions. -/
def knownVersion (m : Memory) (start length : Nat) : Bool :=
  strncmpEq m start ['H', 'T', 'T', 'P', '/', '1', '.', '1'] length ||
    strncmpEq m start ['H', 'T', 'T', 'P', '/', '1', '.', '0'] length

/-- The action at position `p` takes no text, or one that a `std::string` can hold. -/
def admits (m : Memory) (p : Nat) (a : RequestAction) (v : HeaderRead) : Bool :=
  match a with
  | .writeValue => decide (v.fieldLen = 0) || fits v.fieldLen && fits (len v.mark p)
  | .requestMethod =>
      decide (charsToHTTPMethod m v.mark ≠ .INVALID_METHOD) || fits (len v.mark p)
  | .fragment => fits (len v.mark p)
  | .queryString => v.queryStart.any fun q => fits (len q p)
  | .httpVersion => knownVersion m v.mark (len v.mark p) || fits (len v.mark p)
  | .requestPath => fits (len v.mark p)
  | _ => true

/-- What is known behind the action at position `p`. -/
def after (m : Memory) (p : Nat) (a : RequestAction) (v : HeaderRead) : HeaderRead :=
  match a with
  | .mark => { v with mark := p }
  | .startValue => { v with mark := p }
  | .startField => { v with fieldStart := p }
  | .writeField => { v with fieldLen := len v.fieldStart p }
  | .startQuery => { v with queryStart := some p }
  | .writeValue =>
      if v.fieldLen = 0 then v
      else { v with fields := v.fields.set (slice m v.fieldStart v.fieldLen)
                                           (slice m v.mark (len v.mark p)) }
  | .requestMethod =>
      if charsToHTTPMethod m v.mark = .INVALID_METHOD then { v with refused := true } else v
  | .httpVersion =>
      if knownVersion m v.mark (len v.mark p) then v else { v with refused := true }
  | _ => v

/-- The tally of the bytes in a buffer. -/
def tally (m : Memory) : Tally RequestAction HeaderRead := ⟨admits m, after m⟩

/-- What the parser has stored of a header. -/
def stored (ps : HTTPRequestParser) : HeaderRead :=
  ⟨ps.mark, ps.fieldStart, ps.fieldLen, ps.queryStart, ps.data.headers, ps.error.isSome⟩

end HeaderRead

open HeaderRead

/-- The parser in front of position `p`: it has stored what is known of the header, and its
offsets lie in front of `p`, or of `bound` as long as they are older. -/
structure Stores (count bound p : Nat) (ps : HTTPRequestParser) (v : HeaderRead) : Prop where
  stored_eq : stored ps = v
  nread_eq : ps.nread = count
  mark_lt : ps.mark < max p bound
  fieldStart_lt : ps.fieldStart < max p bound
  bodyStart_le : ps.bodyStart ≤ max p bound

/-- An action that stores something of the request only keeps the offsets. -/
theorem Stores.of_data {count bound p : Nat} {ps : HTTPRequestParser} {v : HeaderRead}
    (h : Stores count bound p ps v) {data : HTTPRequest}
    {error : Option HTTPParserError} {v' : HeaderRead}
    (hv' : v' = { v with fields := data.headers, refused := error.isSome }) :
    Stores count bound p { ps with data := data, error := error } v' := by
  obtain ⟨rfl, hnread, hmark, hfield, hbody⟩ := h
  exact ⟨hv'.symm, hnread, hmark, hfield, hbody⟩

namespace HTTPRequestParser

/-- Without an action the parser stays as it is. -/
theorem acts_nil (m : Memory) (p : Nat) (ps : HTTPRequestParser) : acts m p [] ps = some ps := rfl

/-- The request parser executes the actions of its machine. -/
def executor (m : Memory) : Executor RequestAction HTTPRequestParser where
  byteAt := m
  stop := .done
  threads := cs
  goto t ps := { ps with cs := t }
  act := act m
  acts := acts m
  exec := exec m
  threads_goto _ _ := rfl
  acts_nil := acts_nil m
  acts_cons _ _ _ _ := rfl
  exec_zero _ _ := rfl
  exec_fail ht hstep := by simp only [exec, ht, hstep]
  exec_step ht hstep := by
    simp only [exec, ht, hstep, List.contains_iff_mem]

/-! ## Actions -/

section Actions

variable {m : Memory} {count bound p : Nat} {ps : HTTPRequestParser} {v : HeaderRead}

theorem string_of_fits {start length : Nat} (h : fits length = true) :
    string m start length = some (slice m start length) := if_pos (of_decide_eq_true h)

theorem string_of_not_fits {start length : Nat} (h : ¬ fits length = true) :
    string m start length = none := if_neg (mt (decide_eq_true (p := length < 2 ^ 62)) h)

/-- The callback for a header field. -/
theorem onRequestHttpField_tally (h : Stores count bound p ps v) (q : Nat) :
    (admits m q .writeValue v = false ∧ act m q .writeValue ps = none) ∨
      admits m q .writeValue v = true ∧ ∃ ps', act m q .writeValue ps = some ps' ∧
        ps'.cs = ps.cs ∧ Stores count bound p ps' (after m q .writeValue v) := by
  have hstored := h.stored_eq
  subst hstored
  have hact : act m q .writeValue ps =
      onRequestHttpField m ps.fieldStart ps.fieldLen ps.mark (len ps.mark q) ps := rfl
  rw [hact, onRequestHttpField]
  by_cases hempty : ps.fieldLen = 0
  · have hafter : after m q .writeValue (stored ps) = stored ps := if_pos hempty
    rw [if_pos hempty, hafter]
    exact .inr ⟨by simp [admits, stored, hempty], ps, rfl, rfl, h⟩
  · rw [if_neg hempty]
    by_cases hname : fits ps.fieldLen = true
    · by_cases hvalue : fits (len ps.mark q) = true
      · have hafter : after m q .writeValue (stored ps) = { stored ps with
            fields := ps.data.headers.set (slice m ps.fieldStart ps.fieldLen)
              (slice m ps.mark (len ps.mark q)) } := if_neg hempty
        rw [string_of_fits hname, string_of_fits hvalue, hafter]
        exact .inr ⟨by simp [admits, stored, hname, hvalue], _, rfl, rfl, h.of_data rfl⟩
      · rw [string_of_fits hname, string_of_not_fits hvalue]
        exact .inl ⟨by simpa [admits, stored, hempty, hname] using hvalue, rfl⟩
    · rw [string_of_not_fits hname]
      exact .inl ⟨by simp [admits, stored, hempty, hname], rfl⟩

/-- The callback for the method. -/
theorem onRequestMethod_tally (h : Stores count bound p ps v) (q : Nat) :
    (admits m q .requestMethod v = false ∧ act m q .requestMethod ps = none) ∨
      admits m q .requestMethod v = true ∧ ∃ ps', act m q .requestMethod ps = some ps' ∧
        ps'.cs = ps.cs ∧ Stores count bound p ps' (after m q .requestMethod v) := by
  have hstored := h.stored_eq
  subst hstored
  have hact : act m q .requestMethod ps = onRequestMethod m ps.mark (len ps.mark q) ps := rfl
  rw [hact, onRequestMethod]
  by_cases hmethod : charsToHTTPMethod m ps.mark = .INVALID_METHOD
  · have hafter : after m q .requestMethod (stored ps) = { stored ps with refused := true } :=
      if_pos hmethod
    rw [if_pos hmethod, hafter]
    by_cases htext : fits (len ps.mark q) = true
    · rw [string_of_fits htext, Option.map_some]
      exact .inr ⟨by simp [admits, stored, htext], _, rfl, rfl, h.of_data rfl⟩
    · rw [string_of_not_fits htext, Option.map_none]
      exact .inl ⟨by simpa [admits, stored, hmethod] using htext, rfl⟩
  · have hafter : after m q .requestMethod (stored ps) = stored ps := if_neg hmethod
    rw [if_neg hmethod, hafter]
    exact .inr ⟨by simp [admits, stored, hmethod], _, rfl, rfl, h.of_data rfl⟩

/-- The callback for the version. -/
theorem onRequestHttpVersion_tally (h : Stores count bound p ps v) (q : Nat) :
    (admits m q .httpVersion v = false ∧ act m q .httpVersion ps = none) ∨
      admits m q .httpVersion v = true ∧ ∃ ps', act m q .httpVersion ps = some ps' ∧
        ps'.cs = ps.cs ∧ Stores count bound p ps' (after m q .httpVersion v) := by
  have hstored := h.stored_eq
  subst hstored
  have hact : act m q .httpVersion ps = onRequestHttpVersion m ps.mark (len ps.mark q) ps := rfl
  rw [hact, onRequestHttpVersion]
  by_cases hknown : knownVersion m ps.mark (len ps.mark q) = true
  · have hafter : after m q .httpVersion (stored ps) = stored ps := if_pos hknown
    rw [hafter]
    have hadmits : admits m q .httpVersion (stored ps) = true := by simp [admits, stored, hknown]
    rcases Bool.or_eq_true _ _ ▸ hknown with hone | hzero
    · rw [if_pos hone]
      exact .inr ⟨hadmits, _, rfl, rfl, h.of_data rfl⟩
    · rw [if_pos hzero]
      split
      · exact .inr ⟨hadmits, _, rfl, rfl, h.of_data rfl⟩
      · exact .inr ⟨hadmits, _, rfl, rfl, h.of_data rfl⟩
  · have hafter : after m q .httpVersion (stored ps) = { stored ps with refused := true } :=
      if_neg hknown
    rw [knownVersion, Bool.or_eq_true, not_or] at hknown
    rw [if_neg hknown.1, if_neg hknown.2, hafter]
    by_cases htext : fits (len ps.mark q) = true
    · rw [string_of_fits htext, Option.map_some]
      exact .inr ⟨by simp [admits, stored, htext], _, rfl, rfl, h.of_data rfl⟩
    · rw [string_of_not_fits htext, Option.map_none]
      exact .inl ⟨by simpa [admits, stored, knownVersion, hknown] using htext, rfl⟩

/-- A callback that stores a text. -/
theorem string_tally (h : Stores count bound p ps v) (start length : Nat) (f : Text → HTTPRequest)
    (hf : ∀ x, (f x).headers = ps.data.headers) :
    (fits length = false ∧
        (string m start length).map (fun x => { ps with data := f x }) = none) ∨
      fits length = true ∧ ∃ ps',
        (string m start length).map (fun x => { ps with data := f x }) = some ps' ∧
        ps'.cs = ps.cs ∧ Stores count bound p ps' v := by
  have hstored := h.stored_eq
  subst hstored
  by_cases htext : fits length = true
  · rw [string_of_fits htext, Option.map_some]
    refine .inr ⟨htext, _, rfl, rfl, h.of_data ?_⟩
    rw [hf]
    rfl
  · rw [string_of_not_fits htext, Option.map_none]
    exact .inl ⟨Bool.eq_false_iff.mpr htext, rfl⟩

/-- An action of the parser, and what the bytes say of it. -/
theorem act_tally (h : Stores count bound (p + 1) ps v) (a : RequestAction) :
    (admits m p a v = false ∧ act m p a ps = none) ∨
      admits m p a v = true ∧ ∃ ps', act m p a ps = some ps' ∧ ps'.cs = ps.cs ∧
        Stores count bound (p + 1) ps' (after m p a v) := by
  have hstored := h.stored_eq
  have hnread := h.nread_eq
  have hmark := h.mark_lt
  have hfield := h.fieldStart_lt
  have hbody := h.bodyStart_le
  have hp : p < max (p + 1) bound := by omega
  cases a with
  | mark =>
      subst hstored
      exact .inr ⟨rfl, _, rfl, rfl, rfl, hnread, hp, hfield, hbody⟩
  | startValue =>
      subst hstored
      exact .inr ⟨rfl, _, rfl, rfl, rfl, hnread, hp, hfield, hbody⟩
  | startField =>
      subst hstored
      exact .inr ⟨rfl, _, rfl, rfl, rfl, hnread, hmark, hp, hbody⟩
  | writeField =>
      subst hstored
      exact .inr ⟨rfl, _, rfl, rfl, rfl, hnread, hmark, hfield, hbody⟩
  | startQuery =>
      subst hstored
      exact .inr ⟨rfl, _, rfl, rfl, rfl, hnread, hmark, hfield, hbody⟩
  | xml =>
      subst hstored
      exact .inr ⟨rfl, _, rfl, rfl, rfl, hnread, hmark, hfield, hbody⟩
  | json =>
      subst hstored
      exact .inr ⟨rfl, _, rfl, rfl, rfl, hnread, hmark, hfield, hbody⟩
  | requestUri => exact .inr ⟨rfl, _, rfl, rfl, h⟩
  | writeValue => exact onRequestHttpField_tally h p
  | requestMethod => exact onRequestMethod_tally h p
  | httpVersion => exact onRequestHttpVersion_tally h p
  | fragment =>
      subst hstored
      exact string_tally h _ _ (fun x => { ps.data with fragment := x }) fun _ => rfl
  | requestPath =>
      subst hstored
      exact string_tally h _ _ (fun x => { ps.data with path := x }) fun _ => rfl
  | queryString =>
      subst hstored
      cases hq : ps.queryStart with
      | none => exact .inl ⟨by simp [admits, stored, hq], by simp [act, hq]⟩
      | some q =>
          have hact : act m p .queryString ps = onRequestQueryString m q (len q p) ps := by
            simp [act, hq]
          have hadmits : admits m p .queryString (stored ps) = fits (len q p) := by
            simp [admits, stored, hq]
          rw [hact, hadmits]
          exact string_tally h q _ (fun x => { ps.data with query := x }) fun _ => rfl
  | done =>
      subst hstored
      by_cases hsent : (ps.xmlSent || ps.jsonSent) = true
      · refine .inr ⟨rfl, _, if_pos hsent, rfl, rfl, hnread, hmark, hfield, ?_⟩
        exact hmark.le
      · refine .inr ⟨rfl, _, if_neg hsent, rfl, rfl, hnread, hmark, hfield, ?_⟩
        exact hp

/-- The actions of the parser keep to the tally. -/
theorem executor_keeps (m : Memory) (count bound limit : Nat) :
    (executor m).Keeps (tally m) limit (Stores count bound) where
  enter _ h := ⟨h.stored_eq, h.nread_eq, h.mark_lt.trans_le (by omega),
    h.fieldStart_lt.trans_le (by omega), h.bodyStart_le.trans (by omega)⟩
  fail h := ⟨h.stored_eq, h.nread_eq, h.mark_lt, h.fieldStart_lt, h.bodyStart_le⟩
  act a _ h := act_tally h a

end Actions

end HTTPRequestParser

/-! ## Calls -/

/-- A call of the parser: the buffer with the text, the state of the machine, what is known of the
header, and how many bytes the calls before have taken. -/
structure HeaderCall where
  memory : Memory
  threads : List E
  known : HeaderRead
  taken : Nat
  text : Text

namespace HeaderCall

variable (c : HeaderCall)

/-- How far the grammar gets in the text. -/
def scan : Scan RequestAction := Lib.Ragel.scan .done c.threads c.text

/-- The actions that the grammar gives the text. -/
def actions : List (Nat × RequestAction) := trace .done 0 c.threads c.text

/-- What is known of the header behind the call. -/
def read : HeaderRead := (tally c.memory).behind c.actions c.known

/-- How many bytes the calls have taken behind this one. -/
def count : Nat := c.taken + c.scan.taken c.text.length

/-- All texts that the actions take fit into a string, and neither the bytes that all calls have
taken nor the last name of a field are longer than the text of this call. -/
def Passes : Prop :=
  (tally c.memory).admitsAll c.actions c.known = true ∧ c.count ≤ c.text.length ∧
    c.read.fieldLen ≤ c.text.length

instance : Decidable c.Passes := inferInstanceAs (Decidable (_ ∧ _ ∧ _))

/-- The parser in front of the call. -/
def Before (ps : HTTPRequestParser) : Prop :=
  ps.cs = some c.threads ∧ Stores c.taken (max 1 c.taken) 0 ps c.known

/-- The parser behind the call. -/
def Behind (ps : HTTPRequestParser) : Prop :=
  ps.cs = c.scan.threads ∧ Stores c.count (max 1 c.count) 0 ps c.read

variable {c}

/-- The call returns exactly when it passes, and then it leaves what the bytes say. -/
theorem executeMachine_cases {ps : HTTPRequestParser} (hpos : 0 < c.text.length)
    (htext : slice c.memory 0 c.text.length = c.text) (h : c.Before ps) :
    (¬ c.Passes ∧ ∀ nparse ps', executeMachine c.memory c.text.length ps ≠ .ok nparse ps') ∨
      c.Passes ∧ ∃ ps', executeMachine c.memory c.text.length ps = .ok c.count ps' ∧
        c.Behind ps' := by
  obtain ⟨hcs, hstores⟩ := h
  have hat : ∀ i < c.text.length, c.text[i]? = some ((executor c.memory).byteAt (0 + i)) := by
    intro i hi
    have hbyte := slice_getElem? c.memory 0 c.text.length i hi
    rwa [htext] at hbyte
  have hcases := Executor.exec_tally
    (executor_keeps c.memory c.taken (max 1 c.taken) c.text.length) hcs hat (by omega) hstores
  simp only [Nat.zero_add] at hcases
  change (tally c.memory).admitsAll c.actions c.known = false ∧
      exec c.memory c.text.length 0 ps = none ∨
    (tally c.memory).admitsAll c.actions c.known = true ∧ ∃ ps',
      exec c.memory c.text.length 0 ps = some (c.scan.taken c.text.length, ps') ∧
      ps'.cs = c.scan.threads ∧
      Stores c.taken (max 1 c.taken) (c.scan.taken c.text.length) ps' c.read at hcases
  rw [executeMachine, if_neg (by omega)]
  rcases hcases with ⟨hbad, hexec⟩
    | ⟨hgood, ps₁, hexec, hcs₁, hstored, hnread, hmark, hfield, hbody⟩
  · refine .inl ⟨fun hpass => absurd hpass.1 (by simp [hbad]), ?_⟩
    intro nparse ps'
    simp [hexec]
  · have hcount : ps₁.nread + c.scan.taken c.text.length = c.count := by rw [hnread, count]
    have hlen : ps₁.fieldLen = c.read.fieldLen := by rw [← hstored]; rfl
    have hpass : c.Passes ↔ c.count ≤ c.text.length ∧ c.read.fieldLen ≤ c.text.length :=
      ⟨fun h => h.2, fun h => ⟨hgood, h⟩⟩
    have hfront : max (c.scan.taken c.text.length) (max 1 c.taken) ≤ max 1 c.count := by
      rw [count]
      omega
    simp only [hexec, hcount]
    by_cases hassert : AssertsHold { ps₁ with nread := c.count } c.text.length
    · rw [if_pos hassert]
      obtain ⟨hle, -, -, hname, -⟩ := hassert
      refine .inr ⟨hpass.mpr ⟨hle, hlen ▸ hname⟩, _, rfl, hcs₁, hstored, rfl, ?_, ?_, ?_⟩
      · exact hmark.trans_le (by omega)
      · exact hfield.trans_le (by omega)
      · exact hbody.trans (by omega)
    · rw [if_neg hassert]
      refine .inl ⟨fun h => hassert ?_, by simp⟩
      obtain ⟨hle, hname⟩ := hpass.mp h
      refine ⟨hle, ?_, ?_, ?_, ?_⟩
      · exact hbody.trans (by omega)
      · exact hmark.trans_le (by omega)
      · exact hlen ▸ hname
      · exact hfield.trans_le (by omega)

end HeaderCall

end Http
end Tiger
