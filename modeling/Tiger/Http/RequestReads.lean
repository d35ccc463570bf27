import Tiger.Http.Dump
import Tiger.Http.FieldMap
import Tiger.Http.RequestTrace
import Tiger.Http.RequestRun
import Tiger.Lib.Runner

/-!
# HTTP - reading the parts of a request text

What the callbacks of the request parser make of a text that the machine takes part by part:
where a part starts and ends, its callback is given exactly its bytes.

Main results:

- Theorem `reads_takes`: a part of the text, with the actions on its first byte.
- Theorem `reads_requestLine`: the request line.
- Theorem `reads_headerLine`, `reads_headerLines`: header lines set header fields.
-/

namespace Tiger
namespace Http

open Lib.Ragel HTTPRequestParser RequestGrammar

/-! ## Texts in a buffer -/

/-- The string at the text. -/
theorem string_at {m : Memory} {p : Nat} {xs : Text} (hat : At m p xs)
    (hsmall : xs.length < 2 ^ 62) : string m p xs.length = some xs := by
  rw [string, if_pos hsmall]
  exact congrArg some hat

theorem len_add {p n : Nat} (hsmall : p + n < 2 ^ 62) : len p (p + n) = n := by
  rw [len_of_le (by omega) hsmall, Nat.add_sub_cancel_left]

/-! ## Reading -/

namespace HTTPRequestParser

/-- The parser takes the bytes of the text, which stands at position `p`. -/
def Reads (m : Memory) (p : Nat) (xs : Text) (ps ps' : HTTPRequestParser) : Prop :=
  ∀ n, exec m (n + xs.length) p ps = exec m n (p + xs.length) ps'

variable {m : Memory} {p : Nat} {xs ys : Text} {ps ps₁ ps₂ : HTTPRequestParser}
  {threads threads' : List E} {as : List RequestAction}

/-- An action leaves the machine state alone and does not look at it. -/
theorem act_cs (m : Memory) (p : Nat) (a : RequestAction) (ps : HTTPRequestParser)
    (cs : Option (List E)) :
    act m p a { ps with cs := cs } = (act m p a ps).map fun ps' => { ps' with cs := cs } := by
  cases a with
  | writeValue =>
      simp only [act, onRequestHttpField]
      split
      · rfl
      · split <;> simp_all
  | requestMethod =>
      simp only [act, onRequestMethod]
      split
      · simp only [Option.map_map]
        rfl
      · rfl
  | fragment =>
      simp only [act, onRequestFragment, Option.map_map]
      rfl
  | queryString =>
      simp only [act, onRequestQueryString]
      cases ps.queryStart with
      | none => rfl
      | some q =>
          simp only [Option.bind_some, Option.map_map]
          rfl
  | httpVersion =>
      simp only [act, onRequestHttpVersion]
      split
      · rfl
      · split
        · rfl
        · simp only [Option.map_map]
          rfl
  | requestPath =>
      simp only [act, onRequestPath, Option.map_map]
      rfl
  | done =>
      simp only [act]
      by_cases hsent : (ps.xmlSent || ps.jsonSent) = true
      · rw [if_pos hsent, if_pos hsent, Option.map_some]
      · rw [if_neg hsent, if_neg hsent, Option.map_some]
  | mark => rfl
  | startField => rfl
  | writeField => rfl
  | startValue => rfl
  | requestUri => rfl
  | startQuery => rfl
  | xml => rfl
  | json => rfl

/-- The actions do not look at the state of the machine. -/
theorem acts_cs (m : Memory) (p : Nat) (as : List RequestAction) (ps : HTTPRequestParser)
    (cs : Option (List E)) :
    acts m p as { ps with cs := cs } = (acts m p as ps).map fun ps' => { ps' with cs := cs } := by
  induction as generalizing ps with
  | nil => rfl
  | cons a as ih =>
      rw [acts, acts, act_cs]
      cases hact : act m p a ps with
      | none => rfl
      | some ps₁ => exact ih ps₁

/-- A byte that does not end the message is one step of `exec`. -/
theorem exec_step {n : Nat} (hcs : ps.cs = some threads)
    (hstep : step threads (m p) = some (as, threads')) (hdone : .done ∉ as)
    (hacts : acts m p as ps = some ps₁) :
    exec m (n + 1) p ps = exec m n (p + 1) { ps₁ with cs := some threads' } := by
  rw [exec, hcs]
  simp only [hstep, acts_cs, hacts, Option.map_some, Option.bind_some]
  rw [if_neg (by simpa using hdone)]

/-- Without a way on the machine stops in its error state. -/
theorem exec_fail {n : Nat} (hcs : ps.cs = some threads) (hstep : step threads (m p) = none) :
    exec m (n + 1) p ps = some (p, { ps with cs := none }) := by
  rw [exec, hcs]
  simp only [hstep]

/-- The parser as one that runs its machine over a buffer. -/
def runner (m : Memory) :
    Runner RequestAction HTTPRequestParser (Option (Nat × HTTPRequestParser)) where
  byteAt := m
  exec := exec m
  threads ps := ps.cs
  goto t ps := { ps with cs := some t }
  acts := acts m
  stop := .done
  threads_goto _ _ := rfl
  goto_self t ps h := by rw [← h]
  goto_goto _ _ _ := rfl
  acts_nil _ _ := rfl
  exec_step hcs hstep hdone hacts := exec_step hcs hstep hdone hacts

theorem Reads.refl : Reads m p [] ps ps := fun _ => rfl

theorem Reads.append (hxs : Reads m p xs ps ps₁) (hys : Reads m (p + xs.length) ys ps₁ ps₂) :
    Reads m p (xs ++ ys) ps ps₂ :=
  Runner.Reads.append (r := runner m) hxs hys

theorem Reads.exec_append (hxs : Reads m p xs ps ps₁) :
    exec m (xs ++ ys).length p ps = exec m ys.length (p + xs.length) ps₁ :=
  Runner.Reads.exec_append (r := runner m) hxs

/-- A part of the text, with the actions on its first byte. -/
theorem reads_takes (hcs : ps.cs = some threads) (hat : At m p xs)
    (h : takes threads xs = some (as, threads')) (hdone : .done ∉ as)
    (hacts : acts m p as ps = some ps₁) :
    Reads m p xs ps { ps₁ with cs := some threads' } :=
  Runner.reads_takes (r := runner m) hcs hat.getElem? h hdone hacts

/-- The parser is in a state of its machine, without an error, and has this request. -/
structure Reading (threads : List E) (d : HTTPRequest) (ps : HTTPRequestParser) : Prop where
  cs : ps.cs = some threads
  data : ps.data = d
  ok : ps.error = none

/-- A part of the text that is read while the request stays as it is. -/
theorem Reading.takes {d d' : HTTPRequest} (h : Reading threads d ps) (hat : At m p xs)
    (htakes : takes threads xs = some (as, threads')) (hdone : .done ∉ as)
    (hacts : acts m p as ps = some ps₁) (hdata : ps₁.data = d') (hok : ps₁.error = none) :
    ∃ ps', Reads m p xs ps ps' ∧ ps' = { ps₁ with cs := some threads' } ∧
      Reading threads' d' ps' :=
  ⟨_, reads_takes h.cs hat htakes hdone hacts, rfl, rfl, hdata, hok⟩

/-! ## Header lines -/

/-- A value as the parser reads it. -/
def Clean (v : Text) : Prop := v = [] ∨ isFieldValue v = true

/-- The name and the value are those of a header line. -/
def IsField (e : Text × Text) : Prop :=
  isFieldName e.1 = true ∧ isLineStart e.1 = false ∧ Clean e.2

/-- A field name is not empty. -/
theorem isFieldName_pos {s : Text} (h : isFieldName s = true) : 0 < s.length := by
  cases s with
  | nil => simp [isFieldName] at h
  | cons c s => simp

/-- The parser is in front of a value, and the name was read. -/
structure Named (m : Memory) (name : Text) (d : HTTPRequest) (ps : HTTPRequestParser) : Prop where
  reading : Reading HeaderState.space.threads d ps
  pos : 0 < ps.fieldLen
  name : string m ps.fieldStart ps.fieldLen = some name

/-- A name is from the first byte of the line to the colon. -/
theorem reads_name {d : HTTPRequest} {name : Text} (hname : isFieldName name = true)
    (hstart : isLineStart name = false) (h : Reading HeaderState.top.threads d ps)
    (hat : At m p (name ++ ([58] ++ [32]))) (hsmall : p + name.length < 2 ^ 62) :
    ∃ ps', Reads m p (name ++ ([58] ++ [32])) ps ps' ∧ Named m name d ps' := by
  rcases at_append.mp hat with ⟨hatName, hat⟩
  rcases at_append.mp hat with ⟨hatColon, hatSpace⟩
  rcases takes_name hname hstart with ⟨q, hq, htakes⟩
  rcases h.takes hatName htakes (by simp) rfl h.data h.ok with ⟨ps₁, hreads₁, rfl, hps₁⟩
  rcases hps₁.takes hatColon (takes_colon hq) (by simp) rfl h.data h.ok with
    ⟨ps₂, hreads₂, rfl, hps₂⟩
  rcases hps₂.takes hatSpace (takes_single (HeaderState.step_does rfl)) (by simp) rfl h.data h.ok
    with ⟨ps₃, hreads₃, rfl, hps₃⟩
  have hlen := len_add hsmall
  refine ⟨_, hreads₁.append (hreads₂.append hreads₃), hps₃, ?_, ?_⟩
  · change 0 < len p (p + name.length)
    rw [hlen]
    exact isFieldName_pos hname
  · change string m p (len p (p + name.length)) = some name
    rw [hlen, string_at hatName (by omega)]

/-- `write_value` sets the header field. -/
theorem act_writeValue (ps : HTTPRequestParser) {name value : Text} (hpos : 0 < ps.fieldLen)
    (hname : string m ps.fieldStart ps.fieldLen = some name)
    (hvalue : string m ps.mark (len ps.mark p) = some value) :
    act m p .writeValue ps =
      some { ps with data := { ps.data with headers := ps.data.headers.set name value } } := by
  rw [act, onRequestHttpField, if_neg (by omega), hname, hvalue]

/-- A value is from its first byte that is no blank to the end of the line. -/
theorem Named.reads_value {d : HTTPRequest} {name value : Text} (h : Named m name d ps)
    (hvalue : isFieldValue value = true) (hat : At m p (value ++ ([13] ++ [10])))
    (hsmall : p + value.length < 2 ^ 62) :
    ∃ ps', Reads m p (value ++ ([13] ++ [10])) ps ps' ∧
      Reading HeaderState.top.threads { d with headers := d.headers.set name value } ps' := by
  rcases at_append.mp hat with ⟨hatValue, hat⟩
  rcases at_append.mp hat with ⟨hatReturn, hatFeed⟩
  rcases takes_value hvalue with ⟨q, hq, htakes⟩
  rcases h.reading.takes hatValue htakes (by simp) rfl h.reading.data h.reading.ok with
    ⟨ps₁, hreads₁, rfl, hps₁⟩
  have hacts : acts m (p + value.length) [.writeValue] { ps with mark := p, cs := some q.threads } =
      some { ps with
        mark := p, cs := some q.threads
        data := { d with headers := d.headers.set name value } } := by
    have hstring : string m p (len p (p + value.length)) = some value := by
      rw [len_add hsmall, string_at hatValue (by omega)]
    rw [acts, act_writeValue { ps with mark := p, cs := some q.threads } h.pos h.name hstring,
      ← h.reading.data]
    rfl
  rcases hps₁.takes hatReturn (takes_valueEnd hq) (by simp) hacts rfl h.reading.ok with
    ⟨ps₂, hreads₂, rfl, hps₂⟩
  rcases hps₂.takes hatFeed (takes_single (HeaderState.step_does rfl)) (by simp) rfl rfl
    h.reading.ok with ⟨ps₃, hreads₃, -, hps₃⟩
  exact ⟨ps₃, hreads₁.append (hreads₂.append hreads₃), hps₃⟩

/-- An end of line in front of a value gives an empty one. -/
theorem Named.takes_empty {d : HTTPRequest} {name : Text} {c : UInt8} {q : HeaderState}
    (h : Named m name d ps) (hdoes : HeaderState.space.does (kindOf c) =
      some ([.startValue, .writeValue], q)) (hat : At m p [c]) (hsmall : p < 2 ^ 62) :
    ∃ ps', Reads m p [c] ps ps' ∧
      Reading q.threads { d with headers := d.headers.set name [] } ps' := by
  have hacts : acts m p [.startValue, .writeValue] ps =
      some { ps with mark := p, data := { d with headers := d.headers.set name [] } } := by
    have hstring : string m p (len p p) = some [] := by
      rw [show len p p = 0 from len_add (n := 0) hsmall]
      rfl
    rw [acts, act, Option.bind_some, acts,
      act_writeValue { ps with mark := p } h.pos h.name hstring, ← h.reading.data]
    rfl
  rcases h.reading.takes hat (takes_single (HeaderState.step_does hdoes)) (by simp) hacts rfl
    h.reading.ok with ⟨ps₁, hreads, -, hps₁⟩
  exact ⟨ps₁, hreads, hps₁⟩

theorem headerLine_eq (e : Text × Text) :
    headerLine e = (e.1 ++ ([58] ++ [32])) ++ (e.2 ++ ([13] ++ [10])) := by
  simp only [headerLine, List.append_assoc]

/-- A value and the end of its line. -/
theorem Named.reads_clean {d : HTTPRequest} {name value : Text} (h : Named m name d ps)
    (hvalue : Clean value) (hat : At m p (value ++ ([13] ++ [10])))
    (hsmall : p + value.length < 2 ^ 62) :
    ∃ ps', Reads m p (value ++ ([13] ++ [10])) ps ps' ∧
      Reading HeaderState.top.threads { d with headers := d.headers.set name value } ps' := by
  rcases hvalue with rfl | hvalue
  · rcases at_append.mp (show At m p ([13] ++ [10]) from hat) with ⟨hatReturn, hatFeed⟩
    rcases h.takes_empty rfl hatReturn hsmall with ⟨ps₁, hreads₁, hps₁⟩
    rcases hps₁.takes hatFeed (takes_single (HeaderState.step_does rfl)) (by simp) rfl hps₁.data
      hps₁.ok with ⟨ps₂, hreads₂, -, hps₂⟩
    exact ⟨ps₂, hreads₁.append hreads₂, hps₂⟩
  · exact h.reads_value hvalue hat hsmall

/-- A header line sets its header field. -/
theorem reads_headerLine {d : HTTPRequest} {e : Text × Text} (he : IsField e)
    (h : Reading HeaderState.top.threads d ps) (hat : At m p (headerLine e))
    (hsmall : p + (headerLine e).length < 2 ^ 62) :
    ∃ ps', Reads m p (headerLine e) ps ps' ∧
      Reading HeaderState.top.threads { d with headers := d.headers.set e.1 e.2 } ps' := by
  rw [headerLine_eq] at hat hsmall ⊢
  simp only [List.length_append] at hsmall
  rcases at_append.mp hat with ⟨hatName, hatValue⟩
  rcases reads_name he.1 he.2.1 h hatName (by omega) with ⟨ps₁, hreads₁, hps₁⟩
  rcases hps₁.reads_clean he.2.2 hatValue (by simp only [List.length_append]; omega) with
    ⟨ps₂, hreads₂, hps₂⟩
  exact ⟨ps₂, hreads₁.append hreads₂, hps₂⟩

/-- Header lines set their header fields. -/
theorem reads_headerLines {d : HTTPRequest} {es : List (Text × Text)} (hes : ∀ e ∈ es, IsField e)
    (h : Reading HeaderState.top.threads d ps) (hat : At m p (es.flatMap headerLine))
    (hsmall : p + (es.flatMap headerLine).length < 2 ^ 62) :
    ∃ ps', Reads m p (es.flatMap headerLine) ps ps' ∧
      Reading HeaderState.top.threads { d with headers := d.headers.setAll es } ps' := by
  induction es generalizing p d ps with
  | nil => exact ⟨ps, Reads.refl, h⟩
  | cons e es ih =>
      rw [List.flatMap_cons] at hat hsmall ⊢
      rw [List.length_append] at hsmall
      rcases at_append.mp hat with ⟨hatLine, hatRest⟩
      rcases reads_headerLine (hes e List.mem_cons_self) h hatLine (by omega) with
        ⟨ps₁, hreads₁, hps₁⟩
      rcases ih (fun e' he' => hes e' (List.mem_cons_of_mem e he')) hps₁ hatRest (by omega) with
        ⟨ps₂, hreads₂, hps₂⟩
      exact ⟨ps₂, hreads₁.append hreads₂, hps₂⟩

/-! ## The request line -/

/-- No text of a method, with the blank behind it, starts another one or the other way round. -/
def methodClear (e e' : HTTPMethod × List Char) : Bool :=
  !((text e'.2).isPrefixOf (text e.2 ++ [32]) || (text e.2 ++ [32]).isPrefixOf (text e'.2)) ||
    decide (e'.1 = e.1)

private theorem methods_clear : httpMethodMap.all (fun e =>
    !isFieldName (text e.2) || httpMethodMap.all (methodClear e)) = true := by
  decide

/-- A method in front of a blank is found. -/
theorem charsToHTTPMethod_at {e : HTTPMethod × List Char} (he : e ∈ httpMethodMap)
    (htoken : isFieldName (text e.2) = true) (hat : At m p (text e.2 ++ [32])) :
    charsToHTTPMethod m p = e.1 := by
  have hclear := List.all_eq_true.mp methods_clear e he
  rw [htoken, Bool.not_true, Bool.false_or, List.all_eq_true] at hclear
  rw [charsToHTTPMethod]
  cases hfind : httpMethodMap.find? fun e => strncmpEq m p e.2 e.2.length with
  | none =>
      have hself := strncmpEq_iff.mpr (at_append.mp hat).1
      have hnone := List.find?_eq_none.mp hfind e he
      exact absurd hself hnone
  | some e' =>
      have hat' : At m p (text e'.2) :=
        strncmpEq_iff.mp (List.find?_some
          (p := fun e : HTTPMethod × List Char => strncmpEq m p e.2 e.2.length) hfind)
      have hcase := hclear e' (List.mem_of_find?_eq_some hfind)
      rw [methodClear, Bool.or_eq_true, Bool.not_eq_true', Bool.or_eq_false_iff,
        decide_eq_true_eq] at hcase
      rcases hcase with ⟨hshort, hlong⟩ | heq
      · rcases Nat.le_total (text e'.2).length (text e.2 ++ [32]).length with hle | hle
        · have hpre := List.isPrefixOf_iff_prefix.mpr (hat'.isPrefix hat hle)
          rw [hshort] at hpre
          simp at hpre
        · have hpre := List.isPrefixOf_iff_prefix.mpr (hat.isPrefix hat' hle)
          rw [hlong] at hpre
          simp at hpre
      · exact heq

/-- A path of a request target. -/
def isPath (path : Text) : Bool := path.isEmpty || isPathAbsolute path

/-- Behind a part of the target: what leaving it does to the request. -/
structure Leaves (m : Memory) (r : Bool) (p : Nat) (d : HTTPRequest) (q : LineState)
    (as : List RequestAction) (ps : HTTPRequestParser) : Prop where
  reading : ∃ d₀, Reading (q.threads r) d₀ ps
  not_done : .done ∉ as
  acts : ∃ ps', acts m p as ps = some ps' ∧ ps'.data = d ∧ ps'.error = none

/-- A path is set by the actions behind it. -/
theorem reads_path (r : Bool) {d : HTTPRequest} {path : Text} (hpath : isPath path = true)
    (h : Reading (LineState.target.threads r) d ps) (hat : At m p path)
    (hsmall : p + path.length < 2 ^ 62) :
    ∃ ps' q as, Reads m p path ps ps' ∧
      Leaves m r (p + path.length) { d with path := path } q as ps' ∧
      q.next .question = some (as, .question) ∧ q.next .hash = some (as ++ [.requestUri], .hash) ∧
      q.next .blank = some (as ++ [.requestUri], .version) := by
  rcases Bool.or_eq_true_iff.mp hpath with hempty | hpath
  · -- an empty path is marked where it is left
    obtain rfl := List.isEmpty_iff.mp hempty
    refine ⟨ps, .target, [.mark, .requestPath], Reads.refl, ⟨⟨d, h⟩, by simp, ?_⟩, rfl, rfl, rfl⟩
    refine ⟨{ ps with mark := p, data := { d with path := [] } }, ?_, rfl, h.ok⟩
    have hlen : len p (p + 0) = 0 := len_add hsmall
    simp only [HTTPRequestParser.acts, act, onRequestPath, List.length_nil, Nat.add_zero,
      Option.bind_some, h.data] at hlen ⊢
    rw [hlen]
    rfl
  · rcases takes_path r hpath with ⟨q, hq, htakes⟩
    rcases h.takes hat htakes (by simp) rfl h.data h.ok with ⟨ps₁, hreads, rfl, hps₁⟩
    refine ⟨_, q, [.requestPath], hreads, ⟨⟨d, hps₁⟩, by simp, ?_⟩, ?_⟩
    · refine ⟨{ ps with
        cs := some (q.threads r), mark := p, data := { d with path := path } }, ?_, rfl, h.ok⟩
      simp only [HTTPRequestParser.acts, act, onRequestPath, h.data]
      rw [len_add hsmall, string_at hat (by omega)]
      rfl
    · rcases hq with rfl | rfl <;> exact ⟨rfl, rfl, rfl⟩

/-- A byte that leaves a part of the target. -/
theorem Leaves.takes {r : Bool} {d : HTTPRequest} {q q' : LineState} {c : UInt8}
    (h : Leaves m r p d q as ps) (hat : At m p [c]) (hnext : q.next (uriKind c) = some (as, q'))
    (hself : uriRep c = c) :
    ∃ ps', Reads m p [c] ps ps' ∧ Reading (q'.threads r) d ps' := by
  rcases h.reading with ⟨d₀, hreading⟩
  rcases h.acts with ⟨ps', hacts, hdata, hok⟩
  rcases hreading.takes hat (takes_next r hnext hself) h.not_done hacts hdata hok with
    ⟨ps₁, hreads, -, hps₁⟩
  exact ⟨ps₁, hreads, hps₁⟩

/-- `request_uri` has an empty callback. -/
theorem Leaves.requestUri {r : Bool} {d : HTTPRequest} {q : LineState}
    (h : Leaves m r p d q as ps) : Leaves m r p d q (as ++ [.requestUri]) ps := by
  refine ⟨h.reading, by simpa using h.not_done, ?_⟩
  rcases h.acts with ⟨ps', hacts, hps'⟩
  refine ⟨ps', ?_, hps'⟩
  clear h hps'
  induction as generalizing ps with
  | nil =>
      rw [← Option.some.inj hacts]
      rfl
  | cons a as ih =>
      rcases Option.bind_eq_some_iff.mp hacts with ⟨ps₁, hact, hrest⟩
      rw [List.cons_append, HTTPRequestParser.acts, hact, Option.bind_some]
      exact ih hrest

/-- A query is set by the actions behind it. -/
theorem reads_query (r : Bool) {d : HTTPRequest} {query : Text} (hquery : isQuery query = true)
    (hne : query ≠ []) (h : Reading (LineState.question.threads r) d ps) (hat : At m p query)
    (hsmall : p + query.length < 2 ^ 62) :
    ∃ ps', Reads m p query ps ps' ∧
      Leaves m r (p + query.length) { d with query := query } .query [.queryString] ps' := by
  rcases h.takes hat (takes_query r hquery hne) (by simp) rfl h.data h.ok with
    ⟨ps₁, hreads, rfl, hps₁⟩
  refine ⟨_, hreads, ⟨d, hps₁⟩, by simp, ?_⟩
  refine ⟨{ ps with
    cs := some (LineState.query.threads r), queryStart := some p
    data := { d with query := query } }, ?_, rfl, h.ok⟩
  simp only [HTTPRequestParser.acts, act, onRequestQueryString, Option.bind_some, h.data]
  rw [len_add hsmall, string_at hat (by omega)]
  rfl

/-- A fragment is set by the actions behind it. -/
theorem reads_fragment (r : Bool) {d : HTTPRequest} {fragment : Text}
    (hfragment : isQuery fragment = true) (hne : fragment ≠ [])
    (h : Reading (LineState.hash.threads r) d ps) (hat : At m p fragment)
    (hsmall : p + fragment.length < 2 ^ 62) :
    ∃ ps', Reads m p fragment ps ps' ∧
      Leaves m r (p + fragment.length) { d with fragment := fragment }
        .fragment [.fragment] ps' := by
  rcases h.takes hat (takes_fragment r hfragment hne) (by simp) rfl h.data h.ok with
    ⟨ps₁, hreads, rfl, hps₁⟩
  refine ⟨_, hreads, ⟨d, hps₁⟩, by simp, ?_⟩
  refine ⟨{ ps with
    cs := some (LineState.fragment.threads r), mark := p
    data := { d with fragment := fragment } }, ?_, rfl, h.ok⟩
  simp only [HTTPRequestParser.acts, act, onRequestFragment, h.data]
  rw [len_add hsmall, string_at hat (by omega)]
  rfl

/-- The path and the query, in front of a fragment or a blank. -/
theorem reads_pathAndQuery (r : Bool) {d : HTTPRequest} {path query : Text}
    (hpath : isPath path = true) (hquery : isQuery query = true)
    (h : Reading (LineState.target.threads r) d ps) (hfresh : d.query = [])
    (hat : At m p (path ++ marked 63 query))
    (hsmall : p + (path ++ marked 63 query).length < 2 ^ 62) :
    ∃ ps' q as, Reads m p (path ++ marked 63 query) ps ps' ∧
      Leaves m r (p + (path ++ marked 63 query).length)
        { d with path := path, query := query } q as ps' ∧
      q.next .hash = some (as, .hash) ∧ q.next .blank = some (as, .version) := by
  rw [List.length_append] at hsmall ⊢
  rcases at_append.mp hat with ⟨hatPath, hatRest⟩
  rcases reads_path r hpath h hatPath (by omega) with
    ⟨ps₁, q, as, hreads₁, hleaves, hquestion, hhash, hblank⟩
  by_cases hne : query = []
  · subst hne
    refine ⟨ps₁, q, as ++ [.requestUri], hreads₁.append Reads.refl, ?_, hhash, hblank⟩
    simpa [hfresh] using hleaves.requestUri
  · rw [marked_of_ne hne] at hatRest hsmall ⊢
    rw [List.length_append] at hsmall ⊢
    rcases at_append.mp hatRest with ⟨hatMark, hatQuery⟩
    rcases hleaves.takes hatMark hquestion (by decide) with ⟨ps₂, hreads₂, hps₂⟩
    rcases reads_query r hquery hne hps₂ hatQuery (by omega) with ⟨ps₃, hreads₃, hleaves₃⟩
    refine ⟨ps₃, .query, [.queryString, .requestUri],
      hreads₁.append (hreads₂.append hreads₃), ?_, rfl, rfl⟩
    rw [← Nat.add_assoc, ← Nat.add_assoc]
    exact hleaves₃.requestUri

/-- The target and the blank behind it. -/
theorem reads_target (r : Bool) {d : HTTPRequest} {path query fragment : Text}
    (hpath : isPath path = true) (hquery : isQuery query = true)
    (hfragment : isQuery fragment = true) (h : Reading (LineState.target.threads r) d ps)
    (hfresh : d.query = [] ∧ d.fragment = [])
    (hat : At m p (targetText path query fragment ++ [32]))
    (hsmall : p + (targetText path query fragment).length < 2 ^ 62) :
    ∃ ps', Reads m p (targetText path query fragment ++ [32]) ps ps' ∧
      Reading (LineState.version.threads r)
        { d with path := path, query := query, fragment := fragment } ps' := by
  have htext : targetText path query fragment ++ [32] =
      (path ++ marked 63 query) ++ (marked 35 fragment ++ [32]) := by
    simp only [targetText, List.append_assoc]
  rw [targetText, ← List.append_assoc, List.length_append] at hsmall
  rw [htext] at hat ⊢
  rcases at_append.mp hat with ⟨hatFirst, hatRest⟩
  rcases reads_pathAndQuery r hpath hquery h hfresh.1 hatFirst (by omega) with
    ⟨ps₁, q, as, hreads₁, hleaves, hhash, hblank⟩
  by_cases hne : fragment = []
  · subst hne
    rcases hleaves.takes hatRest hblank (by decide) with ⟨ps₂, hreads₂, hps₂⟩
    refine ⟨ps₂, hreads₁.append hreads₂, ?_⟩
    rw [← hfresh.2]
    exact hps₂
  · rw [marked_of_ne hne] at hatRest hsmall ⊢
    rw [List.append_assoc [35]] at hatRest ⊢
    rw [@List.length_append UInt8 [35]] at hsmall
    rcases at_append.mp hatRest with ⟨hatMark, hatRest⟩
    rcases at_append.mp hatRest with ⟨hatFragment, hatBlank⟩
    rcases hleaves.takes hatMark hhash (by decide) with ⟨ps₂, hreads₂, hps₂⟩
    rcases reads_fragment r hfragment hne hps₂ hatFragment (by omega) with
      ⟨ps₃, hreads₃, hleaves₃⟩
    rcases hleaves₃.takes hatBlank rfl (by decide) with ⟨ps₄, hreads₄, hps₄⟩
    exact ⟨ps₄, hreads₁.append (hreads₂.append (hreads₃.append hreads₄)), hps₄⟩

/-- A version that the grammar knows. -/
def isVersion (version : Nat) : Prop := version = 0x10 ∨ version = 0x11

/-- The version callback stores a version it knows. -/
theorem onRequestHttpVersion_at {version : Nat} (hversion : isVersion version)
    (hat : At m p (printVersion version)) (ps : HTTPRequestParser) :
    onRequestHttpVersion m p 8 ps =
      some { ps with data := { ps.data with version := version } } := by
  rcases hversion with rfl | rfl
  · have hother : ¬strncmpEq m p (versionText '1') (versionText '1').length = true := by
      intro h
      exact absurd ((strncmpEq_iff.mp h).symm.trans hat) (by decide)
    have hsame : strncmpEq m p (versionText '0') (versionText '0').length = true :=
      strncmpEq_iff.mpr hat
    exact (if_neg hother).trans (if_pos hsame)
  · have hsame : strncmpEq m p (versionText '1') (versionText '1').length = true :=
      strncmpEq_iff.mpr hat
    exact if_pos hsame

/-- The version and the end of the request line. -/
theorem reads_version (r : Bool) {d : HTTPRequest} {version : Nat} (hversion : isVersion version)
    (h : Reading (LineState.version.threads r) d ps)
    (hat : At m p (printVersion version ++ ([13] ++ [10]))) (hsmall : p + 8 < 2 ^ 62) :
    ∃ ps', Reads m p (printVersion version ++ ([13] ++ [10])) ps ps' ∧
      Reading HeaderState.top.threads { d with version := version } ps' := by
  have htakes : takes (LineState.version.threads r) (printVersion version) =
      some ([.mark], versionEnd) := by
    rcases hversion with rfl | rfl
    · exact takes_version r (.inl rfl)
    · exact takes_version r (.inr rfl)
  have hlength : (printVersion version).length = 8 := by
    rcases hversion with rfl | rfl <;> decide
  rcases at_append.mp hat with ⟨hatVersion, hatEnd⟩
  rcases at_append.mp hatEnd with ⟨hatReturn, hatFeed⟩
  rcases h.takes hatVersion htakes (by simp) rfl h.data h.ok with ⟨ps₁, hreads₁, rfl, hps₁⟩
  have hset : acts m (p + (printVersion version).length) [.httpVersion]
      { ps with cs := some versionEnd, mark := p } =
      some { ps with cs := some versionEnd, mark := p, data := { d with version := version } } := by
    simp only [acts, act]
    rw [hlength, len_add hsmall, onRequestHttpVersion_at hversion hatVersion, ← h.data]
    rfl
  rcases hps₁.takes hatReturn takes_versionEnd (by simp) hset rfl h.ok with
    ⟨ps₂, hreads₂, rfl, hps₂⟩
  rcases hps₂.takes hatFeed takes_lineReturn (by simp) rfl rfl h.ok with ⟨ps₃, hreads₃, -, hps₃⟩
  exact ⟨ps₃, hreads₁.append (hreads₂.append hreads₃), hps₃⟩

/-- A method and the blank behind it. -/
theorem reads_method (r : Bool) {d : HTTPRequest} {e : HTTPMethod × List Char}
    (he : e ∈ httpMethodMap) (htoken : isFieldName (text e.2) = true)
    (hvalid : e.1 ≠ .INVALID_METHOD)
    (h : Reading (start (main r)) d ps) (hat : At m p (text e.2 ++ [32])) :
    ∃ ps', Reads m p (text e.2 ++ [32]) ps ps' ∧
      Reading (LineState.target.threads r) { d with method := e.1 } ps' := by
  rcases takes_method r he htoken with ⟨threads, htakes, hblank⟩
  rcases at_append.mp hat with ⟨hatMethod, hatBlank⟩
  rcases h.takes hatMethod htakes (by simp) rfl h.data h.ok with ⟨ps₁, hreads₁, rfl, hps₁⟩
  have hset : acts m (p + (text e.2).length) [.requestMethod]
      { ps with cs := some threads, mark := p } =
      some { ps with cs := some threads, mark := p, data := { d with method := e.1 } } := by
    simp only [acts, act, onRequestMethod, charsToHTTPMethod_at he htoken hat, if_neg hvalid,
      h.data, Option.bind_some]
  rcases hps₁.takes hatBlank hblank (by simp) hset rfl h.ok with ⟨ps₂, hreads₂, -, hps₂⟩
  exact ⟨ps₂, hreads₁.append hreads₂, hps₂⟩

/-- The request line as the parser takes it. -/
def lineText (method : Text) (r : OutRequest) : Text :=
  (method ++ [32]) ++ ((targetText r.path r.query r.fragment ++ [32]) ++
    (printVersion r.version ++ ([13] ++ [10])))

/-- The parts of the request line are those of the grammar. -/
structure LineConforms (method : Text) (r : OutRequest) : Prop where
  printed : httpMethodToString r.method = some method
  token : isFieldName method = true
  version : isVersion r.version
  path : isPath r.path = true
  query : isQuery r.query = true
  fragment : isQuery r.fragment = true

/-- The request that a request line gives. -/
def lineRequest (r : OutRequest) : HTTPRequest :=
  { HTTPRequest.fresh with
    method := r.method, path := r.path, query := r.query, fragment := r.fragment
    version := r.version }

/-- The request line. -/
theorem reads_requestLine {env : Env} {r : OutRequest} {method : Text}
    (hline : LineConforms method r) (hat : At m 0 (lineText method r))
    (hsmall : (lineText method r).length < 2 ^ 62) :
    ∃ ps', Reads m 0 (lineText method r) (HTTPRequestParser.init env) ps' ∧
      Reading HeaderState.top.threads (lineRequest r) ps' := by
  rcases Option.map_eq_some_iff.mp hline.printed with ⟨e, hfind, rfl⟩
  have hmethod : e.1 = r.method := by simpa using List.find?_some hfind
  have he := List.mem_of_find?_eq_some hfind
  have hvalid : ∀ e ∈ httpMethodMap, e.1 ≠ .INVALID_METHOD := by decide
  have hinit : Reading (start (main env.uriRelaxed)) HTTPRequest.fresh
      (HTTPRequestParser.init env) := ⟨rfl, rfl, rfl⟩
  rw [lineText] at hat hsmall ⊢
  simp only [List.length_append] at hsmall
  rcases at_append.mp hat with ⟨hatMethod, hatRest⟩
  rcases at_append.mp hatRest with ⟨hatTarget, hatVersion⟩
  rcases reads_method env.uriRelaxed he hline.token (hvalid e he) hinit hatMethod with
    ⟨ps₁, hreads₁, hps₁⟩
  rcases reads_target env.uriRelaxed hline.path hline.query hline.fragment hps₁ ⟨rfl, rfl⟩
    hatTarget (by simp only [List.length_append]; omega) with ⟨ps₂, hreads₂, hps₂⟩
  have hlength : (printVersion r.version).length = 8 := by
    rcases hline.version with hv | hv <;> rw [hv] <;> decide
  rcases reads_version env.uriRelaxed hline.version hps₂ hatVersion
    (by simp only [List.length_append]; omega) with ⟨ps₃, hreads₃, hps₃⟩
  refine ⟨ps₃, hreads₁.append (hreads₂.append hreads₃), ?_⟩
  rw [hmethod] at hps₃
  exact hps₃

/-! ## The end of the header -/

/-- `done` leaves the request alone. -/
theorem act_done (m : Memory) (p : Nat) (ps : HTTPRequestParser) :
    ∃ ps', act m p .done ps = some ps' ∧ ps'.data = ps.data ∧ ps'.error = ps.error := by
  rw [act]
  by_cases hsent : (ps.xmlSent || ps.jsonSent) = true
  · exact ⟨_, if_pos hsent, rfl, rfl⟩
  · exact ⟨_, if_neg hsent, rfl, rfl⟩

/-- A step with `done` ends the call. -/
theorem exec_stop {n : Nat} (hcs : ps.cs = some threads)
    (hstep : step threads (m p) = some (as, threads')) (hdone : .done ∈ as)
    (hacts : acts m p as ps = some ps₁) :
    exec m (n + 1) p ps = some (p + 1, { ps₁ with cs := some threads' }) := by
  rw [exec, hcs]
  simp only [hstep, acts_cs, hacts, Option.map_some, Option.bind_some]
  rw [if_pos (by simpa using hdone)]

/-- The state behind the empty line. -/
def headerDone : List E := [HeaderState.inName, .eps]

private theorem step_nameOrEnd_feed :
    step HeaderState.nameOrEnd.threads 10 = some ([.done], headerDone) := by
  decide

/-- The empty line ends the header. -/
theorem exec_headerEnd {d : HTTPRequest} (n : Nat) (h : Reading HeaderState.top.threads d ps)
    (hat : At m p ([13] ++ [10])) :
    ∃ ps', exec m (n + 2) p ps = some (p + 2, ps') ∧ Reading headerDone d ps' := by
  rcases at_append.mp hat with ⟨hatReturn, hatFeed⟩
  rcases h.takes hatReturn (takes_single (HeaderState.step_does rfl)) (by simp) rfl h.data h.ok with
    ⟨ps₁, hreads, -, hps₁⟩
  have hstep : step HeaderState.nameOrEnd.threads (m (p + 1)) = some ([.done], headerDone) := by
    rw [show m (p + 1) = 10 from (at_cons.mp hatFeed).1]
    exact step_nameOrEnd_feed
  rcases act_done m (p + 1) ps₁ with ⟨ps₂, hact, hdata, hok⟩
  have hacts : acts m (p + 1) [.done] ps₁ = some ps₂ := by
    rw [acts, hact]
    rfl
  refine ⟨{ ps₂ with cs := some headerDone }, ?_, rfl, hdata.trans hps₁.data, hok.trans hps₁.ok⟩
  exact (hreads (n + 1)).trans (exec_stop hps₁.cs hstep (by simp) hacts)

end HTTPRequestParser

end Http
end Tiger
