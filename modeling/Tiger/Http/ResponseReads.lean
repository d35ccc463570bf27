import Tiger.Http.ChunkSize
import Tiger.Http.FieldMap
import Tiger.Http.ResponseTrace
import Tiger.Lib.Runner

/-!
# HTTP - reading the parts of a response text

What the callbacks of the response parser make of a text that the machine takes part by part:
where a part starts and ends, its callback is given exactly its bytes.

Main results:

- Theorem `reads_statusLine`: the status line.
- Theorem `reads_line`: a header line sets its header field.
- Theorem `exec_lastLine`: the empty line ends the header.
-/

namespace Tiger
namespace Http

open Lib.Ragel ResponseGrammar

namespace HTTPResponseParser

/-! ## Running the machine -/

/-- An action leaves the machine state alone and does not look at it. -/
theorem act_cs (m : Memory) (length p : Nat) (a : ResponseAction) (ps : HTTPResponseParser)
    (cs : Option (List E)) :
    act m length p a { ps with cs := cs } =
      (act m length p a ps).map fun ps' => { ps' with cs := cs } := by
  cases a with
  | writeValue =>
      simp only [act, onResponseHttpField]
      split
      · rfl
      · split <;> simp_all
  | reasonPhrase =>
      simp only [act, Option.map_map]
      rfl
  | httpVersion =>
      simp only [act, onResponseHttpVersion]
      split
      · rfl
      · split
        · rfl
        · simp only [Option.map_map]
          rfl
  | mark => rfl
  | startField => rfl
  | writeField => rfl
  | startValue => rfl
  | writeContentLen => rfl
  | writeConnectionClose => rfl
  | statusCode => rfl
  | chunkSize => rfl
  | transChunked => rfl
  | done => rfl

/-- The actions do not look at the state of the machine. -/
theorem acts_cs (m : Memory) (length p : Nat) (as : List ResponseAction) (ps : HTTPResponseParser)
    (cs : Option (List E)) :
    acts m length p as { ps with cs := cs } =
      (acts m length p as ps).map fun ps' => { ps' with cs := cs } := by
  induction as generalizing ps with
  | nil => rfl
  | cons a as ih =>
      rw [acts, acts, act_cs]
      cases hact : act m length p a ps with
      | none => rfl
      | some ps₁ => exact ih ps₁

/-- The parser as one that runs its machine over a buffer. -/
def runner (m : Memory) (length : Nat) :
    Runner ResponseAction HTTPResponseParser (Option (Nat × HTTPResponseParser)) where
  byteAt := m
  exec := exec m length
  threads ps := ps.cs
  goto t ps := { ps with cs := some t }
  acts := acts m length
  stop := .done
  threads_goto _ _ := rfl
  goto_self t ps h := by rw [← h]
  goto_goto _ _ _ := rfl
  acts_nil _ _ := rfl
  exec_step hcs hstep hdone hacts :=
    exec_step hcs hstep (by rw [acts_cs, hacts, Option.map_some]) (by simpa using hdone)

variable {m : Memory} {length p n : Nat} {xs : Text} {ps ps₁ : HTTPResponseParser}
  {t t' : List E} {as : List ResponseAction} {d d' : HTTPResponse}

/-- The parser has this response, and nothing else to report. -/
structure Healthy (d : HTTPResponse) (ps : HTTPResponseParser) : Prop where
  data : ps.data = d
  ok : ps.error = false
  plain : ps.chunked = false
  nread : ps.nread = 0

/-- The parser is in a state of its machine. -/
structure Reading (t : List E) (d : HTTPResponse) (ps : HTTPResponseParser) : Prop
    extends Healthy d ps where
  cs : ps.cs = some t

/-- A part of the text, with the actions on its first byte. -/
theorem Reading.takes (h : Reading t d ps) (length : Nat) (hat : At m p xs)
    (htakes : takes t xs = some (as, t')) (hdone : .done ∉ as)
    (hacts : acts m length p as ps = some ps₁) (hps₁ : Healthy d' ps₁) :
    (runner m length).Reads p xs ps { ps₁ with cs := some t' } ∧
      Reading t' d' { ps₁ with cs := some t' } :=
  ⟨Runner.reads_takes (r := runner m length) h.cs hat.getElem? htakes hdone hacts,
    ⟨hps₁.data, hps₁.ok, hps₁.plain, hps₁.nread⟩, rfl⟩

/-! ## Where the marks are -/

/-- The marks were set in front of position `p`. -/
structure Before (p : Nat) (ps : HTTPResponseParser) : Prop where
  mark : ps.mark ≤ p - 1
  fieldStart : ps.fieldStart ≤ p - 1
  fieldLen : ps.fieldLen ≤ p

theorem Before.succ (h : Before p ps) : Before (p + 1) ps := by
  rcases h with ⟨hmark, hstart, hlen⟩
  exact ⟨by omega, by omega, by omega⟩

theorem len_eq {start p : Nat} (hle : start ≤ p) (hp : p < 2 ^ 62) : len start p = p - start := by
  unfold len toSizeT
  omega

/-- An action at a position sets marks at this position at most. -/
theorem act_before {a : ResponseAction} (h : Before (p + 1) ps) (hp : p < 2 ^ 62)
    (hact : act m length p a ps = some ps₁) : Before (p + 1) ps₁ := by
  have hlen : len ps.fieldStart p ≤ p + 1 := by
    have hstart := h.fieldStart
    rw [len_eq (by omega) hp]
    omega
  cases a with
  | mark =>
      cases hact
      exact ⟨le_rfl, h.fieldStart, h.fieldLen⟩
  | startField =>
      cases hact
      exact ⟨h.mark, le_rfl, h.fieldLen⟩
  | writeField =>
      cases hact
      exact ⟨h.mark, h.fieldStart, hlen⟩
  | startValue =>
      cases hact
      exact ⟨le_rfl, h.fieldStart, h.fieldLen⟩
  | writeValue =>
      simp only [act, onResponseHttpField] at hact
      split at hact
      · cases hact
        exact h
      · split at hact
        · cases hact
          exact ⟨h.mark, h.fieldStart, h.fieldLen⟩
        · simp at hact
  | reasonPhrase =>
      rcases Option.map_eq_some_iff.mp hact with ⟨v, -, rfl⟩
      exact ⟨h.mark, h.fieldStart, h.fieldLen⟩
  | httpVersion =>
      simp only [act, onResponseHttpVersion] at hact
      split at hact
      · cases hact
        exact ⟨h.mark, h.fieldStart, h.fieldLen⟩
      · split at hact
        · cases hact
          exact ⟨h.mark, h.fieldStart, h.fieldLen⟩
        · rcases Option.map_eq_some_iff.mp hact with ⟨v, -, rfl⟩
          exact ⟨h.mark, h.fieldStart, h.fieldLen⟩
  | writeContentLen | writeConnectionClose | statusCode | chunkSize | transChunked | done =>
      cases hact
      exact ⟨h.mark, h.fieldStart, h.fieldLen⟩

/-- The actions at a byte keep the marks in front of it. -/
theorem acts_before (h : Before (p + 1) ps) (hp : p < 2 ^ 62)
    (hacts : acts m length p as ps = some ps₁) : Before (p + 1) ps₁ := by
  induction as generalizing ps with
  | nil =>
      cases hacts
      exact h
  | cons a as ih =>
      rcases Option.bind_eq_some_iff.mp hacts with ⟨ps₂, hact, hrest⟩
      exact ih (act_before h hp hact) hrest

/-- A run sets marks in front of the position where it stops. -/
theorem exec_before {q : Nat} (h : Before p ps) (hp : p + n < 2 ^ 62)
    (hexec : exec m length n p ps = some (q, ps₁)) : Before q ps₁ ∧ q ≤ p + n := by
  induction n generalizing p ps with
  | zero =>
      cases hexec
      exact ⟨h, le_rfl⟩
  | succ n ih =>
      rw [exec] at hexec
      split at hexec
      · cases hexec
        exact ⟨h, Nat.le_add_right _ _⟩
      · split at hexec
        · cases hexec
          exact ⟨⟨h.mark, h.fieldStart, h.fieldLen⟩, Nat.le_add_right _ _⟩
        · next as threads' hstep =>
          rcases Option.bind_eq_some_iff.mp hexec with ⟨ps₂, hacts, hrest⟩
          have hstart : Before (p + 1) { ps with cs := some threads' } :=
            ⟨h.succ.mark, h.succ.fieldStart, h.succ.fieldLen⟩
          have hps₂ := acts_before hstart (by omega) hacts
          split at hrest
          · cases hrest
            exact ⟨hps₂, by omega⟩
          · rcases ih hps₂ (by omega) hrest with ⟨hbefore, hle⟩
            exact ⟨hbefore, by omega⟩

/-! ## Header lines -/

variable {name value : Text} {close counted : Bool}

/-- The string at a text is the text. -/
theorem string_at {xs : Text} (hat : At m p xs) (hsmall : xs.length < 2 ^ 62) :
    string m p xs.length = some xs := by
  rw [string, if_pos hsmall]
  exact congrArg some hat

theorem len_add {k : Nat} (hsmall : p + k < 2 ^ 62) : len p (p + k) = k := by
  rw [len_eq (by omega) hsmall, Nat.add_sub_cancel_left]

/-- The first byte of a line starts its name. -/
theorem acts_lineStart (m : Memory) (length p : Nat) (h : Healthy d ps) (close : Bool) :
    ∃ ps', acts m length p (lineStart close) ps = some ps' ∧ Healthy d ps' ∧
      ps'.fieldStart = p := by
  cases close with
  | true => exact ⟨_, rfl, ⟨h.data, h.ok, h.plain, h.nread⟩, rfl⟩
  | false => exact ⟨_, rfl, ⟨h.data, h.ok, h.plain, h.nread⟩, rfl⟩

/-- `write_value` sets the header field. -/
theorem act_writeValue (length : Nat) (h : Healthy d ps) (hpos : 0 < ps.fieldLen)
    (hname : string m ps.fieldStart ps.fieldLen = some name)
    (hvalue : string m ps.mark (len ps.mark p) = some value) :
    ∃ ps', act m length p .writeValue ps = some ps' ∧
      Healthy { d with headers := d.headers.set name value } ps' := by
  rw [act, onResponseHttpField, if_neg (by omega), hname, hvalue]
  refine ⟨_, rfl, ?_, h.ok, h.plain, h.nread⟩
  rw [h.data]

/-- The end of the line sets its header field. -/
theorem acts_lineEnd (length : Nat) (h : Healthy d ps) (hpos : 0 < ps.fieldLen)
    (hname : string m ps.fieldStart ps.fieldLen = some name)
    (hvalue : string m ps.mark (len ps.mark p) = some value) (counted : Bool) :
    ∃ ps', acts m length p (lineEnd counted) ps = some ps' ∧
      Healthy { d with headers := d.headers.set name value } ps' := by
  cases counted with
  | true =>
      let ps₁ := { ps with contentLen := toInt32 (strtol 10 (cString m ps.mark length)) }
      have hps₁ : Healthy d ps₁ := ⟨h.data, h.ok, h.plain, h.nread⟩
      rcases act_writeValue length hps₁ hpos hname hvalue with
        ⟨ps', hact, hps'⟩
      refine ⟨ps', ?_, hps'⟩
      change (act m length p .writeValue ps₁).bind (acts m length p []) = some ps'
      rw [hact]
      rfl
  | false =>
      rcases act_writeValue length h hpos hname hvalue with ⟨ps', hact, hps'⟩
      refine ⟨ps', ?_, hps'⟩
      change (act m length p .writeValue ps).bind (acts m length p []) = some ps'
      rw [hact]
      rfl

/-- The parser is in front of a value, and the name was read. -/
structure Named (m : Memory) (name : Text) (t : List E) (d : HTTPResponse)
    (ps : HTTPResponseParser) : Prop where
  reading : Reading t d ps
  pos : 0 < ps.fieldLen
  name : string m ps.fieldStart ps.fieldLen = some name

/-- A name is from the first byte of the line to the colon. -/
theorem reads_fieldName (length : Nat) {t₁ t₂ t₃ : List E}
    (hname : takes t name = some (lineStart close, t₁))
    (hcolon : takes t₁ [58] = some ([.writeField], t₂))
    (hblank : takes t₂ [32] = some ([.startValue], t₃)) (hne : name ≠ []) (h : Reading t d ps)
    (hat : At m p (name ++ ([58] ++ [32]))) (hsmall : p + name.length < 2 ^ 62) :
    ∃ ps', (runner m length).Reads p (name ++ ([58] ++ [32])) ps ps' ∧ Named m name t₃ d ps' := by
  have hstart : ∀ close, .done ∉ lineStart close := by decide
  rcases at_append.mp hat with ⟨hatName, hat⟩
  rcases at_append.mp hat with ⟨hatColon, hatBlank⟩
  rcases acts_lineStart m length p h.toHealthy close with
    ⟨ps₁, hacts₁, hps₁, hfieldStart⟩
  rcases h.takes length hatName hname (hstart close) hacts₁ hps₁ with ⟨hreads₁, hreading₁⟩
  rcases hreading₁.takes length hatColon hcolon (by simp) rfl
    ⟨hps₁.data, hps₁.ok, hps₁.plain, hps₁.nread⟩ with ⟨hreads₂, hreading₂⟩
  rcases hreading₂.takes length hatBlank hblank (by simp) rfl
    ⟨hps₁.data, hps₁.ok, hps₁.plain, hps₁.nread⟩ with ⟨hreads₃, hreading₃⟩
  have hlen : len ps₁.fieldStart (p + name.length) = name.length := by
    rw [hfieldStart]
    exact len_add hsmall
  refine ⟨_, hreads₁.append (hreads₂.append hreads₃), hreading₃, ?_, ?_⟩
  · change 0 < len ps₁.fieldStart (p + name.length)
    rw [hlen]
    exact List.length_pos_iff.mpr hne
  · change string m ps₁.fieldStart (len ps₁.fieldStart (p + name.length)) = some name
    rw [hlen, hfieldStart]
    exact string_at hatName (by omega)

/-- A value is from its first byte to the end of the line. -/
theorem Named.reads_fieldValue {t₄ t₅ : List E} (h : Named m name t d ps) (length : Nat)
    (hvalue : takes t value = some ([.startValue], t₄))
    (hreturn : takes t₄ [13] = some (lineEnd counted, t₅)) (hfeed : takes t₅ [10] = some ([], t'))
    (hat : At m p (value ++ ([13] ++ [10]))) (hsmall : p + value.length < 2 ^ 62) :
    ∃ ps', (runner m length).Reads p (value ++ ([13] ++ [10])) ps ps' ∧
      Reading t' { d with headers := d.headers.set name value } ps' := by
  have hend : ∀ counted, .done ∉ lineEnd counted := by decide
  have hps := h.reading.toHealthy
  rcases at_append.mp hat with ⟨hatValue, hat⟩
  rcases at_append.mp hat with ⟨hatReturn, hatFeed⟩
  rcases h.reading.takes length hatValue hvalue (by simp) rfl
    ⟨hps.data, hps.ok, hps.plain, hps.nread⟩ with ⟨hreads₁, hreading₁⟩
  have hstring : string m p (len p (p + value.length)) = some value := by
    rw [len_add hsmall]
    exact string_at hatValue (by omega)
  rcases acts_lineEnd length hreading₁.toHealthy h.pos h.name hstring counted with
    ⟨ps₂, hacts₂, hps₂⟩
  rcases hreading₁.takes length hatReturn hreturn (hend counted) hacts₂ hps₂ with
    ⟨hreads₂, hreading₂⟩
  rcases hreading₂.takes length hatFeed hfeed (by simp) rfl
    ⟨hps₂.data, hps₂.ok, hps₂.plain, hps₂.nread⟩ with ⟨hreads₃, hreading₃⟩
  exact ⟨_, hreads₁.append (hreads₂.append hreads₃), hreading₃⟩

/-- A header line sets its header field. -/
theorem reads_line (length : Nat) (hline : TakesLine t close name value counted t')
    (hne : name ≠ [])
    (h : Reading t d ps) (hat : At m p (headerLine (name, value)))
    (hsmall : p + (headerLine (name, value)).length < 2 ^ 62) :
    ∃ ps', (runner m length).Reads p (headerLine (name, value)) ps ps' ∧
      Reading t' { d with headers := d.headers.set name value } ps' := by
  rcases hline with ⟨t₁, t₂, t₃, t₄, t₅, hname, hcolon, hblank, hvalue, hreturn, hfeed⟩
  have hsplit : headerLine (name, value) =
      (name ++ ([58] ++ [32])) ++ (value ++ ([13] ++ [10])) := by
    simp only [headerLine, List.append_assoc]
  rw [hsplit] at hat hsmall ⊢
  simp only [List.length_append] at hsmall
  rcases at_append.mp hat with ⟨hatName, hatValue⟩
  rcases reads_fieldName length hname hcolon hblank hne h hatName (by omega) with
    ⟨ps₁, hreads₁, hps₁⟩
  rcases hps₁.reads_fieldValue length hvalue hreturn hfeed hatValue
    (by simp only [List.length_append]; omega) with ⟨ps₂, hreads₂, hps₂⟩
  exact ⟨ps₂, hreads₁.append hreads₂, hps₂⟩

/-- The lines of fields that the grammar does not know set their header fields. -/
theorem reads_plainLines (length : Nat) {es : List (Text × Text)}
    (hes : ∀ e ∈ es, isName e.1 = true ∧ isKnown e.1 = false ∧ isValue e.2 = true)
    (h : Reading LinePlace.top.threads d ps) (hat : At m p (es.flatMap headerLine))
    (hsmall : p + (es.flatMap headerLine).length < 2 ^ 62) :
    ∃ ps', (runner m length).Reads p (es.flatMap headerLine) ps ps' ∧
      Reading LinePlace.top.threads { d with headers := d.headers.setAll es } ps' := by
  induction es generalizing p d ps with
  | nil => exact ⟨ps, Runner.Reads.refl, h⟩
  | cons e es ih =>
      rw [List.flatMap_cons] at hat hsmall ⊢
      rw [List.length_append] at hsmall
      rcases at_append.mp hat with ⟨hatLine, hatRest⟩
      obtain ⟨name, value⟩ := e
      rcases hes (name, value) List.mem_cons_self with ⟨hname, hunknown, hvalue⟩
      simp only at hname hunknown hvalue
      have hne : name ≠ [] := by
        rintro rfl
        simp [isName] at hname
      rcases reads_line length (plain_line hname hunknown hvalue) hne h hatLine (by omega) with
        ⟨ps₁, hreads₁, hps₁⟩
      rcases ih (fun e' he' => hes e' (List.mem_cons_of_mem _ he')) hps₁ hatRest (by omega) with
        ⟨ps₂, hreads₂, hps₂⟩
      exact ⟨ps₂, hreads₁.append hreads₂, hps₂⟩

/-! ## The status -/

/-- `strtol` reads a printed number in front of a blank. -/
theorem strtol_printNat {k : Nat} (hk : k < 2 ^ 63) (rest : Text) :
    strtol 10 (printNat k ++ 32 :: rest) = k := by
  rw [strtol_ten (printNat_ne_nil k) (fun _ => printNat_digit) (by rwa [digitsValue_printNat]),
    digitsValue_printNat]
  rintro c ⟨⟩
  decide

/-- The C string that starts with a printed number and a blank. -/
theorem cString_printNat {k : Nat} (hat : At m p (printNat k ++ [32]))
    (hlen : p + (printNat k).length + 1 ≤ length) :
    ∃ rest, cString m p length = printNat k ++ 32 :: rest := by
  have hnonzero : ∀ c ∈ printNat k, (c != 0) = true := by
    intro c hc
    simpa using (digit_plain (printNat_digit hc)).2.2.2.1
  refine ⟨(slice m (p + (printNat k ++ [32]).length)
    (length - p - (printNat k ++ [32]).length)).takeWhile (· != 0), ?_⟩
  have hsplit : length - p =
      (printNat k ++ [32]).length + (length - p - (printNat k ++ [32]).length) := by
    simp only [List.length_append, List.length_singleton]
    omega
  rw [cString, hsplit, slice_add, hat, List.append_assoc,
    List.takeWhile_append_of_pos hnonzero, List.singleton_append, List.takeWhile_cons,
    if_pos (by decide), ← hsplit]

/-- A status survives its conversion to `uint32_t` and back. -/
theorem toInt32_status {status : Int} (hlow : -2 ^ 31 ≤ status) (hhigh : status < 2 ^ 31) :
    toInt32 ((status % 2 ^ 32).toNat : Nat) = status := by
  rw [Int.toNat_of_nonneg (Int.emod_nonneg _ (by norm_num)), toInt32]
  have hmod := Int.emod_bmod status (2 ^ 32)
  rw [Nat.cast_pow, Nat.cast_ofNat] at hmod
  rw [hmod, Int.bmod_eq_of_le] <;> omega

/-- A printed number is a number. -/
theorem isNumber_printNat (k : Nat) : isNumber (printNat k) = true := by
  rw [isNumber, Bool.and_eq_true, List.all_eq_true]
  refine ⟨by simpa using printNat_ne_nil k, ?_⟩
  intro c hc
  have hdigit := printNat_digit hc
  simp [digit, ByteClass.mem, hdigit]

/-! ## The status line -/

/-- The version callback stores a version it knows. -/
theorem onResponseHttpVersion_at {version : Nat} (hversion : version = 0x10 ∨ version = 0x11)
    (hat : At m p (printVersion version)) (ps : HTTPResponseParser) :
    onResponseHttpVersion m p 8 ps =
      some { ps with data := { ps.data with version := version } } := by
  rcases hversion with rfl | rfl
  · have hother : ¬strncmpEq m p ['H', 'T', 'T', 'P', '/', '1', '.', '1'] 8 = true := by
      intro h
      have hat' := strncmpEq_iff.mp (show strncmpEq m p ['H', 'T', 'T', 'P', '/', '1', '.', '1']
        ['H', 'T', 'T', 'P', '/', '1', '.', '1'].length = true from h)
      exact absurd (hat'.symm.trans hat) (by decide)
    have hsame : strncmpEq m p ['H', 'T', 'T', 'P', '/', '1', '.', '0'] 8 = true :=
      strncmpEq_iff.mpr hat
    rw [onResponseHttpVersion, if_neg hother, if_pos hsame]
  · have hsame : strncmpEq m p ['H', 'T', 'T', 'P', '/', '1', '.', '1'] 8 = true :=
      strncmpEq_iff.mpr hat
    rw [onResponseHttpVersion, if_pos hsame]

/-- The version and the blank behind it. -/
theorem reads_version (length : Nat) {version : Nat} (hversion : version = 0x10 ∨ version = 0x11)
    (h : Reading (start main) d ps) (hat : At m p (printVersion version ++ [32]))
    (hsmall : p + 8 < 2 ^ 62) :
    ∃ ps', (runner m length).Reads p (printVersion version ++ [32]) ps ps' ∧
      Reading LinePlace.code.threads { d with version := version } ps' := by
  have hlength : (printVersion version).length = 8 := by
    rcases hversion with rfl | rfl <;> decide
  rcases at_append.mp hat with ⟨hatVersion, hatBlank⟩
  rcases h.takes length hatVersion (takes_httpVersion hversion) (by simp) rfl
    ⟨h.data, h.ok, h.plain, h.nread⟩ with ⟨hreads₁, hreading₁⟩
  have hset : acts m length (p + (printVersion version).length) [.httpVersion]
      { ps with mark := p, cs := some versionDone } =
      some { ps with
        mark := p, cs := some versionDone
        data := { d with version := version } } := by
    simp only [acts, act]
    rw [hlength, len_add hsmall, onResponseHttpVersion_at hversion hatVersion, ← h.data]
    rfl
  rcases hreading₁.takes length hatBlank (takes_single step_versionDone) (by simp) hset
    ⟨rfl, h.ok, h.plain, h.nread⟩ with ⟨hreads₂, hreading₂⟩
  exact ⟨_, hreads₁.append hreads₂, hreading₂⟩

/-- The status code and the blank behind it. -/
theorem reads_statusCode {k : Nat} (hk : k < 2 ^ 63) (h : Reading LinePlace.code.threads d ps)
    (hat : At m p (printNat k ++ [32])) (hlen : p + (printNat k).length + 1 ≤ length) :
    ∃ ps', (runner m length).Reads p (printNat k ++ [32]) ps ps' ∧
      Reading LinePlace.reason.threads { d with status := toInt32 k } ps' := by
  rcases at_append.mp hat with ⟨hatCode, hatBlank⟩
  rcases h.takes length hatCode (LinePlace.takes_number (isNumber_printNat k) rfl rfl) (by simp) rfl
    ⟨h.data, h.ok, h.plain, h.nread⟩ with ⟨hreads₁, hreading₁⟩
  have hvalue : strtol 10 (cString m p length) = k := by
    rcases cString_printNat hat hlen with ⟨rest, hstring⟩
    rw [hstring, strtol_printNat hk]
  have hset : acts m length (p + (printNat k).length) [.statusCode]
      { ps with mark := p, cs := some LinePlace.inCode.threads } =
      some { ps with
        mark := p, cs := some LinePlace.inCode.threads, status := toInt32 k
        data := { d with status := toInt32 k } } := by
    simp only [acts, act, Option.bind_some]
    rw [hvalue, ← h.data]
  rcases hreading₁.takes length hatBlank (takes_single (LinePlace.step_next rfl)) (by simp) hset
    ⟨rfl, h.ok, h.plain, h.nread⟩ with ⟨hreads₂, hreading₂⟩
  exact ⟨_, hreads₁.append hreads₂, hreading₂⟩

/-- The reason and the end of the status line. -/
theorem reads_reason (length : Nat) {reason : Text} (hreason : isReason reason = true)
    (h : Reading LinePlace.reason.threads d ps) (hat : At m p (reason ++ ([13] ++ [10])))
    (hsmall : p + reason.length < 2 ^ 62) :
    ∃ ps', (runner m length).Reads p (reason ++ ([13] ++ [10])) ps ps' ∧
      Reading LinePlace.top.threads { d with reason := reason } ps' := by
  rcases at_append.mp hat with ⟨hatReason, hatEnd⟩
  rcases at_append.mp hatEnd with ⟨hatReturn, hatFeed⟩
  rcases h.takes length hatReason (takes_reason hreason) (by simp) rfl
    ⟨h.data, h.ok, h.plain, h.nread⟩ with ⟨hreads₁, hreading₁⟩
  have hset : acts m length (p + reason.length) [.reasonPhrase]
      { ps with mark := p, cs := some LinePlace.inReason.threads } =
      some { ps with
        mark := p, cs := some LinePlace.inReason.threads
        data := { d with reason := reason } } := by
    simp only [acts, act]
    rw [len_add hsmall, string_at hatReason (by omega), ← h.data]
    rfl
  rcases hreading₁.takes length hatReturn (takes_single (LinePlace.step_next rfl)) (by simp) hset
    ⟨rfl, h.ok, h.plain, h.nread⟩ with ⟨hreads₂, hreading₂⟩
  rcases hreading₂.takes length hatFeed (takes_single (LinePlace.step_next rfl)) (by simp) rfl
    ⟨rfl, h.ok, h.plain, h.nread⟩ with ⟨hreads₃, hreading₃⟩
  exact ⟨_, hreads₁.append (hreads₂.append hreads₃), hreading₃⟩

/-- The status line as the parser takes it. -/
def statusText (version k : Nat) (reason : Text) : Text :=
  (printVersion version ++ [32]) ++ ((printNat k ++ [32]) ++ (reason ++ ([13] ++ [10])))

/-- The status line. -/
theorem reads_statusLine {version k : Nat} {reason : Text}
    (hversion : version = 0x10 ∨ version = 0x11) (hk : k < 2 ^ 63)
    (hreason : isReason reason = true)
    (h : Reading (start main) d ps) (hat : At m 0 (statusText version k reason))
    (hlen : (statusText version k reason).length ≤ length) (hsmall : length < 2 ^ 62) :
    ∃ ps', (runner m length).Reads 0 (statusText version k reason) ps ps' ∧
      Reading LinePlace.top.threads
        { d with version := version, status := toInt32 k, reason := reason } ps' := by
  rw [statusText] at hat hlen ⊢
  rcases at_append.mp hat with ⟨hatVersion, hatRest⟩
  rcases at_append.mp hatRest with ⟨hatCode, hatReason⟩
  simp only [List.length_append, List.length_singleton] at hlen
  have hcode : 0 + (printVersion version ++ [32]).length + (printNat k).length + 1 ≤ length := by
    simp only [List.length_append, List.length_singleton]
    omega
  have hend : 0 + (printVersion version ++ [32]).length + (printNat k ++ [32]).length +
      reason.length < 2 ^ 62 := by
    simp only [List.length_append, List.length_singleton]
    omega
  rcases reads_version length hversion h hatVersion (by norm_num) with ⟨ps₁, hreads₁, hps₁⟩
  rcases reads_statusCode hk hps₁ hatCode hcode with ⟨ps₂, hreads₂, hps₂⟩
  rcases reads_reason length hreason hps₂ hatReason hend with ⟨ps₃, hreads₃, hps₃⟩
  dsimp only at hps₃
  exact ⟨ps₃, hreads₁.append (hreads₂.append hreads₃), hps₃⟩

/-! ## The end of the header -/

/-- The empty line ends the header. -/
theorem exec_lastLine (length n : Nat) (h : Reading (LinePlace.afterConnection close).threads d ps)
    (hat : At m p ([13] ++ [10])) :
    ∃ ps', exec m length (n + 2) p ps = some (p + 2, ps') ∧ Reading [.eps] d ps' ∧
      ps'.bodyStart = p + 2 := by
  rcases at_append.mp hat with ⟨hatReturn, hatFeed⟩
  have hreturn : ∃ ps₁, (runner m length).Reads p [13] ps ps₁ ∧
      Reading LinePlace.lastReturn.threads d ps₁ := by
    cases close with
    | true =>
        exact ⟨_, h.takes length hatReturn (takes_single (LinePlace.step_next rfl)) (by simp) rfl
          ⟨h.data, h.ok, h.plain, h.nread⟩⟩
    | false =>
        exact ⟨_, h.takes length hatReturn (takes_single (LinePlace.step_next rfl)) (by simp) rfl
          ⟨h.data, h.ok, h.plain, h.nread⟩⟩
  rcases hreturn with ⟨ps₁, hreads, hreading⟩
  have hfeed : m (p + 1) = 10 := (at_cons.mp hatFeed).1
  refine ⟨{ ps₁ with cs := some [.eps], bodyStart := p + 2 }, ?_,
    ⟨⟨hreading.data, hreading.ok, hreading.plain, hreading.nread⟩, rfl⟩, rfl⟩
  refine (hreads (n + 1)).trans ?_
  change exec m length (n + 1) (p + 1) ps₁ = _
  rw [exec, hreading.cs]
  simp only [hfeed, step_lastReturn]
  rfl

end HTTPResponseParser

end Http
end Tiger
