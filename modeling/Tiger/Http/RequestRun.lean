import Tiger.Http.RequestMachine
import Tiger.Http.Session

/-!
# HTTP - runs of the request parser

What one call of `http_request_parser_execute` does, in terms of the machine
alone: how many bytes it takes and whether it is finished.  A first call sees
its header only: the offsets that it keeps lie inside of the bytes taken, and
what it makes of them depends on no byte behind the header.

Main results:

- Theorem `executeMachine_ok`: the count that a call returns is the sum of the
  bytes that all calls have taken, and it is at most the length of this call.
- Theorem `executeMachine_congr`: a first call that is given the whole header
  parses the same request, whatever follows the header.
-/

namespace Tiger
namespace Http

open Lib.Ragel HTTPRequestParser RequestGrammar

/-! ## The machine of a call -/

namespace HTTPRequestParser

/-- What an action does to the members other than the request. -/
def moveOffsets (p : Nat) (a : RequestAction) (ps : HTTPRequestParser) : HTTPRequestParser :=
  match a with
  | .mark => { ps with mark := p }
  | .startField => { ps with fieldStart := p }
  | .writeField => { ps with fieldLen := len ps.fieldStart p }
  | .startValue => { ps with mark := p }
  | .startQuery => { ps with queryStart := some p }
  | .done =>
      if ps.xmlSent || ps.jsonSent then
        { ps with bodyStart := ps.mark, contentLen := toInt32 (len ps.mark p + 1) }
      else { ps with bodyStart := p + 1 }
  | .xml => { ps with xmlSent := true }
  | .json => { ps with jsonSent := true }
  | _ => ps

/-- `ps'` is `ps` up to the request and the error that a callback sets. -/
def SameOffsets (ps ps' : HTTPRequestParser) : Prop :=
  ∃ data error, ps' = { ps with data := data, error := error }

theorem SameOffsets.refl (ps : HTTPRequestParser) : SameOffsets ps ps := ⟨ps.data, ps.error, rfl⟩

/-- A callback that stores a value of the request keeps the offsets. -/
theorem sameOffsets_of_map {α : Type} {o : Option α} {f : α → HTTPRequestParser}
    {ps ps' : HTTPRequestParser} (h : o.map f = some ps') (hf : ∀ v, SameOffsets ps (f v)) :
    SameOffsets ps ps' := by
  rcases Option.map_eq_some_iff.mp h with ⟨v, -, rfl⟩
  exact hf v

/-- The method callback keeps the offsets. -/
theorem onRequestMethod_same {m : Memory} {start length : Nat} {ps ps' : HTTPRequestParser}
    (h : onRequestMethod m start length ps = some ps') : SameOffsets ps ps' := by
  unfold onRequestMethod at h
  simp only at h
  split at h
  · exact sameOffsets_of_map h fun _ => ⟨_, _, rfl⟩
  · rw [← Option.some.inj h]
    exact ⟨_, _, rfl⟩

/-- The version callback keeps the offsets. -/
theorem onRequestHttpVersion_same {m : Memory} {start length : Nat} {ps ps' : HTTPRequestParser}
    (h : onRequestHttpVersion m start length ps = some ps') : SameOffsets ps ps' := by
  unfold onRequestHttpVersion at h
  split at h
  · rw [← Option.some.inj h]
    exact ⟨_, _, rfl⟩
  · split at h
    · rw [← Option.some.inj h]
      exact ⟨_, _, rfl⟩
    · exact sameOffsets_of_map h fun _ => ⟨_, _, rfl⟩

/-- The field callback keeps the offsets. -/
theorem onRequestHttpField_same {m : Memory} {field flen value vlen : Nat}
    {ps ps' : HTTPRequestParser} (h : onRequestHttpField m field flen value vlen ps = some ps') :
    SameOffsets ps ps' := by
  unfold onRequestHttpField at h
  split at h
  · rw [← Option.some.inj h]
    exact .refl ps
  · split at h
    · rw [← Option.some.inj h]
      exact ⟨_, _, rfl⟩
    · simp at h

/-- An action moves its offset, and a callback changes the request only. -/
theorem act_spec {m : Memory} {p : Nat} {a : RequestAction} {ps ps' : HTTPRequestParser}
    (h : act m p a ps = some ps') : SameOffsets (moveOffsets p a ps) ps' := by
  cases a with
  | mark => exact Option.some.inj h ▸ .refl _
  | startField => exact Option.some.inj h ▸ .refl _
  | writeField => exact Option.some.inj h ▸ .refl _
  | startValue => exact Option.some.inj h ▸ .refl _
  | writeValue => exact onRequestHttpField_same h
  | requestMethod => exact onRequestMethod_same h
  | requestUri => exact Option.some.inj h ▸ .refl _
  | fragment => exact sameOffsets_of_map h fun _ => ⟨_, _, rfl⟩
  | startQuery => exact Option.some.inj h ▸ .refl _
  | queryString =>
      rcases Option.bind_eq_some_iff.mp h with ⟨q, -, hq⟩
      exact sameOffsets_of_map hq fun _ => ⟨_, _, rfl⟩
  | httpVersion => exact onRequestHttpVersion_same h
  | requestPath => exact sameOffsets_of_map h fun _ => ⟨_, _, rfl⟩
  | done =>
      simp only [act] at h
      simp only [moveOffsets]
      split at h
      next hsent =>
        rw [if_pos hsent]
        exact Option.some.inj h ▸ .refl _
      next hsent =>
        rw [if_neg hsent]
        exact Option.some.inj h ▸ .refl _
  | xml => exact Option.some.inj h ▸ .refl _
  | json => exact Option.some.inj h ▸ .refl _

/-- Actions leave the machine state and the count alone. -/
theorem acts_frame {m : Memory} {p : Nat} {as : List RequestAction} {ps ps' : HTTPRequestParser}
    (h : acts m p as ps = some ps') : ps'.cs = ps.cs ∧ ps'.nread = ps.nread := by
  induction as generalizing ps with
  | nil => exact Option.some.inj h ▸ ⟨rfl, rfl⟩
  | cons a as ih =>
      rcases Option.bind_eq_some_iff.mp h with ⟨ps₁, hact, hrest⟩
      rcases act_spec hact with ⟨data, error, rfl⟩
      have hframe : (moveOffsets p a ps).cs = ps.cs ∧ (moveOffsets p a ps).nread = ps.nread := by
        cases a <;> simp only [moveOffsets, and_self]
        split <;> exact ⟨rfl, rfl⟩
      rw [(ih hrest).1, (ih hrest).2]
      exact hframe

/-- The position and the machine state behind a call, read off the machine. -/
def Stops (p n : Nat) (ps' : HTTPRequestParser) (q : Nat) : Scan RequestAction → Prop
  | .running threads => q = p + n ∧ ps'.cs = some threads
  | .stopped k threads => q = p + k ∧ ps'.cs = some threads
  | .failed k => q = p + k ∧ ps'.cs = none

/-- The parser takes the bytes that its machine takes. -/
theorem exec_scan {m : Memory} {n p q : Nat} {ps ps' : HTTPRequestParser} {threads : List E}
    (hcs : ps.cs = some threads) (h : exec m n p ps = some (q, ps')) :
    ps'.nread = ps.nread ∧ Stops p n ps' q (scan .done threads (slice m p n)) := by
  induction n generalizing p ps threads with
  | zero =>
      simp only [exec, Option.some.injEq, Prod.mk.injEq] at h
      rcases h with ⟨rfl, rfl⟩
      exact ⟨rfl, rfl, hcs⟩
  | succ n ih =>
      rw [slice, scan]
      simp only [exec, hcs] at h
      cases hstep : step threads (m p) with
      | none =>
          simp only [hstep, Option.some.injEq, Prod.mk.injEq] at h
          rcases h with ⟨rfl, rfl⟩
          exact ⟨rfl, rfl, rfl⟩
      | some r =>
          rcases r with ⟨as, threads'⟩
          simp only [hstep] at h ⊢
          rcases Option.bind_eq_some_iff.mp h with ⟨ps₁, hacts, hrest⟩
          have hframe := acts_frame hacts
          by_cases hdone : RequestAction.done ∈ as
          · rw [if_pos (by simpa using hdone)] at hrest
            rw [if_pos hdone]
            simp only [Option.some.injEq, Prod.mk.injEq] at hrest
            rcases hrest with ⟨rfl, rfl⟩
            exact ⟨hframe.2, rfl, hframe.1⟩
          · rw [if_neg (by simpa using hdone)] at hrest
            rw [if_neg hdone]
            have hnext := ih hframe.1 hrest
            refine ⟨hnext.1.trans hframe.2, ?_⟩
            cases hscan : scan .done threads' (slice m (p + 1) n) with
            | running ths =>
                rw [hscan] at hnext
                exact ⟨by have := hnext.2.1; omega, hnext.2.2⟩
            | stopped k ths =>
                rw [hscan] at hnext
                exact ⟨by have := hnext.2.1; omega, hnext.2.2⟩
            | failed k =>
                rw [hscan] at hnext
                exact ⟨by have := hnext.2.1; omega, hnext.2.2⟩

/-! ## Offsets of a first call -/

/-- The offsets lie in front of position `p`, and so does the field name unless
it is pending. -/
structure Offsets (pending : Bool) (ps : HTTPRequestParser) (p : Nat) : Prop where
  mark_le : ps.mark ≤ p
  fieldStart_le : ps.fieldStart ≤ p
  fieldLen_le : ps.fieldLen ≤ p
  bodyStart_le : ps.bodyStart ≤ p + 1
  query_le : ∀ q, ps.queryStart = some q → q ≤ p
  field_le : pending = false → ps.fieldStart + ps.fieldLen ≤ p

theorem init_offsets (env : Env) : Offsets false (HTTPRequestParser.init env) 0 :=
  ⟨le_rfl, le_rfl, le_rfl, by simp [HTTPRequestParser.init], by simp [HTTPRequestParser.init],
    fun _ => le_rfl⟩

/-- Offsets in front of a position are in front of every later one. -/
theorem Offsets.mono {b : Bool} {ps : HTTPRequestParser} {p q : Nat} (h : Offsets b ps p)
    (hpq : p ≤ q) : Offsets b ps q where
  mark_le := h.mark_le.trans hpq
  fieldStart_le := h.fieldStart_le.trans hpq
  fieldLen_le := h.fieldLen_le.trans hpq
  bodyStart_le := h.bodyStart_le.trans (by omega)
  query_le q' hq := (h.query_le q' hq).trans hpq
  field_le hb := (h.field_le hb).trans hpq

/-- Parsers with the same offsets have them in front of the same positions. -/
theorem Offsets.same {b : Bool} {ps ps' : HTTPRequestParser} {p : Nat} (h : Offsets b ps p)
    (hsame : SameOffsets ps ps') : Offsets b ps' p := by
  rcases hsame with ⟨data, error, rfl⟩
  exact ⟨h.mark_le, h.fieldStart_le, h.fieldLen_le, h.bodyStart_le, h.query_le, h.field_le⟩

theorem len_of_le {start p : Nat} (hle : start ≤ p) (hp : p < 2 ^ 62) :
    len start p = p - start := by
  unfold len toSizeT
  omega

/-- The field behind several actions is that behind each in turn. -/
theorem fieldRun_cons (b : Bool) (a : RequestAction) (as : List RequestAction) :
    fieldRun b (a :: as) = (fieldRun b [a]).bind fun b' => fieldRun b' as := by
  cases a <;> simp only [fieldRun, Option.bind_some]
  cases b <;> rfl

/-- An action keeps the offsets in front of its position. -/
theorem Offsets.move {b b' : Bool} {ps : HTTPRequestParser} {p : Nat} (h : Offsets b ps p)
    (hp : p < 2 ^ 62) {a : RequestAction} (hrun : fieldRun b [a] = some b') :
    Offsets b' (moveOffsets p a ps) p := by
  have hbody := h.bodyStart_le
  cases a with
  | mark =>
      cases hrun
      exact ⟨le_rfl, h.fieldStart_le, h.fieldLen_le, hbody, h.query_le, h.field_le⟩
  | startValue =>
      cases hrun
      exact ⟨le_rfl, h.fieldStart_le, h.fieldLen_le, hbody, h.query_le, h.field_le⟩
  | startField =>
      cases hrun
      exact ⟨h.mark_le, le_rfl, h.fieldLen_le, hbody, h.query_le, fun hb => absurd hb (by simp)⟩
  | writeField =>
      cases hrun
      have hlen := len_of_le h.fieldStart_le hp
      have hstart := h.fieldStart_le
      refine ⟨h.mark_le, hstart, ?_, hbody, h.query_le, fun _ => ?_⟩
      · simp only [moveOffsets, hlen]
        omega
      · simp only [moveOffsets, hlen]
        omega
  | writeValue =>
      cases b with
      | true => simp [fieldRun] at hrun
      | false =>
          cases hrun
          exact h
  | startQuery =>
      cases hrun
      refine ⟨h.mark_le, h.fieldStart_le, h.fieldLen_le, hbody, ?_, h.field_le⟩
      intro q hq
      cases hq
      exact le_rfl
  | done =>
      cases hrun
      simp only [moveOffsets]
      split
      · exact ⟨h.mark_le, h.fieldStart_le, h.fieldLen_le, h.mark_le.trans (by omega), h.query_le,
          h.field_le⟩
      · exact ⟨h.mark_le, h.fieldStart_le, h.fieldLen_le, le_rfl, h.query_le, h.field_le⟩
  | xml =>
      cases hrun
      exact ⟨h.mark_le, h.fieldStart_le, h.fieldLen_le, hbody, h.query_le, h.field_le⟩
  | json =>
      cases hrun
      exact ⟨h.mark_le, h.fieldStart_le, h.fieldLen_le, hbody, h.query_le, h.field_le⟩
  | _ =>
      cases hrun
      exact h

/-- The actions at a byte keep the offsets in front of it. -/
theorem Offsets.acts {b b' : Bool} {m : Memory} {p : Nat} {as : List RequestAction}
    {ps ps' : HTTPRequestParser} (h : Offsets b ps p) (hp : p < 2 ^ 62)
    (hrun : fieldRun b as = some b') (hacts : acts m p as ps = some ps') : Offsets b' ps' p := by
  induction as generalizing b ps with
  | nil =>
      cases hrun
      cases hacts
      exact h
  | cons a as ih =>
      rw [fieldRun_cons] at hrun
      rcases Option.bind_eq_some_iff.mp hrun with ⟨b₁, hb₁, hrest⟩
      rcases Option.bind_eq_some_iff.mp hacts with ⟨ps₁, hact, hacts⟩
      exact ih ((h.move hp hb₁).same (act_spec hact)) hrest hacts

/-! ## What a first call reads -/

/-- Two memories with the same header of `h` bytes, which ends with a byte that
is in no name of a method. -/
structure SameHeader (h : Nat) (m m' : Memory) : Prop where
  eq_of_lt : ∀ i < h, m i = m' i
  last : m (h - 1) = 10 ∨ m (h - 1) = 0

/-- A string that ends inside the header is the same in both buffers. -/
theorem string_congr {h : Nat} {m m' : Memory} (hm : SameHeader h m m') {start length : Nat}
    (hle : start + length ≤ h) : string m start length = string m' start length := by
  unfold string
  rw [slice_congr fun i _ hi => hm.eq_of_lt i (by omega)]

/-- Comparing a text inside of the header. -/
theorem strncmpEq_congr {h : Nat} {m m' : Memory} (hm : ∀ i < h, m i = m' i) {pos n : Nat}
    (hle : pos + n ≤ h) (cs : List Char) : strncmpEq m pos cs n = strncmpEq m' pos cs n := by
  induction n generalizing pos cs with
  | zero => cases cs <;> rfl
  | succ n ih =>
      cases cs with
      | nil => simp only [strncmpEq, hm pos (by omega)]
      | cons c cs =>
          have hrest : pos + 1 + n ≤ h := by omega
          simp only [strncmpEq, hm pos (by omega), ih hrest cs]

/-- Comparing a text that does not hold the last byte of the header: the
comparison ends there. -/
theorem strncmpEq_congr_of_last {h : Nat} {m m' : Memory} (hm : SameHeader h m m') {pos : Nat}
    (hpos : pos < h) {cs : List Char} (hcs : ∀ c ∈ cs, byte c ≠ 10 ∧ byte c ≠ 0) :
    strncmpEq m pos cs cs.length = strncmpEq m' pos cs cs.length := by
  induction cs generalizing pos with
  | nil => rfl
  | cons c cs ih =>
      rw [List.length_cons, strncmpEq, strncmpEq, ← hm.eq_of_lt pos hpos]
      by_cases hlast : pos = h - 1
      · have hne : (m pos == byte c) = false := by
          have hc := hcs c List.mem_cons_self
          have hend := hm.last
          rw [← hlast] at hend
          rcases hend with hend | hend
          · rw [hend]
            exact beq_eq_false_iff_ne.mpr hc.1.symm
          · rw [hend]
            exact beq_eq_false_iff_ne.mpr hc.2.symm
        rw [hne, Bool.false_and, Bool.false_and]
      · rw [ih (by omega) fun c' hc' => hcs c' (List.mem_cons_of_mem _ hc')]

/-- The method that starts inside the header is the same in both buffers. -/
theorem charsToHTTPMethod_congr {h : Nat} {m m' : Memory} (hm : SameHeader h m m') {pos : Nat}
    (hpos : pos < h) : charsToHTTPMethod m pos = charsToHTTPMethod m' pos := by
  have hnames :
      (httpMethodMap.all fun e => e.2.all fun c => byte c != 10 && byte c != 0) = true := by
    decide
  have hfind : httpMethodMap.find? (fun e => strncmpEq m pos e.2 e.2.length) =
      httpMethodMap.find? (fun e => strncmpEq m' pos e.2 e.2.length) := by
    refine List.find?_congr ?_
    intro e he
    refine strncmpEq_congr_of_last hm hpos ?_
    intro c hc
    have hbyte := List.all_eq_true.mp (List.all_eq_true.mp hnames e he) c hc
    simpa using hbyte
  rw [charsToHTTPMethod, charsToHTTPMethod, hfind]

/-- An action at a position of the header reads the header only. -/
theorem act_congr {h : Nat} {m m' : Memory} (hm : SameHeader h m m') {b b' : Bool}
    {ps : HTTPRequestParser} {p : Nat} (hoff : Offsets b ps p) (hp : p < h) (hsmall : p < 2 ^ 62)
    {a : RequestAction} (hrun : fieldRun b [a] = some b') : act m p a ps = act m' p a ps := by
  have hmark := hoff.mark_le
  have hlen := len_of_le hmark hsmall
  have hstr : string m ps.mark (len ps.mark p) = string m' ps.mark (len ps.mark p) :=
    string_congr hm (by omega)
  cases a with
  | writeValue =>
      cases b with
      | true => simp [fieldRun] at hrun
      | false =>
          have hfield := hoff.field_le rfl
          have hname : string m ps.fieldStart ps.fieldLen = string m' ps.fieldStart ps.fieldLen :=
            string_congr hm (by omega)
          simp only [act, onRequestHttpField, hstr, hname]
  | requestMethod =>
      have hmethod := charsToHTTPMethod_congr hm (show ps.mark < h by omega)
      simp only [act, onRequestMethod, hstr, hmethod]
  | fragment => simp only [act, onRequestFragment, hstr]
  | queryString =>
      cases hq : ps.queryStart with
      | none => simp only [act, hq, Option.bind_none]
      | some q =>
          have hle := hoff.query_le q hq
          have hquery : string m q (len q p) = string m' q (len q p) :=
            string_congr hm (by rw [len_of_le hle hsmall]; omega)
          simp only [act, hq, Option.bind_some, onRequestQueryString, hquery]
  | httpVersion =>
      have hcmp := strncmpEq_congr hm.eq_of_lt (show ps.mark + len ps.mark p ≤ h by omega)
      simp only [act, onRequestHttpVersion, hstr, hcmp]
  | requestPath => simp only [act, onRequestPath, hstr]
  | _ => rfl

/-- The actions at a byte of the header do the same in both buffers. -/
theorem acts_congr {h : Nat} {m m' : Memory} (hm : SameHeader h m m') {b b' : Bool} {p : Nat}
    (hp : p < h) (hsmall : p < 2 ^ 62) {as : List RequestAction} {ps : HTTPRequestParser}
    (hoff : Offsets b ps p)
    (hrun : fieldRun b as = some b') : acts m p as ps = acts m' p as ps := by
  induction as generalizing b ps with
  | nil => rfl
  | cons a as ih =>
      rw [fieldRun_cons] at hrun
      rcases Option.bind_eq_some_iff.mp hrun with ⟨b₁, hb₁, hrest⟩
      rw [HTTPRequestParser.acts, HTTPRequestParser.acts, act_congr hm hoff hp hsmall hb₁]
      cases hact : act m' p a ps with
      | none => rfl
      | some ps₁ => exact ih ((hoff.move hsmall hb₁).same (act_spec hact)) hrest

/-- A first call that gets to the end of the header reads the header only, and
its offsets are inside of it. -/
theorem exec_congr {r : Bool} {h : Nat} {m m' : Memory} (hm : SameHeader h m m')
    (hsmall : h ≤ 2 ^ 62) {b : Bool} {p n n' : Nat} {ps : HTTPRequestParser}
    {threads threads' : List E} (hcs : ps.cs = some threads) (hphase : FieldPhase r b threads)
    (hoff : Offsets b ps p) (hp : p ≤ h) (hn : h - p ≤ n) (hn' : h - p ≤ n')
    (hscan : scan .done threads (slice m p (h - p)) = .stopped (h - p) threads') :
    exec m n p ps = exec m' n' p ps ∧
      ∀ q ps', exec m n p ps = some (q, ps') → ∃ b', Offsets b' ps' (h - 1) := by
  induction hk : h - p generalizing b p n n' ps threads with
  | zero =>
      rw [hk] at hscan
      have := (scan_stopped_le hscan).1
      omega
  | succ k ih =>
      obtain ⟨n, rfl⟩ : ∃ j, n = j + 1 := ⟨n - 1, by omega⟩
      obtain ⟨n', rfl⟩ : ∃ j, n' = j + 1 := ⟨n' - 1, by omega⟩
      rw [hk, slice, scan] at hscan
      simp only [exec, hcs, ← hm.eq_of_lt p (by omega)]
      cases hstep : step threads (m p) with
      | none => simp [hstep] at hscan
      | some res =>
          rcases res with ⟨as, ths⟩
          rcases hphase.step hstep with ⟨b', hrun, hnext⟩
          have hoff₀ : Offsets b { ps with cs := some ths } p :=
            ⟨hoff.mark_le, hoff.fieldStart_le, hoff.fieldLen_le, hoff.bodyStart_le,
              hoff.query_le, hoff.field_le⟩
          simp only [hstep] at hscan ⊢
          rw [← acts_congr hm (by omega) (by omega) hoff₀ hrun]
          cases hacts : acts m p as { ps with cs := some ths } with
          | none => exact ⟨rfl, by simp⟩
          | some ps₁ =>
              have hoff₁ := hoff₀.acts (by omega) hrun hacts
              simp only [Option.bind_some]
              by_cases hdone : RequestAction.done ∈ as
              · -- the last byte of the header
                rw [if_pos hdone] at hscan
                simp only [Scan.stopped.injEq] at hscan
                rw [if_pos (by simpa using hdone), if_pos (by simpa using hdone)]
                refine ⟨rfl, ?_⟩
                intro q ps' hres
                simp only [Option.some.injEq, Prod.mk.injEq] at hres
                rcases hres with ⟨-, rfl⟩
                exact ⟨b', hoff₁.mono (by omega)⟩
              · rw [if_neg hdone] at hscan
                rw [if_neg (by simpa using hdone), if_neg (by simpa using hdone)]
                have hrest : scan .done ths (slice m (p + 1) k) = .stopped k threads' := by
                  cases hscan' : scan .done ths (slice m (p + 1) k) with
                  | running x => simp [hscan', Scan.shift] at hscan
                  | failed j => simp [hscan', Scan.shift] at hscan
                  | stopped j x => simpa [hscan', Scan.shift] using hscan
                have hk' : h - (p + 1) = k := by omega
                exact ih ((acts_frame hacts).1) (hnext.resolve_left hdone)
                  (hoff₁.mono (by omega)) (by omega) (by omega) (by omega) (hk' ▸ hrest) hk'

/-! ## One call -/

/-- The start state of the machine. -/
def startState (env : Env) : List E := start (main env.uriRelaxed)

/-- The bytes are one whole header: the machine stops with the last of them. -/
def IsHeader (env : Env) (hd : Text) : Prop :=
  ∃ threads, scan .done (startState env) hd = .stopped hd.length threads

/-- A call returns how many bytes all calls have taken, and that is at most the
length of this call. -/
theorem executeMachine_ok {m : Memory} {length nparse : Nat} {ps ps' : HTTPRequestParser}
    {threads : List E} (hlen : 0 < length) (hcs : ps.cs = some threads)
    (h : executeMachine m length ps = .ok nparse ps') :
    ∃ q, nparse = ps.nread + q ∧ nparse ≤ length ∧ ps'.nread = nparse ∧
      Stops 0 length ps' q (scan .done threads (slice m 0 length)) := by
  unfold executeMachine at h
  rw [if_neg (by omega)] at h
  split at h
  · simp at h
  · next q ps₁ hexec =>
    rcases exec_scan hcs hexec with ⟨hnread, hstops⟩
    simp only at h
    split at h
    · next hassert =>
      simp only [Executed.ok.injEq] at h
      rcases h with ⟨hn, rfl⟩
      have hle := hassert.1
      refine ⟨q, ?_, ?_, hn, ?_⟩
      · omega
      · simp only at hle
        omega
      · cases hscan : scan .done threads (slice m 0 length) with
        | running ths =>
            rw [hscan] at hstops
            exact hstops
        | stopped k ths =>
            rw [hscan] at hstops
            exact hstops
        | failed k =>
            rw [hscan] at hstops
            exact hstops
    · simp at h

theorem IsHeader.length_pos {env : Env} {hd : Text} (h : IsHeader env hd) : 0 < hd.length := by
  rcases h with ⟨threads, hscan⟩
  exact (scan_stopped_le hscan).1

/-- A header has at least two bytes. -/
theorem IsHeader.two_le {env : Env} {hd : Text} (h : IsHeader env hd) : 2 ≤ hd.length := by
  have hpos := h.length_pos
  by_contra hlt
  have hone : hd.length = 1 := by omega
  rcases h with ⟨threads, hscan⟩
  have hlast := (RequestReach.stopped_spec Reach.start hscan).2
  rcases List.length_eq_one_iff.mp hone with ⟨c, rfl⟩
  have hfirst : ∀ r : Bool, (step (start (main r)) 10).isNone ∧
      (step (start (main r)) 0).isNone := by
    decide
  have hnone : step (start (main env.uriRelaxed)) c = none := by
    have := hfirst env.uriRelaxed
    rcases hlast with hc | hc
    · cases hc
      simpa using this.1
    · cases hc
      simpa using this.2
  simp [scan, startState, hnone] at hscan

/-- What is stored behind a header does not change it. -/
theorem sameHeader_store {env : Env} {hd : Text} (hhd : IsHeader env hd) (m m' : Memory)
    (rest : Text) : SameHeader hd.length (store m 0 (hd ++ rest)) (store m' 0 hd) := by
  have hpos := hhd.length_pos
  have heq : ∀ i < hd.length, hd[i]? = some (store m 0 (hd ++ rest) i) := by
    intro i hi
    rw [← store_getElem? (by rw [List.length_append]; omega), List.getElem?_append_left hi]
  refine ⟨?_, ?_⟩
  · intro i hi
    have hxs := heq i hi
    rw [store_getElem? hi] at hxs
    exact (Option.some.inj hxs).symm
  · rcases hhd with ⟨threads, hscan⟩
    have hlast := (RequestReach.stopped_spec .start hscan).2
    rw [heq (hd.length - 1) (by omega), Option.some.injEq, Option.some.injEq] at hlast
    exact hlast

/-- A first call that is given a whole header returns at its end, and what it
makes of it depends on the header alone: no assert fails. -/
theorem executeMachine_header {env : Env} {hd : Text} (hhd : IsHeader env hd)
    (hsmall : hd.length ≤ 2 ^ 62) (m m' : Memory) (rest : Text) :
    executeMachine (store m 0 (hd ++ rest)) (hd ++ rest).length (HTTPRequestParser.init env) =
      match exec (store m' 0 hd) hd.length 0 (HTTPRequestParser.init env) with
      | none => .threw
      | some (q, ps) => .ok q { ps with nread := q } := by
  have hpos := hhd.length_pos
  have hsame := sameHeader_store hhd m m' rest
  rcases hhd with ⟨threads, hscan⟩
  have hslice : slice (store m 0 (hd ++ rest)) 0 (hd.length - 0) = hd := by
    rw [slice_store _ _ (by rw [List.length_append]; omega)]
    simp
  have hcongr := exec_congr (r := env.uriRelaxed) hsame hsmall rfl FieldPhase.start
    (init_offsets env) (Nat.zero_le _) (show hd.length - 0 ≤ (hd ++ rest).length by simp)
    (Nat.le_of_eq rfl) (by rw [hslice]; exact hscan)
  unfold executeMachine
  rw [if_neg (by rw [List.length_append]; omega), hcongr.1]
  cases hexec : exec (store m' 0 hd) hd.length 0 (HTTPRequestParser.init env) with
  | none => rfl
  | some res =>
      rcases res with ⟨q, ps⟩
      rcases exec_scan rfl hexec with ⟨hnread, hstops⟩
      rw [slice_store_all] at hstops
      change Stops _ _ _ _ (scan .done (startState env) hd) at hstops
      rw [hscan] at hstops
      have hq : q = hd.length := by simpa using hstops.1
      rcases hcongr.2 q ps (hcongr.1.trans hexec) with ⟨b, hoff⟩
      have hmark := hoff.mark_le
      have hstart := hoff.fieldStart_le
      have hflen := hoff.fieldLen_le
      have hbody := hoff.bodyStart_le
      have hzero : ps.nread + q = q := by
        rw [hnread]
        exact Nat.zero_add q
      have hassert : AssertsHold { ps with nread := q } (hd ++ rest).length := by
        rw [List.length_append]
        refine ⟨?_, ?_, ?_, ?_, ?_⟩ <;> simp only <;> omega
      simp only [hzero, if_pos hassert]

end HTTPRequestParser

end Http
end Tiger
