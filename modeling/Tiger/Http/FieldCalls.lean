import Tiger.Http.RequestValues

/-!
# HTTP - the calls of `http_field`

The action `write_value` of the request parser calls `http_field` with a name and a value, each a
pointer into the buffer and a length.  The parser is watched here while it runs: the calls are
kept beside it, with the bytes that they are given.

Main results:

- Theorem `Watched.exec_unwatched`: a watched parser runs as the parser does.
- Theorem `LinePhase.step`: what one byte of a header line adds to the line and to the calls.
- Theorem `headerText_of_exec`: a header that is accepted consists of lines with a name, a colon
  and a value, and each of them is one call.
- Theorem `calls_of_exec`: so is a whole request, behind its request line.
-/

namespace Tiger
namespace Http

open Lib.Ragel HTTPRequestParser RequestGrammar

/-! ## Watching the calls -/

/-- The parser together with the calls of `http_field` so far, each with the bytes of its name and
of its value. -/
structure Watched where
  parser : HTTPRequestParser
  calls : List (Text × Text)

namespace Watched

/-- The call that an action makes. -/
def called (m : Memory) (p : Nat) (a : RequestAction) (ps : HTTPRequestParser) :
    List (Text × Text) :=
  match a with
  | .writeValue => [(slice m ps.fieldStart ps.fieldLen, slice m ps.mark (len ps.mark p))]
  | _ => []

/-- Actions one after the other. -/
def acts (m : Memory) (p : Nat) : List RequestAction → Watched → Option Watched
  | [], w => some w
  | a :: as, w =>
      (act m p a w.parser).bind fun ps => acts m p as ⟨ps, w.calls ++ called m p a w.parser⟩

/-- The machine on the bytes from `p` on, as in `HTTPRequestParser.exec`. -/
def exec (m : Memory) : Nat → Nat → Watched → Option (Nat × Watched)
  | 0, p, w => some (p, w)
  | n + 1, p, w =>
      match w.parser.cs with
      | none => some (p, w)
      | some threads =>
          match step threads (m p) with
          | none => some (p, ⟨{ w.parser with cs := none }, w.calls⟩)
          | some (as, threads') =>
              (acts m p as ⟨{ w.parser with cs := some threads' }, w.calls⟩).bind fun w' =>
                if as.contains .done then some (p + 1, w') else exec m n (p + 1) w'

variable {m : Memory} {n p e : Nat} {w w' : Watched} {as : List RequestAction}

/-- Watching the calls does not change the parser. -/
theorem acts_unwatched (m : Memory) (p : Nat) (as : List RequestAction) (w : Watched) :
    (acts m p as w).map parser = HTTPRequestParser.acts m p as w.parser := by
  induction as generalizing w with
  | nil => rfl
  | cons a as ih =>
      rw [acts, HTTPRequestParser.acts, Option.map_bind]
      congr 1
      funext ps
      exact ih _

/-- A watched parser runs as the parser does. -/
theorem exec_unwatched (m : Memory) (n p : Nat) (w : Watched) :
    (exec m n p w).map (fun r => (r.1, r.2.parser)) = HTTPRequestParser.exec m n p w.parser := by
  induction n generalizing p w with
  | zero => rfl
  | succ n ih =>
      rw [exec, HTTPRequestParser.exec]
      cases hcs : w.parser.cs with
      | none => rfl
      | some threads =>
          simp only
          cases hstep : step threads (m p) with
          | none => rfl
          | some s =>
              obtain ⟨as, threads'⟩ := s
              have hparser := acts_unwatched m p as ⟨{ w.parser with cs := some threads' }, w.calls⟩
              simp only
              rw [← hparser, Option.map_bind, Option.bind_map]
              congr 1
              funext w₁
              simp only [Function.comp_apply]
              split
              · rfl
              · exact ih (p + 1) w₁

/-- Only `write_value` makes calls. -/
theorem acts_calls (h : acts m p as w = some w') (has : .writeValue ∉ as) :
    w'.calls = w.calls := by
  induction as generalizing w with
  | nil => rw [Option.some.inj h]
  | cons a as ih =>
      rcases Option.bind_eq_some_iff.mp h with ⟨ps, -, hrest⟩
      simp only [List.mem_cons, not_or] at has
      have hnone : called m p a w.parser = [] := by
        cases a <;> first | rfl | exact absurd rfl has.1
      rw [ih hrest has.2, hnone, List.append_nil]

/-- The actions leave the machine state alone. -/
theorem acts_cs (h : acts m p as w = some w') : w'.parser.cs = w.parser.cs := by
  have hparser := acts_unwatched m p as w
  rw [h] at hparser
  exact (acts_frame hparser.symm).1

/-- The machine is in a final state. -/
def Finished (w : Watched) : Prop := ∃ threads, w.parser.cs = some threads ∧ isFinal threads = true

/-- A finished parser is in a final state. -/
theorem Finished.isFinal {threads : List E} (h : w.Finished) (hcs : w.parser.cs = some threads) :
    isFinal threads = true := by
  obtain ⟨threads', hcs', hfinal⟩ := h
  rw [hcs, Option.some.injEq] at hcs'
  rw [hcs']
  exact hfinal

/-- A run that gets to a final state takes its first byte. -/
theorem exec_succ_inv {threads : List E} (hexec : exec m (n + 1) p w = some (e, w'))
    (hfinished : w'.Finished) (hcs : w.parser.cs = some threads) :
    ∃ as threads' w₁, step threads (m p) = some (as, threads') ∧
      acts m p as ⟨{ w.parser with cs := some threads' }, w.calls⟩ = some w₁ ∧
      (.done ∈ as ∧ w' = w₁ ∨ .done ∉ as ∧ exec m n (p + 1) w₁ = some (e, w')) := by
  rw [exec, hcs] at hexec
  simp only at hexec
  split at hexec
  next =>
    obtain ⟨threads', hcs', -⟩ := hfinished
    rw [← (Prod.mk.inj (Option.some.inj hexec)).2] at hcs'
    cases hcs'
  next as threads' hstep =>
    rcases Option.bind_eq_some_iff.mp hexec with ⟨w₁, hacts, hrest⟩
    refine ⟨as, threads', w₁, hstep, hacts, ?_⟩
    split at hrest
    next hdone => exact .inl ⟨by simpa using hdone, (Prod.mk.inj (Option.some.inj hrest)).2.symm⟩
    next hdone => exact .inr ⟨by simpa using hdone, hrest⟩

end Watched

/-! ## Steps in a header line -/

namespace HeaderState

/-- The byte is one of an end of line, and the state behind it. -/
def LineEnds (c : UInt8) (q' : HeaderState) : Prop := c = 10 ∧ q' = top ∨ c = 13 ∧ q' = lineEnd

instance (c : UInt8) (q' : HeaderState) : Decidable (LineEnds c q') :=
  inferInstanceAs (Decidable (_ ∨ _))

/-- What a step in a state does with the parts of a header line. -/
def LineStep (c : UInt8) (as : List RequestAction) (q' : HeaderState) : HeaderState → Prop
  | top => as = [.startField] ∧
      (c = 13 ∧ q' = nameOrEnd ∨ c ≠ 10 ∧ c ≠ 13 ∧ token.mem c = true ∧ q' = name)
  | name => as = [] ∧ token.mem c = true ∧ q' = name ∨ as = [.writeField] ∧ c = 58 ∧ q' = colon
  | nameOrEnd => as = [] ∧ c ≠ 10 ∧ token.mem c = true ∧ q' = name ∨
      as = [.writeField] ∧ c = 58 ∧ q' = colon
  | colon | space => as = [.startValue] ∧ isBlank c = true ∧ q' = space ∨
      as = [.startValue] ∧ isValueByte c = true ∧ isBlank c = false ∧ q' = value ∨
      as = [.startValue, .writeValue] ∧ LineEnds c q'
  | value | valueSpace => as = [] ∧ isValueByte c = true ∧ q'.inAValue ∨
      as = [.writeValue] ∧ LineEnds c q'
  | lineEnd => as = [] ∧ c = 10 ∧ q' = top

instance (c : UInt8) (as : List RequestAction) (q' : HeaderState) :
    ∀ q, Decidable (LineStep c as q' q)
  | top => inferInstanceAs (Decidable (_ ∧ _))
  | name | nameOrEnd => inferInstanceAs (Decidable (_ ∨ _))
  | colon | space => inferInstanceAs (Decidable (_ ∨ _ ∨ _))
  | value | valueSpace => inferInstanceAs (Decidable (_ ∨ _))
  | lineEnd => inferInstanceAs (Decidable (_ ∧ _))

/-- The check of one entry of the table, and of the steps that are not in it: these end the
header. -/
def lineStepOk (q : HeaderState) (k : UInt8) : Bool :=
  match q.does k with
  | some s => decide (LineStep k s.1 s.2 q)
  | none => (step q.threads k).all fun _ => decide (k = 10 ∧ (q = top ∨ q = nameOrEnd))

private theorem lineStepOk_all : all.all (fun q => kinds.all (lineStepOk q)) = true := by
  decide

/-- A line feed, a carriage return and a colon are their own kinds. -/
theorem kindOf_eq_iff {c k : UInt8} (hk : k = 10 ∨ k = 13 ∨ k = 58) : kindOf c = k ↔ c = k := by
  rcases kindOf_cases c with ⟨hself, -⟩ | ⟨hkind, -, h10, h13, -, h58⟩
  · rw [hself]
  · have hc : c ≠ k := by rcases hk with rfl | rfl | rfl <;> assumption
    refine iff_of_false ?_ hc
    rcases hk with rfl | rfl | rfl <;> rcases hkind with hkind | hkind | hkind <;> rw [hkind] <;>
      decide

/-- A step depends on the kind of the byte only. -/
theorem LineStep.of_kindOf {c : UInt8} {as : List RequestAction} {q q' : HeaderState}
    (h : LineStep (kindOf c) as q' q) : LineStep c as q' q := by
  have h10 := kindOf_eq_iff (c := c) (k := 10) (.inl rfl)
  have h13 := kindOf_eq_iff (c := c) (k := 13) (.inr (.inl rfl))
  have h58 := kindOf_eq_iff (c := c) (k := 58) (.inr (.inr rfl))
  have htoken := mem_kindOf (k := token) (by decide) c
  cases q <;> simpa only [LineStep, LineEnds, ne_eq, h10, h13, h58, ← htoken, ← kindOf_bytes c]
    using h

/-- Every step of the header is one in a line, or it is the line feed that ends the header. -/
theorem lineStep_of_step {q : HeaderState} {c : UInt8} {as : List RequestAction}
    {threads' : List E} (hstep : step q.threads c = some (as, threads')) :
    (∃ q', LineStep c as q' q ∧ threads' = q'.threads) ∨
      (c = 10 ∧ (q = top ∨ q = nameOrEnd)) ∧ .done ∈ as ∧ .writeValue ∉ as := by
  have hok := List.all_eq_true.mp (List.all_eq_true.mp lineStepOk_all q q.mem_all) _
    (kindOf_mem_kinds c)
  rw [lineStepOk] at hok
  rcases does_of_step hstep with ⟨q', hdoes, rfl⟩ | hdone
  · rw [hdoes] at hok
    exact .inl ⟨q', (of_decide_eq_true hok).of_kindOf, rfl⟩
  · split at hok
    next s hdoes =>
      have hstep' : step q.threads c = some (s.1, s.2.threads) := step_does hdoes
      rw [hstep] at hstep'
      rcases Prod.mk.inj (Option.some.inj hstep') with ⟨rfl, rfl⟩
      exact .inl ⟨s.2, (of_decide_eq_true hok).of_kindOf, rfl⟩
    next =>
      rw [← step_kindOf, hstep, Option.all_some, decide_eq_true_eq,
        kindOf_eq_iff (.inl rfl)] at hok
      exact .inr ⟨hok, hdone⟩

private theorem not_final : all.all (fun q => !isFinal q.threads) = true := by
  decide

theorem isFinal_threads (q : HeaderState) : isFinal q.threads = false := by
  simpa using List.all_eq_true.mp not_final q q.mem_all

end HeaderState

/-! ## Header texts -/

/-- An end of line. -/
def IsEol (eol : Text) : Prop := eol = [10] ∨ eol = [13, 10]

/-- The text is a header from the start of a line on, and these are its names and values.  What is
behind the empty line does not matter. -/
inductive HeaderText : List (Text × Text) → Text → Prop
  | finish {xs : Text} : isLineStart xs = true → HeaderText [] xs
  | line {name v eol xs : Text} {es : List (Text × Text)} : isFieldName name = true →
      isLineStart name = false → v.all isValueByte = true → IsEol eol → HeaderText es xs →
      HeaderText ((name, v.dropWhile isBlank) :: es) (name ++ 58 :: (v ++ (eol ++ xs)))

/-- The name that the parser has read in a line. -/
structure FieldRead (m : Memory) (name : Text) (ps : HTTPRequestParser) : Prop where
  token : isFieldName name = true
  start : isLineStart name = false
  text : slice m ps.fieldStart ps.fieldLen = name

/-- What the parser knows of the line up to its position. -/
inductive LinePhase (m : Memory) (p : Nat) (ps : HTTPRequestParser) : HeaderState → Text → Prop
  | top : LinePhase m p ps .top []
  | name {u : Text} : u.all token.mem = true → isLineStart (u ++ [10]) = false →
      At m ps.fieldStart u → ps.fieldStart + u.length = p → LinePhase m p ps .name u
  | nameOrEnd : At m ps.fieldStart [13] → ps.fieldStart + 1 = p → LinePhase m p ps .nameOrEnd [13]
  | front {q : HeaderState} {name b : Text} : q = .colon ∨ q = .space → FieldRead m name ps →
      b.all isBlank = true → LinePhase m p ps q (name ++ 58 :: b)
  | value {q : HeaderState} {name b : Text} : q.inAValue → FieldRead m name ps →
      b.all isBlank = true → InValue m p ps →
      LinePhase m p ps q (name ++ 58 :: (b ++ slice m ps.mark (p - ps.mark)))
  | lineEnd : LinePhase m p ps .lineEnd []

/-- The text behind the position is the rest of a header, with the line so far. -/
def Rest (es : List (Text × Text)) (xs : Text) : HeaderState → Text → Prop
  | .lineEnd, _ => ∃ xs', xs = 10 :: xs' ∧ HeaderText es xs'
  | _, u => HeaderText es (u ++ xs)

/-- The phase of a line does not depend on the machine state. -/
theorem LinePhase.goto {m : Memory} {p : Nat} {ps : HTTPRequestParser} {q : HeaderState} {u : Text}
    (h : LinePhase m p ps q u) (cs : Option (List E)) : LinePhase m p { ps with cs := cs } q u := by
  cases h with
  | top => exact .top
  | name htoken hstart hat hp => exact .name htoken hstart hat hp
  | nameOrEnd hat hp => exact .nameOrEnd hat hp
  | front hq hfield hb => exact .front hq ⟨hfield.token, hfield.start, hfield.text⟩ hb
  | value hq hfield hb hvalue =>
      exact .value hq ⟨hfield.token, hfield.start, hfield.text⟩ hb hvalue
  | lineEnd => exact .lineEnd

/-- Whether a text is behind the header lines is said by its first two bytes. -/
theorem isLineStart_cons_cons (a b : UInt8) (u : Text) :
    isLineStart (a :: b :: u) = decide (a = 10 ∨ a = 13 ∧ b = 10) := by
  unfold isLineStart
  split
  next heq => simp [(List.cons.inj heq).1]
  next heq => simp [(List.cons.inj heq).1, (List.cons.inj (List.cons.inj heq).2).1]
  next hfeed hreturn =>
    refine (decide_eq_false ?_).symm
    rintro (rfl | ⟨rfl, rfl⟩)
    · exact hfeed _ rfl
    · exact hreturn _ rfl

/-- Behind the bytes that may end the header nothing more decides about the name. -/
theorem isLineStart_append {u : Text} (h : isLineStart (u ++ [10]) = false) (v : Text) :
    isLineStart (u ++ v) = false := by
  cases u with
  | nil => simp [isLineStart] at h
  | cons a u =>
      cases u with
      | nil =>
          have ha : a ≠ 10 ∧ a ≠ 13 := by
            constructor
            · rintro rfl
              simp [isLineStart] at h
            · rintro rfl
              simp [isLineStart] at h
          simp [isLineStart, ha.1, ha.2]
      | cons b u =>
          rw [List.cons_append, List.cons_append, isLineStart_cons_cons] at h ⊢
          exact h

/-- A blank may stand in a value. -/
theorem isValueByte_of_isBlank {b : Text} (h : b.all isBlank = true) :
    b.all isValueByte = true := by
  rw [List.all_eq_true] at h ⊢
  intro c hc
  rcases of_decide_eq_true (h c hc) with rfl | rfl <;> rfl

/-- Blanks in front of a value are dropped. -/
theorem dropWhile_append_of_all {b v : Text} (h : b.all isBlank = true) :
    (b ++ v).dropWhile isBlank = v.dropWhile isBlank := by
  rw [List.dropWhile_append_of_pos]
  simpa using h

/-- A field value starts with no blank. -/
theorem dropWhile_fieldValue {v : Text} (h : isFieldValue v = true) : v.dropWhile isBlank = v := by
  cases v with
  | nil => rfl
  | cons c v =>
      simp only [isFieldValue, List.head?_cons, Option.any_some, Bool.and_eq_true,
        Bool.not_eq_true'] at h
      rw [List.dropWhile_cons, h.2, if_neg (by simp)]

/-- The end of a line makes it a line of the header. -/
theorem Rest.line {es : List (Text × Text)} {c : UInt8} {xs name v : Text} {q' : HeaderState}
    (h : Rest es xs q' []) (hends : HeaderState.LineEnds c q') (hname : isFieldName name = true)
    (hstart : isLineStart name = false) (hv : v.all isValueByte = true) :
    HeaderText ((name, v.dropWhile isBlank) :: es) ((name ++ 58 :: v) ++ c :: xs) := by
  rw [List.append_assoc, List.cons_append]
  rcases hends with ⟨rfl, rfl⟩ | ⟨rfl, rfl⟩
  · exact .line hname hstart hv (.inl rfl) h
  · obtain ⟨xs', rfl, hxs'⟩ := h
    exact .line hname hstart hv (.inr rfl) hxs'

/-! ## Runs over a header -/

/-- A step from a line so far to another one, with the calls that it makes. -/
def Extends (m : Memory) (p : Nat) (w w₁ : Watched) (q : HeaderState) (u : Text)
    (q' : HeaderState) : Prop :=
  ∃ u' es₀, LinePhase m (p + 1) w₁.parser q' u' ∧ w₁.calls = w.calls ++ es₀ ∧
    ∀ es xs, Rest es xs q' u' → Rest (es₀ ++ es) (m p :: xs) q u

section Steps

variable {m : Memory} {p : Nat} {w w₁ : Watched} {as : List RequestAction} {q q' : HeaderState}

theorem at_single (m : Memory) (p : Nat) : At m p [m p] := rfl

/-- A line starts. -/
theorem extends_top (hstep : HeaderState.LineStep (m p) as q' .top)
    (hacts : Watched.acts m p as w = some w₁) : Extends m p w w₁ .top [] q' := by
  obtain ⟨rfl, hcase⟩ := hstep
  cases hacts
  rcases hcase with ⟨hc, rfl⟩ | ⟨h10, h13, htoken, rfl⟩
  · refine ⟨[13], [], .nameOrEnd ?_ rfl, rfl, ?_⟩
    · rw [← hc]
      exact at_single m p
    · intro es xs h
      rw [hc]
      exact h
  · refine ⟨[m p], [], .name ?_ ?_ (at_single m p) rfl, rfl, fun es xs h => h⟩
    · simpa using htoken
    · rw [List.singleton_append, isLineStart_cons_cons]
      simp [h10, h13]

/-- The name goes on. -/
theorem extends_name {u : Text} (htoken : u.all token.mem = true) (hat : At m w.parser.fieldStart u)
    (hp : w.parser.fieldStart + u.length = p) (hc : token.mem (m p) = true)
    (hstart : isLineStart ((u ++ [m p]) ++ [10]) = false) (hq : q = .name ∨ q = .nameOrEnd) :
    Extends m p w w q u .name := by
  refine ⟨u ++ [m p], [], .name ?_ hstart ?_ ?_, by simp, ?_⟩
  · rw [List.all_append, htoken]
    simpa using hc
  · refine at_append.mpr ⟨hat, ?_⟩
    rw [hp]
    exact at_single m p
  · simp only [List.length_append, List.length_singleton]
    omega
  · intro es xs h
    have h' : HeaderText es ((u ++ [m p]) ++ xs) := h
    rw [List.append_assoc] at h'
    rcases hq with rfl | rfl <;> exact h'

/-- The name ends at the colon. -/
theorem extends_colon {u : Text} (htoken : isFieldName u = true) (hstart : isLineStart u = false)
    (hat : At m w.parser.fieldStart u) (hp : w.parser.fieldStart + u.length = p)
    (hsmall : p < 2 ^ 62) (hc : m p = 58) (hq : q = .name ∨ q = .nameOrEnd)
    (hacts : Watched.acts m p [.writeField] w = some w₁) : Extends m p w w₁ q u .colon := by
  cases hacts
  refine ⟨u ++ 58 :: [], [], .front (.inl rfl) ⟨htoken, hstart, ?_⟩ rfl, rfl, ?_⟩
  · change slice m w.parser.fieldStart (len w.parser.fieldStart p) = u
    rw [← hp, len_add (hp ▸ hsmall)]
    exact hat
  · intro es xs h
    have h' : HeaderText es ((u ++ 58 :: []) ++ xs) := h
    rw [List.append_assoc] at h'
    rw [hc]
    rcases hq with rfl | rfl <;> exact h'

/-- In front of a value. -/
theorem extends_front {name b : Text} (hq : q = .colon ∨ q = .space)
    (hfield : FieldRead m name w.parser) (hb : b.all isBlank = true) (hsmall : p < 2 ^ 62)
    (hstep : HeaderState.LineStep (m p) as q' .space)
    (hacts : Watched.acts m p as w = some w₁) : Extends m p w w₁ q (name ++ 58 :: b) q' := by
  have hassoc : ∀ xs, (name ++ 58 :: (b ++ [m p])) ++ xs = (name ++ 58 :: b) ++ m p :: xs := by
    intro xs
    simp
  have hfield' : FieldRead m name { w.parser with mark := p } :=
    ⟨hfield.token, hfield.start, hfield.text⟩
  rcases hstep with ⟨rfl, hblank, rfl⟩ | ⟨rfl, hbyte, hblank, rfl⟩ | ⟨rfl, hends⟩
  · cases hacts
    refine ⟨name ++ 58 :: (b ++ [m p]), [], .front (.inr rfl) hfield' ?_, rfl, ?_⟩
    · rw [List.all_append, hb]
      simpa using hblank
    · intro es xs h
      have h' : HeaderText es ((name ++ 58 :: (b ++ [m p])) ++ xs) := h
      rw [hassoc] at h'
      rcases hq with rfl | rfl <;> exact h'
  · cases hacts
    have hone : p + 1 - p = 1 := Nat.add_sub_cancel_left p 1
    have hvalue : InValue m (p + 1) { w.parser with mark := p } := by
      refine ⟨Nat.le_succ p, ?_⟩
      simp [hone, slice, isFieldValue, hbyte, hblank]
    refine ⟨_, [], .value (.inl rfl) hfield' hb hvalue, rfl, ?_⟩
    intro es xs h
    have h' : HeaderText es ((name ++ 58 :: (b ++ slice m p (p + 1 - p))) ++ xs) := h
    rw [hone, show slice m p 1 = [m p] from rfl, hassoc] at h'
    rcases hq with rfl | rfl <;> exact h'
  · -- a line without a value
    rcases Option.bind_eq_some_iff.mp hacts with ⟨ps₁, hact₁, hrest₁⟩
    cases hact₁
    rcases Option.bind_eq_some_iff.mp hrest₁ with ⟨ps₂, -, hrest₂⟩
    cases hrest₂
    have hempty : b.dropWhile isBlank = [] := by
      simpa using dropWhile_append_of_all (v := []) hb
    have hcall : Watched.called m p .writeValue { w.parser with mark := p } = [(name, [])] := by
      rw [Watched.called, hfield'.text, len_of_le le_rfl hsmall, Nat.sub_self]
      rfl
    refine ⟨[], [(name, [])], ?_, ?_, ?_⟩
    · rcases hends with ⟨-, rfl⟩ | ⟨-, rfl⟩
      · exact .top
      · exact .lineEnd
    · rw [hcall]
      simp [Watched.called]
    · intro es xs h
      have h' := h.line hends hfield.token hfield.start (isValueByte_of_isBlank hb)
      rw [hempty] at h'
      rcases hq with rfl | rfl <;> exact h'

/-- In a value. -/
theorem extends_value {name b : Text} (hq : q.inAValue) (hfield : FieldRead m name w.parser)
    (hb : b.all isBlank = true) (hvalue : InValue m p w.parser) (hsmall : p < 2 ^ 62)
    (hstep : HeaderState.LineStep (m p) as q' .value)
    (hacts : Watched.acts m p as w = some w₁) :
    Extends m p w w₁ q (name ++ 58 :: (b ++ slice m w.parser.mark (p - w.parser.mark))) q' := by
  have hle := hvalue.1
  rcases hstep with ⟨rfl, hbyte, hq'⟩ | ⟨rfl, hends⟩
  · cases hacts
    refine ⟨_, [], .value hq' hfield hb (hvalue.succ hbyte), by simp, ?_⟩
    intro es xs h
    have hsucc : slice m w.parser.mark (p + 1 - w.parser.mark) =
        slice m w.parser.mark (p - w.parser.mark) ++ [m p] := by
      rw [Nat.sub_add_comm hle, slice_add, Nat.add_sub_cancel' hle]
      rfl
    rw [hsucc] at h
    have h' : HeaderText es
        ((name ++ 58 :: (b ++ (slice m w.parser.mark (p - w.parser.mark) ++ [m p]))) ++ xs) := by
      rcases hq' with rfl | rfl <;> exact h
    have hassoc :
        (name ++ 58 :: (b ++ (slice m w.parser.mark (p - w.parser.mark) ++ [m p]))) ++ xs =
        (name ++ 58 :: (b ++ slice m w.parser.mark (p - w.parser.mark))) ++ m p :: xs := by
      simp
    rw [hassoc] at h'
    rcases hq with rfl | rfl <;> exact h'
  · rcases Option.bind_eq_some_iff.mp hacts with ⟨ps₁, -, hrest⟩
    cases hrest
    refine ⟨[], [(name, slice m w.parser.mark (p - w.parser.mark))], ?_, ?_, ?_⟩
    · rcases hends with ⟨-, rfl⟩ | ⟨-, rfl⟩
      · exact .top
      · exact .lineEnd
    · rw [Watched.called, hfield.text, len_of_le hle hsmall]
    · intro es xs h
      have hbytes : (b ++ slice m w.parser.mark (p - w.parser.mark)).all isValueByte = true := by
        have hslice := hvalue.2
        rw [isFieldValue, Bool.and_eq_true] at hslice
        rw [List.all_append, isValueByte_of_isBlank hb, hslice.1]
        rfl
      have h' := h.line hends hfield.token hfield.start hbytes
      rw [dropWhile_append_of_all hb, dropWhile_fieldValue hvalue.2] at h'
      rcases hq with rfl | rfl <;> exact h'

/-- What one byte of a header line adds to the line and to the calls. -/
theorem LinePhase.step {u : Text} (h : LinePhase m p w.parser q u) (hsmall : p < 2 ^ 62)
    (hstep : HeaderState.LineStep (m p) as q' q) (hacts : Watched.acts m p as w = some w₁) :
    Extends m p w w₁ q u q' := by
  cases h with
  | top => exact extends_top hstep hacts
  | name htoken hstart hat hp =>
      have hname : isFieldName u = true := by
        rw [isFieldName, htoken, Bool.and_true]
        cases u with
        | nil => simp [isLineStart] at hstart
        | cons a u => rfl
      rcases hstep with ⟨rfl, hc, rfl⟩ | ⟨rfl, hc, rfl⟩
      · cases hacts
        refine extends_name htoken hat hp hc ?_ (.inl rfl)
        rw [List.append_assoc]
        exact isLineStart_append hstart _
      · have hstart' : isLineStart u = false := by
          simpa using isLineStart_append hstart []
        exact extends_colon hname hstart' hat hp hsmall hc (.inl rfl) hacts
  | nameOrEnd hat hp =>
      rcases hstep with ⟨rfl, h10, hc, rfl⟩ | ⟨rfl, hc, rfl⟩
      · cases hacts
        refine extends_name (by decide) hat hp hc ?_ (.inr rfl)
        change isLineStart (13 :: m p :: [10]) = false
        rw [isLineStart_cons_cons]
        simp [h10]
      · exact extends_colon (by decide) (by decide) hat hp hsmall hc (.inr rfl) hacts
  | front hq hfield hb =>
      refine extends_front hq hfield hb hsmall ?_ hacts
      rcases hq with rfl | rfl <;> exact hstep
  | value hq hfield hb hvalue =>
      refine extends_value hq hfield hb hvalue hsmall ?_ hacts
      rcases hq with rfl | rfl <;> exact hstep
  | lineEnd =>
      obtain ⟨rfl, hc, rfl⟩ := hstep
      cases hacts
      refine ⟨[], [], .top, by simp, ?_⟩
      intro es xs h
      exact ⟨xs, by rw [hc], h⟩

/-- The line feed that ends the header. -/
theorem LinePhase.finish {u : Text} (h : LinePhase m p w.parser q u)
    (hq : q = .top ∨ q = .nameOrEnd) (xs : Text) : Rest [] (10 :: xs) q u := by
  cases h with
  | top => exact HeaderText.finish rfl
  | nameOrEnd => exact HeaderText.finish rfl
  | name => exact absurd hq (by decide)
  | front hfront => rcases hfront with rfl | rfl <;> exact absurd hq (by decide)
  | value hvalue => rcases hvalue with rfl | rfl <;> exact absurd hq (by decide)
  | lineEnd => exact absurd hq (by decide)

end Steps

/-- A run over a header that gets to a final state makes one call for each line. -/
theorem headerText_of_exec {m : Memory} {p e : Nat} {xs u : Text} {q : HeaderState}
    {w w' : Watched} (h : LinePhase m p w.parser q u) (hcs : w.parser.cs = some q.threads)
    (hat : At m p xs) (hsmall : p + xs.length < 2 ^ 62)
    (hexec : Watched.exec m xs.length p w = some (e, w')) (hfinished : w'.Finished) :
    ∃ es, w'.calls = w.calls ++ es ∧ Rest es xs q u := by
  induction xs generalizing p w q u with
  | nil =>
      have hfinal := hfinished.isFinal ((Prod.mk.inj (Option.some.inj hexec)).2 ▸ hcs)
      rw [q.isFinal_threads] at hfinal
      cases hfinal
  | cons c xs ih =>
      obtain ⟨rfl, hat'⟩ := at_cons.mp hat
      rw [List.length_cons] at hsmall hexec
      obtain ⟨as, threads', w₁, hstep, hacts, hrun⟩ := Watched.exec_succ_inv hexec hfinished hcs
      have hcs₁ : w₁.parser.cs = some threads' := Watched.acts_cs hacts
      rcases HeaderState.lineStep_of_step hstep with ⟨q', hline, rfl⟩ | ⟨⟨hc, hq⟩, hdone, hwrite⟩
      · obtain ⟨u', es₀, hphase, hcalls, hrest⟩ :=
          (h.goto (some q'.threads)).step (w := ⟨_, w.calls⟩) (by omega) hline hacts
        rcases hrun with ⟨-, rfl⟩ | ⟨-, hrun⟩
        · have hfinal := hfinished.isFinal hcs₁
          rw [q'.isFinal_threads] at hfinal
          cases hfinal
        · obtain ⟨es, hcalls', hes⟩ := ih hphase hcs₁ hat' (by omega) hrun
          refine ⟨es₀ ++ es, ?_, hrest es xs hes⟩
          rw [hcalls', hcalls, List.append_assoc]
      · rcases hrun with ⟨-, rfl⟩ | ⟨hnot, -⟩
        · refine ⟨[], ?_, ?_⟩
          · rw [Watched.acts_calls hacts hwrite, List.append_nil]
          · rw [hc]
            exact h.finish hq xs
        · exact absurd hdone hnot

/-! ## Runs over a request -/

/-- A thread of the request line cannot end. -/
theorem LineThread.not_nullable {t : E} (h : LineThread t) : t.nullable = false := by
  obtain ⟨x, rfl, -⟩ := h
  have hrest : headerRest.nullable = false := by decide
  change (x.nullable && headerRest.nullable) = false
  rw [hrest, Bool.and_false]

/-- A state of the request line is not final. -/
theorem isFinal_line {threads : List E} (h : ∀ t ∈ threads, LineThread t) :
    isFinal threads = false := by
  rw [isFinal, List.any_eq_false]
  intro t ht
  rw [(h t ht).not_nullable]
  simp

/-- A run over a request that gets to a final state makes one call for each line behind the
request line. -/
theorem calls_of_line {m : Memory} {p e : Nat} {xs : Text} {threads : List E} {w w' : Watched}
    (hline : ∀ t ∈ threads, LineThread t) (hcs : w.parser.cs = some threads)
    (hat : At m p xs) (hsmall : p + xs.length < 2 ^ 62)
    (hexec : Watched.exec m xs.length p w = some (e, w')) (hfinished : w'.Finished) :
    ∃ es l rest, w'.calls = w.calls ++ es ∧ xs = l ++ 10 :: rest ∧ 10 ∉ l ∧
      HeaderText es rest := by
  induction xs generalizing p w threads with
  | nil =>
      have hfinal := hfinished.isFinal ((Prod.mk.inj (Option.some.inj hexec)).2 ▸ hcs)
      rw [isFinal_line hline] at hfinal
      cases hfinal
  | cons c xs ih =>
      obtain ⟨rfl, hat'⟩ := at_cons.mp hat
      rw [List.length_cons] at hsmall hexec
      obtain ⟨as, threads', w₁, hstep, hacts, hrun⟩ := Watched.exec_succ_inv hexec hfinished hcs
      have hcs₁ : w₁.parser.cs = some threads' := Watched.acts_cs hacts
      obtain ⟨hfield, hfeed, hother⟩ := step_line hline hstep
      have hcalls : w₁.calls = w.calls := (Watched.acts_calls hacts (writeValue_not_mem hfield) :)
      have hnotFinal : isFinal threads' = false := by
        by_cases hc : m p = 10
        · rw [hfeed hc]
          exact HeaderState.top.isFinal_threads
        · exact isFinal_line (hother hc)
      rcases hrun with ⟨-, rfl⟩ | ⟨-, hrun⟩
      · have hfinal := hfinished.isFinal hcs₁
        rw [hnotFinal] at hfinal
        cases hfinal
      · by_cases hc : m p = 10
        · rw [hfeed hc] at hcs₁
          obtain ⟨es, hes, hrest⟩ :=
            headerText_of_exec .top hcs₁ hat' (by omega) hrun hfinished
          exact ⟨es, [], xs, by rw [hes, hcalls], by rw [hc]; rfl, by simp, hrest⟩
        · obtain ⟨es, l, rest, hes, rfl, hl, hrest⟩ := ih (hother hc) hcs₁ hat' (by omega) hrun
          refine ⟨es, m p :: l, rest, by rw [hes, hcalls], rfl, ?_, hrest⟩
          simp only [List.mem_cons, not_or]
          exact ⟨Ne.symm hc, hl⟩

/-- A run over a socket request makes no call. -/
theorem calls_of_socket {m : Memory} {n p e : Nat} {threads : List E} {w w' : Watched}
    (hsocket : ∀ t ∈ threads, t.avoids isFieldAct = true) (hcs : w.parser.cs = some threads)
    (hexec : Watched.exec m n p w = some (e, w')) (hfinished : w'.Finished) :
    w'.calls = w.calls := by
  induction n generalizing p w threads with
  | zero => rw [← (Prod.mk.inj (Option.some.inj hexec)).2]
  | succ n ih =>
      obtain ⟨as, threads', w₁, hstep, hacts, hrun⟩ := Watched.exec_succ_inv hexec hfinished hcs
      obtain ⟨hfield, hsocket'⟩ := step_socket hsocket hstep
      have hcalls : w₁.calls = w.calls := (Watched.acts_calls hacts (writeValue_not_mem hfield) :)
      rcases hrun with ⟨-, rfl⟩ | ⟨-, hrun⟩
      · exact hcalls
      · rw [ih hsocket' (Watched.acts_cs hacts) hrun, hcalls]

/-- The first step of a run is that of a request or that of a socket request. -/
theorem exec_start (r : Bool) {m : Memory} {n p : Nat} {w : Watched}
    (hcs : w.parser.cs = some (start (main r))) :
    Watched.exec m (n + 1) p w = Watched.exec m (n + 1) p
      ⟨{ w.parser with cs := some (if isSocketStart (m p) then
        [.finishing 29 .done (SocketRequest r)] else [.finishing 29 .done (Request r)]) },
        w.calls⟩ := by
  rw [Watched.exec, Watched.exec, hcs]
  simp only [step_main, apply_ite (fun t => step t (m p))]

/-- The calls of a request that is accepted: one for each header line of a request, and none for a
socket request. -/
theorem calls_of_exec {env : Env} {m : Memory} {e : Nat} {xs : Text} {w' : Watched}
    (hat : At m 0 xs) (hsmall : xs.length < 2 ^ 62)
    (hexec : Watched.exec m xs.length 0 ⟨HTTPRequestParser.init env, []⟩ = some (e, w'))
    (hfinished : w'.Finished) :
    if xs.head?.any isSocketStart then w'.calls = []
    else ∃ l rest, xs = l ++ 10 :: rest ∧ 10 ∉ l ∧ HeaderText w'.calls rest := by
  cases xs with
  | nil =>
      rw [← (Prod.mk.inj (Option.some.inj hexec)).2] at hfinished
      have hfinal := hfinished.isFinal rfl
      rw [RequestReach.not_isFinal (r := env.uriRelaxed) .start] at hfinal
      cases hfinal
  | cons c xs =>
      have hc : m 0 = c := (at_cons.mp hat).1
      rw [List.length_cons, exec_start env.uriRelaxed rfl, hc] at hexec
      rw [List.head?_cons, Option.any_some]
      split
      next hstart =>
        rw [if_pos hstart] at hexec
        exact calls_of_socket (socketRequest_noFields env.uriRelaxed) rfl hexec hfinished
      next hstart =>
        rw [if_neg hstart] at hexec
        obtain ⟨es, l, rest, hes, hxs, hl, hrest⟩ :=
          calls_of_line (lineThread_request env.uriRelaxed) rfl hat (by simpa using hsmall) hexec
            hfinished
        rw [hes]
        exact ⟨l, rest, hxs, hl, hrest⟩


end Http
end Tiger
