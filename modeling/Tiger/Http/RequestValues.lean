import Tiger.Http.RequestReads

/-!
# HTTP - the values of header fields

Whatever the text is, the value of a header field that the request parser has read is empty,
or it starts with a byte that is no blank and has no CR, LF, NUL or DEL.  Between the byte where
a value was marked and the position of the machine there are bytes of a value only.

Main results:

- Theorem `ValuePhase.step`: one byte keeps the values clean.
- Theorem `exec_clean`: so does a whole call.
-/

namespace Tiger
namespace Http

open Lib.Ragel HTTPRequestParser RequestGrammar

/-- All values are clean. -/
def CleanHeaders (headers : FieldMap) : Prop := ∀ e ∈ headers, Clean e.2

theorem CleanHeaders.set {headers : FieldMap} {k v : Text} (h : CleanHeaders headers)
    (hv : Clean v) : CleanHeaders (headers.set k v) := by
  induction headers with
  | nil =>
      intro e he
      rw [List.mem_singleton.mp he]
      exact hv
  | cons x headers ih =>
      obtain ⟨a, b⟩ := x
      have hhead : Clean b := h (a, b) List.mem_cons_self
      have htail : CleanHeaders headers := fun e he => h e (List.mem_cons_of_mem _ he)
      rw [FieldMap.set]
      split
      · intro e he
        rcases List.mem_cons.mp he with rfl | he
        · exact hv
        · exact h e he
      · split
        · intro e he
          rcases List.mem_cons.mp he with rfl | he
          · exact hhead
          · exact ih htail e he
        · intro e he
          rcases List.mem_cons.mp he with rfl | he
          · exact hv
          · exact htail e he

theorem CleanHeaders.find {headers : FieldMap} {k v : Text} (h : CleanHeaders headers)
    (hfind : headers.find k = some v) : Clean v := by
  induction headers with
  | nil => simp [FieldMap.find] at hfind
  | cons x headers ih =>
      obtain ⟨a, b⟩ := x
      rw [FieldMap.find] at hfind
      split at hfind
      · exact ih (fun e he => h e (List.mem_cons_of_mem _ he)) hfind
      · rw [← Option.some.inj hfind]
        exact h (a, b) List.mem_cons_self

/-! ## The table of the header -/

private theorem kind_bytes : ∀ n < 256,
    isValueByte (UInt8.ofNat n) = isValueByte (kindOf (UInt8.ofNat n)) ∧
      isBlank (UInt8.ofNat n) = isBlank (kindOf (UInt8.ofNat n)) := by
  decide +kernel

theorem kindOf_bytes (c : UInt8) :
    isValueByte c = isValueByte (kindOf c) ∧ isBlank c = isBlank (kindOf c) := by
  have hkinds := kind_bytes c.toNat c.toNat_lt
  rwa [UInt8.ofNat_toNat] at hkinds

/-- What a step in the header does with the value. -/
inductive ValueStep (q : HeaderState) (c : UInt8) :
    List RequestAction → HeaderState → Prop
  /-- nothing -/
  | other {as : List RequestAction} {q' : HeaderState} :
      .writeValue ∉ as → ¬q'.inAValue → ValueStep q c as q'
  /-- the value starts -/
  | first {q' : HeaderState} : isValueByte c = true → isBlank c = false → q'.inAValue →
      ValueStep q c [.startValue] q'
  /-- the value goes on -/
  | more {q' : HeaderState} : isValueByte c = true → q.inAValue → q'.inAValue → ValueStep q c [] q'
  /-- the value ends -/
  | last {q' : HeaderState} : q.inAValue → ¬q'.inAValue → ValueStep q c [.writeValue] q'
  /-- there is no value -/
  | empty {q' : HeaderState} : ¬q'.inAValue → ValueStep q c [.startValue, .writeValue] q'

/-- The check of one entry of the table. -/
def valueStepOk (q : HeaderState) (k : UInt8) : Bool :=
  (q.does k).all fun s =>
    decide (.writeValue ∉ s.1 ∧ ¬s.2.inAValue) ||
      decide (isValueByte k = true ∧ isBlank k = false ∧ s.2.inAValue ∧ s.1 = [.startValue]) ||
      decide (isValueByte k = true ∧ q.inAValue ∧ s.2.inAValue ∧ s.1 = []) ||
      decide (q.inAValue ∧ ¬s.2.inAValue ∧ s.1 = [.writeValue]) ||
      decide (¬s.2.inAValue ∧ s.1 = [.startValue, .writeValue])

private theorem valueStepOk_all :
    HeaderState.all.all (fun q => HeaderState.kinds.all (valueStepOk q)) = true := by
  decide

/-- The table as a rule for values. -/
theorem valueStep_of_does {q q' : HeaderState} {c : UInt8} {as : List RequestAction}
    (h : q.does (kindOf c) = some (as, q')) : ValueStep q c as q' := by
  have hok := List.all_eq_true.mp (List.all_eq_true.mp valueStepOk_all q q.mem_all) _
    (HeaderState.kindOf_mem_kinds c)
  simp only [valueStepOk, h, Option.all_some, Bool.or_eq_true, decide_eq_true_eq,
    ← kindOf_bytes c] at hok
  rcases hok with (((⟨hact, hq'⟩ | ⟨hbyte, hblank, hq', rfl⟩) | ⟨hbyte, hq, hq', rfl⟩) |
    ⟨hq, hq', rfl⟩) | ⟨hq', rfl⟩
  · exact .other hact hq'
  · exact .first hbyte hblank hq'
  · exact .more hbyte hq hq'
  · exact .last hq hq'
  · exact .empty hq'

/-! ## Runs -/

/-- Only `write_value` changes the header fields. -/
theorem act_headers {m : Memory} {p : Nat} {a : RequestAction} {ps ps' : HTTPRequestParser}
    (h : act m p a ps = some ps') (ha : a ≠ .writeValue) :
    ps'.data.headers = ps.data.headers := by
  cases a with
  | writeValue => exact absurd rfl ha
  | requestMethod =>
      rw [act, onRequestMethod] at h
      simp only at h
      split at h
      · rcases Option.map_eq_some_iff.mp h with ⟨v, -, rfl⟩
        rfl
      · rw [← Option.some.inj h]
  | httpVersion =>
      rw [act, onRequestHttpVersion] at h
      split at h
      · rw [← Option.some.inj h]
      · split at h
        · rw [← Option.some.inj h]
        · rcases Option.map_eq_some_iff.mp h with ⟨v, -, rfl⟩
          rfl
  | fragment =>
      rcases Option.map_eq_some_iff.mp h with ⟨v, -, rfl⟩
      rfl
  | requestPath =>
      rcases Option.map_eq_some_iff.mp h with ⟨v, -, rfl⟩
      rfl
  | queryString =>
      rcases Option.bind_eq_some_iff.mp h with ⟨q, -, hq⟩
      rcases Option.map_eq_some_iff.mp hq with ⟨v, -, rfl⟩
      rfl
  | done =>
      rcases act_done m p ps with ⟨ps₁, hact, hdata, -⟩
      rw [h, Option.some.injEq] at hact
      rw [hact, hdata]
  | mark => rw [← Option.some.inj h]
  | startField => rw [← Option.some.inj h]
  | writeField => rw [← Option.some.inj h]
  | startValue => rw [← Option.some.inj h]
  | requestUri => rw [← Option.some.inj h]
  | startQuery => rw [← Option.some.inj h]
  | xml => rw [← Option.some.inj h]
  | json => rw [← Option.some.inj h]

theorem acts_headers {m : Memory} {p : Nat} {as : List RequestAction} {ps ps' : HTTPRequestParser}
    (h : acts m p as ps = some ps') (has : .writeValue ∉ as) :
    ps'.data.headers = ps.data.headers := by
  induction as generalizing ps with
  | nil => rw [Option.some.inj h]
  | cons a as ih =>
      rcases Option.bind_eq_some_iff.mp h with ⟨ps₁, hact, hrest⟩
      simp only [List.mem_cons, not_or] at has
      rw [ih hrest has.2, act_headers hact (Ne.symm has.1)]

/-- `write_value` keeps the values clean when the text behind the mark is. -/
theorem act_writeValue_clean {m : Memory} {p : Nat} {ps ps' : HTTPRequestParser}
    (h : act m p .writeValue ps = some ps') (hheaders : CleanHeaders ps.data.headers)
    (hclean : Clean (slice m ps.mark (len ps.mark p))) : CleanHeaders ps'.data.headers := by
  rw [act, onRequestHttpField] at h
  split at h
  · rw [← Option.some.inj h]
    exact hheaders
  · split at h
    next k v hk hv =>
      have hslice : slice m ps.mark (len ps.mark p) = v := by
        rw [string] at hv
        split at hv
        · exact Option.some.inj hv
        · simp at hv
      rw [← Option.some.inj h]
      exact hheaders.set (hslice ▸ hclean)
    next => simp at h

/-- The text between the mark and the position is that of a value. -/
def InValue (m : Memory) (p : Nat) (ps : HTTPRequestParser) : Prop :=
  ps.mark ≤ p ∧ isFieldValue (slice m ps.mark (p - ps.mark)) = true

/-- How far the parser is, with the text of a value that it is in. -/
inductive ValuePhase (r : Bool) (m : Memory) (p : Nat) (ps : HTTPRequestParser) : Prop
  | front {threads : List E} : ps.cs = some threads → InFront r threads → ValuePhase r m p ps
  | header (q : HeaderState) : ps.cs = some q.threads → (q.inAValue → InValue m p ps) →
      ValuePhase r m p ps

theorem isFieldValue_append {v : Text} {c : UInt8} (h : isFieldValue v = true)
    (hc : isValueByte c = true) : isFieldValue (v ++ [c]) = true := by
  cases v with
  | nil => simp [isFieldValue] at h
  | cons d v =>
      simp only [isFieldValue, List.cons_append, List.all_cons, List.all_append, List.head?_cons,
        Bool.and_eq_true] at h ⊢
      exact ⟨⟨h.1.1, h.1.2, by simp [hc]⟩, h.2⟩

theorem InValue.succ {m : Memory} {p : Nat} {ps : HTTPRequestParser} (h : InValue m p ps)
    (hc : isValueByte (m p) = true) : InValue m (p + 1) ps := by
  refine ⟨h.1.trans (Nat.le_succ p), ?_⟩
  have hsplit : p + 1 - ps.mark = (p - ps.mark) + 1 := by
    have := h.1
    omega
  have hpos : ps.mark + (p - ps.mark) = p := Nat.add_sub_cancel' h.1
  rw [hsplit, slice_add, hpos]
  exact isFieldValue_append h.2 hc

/-- A step in the header keeps the values clean. -/
theorem ValueStep.clean {r : Bool} {m : Memory} {p : Nat} {q q' : HeaderState}
    {as : List RequestAction} {ps ps' : HTTPRequestParser} (h : ValueStep q (m p) as q')
    (hp : p < 2 ^ 62) (hvalue : q.inAValue → InValue m p ps)
    (hheaders : CleanHeaders ps.data.headers)
    (hacts : acts m p as { ps with cs := some q'.threads } = some ps') :
    CleanHeaders ps'.data.headers ∧ ValuePhase r m (p + 1) ps' := by
  have hcs : ps'.cs = some q'.threads := (acts_frame hacts).1
  cases h with
  | other hact hq' =>
      rw [acts_headers hacts hact]
      exact ⟨hheaders, .header q' hcs fun h => absurd h hq'⟩
  | first hbyte hblank hq' =>
      rcases Option.some.inj hacts with rfl
      refine ⟨hheaders, .header q' rfl fun _ => ⟨Nat.le_succ p, ?_⟩⟩
      rw [Nat.add_sub_cancel_left]
      simp [slice, isFieldValue, hbyte, hblank]
  | more hbyte hq hq' =>
      rcases Option.some.inj hacts with rfl
      exact ⟨hheaders, .header q' rfl fun _ => (hvalue hq).succ hbyte⟩
  | last hq hq' =>
      rcases Option.bind_eq_some_iff.mp hacts with ⟨ps₁, hact, hrest⟩
      rcases Option.some.inj hrest with rfl
      have hin := hvalue hq
      refine ⟨act_writeValue_clean hact hheaders (.inr ?_), .header q' hcs fun h => absurd h hq'⟩
      rw [len_of_le hin.1 hp]
      exact hin.2
  | empty hq' =>
      rcases Option.bind_eq_some_iff.mp hacts with ⟨ps₁, hact, hrest⟩
      rcases Option.some.inj hact with rfl
      rcases Option.bind_eq_some_iff.mp hrest with ⟨ps₂, hact₂, hrest₂⟩
      rcases Option.some.inj hrest₂ with rfl
      refine ⟨act_writeValue_clean hact₂ hheaders (.inl ?_), .header q' hcs fun h => absurd h hq'⟩
      change slice m p (len p p) = []
      rw [len_of_le le_rfl hp, Nat.sub_self]
      rfl

/-- One byte keeps the values clean. -/
theorem ValuePhase.step {r : Bool} {m : Memory} {p : Nat} {threads threads' : List E}
    {as : List RequestAction} {ps ps' : HTTPRequestParser} (h : ValuePhase r m p ps)
    (hp : p < 2 ^ 62) (hcs : ps.cs = some threads)
    (hstep : step threads (m p) = some (as, threads')) (hheaders : CleanHeaders ps.data.headers)
    (hacts : acts m p as { ps with cs := some threads' } = some ps') :
    CleanHeaders ps'.data.headers ∧ (.done ∈ as ∨ ValuePhase r m (p + 1) ps') := by
  cases h with
  | front hcs' hfront =>
      rw [hcs, Option.some.injEq] at hcs'
      subst hcs'
      rcases hfront.step hstep with ⟨hfield, hnext⟩
      rw [acts_headers hacts (writeValue_not_mem hfield)]
      refine ⟨hheaders, .inr ?_⟩
      rcases hnext with hnext | rfl
      · exact .front (acts_frame hacts).1 hnext
      · exact .header .top (acts_frame hacts).1 fun h => absurd h (by decide)
  | header q hcs' hvalue =>
      rw [hcs, Option.some.injEq] at hcs'
      subst hcs'
      rcases HeaderState.does_of_step hstep with ⟨q', hdoes, rfl⟩ | ⟨hdone, hact⟩
      · have hclean := (valueStep_of_does hdoes).clean (r := r) hp hvalue hheaders hacts
        exact ⟨hclean.1, .inr hclean.2⟩
      · rw [acts_headers hacts hact]
        exact ⟨hheaders, .inl hdone⟩

/-- A call keeps the values clean. -/
theorem exec_clean {r : Bool} {m : Memory} {n p q : Nat} {ps ps' : HTTPRequestParser}
    (h : ValuePhase r m p ps) (hsmall : p + n < 2 ^ 62) (hheaders : CleanHeaders ps.data.headers)
    (hexec : exec m n p ps = some (q, ps')) : CleanHeaders ps'.data.headers := by
  induction n generalizing p ps with
  | zero =>
      rcases Prod.mk.inj (Option.some.inj hexec) with ⟨-, rfl⟩
      exact hheaders
  | succ n ih =>
      rw [exec] at hexec
      split at hexec
      next =>
        rcases Prod.mk.inj (Option.some.inj hexec) with ⟨-, rfl⟩
        exact hheaders
      next threads hcs =>
        split at hexec
        next =>
          rcases Prod.mk.inj (Option.some.inj hexec) with ⟨-, rfl⟩
          exact hheaders
        next as threads' hstep =>
          rcases Option.bind_eq_some_iff.mp hexec with ⟨ps₁, hacts, hrest⟩
          rcases h.step (by omega) hcs hstep hheaders hacts with ⟨hclean, hphase⟩
          split at hrest
          · rcases Prod.mk.inj (Option.some.inj hrest) with ⟨-, rfl⟩
            exact hclean
          next hdone =>
            exact ih (hphase.resolve_left (by simpa using hdone)) (by omega) hclean hrest

end Http
end Tiger
