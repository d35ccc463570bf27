import Tiger.Streams.ZlibStream

/-!
# Streams - what `inflate` reports

The documentation of `inflate` says what a code means in terms of a format and of the bytes that
were offered so far.  Pieces of a text are offered one after the other; `inflate` is called again
for a piece as long as it fills the space that it is offered.

Main results:

- Theorem `Documented.call`: the step lemma, one call for a piece.
- Theorem `Status.whole_iff`: `inflate` has decoded the pieces to an end exactly if they begin
  with a whole stream and the memory for it was there.
-/

namespace Tiger
namespace Zlib

/-! ## Formats -/

/-- `Z_NEED_DICT`, `Z_DATA_ERROR` and `Z_MEM_ERROR`. -/
def decodingErrors : List Int := [zNeedDict, zDataError, zMemError]

/-- A format: which texts are whole streams that need no dictionary, and whether the memory that
`inflate` asks for can be had when it was offered a text. -/
structure Format where
  whole : List UInt8 → Prop
  memory : List UInt8 → Prop
  ne_nil : ∀ w, whole w → w ≠ []

namespace Format

variable (f : Format)

/-- A text begins with a whole stream. -/
def Begins (xs : List UInt8) : Prop := ∃ w, f.whole w ∧ w <+: xs

/-- The memory is there for every piece up to the end of a whole stream. -/
def Supplies (vs : List (List UInt8)) : Prop :=
  ∀ front v, front ++ [v] <+: vs → ¬f.Begins front.flatten → f.memory (front ++ [v]).flatten

/-- The pieces begin with a whole stream, and the memory for it is there. -/
def Complete (vs : List (List UInt8)) : Prop := f.Begins vs.flatten ∧ f.Supplies vs

variable {f}

/-- A text that begins with a whole stream does so with more behind it. -/
theorem Begins.append {xs : List UInt8} (h : f.Begins xs) (ys : List UInt8) :
    f.Begins (xs ++ ys) := by
  obtain ⟨w, hw, hprefix⟩ := h
  exact ⟨w, hw, hprefix.trans (List.prefix_append xs ys)⟩

theorem not_begins_nil : ¬f.Begins [] := by
  rintro ⟨w, hw, hprefix⟩
  exact f.ne_nil w hw (List.prefix_nil.mp hprefix)

/-- No piece needs no memory. -/
theorem supplies_nil : f.Supplies [] := by
  intro front v hprefix
  have hnil := List.prefix_nil.mp hprefix
  simp at hnil

/-- One more piece needs its own memory, unless the end is in front of it. -/
theorem Supplies.concat {vs : List (List UInt8)} (h : f.Supplies vs) {v : List UInt8}
    (hmemory : ¬f.Begins vs.flatten → f.memory (vs ++ [v]).flatten) : f.Supplies (vs ++ [v]) := by
  intro front w hprefix hshort
  rcases List.prefix_concat_iff.mp hprefix with heq | hprefix
  · obtain ⟨rfl, hlast⟩ := List.append_inj' heq rfl
    obtain rfl : w = v := by simpa using hlast
    exact hmemory hshort
  · exact h front w hprefix hshort

/-- Complete pieces are complete with one more. -/
theorem Complete.concat {vs : List (List UInt8)} (h : f.Complete vs) (v : List UInt8) :
    f.Complete (vs ++ [v]) := by
  refine ⟨?_, h.2.concat fun hshort => absurd h.1 hshort⟩
  rw [List.flatten_append]
  exact h.1.append _

end Format

/-! ## Codes -/

/-- `inflate` reported no error and reached the end of its stream. -/
structure Whole (codes : List Int) : Prop where
  noError : ∀ c ∈ codes, c ∉ decodingErrors
  ends : zStreamEnd ∈ codes

/-- The calls were made to the library in this order. -/
inductive Codec.Makes (codec : Codec) : History → Prop
  | nil : Makes codec []
  | call {past : History} (h : Makes codec past) (q : Request) :
      Makes codec (past ++ [(q, codec.answer past q)])

/-- No call has reached the end or reported an error. -/
structure Clean (past : History) : Prop where
  open_ : zStreamEnd ∉ codesOf past
  noError : ∀ c ∈ codesOf past, c ∉ decodingErrors

/-- What the documentation of `inflate` says of its codes.  `Z_STREAM_ERROR` is for a state that was
freed, and `Z_MEM_ERROR` for memory that is not there.  `Z_DATA_ERROR` and `Z_NEED_DICT` are for a
text that no whole stream begins, and that begins none.  `Z_STREAM_END` is returned at the end of a
whole stream, behind which no call fails.  With any other code and space left all input was taken,
and it does not hold a whole stream. -/
structure Documented (f : Format) (codec : Codec) : Prop where
  streamError : ∀ past q, (codec.answer past q).code = zStreamError ↔ q.ended = true
  behind : ∀ past q, codec.Makes past → q.ended = false → Whole (codesOf past) →
    (codec.answer past q).code ∉ decodingErrors
  memError : ∀ past q, codec.Makes past → q.ended = false → Clean past →
    ((codec.answer past q).code = zMemError ↔ ¬f.memory (takenBy past ++ q.nextIn))
  dataError : ∀ past q, codec.Makes past → q.ended = false → Clean past →
    (codec.answer past q).code = zNeedDict ∨ (codec.answer past q).code = zDataError →
    ∀ w, f.whole w → ¬w <+: takenBy past ++ q.nextIn ∧ ¬takenBy past ++ q.nextIn <+: w
  streamEnd : ∀ past q, codec.Makes past → q.ended = false → Clean past →
    (codec.answer past q).code = zStreamEnd →
    f.whole (takenBy past ++ q.nextIn.take (codec.answer past q).consumed)
  goesOn : ∀ past q, codec.Makes past → q.ended = false → Clean past →
    (codec.answer past q).code ≠ zStreamEnd → (codec.answer past q).code ∉ decodingErrors →
    (codec.answer past q).out.length < q.availOut →
    (codec.answer past q).consumed = q.nextIn.length ∧ ¬f.Begins (takenBy past ++ q.nextIn)

/-! ## Pieces -/

section Pieces

variable {f : Format} {codec : Codec} {past : History} {vs : List (List UInt8)} {v : List UInt8}

/-- Nothing changes any more: the pieces are decoded to an end, or `inflate` has failed and more
pieces cannot make up for it. -/
inductive Closed (f : Format) (vs : List (List UInt8)) (past : History) : Prop
  | whole (h : Whole (codesOf past)) (complete : f.Complete vs)
  | broken (h : ∃ c ∈ codesOf past, c ∈ decodingErrors)
      (never : ∀ more, ¬f.Complete (vs ++ more))

/-- `inflate` is in front of `rest`, the end of the last piece of `vs ++ [v]`. -/
structure Amid (f : Format) (vs : List (List UInt8)) (v rest : List UInt8) (past : History) :
    Prop where
  clean : Clean past
  taken_eq : takenBy past ++ rest = (vs ++ [v]).flatten
  short : ¬f.Begins vs.flatten
  supplies : f.Supplies vs

/-- The calls for the pieces were made. -/
inductive Status (f : Format) (vs : List (List UInt8)) (past : History) : Prop
  | closed (h : Closed f vs past)
  | running (clean : Clean past) (taken_eq : takenBy past = vs.flatten)
      (short : ¬f.Begins vs.flatten) (supplies : f.Supplies vs)

@[simp] theorem codesOf_concat (past : History) (q : Request) (a : Answer) :
    codesOf (past ++ [(q, a)]) = codesOf past ++ [a.code] := by
  simp [codesOf]

@[simp] theorem takenBy_concat (past : History) (q : Request) (a : Answer) :
    takenBy (past ++ [(q, a)]) = takenBy past ++ q.nextIn.take a.consumed := by
  simp [takenBy]

/-- A code that is no decoding error keeps the codes whole. -/
theorem Whole.concat {codes : List Int} (h : Whole codes) {c : Int} (hc : c ∉ decodingErrors) :
    Whole (codes ++ [c]) where
  noError d hd := by
    rcases List.mem_append.mp hd with hd | hd
    · exact h.noError d hd
    · rwa [List.mem_singleton.mp hd]
  ends := List.mem_append_left _ h.ends

/-- An answer that neither ends nor fails keeps the history clean. -/
theorem Clean.concat (h : Clean past) {q : Request} {a : Answer} (hend : a.code ≠ zStreamEnd)
    (herror : a.code ∉ decodingErrors) : Clean (past ++ [(q, a)]) where
  open_ := by
    rw [codesOf_concat, List.mem_append, List.mem_singleton, not_or]
    exact ⟨h.open_, hend.symm⟩
  noError c hc := by
    rw [codesOf_concat, List.mem_append, List.mem_singleton] at hc
    rcases hc with hc | rfl
    · exact h.noError c hc
    · exact herror

/-- A call behind the end, or behind an error. -/
theorem Closed.call (h : Closed f vs past) (hdoc : Documented f codec) (hmade : codec.Makes past)
    {q : Request} (hended : q.ended = false) :
    Closed f vs (past ++ [(q, codec.answer past q)]) := by
  cases h with
  | whole h complete =>
      refine .whole ?_ complete
      rw [codesOf_concat]
      exact h.concat (hdoc.behind past q hmade hended h)
  | broken h never =>
      obtain ⟨c, hc, herror⟩ := h
      refine .broken ⟨c, ?_, herror⟩ never
      rw [codesOf_concat]
      exact List.mem_append_left _ hc

/-- One more piece behind the end, or behind an error. -/
theorem Closed.concat (h : Closed f vs past) (v : List UInt8) : Closed f (vs ++ [v]) past := by
  cases h with
  | whole h complete => exact .whole h (complete.concat v)
  | broken h never =>
      refine .broken h fun more => ?_
      rw [List.append_assoc]
      exact never _

/-- The first call for a piece. -/
theorem Status.amid (h : Status f vs past) (v : List UInt8) :
    Closed f (vs ++ [v]) past ∨ Amid f vs v v past := by
  cases h with
  | closed h => exact .inl (h.concat v)
  | running clean taken_eq short supplies =>
      exact .inr ⟨clean, by rw [taken_eq, List.flatten_append, List.flatten_singleton], short,
        supplies⟩

/-- A call that fails for want of memory. -/
theorem Amid.memError {q : Request} (h : Amid f vs v q.nextIn past) (hdoc : Documented f codec)
    (hmade : codec.Makes past) (hended : q.ended = false)
    (hcode : (codec.answer past q).code = zMemError) (more : List (List UInt8)) :
    ¬f.Complete (vs ++ [v] ++ more) := by
  rintro ⟨-, hsupplies⟩
  have hnone := (hdoc.memError past q hmade hended h.clean).mp hcode
  rw [h.taken_eq] at hnone
  exact hnone (hsupplies vs v (List.prefix_append _ _) h.short)

/-- A call that finds a text that no whole stream begins. -/
theorem Amid.dataError {q : Request} (h : Amid f vs v q.nextIn past) (hdoc : Documented f codec)
    (hmade : codec.Makes past) (hended : q.ended = false)
    (hcode : (codec.answer past q).code = zNeedDict ∨ (codec.answer past q).code = zDataError)
    (more : List (List UInt8)) : ¬f.Complete (vs ++ [v] ++ more) := by
  rintro ⟨⟨w, hw, hprefix⟩, -⟩
  obtain ⟨hbegins, hbegun⟩ := hdoc.dataError past q hmade hended h.clean hcode w hw
  rw [h.taken_eq] at hbegins hbegun
  rw [List.flatten_append] at hprefix
  exact (List.prefix_or_prefix_of_prefix hprefix (List.prefix_append _ _)).elim hbegins hbegun

/-- One call for a piece.  When it leaves space, the piece was dealt with. -/
theorem Documented.call (hdoc : Documented f codec) (hmade : codec.Makes past) {q : Request}
    (hended : q.ended = false) (h : Closed f (vs ++ [v]) past ∨ Amid f vs v q.nextIn past) :
    (Closed f (vs ++ [v]) (past ++ [(q, codec.answer past q)]) ∨
        Amid f vs v (q.nextIn.drop (codec.answer past q).consumed)
          (past ++ [(q, codec.answer past q)])) ∧
      ((codec.answer past q).out.length < q.availOut →
        Status f (vs ++ [v]) (past ++ [(q, codec.answer past q)])) := by
  rcases h with h | h
  · have hclosed := h.call hdoc hmade hended
    exact ⟨.inl hclosed, fun _ => .closed hclosed⟩
  by_cases herror : (codec.answer past q).code ∈ decodingErrors
  · -- an error, whose cause is in the text or in the memory
    have hclosed : Closed f (vs ++ [v]) (past ++ [(q, codec.answer past q)]) := by
      refine .broken ⟨_, ?_, herror⟩ fun more => ?_
      · rw [codesOf_concat]
        exact List.mem_append_right _ (List.mem_singleton_self _)
      · simp only [decodingErrors, List.mem_cons, List.not_mem_nil, or_false] at herror
        rcases herror with hcode | hcode | hcode
        · exact h.dataError hdoc hmade hended (.inl hcode) more
        · exact h.dataError hdoc hmade hended (.inr hcode) more
        · exact h.memError hdoc hmade hended hcode more
    exact ⟨.inl hclosed, fun _ => .closed hclosed⟩
  · have hmemory : f.memory (vs ++ [v]).flatten := by
      by_contra hnone
      rw [← h.taken_eq] at hnone
      have hcode := (hdoc.memError past q hmade hended h.clean).mpr hnone
      exact herror (by rw [hcode]; decide)
    have hsupplies := h.supplies.concat (v := v) fun _ => hmemory
    by_cases hend : (codec.answer past q).code = zStreamEnd
    · have hclosed : Closed f (vs ++ [v]) (past ++ [(q, codec.answer past q)]) := by
        refine .whole ⟨?_, ?_⟩ ⟨⟨_, hdoc.streamEnd past q hmade hended h.clean hend, ?_⟩, hsupplies⟩
        · intro c hc
          rw [codesOf_concat, List.mem_append, List.mem_singleton] at hc
          rcases hc with hc | rfl
          · exact h.clean.noError c hc
          · exact herror
        · rw [codesOf_concat, hend]
          exact List.mem_append_right _ (List.mem_singleton_self _)
        · rw [← h.taken_eq]
          exact (List.prefix_append_right_inj _).mpr (List.take_prefix _ _)
      exact ⟨.inl hclosed, fun _ => .closed hclosed⟩
    · have hclean := h.clean.concat (q := q) hend herror
      refine ⟨.inr ⟨hclean, ?_, h.short, h.supplies⟩, fun hroom => ?_⟩
      · rw [takenBy_concat, List.append_assoc, List.take_append_drop]
        exact h.taken_eq
      · obtain ⟨hall, hshort⟩ := hdoc.goesOn past q hmade hended h.clean hend herror hroom
        rw [h.taken_eq] at hshort
        refine .running hclean ?_ hshort hsupplies
        rw [takenBy_concat, hall, List.take_length]
        exact h.taken_eq

/-- Behind the pieces, `inflate` has decoded them to an end exactly if they begin with a whole
stream and the memory for it is there. -/
theorem Status.whole_iff (h : Status f vs past) : Whole (codesOf past) ↔ f.Complete vs := by
  cases h with
  | closed h =>
      cases h with
      | whole h complete => exact iff_of_true h complete
      | broken h never =>
          obtain ⟨c, hc, herror⟩ := h
          refine iff_of_false (fun hwhole => hwhole.noError c hc herror) ?_
          have hnever := never []
          rwa [List.append_nil] at hnever
  | running clean taken_eq short supplies =>
      exact iff_of_false (fun hwhole => clean.open_ hwhole.ends) fun hcomplete => short hcomplete.1

end Pieces

/-! ## The letter -/

/-- The format that `inflateLetter` reads. -/
def letterFormat : Format where
  whole w := w = letter
  memory _ := True
  ne_nil := by
    rintro w rfl
    decide

/-- The answer to a call on an open stream. -/
theorem inflateLetter_answer {past : History} (h : Clean past) {q : Request}
    (hended : q.ended = false) :
    inflateLetter.answer past q =
      if q.availOut = 0 then ⟨0, [], zBufError⟩
      else if letter <+: takenBy past ++ q.nextIn then
        ⟨letter.length - (takenBy past).length, letterOut past q, zStreamEnd⟩
      else if takenBy past ++ q.nextIn <+: letter then
        ⟨q.nextIn.length, letterOut past q, letterCode q⟩
      else ⟨0, [], zDataError⟩ := by
  have hdata : zDataError ∉ codesOf past := fun hmem => h.noError _ hmem (by decide)
  have hopen : ¬q.ended = true := by simp [hended]
  simp only [inflateLetter, if_neg hopen, if_neg h.open_, if_neg hdata]

/-- The library of letters answers with two codes. -/
theorem letterCode_mem (q : Request) : letterCode q = zBufError ∨ letterCode q = zOk := by
  rw [letterCode]
  split
  · exact .inl rfl
  · exact .inr rfl

/-- A clean history was clean before. -/
theorem Clean.of_concat {past : History} {q : Request} {a : Answer}
    (h : Clean (past ++ [(q, a)])) :
    Clean past ∧ a.code ≠ zStreamEnd ∧ a.code ∉ decodingErrors := by
  have hopen := h.open_
  have herror := h.noError
  rw [codesOf_concat] at hopen herror
  refine ⟨⟨fun hmem => hopen (List.mem_append_left _ hmem),
    fun c hc => herror c (List.mem_append_left _ hc)⟩, ?_,
    herror _ (List.mem_append_right _ (List.mem_singleton_self _))⟩
  rintro hend
  exact hopen (List.mem_append_right _ (by simp [hend]))

/-- What was taken before the end are bytes of the letter. -/
theorem takenBy_letter {past : History} (hmade : inflateLetter.Makes past) (h : Clean past) :
    takenBy past <+: letter := by
  induction hmade with
  | nil => exact List.nil_prefix
  | @call past hmade q ih =>
      obtain ⟨hclean, hend, herror⟩ := h.of_concat
      have hbefore := ih hclean
      rw [takenBy_concat]
      by_cases hended : q.ended = true
      · have hanswer : inflateLetter.answer past q = ⟨0, [], zStreamError⟩ := by
          simp only [inflateLetter, if_pos hended]
        rw [hanswer]
        simpa using hbefore
      · rw [Bool.not_eq_true] at hended
        rw [inflateLetter_answer hclean hended] at hend herror ⊢
        split_ifs at hend herror ⊢ with hroom hwhole hpart
        · simpa using hbefore
        · exact absurd rfl hend
        · simpa using hpart
        · exact absurd (by decide) herror

/-- `inflateLetter` does what is documented. -/
theorem inflateLetter_documented : Documented letterFormat inflateLetter where
  streamError past q := by
    by_cases hended : q.ended = true
    · refine iff_of_true ?_ hended
      simp only [inflateLetter, if_pos hended]
    · refine iff_of_false ?_ hended
      rw [Bool.not_eq_true] at hended
      have hcode : ∀ c : Int, c = zBufError ∨ c = zOk → c ≠ zStreamError := by
        rintro c (rfl | rfl) <;> decide
      simp only [inflateLetter, hended, Bool.false_eq_true, if_false]
      split_ifs
      · decide
      · decide
      · decide
      · exact show zStreamEnd ≠ zStreamError by decide
      · exact hcode _ (letterCode_mem q)
      · decide
  behind past q _ hended h := by
    simp only [inflateLetter, hended, Bool.false_eq_true, if_false, if_pos h.ends]
    decide
  memError past q _ hended h := by
    refine iff_of_false ?_ (not_not_intro trivial)
    have hcode : ∀ c : Int, c = zBufError ∨ c = zOk → c ≠ zMemError := by
      rintro c (rfl | rfl) <;> decide
    rw [inflateLetter_answer h hended]
    split_ifs
    · decide
    · exact show zStreamEnd ≠ zMemError by decide
    · exact hcode _ (letterCode_mem q)
    · decide
  dataError past q _ hended h := by
    have hcode : ∀ c : Int, c = zBufError ∨ c = zOk → ¬(c = zNeedDict ∨ c = zDataError) := by
      rintro c (rfl | rfl) <;> decide
    rw [inflateLetter_answer h hended]
    split_ifs with hroom hwhole hpart
    · exact fun hbad => absurd hbad (by decide)
    · exact fun hbad =>
        absurd hbad (show ¬(zStreamEnd = zNeedDict ∨ zStreamEnd = zDataError) by decide)
    · exact fun hbad => absurd hbad (hcode _ (letterCode_mem q))
    · rintro - w rfl
      exact ⟨hwhole, hpart⟩
  streamEnd past q hmade hended h := by
    have hcode : ∀ c : Int, c = zBufError ∨ c = zOk → ¬c = zStreamEnd := by
      rintro c (rfl | rfl) <;> decide
    have hle := (takenBy_letter hmade h).length_le
    rw [inflateLetter_answer h hended]
    split_ifs with hroom hwhole hpart
    · exact fun hend => absurd hend (by decide)
    · intro _
      have htake : letter = (takenBy past ++ q.nextIn).take letter.length :=
        List.prefix_iff_eq_take.mp hwhole
      rw [List.take_append, List.take_of_length_le hle] at htake
      exact htake.symm
    · exact fun hend => absurd hend (hcode _ (letterCode_mem q))
    · exact fun hend => absurd hend (by decide)
  goesOn past q _ hended h := by
    rw [inflateLetter_answer h hended]
    split_ifs with hroom hwhole hpart
    · intro _ _ hlt
      rw [hroom] at hlt
      exact absurd hlt (Nat.not_lt_zero _)
    · exact fun hend => absurd rfl hend
    · intro _ _ _
      refine ⟨rfl, ?_⟩
      rintro ⟨w, rfl, hprefix⟩
      exact hwhole hprefix
    · exact fun _ herror => absurd (by decide) herror

end Zlib
end Tiger
