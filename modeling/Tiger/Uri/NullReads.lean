import Tiger.Uri.Phases

/-!
# URIs - no null mark is read

That no run of `URI::Create` reads from null depends on all threads of the machine: on which of
them are there together, and on the order of their actions.  `Safe` is the invariant.  It follows
a reference through a scheme, the slashes, an authority and what is behind it.

Main results:

- Theorem `Safe.step`: a step from a safe state reads from no null mark and leads to a safe state.
- Theorem `create_reads_no_null`: no text makes `URI::Create` read from a null mark, and what an
  action reads begins at or before the current character.
-/

namespace Tiger
namespace Uri

open Lib.Ragel Lib.Ragel.Expr Grammar
open Http (Text text)

variable {s w rest : Text} {p n : Nat} {c : UInt8} {ps ps' : Parser} {a : UriAction}
    {as : List UriAction}
  {marked : Bool} {cs cs' : List E} {t x y : E} {m : Move UriAction} {l : List (Nat × UriAction)}
  {φ : Phase}

/-! ## Safe states -/

/-- The rest of a reference behind its first slash, if an authority may follow. -/
def Behind.afterSlash (B : Behind n) : E := cat (cat (lit ['/']) (cat (authority n) B.path)) B.rest

/-- No action of the thread needs the mark. -/
def Harmless (t : E) : Prop := t.avoids UriAction.needsMark = true

/-- The states of the machine from which no action reads from a null mark. -/
inductive Safe (marked : Bool) (cs : List E) : Prop
  /-- nothing has been read -/
  | start (h : ∀ t ∈ cs, t = main)
  /-- a scheme is read, or the first segment of a relative reference -/
  | scheme (h : ∀ t ∈ cs, InScheme t ∧ marked = true ∨ InRelative t)
  /-- behind a scheme and its colon -/
  | hierPart (h : ∀ t ∈ cs, t = cat hierPart tail)
  /-- behind one slash -/
  | slash {n : Nat} (B : Behind n) (h : ∀ t ∈ cs, t = B.afterSlash ∨ Harmless t ∧ t.moves 47 = [])
  /-- in an authority -/
  | authority {n : Nat} (B : Behind n) (φ : Phase)
      (h : ∀ t ∈ cs, ∃ y, t = B.around y ∧ Reading n marked φ y)
  /-- behind a scheme or an authority -/
  | rest (h : ∀ t ∈ cs, Harmless t)

/-! ## Steps -/

theorem Harmless.move (h : Harmless t) (hm : m ∈ t.moves c) : Free m.acts ∧ Harmless m.next :=
  (moveOf_of_mem hm).avoids h

/-- A step none of whose actions needs the mark. -/
theorem step_free {Q : E → Prop} (hstep : step cs c = some (as, cs'))
    (h : ∀ t ∈ cs, ∀ m ∈ t.moves c, Free m.acts ∧ Q m.next) : Fine marked as ∧ ∀ t ∈ cs', Q t := by
  rcases step_moves hstep with ⟨l, rfl, hl, hcs'⟩
  constructor
  · apply Free.fine
    intro q hq
    rcases hl q hq with ⟨t, ht, m, hm, hqm, -⟩
    exact (h t ht m hm).1 q hqm
  · intro t' ht'
    rcases hcs' t' ht' with ⟨t, ht, m, hm, rfl, -⟩
    exact (h t ht m hm).2

/-- Actions that set the mark leave it set in any order. -/
theorem markedAfter_inOrder (hsets : ∀ q ∈ l, q.2.setsMark = true) (hne : marked = true ∨ l ≠ []) :
    markedAfter marked (inOrder l) = true := by
  apply markedAfter_of_all
  · intro a ha
    rcases mem_inOrder ha with ⟨j, hj⟩
    exact hsets _ hj
  · refine hne.imp_right ?_
    rintro hl
    obtain ⟨q, hq⟩ := List.exists_mem_of_ne_nil l hl
    exact List.ne_nil_of_mem (mem_inOrder_of_mem hq)

/-- Inside a relative reference, no action needs the mark. -/
theorem harmless_inRelative (h : InRelative t) : Harmless t := by
  have hsegments : (segments : E).avoids UriAction.needsMark = true := by rfl
  have htail : (relativeTail : E).avoids UriAction.needsMark = true := by rfl
  rcases h with ⟨x, hx, rfl⟩ | rfl
  · have hsilent : x.avoids UriAction.needsMark = true :=
      avoids_of_imp (fun _ ha => by cases ha) hx.silent
    simp only [Harmless, avoids, hsilent, hsegments, htail, Bool.and_self]
  · simp only [Harmless, avoids, hsegments, htail, Bool.and_self]

/-- The first byte of a reference that begins with an authority, or of another relative one. -/
theorem main_slash : main.moves 47 =
    [⟨[], [], behindRelative.afterSlash⟩,
      ⟨[], [], cat (opt (seq [segmentNz, star (seq [lit ['/'], segment])])) relativeTail⟩] := by rfl

theorem hierPart_slash : (cat hierPart tail).moves 47 =
    [⟨[], [], behindUri.afterSlash⟩,
      ⟨[], [], cat (opt (seq [segmentNz, star (seq [lit ['/'], segment])])) tail⟩] := by rfl

theorem main_question : main.moves 63 =
    [⟨[], [], cat (query 20) (opt (seq [lit ['#'], fragment 22]))⟩] := by rfl

theorem main_hash : main.moves 35 = [⟨[], [], fragment 22⟩] := by rfl

/-- A first slash, of an authority or of an absolute path. -/
theorem step_firstSlash (B : Behind n) {t₀ e : E} (h : ∀ t ∈ cs, t = t₀)
    (hmoves : t₀.moves 47 = [⟨[], [], B.afterSlash⟩, ⟨[], [], e⟩]) (he : Harmless e)
    (hnone : e.moves 47 = [])
    (hstep : step cs 47 = some (as, cs')) : Fine marked as ∧ Safe (markedAfter marked as) cs' := by
  have hnext : ∀ t ∈ cs, ∀ m ∈ t.moves 47, Free m.acts ∧
      (m.next = B.afterSlash ∨ Harmless m.next ∧ m.next.moves 47 = []) := by
    intro t ht m hm
    rw [h t ht, hmoves, List.mem_cons, List.mem_singleton] at hm
    rcases hm with rfl | rfl
    · exact ⟨by simp [Free], .inl rfl⟩
    · exact ⟨by simp [Free], .inr ⟨he, hnone⟩⟩
  exact (step_free hstep hnext).imp_right (.slash B)

/-- The first byte of a query or a fragment behind an empty path. -/
theorem moves_main_ends (hc : c = 63 ∨ c = 35) (hm : m ∈ main.moves c) :
    Free m.acts ∧ Harmless m.next := by
  rcases hc with rfl | rfl
  · rw [main_question, List.mem_singleton] at hm
    rw [hm]
    exact ⟨by simp [Free], by rfl⟩
  · rw [main_hash, List.mem_singleton] at hm
    rw [hm]
    exact ⟨by simp [Free], by rfl⟩

/-- The first byte of a scheme or of a segment. -/
theorem step_firstByte (h : ∀ t ∈ cs, t = main) (hc : c ∉ [47, 63, 35])
    (hstep : step cs c = some (as, cs')) :
    Fine marked as ∧ Safe (markedAfter marked as) cs' := by
  rcases step_moves hstep with ⟨l, rfl, hl, hcs'⟩
  have hsets : ∀ q ∈ l, q = (0, UriAction.marku) := by
    intro q hq
    rcases hl q hq with ⟨t, ht, m, hm, hqm, -⟩
    rw [h t ht] at hm
    rcases moves_main hc hm with ⟨hacts, -⟩ | ⟨hacts, -⟩
    · simpa [hacts] using hqm
    · simp [hacts] at hqm
  refine ⟨Free.fine fun q hq => by rw [hsets q hq]; rfl, .scheme fun t' ht' => ?_⟩
  rcases hcs' t' ht' with ⟨t, ht, m, hm, rfl, hacts⟩
  rw [h t ht] at hm
  rcases moves_main hc hm with ⟨hmark, hnext⟩ | ⟨-, hnext⟩
  · refine .inl ⟨hnext, markedAfter_inOrder (fun q hq => by rw [hsets q hq]; rfl) (.inr ?_)⟩
    exact List.ne_nil_of_mem (hacts (0, .marku) (by simp [hmark]))
  · exact .inr hnext

/-- The first byte is safe. -/
theorem Safe.step_start (h : ∀ t ∈ cs, t = main) (hstep : step cs c = some (as, cs')) :
    Fine marked as ∧ Safe (markedAfter marked as) cs' := by
  by_cases hslash : c = 47
  · subst hslash
    exact step_firstSlash behindRelative h main_slash (by rfl) (by rfl) hstep
  by_cases hquery : c = 63 ∨ c = 35
  · refine (step_free hstep fun t ht m hm => ?_).imp_right .rest
    rw [h t ht] at hm
    exact moves_main_ends hquery hm
  · exact step_firstByte h (by simpa [not_or] using ⟨hslash, not_or.mp hquery⟩) hstep

/-- A scheme or a first segment goes on. -/
theorem step_schemeByte (h : ∀ t ∈ cs, InScheme t ∧ marked = true ∨ InRelative t)
    (hends : c ∉ [47, 63, 35])
    (hcolon : c ≠ 58) (hstep : step cs c = some (as, cs')) :
    Fine marked as ∧ Safe (markedAfter marked as) cs' := by
  rcases step_moves hstep with ⟨l, rfl, hl, hcs'⟩
  have hmoves : ∀ t ∈ cs, ∀ m ∈ t.moves c,
      m.acts = [] ∧ (InScheme m.next ∧ marked = true ∨ InRelative m.next) := by
    intro t ht m hm
    rcases h t ht with ⟨hscheme, hmarked⟩ | hrelative
    · rcases moves_inScheme hscheme hm with ⟨-, hacts, hnext⟩ | ⟨heq, -⟩
      · exact ⟨hacts, .inl ⟨hnext, hmarked⟩⟩
      · exact absurd heq hcolon
    · exact (moves_inRelative hrelative hends hm).2.imp_right .inr
  have hnil : l = [] := by
    apply List.eq_nil_iff_forall_not_mem.mpr
    intro q hq
    rcases hl q hq with ⟨t, ht, m, hm, hqm, -⟩
    simp [(hmoves t ht m hm).1] at hqm
  rw [hnil]
  refine ⟨trivial, .scheme fun t' ht' => ?_⟩
  rcases hcs' t' ht' with ⟨t, ht, m, hm, rfl, -⟩
  exact (hmoves t ht m hm).2

/-- The colon saves the scheme, whose mark is set. -/
theorem step_schemeColon (h : ∀ t ∈ cs, InScheme t ∧ marked = true ∨ InRelative t)
    (hstep : step cs 58 = some (as, cs')) : Fine marked as ∧ Safe (markedAfter marked as) cs' := by
  rcases step_moves hstep with ⟨l, rfl, hl, hcs'⟩
  have hmoves : ∀ t ∈ cs, ∀ m ∈ t.moves 58, marked = true ∧ m.acts = [(1, .saveScheme)] ∧
      m.next = cat hierPart tail := by
    intro t ht m hm
    rcases h t ht with ⟨hscheme, hmarked⟩ | hrelative
    · rcases moves_inScheme hscheme hm with ⟨hplain, -⟩ | ⟨-, hmove⟩
      · exact absurd (by decide) hplain
      · exact ⟨hmarked, hmove⟩
    · exact absurd rfl (moves_inRelative hrelative (by decide) hm).1
  have hsave : ∀ q ∈ l, marked = true ∧ q = (1, UriAction.saveScheme) := by
    intro q hq
    rcases hl q hq with ⟨t, ht, m, hm, hqm, -⟩
    rcases hmoves t ht m hm with ⟨hmarked, hacts, -⟩
    exact ⟨hmarked, by simpa [hacts] using hqm⟩
  refine ⟨fine_inOrder (fun q hq _ => (hsave q hq).2) (fun q hq _ => .inl (hsave q hq).2)
    fun hmem => .inl (hsave _ hmem).1, .hierPart fun t' ht' => ?_⟩
  rcases hcs' t' ht' with ⟨t, ht, m, hm, rfl, -⟩
  exact (hmoves t ht m hm).2.2

/-- A byte inside a scheme is safe. -/
theorem Safe.step_scheme (h : ∀ t ∈ cs, InScheme t ∧ marked = true ∨ InRelative t)
    (hstep : step cs c = some (as, cs')) : Fine marked as ∧ Safe (markedAfter marked as) cs' := by
  by_cases hends : c ∈ [47, 63, 35]
  · -- a scheme does not go on, and no other thread has an action that needs the mark
    refine (step_free hstep fun t ht m hm => ?_).imp_right .rest
    rcases h t ht with ⟨hscheme, -⟩ | hrelative
    · rcases moves_inScheme hscheme hm with ⟨hplain, -⟩ | ⟨rfl, -⟩
      · exact absurd (List.mem_cons_of_mem 58 hends) hplain
      · exact absurd hends (by decide)
    · exact (harmless_inRelative hrelative).move hm
  by_cases hcolon : c = 58
  · subst hcolon
    exact step_schemeColon h hstep
  · exact step_schemeByte h hends hcolon hstep

/-- Behind a scheme, the moves on a byte that is no slash are those of the other paths. -/
theorem moves_hierPart (hc : c ≠ 47) (hm : m ∈ (cat hierPart tail).moves c) :
    Free m.acts ∧ Harmless m.next := by
  have hpart : hierPart = alt (seq [lit ['/', '/'], authority 2, pathPart])
      (alt pathAbsolute (alt pathRootless pathEmpty)) := rfl
  have hauthority : (seq [lit ['/', '/'], authority 2, pathPart]).moves c = [] :=
    moves_eq_nil_of_chars ['/'] (by decide) (List.forall_mem_singleton.mpr hc)
  have hpaths : Harmless (cat (alt pathAbsolute (alt pathRootless pathEmpty)) tail) := by rfl
  refine hpaths.move (c := c) ?_
  rw [hpart] at hm
  rcases mem_moves_cat.mp hm with ⟨m₁, hm₁, rfl⟩ | ⟨-, m₁, hm₁, rfl⟩
  · rw [mem_moves_alt, hauthority] at hm₁
    exact mem_moves_cat.mpr (.inl ⟨m₁, hm₁.resolve_left List.not_mem_nil, rfl⟩)
  · exact mem_moves_cat.mpr (.inr ⟨rfl, m₁, hm₁, rfl⟩)

/-- The first byte behind a scheme is safe. -/
theorem Safe.step_hierPart (h : ∀ t ∈ cs, t = cat Grammar.hierPart tail)
    (hstep : step cs c = some (as, cs')) :
    Fine marked as ∧ Safe (markedAfter marked as) cs' := by
  by_cases hslash : c = 47
  · subst hslash
    exact step_firstSlash behindUri h hierPart_slash (by rfl) (by rfl) hstep
  · refine (step_free hstep fun t ht m hm => ?_).imp_right .rest
    rw [h t ht] at hm
    exact moves_hierPart hslash hm

/-- A second slash leads to the authority. -/
theorem moves_afterSlash (B : Behind n) (hm : m ∈ B.afterSlash.moves c) :
    c = 47 ∧ m = ⟨[], [], B.around (authority n)⟩ := by
  rcases mem_moves_cat.mp hm with ⟨m₁, hm₁, rfl⟩ | ⟨hnull, -⟩
  case inr => simp [nullable, lit] at hnull
  rcases mem_moves_cat.mp hm₁ with ⟨m₂, hm₂, rfl⟩ | ⟨hnull, -⟩
  case inr => simp [nullable, lit] at hnull
  rcases (mem_moves_lit (by decide)).mp hm₂ with ⟨hslash, rfl⟩
  exact ⟨hslash, rfl⟩

/-- A byte behind a slash is safe. -/
theorem Safe.step_slash (B : Behind n)
    (h : ∀ t ∈ cs, t = B.afterSlash ∨ Harmless t ∧ t.moves 47 = [])
    (hstep : step cs c = some (as, cs')) : Fine marked as ∧ Safe (markedAfter marked as) cs' := by
  by_cases hslash : c = 47
  · subst hslash
    have hmoves : ∀ t ∈ cs, ∀ m ∈ t.moves 47, Free m.acts ∧
        ∃ y, m.next = B.around y ∧ Reading n (markedAfter marked as) .first y := by
      intro t ht m hm
      rcases h t ht with rfl | ⟨-, hnone⟩
      · rcases moves_afterSlash B hm with ⟨-, rfl⟩
        exact ⟨by simp [Free], _, rfl, .inl rfl⟩
      · rw [hnone] at hm
        cases hm
    exact (step_free hstep hmoves).imp_right (.authority B .first)
  · have hmoves : ∀ t ∈ cs, ∀ m ∈ t.moves c, Free m.acts ∧ Harmless m.next := by
      intro t ht m hm
      rcases h t ht with rfl | ⟨hharmless, -⟩
      · exact absurd (moves_afterSlash B hm).1 hslash
      · exact hharmless.move hm
    exact (step_free hstep hmoves).imp_right .rest

/-- What is read without a mark is read with one. -/
theorem Reading.of_false (h : Reading n false φ y) : Reading n marked φ y := by
  cases φ with
  | first | name | literal => exact h
  | port => exact h.imp_right (.imp_right fun hport => by cases hport.2)

/-- What is read in an authority has not ended. -/
theorem Behind.around_next (B : Behind n) (h : Reading n marked φ x) :
    andThen (andThen x B.path) B.rest = B.around x := by
  have hmem : ∀ {x}, ReadsUser n x ∨ ReadsHost n x ∨ ReadsPort n x →
      andThen (andThen x B.path) B.rest = B.around x := by
    rintro x (⟨z, -, rfl⟩ | ⟨z, -, rfl⟩ | ⟨z, -, rfl⟩) <;> rfl
  cases φ with
  | first => rcases h with rfl | rfl <;> rfl
  | name => exact hmem (h.imp_right .inl)
  | literal =>
      rcases h with ⟨z, -, -, rfl⟩
      rfl
  | port =>
      rcases h with h | rfl | ⟨h, -⟩
      · exact hmem (.inl h)
      · rfl
      · exact hmem (.inr (.inr h))

/-- A step in an authority, in a phase without a port. -/
theorem step_reading (B : Behind n) (hφ : φ ≠ .port)
    (h : ∀ t ∈ cs, ∃ y, t = B.around y ∧ Reading n marked φ y) (hc : c ∉ authorityEnds)
    (hstep : step cs c = some (as, cs')) :
    Fine marked as ∧ ∀ t ∈ cs', ∃ y, t = B.around y ∧ Reading n false (φ.next c) y := by
  apply step_free hstep
  intro t ht m hm
  rcases h t ht with ⟨y, rfl, hread⟩
  rcases B.moves_around hc hm with ⟨m₀, hm₀, hacts, hnext⟩
  have hmove : Free m₀.acts ∧ Reading n false (φ.next c) m₀.next := by
    cases φ with
    | first => exact (moves_first hread hm₀).2
    | name => exact (moves_name hread hm₀).2
    | literal => exact (moves_literal hread hm₀).2
    | port => exact absurd rfl hφ
  rw [hacts, hnext, B.around_next hmove.2]
  exact ⟨hmove.1, _, rfl, hmove.2⟩

/-- A step in a user or a port. -/
theorem step_port (B : Behind n) (h : ∀ t ∈ cs, ∃ y, t = B.around y ∧ Reading n marked .port y)
    (hc : c ∉ authorityEnds) (hstep : step cs c = some (as, cs')) :
    Fine marked as ∧
      ∀ t ∈ cs', ∃ y, t = B.around y ∧
        Reading n (markedAfter marked as) (Phase.next c .port) y := by
  by_cases hat : c = 64
  · apply step_free hstep
    intro t ht m hm
    rcases h t ht with ⟨y, rfl, hread⟩
    rcases B.moves_around hc hm with ⟨m₀, hm₀, hacts, hnext⟩
    rcases (moves_port hread hm₀).2 with ⟨-, hfree, hnext₀⟩ | ⟨hne, -⟩
    · rw [hacts, hnext, hnext₀]
      rw [show Phase.next c .port = .first by simp [Phase.next, hat]]
      exact ⟨hfree, _, rfl, .inr rfl⟩
    · exact absurd hat hne
  · rcases step_moves hstep with ⟨l, rfl, hl, hcs'⟩
    have hsets : ∀ q ∈ l, q.2.setsMark = true := by
      intro q hq
      rcases hl q hq with ⟨t, ht, m, hm, hqm, -⟩
      rcases h t ht with ⟨y, rfl, hread⟩
      rcases B.moves_around hc hm with ⟨m₀, hm₀, hacts, -⟩
      rcases (moves_port hread hm₀).2 with ⟨hat', -⟩ | ⟨-, hset, -⟩
      · exact absurd hat' hat
      · exact hset q (hacts ▸ hqm)
    refine ⟨Free.fine fun q hq => ?_, fun t' ht' => ?_⟩
    · have hset := hsets q hq
      cases hact : q.2 <;> first | rfl | (rw [hact] at hset; cases hset)
    · rcases hcs' t' ht' with ⟨t, ht, m, hm, rfl, hin⟩
      rcases h t ht with ⟨y, rfl, hread⟩
      rcases B.moves_around hc hm with ⟨m₀, hm₀, hacts, hnext⟩
      rcases (moves_port hread hm₀).2 with ⟨hat', -⟩ | ⟨-, -, hnext₀⟩
      · exact absurd hat' hat
      · -- a port behind its first digit has just got its mark, or has it already
        have hread' : Reading n (markedAfter marked (inOrder l)) .port m₀.next := by
          rcases hnext₀ with huser | ⟨hport, hmark⟩
          · exact .inl huser
          · refine .inr (.inr ⟨hport, markedAfter_inOrder hsets (hmark.imp_right fun hne => ?_)⟩)
            obtain ⟨q, hq⟩ := List.exists_mem_of_ne_nil _ hne
            exact List.ne_nil_of_mem (hin q (hacts ▸ hq))
        rw [hnext, B.around_next hread', show Phase.next c .port = .port by simp [Phase.next, hat]]
        exact ⟨_, rfl, hread'⟩

/-- The byte behind an authority. -/
theorem step_end (B : Behind n) (h : ∀ t ∈ cs, ∃ y, t = B.around y ∧ Reading n marked φ y)
    (hc : c ∈ authorityEnds) (hstep : step cs c = some (as, cs')) :
    Fine marked as ∧ ∀ t ∈ cs', Harmless t := by
  rcases step_moves hstep with ⟨l, rfl, hl, hcs'⟩
  constructor
  · apply fine_of_outs (n := n) (φ := φ)
    intro q hq
    rcases hl q hq with ⟨t, ht, m, hm, hqm, hin⟩
    rcases h t ht with ⟨y, rfl, hread⟩
    rcases B.moves_end (hread.moves_eq_nil hc) hm with ⟨hnull, ⟨later, hacts, hlater⟩, -⟩
    exact ⟨m.acts, hacts ▸ hread.outs hnull hlater, hqm, hin⟩
  · intro t' ht'
    rcases hcs' t' ht' with ⟨t, ht, m, hm, rfl, -⟩
    rcases h t ht with ⟨y, rfl, hread⟩
    exact (B.moves_end (hread.moves_eq_nil hc) hm).2.2

/-- A byte of the authority is safe. -/
theorem Safe.step_authority (B : Behind n)
    (h : ∀ t ∈ cs, ∃ y, t = B.around y ∧ Reading n marked φ y)
    (hstep : step cs c = some (as, cs')) : Fine marked as ∧ Safe (markedAfter marked as) cs' := by
  by_cases hc : c ∈ authorityEnds
  · exact (step_end B h hc hstep).imp_right .rest
  by_cases hφ : φ = .port
  · subst hφ
    exact (step_port B h hc hstep).imp_right (.authority B _)
  · refine (step_reading B hφ h hc hstep).imp_right fun hcs' => ?_
    refine .authority B (φ.next c) fun t ht => ?_
    rcases hcs' t ht with ⟨y, rfl, hread⟩
    exact ⟨y, rfl, hread.of_false⟩

/-- A step from a safe state reads from no null mark and leads to a safe state. -/
theorem Safe.step (h : Safe marked cs) (hstep : Lib.Ragel.step cs c = some (as, cs')) :
    Fine marked as ∧ Safe (markedAfter marked as) cs' := by
  cases h with
  | start h => exact step_start h hstep
  | scheme h => exact step_scheme h hstep
  | hierPart h => exact step_hierPart h hstep
  | slash B h => exact step_slash B h hstep
  | authority B φ h => exact step_authority B h hstep
  | rest h => exact (step_free hstep fun t ht m hm => Harmless.move (h t ht) hm).imp_right .rest

/-- The actions at the end of a text read from no null mark. -/
theorem Safe.final (h : Safe marked cs) : Fine marked (finalActions cs) := by
  have hfree : (∀ t ∈ cs, t.nullable = true → Free t.out) → Fine marked (finalActions cs) := by
    intro hall
    apply Free.fine
    intro q hq
    rcases List.mem_flatMap.mp hq with ⟨t, ht, hqt⟩
    rcases List.mem_filter.mp ht with ⟨htcs, hnull⟩
    exact hall t htcs hnull q hqt
  cases h with
  | start h =>
      apply hfree
      intro t ht _
      rw [h t ht, show main.out = [] by rfl]
      simp [Free]
  | scheme h =>
      apply hfree
      intro t ht hnull
      rcases h t ht with ⟨⟨x, -, rfl⟩, -⟩ | hrelative
      · simp [inScheme, nullable, lit] at hnull
      · exact avoids_out (harmless_inRelative hrelative)
  | hierPart h =>
      apply hfree
      intro t ht _
      rw [h t ht, show (cat Grammar.hierPart tail).out = [] by rfl]
      simp [Free]
  | slash B h =>
      apply hfree
      intro t ht hnull
      rcases h t ht with rfl | ⟨hharmless, -⟩
      · simp [Behind.afterSlash, nullable, lit] at hnull
      · exact avoids_out hharmless
  | @authority n B φ h =>
      apply fine_of_outs (n := n) (φ := φ)
      intro q hq
      rcases List.mem_flatMap.mp hq with ⟨t, ht, hqt⟩
      rcases List.mem_filter.mp ht with ⟨htcs, hnull⟩
      rcases h t htcs with ⟨y, rfl, hread⟩
      rcases B.out_around (x := y) with ⟨later, hout, hlater⟩
      refine ⟨(B.around y).out, hout ▸ hread.outs (B.nullable_of_around hnull) hlater, hqt, ?_⟩
      exact fun q' hq' => List.mem_flatMap.mpr ⟨_, ht, hq'⟩
  | rest h => exact hfree fun t ht _ => avoids_out (h t ht)

/-! ## Runs -/

/-- What holds of the parser at position `p` of every text. -/
def Sound (p : Nat) (ps : Parser) : Prop :=
  Safe ps.mark.isSome ps.cs ∧ ∀ k, ps.mark = some k → k ≤ p

theorem sound_init : Sound 0 Parser.init :=
  ⟨.start fun _ ht => List.mem_singleton.mp ht, fun k hk => by cases hk⟩

/-- A byte keeps the parser sound. -/
theorem Sound.step (h : Sound p ps) (hstep : Lib.Ragel.step ps.cs c = some (as, cs)) :
    ∃ ps₁, Parser.actions s p as ps = some ps₁ ∧ Sound (p + 1) { ps₁ with cs := cs } := by
  rcases h.1.step hstep with ⟨hfine, hsafe⟩
  rcases actions_eq_some (s := s) hfine h.2 with ⟨ps₁, hacts, hmark, hle⟩
  refine ⟨ps₁, hacts, ?_, fun k hk => (hle k hk).trans (Nat.le_succ p)⟩
  rw [← hmark] at hsafe
  exact hsafe

/-- A run over some bytes ends in the error state or in a sound state. -/
theorem Sound.exec (h : Sound p ps) :
    ∃ r, Parser.exec s p w ps = some r ∧ ∀ ps', r = some ps' → Sound (p + w.length) ps' := by
  induction w generalizing p ps with
  | nil =>
      refine ⟨some ps, rfl, ?_⟩
      rintro ps' ⟨⟩
      exact h
  | cons c w ih =>
      cases hstep : Lib.Ragel.step ps.cs c with
      | none => exact ⟨none, by simp only [Parser.exec, hstep], fun _ hps => by cases hps⟩
      | some r =>
          rcases r with ⟨as, cs⟩
          rcases h.step (s := s) hstep with ⟨ps₁, hacts, hsound⟩
          rcases ih hsound with ⟨r, hexec, hr⟩
          refine ⟨r, by simp only [Parser.exec, hstep, hacts, Option.bind_some, hexec], ?_⟩
          rw [List.length_cons, Nat.add_comm w.length 1, ← Nat.add_assoc]
          exact hr

/-- A sound parser does not fail at the end. -/
theorem Sound.atEof (h : Sound s.length ps) : ∃ r, ps.atEof s = some r := by
  rw [Parser.atEof]
  split
  · rcases actions_eq_some (s := s) h.1.final h.2 with ⟨ps₁, hacts, -⟩
    exact ⟨_, by rw [hacts]; rfl⟩
  · exact ⟨none, rfl⟩

/-- Every text is parsed: the result is a URI or the null pointer. -/
theorem create_eq_some (s : Text) : ∃ r, URI.create s = some r := by
  rcases sound_init.exec (s := s) (w := s) with ⟨r, hexec, hr⟩
  rw [URI.create, hexec, Option.bind_some]
  cases r with
  | none => exact ⟨none, rfl⟩
  | some ps =>
      have hsound := hr ps rfl
      rw [Nat.zero_add] at hsound
      exact hsound.atEof

/-- `URI::Create` performs an action on the text, at position `p` and in a state: on a byte, or at
the end of the text. -/
inductive Performed (s : Text) (a : UriAction) : Nat → Parser → Prop
  | onByte {w rest : Text} {c : UInt8} {ps ps' : Parser} {cs : List E}
    {before after : List UriAction} :
      s = w ++ c :: rest → Parser.exec s 0 w Parser.init = some (some ps) →
      step ps.cs c = some (before ++ a :: after, cs) →
        Parser.actions s w.length before ps = some ps' →
      Performed s a w.length ps'
  | atEnd {ps ps' : Parser} {before after : List UriAction} :
      Parser.exec s 0 s Parser.init = some (some ps) → isFinal ps.cs = true →
      finalActions ps.cs = before ++ a :: after → Parser.actions s s.length before ps = some ps' →
      Performed s a s.length ps'

/-- The action reads from the mark: `save_scheme` always does, `save_port` where `fpc != mark`, and
the others where `mark` is not null. -/
def UriAction.ReadsMark (p : Nat) (ps : Parser) : UriAction → Prop
  | .marku => False
  | .markh => False
  | .saveScheme => True
  | .savePort => ps.mark ≠ some p
  | _ => ps.mark ≠ none

/-- Behind some actions of a list that reads from no null mark. -/
theorem mark_of_fine {before after : List UriAction}
    (hfine : Fine ps.mark.isSome (before ++ a :: after))
    (hle : ∀ k, ps.mark = some k → k ≤ p) (hacts : Parser.actions s p before ps = some ps')
    (hreads : a.ReadsMark p ps') : ∃ k, ps'.mark = some k ∧ k ≤ p := by
  rcases actions_eq_some (s := s) hfine.at.1 hle with ⟨ps₁, hacts₁, hmark, hle₁⟩
  obtain rfl : ps₁ = ps' := Option.some.inj (hacts₁.symm.trans hacts)
  have hsome : ps₁.mark.isSome = true := by
    cases a with
    | marku | markh => exact hreads.elim
    | saveScheme | savePort => exact hmark.trans (hfine.at.2 rfl)
    | saveUser | saveHost | savePath | saveQuery | saveFragment =>
        exact Option.isSome_iff_ne_none.mpr hreads
  rcases Option.isSome_iff_exists.mp hsome with ⟨k, hk⟩
  exact ⟨k, hk, hle₁ k hk⟩

/-- `URI::Create` runs to completion on every text, and an action that reads from the mark reads
from a position of the text at or before its own. -/
theorem create_reads_no_null (s : Text) :
    (∃ r, URI.create s = some r) ∧
      ∀ a p ps, Performed s a p ps → a.ReadsMark p ps →
        ∃ mark, ps.mark = some mark ∧ mark ≤ p ∧ p ≤ s.length := by
  refine ⟨create_eq_some s, ?_⟩
  intro a p ps hperformed hreads
  have hsound : ∀ {w ps}, Parser.exec s 0 w Parser.init = some (some ps) → Sound w.length ps := by
    intro w ps hexec
    rcases sound_init.exec (s := s) (w := w) with ⟨r, hr, hsound⟩
    rw [hexec] at hr
    rw [← Nat.zero_add w.length]
    exact hsound ps (Option.some.inj hr).symm
  cases hperformed with
  | @onByte w rest c ps₀ _ cs before after hs hexec hstep hacts =>
      have hps := hsound hexec
      rcases mark_of_fine (hps.1.step hstep).1 hps.2 hacts hreads with ⟨mark, hmark, hle⟩
      refine ⟨mark, hmark, hle, ?_⟩
      rw [hs, List.length_append]
      exact Nat.le_add_right _ _
  | @atEnd ps₀ _ before after hexec hfinal hsplit hacts =>
      have hps := hsound hexec
      have hfine := hps.1.final
      rw [hsplit] at hfine
      rcases mark_of_fine hfine hps.2 hacts hreads with ⟨mark, hmark, hle⟩
      exact ⟨mark, hmark, hle, le_rfl⟩

end Uri
end Tiger
