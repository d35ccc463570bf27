import Tiger.Uri.Marks

/-!
# URIs - the phases of an authority

An authority is read in phases: its first part, a user or a host, a host in brackets, a user or a
port.  A URI and a relative reference go through the same phases; `Behind` is what differs.

Main results:

- Theorems `moves_first`, `moves_name`, `moves_literal` and `moves_port`: the moves of a phase.
- Theorem `fine_of_outs`: where an authority ends, a port is saved from a mark.
-/

namespace Tiger
namespace Uri

open Lib.Ragel Lib.Ragel.Expr Grammar

variable {n : Nat} {c : UInt8} {marked : Bool} {x y : E} {m : Move UriAction}
  {l later acts : List (Nat × UriAction)}

/-! ## Behind an authority -/

/-- Actions that come behind those of an authority. -/
def Later (n : Nat) (later : List (Nat × UriAction)) : Prop :=
  ∀ q ∈ later, n + 5 < q.1 ∧ q.2.needsMark = false

instance : Decidable (Later n later) := inferInstanceAs (Decidable (∀ q ∈ later, _ ∧ _))

/-- What stands behind an authority whose actions are numbered from `n` on: a path, which begins
with a slash, and a query and a fragment. -/
structure Behind (n : Nat) where
  path : E
  rest : E
  path_moves : ∀ {c}, c ≠ 47 → path.moves c = []
  rest_moves : ∀ {c}, c ≠ 63 → c ≠ 35 → rest.moves c = []
  path_acts : ∀ {c}, ∀ m ∈ path.moves c, Later n m.acts
  path_out : Later n path.out
  rest_acts : ∀ {c}, ∀ m ∈ rest.moves c, m.acts = []
  rest_out : rest.out = []
  path_avoids : path.avoids UriAction.needsMark = true
  rest_avoids : rest.avoids UriAction.needsMark = true

namespace Behind

/-- The rest of an authority and what is behind it. -/
def around (B : Behind n) (x : E) : E := cat (cat x B.path) B.rest

variable (B : Behind n)

/-- Inside the authority, the URI moves as the authority does. -/
theorem moves_around (hc : c ∉ authorityEnds) (hm : m ∈ (B.around x).moves c) :
    ∃ m₀ ∈ x.moves c, m.acts = m₀.acts ∧ m.next = andThen (andThen m₀.next B.path) B.rest := by
  simp only [authorityEnds, List.mem_cons, List.not_mem_nil, or_false, not_or] at hc
  exact moves_in (B.path_moves hc.1) (B.rest_moves hc.2.1 hc.2.2) hm

/-- The byte behind an authority. -/
theorem moves_end (hx : x.moves c = []) (hm : m ∈ (B.around x).moves c) :
    x.nullable = true ∧ (∃ later, m.acts = x.out ++ later ∧ Later n later) ∧
      m.next.avoids UriAction.needsMark = true := by
  rcases mem_moves_cat.mp hm with ⟨m₁, hm₁, rfl⟩ | ⟨hnull, m₁, hm₁, rfl⟩
  · rcases mem_moves_cat.mp hm₁ with ⟨m₂, hm₂, -⟩ | ⟨hnull, m₂, hm₂, rfl⟩
    · rw [hx] at hm₂
      cases hm₂
    · refine ⟨hnull, ⟨m₂.acts, rfl, B.path_acts m₂ hm₂⟩, ?_⟩
      exact avoids_andThen ((moveOf_of_mem hm₂).avoids B.path_avoids).2 B.rest_avoids
  · rw [nullable, Bool.and_eq_true] at hnull
    refine ⟨hnull.1, ⟨B.path.out, ?_, B.path_out⟩, ((moveOf_of_mem hm₁).avoids B.rest_avoids).2⟩
    simp only [Move.addActs, B.rest_acts m₁ hm₁, List.append_nil, out]

theorem out_around : ∃ later, (B.around x).out = x.out ++ later ∧ Later n later :=
  ⟨B.path.out, by simp only [around, out, B.rest_out, List.append_nil], B.path_out⟩

theorem nullable_of_around (h : (B.around x).nullable = true) : x.nullable = true := by
  rw [around, nullable, nullable, Bool.and_eq_true, Bool.and_eq_true] at h
  exact h.1.1

end Behind

/-- Behind the authority of a URI. -/
def behindUri : Behind 2 where
  path := pathPart
  rest := tail
  path_moves := pathPart_moves
  rest_moves := tail_moves
  path_acts := by
    intro c m hm
    rcases mem_moves_leaving.mp hm with ⟨m₁, hm₁, rfl⟩
    rcases mem_moves_entering.mp hm₁ with ⟨m₂, hm₂, rfl⟩
    have hacts : Later 2 [(8, .markh)] := by decide
    simpa only [Move.mapNext, Move.addActs, (calm_pathAbempty.move hm₂).1, List.append_nil]
      using hacts
  path_out := by decide
  rest_acts := by
    intro c m hm
    by_cases hq : c = 63
    · rw [hq, tail_question] at hm
      rw [List.mem_singleton.mp hm]
    by_cases hh : c = 35
    · rw [hh, tail_hash] at hm
      rw [List.mem_singleton.mp hm]
    rw [tail_moves hq hh] at hm
    cases hm
  rest_out := by rfl
  path_avoids := by rfl
  rest_avoids := by rfl

/-- Behind the authority of a relative reference. -/
def behindRelative : Behind 14 where
  path := pathAbempty
  rest := relativeTail
  path_moves := fun hc => moves_eq_nil_of_chars ['/'] (by decide) (List.forall_mem_singleton.mpr hc)
  rest_moves := relativeTail_moves
  path_acts := by
    intro c m hm
    rw [(calm_pathAbempty.move hm).1]
    decide
  path_out := by decide
  rest_acts := by
    intro c m hm
    have hquestion : relativeTail.moves 63 =
        [⟨[], [], cat (query 20) (opt (seq [lit ['#'], fragment 22]))⟩] := by rfl
    have hhash : relativeTail.moves 35 = [⟨[], [], fragment 22⟩] := by rfl
    by_cases hq : c = 63
    · rw [hq, hquestion] at hm
      rw [List.mem_singleton.mp hm]
    by_cases hh : c = 35
    · rw [hh, hhash] at hm
      rw [List.mem_singleton.mp hm]
    rw [relativeTail_moves hq hh] at hm
    cases hm
  rest_out := by rfl
  path_avoids := by rfl
  rest_avoids := by rfl

/-! ## The phases of an authority -/

/-- What the machine reads in an authority. -/
inductive Phase
  /-- its first part, or what is behind a user -/
  | first
  /-- a user or a host -/
  | name
  /-- a host in brackets -/
  | literal
  /-- a user or a port -/
  | port
deriving DecidableEq

/-- The phase behind a byte that does not end the authority. -/
def Phase.next (c : UInt8) : Phase → Phase
  | .first =>
      if c = 91 then .literal else if c = 58 then .port else if c = 64 then .first else .name
  | .name => if c = 58 then .port else if c = 64 then .first else .name
  | .literal => if c = 93 then .name else .literal
  | .port => if c = 64 then .first else .port

/-- The threads of a phase.  A port behind its first digit has its mark. -/
def Reading (n : Nat) (marked : Bool) : Phase → E → Prop
  | .first, y => y = authority n ∨ y = behindUser n
  | .name, y => ReadsUser n y ∨ ReadsHost n y
  | .literal, y => ReadsLiteral n y
  | .port, y => ReadsUser n y ∨ y = beforePortOf n ∨ ReadsPort n y ∧ marked = true

variable {φ : Phase}

/-- The moves inside a name. -/
theorem moves_name (h : Reading n marked .name y) (hm : m ∈ y.moves c) :
    c ∉ authorityEnds ∧ Free m.acts ∧ Reading n false (Phase.next c .name) m.next := by
  rcases h with ⟨x, hx, rfl⟩ | ⟨x, hx, rfl⟩
  · rcases moves_userRest hx hm with ⟨hplain, hacts, hnext⟩ | ⟨rfl, hacts, hnext⟩
    · rw [List.mem_cons, not_or] at hplain
      refine ⟨hplain.2, by simp [Free, hacts], ?_⟩
      by_cases hcolon : c = 58
      · rw [show Phase.next c .name = .port by simp [Phase.next, hcolon]]
        exact .inl hnext
      · rw [show Phase.next c .name = .name by simp [Phase.next, hcolon, hplain.1]]
        exact .inl hnext
    · exact ⟨by decide, by simp [Free, hacts, UriAction.needsMark], .inr hnext⟩
  · rcases moves_hostRest hx hm with ⟨hplain, hacts, hnext⟩ | ⟨rfl, hacts, hnext⟩
    · rw [List.mem_cons, List.mem_cons, not_or, not_or] at hplain
      refine ⟨hplain.2.2, by simp [Free, hacts], ?_⟩
      rw [show Phase.next c .name = .name by simp [Phase.next, hplain.1, hplain.2.1]]
      exact .inr hnext
    · exact ⟨by decide, by simp [Free, hacts, UriAction.needsMark], .inr (.inl hnext)⟩

/-- The moves inside a literal. -/
theorem moves_literal (h : Reading n marked .literal y) (hm : m ∈ y.moves c) :
    c ∉ authorityEnds ∧ Free m.acts ∧ Reading n false (Phase.next c .literal) m.next := by
  rcases h with ⟨x, hx, hend, rfl⟩
  rcases moves_literalRest hx hend hm with ⟨hplain, hacts, hnext⟩
  refine ⟨fun hc => hplain (List.mem_cons_of_mem _ hc), by simp [Free, hacts], ?_⟩
  rcases hnext with ⟨hbracket, hnext⟩ | ⟨rfl, hnext⟩
  · rw [show Phase.next c .literal = .literal by simp [Phase.next, hbracket]]
    exact hnext
  · exact .inr hnext

/-- The moves inside the first part. -/
theorem moves_first (h : Reading n marked .first y) (hm : m ∈ y.moves c) :
    c ∉ authorityEnds ∧ Free m.acts ∧ Reading n false (Phase.next c .first) m.next := by
  have hbehind : ∀ m ∈ (behindUser n).moves c, c ∉ authorityEnds ∧ Free m.acts ∧
      Reading n false (Phase.next c .first) m.next := by
    intro m hm
    rcases moves_behindUser hm with ⟨rfl, hacts, hnext⟩ | ⟨hplain, hbracket, hacts, hnext⟩ |
      ⟨rfl, hacts, hnext⟩
    · exact ⟨by decide, by simp [Free, hacts, UriAction.needsMark], hnext⟩
    · rw [List.mem_cons, List.mem_cons, not_or, not_or] at hplain
      refine ⟨hplain.2.2, by simp [Free, hacts, UriAction.needsMark], ?_⟩
      rw [show Phase.next c .first = .name by simp [Phase.next, hbracket, hplain.1, hplain.2.1]]
      exact .inr hnext
    · exact ⟨by decide, by simp [Free, hacts, UriAction.needsMark], .inr (.inl hnext)⟩
  rcases h with rfl | rfl
  · rcases moves_authority hm with ⟨hplain, hbracket, hacts, hnext⟩ | ⟨rfl, hacts, hnext⟩ |
      ⟨m₀, hm₀, hacts, hnext⟩
    · rw [List.mem_cons, not_or] at hplain
      refine ⟨hplain.2, by simp [Free, hacts, UriAction.needsMark], ?_⟩
      by_cases hcolon : c = 58
      · rw [show Phase.next c .first = .port by simp [Phase.next, hcolon]]
        exact .inl hnext
      · rw [show Phase.next c .first = .name by simp [Phase.next, hbracket, hcolon, hplain.1]]
        exact .inl hnext
    · exact ⟨by decide, by simp [Free, hacts, UriAction.needsMark], .inr hnext⟩
    · rcases hbehind m₀ hm₀ with ⟨hends, hfree, hread⟩
      rw [hacts, hnext]
      refine ⟨hends, ?_, hread⟩
      intro q hq
      rcases List.mem_cons.mp hq with rfl | hq
      · rfl
      · exact hfree q hq
  · exact hbehind m hm

/-- A user or a port goes on, and `@` ends a user. -/
theorem moves_port (h : Reading n marked .port y) (hm : m ∈ y.moves c) :
    c ∉ authorityEnds ∧
      ((c = 64 ∧ Free m.acts ∧ m.next = behindUser n) ∨
        (c ≠ 64 ∧ (∀ q ∈ m.acts, q.2.setsMark = true) ∧
          (ReadsUser n m.next ∨ ReadsPort n m.next ∧ (marked = true ∨ m.acts ≠ [])))) := by
  rcases h with ⟨x, hx, rfl⟩ | rfl | ⟨⟨x, hx, rfl⟩, hmarked⟩
  · rcases moves_userRest hx hm with ⟨hplain, hacts, hnext⟩ | ⟨rfl, hacts, hnext⟩
    · rw [List.mem_cons, not_or] at hplain
      exact ⟨hplain.2, .inr ⟨hplain.1, by simp [hacts], .inl hnext⟩⟩
    · exact ⟨by decide, .inl ⟨rfl, by simp [Free, hacts, UriAction.needsMark], hnext⟩⟩
  · rcases moves_beforePortOf hm with ⟨hplain, hacts, hnext⟩
    rw [List.mem_cons, List.mem_cons, not_or, not_or] at hplain
    refine ⟨hplain.2.2,
      .inr ⟨hplain.2.1, by simp [hacts, UriAction.setsMark], .inr ⟨hnext, .inr ?_⟩⟩⟩
    simp [hacts]
  · rcases moves_portRest hx hm with ⟨hplain, hacts, hnext⟩
    rw [List.mem_cons, List.mem_cons, not_or, not_or] at hplain
    exact ⟨hplain.2.2, .inr ⟨hplain.2.1, by simp [hacts], .inr ⟨hnext, .inl hmarked⟩⟩⟩

/-- No byte that ends an authority belongs to it. -/
theorem Reading.moves_eq_nil (h : Reading n marked φ y) (hc : c ∈ authorityEnds) :
    y.moves c = [] := by
  apply List.eq_nil_iff_forall_not_mem.mpr
  intro m hm
  cases φ with
  | first => exact (moves_first h hm).1 hc
  | name => exact (moves_name h hm).1 hc
  | literal => exact (moves_literal h hm).1 hc
  | port => exact (moves_port h hm).1 hc

/-- The actions at the end of an authority: a port is saved from a mark. -/
def Outs (n : Nat) (marked : Bool) (acts : List (Nat × UriAction)) : Phase → Prop
  | .port => ∃ later, Later n later ∧
      (acts = (n + 4, .markh) :: (n + 5, .savePort) :: later ∨
        marked = true ∧ acts = (n + 5, .savePort) :: later)
  | _ => Free acts

/-- Actions of the later parts need no mark behind free ones. -/
theorem Later.free_append (hlater : Later n later) (hfree : Free l) : Free (l ++ later) := by
  intro q hq
  rcases List.mem_append.mp hq with hq | hq
  · exact hfree q hq
  · exact (hlater q hq).2

theorem not_nullable_of_readsUser (h : ReadsUser n y) : y.nullable ≠ true := by
  rcases h with ⟨x, -, rfl⟩
  simp [userRest, nullable, lit]

/-- The actions at the end of each phase. -/
theorem Reading.outs (h : Reading n marked φ y) (hnull : y.nullable = true)
    (hlater : Later n later) :
    Outs n marked (y.out ++ later) φ := by
  cases φ with
  | first =>
      apply hlater.free_append
      rcases h with rfl | rfl
      · rw [show (authority n).out = [(n, .markh), (n + 2, .markh), (n + 3, .saveHost)] by rfl]
        simp [Free, UriAction.needsMark]
      · rw [show (behindUser n).out = [(n + 2, .markh), (n + 3, .saveHost)] by rfl]
        simp [Free, UriAction.needsMark]
  | name =>
      apply hlater.free_append
      rcases h with h | ⟨x, hx, rfl⟩
      · exact absurd hnull (not_nullable_of_readsUser h)
      · have hport : (portOf n).out = [] := by rfl
        simp [Free, hostRest, Expr.out, hx.out_eq_nil, hport, UriAction.needsMark]
  | literal =>
      rcases h with ⟨x, -, hend, rfl⟩
      simp [hostRest, nullable, not_nullable_of_endsWith hend] at hnull
  | port =>
      refine ⟨later, hlater, ?_⟩
      rcases h with h | rfl | ⟨⟨x, hx, rfl⟩, hmarked⟩
      · exact absurd hnull (not_nullable_of_readsUser h)
      · exact .inl rfl
      · refine .inr ⟨hmarked, ?_⟩
        rw [portRest, Expr.out, hx.out_eq_nil]
        rfl

/-- The actions of a step that ends an authority read from no null mark. -/
theorem fine_of_outs (h : ∀ q ∈ l, ∃ acts, Outs n marked acts φ ∧ q ∈ acts ∧ ∀ q' ∈ acts, q' ∈ l) :
    Fine marked (inOrder l) := by
  have hfree : (∀ acts, Outs n marked acts φ → Free acts) → Fine marked (inOrder l) := by
    intro hall
    apply Free.fine
    intro q hq
    rcases h q hq with ⟨acts, houts, hmem, -⟩
    exact hall acts houts q hmem
  cases φ with
  | first | name | literal => exact hfree fun _ => id
  | port =>
      have hmem : ∀ q ∈ l, q = (n + 4, .markh) ∨ q = (n + 5, .savePort) ∨
          n + 5 < q.1 ∧ q.2.needsMark = false := by
        intro q hq
        rcases h q hq with ⟨acts, ⟨later, hlater, rfl | ⟨-, rfl⟩⟩, hqacts, -⟩
        · rcases List.mem_cons.mp hqacts with hq | hqacts
          · exact .inl hq
          · exact .inr ((List.mem_cons.mp hqacts).imp_right (hlater q))
        · exact .inr ((List.mem_cons.mp hqacts).imp_right (hlater q))
      apply fine_inOrder (k := n + 5) (a := .savePort)
      · intro q hq hneeds
        rcases hmem q hq with rfl | hport | ⟨-, hfree⟩
        · cases hneeds
        · exact hport
        · exact absurd hneeds (by rw [hfree]; decide)
      · intro q hq hle
        rcases hmem q hq with rfl | hport | ⟨hlt, -⟩
        · exact .inr ⟨Nat.lt_succ_self _, rfl⟩
        · exact .inl hport
        · exact absurd hle (Nat.not_le.mpr hlt)
      · intro hport
        rcases h _ hport with ⟨acts, ⟨later, hlater, rfl | ⟨hmarked, -⟩⟩, -, hacts⟩
        · exact .inr ⟨_, hacts _ List.mem_cons_self, Nat.lt_succ_self _⟩
        · exact .inl hmarked

end Uri
end Tiger
