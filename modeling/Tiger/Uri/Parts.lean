import Tiger.Uri.Parser

/-!
# URIs - the parts of an authority

The machine holds an authority twice, in a URI and in a relative reference.  The numbers of its
actions begin with `n`.  This module says what each part of it does on a byte, and nothing of
what is behind the authority.

Main results:

- Theorem `moves_authority`: the first byte of an authority.
- Theorem `moves_behindUser`: the first byte of a host.
- Theorems `moves_userRest`, `moves_hostRest`, `moves_literalRest` and `moves_portRest`: the
  further bytes of a part.
-/

namespace Tiger
namespace Uri

open Lib.Ragel Lib.Ragel.Expr Grammar

/-- The bytes that end an authority. -/
def authorityEnds : List UInt8 := [47, 63, 35]

/-! ## Parts -/

def hostOf (n : Nat) : E := leaving (n + 3) .saveHost (entering (n + 2) .markh host)

def beforePortOf (n : Nat) : E := leaving (n + 5) .savePort (entering (n + 4) .markh port)

def portOf (n : Nat) : E := opt (seq [lit [':'], beforePortOf n])

/-- What stands behind a user. -/
def behindUser (n : Nat) : E := cat (hostOf n) (portOf n)

/-- The rest of a user, and what is behind it. -/
def userRest (n : Nat) (x : E) : E :=
  cat (cat (leaving (n + 1) .saveUser x) (lit ['@'])) (behindUser n)

/-- The rest of a host, and what is behind it. -/
def hostRest (n : Nat) (x : E) : E := cat (leaving (n + 3) .saveHost x) (portOf n)

/-- The rest of a port. -/
def portRest (n : Nat) (x : E) : E := leaving (n + 5) .savePort x

/-- A user is read. -/
def ReadsUser (n : Nat) (y : E) : Prop := ∃ x, Calm (64 :: authorityEnds) x ∧ y = userRest n x

/-- A host is read, but not in brackets. -/
def ReadsHost (n : Nat) (y : E) : Prop := ∃ x, Calm (58 :: 64 :: authorityEnds) x ∧ y = hostRest n x

/-- A host in brackets is read. -/
def ReadsLiteral (n : Nat) (y : E) : Prop :=
  ∃ x, Calm (64 :: authorityEnds) x ∧ x.endsWith 93 = true ∧ y = hostRest n x

/-- A port is read. -/
def ReadsPort (n : Nat) (y : E) : Prop := ∃ x, Calm (58 :: 64 :: authorityEnds) x ∧ y = portRest n x

/-! ## Moves -/

variable {n : Nat} {c : UInt8} {m : Move UriAction} {x y : E}

theorem calm_port : Calm (58 :: 64 :: authorityEnds) port := .of_all rfl rfl

theorem calm_user : Calm (64 :: authorityEnds) user := .of_all rfl rfl

theorem calm_regName : Calm (58 :: 64 :: authorityEnds) regName := .of_all rfl rfl

theorem calm_ipV4 : Calm (58 :: 64 :: authorityEnds) ipV4 := .of_all rfl rfl

theorem calm_ipLiteral : Calm (64 :: authorityEnds) ipLiteral := .of_all rfl rfl

/-- A port begins with its colon. -/
theorem moves_portOf (hm : m ∈ (portOf n).moves c) : c = 58 ∧ m = ⟨[], [], beforePortOf n⟩ := by
  rw [portOf, opt, mem_moves_alt] at hm
  rcases hm with hm | hm
  · rcases mem_moves_cat.mp hm with ⟨m₀, hm₀, rfl⟩ | ⟨hnull, -⟩
    · rcases (mem_moves_lit (by decide)).mp hm₀ with ⟨hc, rfl⟩
      exact ⟨hc, rfl⟩
    · simp [nullable, lit] at hnull
  · cases hm

/-- A reading as a user goes on, or ends with `@`. -/
theorem moves_userRest (hx : Calm (64 :: authorityEnds) x) (hm : m ∈ (userRest n x).moves c) :
    (c ∉ 64 :: authorityEnds ∧ m.acts = [] ∧ ReadsUser n m.next) ∨
      (c = 64 ∧ m.acts = [(n + 1, .saveUser)] ∧ m.next = behindUser n) := by
  rcases mem_moves_cat.mp hm with ⟨m₁, hm₁, rfl⟩ | ⟨hnull, -⟩
  case inr => simp [nullable, lit] at hnull
  rcases mem_moves_cat.mp hm₁ with ⟨m₂, hm₂, rfl⟩ | ⟨-, m₂, hm₂, rfl⟩
  · rcases mem_moves_leaving.mp hm₂ with ⟨m₃, hm₃, rfl⟩
    have hmove := hx.move hm₃
    exact .inl ⟨hmove.2.1, hmove.1, m₃.next, hmove.2.2, rfl⟩
  · rcases (mem_moves_lit (by decide)).mp hm₂ with ⟨hat, rfl⟩
    refine .inr ⟨hat, ?_, rfl⟩
    simp [Move.mapNext, Move.addActs, out, hx.out_eq_nil]

/-- A reading as a host goes on, or ends with a colon. -/
theorem moves_hostRest (hx : Calm (58 :: 64 :: authorityEnds) x) (hm : m ∈ (hostRest n x).moves c) :
    (c ∉ 58 :: 64 :: authorityEnds ∧ m.acts = [] ∧ ReadsHost n m.next) ∨
      (c = 58 ∧ m.acts = [(n + 3, .saveHost)] ∧ m.next = beforePortOf n) := by
  rcases mem_moves_cat.mp hm with ⟨m₁, hm₁, rfl⟩ | ⟨-, m₁, hm₁, rfl⟩
  · rcases mem_moves_leaving.mp hm₁ with ⟨m₂, hm₂, rfl⟩
    have hmove := hx.move hm₂
    exact .inl ⟨hmove.2.1, hmove.1, m₂.next, hmove.2.2, rfl⟩
  · rcases moves_portOf hm₁ with ⟨hcolon, rfl⟩
    refine .inr ⟨hcolon, ?_, rfl⟩
    simp [Move.addActs, out, hx.out_eq_nil]

/-- A host in brackets goes on up to its bracket. -/
theorem moves_literalRest (hx : Calm (64 :: authorityEnds) x) (hend : x.endsWith 93 = true)
    (hm : m ∈ (hostRest n x).moves c) :
    c ∉ 64 :: authorityEnds ∧ m.acts = [] ∧
      (c ≠ 93 ∧ ReadsLiteral n m.next ∨ c = 93 ∧ ReadsHost n m.next) := by
  rcases mem_moves_cat.mp hm with ⟨m₁, hm₁, rfl⟩ | ⟨hnull, -⟩
  case inr => simp [nullable, not_nullable_of_endsWith hend] at hnull
  rcases mem_moves_leaving.mp hm₁ with ⟨m₂, hm₂, rfl⟩
  have hmove := hx.move hm₂
  have hbracket := (moveOf_of_mem hm₂).endsWith hend
  refine ⟨hmove.2.1, hmove.1, ?_⟩
  by_cases hc : c = 93
  · refine .inr ⟨hc, eps, .of_all rfl rfl, ?_⟩
    simp only [Move.mapNext, hbracket.1 hc]
    rfl
  · exact .inl ⟨hc, m₂.next, hmove.2.2, hbracket.2 hc, rfl⟩

/-- A reading as a port goes on. -/
theorem moves_portRest (hx : Calm (58 :: 64 :: authorityEnds) x) (hm : m ∈ (portRest n x).moves c) :
    c ∉ 58 :: 64 :: authorityEnds ∧ m.acts = [] ∧ ReadsPort n m.next := by
  rcases mem_moves_leaving.mp hm with ⟨m₁, hm₁, rfl⟩
  have hmove := hx.move hm₁
  exact ⟨hmove.2.1, hmove.1, m₁.next, hmove.2.2, rfl⟩

/-- The first byte of a port. -/
theorem moves_beforePortOf (hm : m ∈ (beforePortOf n).moves c) :
    c ∉ 58 :: 64 :: authorityEnds ∧ m.acts = [(n + 4, .markh)] ∧ ReadsPort n m.next := by
  rcases mem_moves_leaving.mp hm with ⟨m₁, hm₁, rfl⟩
  rcases mem_moves_entering.mp hm₁ with ⟨m₂, hm₂, rfl⟩
  have hmove := calm_port.move hm₂
  refine ⟨hmove.2.1, ?_, m₂.next, hmove.2.2, rfl⟩
  simp [Move.mapNext, Move.addActs, hmove.1]

/-- The first byte of a host: a bracket, or a byte of an address or of a name. -/
theorem moves_host (hm : m ∈ host.moves c) :
    m.acts = [] ∧
      ((c = 91 ∧ Calm (64 :: authorityEnds) m.next ∧ m.next.endsWith 93 = true) ∨
        (c ∉ 58 :: 64 :: authorityEnds ∧ c ≠ 91 ∧ Calm (58 :: 64 :: authorityEnds) m.next)) := by
  have hhost : host = alt ipLiteral (alt ipV4 regName) := rfl
  have hplain : ∀ {e : E}, Calm (58 :: 64 :: authorityEnds) e → e.without 91 = true →
      m ∈ e.moves c →
      m.acts = [] ∧ c ∉ 58 :: 64 :: authorityEnds ∧ c ≠ 91 ∧
        Calm (58 :: 64 :: authorityEnds) m.next := by
    intro e he hwithout hm
    have hmove := he.move hm
    exact ⟨hmove.1, hmove.2.1, ((moveOf_of_mem hm).without hwithout).1, hmove.2.2⟩
  rw [hhost, mem_moves_alt, mem_moves_alt] at hm
  rcases hm with hm | hm | hm
  · have hbracket : c = 91 := by
      by_contra hc
      rw [moves_eq_nil_of_chars ['['] (by decide) (List.forall_mem_singleton.mpr hc)] at hm
      cases hm
    have hmove := calm_ipLiteral.move hm
    refine ⟨hmove.1, .inl ⟨hbracket, hmove.2.2, ?_⟩⟩
    have hends : (ipLiteral : E).endsWith 93 = true := by rfl
    exact ((moveOf_of_mem hm).endsWith hends).2 (by rw [hbracket]; decide)
  · exact (hplain calm_ipV4 rfl hm).imp_right .inr
  · exact (hplain calm_regName rfl hm).imp_right .inr

/-- The first byte of a host, or a colon in its place. -/
theorem moves_behindUser (hm : m ∈ (behindUser n).moves c) :
    (c = 91 ∧ m.acts = [(n + 2, .markh)] ∧ ReadsLiteral n m.next) ∨
    (c ∉ 58 :: 64 :: authorityEnds ∧ c ≠ 91 ∧ m.acts = [(n + 2, .markh)] ∧ ReadsHost n m.next) ∨
    (c = 58 ∧ m.acts = [(n + 2, .markh), (n + 3, .saveHost)] ∧ m.next = beforePortOf n) := by
  rcases mem_moves_cat.mp hm with ⟨m₁, hm₁, rfl⟩ | ⟨-, m₁, hm₁, rfl⟩
  · rcases mem_moves_leaving.mp hm₁ with ⟨m₂, hm₂, rfl⟩
    rcases mem_moves_entering.mp hm₂ with ⟨m₃, hm₃, rfl⟩
    rcases moves_host hm₃ with ⟨hacts, ⟨hbracket, hcalm, hend⟩ | ⟨hplain, hne, hcalm⟩⟩
    · refine .inl ⟨hbracket, ?_, m₃.next, hcalm, hend, rfl⟩
      simp [Move.mapNext, Move.addActs, hacts]
    · refine .inr (.inl ⟨hplain, hne, ?_, m₃.next, hcalm, rfl⟩)
      simp [Move.mapNext, Move.addActs, hacts]
  · rcases moves_portOf hm₁ with ⟨hcolon, rfl⟩
    exact .inr (.inr ⟨hcolon, rfl, rfl⟩)

/-- The first byte of an authority: of a user, of an empty one, or of what may stand behind one. -/
theorem moves_authority (hm : m ∈ (authority n).moves c) :
    (c ∉ 64 :: authorityEnds ∧ c ≠ 91 ∧ m.acts = [(n, .markh)] ∧ ReadsUser n m.next) ∨
    (c = 64 ∧ m.acts = [(n, .markh), (n + 1, .saveUser)] ∧ m.next = behindUser n) ∨
    (∃ m₀ ∈ (behindUser n).moves c, m.acts = (n, .markh) :: m₀.acts ∧ m.next = m₀.next) := by
  rcases mem_moves_entering.mp hm with ⟨m₁, hm₁, rfl⟩
  rcases mem_moves_cat.mp hm₁ with ⟨m₂, hm₂, rfl⟩ | ⟨-, m₂, hm₂, rfl⟩
  · rw [opt, mem_moves_alt] at hm₂
    rcases hm₂ with hm₂ | hm₂
    · rcases mem_moves_cat.mp hm₂ with ⟨m₃, hm₃, rfl⟩ | ⟨-, m₃, hm₃, rfl⟩
      · rcases mem_moves_leaving.mp hm₃ with ⟨m₄, hm₄, rfl⟩
        have hmove := calm_user.move hm₄
        have hwithout : (user : E).without 91 = true := by rfl
        refine .inl ⟨hmove.2.1, ((moveOf_of_mem hm₄).without hwithout).1, ?_, m₄.next, hmove.2.2,
          rfl⟩
        simp [Move.mapNext, Move.addActs, hmove.1]
      · rcases (mem_moves_lit (by decide)).mp hm₃ with ⟨hat, rfl⟩
        exact .inr (.inl ⟨hat, rfl, rfl⟩)
    · cases hm₂
  · exact .inr (.inr ⟨m₂, hm₂, rfl, rfl⟩)

/-! ## Behind an authority -/

variable {path rest : E}

/-- The moves of an authority on a byte that nothing behind it begins with. -/
theorem moves_in (hpath : path.moves c = []) (hrest : rest.moves c = [])
    (hm : m ∈ (cat (cat x path) rest).moves c) :
    ∃ m₀ ∈ x.moves c, m.acts = m₀.acts ∧ m.next = andThen (andThen m₀.next path) rest := by
  rcases mem_moves_cat.mp hm with ⟨m₁, hm₁, rfl⟩ | ⟨-, m₁, hm₁, -⟩
  · rcases mem_moves_cat.mp hm₁ with ⟨m₂, hm₂, rfl⟩ | ⟨-, m₂, hm₂, -⟩
    · exact ⟨m₂, hm₂, rfl, rfl⟩
    · rw [hpath] at hm₂
      cases hm₂
  · rw [hrest] at hm₁
    cases hm₁

end Uri
end Tiger
