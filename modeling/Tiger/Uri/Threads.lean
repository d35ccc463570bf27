import Tiger.Uri.Parts

/-!
# URIs - the threads of the machine

Inside of an authority the machine follows several readings at once: what has been read may be
the user, or the host, and behind a colon the user or the port.  The threads of each reading are
a family; this module says what the members of each family do on a byte.

A user may hold a colon and a host may not.  So the colon ends the reading as a host, with its
action, while the reading as a user goes on.
-/

namespace Tiger
namespace Uri

open Lib.Ragel Lib.Ragel.Expr Grammar

/-! ## Parts of the machine -/

def userPart : E := opt (seq [leaving 3 .saveUser user, lit ['@']])

def hostPart : E := leaving 5 .saveHost (entering 4 .markh host)

def beforePort : E := leaving 7 .savePort (entering 6 .markh port)

def portPart : E := opt (seq [lit [':'], beforePort])

def pathPart : E := leaving 9 .savePath (entering 8 .markh pathAbempty)

def queryPart : E := opt (seq [lit ['?'], query 10])

def fragmentPart : E := opt (seq [lit ['#'], fragment 12])

/-- What may stand behind the path. -/
def tail : E := cat queryPart fragmentPart

/-- The rest of an authority and what is behind it. -/
def inAuthority (x : E) : E := cat (cat x pathPart) tail

/-- The rest of a user and what is behind it. -/
def inUser (x : E) : E :=
  inAuthority (cat (cat (leaving 3 .saveUser x) (lit ['@'])) (cat hostPart portPart))

/-- The rest of a host and what is behind it. -/
def inHost (x : E) : E := inAuthority (cat (leaving 5 .saveHost x) portPart)

/-- The rest of a port and what is behind it. -/
def inPort (x : E) : E := inAuthority (leaving 7 .savePort x)

/-- The rest of a path and what is behind it. -/
def inPath (x : E) : E := cat (leaving 9 .savePath x) tail

/-! ## Families -/

/-- The threads that read a user. -/
def InUser (t : E) : Prop := ∃ x, Calm (64 :: authorityEnds) x ∧ t = inUser x

/-- The threads that read a host. -/
def InHost (t : E) : Prop := ∃ x, Calm (58 :: 64 :: authorityEnds) x ∧ t = inHost x

/-- The threads that read a port. -/
def InPort (t : E) : Prop := ∃ x, Calm (58 :: 64 :: authorityEnds) x ∧ t = inPort x

/-- The threads that read a path. -/
def InPath (t : E) : Prop := ∃ x, Calm [63, 35] x ∧ t = inPath x

/-! ## Moves -/

variable {c : UInt8} {m : Move UriAction} {x : E}

theorem pathPart_moves (hc : c ≠ 47) : pathPart.moves c = [] :=
  moves_eq_nil_of_chars ['/'] (by decide) (List.forall_mem_singleton.mpr hc)

theorem tail_moves (hc : c ≠ 63) (hc' : c ≠ 35) : tail.moves c = [] :=
  moves_eq_nil_of_chars ['?', '#'] (by decide)
    (List.forall_mem_cons.mpr ⟨hc, List.forall_mem_singleton.mpr hc'⟩)

/-- The moves of an authority on a byte that does not end it. -/
theorem moves_inAuthority (hc : c ∉ authorityEnds) (hm : m ∈ (inAuthority x).moves c) :
    ∃ m₀ ∈ x.moves c, m.acts = m₀.acts ∧ m.next = andThen (andThen m₀.next pathPart) tail := by
  simp only [authorityEnds, List.mem_cons, List.not_mem_nil, or_false, not_or] at hc
  exact moves_in (pathPart_moves hc.1) (tail_moves hc.2.1 hc.2.2) hm

/-- A move of the authority is a move of what is to be read. -/
theorem inAuthority_moves (hm : m ∈ x.moves c) :
    ∃ m' ∈ (inAuthority x).moves c, m'.acts = m.acts ∧
      m'.next = andThen (andThen m.next pathPart) tail :=
  ⟨_, mem_moves_cat.mpr (.inl ⟨_, mem_moves_cat.mpr (.inl ⟨m, hm, rfl⟩), rfl⟩), rfl, rfl⟩

/-- A reading as a user goes on, or ends with `@`. -/
theorem moves_inUser (hx : Calm (64 :: authorityEnds) x) (hm : m ∈ (inUser x).moves c) :
    (c ∉ 64 :: authorityEnds ∧ m.acts = [] ∧ InUser m.next) ∨
      (c = 64 ∧ m.acts = [(3, .saveUser)] ∧ m.next = inAuthority (cat hostPart portPart)) := by
  -- a user and its `@` are not empty, so that nothing behind them moves
  rcases mem_moves_cat.mp hm with ⟨m₁, hm₁, rfl⟩ | ⟨hnull, -⟩
  case inr => simp [nullable, lit] at hnull
  rcases mem_moves_cat.mp hm₁ with ⟨m₂, hm₂, rfl⟩ | ⟨hnull, -⟩
  case inr => simp [nullable, lit] at hnull
  rcases moves_userRest (n := 2) hx hm₂ with ⟨hplain, hacts, x', hx', hnext⟩ | ⟨hat, hacts, hnext⟩
  · refine .inl ⟨hplain, hacts, x', hx', ?_⟩
    simp only [Move.mapNext, hnext]
    rfl
  · refine .inr ⟨hat, hacts, ?_⟩
    simp only [Move.mapNext, hnext]
    rfl

/-- A reading as a host goes on, or ends with a colon. -/
theorem moves_inHost (hx : Calm (58 :: 64 :: authorityEnds) x) (hc : c ∉ authorityEnds)
    (hm : m ∈ (inHost x).moves c) :
    (c ∉ 58 :: 64 :: authorityEnds ∧ m.acts = [] ∧ InHost m.next) ∨
      (c = 58 ∧ m.acts = [(5, .saveHost)] ∧ m.next = inAuthority beforePort) := by
  rcases moves_inAuthority hc hm with ⟨m₀, hm₀, hacts, hnext⟩
  rw [hacts, hnext]
  rcases moves_hostRest (n := 2) hx hm₀ with ⟨hplain, hacts₀, x', hx', hnext₀⟩
    | ⟨hcolon, hacts₀, hnext₀⟩
  · exact .inl ⟨hplain, hacts₀, x', hx', by rw [hnext₀]; rfl⟩
  · exact .inr ⟨hcolon, hacts₀, by rw [hnext₀]; rfl⟩

/-- A reading as a port goes on. -/
theorem moves_inPort (hx : Calm (58 :: 64 :: authorityEnds) x) (hc : c ∉ authorityEnds)
    (hm : m ∈ (inPort x).moves c) :
    c ∉ 58 :: 64 :: authorityEnds ∧ m.acts = [] ∧ InPort m.next := by
  rcases moves_inAuthority hc hm with ⟨m₀, hm₀, hacts, hnext⟩
  rw [hacts, hnext]
  rcases moves_portRest (n := 2) hx hm₀ with ⟨hplain, hacts₀, x', hx', hnext₀⟩
  exact ⟨hplain, hacts₀, x', hx', by rw [hnext₀]; rfl⟩

theorem calm_pathAbempty : Calm [63, 35] pathAbempty := .of_all rfl rfl

theorem calm_queryText : Calm [35] queryText := .of_all rfl rfl

/-- The first byte of a port. -/
theorem moves_beforePort (hc : c ∉ authorityEnds) (hm : m ∈ (inAuthority beforePort).moves c) :
    c ∉ 58 :: 64 :: authorityEnds ∧ m.acts = [(6, .markh)] ∧ InPort m.next := by
  rcases moves_inAuthority hc hm with ⟨m₀, hm₀, hacts, hnext⟩
  rw [hacts, hnext]
  rcases moves_beforePortOf (n := 2) hm₀ with ⟨hplain, hacts₀, x', hx', hnext₀⟩
  exact ⟨hplain, hacts₀, x', hx', by rw [hnext₀]; rfl⟩

/-- The first byte of a host, or a colon in its place. -/
theorem moves_hostPart (hc : c ≠ 91) (hm : m ∈ (cat hostPart portPart).moves c) :
    (c ∉ 58 :: 64 :: authorityEnds ∧ m.acts = [(4, .markh)] ∧
      ∃ x, Calm (58 :: 64 :: authorityEnds) x ∧ m.next = cat (leaving 5 .saveHost x) portPart) ∨
    (c = 58 ∧ m.acts = [(4, .markh), (5, .saveHost)] ∧ m.next = beforePort) := by
  rcases moves_behindUser (n := 2) hm with ⟨hbracket, -⟩ | ⟨hplain, -, hhost⟩ | hcolon
  · exact absurd hbracket hc
  · exact .inl ⟨hplain, hhost⟩
  · exact .inr hcolon

/-- The first byte of an authority: of a user, of a host, or an empty one of them. -/
theorem moves_inAuthority_authority (hc : c ∉ authorityEnds) (hbracket : c ≠ 91)
    (hm : m ∈ (inAuthority (authority 2)).moves c) :
    (c ∉ 64 :: authorityEnds ∧ m.acts = [(2, .markh)] ∧ InUser m.next) ∨
    (c = 64 ∧ m.acts = [(2, .markh), (3, .saveUser)] ∧
      m.next = inAuthority (cat hostPart portPart)) ∨
    (c ∉ 58 :: 64 :: authorityEnds ∧ m.acts = [(2, .markh), (4, .markh)] ∧ InHost m.next) ∨
    (c = 58 ∧ m.acts = [(2, .markh), (4, .markh), (5, .saveHost)] ∧
      m.next = inAuthority beforePort) := by
  rcases moves_inAuthority hc hm with ⟨m₀, hm₀, hacts, hnext⟩
  rw [hacts, hnext]
  rcases moves_authority hm₀ with ⟨hplain, -, hacts₀, x, hx, hnext₀⟩ | ⟨hat, hacts₀, hnext₀⟩ |
    ⟨m₁, hm₁, hacts₀, hnext₀⟩
  · exact .inl ⟨hplain, hacts₀, x, hx, by rw [hnext₀]; rfl⟩
  · exact .inr (.inl ⟨hat, hacts₀, by rw [hnext₀]; rfl⟩)
  · rw [hacts₀, hnext₀]
    rcases moves_hostPart hbracket hm₁ with ⟨hplain, hacts₁, x, hx, hnext₁⟩
      | ⟨hcolon, hacts₁, hnext₁⟩
    · exact .inr (.inr (.inl ⟨hplain, by rw [hacts₁], x, hx, by rw [hnext₁]; rfl⟩))
    · exact .inr (.inr (.inr ⟨hcolon, by rw [hacts₁], by rw [hnext₁]; rfl⟩))

/-! ## Threads that are there -/

/-- Inside a user, the authority moves as the user does. -/
theorem inUser_moves (hm : m ∈ x.moves c) : ∃ m' ∈ (inUser x).moves c, m'.next = inUser m.next := by
  have hleaving : m.mapNext (leaving 3 .saveUser) ∈ (leaving 3 .saveUser x).moves c :=
    mem_moves_leaving.mpr ⟨m, hm, rfl⟩
  rcases inAuthority_moves
    (mem_moves_cat.mpr (.inl ⟨_, mem_moves_cat.mpr (.inl ⟨_, hleaving, rfl⟩), rfl⟩)) with
    ⟨m', hm', -, hnext⟩
  exact ⟨m', hm', hnext⟩

/-- Inside a host, it moves as the host does. -/
theorem inHost_moves (hm : m ∈ x.moves c) : ∃ m' ∈ (inHost x).moves c, m'.next = inHost m.next := by
  have hleaving : m.mapNext (leaving 5 .saveHost) ∈ (leaving 5 .saveHost x).moves c :=
    mem_moves_leaving.mpr ⟨m, hm, rfl⟩
  rcases inAuthority_moves (mem_moves_cat.mpr (.inl ⟨_, hleaving, rfl⟩)) with ⟨m', hm', -, hnext⟩
  exact ⟨m', hm', hnext⟩

theorem inPort_moves (hm : m ∈ x.moves c) : ∃ m' ∈ (inPort x).moves c, m'.next = inPort m.next := by
  rcases inAuthority_moves (mem_moves_leaving.mpr ⟨m, hm, rfl⟩) with ⟨m', hm', -, hnext⟩
  exact ⟨m', hm', hnext⟩

theorem inPath_moves (hm : m ∈ x.moves c) : ∃ m' ∈ (inPath x).moves c, m'.next = inPath m.next :=
  ⟨_, mem_moves_cat.mpr (.inl ⟨_, mem_moves_leaving.mpr ⟨m, hm, rfl⟩, rfl⟩), rfl⟩

/-- A context that every move goes on in. -/
theorem goes_of_moves {f : E → E}
    (hf : ∀ {c m x}, m ∈ moves c x → ∃ m' ∈ (f x).moves c, m'.next = f m.next)
    {w : List UInt8} {x' : E} (h : Goes x w x') : Goes (f x) w (f x') := by
  induction h with
  | nil e => exact .nil _
  | cons hm _ ih =>
      rcases hf hm with ⟨m', hm', hnext⟩
      rw [← hnext] at ih
      exact .cons hm' ih

/-! ## Ends -/

/-- The threads in which an authority may end, with the action of its last part. -/
def Closing (k : Nat) (a : UriAction) (t : E) : Prop :=
  ∃ x, t = inAuthority x ∧ Ends authorityEnds [(k, a)] x

variable {t : E}

/-- Where a user ends, its action is done. -/
theorem InUser.closing (h : InUser t) (k : Nat) (a : UriAction) : Closing k a t := by
  rcases h with ⟨x, hx, rfl⟩
  refine ⟨_, rfl, ?_, fun hnull => by simp [nullable, lit] at hnull⟩
  intro c hc
  apply List.eq_nil_iff_forall_not_mem.mpr
  intro m hm
  rcases moves_userRest (n := 2) hx hm with ⟨hplain, -⟩ | ⟨rfl, -⟩
  · exact hplain (List.mem_cons_of_mem _ hc)
  · exact absurd hc (by decide)

/-- Where a host ends, it is saved. -/
theorem InHost.closing (h : InHost t) : Closing 5 .saveHost t := by
  rcases h with ⟨x, hx, rfl⟩
  refine ⟨_, rfl, ?_, ?_⟩
  · intro c hc
    apply List.eq_nil_iff_forall_not_mem.mpr
    intro m hm
    rcases moves_hostRest (n := 2) hx hm with ⟨hplain, -⟩ | ⟨rfl, -⟩
    · exact hplain (List.mem_cons_of_mem _ (List.mem_cons_of_mem _ hc))
    · exact absurd hc (by decide)
  · intro _
    simp only [out, hx.out_eq_nil]
    rfl

/-- Where a port ends, it is saved. -/
theorem InPort.closing (h : InPort t) : Closing 7 .savePort t := by
  rcases h with ⟨x, hx, rfl⟩
  refine ⟨_, rfl, ?_, ?_⟩
  · intro c hc
    apply List.eq_nil_iff_forall_not_mem.mpr
    intro m hm
    exact (moves_portRest (n := 2) hx hm).1 (List.mem_cons_of_mem _ (List.mem_cons_of_mem _ hc))
  · intro _
    rw [out, hx.out_eq_nil]
    rfl

/-- A part that closes the authority may end it. -/
theorem Closing.ending {k : Nat} {a : UriAction} (h : Closing k a t) :
    Ending [63, 35] [(k, a), (8, .markh), (9, .savePath)] tail t := by
  rcases h with ⟨x, rfl, hx⟩
  refine ⟨_, rfl, ?_, ?_⟩
  · intro c hc
    rw [moves, hx.stops c (List.mem_cons_of_mem _ hc),
      pathPart_moves (by rintro rfl; revert hc; decide)]
    simp
  · intro hnull
    rw [nullable, Bool.and_eq_true] at hnull
    rw [out, hx.out hnull.1]
    rfl

/-- Where a path ends, it is saved. -/
theorem InPath.ending (h : InPath t) : Ending [63, 35] [(9, .savePath)] tail t := by
  rcases h with ⟨x, hx, rfl⟩
  refine ⟨_, rfl, ?_, ?_⟩
  · intro c hc
    rw [moves, hx.moves_eq_nil hc]
    rfl
  · intro _
    rw [out, hx.out_eq_nil]
    rfl

theorem tail_question : tail.moves 63 = [⟨[], [], cat (query 10) fragmentPart⟩] := by rfl

theorem tail_hash : tail.moves 35 = [⟨[], [], fragment 12⟩] := by rfl

/-- A path begins where an authority ends. -/
theorem moves_slash {k : Nat} {a : UriAction} (h : Closing k a t) (hm : m ∈ t.moves 47) :
    m.acts = [(k, a), (8, .markh)] ∧ InPath m.next := by
  rcases h with ⟨x, rfl, hx⟩
  rcases mem_moves_cat.mp hm with ⟨m₁, hm₁, rfl⟩ | ⟨-, m₁, hm₁, -⟩
  · rcases mem_moves_cat.mp hm₁ with ⟨m₂, hm₂, -⟩ | ⟨hnull, m₂, hm₂, rfl⟩
    · rw [hx.stops 47 (by decide)] at hm₂
      cases hm₂
    · rcases mem_moves_leaving.mp hm₂ with ⟨m₃, hm₃, rfl⟩
      rcases mem_moves_entering.mp hm₃ with ⟨m₄, hm₄, rfl⟩
      have hmove := calm_pathAbempty.move hm₄
      refine ⟨?_, m₄.next, hmove.2.2, rfl⟩
      simp [Move.mapNext, Move.addActs, hx.out hnull, hmove.1]
  · rw [tail_moves (by decide) (by decide)] at hm₁
    cases hm₁

/-- A slash behind the authority starts the path. -/
theorem slash_moves (hnull : x.nullable = true) (hm : m ∈ pathAbempty.moves 47) :
    ∃ m' ∈ (inAuthority x).moves 47, m'.next = inPath m.next := by
  have hpath : (m.addActs [(8, .markh)]).mapNext (leaving 9 .savePath) ∈ pathPart.moves 47 :=
    mem_moves_leaving.mpr ⟨_, mem_moves_entering.mpr ⟨m, hm, rfl⟩, rfl⟩
  exact ⟨_, mem_moves_cat.mpr (.inl ⟨_, mem_moves_cat.mpr (.inr ⟨hnull, _, hpath, rfl⟩), rfl⟩), rfl⟩

end Uri
end Tiger
