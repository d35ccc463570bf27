import Tiger.Uri.Reads

/-!
# URIs - reading an authority

Behind the two slashes the machine does not know whether it reads a user or a host.  Both begin
with the same mark, so without a colon in the user it does not matter: `@` saves the user, and a
byte that ends the authority saves the host.
-/

namespace Tiger
namespace Uri

open Lib.Ragel Lib.Ragel.Expr Grammar
open Http (Text text strtol digitsValue)

variable {s w rest : Text} {p : Nat} {c : UInt8} {cs : List E} {mark : Option Nat} {u v : URI}
  {t x : E} {m : Move UriAction}

/-! ## The first part -/

/-- The threads in front of a host: behind the slashes, or behind a user. -/
def AtHost (t : E) : Prop := t = inAuthority (authority 2) ∨ t = inAuthority (cat hostPart portPart)

/-- The bytes of a user without a colon, and of a host. -/
def Plain (w : Text) : Prop := ∀ c ∈ w, c ∉ 58 :: 64 :: authorityEnds ∧ c ≠ 91

theorem not_mem_authorityEnds (hc : c ∉ 58 :: 64 :: authorityEnds) : c ∉ authorityEnds :=
  fun hmem => hc (List.mem_cons_of_mem _ (List.mem_cons_of_mem _ hmem))

/-- The threads that read a user or a host. -/
def InFirst (t : E) : Prop := InUser t ∨ InHost t

/-- At the host, a plain byte sets the mark. -/
theorem moves_atHost (ht : AtHost t) (hc : c ∉ 58 :: 64 :: authorityEnds) (hbracket : c ≠ 91)
    (hm : m ∈ t.moves c) :
    (∀ k ∈ m.acts, k.2 = UriAction.markh) ∧ m.acts ≠ [] ∧ InFirst m.next := by
  rcases ht with rfl | rfl
  · rcases moves_inAuthority_authority (not_mem_authorityEnds hc) hbracket hm with
      ⟨-, hacts, hnext⟩ | ⟨rfl, -⟩ | ⟨-, hacts, hnext⟩ | ⟨rfl, -⟩
    · exact ⟨by simp [hacts], by simp [hacts], .inl hnext⟩
    · exact absurd (by decide) hc
    · exact ⟨by simp [hacts], by simp [hacts], .inr hnext⟩
    · exact absurd (by decide) hc
  · rcases moves_inAuthority (not_mem_authorityEnds hc) hm with ⟨m₀, hm₀, hacts, hnext⟩
    rcases moves_hostPart hbracket hm₀ with ⟨-, hacts₀, x, hx, hnext₀⟩ | ⟨rfl, -⟩
    · refine ⟨by simp [hacts, hacts₀], by simp [hacts, hacts₀], .inr ⟨x, hx, ?_⟩⟩
      rw [hnext, hnext₀]
      rfl
    · exact absurd (by decide) hc

/-- Inside the first part, a plain byte has no action. -/
theorem moves_inFirst (ht : InFirst t) (hc : c ∉ 58 :: 64 :: authorityEnds) (hm : m ∈ t.moves c) :
    m.acts = [] ∧ InFirst m.next := by
  rcases ht with ⟨x, hx, rfl⟩ | ⟨x, hx, rfl⟩
  · rcases moves_inUser hx hm with ⟨-, hacts, hnext⟩ | ⟨rfl, -⟩
    · exact ⟨hacts, .inl hnext⟩
    · exact absurd (by decide) hc
  · rcases moves_inHost hx (not_mem_authorityEnds hc) hm with ⟨-, hacts, hnext⟩ | ⟨rfl, -⟩
    · exact ⟨hacts, .inr hnext⟩
    · exact absurd (by decide) hc

/-- One unranked thread. -/
theorem within_singleton {P : E → Prop} (hP : P t) (hrank : t.unranked = true) : Within P [t] := by
  intro t' ht'
  rw [List.mem_singleton.mp ht']
  exact ⟨hrank, hP⟩

theorem unranked_atHost (ht : AtHost t) : t.unranked = true := by
  rcases ht with rfl | rfl <;> decide

/-- A word that may be a user or a host. -/
theorem reads_first (ht : AtHost t) (hw : Plain (c :: w)) {m₀ : Move UriAction}
    (hm₀ : m₀ ∈ t.moves c)
    {t₁ : E} (hgoes : Goes m₀.next w t₁) :
    ∃ cs, (∀ s p mark u, Reads s p (c :: w) ⟨[t], mark, u⟩ ⟨cs, some p, u⟩) ∧ Within InFirst cs ∧
      ∀ m ∈ t.moves c, ∀ t', Goes m.next w t' → t' ∈ cs := by
  have hc := hw c List.mem_cons_self
  have hfirst : ∀ t, AtHost t →
      ∀ m ∈ t.moves c, (∀ k ∈ m.acts, k.2 = UriAction.markh) ∧ InFirst m.next := by
    intro t ht m hm
    have hmove := moves_atHost ht hc.1 hc.2 hm
    exact ⟨hmove.1, hmove.2.2⟩
  have hrest : ∀ d ∈ w, ∀ t, InFirst t → ∀ m ∈ t.moves d, m.acts = [] ∧ InFirst m.next :=
    fun d hd t ht m hm => moves_inFirst ht (hw d (List.mem_cons_of_mem _ hd)).1 hm
  rcases reads_word (within_singleton ht (unranked_atHost ht)) (.inr rfl) hfirst hrest
    (List.mem_singleton.mpr rfl) hm₀ (moves_atHost ht hc.1 hc.2 hm₀).2.1 hgoes with
    ⟨cs, hreads, hT, hin⟩
  exact ⟨cs, hreads, hT, hin t (List.mem_singleton.mpr rfl)⟩

/-! ## The user -/

/-- The authority moves as its user does. -/
theorem authority_user (hm : m ∈ user.moves c) :
    ∃ m' ∈ (inAuthority (authority 2)).moves c, m'.next = inUser m.next := by
  have hleaving : m.mapNext (leaving 3 .saveUser) ∈ (leaving 3 .saveUser user).moves c :=
    mem_moves_leaving.mpr ⟨m, hm, rfl⟩
  have hpart : _ ∈ userPart.moves c :=
    mem_moves_alt.mpr (.inl (mem_moves_cat.mpr (.inl ⟨_, hleaving, rfl⟩)))
  rcases inAuthority_moves
    (mem_moves_entering.mpr ⟨_, mem_moves_cat.mpr (.inl ⟨_, hpart, rfl⟩), rfl⟩) with
    ⟨m', hm', -, hnext⟩
  exact ⟨m', hm', hnext⟩

/-- The `@` behind a user saves it. -/
theorem inUser_at (hx : Calm (64 :: authorityEnds) x) (hnull : x.nullable = true) :
    ∃ m ∈ (inUser x).moves 64, m.acts = [(3, .saveUser)] := by
  have hat : (⟨[], [], eps⟩ : Move UriAction) ∈ (lit ['@'] : E).moves 64 :=
    (mem_moves_lit (by decide)).mpr ⟨rfl, rfl⟩
  have hend : (⟨[(3, .saveUser)], [], eps⟩ : Move UriAction) ∈
      (cat (leaving 3 .saveUser x) (lit ['@'])).moves 64 := by
    refine mem_moves_cat.mpr (.inr ⟨hnull, _, hat, ?_⟩)
    simp [Move.addActs, out, hx.out_eq_nil]
  rcases inAuthority_moves (mem_moves_cat.mpr (.inl ⟨_, hend, rfl⟩)) with ⟨m', hm', hacts, -⟩
  exact ⟨m', hm', hacts⟩

/-- The byte behind a user: the reading as a user is the only one that goes on. -/
theorem step_at {P : E → Prop} (hT : Within P cs)
    (hP : ∀ t, P t → ∀ m ∈ t.moves 64,
      m.acts = [(3, .saveUser)] ∧ m.next = inAuthority (cat hostPart portPart))
    (hx : Calm (64 :: authorityEnds) x) (hnull : x.nullable = true) (hmem : inUser x ∈ cs) :
    step cs 64 = some ([.saveUser], [inAuthority (cat hostPart portPart)]) := by
  rcases inUser_at hx hnull with ⟨m₀, hm₀, hacts₀⟩
  have hsingle : ∀ t, P t → ∀ m ∈ t.moves 64,
      (∀ k ∈ m.acts, k.2 = UriAction.saveUser) ∧ m.next = inAuthority (cat hostPart portPart) := by
    intro t ht m hm
    rw [(hP t ht m hm).1]
    exact ⟨by simp, (hP t ht m hm).2⟩
  rcases step_phase_single
    (Q := fun t => t = inAuthority (cat hostPart portPart)) hT hsingle hmem hm₀
    (by simp [hacts₀]) with ⟨cs', hstep, -, -⟩
  rw [hstep, step_single hstep fun t ht m hm => (hP t (hT t ht).2 m hm).2]

/-- Whatever reads the `@` in a user saves it. -/
theorem moves_inUser_at (ht : InUser t) (hm : m ∈ t.moves 64) :
    m.acts = [(3, .saveUser)] ∧ m.next = inAuthority (cat hostPart portPart) := by
  rcases ht with ⟨x, hx, rfl⟩
  rcases moves_inUser hx hm with ⟨hne, -⟩ | ⟨-, hmove⟩
  · exact absurd (by decide) hne
  · exact hmove

/-- Whatever reads the `@` in the first part saves it as the user. -/
theorem moves_inFirst_at (ht : InFirst t) (hm : m ∈ t.moves 64) :
    m.acts = [(3, .saveUser)] ∧ m.next = inAuthority (cat hostPart portPart) := by
  rcases ht with ht | ⟨x, hx, rfl⟩
  · exact moves_inUser_at ht hm
  · rcases moves_inHost hx (by decide) hm with ⟨hne, -⟩ | ⟨hcolon, -⟩
    · exact absurd (by decide) hne
    · exact absurd hcolon (by decide)

/-- An empty user. -/
theorem step_emptyUser : step [inAuthority (authority 2)] 64 =
    some ([.markh, .saveUser], [inAuthority (cat hostPart portPart)]) := by rfl

/-- A user without a colon is plain. -/
theorem plain_of_user (hw : w ∈ user.lang) (hcolon : 58 ∉ w) : Plain w := by
  intro c hc
  refine ⟨?_, ?_⟩
  · rw [List.mem_cons, not_or]
    exact ⟨by rintro rfl; exact hcolon hc, calm_user.not_mem hw hc⟩
  · rintro rfl
    exact not_mem_of_without (by decide) hw hc

/-- A user without a colon, and the `@` behind it. -/
theorem reads_user (hw : w ∈ user.lang) (hcolon : 58 ∉ w) (hs : s.drop p = w ++ rest) :
    Reads s p (w ++ [64]) ⟨[inAuthority (authority 2)], none, u⟩
      ⟨[inAuthority (cat hostPart portPart)], none, { u with user := w }⟩ := by
  have hsave : ∀ cs, Parser.actions s (p + w.length) [.saveUser] ⟨cs, some p, u⟩ =
      some ⟨cs, none, { u with user := w }⟩ :=
    fun cs => congrArg some (save_eq hs fun v u => { u with user := v })
  rcases w with _ | ⟨c, w⟩
  · exact reads_step step_emptyUser (hsave _)
  · rcases cons_mem_lang_iff.mp hw with ⟨m₀, hm₀, hmem⟩
    rcases authority_user hm₀ with ⟨m₁, hm₁, hnext₁⟩
    rcases exists_goes hmem with ⟨x, hgoes, hnull⟩
    have hgoes₁ : Goes m₁.next w (inUser x) := by
      rw [hnext₁]
      exact goes_of_moves inUser_moves hgoes
    rcases reads_first (.inl rfl) (plain_of_user hw hcolon) hm₁ hgoes₁ with ⟨cs, hreads, hT, hin⟩
    have hcalm : Calm (64 :: authorityEnds) x := (calm_user.move hm₀).2.2.goes hgoes
    have hstep := step_at hT (fun t ht m hm => moves_inFirst_at ht hm) hcalm hnull
      (hin m₁ hm₁ _ hgoes₁)
    exact (hreads s p none u).append (reads_step hstep (hsave cs))

/-! ## The host -/

/-- At the host, the authority moves as the host does. -/
theorem atHost_host (ht : AtHost t) (hm : m ∈ host.moves c) :
    ∃ m' ∈ t.moves c, m'.next = inHost m.next := by
  have hhost : (m.addActs [(4, .markh)]).mapNext (leaving 5 .saveHost) ∈ hostPart.moves c :=
    mem_moves_leaving.mpr ⟨_, mem_moves_entering.mpr ⟨m, hm, rfl⟩, rfl⟩
  have hpart : _ ∈ (cat hostPart portPart).moves c := mem_moves_cat.mpr (.inl ⟨_, hhost, rfl⟩)
  rcases ht with rfl | rfl
  · have huser : userPart.nullable = true := rfl
    rcases inAuthority_moves
        (mem_moves_entering.mpr ⟨_, mem_moves_cat.mpr (.inr ⟨huser, _, hpart, rfl⟩), rfl⟩) with
      ⟨m', hm', -, hnext⟩
    exact ⟨m', hm', hnext⟩
  · rcases inAuthority_moves hpart with ⟨m', hm', -, hnext⟩
    exact ⟨m', hm', hnext⟩

/-- A registered name is plain. -/
theorem plain_of_regName (hw : w ∈ regName.lang) : Plain w := by
  intro c hc
  refine ⟨calm_regName.not_mem hw hc, ?_⟩
  rintro rfl
  exact not_mem_of_without (by decide) hw hc

/-- Behind a host: the threads that read a user or a host, one of which may end the host. -/
structure BehindHost (cs : List E) : Prop where
  within : Within InFirst cs
  ends : ∃ x, Calm (58 :: 64 :: authorityEnds) x ∧ x.nullable = true ∧ inHost x ∈ cs

/-- A host is read from its mark. -/
theorem reads_host (ht : AtHost t) (hw : w ∈ regName.lang) (hne : w ≠ []) :
    ∃ cs, (∀ s p mark u, Reads s p w ⟨[t], mark, u⟩ ⟨cs, some p, u⟩) ∧ BehindHost cs ∧
      ∀ c w', w = c :: w' → ∀ m ∈ t.moves c, ∀ t', Goes m.next w' t' → t' ∈ cs := by
  rcases w with _ | ⟨c, w⟩
  · exact absurd rfl hne
  rcases cons_mem_lang_iff.mp hw with ⟨m₀, hm₀, hmem⟩
  have hhost : m₀ ∈ host.moves c := mem_moves_alt.mpr (.inr (mem_moves_alt.mpr (.inr hm₀)))
  rcases atHost_host ht hhost with ⟨m₁, hm₁, hnext₁⟩
  rcases exists_goes hmem with ⟨x, hgoes, hnull⟩
  have hgoes₁ : Goes m₁.next w (inHost x) := by
    rw [hnext₁]
    exact goes_of_moves inHost_moves hgoes
  rcases reads_first ht (plain_of_regName hw) hm₁ hgoes₁ with ⟨cs, hreads, hT, hin⟩
  have hcalm : Calm (58 :: 64 :: authorityEnds) x := (calm_regName.move hm₀).2.2.goes hgoes
  refine ⟨cs, hreads, ⟨hT, x, hcalm, hnull, hin m₁ hm₁ _ hgoes₁⟩, ?_⟩
  rintro c' w' ⟨⟩
  exact hin

/-! ## The port -/

/-- The threads behind a colon: of a user, or in front of a port. -/
def AtPort (t : E) : Prop := InUser t ∨ t = inAuthority beforePort

/-- The colon behind a host saves it. -/
theorem inHost_colon (hx : Calm (58 :: 64 :: authorityEnds) x) (hnull : x.nullable = true) :
    ∃ m ∈ (inHost x).moves 58, m.acts = [(5, .saveHost)] ∧ m.next = inAuthority beforePort := by
  have hport : (⟨[], [], beforePort⟩ : Move UriAction) ∈ portPart.moves 58 := by
    rw [show portPart.moves 58 = [⟨[], [], beforePort⟩] from rfl]
    exact List.mem_singleton.mpr rfl
  have hend : (⟨[(5, .saveHost)], [], beforePort⟩ : Move UriAction) ∈
      (cat (leaving 5 .saveHost x) portPart).moves 58 := by
    refine mem_moves_cat.mpr (.inr ⟨hnull, _, hport, ?_⟩)
    simp [Move.addActs, out, hx.out_eq_nil]
  rcases inAuthority_moves hend with ⟨m', hm', hacts, hnext⟩
  exact ⟨m', hm', hacts, hnext⟩

/-- The colon ends a host, and goes on in a user. -/
theorem step_colon (h : BehindHost cs) :
    ∃ cs', step cs 58 = some ([.saveHost], cs') ∧ Within AtPort cs' ∧ inAuthority beforePort ∈ cs' ∧
      ∀ t ∈ cs, ∀ m ∈ t.moves 58, m.next ∈ cs' := by
  rcases h.ends with ⟨x, hx, hnull, hmem⟩
  rcases inHost_colon hx hnull with ⟨m₀, hm₀, hacts₀, hnext₀⟩
  have hmoves : ∀ t, InFirst t →
      ∀ m ∈ t.moves 58, (∀ k ∈ m.acts, k.2 = UriAction.saveHost) ∧ AtPort m.next := by
    rintro t (⟨x, hx, rfl⟩ | ⟨x, hx, rfl⟩) m hm
    · rcases moves_inUser hx hm with ⟨-, hacts, hnext⟩ | ⟨hat, -⟩
      · exact ⟨by simp [hacts], .inl hnext⟩
      · exact absurd hat (by decide)
    · rcases moves_inHost hx (by decide) hm with ⟨hne, -⟩ | ⟨-, hacts, hnext⟩
      · exact absurd (by decide) hne
      · exact ⟨by simp [hacts], .inr hnext⟩
  rcases step_phase_single h.within hmoves hmem hm₀ (by simp [hacts₀]) with ⟨cs', hstep, hT, hin⟩
  exact ⟨cs', hstep, hT, hnext₀ ▸ hin _ hmem m₀ hm₀, hin⟩

/-- The first digit of a port sets the mark. -/
theorem beforePort_moves (hm : m ∈ port.moves c) :
    ∃ m' ∈ (inAuthority beforePort).moves c, m'.acts = (6, .markh) :: m.acts ∧
      m'.next = inPort m.next := by
  have hport : (m.addActs [(6, .markh)]).mapNext (leaving 7 .savePort) ∈ beforePort.moves c :=
    mem_moves_leaving.mpr ⟨_, mem_moves_entering.mpr ⟨m, hm, rfl⟩, rfl⟩
  rcases inAuthority_moves hport with ⟨m', hm', hacts, hnext⟩
  exact ⟨m', hm', hacts, hnext⟩

/-- The threads that read a user or a port. -/
def InSecond (t : E) : Prop := InUser t ∨ InPort t

/-- Behind a port: the threads that read a user or a port, one of which may end the port. -/
structure BehindPort (cs : List E) : Prop where
  within : Within InSecond cs
  ends : ∃ x, x.nullable = true ∧ inPort x ∈ cs

/-- A port is read from its mark. -/
theorem reads_port (hT : Within AtPort cs) (hmem : inAuthority beforePort ∈ cs) (hw : w ∈ port.lang)
    (hne : w ≠ []) :
    ∃ cs', (∀ s p mark u, Reads s p w ⟨cs, mark, u⟩ ⟨cs', some p, u⟩) ∧ BehindPort cs' := by
  have hbytes : ∀ d ∈ w, d ∉ 58 :: 64 :: authorityEnds := fun d hd => calm_port.not_mem hw hd
  rcases w with _ | ⟨c, w⟩
  · exact absurd rfl hne
  rcases cons_mem_lang_iff.mp hw with ⟨m₀, hm₀, hlang⟩
  rcases beforePort_moves hm₀ with ⟨m₁, hm₁, hacts₁, hnext₁⟩
  rcases exists_goes hlang with ⟨x, hgoes, hnull⟩
  have hgoes₁ : Goes m₁.next w (inPort x) := by
    rw [hnext₁]
    exact goes_of_moves inPort_moves hgoes
  have hfirst : ∀ t, AtPort t →
      ∀ m ∈ t.moves c, (∀ k ∈ m.acts, k.2 = UriAction.markh) ∧ InSecond m.next := by
    have hc := hbytes c List.mem_cons_self
    rintro t (⟨x, hx, rfl⟩ | rfl) m hm
    · rcases moves_inUser hx hm with ⟨-, hacts, hnext⟩ | ⟨rfl, -⟩
      · exact ⟨by simp [hacts], .inl hnext⟩
      · exact absurd (by decide) hc
    · have hmove := moves_beforePort (not_mem_authorityEnds hc) hm
      exact ⟨by simp [hmove.2.1], .inr hmove.2.2⟩
  have hrest : ∀ d ∈ w, ∀ t, InSecond t → ∀ m ∈ t.moves d, m.acts = [] ∧ InSecond m.next := by
    rintro d hd t (⟨x, hx, rfl⟩ | ⟨x, hx, rfl⟩) m hm
    · rcases moves_inUser hx hm with ⟨-, hacts, hnext⟩ | ⟨rfl, -⟩
      · exact ⟨hacts, .inl hnext⟩
      · exact absurd (by decide) (hbytes 64 (List.mem_cons_of_mem _ hd))
    · have hd' := not_mem_authorityEnds (hbytes d (List.mem_cons_of_mem _ hd))
      have hmove := moves_inPort hx hd' hm
      exact ⟨hmove.2.1, .inr hmove.2.2⟩
  rcases reads_word hT (.inr rfl) hfirst hrest hmem hm₁ (by simp [hacts₁]) hgoes₁ with
    ⟨cs', hreads, hT', hin⟩
  exact ⟨cs', hreads, hT', x, hnull, hin _ hmem m₁ hm₁ _ hgoes₁⟩

end Uri
end Tiger
