import Tiger.Uri.Authority

/-!
# URIs - reading what is behind the authority

The path begins with the slash that ends the authority, and what is behind the path with a mark
of its own.  The end of the text runs the actions of the last part.
-/

namespace Tiger
namespace Uri

open Lib.Ragel Lib.Ragel.Expr Grammar
open Http (Text text strtol digitsValue)

variable {s w rest : Text} {p e : Nat} {c : UInt8} {cs : List E} {mark : Option Nat} {ps : Parser}
    {u v : URI}
  {t x after : E} {m : Move UriAction} {bytes : List UInt8}

/-! ## Ends of parts -/

/-- A part may end at position `e` in front of the expression `after`, and `v` is the URI then. -/
def Ended (s : Text) (e : Nat) (bytes : List UInt8) (after : E) (ps : Parser) (v : URI) : Prop :=
  ∃ acts : List (Nat × UriAction), (acts.Pairwise fun k l => k.1 < l.1) ∧
    Within (Ending bytes acts after) ps.cs ∧ (∃ z, z.nullable = true ∧ .cat z after ∈ ps.cs) ∧
    Parser.actions s e (acts.map Prod.snd).eraseDups ps = some { ps with mark := none, uri := v }

/-- The byte behind a part. -/
theorem Ended.reads (h : Ended s e bytes after ps v) (hc : c ∈ bytes)
    (hmoves : after.moves c = [⟨[], [], x⟩]) :
    Reads s e [c] ps ⟨[x], none, v⟩ := by
  rcases h with ⟨acts, hsorted, hT, ⟨z, hnull, hz⟩, hacts⟩
  have hrest : ∀ m ∈ after.moves c, m.acts = [] ∧ m.next = x := by
    intro m hm
    rw [hmoves, List.mem_singleton] at hm
    rw [hm]
    exact ⟨rfl, rfl⟩
  have hstep := step_closing hT hc hz hnull hrest (hmoves ▸ List.mem_singleton.mpr rfl)
    (by rwa [List.append_nil])
  rw [List.append_nil] at hstep
  exact reads_step hstep hacts

/-- The end of the text behind a part. -/
theorem Ended.atEof (h : Ended s s.length bytes after ps v) (hnull : after.nullable = true)
    (hout : after.out = []) : ps.atEof s = some (some v) := by
  rcases h with ⟨acts, hsorted, hT, ⟨z, hz, hmem⟩, hacts⟩
  rcases final_closing hT hmem hz hnull hout hsorted with ⟨hfinal, hactions⟩
  rw [Parser.atEof, if_pos hfinal, hactions, hacts]
  rfl

/-- An authority may end at position `e`, and `v` is the URI then. -/
def AuthorityEnded (s : Text) (e : Nat) (ps : Parser) (v : URI) : Prop :=
  ∃ k a, k < 8 ∧ (a = .saveHost ∨ a = .savePort) ∧ Within (Closing k a) ps.cs ∧
    (∃ x, x.nullable = true ∧ inAuthority x ∈ ps.cs) ∧
    Parser.action s e ps a = some { ps with mark := none, uri := v }

/-- A host may end the authority. -/
theorem authorityEnded_host (h : BehindHost cs) (hs : s.drop p = w ++ rest) :
    AuthorityEnded s (p + w.length) ⟨cs, some p, u⟩ { u with host := w } := by
  rcases h.ends with ⟨x, -, hnull, hmem⟩
  refine ⟨5, .saveHost, by decide, .inl rfl, ?_, ⟨_, ?_, hmem⟩, ?_⟩
  · intro t ht
    refine ⟨(h.within t ht).1, ?_⟩
    rcases (h.within t ht).2 with huser | hhost
    · exact huser.closing 5 .saveHost
    · exact hhost.closing
  · rw [nullable, nullable, hnull]
    rfl
  · exact congrArg some (save_eq hs fun v u => { u with host := v })

/-- A port may end the authority. -/
theorem authorityEnded_port (h : BehindPort cs) (hs : s.drop p = w ++ rest) (hne : w ≠ [])
    (hdigits : ∀ c ∈ w, 48 ≤ c.toNat ∧ c.toNat ≤ 57) (hvalue : digitsValue 10 w ≤ 65535)
    (hrest : ∀ c ∈ rest.head?, c ∈ authorityEnds) :
    AuthorityEnded s (p + w.length) ⟨cs, some p, u⟩ { u with port := digitsValue 10 w } := by
  rcases h.ends with ⟨x, hnull, hmem⟩
  refine ⟨7, .savePort, by decide, .inr rfl, ?_, ⟨leaving 7 .savePort x, hnull, hmem⟩, ?_⟩
  · intro t ht
    refine ⟨(h.within t ht).1, ?_⟩
    rcases (h.within t ht).2 with huser | hport
    · exact huser.closing 7 .savePort
    · exact hport.closing
  · have hlength : p + w.length ≠ p := by
      have hpos := List.length_pos_iff.mpr hne
      omega
    have hstops : ∀ c ∈ rest.head?, 10 ≤ Http.digitValue c := by
      intro c hc
      have hall : authorityEnds.all (fun c => decide (10 ≤ Http.digitValue c)) = true := by decide
      simpa using List.all_eq_true.mp hall c (hrest c hc)
    have hport : Parser.atoi (s.drop p) = digitsValue 10 w := by
      rw [Parser.atoi, hs, Http.strtol_ten hne hdigits (by omega) hstops, toInt32, Int.bmod_def]
      omega
    simp only [Parser.action, if_pos hlength, hport]

/-! ## The path -/

/-- Inside the path, no byte has an action. -/
theorem moves_inPath (ht : InPath t) (hc : c ∉ [63, 35]) (hm : m ∈ t.moves c) :
    m.acts = [] ∧ InPath m.next := by
  rcases ht with ⟨x, hx, rfl⟩
  rcases mem_moves_cat.mp hm with ⟨m₁, hm₁, rfl⟩ | ⟨-, m₁, hm₁, -⟩
  · rcases mem_moves_leaving.mp hm₁ with ⟨m₂, hm₂, rfl⟩
    have hmove := hx.move hm₂
    exact ⟨hmove.1, m₂.next, hmove.2.2, rfl⟩
  · simp only [List.mem_cons, List.not_mem_nil, or_false, not_or] at hc
    rw [tail_moves hc.1 hc.2] at hm₁
    cases hm₁

/-- The slash that ends the authority, and the rest of the path. -/
theorem AuthorityEnded.reads_slash (h : AuthorityEnded s p ps v) (hw : 47 :: w ∈ pathAbempty.lang)
    (hs : s.drop p = (47 :: w) ++ rest) :
    ∃ ps', Reads s p (47 :: w) ps ps' ∧
      Ended s (p + (47 :: w).length) [63, 35] tail ps' { v with path := 47 :: w } := by
  rcases h with ⟨k, a, hk, ha, hT, ⟨z, hz, hmem⟩, hact⟩
  rcases cons_mem_lang_iff.mp hw with ⟨m₀, hm₀, hlang⟩
  rcases exists_goes hlang with ⟨x, hgoes, hnull⟩
  rcases slash_moves hz hm₀ with ⟨m₁, hm₁, hnext₁⟩
  have hgoes₁ : Goes m₁.next w (inPath x) := by
    rw [hnext₁]
    exact goes_of_moves inPath_moves hgoes
  have hsorted : [(k, a), (8, .markh)].Pairwise fun k l => k.1 < l.1 := by simpa using hk
  have hclosing : ∀ t, Closing k a t → ∀ m ∈ t.moves 47,
      (∀ i ∈ m.acts, i ∈ [(k, a), (8, .markh)]) ∧ InPath m.next := by
    intro t ht m hm
    rw [(moves_slash ht hm).1]
    exact ⟨fun _ => id, (moves_slash ht hm).2⟩
  rcases step_phase hT hsorted hclosing hmem hm₁ (by
    rw [(moves_slash (hT _ hmem).2 hm₁).1]
    exact fun _ => id) with ⟨cs₁, hstep, hT₁, hin₁⟩
  have hquiet : ∀ d ∈ w, ∀ t, InPath t → ∀ m ∈ t.moves d, m.acts = [] ∧ InPath m.next :=
    fun d hd t ht m hm =>
      moves_inPath ht (calm_pathAbempty.not_mem hw (List.mem_cons_of_mem _ hd)) hm
  rcases quiet_phase hquiet hT₁ (hin₁ _ hmem m₁ hm₁) hgoes₁ with ⟨cs₂, hrun, hT₂, hin₂⟩
  have hactions : Parser.actions s p ([(k, a), (8, .markh)].map Prod.snd).eraseDups ps =
      some ⟨ps.cs, some p, v⟩ := by
    have hlist : ([(k, a), (8, .markh)].map Prod.snd).eraseDups = [a, .markh] := by
      rcases ha with rfl | rfl <;> rfl
    rw [hlist, actions_cons hact]
    rfl
  refine ⟨⟨cs₂, some p, v⟩, (reads_step hstep hactions).append (reads_quiet hrun),
    [(9, .savePath)], by simp,
    fun t ht => ⟨(hT₂ t ht).1, (hT₂ t ht).2.ending⟩,
      ⟨leaving 9 .savePath x, hnull, hin₂ _ (hin₁ _ hmem m₁ hm₁) _ hgoes₁⟩, ?_⟩
  exact congrArg some (save_eq hs fun v u => { u with path := v })

/-- An empty path. -/
theorem AuthorityEnded.ended (h : AuthorityEnded s p ps v) :
    Ended s p [63, 35] tail ps { v with path := [] } := by
  rcases h with ⟨k, a, hk, ha, hT, ⟨z, hz, hmem⟩, hact⟩
  refine ⟨[(k, a), (8, .markh), (9, .savePath)], ?_, fun t ht => ⟨(hT t ht).1, (hT t ht).2.ending⟩,
    ⟨cat z pathPart, ?_, hmem⟩, ?_⟩
  · simp only [List.pairwise_cons, List.mem_cons, List.not_mem_nil, or_false, forall_eq_or_imp,
      forall_eq]
    simp [hk, hk.trans]
  · rw [nullable, hz]
    rfl
  · have hempty : Parser.string s p p = [] := by simp [Parser.string]
    have hlist : ([(k, a), (8, .markh), (9, .savePath)].map Prod.snd).eraseDups =
        [a, .markh, .savePath] := by
      rcases ha with rfl | rfl <;> rfl
    rw [hlist, actions_cons hact, ← hempty]
    rfl

/-- A path starts with a slash. -/
theorem head_of_path (hw : c :: w ∈ pathAbempty.lang) : c = 47 := by
  by_contra hc
  have hnone : pathAbempty.moves c = [] :=
    moves_eq_nil_of_chars ['/'] (by decide) (List.forall_mem_singleton.mpr hc)
  rcases cons_mem_lang_iff.mp hw with ⟨m, hm, -⟩
  rw [hnone] at hm
  cases hm

/-- A path is read behind the authority. -/
theorem AuthorityEnded.reads_path (h : AuthorityEnded s p ps v) (hw : w ∈ pathAbempty.lang)
    (hs : s.drop p = w ++ rest) :
    ∃ ps', Reads s p w ps ps' ∧ Ended s (p + w.length) [63, 35] tail ps' { v with path := w } := by
  rcases w with _ | ⟨c, w⟩
  · exact ⟨ps, Reads.refl, h.ended⟩
  · have hc := head_of_path hw
    subst hc
    exact h.reads_slash hw hs

/-! ## The query and the fragment -/

section Marked

variable {k : Nat} {a : UriAction} {f : E → E}

/-- A place at which a part with a mark of its own is read: up to `#` only the part moves. -/
structure Place (k : Nat) (a : UriAction) (f : E → E) : Prop where
  moves : ∀ {c x m}, c ≠ 35 → m ∈ (f (leaving k a x)).moves c →
    ∃ m₀ ∈ x.moves c, m.acts = m₀.acts ∧ m.next = f (leaving k a m₀.next)
  moves_of : ∀ {c x m₀}, m₀ ∈ x.moves c →
    ∃ m ∈ (f (leaving k a x)).moves c, m.acts = m₀.acts ∧ m.next = f (leaving k a m₀.next)

/-- The threads that read the part. -/
def InText (k : Nat) (a : UriAction) (f : E → E) (t : E) : Prop :=
  ∃ x, Calm [35] x ∧ t = f (leaving k a x)

/-- A query or a fragment that is not empty. -/
theorem Place.reads (h : Place k a f) {n : Nat}
    (hrank : (f (leaving k a (entering n .marku queryText))).unranked = true)
    (hw : w ∈ queryText.lang)
    (hne : w ≠ []) :
    ∃ cs, (∀ s p mark u,
      Reads s p w ⟨[f (leaving k a (entering n .marku queryText))], mark, u⟩ ⟨cs, some p, u⟩) ∧
      Within (InText k a f) cs ∧ ∃ x, x.nullable = true ∧ f (leaving k a x) ∈ cs := by
  have hbytes : ∀ d ∈ w, d ≠ 35 := fun d hd => by simpa using calm_queryText.not_mem hw hd
  rcases w with _ | ⟨c, w⟩
  · exact absurd rfl hne
  rcases cons_mem_lang_iff.mp hw with ⟨m₀, hm₀, hlang⟩
  rcases exists_goes hlang with ⟨x, hgoes, hnull⟩
  rcases h.moves_of (mem_moves_entering.mpr ⟨m₀, hm₀, rfl⟩) with ⟨m₁, hm₁, hacts₁, hnext₁⟩
  have hgoes₁ : Goes m₁.next w (f (leaving k a x)) := by
    rw [hnext₁]
    refine goes_of_moves (f := fun x => f (leaving k a x)) ?_ hgoes
    intro c m x hm
    rcases h.moves_of hm with ⟨m', hm', -, hnext⟩
    exact ⟨m', hm', hnext⟩
  have hfirst : ∀ t, t = f (leaving k a (entering n .marku queryText)) → ∀ m ∈ t.moves c,
      (∀ i ∈ m.acts, i.2 = UriAction.marku) ∧ InText k a f m.next := by
    rintro t rfl m hm
    rcases h.moves (hbytes c List.mem_cons_self) hm with ⟨m₂, hm₂, hacts, hnext⟩
    rcases mem_moves_entering.mp hm₂ with ⟨m₃, hm₃, rfl⟩
    have hmove := calm_queryText.move hm₃
    exact ⟨by simp [hacts, Move.addActs, hmove.1], m₃.next, hmove.2.2, hnext⟩
  have hrest : ∀ d ∈ w, ∀ t, InText k a f t →
      ∀ m ∈ t.moves d, m.acts = [] ∧ InText k a f m.next := by
    rintro d hd t ⟨x, hx, rfl⟩ m hm
    rcases h.moves (hbytes d (List.mem_cons_of_mem _ hd)) hm with ⟨m₂, hm₂, hacts, hnext⟩
    have hmove := hx.move hm₂
    exact ⟨hacts.trans hmove.1, m₂.next, hmove.2.2, hnext⟩
  have hmem := List.mem_singleton.mpr (Eq.refl (f (leaving k a (entering n .marku queryText))))
  have hT₀ := within_singleton
    (P := fun t => t = f (leaving k a (entering n .marku queryText))) rfl hrank
  rcases reads_word hT₀ (.inl rfl) hfirst hrest hmem hm₁
    (by simp [hacts₁, Move.addActs]) hgoes₁ with ⟨cs, hreads, hT, hin⟩
  exact ⟨cs, hreads, hT, x, hnull, hin _ hmem m₁ hm₁ _ hgoes₁⟩

end Marked

theorem fragmentPart_moves (hc : c ≠ 35) : fragmentPart.moves c = [] :=
  moves_eq_nil_of_chars ['#'] (by decide) (List.forall_mem_singleton.mpr hc)

/-- A query stands in front of a fragment. -/
theorem queryPlace : Place 11 .saveQuery (cat · fragmentPart) where
  moves := by
    intro c x m hc hm
    rcases mem_moves_cat.mp hm with ⟨m₁, hm₁, rfl⟩ | ⟨-, m₁, hm₁, -⟩
    · rcases mem_moves_leaving.mp hm₁ with ⟨m₂, hm₂, rfl⟩
      exact ⟨m₂, hm₂, rfl, rfl⟩
    · rw [fragmentPart_moves hc] at hm₁
      cases hm₁
  moves_of := by
    intro c x m₀ hm₀
    exact ⟨_, mem_moves_cat.mpr (.inl ⟨_, mem_moves_leaving.mpr ⟨m₀, hm₀, rfl⟩, rfl⟩), rfl, rfl⟩

/-- Nothing stands behind a fragment. -/
theorem fragmentPlace : Place 13 .saveFragment id where
  moves := by
    intro c x m _ hm
    rcases mem_moves_leaving.mp hm with ⟨m₀, hm₀, rfl⟩
    exact ⟨m₀, hm₀, rfl, rfl⟩
  moves_of := by
    intro c x m₀ hm₀
    exact ⟨_, mem_moves_leaving.mpr ⟨m₀, hm₀, rfl⟩, rfl, rfl⟩

/-- The query is saved at the hash. -/
theorem ends_query {acts : List (Nat × UriAction)} (hx : ∀ c ∈ [35], x.moves c = [])
    (hout : x.out ++ [(11, .saveQuery)] = acts) : Ends [35] acts (leaving 11 .saveQuery x) := by
  refine ⟨?_, fun _ => hout⟩
  intro c hc
  rw [Expr.moves, hx c hc]
  rfl

/-- A query is read behind its mark. -/
theorem reads_query (hw : w ∈ queryText.lang) (hs : s.drop p = w ++ rest) :
    ∃ ps', Reads s p w ⟨[cat (query 10) fragmentPart], none, v⟩ ps' ∧
      Ended s (p + w.length) [35] fragmentPart ps' { v with query := w } := by
  have hsave : ∀ cs, Parser.actions s (p + w.length) [.saveQuery] ⟨cs, some p, v⟩ =
      some ⟨cs, none, { v with query := w }⟩ :=
    fun cs => congrArg some (save_eq hs fun q u => { u with query := q })
  by_cases hne : w = []
  · subst hne
    refine ⟨_, Reads.refl, [(10, .marku), (11, .saveQuery)], by simp,
      within_singleton ⟨_, rfl, ?_⟩ (by decide),
      ⟨query 10, rfl, List.mem_singleton.mpr rfl⟩, hsave _⟩
    refine ends_query (x := entering 10 .marku queryText) ?_ rfl
    intro c hc
    rw [Expr.moves, calm_queryText.moves_eq_nil hc]
    rfl
  · rcases queryPlace.reads (n := 10) (by decide) hw hne with ⟨cs, hreads, hT, x, hnull, hmem⟩
    refine ⟨_, hreads s p none v, [(11, .saveQuery)], by simp, ?_,
      ⟨leaving 11 .saveQuery x, hnull, hmem⟩, hsave cs⟩
    intro t ht
    rcases (hT t ht).2 with ⟨y, hy, rfl⟩
    refine ⟨(hT _ ht).1, _, rfl, ends_query (fun c hc => hy.moves_eq_nil hc) ?_⟩
    rw [hy.out_eq_nil]
    rfl

/-- A fragment is read to the end. -/
theorem reads_fragment (hw : w ∈ queryText.lang) (hs : s.drop p = w)
    (hp : s.length = p + w.length) :
    ∃ ps', Reads s p w ⟨[fragment 12], none, v⟩ ps' ∧
      ps'.atEof s = some (some { v with fragment := w }) := by
  have hsave : ∀ cs, Parser.actions s s.length [.saveFragment] ⟨cs, some p, v⟩ =
      some ⟨cs, none, { v with fragment := w }⟩ := by
    intro cs
    rw [hp]
    rw [← List.append_nil w] at hs
    exact congrArg some (save_eq hs fun q u => { u with fragment := q })
  by_cases hne : w = []
  · subst hne
    refine ⟨_, Reads.refl, ?_⟩
    have hlength : p = s.length := hp.symm
    subst hlength
    exact congrArg (Option.map fun ps => some ps.uri) (hsave [fragment 12])
  · rcases fragmentPlace.reads (n := 12) (by decide) hw hne with ⟨cs, hreads, hT, x, hnull, hmem⟩
    refine ⟨_, hreads s p none v, ?_⟩
    have hout : ∀ t ∈ cs, t.nullable = true → t.out = [(13, .saveFragment)] := by
      intro t ht _
      rcases (hT t ht).2 with ⟨y, hy, rfl⟩
      rw [id, Expr.out, hy.out_eq_nil]
      rfl
    rcases final_phase hout hmem hnull (by simp) with ⟨hfinal, hactions⟩
    rw [Parser.atEof, if_pos hfinal, hactions]
    exact congrArg (Option.map fun ps => some ps.uri) (hsave cs)

end Uri
end Tiger
