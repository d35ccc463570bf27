import Tiger.Uri.Threads

/-!
# URIs - reading the components

What `URI::Create` has saved behind each component of a URI with a scheme and an authority.  The
threads of the machine are only known by their families; `Reads` says what the parser does with
a part of the text.
-/

namespace Tiger
namespace Uri

open Lib.Ragel Lib.Ragel.Expr Grammar
open Http (Text text strtol strtolDigits digitsValue digitValue)

/-! ## Parts of the text -/

/-- The parser takes the bytes of a part, which stands at position `p`. -/
def Reads (s : Text) (p : Nat) (xs : Text) (ps ps' : Parser) : Prop :=
  ∀ rest, Parser.exec s p (xs ++ rest) ps = Parser.exec s (p + xs.length) rest ps'

variable {s xs ys rest : Text} {p : Nat} {ps ps₁ ps₂ : Parser} {c : UInt8} {cs cs' : List E}
  {mark mark' : Option Nat} {u v : URI}

theorem Reads.refl : Reads s p [] ps ps := fun _ => rfl

/-- Texts are read one behind the other. -/
theorem Reads.append (hxs : Reads s p xs ps ps₁) (hys : Reads s (p + xs.length) ys ps₁ ps₂) :
    Reads s p (xs ++ ys) ps ps₂ := by
  intro rest
  rw [List.append_assoc, hxs, hys, List.length_append, Nat.add_assoc]

theorem Reads.cons (hc : Reads s p [c] ps ps₁) (hxs : Reads s (p + 1) xs ps₁ ps₂) :
    Reads s p (c :: xs) ps ps₂ :=
  hc.append hxs

/-- One byte with its actions. -/
theorem reads_step {as : List UriAction} (hstep : step cs c = some (as, cs'))
    (hacts : Parser.actions s p as ⟨cs, mark, u⟩ = some ⟨cs, mark', v⟩) :
    Reads s p [c] ⟨cs, mark, u⟩ ⟨cs', mark', v⟩ := by
  intro rest
  rw [List.singleton_append, Parser.exec]
  simp only [hstep, hacts, Option.bind_some, List.length_singleton]

/-- Bytes without actions. -/
theorem reads_quiet (h : quiet cs xs = some cs') : Reads s p xs ⟨cs, mark, u⟩ ⟨cs', mark, u⟩ := by
  induction xs generalizing p cs with
  | nil =>
      cases h
      exact Reads.refl
  | cons c xs ih =>
      rcases quiet_cons_inv h with ⟨cs₁, hstep, hrest⟩
      exact (reads_step hstep rfl).append (ih hrest)

/-- Actions are done one by one. -/
theorem actions_cons {a : UriAction} {as : List UriAction} (h : Parser.action s p ps a = some ps₁) :
    Parser.actions s p (a :: as) ps = Parser.actions s p as ps₁ := by
  rw [Parser.actions, List.foldlM_cons, h]
  rfl

/-- The actions that set the mark. -/
def Marks (a : UriAction) : Prop := a = .marku ∨ a = .markh

theorem Marks.actions {a : UriAction} (h : Marks a) (ps : Parser) :
    Parser.actions s p [a] ps = some { ps with mark := some p } := by
  rcases h with rfl | rfl <;> rfl

/-- A word whose first byte sets the mark and whose other bytes have no actions. -/
theorem reads_word {P Q : E → Prop} {a : UriAction} {w : Text} {t₀ t₁ : E} {m₀ : Move UriAction}
    (hT : Within P cs) (ha : Marks a)
    (hfirst : ∀ t, P t → ∀ m ∈ t.moves c, (∀ k ∈ m.acts, k.2 = a) ∧ Q m.next)
    (hrest : ∀ d ∈ w, ∀ t, Q t → ∀ m ∈ t.moves d, m.acts = [] ∧ Q m.next)
    (ht₀ : t₀ ∈ cs) (hm₀ : m₀ ∈ t₀.moves c) (hne : m₀.acts ≠ []) (hgoes : Goes m₀.next w t₁) :
    ∃ cs', (∀ s p mark u, Reads s p (c :: w) ⟨cs, mark, u⟩ ⟨cs', some p, u⟩) ∧ Within Q cs' ∧
      ∀ t ∈ cs, ∀ m ∈ t.moves c, ∀ t', Goes m.next w t' → t' ∈ cs' := by
  rcases step_phase_single hT hfirst ht₀ hm₀ hne with ⟨cs₁, hstep, hT₁, hin₁⟩
  rcases quiet_phase hrest hT₁ (hin₁ t₀ ht₀ m₀ hm₀) hgoes with ⟨cs₂, hquiet, hT₂, hin₂⟩
  refine ⟨cs₂, ?_, hT₂, ?_⟩
  · intro s p mark u
    exact (reads_step hstep (ha.actions _)).append (reads_quiet hquiet)
  · intro t ht m hm t' ht'
    exact hin₂ _ (hin₁ t ht m hm) t' ht'

theorem string_eq (h : s.drop p = xs ++ rest) : Parser.string s p (p + xs.length) = xs := by
  rw [Parser.string, h, Nat.add_sub_cancel_left, List.take_left]

/-- Saving a part that begins at the mark. -/
theorem save_eq (h : s.drop p = xs ++ rest) (set : Text → URI → URI) :
    Parser.save s (p + xs.length) set ⟨cs, some p, u⟩ = ⟨cs, none, set xs u⟩ := by
  simp only [Parser.save, string_eq h]

theorem drop_add (h : s.drop p = xs ++ rest) : s.drop (p + xs.length) = rest := by
  rw [← List.drop_drop, h, List.drop_left]

theorem drop_succ (h : s.drop p = c :: rest) : s.drop (p + 1) = rest := by
  rw [← List.drop_drop, h, List.drop_one, List.tail_cons]

/-! ## The scheme -/

/-- The rest of a scheme and what is behind it. -/
def inScheme (x : E) : E := cat (leaving 1 .saveScheme x) (cat (lit [':']) (cat hierPart tail))

/-- The bytes that a scheme does not have. -/
def schemeEnds : List UInt8 := [58, 47, 63, 35]

/-- The threads that read a scheme. -/
def InScheme (t : E) : Prop := ∃ x, Calm schemeEnds x ∧ t = inScheme x

/-- What may stand behind the path of a relative reference. -/
def relativeTail : E := cat (opt (seq [lit ['?'], query 20])) (opt (seq [lit ['#'], fragment 22]))

/-- Further segments. -/
def segments : E := star (seq [lit ['/'], segment])

/-- The threads that read the first segment of a relative reference. -/
def InRelative (t : E) : Prop :=
  (∃ x, Calm [58] x ∧ t = cat (cat x segments) relativeTail) ∨ t = cat segments relativeTail

theorem segments_moves (hc : c ≠ 47) : segments.moves c = [] :=
  moves_eq_nil_of_chars ['/'] (by decide) (List.forall_mem_singleton.mpr hc)

theorem relativeTail_moves (hc : c ≠ 63) (hc' : c ≠ 35) : relativeTail.moves c = [] :=
  moves_eq_nil_of_chars ['?', '#'] (by decide)
    (List.forall_mem_cons.mpr ⟨hc, List.forall_mem_singleton.mpr hc'⟩)

variable {m : Move UriAction} {t x : E}

/-- A first segment is read without an action. -/
theorem moves_segments (hx : Calm [58] x) (hc : c ∉ [47, 63, 35])
    (hm : m ∈ (cat (cat x segments) relativeTail).moves c) :
    c ≠ 58 ∧ m.acts = [] ∧ InRelative m.next := by
  simp only [List.mem_cons, List.not_mem_nil, or_false, not_or] at hc
  rcases mem_moves_cat.mp hm with ⟨m₁, hm₁, rfl⟩ | ⟨-, m₁, hm₁, -⟩
  · rcases mem_moves_cat.mp hm₁ with ⟨m₂, hm₂, rfl⟩ | ⟨-, m₂, hm₂, -⟩
    · have hmove := hx.move hm₂
      refine ⟨by simpa using hmove.2.1, hmove.1, ?_⟩
      rcases hnext : m₂.next with _ | _ | _ | _ | _ | _ | _ | _ | _ | _ | _
      case eps => exact .inr (by simp only [Move.mapNext, hnext, andThen]; rfl)
      all_goals exact .inl ⟨_, hmove.2.2, by simp only [Move.mapNext, hnext, andThen]⟩
    · rw [segments_moves hc.1] at hm₂
      cases hm₂
  · rw [relativeTail_moves hc.2.1 hc.2.2] at hm₁
    cases hm₁

/-- A relative reference has no colon in its first segment. -/
theorem moves_inRelative (h : InRelative t) (hc : c ∉ [47, 63, 35]) (hm : m ∈ t.moves c) :
    c ≠ 58 ∧ m.acts = [] ∧ InRelative m.next := by
  rcases h with ⟨x, hx, rfl⟩ | rfl
  · exact moves_segments hx hc hm
  · simp only [List.mem_cons, List.not_mem_nil, or_false, not_or] at hc
    rcases mem_moves_cat.mp hm with ⟨m₁, hm₁, -⟩ | ⟨-, m₁, hm₁, -⟩
    · rw [segments_moves hc.1] at hm₁
      cases hm₁
    · rw [relativeTail_moves hc.2.1 hc.2.2] at hm₁
      cases hm₁

/-- A scheme goes on, or ends with its colon. -/
theorem moves_inScheme (h : InScheme t) (hm : m ∈ t.moves c) :
    (c ∉ schemeEnds ∧ m.acts = [] ∧ InScheme m.next) ∨
      (c = 58 ∧ m.acts = [(1, .saveScheme)] ∧ m.next = cat hierPart tail) := by
  rcases h with ⟨x, hx, rfl⟩
  rcases mem_moves_cat.mp hm with ⟨m₁, hm₁, rfl⟩ | ⟨-, m₁, hm₁, rfl⟩
  · rcases mem_moves_leaving.mp hm₁ with ⟨m₂, hm₂, rfl⟩
    have hmove := hx.move hm₂
    exact .inl ⟨hmove.2.1, hmove.1, m₂.next, hmove.2.2, rfl⟩
  · rcases mem_moves_cat.mp hm₁ with ⟨m₂, hm₂, rfl⟩ | ⟨hnull, -⟩
    · rcases (mem_moves_lit (by decide)).mp hm₂ with ⟨hcolon, rfl⟩
      refine .inr ⟨hcolon, ?_, rfl⟩
      simp [Move.mapNext, Move.addActs, out, hx.out_eq_nil]
    · simp [nullable, lit] at hnull

theorem calm_schemeText : Calm schemeEnds schemeText := .of_all rfl rfl

theorem calm_segmentNzNc : Calm [58] segmentNzNc := .of_all rfl rfl

/-- A relative part without a slash moves as its path does. -/
theorem relativePart_moves (hc : c ≠ 47) (hm : m ∈ relativePart.moves c) :
    m ∈ pathNoscheme.moves c := by
  have hpart : relativePart = alt (seq [lit ['/', '/'], authority 14, pathAbempty])
      (alt pathAbsolute (alt pathNoscheme pathEmpty)) := rfl
  have habsolute : pathAbsolute.moves c = [] :=
    moves_eq_nil_of_chars ['/'] (by decide) (List.forall_mem_singleton.mpr hc)
  have hauthority : (seq [lit ['/', '/'], authority 14, pathAbempty]).moves c = [] :=
    moves_eq_nil_of_chars ['/'] (by decide) (List.forall_mem_singleton.mpr hc)
  rw [hpart, mem_moves_alt, mem_moves_alt, mem_moves_alt, habsolute, hauthority] at hm
  rcases hm with hm | hm | hm | hm
  · cases hm
  · cases hm
  · exact hm
  · cases hm

/-- The first byte of a reference, if it does not end a scheme. -/
theorem moves_main (hc : c ∉ [47, 63, 35]) (hm : m ∈ main.moves c) :
    (m.acts = [(0, .marku)] ∧ InScheme m.next) ∨ (m.acts = [] ∧ InRelative m.next) := by
  have hmain : main = alt uri relativeRef := rfl
  rw [hmain, mem_moves_alt] at hm
  rcases hm with hm | hm
  · rcases mem_moves_cat.mp hm with ⟨m₁, hm₁, rfl⟩ | ⟨hnull, -⟩
    · rcases mem_moves_leaving.mp hm₁ with ⟨m₂, hm₂, rfl⟩
      rcases mem_moves_entering.mp hm₂ with ⟨m₃, hm₃, rfl⟩
      have hmove := calm_schemeText.move hm₃
      refine .inl ⟨?_, m₃.next, hmove.2.2, rfl⟩
      simp [Move.mapNext, Move.addActs, hmove.1]
    · exact absurd hnull (by decide)
  · -- of the relative references only those without a leading slash are left
    have hnoscheme : m ∈ (cat pathNoscheme relativeTail).moves c := by
      simp only [List.mem_cons, List.not_mem_nil, or_false, not_or] at hc
      rcases mem_moves_cat.mp hm with ⟨m₁, hm₁, rfl⟩ | ⟨-, m₁, hm₁, -⟩
      · exact mem_moves_cat.mpr (.inl ⟨m₁, relativePart_moves hc.1 hm₁, rfl⟩)
      · rw [show seq [opt (seq [lit ['?'], query 20]), opt (seq [lit ['#'], fragment 22])] =
          relativeTail
          from rfl, relativeTail_moves hc.2.1 hc.2.2] at hm₁
        cases hm₁
    exact .inr (moves_segments calm_segmentNzNc hc hnoscheme).2

theorem inScheme_moves (hm : m ∈ x.moves c) :
    ∃ m' ∈ (inScheme x).moves c, m'.next = inScheme m.next :=
  ⟨_, mem_moves_cat.mpr (.inl ⟨_, mem_moves_leaving.mpr ⟨m, hm, rfl⟩, rfl⟩), rfl⟩

/-- The first byte of a scheme sets the mark. -/
theorem main_moves (hm : m ∈ schemeText.moves c) :
    ∃ m' ∈ main.moves c, m'.acts = (0, .marku) :: m.acts ∧ m'.next = inScheme m.next := by
  have hscheme : (m.addActs [(0, .marku)]).mapNext (leaving 1 .saveScheme) ∈ scheme.moves c :=
    mem_moves_leaving.mpr ⟨_, mem_moves_entering.mpr ⟨m, hm, rfl⟩, rfl⟩
  exact ⟨_, mem_moves_alt.mpr (.inl (mem_moves_cat.mpr (.inl ⟨_, hscheme, rfl⟩))), rfl, rfl⟩

/-- The colon behind a scheme saves it. -/
theorem inScheme_colon (hx : x.nullable = true) (hcalm : Calm schemeEnds x) :
    ∃ m ∈ (inScheme x).moves 58, m.acts = [(1, .saveScheme)] := by
  have hcolon : (⟨[], [], eps⟩ : Move UriAction) ∈ (lit [':'] : E).moves 58 :=
    (mem_moves_lit (by decide)).mpr ⟨rfl, rfl⟩
  refine ⟨_, mem_moves_cat.mpr (.inr ⟨hx, _, mem_moves_cat.mpr (.inl ⟨_, hcolon, rfl⟩), rfl⟩), ?_⟩
  simp [Move.mapNext, Move.addActs, out, hcalm.out_eq_nil]

theorem quiet_slashes :
    quiet [cat hierPart tail] (text ['/', '/']) = some [inAuthority (authority 2)] := by rfl

/-- The reading of a scheme with its colon and the two slashes. -/
theorem reads_scheme {w : Text} (hw : w ∈ schemeText.lang) (hs : s.drop 0 = w ++ rest) :
    Reads s 0 (w ++ text [':', '/', '/']) Parser.init
      ⟨[inAuthority (authority 2)], none, { URI.fresh with scheme := w }⟩ := by
  have hends : ∀ d ∈ w, d ∉ schemeEnds := fun d hd => calm_schemeText.not_mem hw hd
  have hbytes : ∀ d ∈ w, d ∉ [47, 63, 35] :=
    fun d hd hmem => hends d hd (List.mem_cons_of_mem _ hmem)
  rcases w with _ | ⟨c, w⟩
  · exact absurd hw (by decide)
  rcases cons_mem_lang_iff.mp hw with ⟨m₀, hm₀, hmem⟩
  rcases main_moves hm₀ with ⟨m₁, hm₁, hacts₁, hnext₁⟩
  rcases exists_goes hmem with ⟨x, hgoes, hnull⟩
  have hgoes₁ : Goes m₁.next w (inScheme x) := by
    rw [hnext₁]
    exact goes_of_moves inScheme_moves hgoes
  have hmain : main ∈ start main := List.mem_singleton.mpr rfl
  have hstart : Within (fun t => t = main) (start main) := by
    intro t ht
    rw [List.mem_singleton.mp ht]
    exact ⟨by decide, rfl⟩
  have hfirst : ∀ t, t = main → ∀ m ∈ t.moves c, (∀ k ∈ m.acts, k.2 = UriAction.marku) ∧
      (InScheme m.next ∨ InRelative m.next) := by
    rintro t rfl m hm
    rcases moves_main (hbytes c List.mem_cons_self) hm with ⟨hacts, hnext⟩ | ⟨hacts, hnext⟩
    · exact ⟨by simp [hacts], .inl hnext⟩
    · exact ⟨by simp [hacts], .inr hnext⟩
  have hrest : ∀ d ∈ w, ∀ t, InScheme t ∨ InRelative t → ∀ m ∈ t.moves d, m.acts = [] ∧
      (InScheme m.next ∨ InRelative m.next) := by
    rintro d hd t (ht | ht) m hm
    · rcases moves_inScheme ht hm with ⟨-, hacts, hnext⟩ | ⟨rfl, -⟩
      · exact ⟨hacts, .inl hnext⟩
      · exact absurd (by decide) (hends 58 (List.mem_cons_of_mem _ hd))
    · have hmove := moves_inRelative ht (hbytes d (List.mem_cons_of_mem _ hd)) hm
      exact ⟨hmove.2.1, .inr hmove.2.2⟩
  rcases reads_word hstart (.inl rfl) hfirst hrest hmain hm₁ (by simp [hacts₁]) hgoes₁ with
    ⟨cs, hword, hT, hin⟩
  -- the colon
  have hx : inScheme x ∈ cs := hin main hmain m₁ hm₁ _ hgoes₁
  have hcalm : Calm schemeEnds x := (calm_schemeText.move hm₀).2.2.goes hgoes
  rcases inScheme_colon hnull hcalm with ⟨m₂, hm₂, hacts₂⟩
  have hcolon : ∀ t, InScheme t ∨ InRelative t → ∀ m ∈ t.moves 58,
      (∀ k ∈ m.acts, k.2 = UriAction.saveScheme) ∧ m.next = cat hierPart tail := by
    rintro t (ht | ht) m hm
    · rcases moves_inScheme ht hm with ⟨hne, -⟩ | ⟨-, hacts, hnext⟩
      · exact absurd (by decide) hne
      · exact ⟨by simp [hacts], hnext⟩
    · exact absurd rfl (moves_inRelative ht (by decide) hm).1
  rcases step_phase_single (Q := fun t => t = cat hierPart tail) hT hcolon hx hm₂
    (by simp [hacts₂]) with
    ⟨cs', hstep, -, -⟩
  rw [step_single hstep fun t ht m hm => (hcolon t (hT t ht).2 m hm).2] at hstep
  have hsave : Parser.actions s (0 + (c :: w).length) [.saveScheme] ⟨cs, some 0, URI.fresh⟩ =
      some ⟨cs, none, { URI.fresh with scheme := c :: w }⟩ := by
    simp only [Parser.actions, List.foldlM_cons, List.foldlM_nil, Parser.action, string_eq hs]
    rfl
  exact (hword s 0 none URI.fresh).append
    ((reads_step hstep hsave).append (reads_quiet quiet_slashes))

end Uri
end Tiger
