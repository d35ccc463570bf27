import Mathlib.Computability.Language
import Tiger.Lib.Trace

/-!
# The words of expressions with embedded actions

The actions of an expression of `Lib.Ragel` do not change which words it matches.  Its moves on
a byte are the partial derivatives of its language: a word with that first byte is matched
exactly if what is behind the byte is matched behind one of the moves.

Main results:

- Theorem `cons_mem_lang_iff`: the moves on the first byte of a word.
- Theorem `mem_lang_iff_accepts`: membership is decided by making moves.
- Theorem `exists_goes`: a machine that is fed a word of the expression has a thread that may
  end behind it.
-/

namespace Tiger
namespace Lib
namespace Ragel

open Computability

variable {Act : Type}

namespace Expr

/-- The words that an expression matches. -/
def lang : Expr Act → Language UInt8
  | eps => 1
  | chars k => {w | ∃ c, k.mem c = true ∧ w = [c]}
  | cat a b => a.lang * b.lang
  | alt a b => a.lang + b.lang
  | star a => a.lang∗
  | entering _ _ e => e.lang
  | leaving _ _ e => e.lang
  | finishing _ _ e => e.lang
  | prioAll _ _ e => e.lang
  | prioStart _ _ e => e.lang
  | prioFinish _ _ e => e.lang

theorem mem_lang_chars {k : ByteClass} {w : List UInt8} :
    w ∈ (chars k : Expr Act).lang ↔ ∃ c, k.mem c = true ∧ w = [c] := Iff.rfl

theorem lang_andThen (a b : Expr Act) : (andThen a b).lang = a.lang * b.lang := by
  cases a <;> first | rfl | simp [andThen, lang]

theorem lang_wrap {f : Expr Act → Expr Act} (hf : ∀ e, (f e).lang = e.lang) (e : Expr Act) :
    (wrap f e).lang = e.lang := by
  cases e <;> first | rfl | exact hf _

/-- An expression is nullable exactly if the empty word is one of its words. -/
theorem nullable_iff_nil_mem_lang (e : Expr Act) : e.nullable = true ↔ [] ∈ e.lang := by
  induction e with
  | eps => exact iff_of_true rfl rfl
  | chars k => simp [nullable, mem_lang_chars]
  | cat a b iha ihb => simp [nullable, lang, Language.mem_mul, iha, ihb]
  | alt a b iha ihb =>
      rw [nullable, Bool.or_eq_true, iha, ihb]
      exact (Language.mem_add _ _ _).symm
  | star a ih => exact iff_of_true rfl (Language.nil_mem_kstar _)
  | entering ord act e ih => exact ih
  | leaving ord act e ih => exact ih
  | finishing ord act e ih => exact ih
  | prioAll name value e ih => exact ih
  | prioStart name value e ih => exact ih
  | prioFinish name value e ih => exact ih

/-! ## Moves -/

/-- The class of a character has its byte only. -/
theorem mem_char {c : UInt8} {ch : Char} (hch : ch.toNat < 256) :
    (ByteClass.char ch).mem c = true ↔ c = byte ch := by
  rw [ByteClass.char, ByteClass.mem, Bool.and_eq_true, decide_eq_true_eq, decide_eq_true_eq,
    ← UInt8.toNat_inj, byte, UInt8.toNat_ofNat_of_lt' hch]
  omega

/-- An expression whose words all begin with one of the characters. -/
theorem moves_eq_nil_of_chars {c : UInt8} {e : Expr Act} (chs : List Char)
    (hheads :
      e.heads.all (fun k => chs.any fun ch => decide (ch.toNat < 256 ∧ k = .char ch)) = true)
    (hc : ∀ ch ∈ chs, c ≠ byte ch) : e.moves c = [] := by
  apply moves_eq_nil_of_heads
  intro k hk
  rcases List.any_eq_true.mp (List.all_eq_true.mp hheads k hk) with ⟨ch, hch, hkch⟩
  rcases of_decide_eq_true hkch with ⟨hlt, rfl⟩
  rw [← Bool.not_eq_true, mem_char hlt]
  exact hc ch hch

/-- The only move of a class is over one of its bytes to the end. -/
theorem mem_moves_chars {c : UInt8} {k : ByteClass} {m : Move Act} :
    m ∈ (chars k : Expr Act).moves c ↔ k.mem c = true ∧ m = ⟨[], [], eps⟩ := by
  rw [moves]
  split
  next hk => rw [List.mem_singleton, and_iff_right hk]
  next hk => exact iff_of_false List.not_mem_nil fun h => hk h.1

/-- A move of a concatenation is one of the first part, or one of the second behind a first part
that can be empty. -/
theorem mem_moves_cat {c : UInt8} {a b : Expr Act} {m : Move Act} :
    m ∈ (cat a b).moves c ↔ (∃ m₀ ∈ a.moves c, m = m₀.mapNext (andThen · b)) ∨
      (a.nullable = true ∧ ∃ m₀ ∈ b.moves c, m = m₀.addActs a.out) := by
  rw [moves, List.mem_append, List.mem_map]
  apply or_congr
  · exact exists_congr fun m₀ => and_congr_right fun _ => eq_comm
  · split
    next hnull =>
        rw [List.mem_map, and_iff_right hnull]
        exact exists_congr fun m₀ => and_congr_right fun _ => eq_comm
    next hnull => exact iff_of_false (by simp) fun h => hnull h.1

/-- One character of a literal. -/
theorem mem_moves_lit {c : UInt8} {ch : Char} (hch : ch.toNat < 256) {m : Move Act} :
    m ∈ (lit [ch] : Expr Act).moves c ↔ c = byte ch ∧ m = ⟨[], [], eps⟩ := by
  rw [lit, lit, mem_moves_cat]
  simp only [mem_moves_chars, mem_char hch, nullable, Bool.false_eq_true, false_and, or_false]
  constructor
  · rintro ⟨m₀, ⟨hc, rfl⟩, rfl⟩
    exact ⟨hc, rfl⟩
  · rintro ⟨hc, rfl⟩
    exact ⟨_, ⟨hc, rfl⟩, rfl⟩

theorem mem_moves_alt {c : UInt8} {a b : Expr Act} {m : Move Act} :
    m ∈ (alt a b).moves c ↔ m ∈ a.moves c ∨ m ∈ b.moves c :=
  List.mem_append

/-- Entering an expression puts an action in front of its moves. -/
theorem mem_moves_entering {c : UInt8} {ord : Nat} {act : Act} {e : Expr Act} {m : Move Act} :
    m ∈ (entering ord act e).moves c ↔ ∃ m₀ ∈ e.moves c, m = m₀.addActs [(ord, act)] := by
  rw [moves, List.mem_map]
  exact exists_congr fun m₀ => and_congr_right fun _ => eq_comm

/-- An action for leaving an expression stays with what is left of it. -/
theorem mem_moves_leaving {c : UInt8} {ord : Nat} {act : Act} {e : Expr Act} {m : Move Act} :
    m ∈ (leaving ord act e).moves c ↔ ∃ m₀ ∈ e.moves c, m = m₀.mapNext (leaving ord act) := by
  rw [moves, List.mem_map]
  exact exists_congr fun m₀ => and_congr_right fun _ => eq_comm

/-- Where a repetition goes on to. -/
theorem exists_mem_moves_star {c : UInt8} {a : Expr Act} {x : Expr Act} :
    (∃ m ∈ (star a).moves c, m.next = x) ↔ ∃ m ∈ a.moves c, andThen m.next (star a) = x := by
  simp only [moves, List.mem_append, List.mem_map]
  constructor
  · rintro ⟨m, ⟨m₀, hm₀, rfl⟩ | hm, rfl⟩
    · exact ⟨m₀, hm₀, rfl⟩
    · split at hm
      · rcases List.mem_map.mp hm with ⟨m₁, hm₁, rfl⟩
        rcases List.mem_map.mp hm₁ with ⟨m₀, hm₀, rfl⟩
        exact ⟨m₀, hm₀, rfl⟩
      · simp at hm
  · rintro ⟨m₀, hm₀, rfl⟩
    exact ⟨_, .inl ⟨m₀, hm₀, rfl⟩, rfl⟩

/-- A word of a repetition begins with one of its turns. -/
theorem cons_mem_kstar_iff {l : Language UInt8} {c : UInt8} {w : List UInt8} :
    c :: w ∈ l∗ ↔ ∃ u v, c :: u ∈ l ∧ v ∈ l∗ ∧ u ++ v = w := by
  constructor
  · intro h
    rw [Language.kstar_def_nonempty] at h
    rcases h with ⟨S, hS, hmem⟩
    cases S with
    | nil => cases hS
    | cons s S =>
        rcases hmem s List.mem_cons_self with ⟨hs, hne⟩
        cases s with
        | nil => exact absurd rfl hne
        | cons d u =>
            rw [List.flatten_cons, List.cons_append, List.cons.injEq] at hS
            rcases hS with ⟨rfl, rfl⟩
            refine ⟨u, S.flatten, hs, Language.join_mem_kstar ?_, rfl⟩
            intro y hy
            exact (hmem y (List.mem_cons_of_mem _ hy)).1
  · rintro ⟨u, v, hu, hv, rfl⟩
    rcases Language.mem_kstar.mp hv with ⟨L, rfl, hL⟩
    refine Language.mem_kstar.mpr ⟨(c :: u) :: L, rfl, ?_⟩
    intro y hy
    rcases List.mem_cons.mp hy with rfl | hy
    · exact hu
    · exact hL y hy

/-- The moves on a byte are the partial derivatives by it. -/
theorem cons_mem_lang_iff {e : Expr Act} {c : UInt8} {w : List UInt8} :
    c :: w ∈ e.lang ↔ ∃ m ∈ e.moves c, w ∈ m.next.lang := by
  induction e generalizing w with
  | eps => simp [lang, moves, Language.mem_one]
  | chars k =>
      rw [mem_lang_chars, moves]
      split
      next hk => simp [hk, lang, Language.mem_one]
      next hk => simp [hk]
  | cat a b iha ihb =>
      simp only [mem_moves_cat, lang, Language.mem_mul]
      constructor
      · rintro ⟨u, hu, v, hv, huv⟩
        cases u with
        | nil =>
            rw [List.nil_append] at huv
            subst huv
            rcases ihb.mp hv with ⟨m, hm, hw⟩
            exact ⟨_, .inr ⟨(nullable_iff_nil_mem_lang a).mpr hu, m, hm, rfl⟩, hw⟩
        | cons d u =>
            rw [List.cons_append, List.cons.injEq] at huv
            rcases huv with ⟨rfl, rfl⟩
            rcases iha.mp hu with ⟨m, hm, hw⟩
            refine ⟨_, .inl ⟨m, hm, rfl⟩, ?_⟩
            simp only [Move.mapNext, lang_andThen]
            exact Language.append_mem_mul hw hv
      · rintro ⟨m, ⟨m₀, hm₀, rfl⟩ | ⟨hnull, m₀, hm₀, rfl⟩, hw⟩
        · simp only [Move.mapNext, lang_andThen, Language.mem_mul] at hw
          rcases hw with ⟨u, hu, v, hv, rfl⟩
          exact ⟨c :: u, iha.mpr ⟨m₀, hm₀, hu⟩, v, hv, rfl⟩
        · exact ⟨[], (nullable_iff_nil_mem_lang a).mp hnull, c :: w, ihb.mpr ⟨m₀, hm₀, hw⟩, rfl⟩
  | alt a b iha ihb =>
      simp only [mem_moves_alt, or_and_right, exists_or, ← iha, ← ihb]
      exact Language.mem_add _ _ _
  | star a ih =>
      have hmoves : (∃ m ∈ (star a).moves c, w ∈ m.next.lang) ↔
          ∃ m ∈ a.moves c, w ∈ (andThen m.next (star a)).lang := by
        constructor
        · rintro ⟨m, hm, hw⟩
          rcases exists_mem_moves_star.mp ⟨m, hm, rfl⟩ with ⟨m₀, hm₀, hnext⟩
          exact ⟨m₀, hm₀, by rwa [hnext]⟩
        · rintro ⟨m₀, hm₀, hw⟩
          rcases exists_mem_moves_star.mpr ⟨m₀, hm₀, rfl⟩ with ⟨m, hm, hnext⟩
          exact ⟨m, hm, by rwa [hnext]⟩
      rw [hmoves, lang, cons_mem_kstar_iff]
      simp only [lang_andThen, Language.mem_mul]
      constructor
      · rintro ⟨u, v, hu, hv, rfl⟩
        rcases ih.mp hu with ⟨m, hm, hmem⟩
        exact ⟨m, hm, u, hmem, v, hv, rfl⟩
      · rintro ⟨m, hm, u, hmem, v, hv, rfl⟩
        exact ⟨u, v, ih.mpr ⟨m, hm, hmem⟩, hv, rfl⟩
  | entering ord act e ih => simpa [moves, Move.addActs, lang] using ih
  | leaving ord act e ih => simpa [moves, Move.mapNext, lang] using ih
  | finishing ord act e ih =>
      simpa [moves, Move.mapNext, lang, lang_wrap (f := finishing ord act) fun _ => rfl] using ih
  | prioAll name value e ih =>
      simpa [moves, Move.mapNext, Move.addPrio, lang,
        lang_wrap (f := prioAll name value) fun _ => rfl] using ih
  | prioStart name value e ih => simpa [moves, Move.addPrio, lang] using ih
  | prioFinish name value e ih =>
      simpa [moves, Move.mapNext, lang, lang_wrap (f := prioFinish name value) fun _ => rfl]
        using ih

/-- Membership by making moves. -/
def accepts : List UInt8 → Expr Act → Bool
  | [], e => e.nullable
  | c :: w, e => (e.moves c).any fun m => accepts w m.next

/-- The words of an expression are those that the machine accepts. -/
theorem mem_lang_iff_accepts {e : Expr Act} {w : List UInt8} : w ∈ e.lang ↔ accepts w e = true := by
  induction w generalizing e with
  | nil => exact (nullable_iff_nil_mem_lang e).symm
  | cons c w ih => simp only [cons_mem_lang_iff, accepts, List.any_eq_true, ih]

instance (e : Expr Act) (w : List UInt8) : Decidable (w ∈ e.lang) :=
  decidable_of_iff _ mem_lang_iff_accepts.symm

/-- A byte that no word holds. -/
theorem not_mem_of_without {e : Expr Act} {k : UInt8} (h : e.without k = true) {w : List UInt8}
    (hw : w ∈ e.lang) : k ∉ w := by
  induction w generalizing e with
  | nil => exact List.not_mem_nil
  | cons c w ih =>
      rcases cons_mem_lang_iff.mp hw with ⟨m, hm, hrest⟩
      rcases (moveOf_of_mem hm).without h with ⟨hne, hnext⟩
      rw [List.mem_cons, not_or]
      exact ⟨Ne.symm hne, ih hnext hrest⟩

end Expr

/-! ## Threads behind a word -/

/-- Moves on the bytes of a word, one after the other. -/
inductive Goes : Expr Act → List UInt8 → Expr Act → Prop
  | nil (e : Expr Act) : Goes e [] e
  | cons {e e' : Expr Act} {c : UInt8} {w : List UInt8} {m : Move Act} :
      m ∈ e.moves c → Goes m.next w e' → Goes e (c :: w) e'

/-- Behind a word of the expression there is a thread that may end. -/
theorem exists_goes {e : Expr Act} {w : List UInt8} (h : w ∈ e.lang) :
    ∃ e', Goes e w e' ∧ e'.nullable = true := by
  induction w generalizing e with
  | nil => exact ⟨e, .nil e, (Expr.nullable_iff_nil_mem_lang e).mpr h⟩
  | cons c w ih =>
      rcases Expr.cons_mem_lang_iff.mp h with ⟨m, hm, hrest⟩
      rcases ih hrest with ⟨e', hgoes, hnull⟩
      exact ⟨e', .cons hm hgoes, hnull⟩

end Ragel
end Lib
end Tiger
