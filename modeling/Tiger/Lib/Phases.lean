import Tiger.Lib.Language

/-!
# Families of threads

In an ambiguous grammar the machine of `Lib.Ragel` has many threads, most of which the rest of
the input refutes.  Which ones there are need not be known: a family that all threads belong to
and one thread of it that carries the actions determine what a step does.

Main results:

- Theorem `inOrder_eq`: the order of actions depends on the set of them only.
- Theorem `step_phase`: a step from a family of threads to another one.
- Theorem `quiet_phase`: a word that no thread of a family acts on.
- Theorem `step_closing`: the byte behind a part, for threads that all end the part.
-/

namespace Tiger
namespace Lib
namespace Ragel

variable {Act : Type}

/-! ## Expressions without priorities -/

namespace Expr

/-- There are no priorities in the expression. -/
def unranked : Expr Act → Bool
  | eps => true
  | chars _ => true
  | cat a b => a.unranked && b.unranked
  | alt a b => a.unranked && b.unranked
  | star a => a.unranked
  | entering _ _ e => e.unranked
  | leaving _ _ e => e.unranked
  | finishing _ _ e => e.unranked
  | prioAll _ _ _ => false
  | prioStart _ _ _ => false
  | prioFinish _ _ _ => false

theorem unranked_andThen {a b : Expr Act} (ha : a.unranked = true) (hb : b.unranked = true) :
    (andThen a b).unranked = true := by
  cases a <;> simp_all [andThen, unranked]

theorem unranked_wrap {f : Expr Act → Expr Act} {e : Expr Act} (h : (f e).unranked = true) :
    (wrap f e).unranked = true := by
  cases e <;> first | rfl | exact h

end Expr

/-- A move of an expression without priorities has none, and leads to one without. -/
theorem MoveOf.unranked {c : UInt8} {e : Expr Act} {m : Move Act} (hm : MoveOf c e m)
    (h : e.unranked = true) : m.prios = [] ∧ m.next.unranked = true := by
  induction hm with
  | chars hk => exact ⟨rfl, rfl⟩
  | catLeft hm ih =>
      simp only [Expr.unranked, Bool.and_eq_true] at h
      exact ⟨(ih h.1).1, Expr.unranked_andThen (ih h.1).2 h.2⟩
  | catRight hnull hm ih =>
      simp only [Expr.unranked, Bool.and_eq_true] at h
      exact ih h.2
  | altLeft hm ih =>
      simp only [Expr.unranked, Bool.and_eq_true] at h
      exact ih h.1
  | altRight hm ih =>
      simp only [Expr.unranked, Bool.and_eq_true] at h
      exact ih h.2
  | star hm ih => exact ⟨(ih h).1, Expr.unranked_andThen (ih h).2 h⟩
  | starAgain hnull hm ih => exact ⟨(ih h).1, Expr.unranked_andThen (ih h).2 h⟩
  | entering hm ih => exact ih h
  | leaving hm ih => exact ih h
  | @finishing ord act e m hm ih =>
      have hprios : (m.addFinish ord act).prios = m.prios := by
        unfold Move.addFinish
        split <;> rfl
      refine ⟨hprios.trans (ih h).1, Expr.unranked_wrap ?_⟩
      rw [Move.next_addFinish]
      exact (ih h).2
  | prioAll hm ih => simp [Expr.unranked] at h
  | prioStart hm ih => simp [Expr.unranked] at h
  | prioFinish hm ih => simp [Expr.unranked] at h

/-- Moves without priorities all survive. -/
theorem survivors_of_prios_nil {ms : List (Move Act)} (h : ∀ m ∈ ms, m.prios = []) :
    survivors ms = ms := by
  apply List.filter_eq_self.mpr
  intro m hm
  have hnone : ms.any (fun m' => m.outrankedBy m') = false :=
    List.any_eq_false.mpr fun m' _ => by simp [Move.outrankedBy, h m hm]
  rw [hnone]
  rfl

/-! ## Parts without actions -/

/-- The expression has no actions, and no word of it holds one of the bytes. -/
structure Calm (bytes : List UInt8) (e : Expr Act) : Prop where
  silent : e.avoids (fun _ => true) = true
  without : ∀ k ∈ bytes, e.without k = true

namespace Calm

variable {bytes : List UInt8} {e : Expr Act}

theorem of_all (silent : e.avoids (fun _ => true) = true)
    (without : (bytes.all fun k => e.without k) = true) :
    Calm bytes e :=
  ⟨silent, List.all_eq_true.mp without⟩

/-- A calm expression has no action to leave with. -/
theorem out_eq_nil (h : Calm bytes e) : e.out = [] := by
  apply List.eq_nil_iff_forall_not_mem.mpr
  intro x hx
  exact Bool.noConfusion (Expr.avoids_out h.silent x hx)

/-- A calm expression moves over other bytes, without an action, and stays calm. -/
theorem move (h : Calm bytes e) {c : UInt8} {m : Move Act} (hm : m ∈ e.moves c) :
    m.acts = [] ∧ c ∉ bytes ∧ Calm bytes m.next := by
  have hmove := moveOf_of_mem hm
  have havoids := hmove.avoids h.silent
  refine ⟨?_, ?_, havoids.2, fun k hk => (hmove.without (h.without k hk)).2⟩
  · apply List.eq_nil_iff_forall_not_mem.mpr
    intro x hx
    exact Bool.noConfusion (havoids.1 x hx)
  · intro hc
    exact (hmove.without (h.without c hc)).1 rfl

theorem moves_eq_nil (h : Calm bytes e) {c : UInt8} (hc : c ∈ bytes) : e.moves c = [] :=
  List.eq_nil_iff_forall_not_mem.mpr fun _ hm => (h.move hm).2.1 hc

theorem not_mem (h : Calm bytes e) {c : UInt8} {w : List UInt8} (hw : w ∈ e.lang) (hc : c ∈ w) :
    c ∉ bytes :=
  fun hbytes => Expr.not_mem_of_without (h.without c hbytes) hw hc

/-- An expression stays calm over a word. -/
theorem goes (h : Calm bytes e) {w : List UInt8} {e' : Expr Act} (hgoes : Goes e w e') :
    Calm bytes e' := by
  induction hgoes with
  | nil e => exact h
  | cons hm _ ih => exact ih (h.move hm).2.2

end Calm

/-! ## The order of actions -/

variable [DecidableEq Act]

/-- Actions in the order of their numbers, the first appearance of each. -/
def inOrder (l : List (Nat × Act)) : List Act := ((l.foldr insertAct []).map Prod.snd).eraseDups

theorem actions_eq_inOrder (ms : List (Move Act)) : actions ms = inOrder (ms.flatMap Move.acts) :=
  rfl

omit [DecidableEq Act] in
/-- Inserting an action by its number keeps the list sorted. -/
theorem insertAct_sorted (a : Nat × Act) {l : List (Nat × Act)}
    (h : l.Pairwise fun p q => p.1 ≤ q.1) :
    (insertAct a l).Pairwise fun p q => p.1 ≤ q.1 := by
  induction l with
  | nil => exact List.pairwise_singleton _ _
  | cons b l ih =>
      rw [List.pairwise_cons] at h
      rw [insertAct]
      split
      next hlt =>
          refine List.pairwise_cons.mpr ⟨?_, List.pairwise_cons.mpr h⟩
          intro p hp
          rcases List.mem_cons.mp hp with rfl | hp
          · exact hlt.le
          · exact hlt.le.trans (h.1 p hp)
      next hlt =>
          refine List.pairwise_cons.mpr ⟨?_, ih h.2⟩
          intro p hp
          rcases (mem_insertAct a p l).mp hp with rfl | hp
          · exact Nat.le_of_not_lt hlt
          · exact h.1 p hp

omit [DecidableEq Act] in
/-- Sorting actions by insertion sorts them. -/
theorem foldr_insertAct_sorted (l : List (Nat × Act)) :
    (l.foldr insertAct []).Pairwise fun p q => p.1 ≤ q.1 := by
  induction l with
  | nil => exact List.Pairwise.nil
  | cons a l ih => exact insertAct_sorted a ih

/-- Lists in order with the same members have the same actions in the same order. -/
theorem eraseDups_map_snd_eq {s L : List (Nat × Act)} (hs : s.Pairwise fun p q => p.1 ≤ q.1)
    (hL : L.Pairwise fun p q => p.1 < q.1) (hmem : ∀ p, p ∈ s ↔ p ∈ L) :
    (s.map Prod.snd).eraseDups = (L.map Prod.snd).eraseDups := by
  -- induction on the length of `L`: behind the first action, all that have the same one are dropped
  induction hn : L.length using Nat.strong_induction_on generalizing s L with
  | _ n ih =>
    cases L with
    | nil =>
        have hnil : s = [] :=
          List.eq_nil_iff_forall_not_mem.mpr fun p hp => by simpa using (hmem p).mp hp
        rw [hnil]
    | cons a L =>
        cases s with
        | nil => exact absurd ((hmem a).mpr List.mem_cons_self) List.not_mem_nil
        | cons b s =>
            rw [List.pairwise_cons] at hs hL
            have hba : b = a := by
              rcases List.mem_cons.mp ((hmem b).mp List.mem_cons_self) with heq | hb
              · exact heq
              · have hlt := hL.1 b hb
                rcases List.mem_cons.mp ((hmem a).mpr List.mem_cons_self) with heq | ha
                · exact heq.symm
                · exact absurd (hs.1 a ha) (Nat.not_le.mpr hlt)
            subst hba
            rw [List.map_cons, List.map_cons, List.eraseDups_cons, List.eraseDups_cons,
              List.filter_map, List.filter_map]
            congr 1
            apply ih (L.filter ((fun x => !x == b.2) ∘ Prod.snd)).length _ (hs.2.filter _)
              (hL.2.filter _) _ rfl
            · have hle := List.length_filter_le ((fun x => !x == b.2) ∘ Prod.snd) L
              rw [← hn, List.length_cons]
              omega
            · intro p
              rw [List.mem_filter, List.mem_filter]
              constructor
              · rintro ⟨hp, hne⟩
                rcases List.mem_cons.mp ((hmem p).mp (List.mem_cons_of_mem b hp)) with rfl | hp
                · simp at hne
                · exact ⟨hp, hne⟩
              · rintro ⟨hp, hne⟩
                rcases List.mem_cons.mp ((hmem p).mpr (List.mem_cons_of_mem b hp)) with rfl | hp
                · simp at hne
                · exact ⟨hp, hne⟩

/-- The order of actions depends on the set of them only. -/
theorem inOrder_eq {l L : List (Nat × Act)} (hL : L.Pairwise fun p q => p.1 < q.1)
    (hmem : ∀ p, p ∈ l ↔ p ∈ L) : inOrder l = (L.map Prod.snd).eraseDups :=
  eraseDups_map_snd_eq (foldr_insertAct_sorted l) hL fun p =>
    (mem_foldr_insertAct p l).trans (hmem p)

/-- Copies of one action are executed once. -/
theorem inOrder_single {l : List (Nat × Act)} {a : Act} (hne : l ≠ []) (hall : ∀ p ∈ l, p.2 = a) :
    inOrder l = [a] := by
  obtain ⟨p, hp⟩ := List.exists_mem_of_ne_nil l hne
  apply eraseDups_eq_singleton
  · have hmem := List.mem_map_of_mem (f := Prod.snd) ((mem_foldr_insertAct p l).mpr hp)
    exact List.ne_nil_of_mem hmem
  · intro b hb
    rcases List.mem_map.mp hb with ⟨q, hq, rfl⟩
    exact hall q ((mem_foldr_insertAct q l).mp hq)

theorem mem_inOrder {a : Act} {l : List (Nat × Act)} (h : a ∈ inOrder l) : ∃ n, (n, a) ∈ l := by
  rcases List.mem_map.mp (List.mem_eraseDups.mp h) with ⟨p, hp, rfl⟩
  exact ⟨p.1, (mem_foldr_insertAct p l).mp hp⟩

theorem mem_inOrder_of_mem {p : Nat × Act} {l : List (Nat × Act)} (h : p ∈ l) : p.2 ∈ inOrder l :=
  List.mem_eraseDups.mpr (List.mem_map_of_mem ((mem_foldr_insertAct p l).mpr h))

/-- Of two actions in order, the first one has the smaller number somewhere. -/
def Precedes (l : List (Nat × Act)) (x y : Act) : Prop :=
  x ≠ y ∧ ∃ j, (j, x) ∈ l ∧ ∀ k, (k, y) ∈ l → j ≤ k

/-- The actions are executed in the order of their first numbers. -/
theorem eraseDups_map_snd_pairwise {s : List (Nat × Act)} (hs : s.Pairwise fun p q => p.1 ≤ q.1) :
    (s.map Prod.snd).eraseDups.Pairwise (Precedes s) := by
  -- induction on the length: behind the first action, all that have the same one are dropped
  induction hn : s.length using Nat.strong_induction_on generalizing s with
  | _ n ih =>
    cases s with
    | nil => exact List.Pairwise.nil
    | cons b s =>
        rw [List.pairwise_cons] at hs
        rw [List.map_cons, List.eraseDups_cons, List.filter_map]
        have hle := List.length_filter_le ((fun x => !x == b.2) ∘ Prod.snd) s
        have hlt : (s.filter ((fun x => !x == b.2) ∘ Prod.snd)).length < n := by
          rw [← hn, List.length_cons]
          omega
        have hne : ∀ p ∈ s.filter ((fun x => !x == b.2) ∘ Prod.snd), p.2 ≠ b.2 := fun p hp => by
          simpa using List.of_mem_filter hp
        have hkept : ∀ {p}, p ∈ b :: s → p.2 ≠ b.2 →
            p ∈ s.filter ((fun x => !x == b.2) ∘ Prod.snd) := by
          intro p hp hpb
          rcases List.mem_cons.mp hp with rfl | hp
          · exact absurd rfl hpb
          · exact List.mem_filter.mpr ⟨hp, by simpa using hpb⟩
        refine List.pairwise_cons.mpr ⟨?_, (ih _ hlt (hs.2.filter _) rfl).imp_of_mem ?_⟩
        · intro y hy
          rcases List.mem_map.mp (List.mem_eraseDups.mp hy) with ⟨p, hp, rfl⟩
          refine ⟨(hne p hp).symm, b.1, List.mem_cons_self, ?_⟩
          intro k hk
          rcases List.mem_cons.mp hk with heq | hk
          · exact (congrArg Prod.fst heq).ge
          · exact hs.1 _ hk
        · rintro x y - hy ⟨hxy, j, hj, hmin⟩
          rcases List.mem_map.mp (List.mem_eraseDups.mp hy) with ⟨p, hp, rfl⟩
          refine ⟨hxy, j, List.mem_cons_of_mem b (List.mem_of_mem_filter hj), ?_⟩
          exact fun k hk => hmin k (hkept hk (hne p hp))

/-- Actions come in the order of the smallest of their numbers. -/
theorem inOrder_pairwise (l : List (Nat × Act)) : (inOrder l).Pairwise (Precedes l) := by
  refine (eraseDups_map_snd_pairwise (foldr_insertAct_sorted l)).imp ?_
  rintro x y ⟨hxy, j, hj, hmin⟩
  exact ⟨hxy, j, (mem_foldr_insertAct _ l).mp hj, fun k hk =>
    hmin k ((mem_foldr_insertAct _ l).mpr hk)⟩

/-! ## Steps of a family -/

/-- All threads belong to the family, and none has priorities. -/
def Within (P : Expr Act → Prop) (threads : List (Expr Act)) : Prop :=
  ∀ t ∈ threads, t.unranked = true ∧ P t

variable {P Q : Expr Act → Prop} {threads : List (Expr Act)} {c : UInt8}

/-- The actions of a step are those of its moves, in order. -/
theorem step_moves {threads' : List (Expr Act)} {as : List Act}
    (h : step threads c = some (as, threads')) :
    ∃ l, as = inOrder l ∧
      (∀ p ∈ l, ∃ t ∈ threads, ∃ m ∈ t.moves c, p ∈ m.acts ∧ ∀ q ∈ m.acts, q ∈ l) ∧
      ∀ t' ∈ threads', ∃ t ∈ threads, ∃ m ∈ t.moves c, m.next = t' ∧ ∀ q ∈ m.acts, q ∈ l := by
  rcases step_eq_some h with ⟨ms, -, hms, rfl, rfl⟩
  have hacts : ∀ m ∈ ms, ∀ q ∈ m.acts, q ∈ ms.flatMap Move.acts :=
    fun m hm q hq => List.mem_flatMap.mpr ⟨m, hm, hq⟩
  refine ⟨ms.flatMap Move.acts, actions_eq_inOrder ms, ?_, ?_⟩
  · intro p hp
    rcases List.mem_flatMap.mp hp with ⟨m, hm, hpm⟩
    rcases hms m hm with ⟨t, ht, hmt⟩
    exact ⟨t, ht, m, hmt, hpm, hacts m hm⟩
  · intro t' ht'
    rcases List.mem_map.mp (List.mem_eraseDups.mp ht') with ⟨m, hm, rfl⟩
    rcases hms m hm with ⟨t, ht, hmt⟩
    exact ⟨t, ht, m, hmt, rfl, hacts m hm⟩

/-- Without priorities all moves are made. -/
theorem step_within (hT : Within P threads) {t₀ : Expr Act} {m₀ : Move Act} (ht₀ : t₀ ∈ threads)
    (hm₀ : m₀ ∈ t₀.moves c) (hnext : ∀ t, P t → ∀ m ∈ t.moves c, Q m.next) :
    ∃ threads', step threads c =
        some (inOrder ((threads.flatMap (Expr.moves c)).flatMap Move.acts), threads') ∧
      Within Q threads' ∧ ∀ t ∈ threads, ∀ m ∈ t.moves c, m.next ∈ threads' := by
  have hmem : ∀ m, m ∈ threads.flatMap (Expr.moves c) ↔ ∃ t ∈ threads, m ∈ t.moves c :=
    fun m => List.mem_flatMap
  have hmove : ∀ m ∈ threads.flatMap (Expr.moves c), m.prios = [] ∧ m.next.unranked = true := by
    intro m hm
    rcases (hmem m).mp hm with ⟨t, ht, hmt⟩
    exact (moveOf_of_mem hmt).unranked (hT t ht).1
  have hne : (threads.flatMap (Expr.moves c)).isEmpty = false := by
    rw [List.isEmpty_eq_false_iff_exists_mem]
    exact ⟨m₀, (hmem m₀).mpr ⟨t₀, ht₀, hm₀⟩⟩
  refine ⟨((threads.flatMap (Expr.moves c)).map Move.next).eraseDups, ?_, ?_, ?_⟩
  · rw [step, survivors_of_prios_nil fun m hm => (hmove m hm).1]
    simp only [hne, Bool.false_eq_true, if_false, actions_eq_inOrder]
  · intro t' ht'
    rcases List.mem_map.mp (List.mem_eraseDups.mp ht') with ⟨m, hm, rfl⟩
    rcases (hmem m).mp hm with ⟨t, ht, hmt⟩
    exact ⟨(hmove m hm).2, hnext t (hT t ht).2 m hmt⟩
  · intro t ht m hm
    exact List.mem_eraseDups.mpr (List.mem_map_of_mem ((hmem m).mpr ⟨t, ht, hm⟩))

/-- A step from a family to another one; one move carries all actions. -/
theorem step_phase {L : List (Nat × Act)} (hT : Within P threads)
    (hL : L.Pairwise fun p q => p.1 < q.1)
    (hmoves : ∀ t, P t → ∀ m ∈ t.moves c, (∀ p ∈ m.acts, p ∈ L) ∧ Q m.next) {t₀ : Expr Act}
    {m₀ : Move Act} (ht₀ : t₀ ∈ threads) (hm₀ : m₀ ∈ t₀.moves c) (hall : ∀ p ∈ L, p ∈ m₀.acts) :
    ∃ threads', step threads c = some ((L.map Prod.snd).eraseDups, threads') ∧
      Within Q threads' ∧ ∀ t ∈ threads, ∀ m ∈ t.moves c, m.next ∈ threads' := by
  rcases step_within hT ht₀ hm₀ fun t ht m hm => (hmoves t ht m hm).2 with ⟨threads', hstep, hrest⟩
  refine ⟨threads', ?_, hrest⟩
  rw [hstep, inOrder_eq hL]
  intro p
  rw [List.mem_flatMap]
  constructor
  · rintro ⟨m, hm, hp⟩
    rcases List.mem_flatMap.mp hm with ⟨t, ht, hmt⟩
    exact (hmoves t (hT t ht).2 m hmt).1 p hp
  · intro hp
    exact ⟨m₀, List.mem_flatMap.mpr ⟨t₀, ht₀, hm₀⟩, hall p hp⟩

/-- The same where all moves carry one and the same action, if any. -/
theorem step_phase_single {a : Act} (hT : Within P threads)
    (hmoves : ∀ t, P t → ∀ m ∈ t.moves c, (∀ p ∈ m.acts, p.2 = a) ∧ Q m.next) {t₀ : Expr Act}
    {m₀ : Move Act} (ht₀ : t₀ ∈ threads) (hm₀ : m₀ ∈ t₀.moves c) (hne : m₀.acts ≠ []) :
    ∃ threads', step threads c = some ([a], threads') ∧
      Within Q threads' ∧ ∀ t ∈ threads, ∀ m ∈ t.moves c, m.next ∈ threads' := by
  rcases step_within hT ht₀ hm₀ fun t ht m hm => (hmoves t ht m hm).2 with ⟨threads', hstep, hrest⟩
  refine ⟨threads', ?_, hrest⟩
  rw [hstep, inOrder_single]
  · obtain ⟨p, hp⟩ := List.exists_mem_of_ne_nil _ hne
    apply List.ne_nil_of_mem (a := p)
    exact List.mem_flatMap.mpr ⟨m₀, List.mem_flatMap.mpr ⟨t₀, ht₀, hm₀⟩, hp⟩
  · intro p hp
    rcases List.mem_flatMap.mp hp with ⟨m, hm, hpm⟩
    rcases List.mem_flatMap.mp hm with ⟨t, ht, hmt⟩
    exact (hmoves t (hT t ht).2 m hmt).1 p hpm

/-- A word that no thread of the family acts on. -/
theorem quiet_phase {w : List UInt8}
    (hP : ∀ c ∈ w, ∀ t, P t → ∀ m ∈ t.moves c, m.acts = [] ∧ P m.next)
    (hT : Within P threads) {t₀ t₁ : Expr Act} (ht₀ : t₀ ∈ threads) (hgoes : Goes t₀ w t₁) :
    ∃ threads', quiet threads w = some threads' ∧ Within P threads' ∧
      ∀ t ∈ threads, ∀ t', Goes t w t' → t' ∈ threads' := by
  induction w generalizing threads t₀ with
  | nil =>
      refine ⟨threads, rfl, hT, ?_⟩
      rintro t ht t' ⟨⟩
      exact ht
  | cons c w ih =>
      rcases hgoes with _ | ⟨hm₀, hrest⟩
      have hmoves : ∀ t, P t →
          ∀ m ∈ t.moves c, (∀ p ∈ m.acts, p ∈ ([] : List (Nat × Act))) ∧ P m.next := by
        intro t ht m hm
        have hquiet := hP c List.mem_cons_self t ht m hm
        rw [hquiet.1]
        exact ⟨fun _ => id, hquiet.2⟩
      rcases step_phase hT List.Pairwise.nil hmoves ht₀ hm₀ (by simp) with
        ⟨threads₁, hstep, hT₁, hnext⟩
      rcases ih (fun d hd => hP d (List.mem_cons_of_mem c hd)) hT₁ (hnext _ ht₀ _ hm₀) hrest with
        ⟨threads', hquiet, hT', hgo⟩
      refine ⟨threads', ?_, hT', ?_⟩
      · rw [quiet_cons hstep]
        exact hquiet
      · rintro t ht t' (_ | ⟨hm, htail⟩)
        exact hgo _ (hnext t ht _ hm) t' htail

/-! ## The end of a part -/

/-- The part takes none of the bytes, and leaves the actions where it may end. -/
structure Ends (bytes : List UInt8) (acts : List (Nat × Act)) (z : Expr Act) : Prop where
  stops : ∀ c ∈ bytes, z.moves c = []
  out : z.nullable = true → z.out = acts

/-- Threads that all end a part in front of the same rest. -/
def Ending (bytes : List UInt8) (acts : List (Nat × Act)) (rest : Expr Act) (t : Expr Act) : Prop :=
  ∃ z, t = .cat z rest ∧ Ends bytes acts z

/-- The byte behind a part: the rest of the threads is the same. -/
theorem step_closing {bytes : List UInt8} {acts first : List (Nat × Act)} {rest x z₀ : Expr Act}
    {m₁ : Move Act} (hT : Within (Ending bytes acts rest) threads) (hc : c ∈ bytes)
    (hz₀ : .cat z₀ rest ∈ threads) (hnull : z₀.nullable = true)
    (hrest : ∀ m ∈ rest.moves c, m.acts = first ∧ m.next = x) (hm₁ : m₁ ∈ rest.moves c)
    (hsorted : (acts ++ first).Pairwise fun p q => p.1 < q.1) :
    step threads c = some (((acts ++ first).map Prod.snd).eraseDups, [x]) := by
  have hmoves : ∀ t, Ending bytes acts rest t → ∀ m ∈ t.moves c,
      (∀ p ∈ m.acts, p ∈ acts ++ first) ∧ m.next = x := by
    rintro t ⟨z, rfl, hz⟩ m hm
    rcases Expr.mem_moves_cat.mp hm with ⟨m₀, hm₀, -⟩ | ⟨hznull, m₀, hm₀, rfl⟩
    · rw [hz.stops c hc] at hm₀
      cases hm₀
    · rw [hz.out hznull]
      refine ⟨?_, (hrest m₀ hm₀).2⟩
      rw [Move.addActs, (hrest m₀ hm₀).1]
      exact fun p hp => hp
  have hend : Ends bytes acts z₀ := by
    rcases (hT _ hz₀).2 with ⟨z, heq, hz⟩
    cases heq
    exact hz
  have hm₀ : m₁.addActs z₀.out ∈ (Expr.cat z₀ rest).moves c :=
    Expr.mem_moves_cat.mpr (.inr ⟨hnull, m₁, hm₁, rfl⟩)
  rcases step_phase (Q := fun t => t = x) hT hsorted hmoves hz₀ hm₀ (by
    rw [Move.addActs, hend.out hnull, (hrest m₁ hm₁).1]
    exact fun p hp => hp) with ⟨threads', hstep, -, -⟩
  rw [hstep, step_single hstep fun t ht m hm => (hmoves t (hT t ht).2 m hm).2]

/-- The actions at the end of the input. -/
def finalActions (threads : List (Expr Act)) : List Act :=
  inOrder ((threads.filter Expr.nullable).flatMap Expr.out)

/-- An action at the end of the text is one that some thread leaves with. -/
theorem mem_finalActions {a : Act} (h : a ∈ finalActions threads) :
    ∃ t ∈ threads, ∃ n, (n, a) ∈ t.out := by
  rcases mem_inOrder h with ⟨n, hn⟩
  rcases List.mem_flatMap.mp hn with ⟨t, ht, hout⟩
  exact ⟨t, List.mem_of_mem_filter ht, n, hout⟩

/-- The end of the input, where all threads that may end leave the same actions. -/
theorem final_phase {acts : List (Nat × Act)} {t₀ : Expr Act}
    (hT : ∀ t ∈ threads, t.nullable = true → t.out = acts) (ht₀ : t₀ ∈ threads)
    (hnull : t₀.nullable = true)
    (hsorted : acts.Pairwise fun p q => p.1 < q.1) :
    isFinal threads = true ∧ finalActions threads = (acts.map Prod.snd).eraseDups := by
  refine ⟨List.any_eq_true.mpr ⟨t₀, ht₀, hnull⟩, inOrder_eq hsorted ?_⟩
  intro p
  rw [List.mem_flatMap]
  constructor
  · rintro ⟨t, ht, hp⟩
    rcases List.mem_filter.mp ht with ⟨htmem, htnull⟩
    rwa [hT t htmem htnull] at hp
  · intro hp
    refine ⟨t₀, List.mem_filter.mpr ⟨ht₀, hnull⟩, ?_⟩
    rwa [hT t₀ ht₀ hnull]

/-- The end of the input behind a part: the rest matches no byte. -/
theorem final_closing {bytes : List UInt8} {acts : List (Nat × Act)} {rest z₀ : Expr Act}
    (hT : Within (Ending bytes acts rest) threads) (hz₀ : .cat z₀ rest ∈ threads)
    (hnull : z₀.nullable = true) (hrest : rest.nullable = true) (hout : rest.out = [])
    (hsorted : acts.Pairwise fun p q => p.1 < q.1) :
    isFinal threads = true ∧ finalActions threads = (acts.map Prod.snd).eraseDups := by
  apply final_phase _ hz₀ (by rw [Expr.nullable, hnull, hrest]; rfl) hsorted
  intro t ht htnull
  rcases (hT t ht).2 with ⟨z, rfl, hz⟩
  rw [Expr.nullable, Bool.and_eq_true] at htnull
  rw [Expr.out, hz.out htnull.1, hout, List.append_nil]

end Ragel
end Lib
end Tiger
