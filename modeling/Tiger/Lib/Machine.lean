import Tiger.Lib.Ragel

/-!
# Runs of state machines with embedded actions

General facts about the machines of `Lib.Ragel`.  Each of them is a property of
an expression that can be computed, together with what it says about the states
that the machine of the expression reaches.

Main results:

- Theorem `scan_append`: a machine does not see how its input is cut.
- Theorem `Reach.finishing_mem_iff`: the finishing action of the whole machine
  runs exactly on the bytes that end in a final state.
- Theorem `Reach.lastMem_of_isFinal`: a byte that ends in a final state is the
  last byte of a word.
-/

namespace Tiger
namespace Lib
namespace Ragel

variable {Act : Type}

/-! ## Moves -/

/-- The moves of an expression, one rule for each way to make one. -/
inductive MoveOf (c : UInt8) : Expr Act → Move Act → Prop
  | chars {k : ByteClass} : k.mem c = true → MoveOf c (.chars k) ⟨[], [], .eps⟩
  | catLeft {a b : Expr Act} {m : Move Act} :
      MoveOf c a m → MoveOf c (.cat a b) (m.mapNext (Expr.andThen · b))
  | catRight {a b : Expr Act} {m : Move Act} :
      a.nullable = true → MoveOf c b m → MoveOf c (.cat a b) (m.addActs a.out)
  | altLeft {a b : Expr Act} {m : Move Act} : MoveOf c a m → MoveOf c (.alt a b) m
  | altRight {a b : Expr Act} {m : Move Act} : MoveOf c b m → MoveOf c (.alt a b) m
  | star {a : Expr Act} {m : Move Act} :
      MoveOf c a m → MoveOf c (.star a) (m.mapNext (Expr.andThen · (.star a)))
  | starAgain {a : Expr Act} {m : Move Act} :
      a.nullable = true → MoveOf c a m →
      MoveOf c (.star a) ((m.mapNext (Expr.andThen · (.star a))).addActs a.out)
  | entering {ord : Nat} {act : Act} {e : Expr Act} {m : Move Act} :
      MoveOf c e m → MoveOf c (.entering ord act e) (m.addActs [(ord, act)])
  | leaving {ord : Nat} {act : Act} {e : Expr Act} {m : Move Act} :
      MoveOf c e m → MoveOf c (.leaving ord act e) (m.mapNext (.leaving ord act))
  | finishing {ord : Nat} {act : Act} {e : Expr Act} {m : Move Act} :
      MoveOf c e m → MoveOf c (.finishing ord act e)
        ((m.addFinish ord act).mapNext (Expr.wrap (.finishing ord act)))
  | prioAll {name value : Nat} {e : Expr Act} {m : Move Act} :
      MoveOf c e m → MoveOf c (.prioAll name value e)
        ((m.addPrio name value).mapNext (Expr.wrap (.prioAll name value)))
  | prioStart {name value : Nat} {e : Expr Act} {m : Move Act} :
      MoveOf c e m → MoveOf c (.prioStart name value e) (m.addPrio name value)
  | prioFinish {name value : Nat} {e : Expr Act} {m : Move Act} :
      MoveOf c e m → MoveOf c (.prioFinish name value e)
        ((m.addPrioFinish name value).mapNext (Expr.wrap (.prioFinish name value)))

/-- Every computed move is made by one of the rules. -/
theorem moveOf_of_mem {c : UInt8} {e : Expr Act} {m : Move Act} (hm : m ∈ e.moves c) :
    MoveOf c e m := by
  induction e generalizing m with
  | eps => simp [Expr.moves] at hm
  | chars k =>
      rw [Expr.moves] at hm
      split at hm
      next hk =>
        rw [List.mem_singleton.mp hm]
        exact .chars hk
      next => simp at hm
  | cat a b iha ihb =>
      rcases List.mem_append.mp hm with hm | hm
      · rcases List.mem_map.mp hm with ⟨m₀, hm₀, rfl⟩
        exact .catLeft (iha hm₀)
      · split at hm
        next hnull =>
          rcases List.mem_map.mp hm with ⟨m₀, hm₀, rfl⟩
          exact .catRight hnull (ihb hm₀)
        next => simp at hm
  | alt a b iha ihb =>
      rcases List.mem_append.mp hm with hm | hm
      · exact .altLeft (iha hm)
      · exact .altRight (ihb hm)
  | star a ih =>
      rcases List.mem_append.mp hm with hm | hm
      · rcases List.mem_map.mp hm with ⟨m₀, hm₀, rfl⟩
        exact .star (ih hm₀)
      · split at hm
        next hnull =>
          rcases List.mem_map.mp hm with ⟨m₁, hm₁, rfl⟩
          rcases List.mem_map.mp hm₁ with ⟨m₀, hm₀, rfl⟩
          exact .starAgain hnull (ih hm₀)
        next => simp at hm
  | entering ord act e ih =>
      rcases List.mem_map.mp hm with ⟨m₀, hm₀, rfl⟩
      exact .entering (ih hm₀)
  | leaving ord act e ih =>
      rcases List.mem_map.mp hm with ⟨m₀, hm₀, rfl⟩
      exact .leaving (ih hm₀)
  | finishing ord act e ih =>
      rcases List.mem_map.mp hm with ⟨m₀, hm₀, rfl⟩
      exact .finishing (ih hm₀)
  | prioAll name value e ih =>
      rcases List.mem_map.mp hm with ⟨m₀, hm₀, rfl⟩
      exact .prioAll (ih hm₀)
  | prioStart name value e ih =>
      rcases List.mem_map.mp hm with ⟨m₀, hm₀, rfl⟩
      exact .prioStart (ih hm₀)
  | prioFinish name value e ih =>
      rcases List.mem_map.mp hm with ⟨m₀, hm₀, rfl⟩
      exact .prioFinish (ih hm₀)

/-- The classes of an expression. -/
def Expr.classes : Expr Act → List ByteClass
  | .eps => []
  | .chars k => [k]
  | .cat a b => a.classes ++ b.classes
  | .alt a b => a.classes ++ b.classes
  | .star a => a.classes
  | .entering _ _ e => e.classes
  | .leaving _ _ e => e.classes
  | .finishing _ _ e => e.classes
  | .prioAll _ _ e => e.classes
  | .prioStart _ _ e => e.classes
  | .prioFinish _ _ e => e.classes

/-- The moves on a byte depend on its classes only. -/
theorem Expr.moves_congr {c d : UInt8} {e : Expr Act} (h : ∀ k ∈ e.classes, k.mem c = k.mem d) :
    e.moves c = e.moves d := by
  induction e with
  | eps => rfl
  | chars k => simp only [moves, h k (List.mem_singleton.mpr rfl)]
  | cat a b iha ihb =>
      have ha := iha fun k hk => h k (List.mem_append_left _ hk)
      have hb := ihb fun k hk => h k (List.mem_append_right _ hk)
      simp only [moves, ha, hb]
  | alt a b iha ihb =>
      have ha := iha fun k hk => h k (List.mem_append_left _ hk)
      have hb := ihb fun k hk => h k (List.mem_append_right _ hk)
      simp only [moves, ha, hb]
  | star a ih => simp only [moves, ih h]
  | entering ord act e ih => simp only [moves, ih h]
  | leaving ord act e ih => simp only [moves, ih h]
  | finishing ord act e ih => simp only [moves, ih h]
  | prioAll name value e ih => simp only [moves, ih h]
  | prioStart name value e ih => simp only [moves, ih h]
  | prioFinish name value e ih => simp only [moves, ih h]

/-! ## Actions of an expression -/

namespace Expr

/-- No action of the expression satisfies `p`. -/
def avoids (p : Act → Bool) : Expr Act → Bool
  | eps => true
  | chars _ => true
  | cat a b => a.avoids p && b.avoids p
  | alt a b => a.avoids p && b.avoids p
  | star a => a.avoids p
  | entering _ act e => !p act && e.avoids p
  | leaving _ act e => !p act && e.avoids p
  | finishing _ act e => !p act && e.avoids p
  | prioAll _ _ e => e.avoids p
  | prioStart _ _ e => e.avoids p
  | prioFinish _ _ e => e.avoids p

/-- Avoiding more actions is avoiding fewer. -/
theorem avoids_of_imp {p q : Act → Bool} (himp : ∀ a, p a = false → q a = false) {e : Expr Act}
    (h : e.avoids p = true) : e.avoids q = true := by
  induction e with
  | eps | chars k => rfl
  | cat a b iha ihb | alt a b iha ihb =>
      simp only [avoids, Bool.and_eq_true] at h ⊢
      exact ⟨iha h.1, ihb h.2⟩
  | star a ih | prioAll n v a ih | prioStart n v a ih | prioFinish n v a ih => exact ih h
  | entering n act a ih | leaving n act a ih | finishing n act a ih =>
      simp only [avoids, Bool.and_eq_true, Bool.not_eq_true'] at h ⊢
      exact ⟨himp act h.1, ih h.2⟩

theorem avoids_andThen {p : Act → Bool} {a b : Expr Act} (ha : a.avoids p = true)
    (hb : b.avoids p = true) : (andThen a b).avoids p = true := by
  cases a <;> simp_all [andThen, avoids]

theorem avoids_wrap {p : Act → Bool} {f : Expr Act → Expr Act} {e : Expr Act}
    (h : (f e).avoids p = true) : (wrap f e).avoids p = true := by
  cases e <;> first | rfl | exact h

/-- An expression has no action to leave with that it avoids. -/
theorem avoids_out {p : Act → Bool} {e : Expr Act} (h : e.avoids p = true) :
    ∀ x ∈ e.out, p x.2 = false := by
  induction e with
  | eps => simp [out]
  | chars k => simp [out]
  | cat a b iha ihb =>
      simp only [avoids, Bool.and_eq_true] at h
      intro x hx
      rcases List.mem_append.mp hx with hx | hx
      · exact iha h.1 x hx
      · exact ihb h.2 x hx
  | alt a b iha ihb =>
      simp only [avoids, Bool.and_eq_true] at h
      intro x hx
      rcases List.mem_append.mp hx with hx | hx
      · split at hx
        · exact iha h.1 x hx
        · simp at hx
      · split at hx
        · exact ihb h.2 x hx
        · simp at hx
  | star a ih =>
      intro x hx
      rw [out] at hx
      split at hx
      · exact ih h x hx
      · simp at hx
  | entering n act e ih =>
      simp only [avoids, Bool.and_eq_true, Bool.not_eq_true'] at h
      intro x hx
      rcases List.mem_cons.mp hx with rfl | hx
      · exact h.1
      · exact ih h.2 x hx
  | leaving n act e ih =>
      simp only [avoids, Bool.and_eq_true, Bool.not_eq_true'] at h
      intro x hx
      rcases List.mem_append.mp hx with hx | hx
      · exact ih h.2 x hx
      · rw [List.mem_singleton.mp hx]
        exact h.1
  | finishing n act e ih =>
      simp only [avoids, Bool.and_eq_true] at h
      exact ih h.2
  | prioAll n v e ih => exact ih h
  | prioStart n v e ih => exact ih h
  | prioFinish n v e ih => exact ih h

end Expr

/-- A finishing action leaves the target of a move alone. -/
@[simp] theorem Move.next_addFinish (n : Nat) (act : Act) (m : Move Act) :
    (m.addFinish n act).next = m.next := by
  unfold Move.addFinish
  split
  · rfl
  · rfl

/-- An action of a move is one it had, or the finishing action. -/
theorem Move.mem_acts_addFinish {n : Nat} {act : Act} {m : Move Act} {x : Nat × Act}
    (hx : x ∈ (m.addFinish n act).acts) : x ∈ m.acts ∨ x = (n, act) := by
  unfold Move.addFinish at hx
  split at hx
  · rcases List.mem_append.mp hx with hx | hx
    · exact .inl hx
    · exact .inr (List.mem_singleton.mp hx)
  · exact .inl hx

/-- A finishing priority leaves the target of a move alone. -/
@[simp] theorem Move.next_addPrioFinish (n v : Nat) (m : Move Act) :
    (m.addPrioFinish n v).next = m.next := by
  unfold Move.addPrioFinish
  split
  · rfl
  · rfl

/-- No action of the move, and none behind it, satisfies `p`. -/
def Move.Avoids (p : Act → Bool) (m : Move Act) : Prop :=
  (∀ x ∈ m.acts, p x.2 = false) ∧ m.next.avoids p = true

/-- Actions that are avoided may be put in front. -/
theorem Move.Avoids.addActs {p : Act → Bool} {m : Move Act} (h : m.Avoids p)
    {acts : List (Nat × Act)} (hacts : ∀ x ∈ acts, p x.2 = false) : (m.addActs acts).Avoids p := by
  refine ⟨?_, h.2⟩
  intro x hx
  rcases List.mem_append.mp hx with hx | hx
  · exact hacts x hx
  · exact h.1 x hx

/-- A finishing action that is avoided may be added. -/
theorem Move.Avoids.addFinish {p : Act → Bool} {m : Move Act} (h : m.Avoids p) (n : Nat)
    {act : Act} (hact : p act = false) : (m.addFinish n act).Avoids p := by
  refine ⟨?_, by rw [Move.next_addFinish]; exact h.2⟩
  intro x hx
  rcases Move.mem_acts_addFinish hx with hx | rfl
  · exact h.1 x hx
  · exact hact

/-- A finishing priority adds no action. -/
theorem Move.Avoids.addPrioFinish {p : Act → Bool} {m : Move Act} (h : m.Avoids p) (n v : Nat) :
    (m.addPrioFinish n v).Avoids p := by
  unfold Move.addPrioFinish
  split
  · exact h
  · exact h

/-- The moves of an expression avoid what the expression avoids. -/
theorem MoveOf.avoids {p : Act → Bool} {c : UInt8} {e : Expr Act} {m : Move Act}
    (hm : MoveOf c e m) (h : e.avoids p = true) : m.Avoids p := by
  induction hm with
  | chars hk => exact ⟨by simp, rfl⟩
  | catLeft hm ih =>
      simp only [Expr.avoids, Bool.and_eq_true] at h
      exact ⟨(ih h.1).1, Expr.avoids_andThen (ih h.1).2 h.2⟩
  | catRight hnull hm ih =>
      simp only [Expr.avoids, Bool.and_eq_true] at h
      exact (ih h.2).addActs (Expr.avoids_out h.1)
  | altLeft hm ih =>
      simp only [Expr.avoids, Bool.and_eq_true] at h
      exact ih h.1
  | altRight hm ih =>
      simp only [Expr.avoids, Bool.and_eq_true] at h
      exact ih h.2
  | star hm ih => exact ⟨(ih h).1, Expr.avoids_andThen (ih h).2 h⟩
  | starAgain hnull hm ih =>
      have honce : (Move.mapNext (Expr.andThen · (.star _)) _).Avoids p :=
        ⟨(ih h).1, Expr.avoids_andThen (ih h).2 h⟩
      exact honce.addActs (Expr.avoids_out h)
  | entering hm ih =>
      simp only [Expr.avoids, Bool.and_eq_true, Bool.not_eq_true'] at h
      exact (ih h.2).addActs (by simpa using h.1)
  | leaving hm ih =>
      simp only [Expr.avoids, Bool.and_eq_true, Bool.not_eq_true'] at h
      exact ⟨(ih h.2).1, by simpa [Move.mapNext, Expr.avoids, h.1] using (ih h.2).2⟩
  | @finishing ord act e m hm ih =>
      simp only [Expr.avoids, Bool.and_eq_true, Bool.not_eq_true'] at h
      have hfin := (ih h.2).addFinish ord h.1
      exact ⟨hfin.1, Expr.avoids_wrap (by simpa [Expr.avoids, h.1] using hfin.2)⟩
  | prioAll hm ih => exact ⟨(ih h).1, Expr.avoids_wrap (ih h).2⟩
  | prioStart hm ih => exact ih h
  | @prioFinish name value e m hm ih =>
      have hfin := (ih h).addPrioFinish name value
      exact ⟨hfin.1, Expr.avoids_wrap hfin.2⟩

/-! ## Bytes of an expression -/

namespace Expr

theorem nullable_andThen (a b : Expr Act) :
    (andThen a b).nullable = (a.nullable && b.nullable) := by
  cases a <;> simp [andThen, nullable]

theorem nullable_wrap (f : Expr Act → Expr Act) (e : Expr Act)
    (hf : ∀ e, (f e).nullable = e.nullable) : (wrap f e).nullable = e.nullable := by
  cases e <;> first | rfl | exact hf _

/-- The byte ends a word of the expression. -/
def lastMem (c : UInt8) : Expr Act → Bool
  | eps => false
  | chars k => k.mem c
  | cat a b => b.lastMem c || b.nullable && a.lastMem c
  | alt a b => a.lastMem c || b.lastMem c
  | star a => a.lastMem c
  | entering _ _ e => e.lastMem c
  | leaving _ _ e => e.lastMem c
  | finishing _ _ e => e.lastMem c
  | prioAll _ _ e => e.lastMem c
  | prioStart _ _ e => e.lastMem c
  | prioFinish _ _ e => e.lastMem c

theorem lastMem_andThen {d : UInt8} {a b : Expr Act} (h : (andThen a b).lastMem d = true) :
    (cat a b).lastMem d = true := by
  cases a <;> simp_all [andThen, lastMem]

/-- A wrapped expression ends with the bytes of the expression. -/
theorem lastMem_wrap {d : UInt8} {f : Expr Act → Expr Act} {e : Expr Act}
    (h : (wrap f e).lastMem d = true) (hf : ∀ e, (f e).lastMem d = e.lastMem d) :
    e.lastMem d = true := by
  cases e <;> first | exact h | exact (hf _).symm.trans h

end Expr

/-- When the expression may end behind a move, the byte of the move ends a word. -/
theorem MoveOf.lastMem_of_nullable {c : UInt8} {e : Expr Act} {m : Move Act}
    (hm : MoveOf c e m) (h : m.next.nullable = true) : e.lastMem c = true := by
  induction hm with
  | chars hk => exact hk
  | catLeft hm ih =>
      simp only [Move.mapNext, Expr.nullable_andThen, Bool.and_eq_true] at h
      simp [Expr.lastMem, h.2, ih h.1]
  | catRight hnull hm ih => simp [Expr.lastMem, ih h]
  | altLeft hm ih => simp [Expr.lastMem, ih h]
  | altRight hm ih => simp [Expr.lastMem, ih h]
  | star hm ih =>
      simp only [Move.mapNext, Expr.nullable_andThen, Bool.and_eq_true] at h
      exact ih h.1
  | starAgain hnull hm ih =>
      simp only [Move.mapNext, Move.addActs, Expr.nullable_andThen, Bool.and_eq_true] at h
      exact ih h.1
  | entering hm ih => exact ih h
  | leaving hm ih => exact ih h
  | finishing hm ih =>
      simp only [Move.mapNext, Move.next_addFinish] at h
      exact ih ((Expr.nullable_wrap (.finishing _ _) _ fun _ => rfl).symm.trans h)
  | prioAll hm ih =>
      exact ih ((Expr.nullable_wrap (.prioAll _ _) _ fun _ => rfl).symm.trans h)
  | prioStart hm ih => exact ih h
  | prioFinish hm ih =>
      simp only [Move.mapNext, Move.next_addPrioFinish] at h
      exact ih ((Expr.nullable_wrap (.prioFinish _ _) _ fun _ => rfl).symm.trans h)

/-- What ends a word behind a move ends a word of the expression. -/
theorem MoveOf.lastMem_of_next {c d : UInt8} {e : Expr Act} {m : Move Act}
    (hm : MoveOf c e m) (h : m.next.lastMem d = true) : e.lastMem d = true := by
  induction hm with
  | chars hk => simp [Expr.lastMem] at h
  | catLeft hm ih =>
      have hcat := Expr.lastMem_andThen h
      simp only [Expr.lastMem, Bool.or_eq_true, Bool.and_eq_true] at hcat ⊢
      rcases hcat with hb | ⟨hnull, hnext⟩
      · exact .inl hb
      · exact .inr ⟨hnull, ih hnext⟩
  | catRight hnull hm ih => simp [Expr.lastMem, ih h]
  | altLeft hm ih => simp [Expr.lastMem, ih h]
  | altRight hm ih => simp [Expr.lastMem, ih h]
  | star hm ih =>
      have hcat := Expr.lastMem_andThen h
      simp only [Expr.lastMem, Bool.or_eq_true, Bool.and_eq_true] at hcat ⊢
      rcases hcat with hb | ⟨-, hnext⟩
      · exact hb
      · exact ih hnext
  | starAgain hnull hm ih =>
      have hcat := Expr.lastMem_andThen h
      simp only [Expr.lastMem, Bool.or_eq_true, Bool.and_eq_true] at hcat ⊢
      rcases hcat with hb | ⟨-, hnext⟩
      · exact hb
      · exact ih hnext
  | entering hm ih => exact ih h
  | leaving hm ih => exact ih h
  | finishing hm ih =>
      simp only [Move.mapNext, Move.next_addFinish] at h
      exact ih (Expr.lastMem_wrap h fun _ => rfl)
  | prioAll hm ih => exact ih (Expr.lastMem_wrap h fun _ => rfl)
  | prioStart hm ih => exact ih h
  | prioFinish hm ih =>
      simp only [Move.mapNext, Move.next_addPrioFinish] at h
      exact ih (Expr.lastMem_wrap h fun _ => rfl)

namespace Expr

/-- No word of the expression holds the byte. -/
def without (k : UInt8) : Expr Act → Bool
  | eps => true
  | chars c => !c.mem k
  | cat a b => a.without k && b.without k
  | alt a b => a.without k && b.without k
  | star a => a.without k
  | entering _ _ e => e.without k
  | leaving _ _ e => e.without k
  | finishing _ _ e => e.without k
  | prioAll _ _ e => e.without k
  | prioStart _ _ e => e.without k
  | prioFinish _ _ e => e.without k

theorem without_andThen {k : UInt8} {a b : Expr Act} (ha : a.without k = true)
    (hb : b.without k = true) : (andThen a b).without k = true := by
  cases a <;> simp_all [andThen, without]

theorem without_wrap {k : UInt8} {f : Expr Act → Expr Act} {e : Expr Act}
    (h : (f e).without k = true) : (wrap f e).without k = true := by
  cases e <;> first | rfl | exact h

/-- The expression that matches the empty word alone. -/
def isEps : Expr Act → Bool
  | eps => true
  | _ => false

theorem eq_eps_of_isEps {e : Expr Act} (h : e.isEps = true) : e = eps := by
  cases e <;> first | rfl | simp [isEps] at h

/-- The byte is the last one of every word, and stands nowhere else. -/
def endsWith (k : UInt8) : Expr Act → Bool
  | chars (.range lo hi) => lo == k.toNat && hi == k.toNat
  | cat a b => a.without k && b.endsWith k || a.endsWith k && b.isEps
  | alt a b => a.endsWith k && b.endsWith k
  | _ => false

/-- An expression that ends with a byte is not nullable. -/
theorem not_nullable_of_endsWith {k : UInt8} {e : Expr Act} (h : e.endsWith k = true) :
    e.nullable = false := by
  induction e with
  | cat a b iha ihb =>
      simp only [endsWith, Bool.or_eq_true, Bool.and_eq_true] at h
      rcases h with ⟨-, hb⟩ | ⟨ha, -⟩
      · simp [nullable, ihb hb]
      · simp [nullable, iha ha]
  | alt a b iha ihb =>
      simp only [endsWith, Bool.and_eq_true] at h
      simp [nullable, iha h.1, ihb h.2]
  | chars k => rfl
  | _ => simp [endsWith] at h

end Expr

/-- A move does not take a byte that no word holds, and there is none behind it. -/
theorem MoveOf.without {c k : UInt8} {e : Expr Act} {m : Move Act} (hm : MoveOf c e m)
    (h : e.without k = true) : c ≠ k ∧ m.next.without k = true := by
  induction hm with
  | chars hk =>
      refine ⟨?_, rfl⟩
      rintro rfl
      simp [Expr.without, hk] at h
  | catLeft hm ih =>
      simp only [Expr.without, Bool.and_eq_true] at h
      exact ⟨(ih h.1).1, Expr.without_andThen (ih h.1).2 h.2⟩
  | catRight hnull hm ih =>
      simp only [Expr.without, Bool.and_eq_true] at h
      exact ih h.2
  | altLeft hm ih =>
      simp only [Expr.without, Bool.and_eq_true] at h
      exact ih h.1
  | altRight hm ih =>
      simp only [Expr.without, Bool.and_eq_true] at h
      exact ih h.2
  | star hm ih => exact ⟨(ih h).1, Expr.without_andThen (ih h).2 h⟩
  | starAgain hnull hm ih => exact ⟨(ih h).1, Expr.without_andThen (ih h).2 h⟩
  | entering hm ih => exact ih h
  | leaving hm ih => exact ih h
  | finishing hm ih =>
      refine ⟨(ih h).1, Expr.without_wrap ?_⟩
      rw [Move.next_addFinish]
      exact (ih h).2
  | prioAll hm ih => exact ⟨(ih h).1, Expr.without_wrap (ih h).2⟩
  | prioStart hm ih => exact ih h
  | prioFinish hm ih =>
      refine ⟨(ih h).1, Expr.without_wrap ?_⟩
      rw [Move.next_addPrioFinish]
      exact (ih h).2

/-- Behind its last byte the expression has ended, and before it has not. -/
theorem MoveOf.endsWith {c k : UInt8} {e : Expr Act} {m : Move Act} (hm : MoveOf c e m)
    (h : e.endsWith k = true) :
    (c = k → m.next = .eps) ∧ (c ≠ k → m.next.endsWith k = true) := by
  induction hm with
  | @chars cls hk =>
      cases cls with
      | range lo hi =>
          simp only [Expr.endsWith, Bool.and_eq_true, beq_iff_eq] at h
          simp only [ByteClass.mem, Bool.and_eq_true, decide_eq_true_eq] at hk
          refine ⟨fun _ => rfl, fun hne => absurd ?_ hne⟩
          exact UInt8.toNat_inj.mp (by omega)
      | union a b => simp [Expr.endsWith] at h
      | diff a b => simp [Expr.endsWith] at h
  | @catLeft a b m hm ih =>
      simp only [Expr.endsWith, Bool.or_eq_true, Bool.and_eq_true] at h
      rcases h with ⟨ha, hb⟩ | ⟨ha, hb⟩
      · -- the byte is taken by the part that does not hold the last one
        rcases hm.without ha with ⟨hne, hnext⟩
        refine ⟨fun heq => absurd heq hne, fun _ => ?_⟩
        cases hcase : m.next <;> simp_all [Move.mapNext, Expr.andThen, Expr.endsWith]
      · rw [Expr.eq_eps_of_isEps hb]
        constructor
        · intro heq
          simp [Move.mapNext, (ih ha).1 heq, Expr.andThen]
        · intro hne
          have hnext := (ih ha).2 hne
          cases hcase : m.next <;>
            simp_all [Move.mapNext, Expr.andThen, Expr.endsWith, Expr.isEps]
  | @catRight a b m hnull hm ih =>
      simp only [Expr.endsWith, Bool.or_eq_true, Bool.and_eq_true] at h
      rcases h with ⟨-, hb⟩ | ⟨ha, -⟩
      · exact ih hb
      · rw [Expr.not_nullable_of_endsWith ha] at hnull
        exact absurd hnull (by simp)
  | altLeft hm ih =>
      simp only [Expr.endsWith, Bool.and_eq_true] at h
      exact ih h.1
  | altRight hm ih =>
      simp only [Expr.endsWith, Bool.and_eq_true] at h
      exact ih h.2
  | _ => simp [Expr.endsWith] at h

/-! ## Steps -/

/-- Inserting an action adds this action only. -/
theorem mem_insertAct (a b : Nat × Act) (bs : List (Nat × Act)) :
    b ∈ insertAct a bs ↔ b = a ∨ b ∈ bs := by
  induction bs with
  | nil => simp [insertAct]
  | cons x bs ih =>
      rw [insertAct]
      split
      · simp
      · rw [List.mem_cons, ih, List.mem_cons]
        tauto

/-- Sorting actions by insertion keeps their members. -/
theorem mem_foldr_insertAct (b : Nat × Act) (bs : List (Nat × Act)) :
    b ∈ bs.foldr insertAct [] ↔ b ∈ bs := by
  induction bs with
  | nil => simp
  | cons x bs ih => rw [List.foldr_cons, mem_insertAct, ih, List.mem_cons]

variable [DecidableEq Act]

/-- The actions of a list of moves. -/
theorem mem_actions (a : Act) (ms : List (Move Act)) :
    a ∈ actions ms ↔ ∃ m ∈ ms, ∃ n, (n, a) ∈ m.acts := by
  simp only [actions, List.mem_eraseDups, List.mem_map, mem_foldr_insertAct, List.mem_flatMap]
  constructor
  · rintro ⟨⟨n, a⟩, ⟨m, hm, hmem⟩, rfl⟩
    exact ⟨m, hm, n, hmem⟩
  · rintro ⟨m, hm, n, hmem⟩
    exact ⟨(n, a), ⟨m, hm, hmem⟩, rfl⟩

/-- What a step does: it takes a non-empty list of the moves of the threads. -/
theorem step_eq_some {threads threads' : List (Expr Act)} {c : UInt8} {as : List Act}
    (h : step threads c = some (as, threads')) :
    ∃ ms, ms ≠ [] ∧ (∀ m ∈ ms, ∃ t ∈ threads, m ∈ t.moves c) ∧ as = actions ms ∧
      threads' = (ms.map Move.next).eraseDups := by
  simp only [step] at h
  split at h
  · exact absurd h (by simp)
  · next hne =>
    simp only [Option.some.injEq, Prod.mk.injEq] at h
    refine ⟨_, by simpa using hne, ?_, h.1.symm, h.2.symm⟩
    intro m hm
    simpa using List.mem_of_mem_filter hm

/-- A step on a byte depends on the classes of the byte only. -/
theorem step_congr {threads : List (Expr Act)} {c d : UInt8}
    (h : ∀ t ∈ threads, ∀ k ∈ t.classes, k.mem c = k.mem d) : step threads c = step threads d := by
  have hmoves : threads.flatMap (Expr.moves c) = threads.flatMap (Expr.moves d) := by
    rw [List.flatMap_def, List.flatMap_def]
    congr 1
    exact List.map_congr_left fun t ht => Expr.moves_congr (h t ht)
  simp only [step, hmoves]

/-- A thread behind a step is behind a move. -/
theorem step_next {threads threads' : List (Expr Act)} {c : UInt8} {as : List Act}
    (h : step threads c = some (as, threads')) {t' : Expr Act} (ht : t' ∈ threads') :
    ∃ t ∈ threads, ∃ m ∈ t.moves c, m.next = t' ∧ ∀ x ∈ m.acts, x.2 ∈ as := by
  rcases step_eq_some h with ⟨ms, -, hms, rfl, rfl⟩
  rcases List.mem_map.mp (List.mem_eraseDups.mp ht) with ⟨m, hm, rfl⟩
  rcases hms m hm with ⟨t, htt, hmove⟩
  refine ⟨t, htt, m, hmove, rfl, ?_⟩
  intro x hx
  exact (mem_actions _ _).mpr ⟨m, hm, x.1, hx⟩

/-- An action of a step is an action of a move. -/
theorem step_act {threads threads' : List (Expr Act)} {c : UInt8} {as : List Act}
    (h : step threads c = some (as, threads')) {a : Act} (ha : a ∈ as) :
    ∃ t ∈ threads, ∃ m ∈ t.moves c, m.next ∈ threads' ∧ ∃ n, (n, a) ∈ m.acts := by
  rcases step_eq_some h with ⟨ms, -, hms, rfl, rfl⟩
  rcases (mem_actions _ _).mp ha with ⟨m, hm, n, hn⟩
  rcases hms m hm with ⟨t, htt, hmove⟩
  exact ⟨t, htt, m, hmove, List.mem_eraseDups.mpr (List.mem_map_of_mem hm), n, hn⟩

omit [DecidableEq Act] in
/-- A list of copies of one element has this element once. -/
theorem eraseDups_eq_singleton {α : Type} [BEq α] [LawfulBEq α] {l : List α} {a : α} (hne : l ≠ [])
    (hall : ∀ b ∈ l, b = a) : l.eraseDups = [a] := by
  cases l with
  | nil => exact absurd rfl hne
  | cons b l =>
      have hnil : l.filter (fun x => !x == b) = [] := by
        apply List.filter_eq_nil_iff.mpr
        intro x hx
        simp [hall x (List.mem_cons_of_mem b hx), hall b List.mem_cons_self]
      rw [List.eraseDups_cons, hnil, List.eraseDups_nil, hall b List.mem_cons_self]

/-- A step whose moves all lead to one expression leads to it alone. -/
theorem step_single {threads threads' : List (Expr Act)} {c : UInt8} {as : List Act}
    (h : step threads c = some (as, threads')) {e : Expr Act}
    (hall : ∀ t ∈ threads, ∀ m ∈ t.moves c, m.next = e) : threads' = [e] := by
  rcases step_eq_some h with ⟨ms, hne, hms, -, rfl⟩
  apply eraseDups_eq_singleton
  · simpa using hne
  · intro t ht
    rcases List.mem_map.mp ht with ⟨m, hm, rfl⟩
    rcases hms m hm with ⟨t, htt, hmove⟩
    exact hall t htt m hmove

/-! ## Input -/

/-- What a machine does on an input up to the first byte with the action
`stop`. -/
inductive Scan (Act : Type)
  /-- all bytes were taken -/
  | running (threads : List (Expr Act))
  /-- the action came with the last of `n` bytes -/
  | stopped (n : Nat) (threads : List (Expr Act))
  /-- there is no way on behind `n` bytes -/
  | failed (n : Nat)

/-- The same behind `k` more bytes. -/
def Scan.shift (k : Nat) : Scan Act → Scan Act
  | .running threads => .running threads
  | .stopped n threads => .stopped (n + k) threads
  | .failed n => .failed (n + k)

/-- Run a machine on an input. -/
def scan (stop : Act) : List (Expr Act) → List UInt8 → Scan Act
  | threads, [] => .running threads
  | threads, c :: cs =>
      match step threads c with
      | none => .failed 0
      | some (as, threads') =>
          if stop ∈ as then .stopped 1 threads' else (scan stop threads' cs).shift 1

omit [DecidableEq Act] in
/-- Shifts of a scan add up. -/
theorem Scan.shift_shift (j k : Nat) (r : Scan Act) : (r.shift j).shift k = r.shift (j + k) := by
  cases r with
  | running threads => rfl
  | stopped n threads => simp [Scan.shift, Nat.add_assoc]
  | failed n => simp [Scan.shift, Nat.add_assoc]

/-- A machine does not see how its input is cut. -/
theorem scan_append (stop : Act) (threads : List (Expr Act)) (xs ys : List UInt8) :
    scan stop threads (xs ++ ys) =
      match scan stop threads xs with
      | .running threads' => (scan stop threads' ys).shift xs.length
      | r => r := by
  induction xs generalizing threads with
  | nil => cases h : scan stop threads ys <;> simp [scan, Scan.shift, h]
  | cons c xs ih =>
      rw [List.cons_append, scan, scan]
      cases hstep : step threads c with
      | none => rfl
      | some r =>
          rcases r with ⟨as, threads'⟩
          simp only
          split
          · rfl
          · rw [ih threads']
            cases hscan : scan stop threads' xs with
            | running threads'' => exact Scan.shift_shift _ _ _
            | stopped n threads'' => rfl
            | failed n => rfl

/-- A scan that has stopped does not see what follows. -/
theorem scan_append_stopped {stop : Act} {threads threads' : List (Expr Act)} {xs : List UInt8}
    {n : Nat} (h : scan stop threads xs = .stopped n threads') (ys : List UInt8) :
    scan stop threads (xs ++ ys) = .stopped n threads' := by
  rw [scan_append, h]

/-- A machine stops within its input. -/
theorem scan_stopped_le {stop : Act} {threads threads' : List (Expr Act)} {xs : List UInt8}
    {n : Nat} (h : scan stop threads xs = .stopped n threads') : 0 < n ∧ n ≤ xs.length := by
  induction xs generalizing threads threads' n with
  | nil => simp [scan] at h
  | cons c xs ih =>
      rw [scan] at h
      split at h
      · simp at h
      · split at h
        · simp only [Scan.stopped.injEq] at h
          rw [← h.1, List.length_cons]
          omega
        · next as threads'' _ _ =>
          cases hscan : scan stop threads'' xs with
          | running ths => simp [hscan, Scan.shift] at h
          | failed k => simp [hscan, Scan.shift] at h
          | stopped k ths =>
              simp only [hscan, Scan.shift, Scan.stopped.injEq] at h
              have hk := ih hscan
              rw [List.length_cons]
              omega

/-- In front of the byte where a machine stops it is running. -/
theorem scan_take_running {stop : Act} {threads threads' : List (Expr Act)} {xs : List UInt8}
    {n k : Nat} (h : scan stop threads xs = .stopped n threads') (hk : k < n) :
    ∃ ths, scan stop threads (xs.take k) = .running ths ∧
      scan stop ths (xs.drop k) = .stopped (n - k) threads' := by
  have hlen := scan_stopped_le h
  have happ := scan_append stop threads (xs.take k) (xs.drop k)
  rw [List.take_append_drop, h] at happ
  have htake : (xs.take k).length = k := by
    rw [List.length_take]
    omega
  cases hfirst : scan stop threads (xs.take k) with
  | running ths =>
      refine ⟨ths, rfl, ?_⟩
      rw [hfirst] at happ
      cases hrest : scan stop ths (xs.drop k) with
      | running ths' => simp [hrest, Scan.shift] at happ
      | failed j => simp [hrest, Scan.shift] at happ
      | stopped j ths' =>
          simp only [hrest, Scan.shift, htake, Scan.stopped.injEq] at happ
          rw [happ.1, happ.2, Nat.add_sub_cancel]
  | failed j =>
      rw [hfirst] at happ
      simp at happ
  | stopped j ths =>
      rw [hfirst] at happ
      have hj := scan_stopped_le hfirst
      simp only [Scan.stopped.injEq] at happ
      omega

/-- A machine that stops does so on every input with the same beginning. -/
theorem scan_take_stopped {stop : Act} {threads threads' : List (Expr Act)} {xs : List UInt8}
    {n k : Nat} (h : scan stop threads xs = .stopped n threads') (hk : n ≤ k) :
    scan stop threads (xs.take k) = .stopped n threads' := by
  have happ := scan_append stop threads (xs.take k) (xs.drop k)
  rw [List.take_append_drop, h] at happ
  cases hfirst : scan stop threads (xs.take k) with
  | running ths =>
      rw [hfirst] at happ
      cases hrest : scan stop ths (xs.drop k) with
      | running ths' => simp [hrest, Scan.shift] at happ
      | failed j => simp [hrest, Scan.shift] at happ
      | stopped j ths' =>
          have hj := scan_stopped_le hrest
          simp only [hrest, Scan.shift, Scan.stopped.injEq, List.length_take] at happ
          rw [List.length_drop] at hj
          omega
  | failed j =>
      rw [hfirst] at happ
      simp at happ
  | stopped j ths =>
      rw [hfirst] at happ
      exact happ.symm

/-- The states that a machine reaches without the action `stop`. -/
inductive Reach (stop : Act) (e : Expr Act) : List (Expr Act) → Prop
  | start : Reach stop e (start e)
  | step {threads threads' : List (Expr Act)} {c : UInt8} {as : List Act} :
      Reach stop e threads → Ragel.step threads c = some (as, threads') → stop ∉ as →
      Reach stop e threads'

/-- A machine that is still running is in a state that it reaches. -/
theorem Reach.running {stop : Act} {e : Expr Act} {threads threads' : List (Expr Act)}
    (h : Reach stop e threads) {xs : List UInt8}
    (hscan : scan stop threads xs = .running threads') : Reach stop e threads' := by
  induction xs generalizing threads with
  | nil =>
      simp only [scan, Scan.running.injEq] at hscan
      exact hscan ▸ h
  | cons c xs ih =>
      rw [scan] at hscan
      split at hscan
      · simp at hscan
      · next as ths hstep =>
        split at hscan
        · simp at hscan
        · next hstop =>
          refine ih (h.step hstep hstop) ?_
          cases hrest : scan stop ths xs with
          | running ths' => simpa [hrest, Scan.shift] using hscan
          | stopped n ths' => simp [hrest, Scan.shift] at hscan
          | failed n => simp [hrest, Scan.shift] at hscan

/-- A machine stops in a step from a state that it reaches. -/
theorem Reach.stopped {stop : Act} {e : Expr Act} {threads threads' : List (Expr Act)}
    (h : Reach stop e threads) {xs : List UInt8} {n : Nat}
    (hscan : scan stop threads xs = .stopped n threads') :
    ∃ ths c as, xs[n - 1]? = some c ∧ Reach stop e ths ∧
      Ragel.step ths c = some (as, threads') ∧ stop ∈ as := by
  have hn := scan_stopped_le hscan
  rcases scan_take_running hscan (Nat.sub_lt hn.1 Nat.one_pos) with ⟨ths, hrun, hlast⟩
  have hone : n - (n - 1) = 1 := by omega
  rw [hone] at hlast
  cases hdrop : xs.drop (n - 1) with
  | nil =>
      rw [hdrop] at hlast
      simp [scan] at hlast
  | cons c cs =>
      have hc : xs[n - 1]? = some c := by
        have := congrArg (fun l => l[0]?) hdrop
        simpa using this
      rw [hdrop, scan] at hlast
      split at hlast
      · simp at hlast
      · next as ths' hstep =>
        split at hlast
        · next hstop =>
          simp only [Scan.stopped.injEq, true_and] at hlast
          exact ⟨ths, c, as, hc, h.running hrun, hlast ▸ hstep, hstop⟩
        · exfalso
          cases hrest : scan stop ths' cs with
          | running ths'' => simp [hrest, Scan.shift] at hlast
          | failed k => simp [hrest, Scan.shift] at hlast
          | stopped k ths'' =>
              have hk := scan_stopped_le hrest
              simp only [hrest, Scan.shift, Scan.stopped.injEq] at hlast
              omega

/-- A thread of a machine with the action at its end. -/
def Rooted (ord : Nat) (act : Act) (t : Expr Act) : Prop :=
  t = .eps ∨ ∃ x, t = .finishing ord act x ∧ x.avoids (fun a => a == act) = true

/-- The moves of such a thread: the action is on those that may end it. -/
theorem Rooted.move {ord : Nat} {act : Act} {t : Expr Act} (h : Rooted ord act t) {c : UInt8}
    {m : Move Act} (hm : m ∈ t.moves c) :
    Rooted ord act m.next ∧ ((∃ n, (n, act) ∈ m.acts) ↔ m.next.nullable = true) := by
  rcases h with rfl | ⟨x, rfl, hx⟩
  · simp [Expr.moves] at hm
  · rcases List.mem_map.mp hm with ⟨m₀, hm₀, rfl⟩
    have havoid := (moveOf_of_mem hm₀).avoids hx
    have hnone : ∀ n, (n, act) ∉ m₀.acts := by
      intro n hn
      have := havoid.1 _ hn
      simp at this
    simp only [Move.mapNext, Move.next_addFinish]
    refine ⟨?_, ?_⟩
    · cases hnext : m₀.next with
      | eps => exact .inl rfl
      | _ => exact .inr ⟨_, rfl, hnext ▸ havoid.2⟩
    · rw [Expr.nullable_wrap (.finishing ord act) _ fun _ => rfl]
      unfold Move.addFinish
      split
      next hnull => simp [hnull]
      next hnull => simpa [hnull] using hnone

/-- All threads of the machine keep the action at their ends. -/
theorem Reach.rooted {stop act : Act} {ord : Nat} {x : Expr Act}
    (hx : x.avoids (fun a => a == act) = true) {threads : List (Expr Act)}
    (h : Reach stop (.finishing ord act x) threads) : ∀ t ∈ threads, Rooted ord act t := by
  induction h with
  | start =>
      intro t ht
      rw [List.mem_singleton.mp ht]
      exact .inr ⟨x, rfl, hx⟩
  | step _ hstep _ ih =>
      intro t' ht'
      rcases step_next hstep ht' with ⟨t, ht, m, hm, rfl, -⟩
      exact ((ih t ht).move hm).1

/-- The finishing action of a machine runs exactly on the bytes that end in a
final state. -/
theorem Reach.finishing_mem_iff {stop act : Act} {ord : Nat} {x : Expr Act}
    (hx : x.avoids (fun a => a == act) = true) {threads threads' : List (Expr Act)}
    (h : Reach stop (.finishing ord act x) threads) {c : UInt8} {as : List Act}
    (hstep : Ragel.step threads c = some (as, threads')) :
    act ∈ as ↔ isFinal threads' = true := by
  rw [isFinal, List.any_eq_true]
  constructor
  · intro hact
    rcases step_act hstep hact with ⟨t, ht, m, hm, hnext, n, hn⟩
    exact ⟨m.next, hnext, ((h.rooted hx t ht).move hm).2.mp ⟨n, hn⟩⟩
  · rintro ⟨t', ht', hnull⟩
    rcases step_next hstep ht' with ⟨t, ht, m, hm, rfl, hacts⟩
    rcases ((h.rooted hx t ht).move hm).2.mpr hnull with ⟨n, hn⟩
    exact hacts _ hn

/-- A thread that can end with a byte comes from an expression that can. -/
theorem Reach.lastMem {stop : Act} {e : Expr Act} {threads : List (Expr Act)}
    (h : Reach stop e threads) {d : UInt8} :
    ∀ t ∈ threads, t.lastMem d = true → e.lastMem d = true := by
  induction h with
  | start =>
      intro t ht hlast
      rw [List.mem_singleton.mp ht] at hlast
      exact hlast
  | step _ hstep _ ih =>
      intro t' ht' hlast
      rcases step_next hstep ht' with ⟨t, ht, m, hm, rfl, -⟩
      exact ih t ht ((moveOf_of_mem hm).lastMem_of_next hlast)

/-- A byte that ends in a final state is the last byte of a word. -/
theorem Reach.lastMem_of_isFinal {stop : Act} {e : Expr Act} {threads threads' : List (Expr Act)}
    (h : Reach stop e threads) {c : UInt8} {as : List Act}
    (hstep : Ragel.step threads c = some (as, threads')) (hfinal : isFinal threads' = true) :
    e.lastMem c = true := by
  rw [isFinal, List.any_eq_true] at hfinal
  rcases hfinal with ⟨t', ht', hnull⟩
  rcases step_next hstep ht' with ⟨t, ht, m, hm, rfl, -⟩
  exact h.lastMem t ht ((moveOf_of_mem hm).lastMem_of_nullable hnull)

end Ragel
end Lib
end Tiger
