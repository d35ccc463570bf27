import Tiger.Lib.Machine

/-!
# Parts of the input of state machines with embedded actions

A grammar marks the parts of its input with actions at their first bytes: a machine of
`Lib.Ragel` takes such a part with some actions on the first byte and with none behind it.
The state behind a byte only depends on the classes that the threads look at next.

Main results:

- Theorem `quiet_loop`: bytes without actions.
- Theorem `takes_cons`: a part from its first byte and the bytes behind it.
- Theorem `step_congr_heads`: two bytes that the next classes do not tell apart have the
  same step.
- Theorem `step_quiet`: threads that go on side by side without actions.
-/

namespace Tiger
namespace Lib
namespace Ragel

variable {Act : Type}

/-! ## The classes of the next byte -/

/-- The classes that the moves of an expression look at. -/
def Expr.heads : Expr Act → List ByteClass
  | .eps => []
  | .chars k => [k]
  | .cat a b => a.heads ++ (if a.nullable then b.heads else [])
  | .alt a b => a.heads ++ b.heads
  | .star a => a.heads
  | .entering _ _ e => e.heads
  | .leaving _ _ e => e.heads
  | .finishing _ _ e => e.heads
  | .prioAll _ _ e => e.heads
  | .prioStart _ _ e => e.heads
  | .prioFinish _ _ e => e.heads

/-- The moves on a byte depend on the next classes only. -/
theorem Expr.moves_congr_heads {c d : UInt8} {e : Expr Act}
    (h : ∀ k ∈ e.heads, k.mem c = k.mem d) : e.moves c = e.moves d := by
  induction e with
  | eps => rfl
  | chars k => simp only [moves, h k (List.mem_singleton.mpr rfl)]
  | cat a b iha ihb =>
      have ha := iha fun k hk => h k (List.mem_append_left _ hk)
      by_cases hnull : a.nullable = true
      · have hb := ihb fun k hk => h k (List.mem_append_right _ (by rw [if_pos hnull]; exact hk))
        simp only [moves, ha, hb]
      · simp only [moves, ha, if_neg hnull]
  | alt a b iha ihb =>
      have ha := iha fun k hk => h k (List.mem_append_left _ hk)
      have hb := ihb fun k hk => h k (List.mem_append_right _ hk)
      simp only [moves, ha, hb]
  | star a ih => simp only [moves, ih h]
  | entering ord act e ih => simp only [moves, ih h]
  | leaving ord act e ih => simp only [moves, ih h]
  | finishing ord act e ih => simp only [moves, ih h]
  | prioAll name value e ih => simp only [moves, ih h]
  | prioStart name value e ih => simp only [moves, ih h]
  | prioFinish name value e ih => simp only [moves, ih h]

/-- There are no moves on a byte that is in none of the next classes. -/
theorem Expr.moves_eq_nil_of_heads {c : UInt8} {e : Expr Act} (h : ∀ k ∈ e.heads, k.mem c = false) :
    e.moves c = [] := by
  induction e with
  | eps => rfl
  | chars k => simp only [moves, h k (List.mem_singleton.mpr rfl), Bool.false_eq_true, if_false]
  | cat a b iha ihb =>
      have ha := iha fun k hk => h k (List.mem_append_left _ hk)
      by_cases hnull : a.nullable = true
      · have hb := ihb fun k hk => h k (List.mem_append_right _ (by rw [if_pos hnull]; exact hk))
        simp only [moves, ha, hb, hnull, List.map_nil, if_true, List.append_nil]
      · simp only [moves, ha, if_neg hnull, List.map_nil, List.append_nil]
  | alt a b iha ihb =>
      have ha := iha fun k hk => h k (List.mem_append_left _ hk)
      have hb := ihb fun k hk => h k (List.mem_append_right _ hk)
      simp only [moves, ha, hb, List.append_nil]
  | star a ih => simp only [moves, ih h, List.map_nil, ite_self, List.append_nil]
  | entering ord act e ih => simp only [moves, ih h, List.map_nil]
  | leaving ord act e ih => simp only [moves, ih h, List.map_nil]
  | finishing ord act e ih => simp only [moves, ih h, List.map_nil]
  | prioAll name value e ih => simp only [moves, ih h, List.map_nil]
  | prioStart name value e ih => simp only [moves, ih h, List.map_nil]
  | prioFinish name value e ih => simp only [moves, ih h, List.map_nil]

variable [DecidableEq Act]

/-- A step on a byte depends on the next classes only. -/
theorem step_congr_heads {threads : List (Expr Act)} {c d : UInt8}
    (h : ∀ t ∈ threads, ∀ k ∈ t.heads, k.mem c = k.mem d) : step threads c = step threads d := by
  have hmoves : threads.flatMap (Expr.moves c) = threads.flatMap (Expr.moves d) := by
    rw [List.flatMap_def, List.flatMap_def]
    congr 1
    exact List.map_congr_left fun t ht => Expr.moves_congr_heads (h t ht)
  simp only [step, hmoves]

/-- A step depends on the moves of the threads only. -/
theorem step_congr_moves {threads threads' : List (Expr Act)} {c : UInt8}
    (h : threads.flatMap (Expr.moves c) = threads'.flatMap (Expr.moves c)) :
    step threads c = step threads' c := by
  simp only [step, h]

/-- Without duplicates there is nothing to erase. -/
theorem eraseDups_of_nodup {α : Type} [BEq α] [LawfulBEq α] {l : List α} (h : l.Nodup) :
    l.eraseDups = l := by
  induction l with
  | nil => rfl
  | cons a l ih =>
      rcases List.nodup_cons.mp h with ⟨hnot, hl⟩
      have hkeep : (l.filter fun b => !b == a) = l := by
        apply List.filter_eq_self.mpr
        intro b hb
        have hne : b ≠ a := fun hba => hnot (hba ▸ hb)
        simp [hne]
      rw [List.eraseDups_cons, hkeep, ih hl]

/-- Moves without actions, none of which outranks another, are all made. -/
theorem step_quiet {threads : List (Expr Act)} {c : UInt8} {ms : List (Move Act)}
    (hmoves : threads.flatMap (Expr.moves c) = ms) (hne : ms ≠ [])
    (hacts : ∀ m ∈ ms, m.acts = []) (hrank : ∀ m ∈ ms, ∀ m' ∈ ms, m.outrankedBy m' = false)
    (hnodup : (ms.map Move.next).Nodup) : step threads c = some ([], ms.map Move.next) := by
  have hall : survivors ms = ms := by
    apply List.filter_eq_self.mpr
    intro m hm
    have hnone : ms.any (fun m' => m.outrankedBy m') = false :=
      List.any_eq_false.mpr fun m' hm' => by simp [hrank m hm m' hm']
    simp [hnone]
  have hactions : actions ms = [] := by
    have hflat : ms.flatMap Move.acts = [] := List.flatMap_eq_nil_iff.mpr hacts
    rw [actions, hflat]
    rfl
  rw [step, hmoves, hall]
  simp only [List.isEmpty_iff, hne, if_false, hactions, eraseDups_of_nodup hnodup]

/-! ## Parts of the input -/

/-- The state behind bytes that the machine takes without actions. -/
def quiet : List (Expr Act) → List UInt8 → Option (List (Expr Act))
  | threads, [] => some threads
  | threads, c :: cs =>
      match step threads c with
      | some ([], threads') => quiet threads' cs
      | _ => none

/-- The actions on the first byte of a part that has no others, and the state behind it. -/
def takes (threads : List (Expr Act)) : List UInt8 → Option (List Act × List (Expr Act))
  | [] => none
  | c :: cs => (step threads c).bind fun s => (quiet s.2 cs).map fun threads' => (s.1, threads')

variable {threads threads₁ threads₂ : List (Expr Act)} {c : UInt8} {as : List Act}
  {xs : List UInt8}

theorem quiet_cons (hstep : step threads c = some ([], threads₁)) :
    quiet threads (c :: xs) = quiet threads₁ xs := by
  rw [quiet, hstep]

/-- The first byte of a quiet text is quiet. -/
theorem quiet_cons_inv (h : quiet threads (c :: xs) = some threads₂) :
    ∃ threads₁, step threads c = some ([], threads₁) ∧ quiet threads₁ xs = some threads₂ := by
  rw [quiet] at h
  split at h
  next threads₁ hstep => exact ⟨threads₁, hstep, h⟩
  next => simp at h

/-- Bytes that a state takes without actions and without being left. -/
theorem quiet_loop (hloop : ∀ c ∈ xs, step threads c = some ([], threads)) :
    quiet threads xs = some threads := by
  induction xs with
  | nil => rfl
  | cons c xs ih =>
      rw [quiet_cons (hloop c List.mem_cons_self)]
      exact ih fun d hd => hloop d (List.mem_cons_of_mem c hd)

/-- A byte with actions in front of a quiet text. -/
theorem takes_cons (hstep : step threads c = some (as, threads₁))
    (hrest : quiet threads₁ xs = some threads₂) :
    takes threads (c :: xs) = some (as, threads₂) := by
  rw [takes, hstep, Option.bind_some, hrest, Option.map_some]

theorem takes_single (hstep : step threads c = some (as, threads₁)) :
    takes threads [c] = some (as, threads₁) :=
  takes_cons hstep rfl

/-- A text that is taken has its actions on the first byte. -/
theorem takes_cons_inv (h : takes threads (c :: xs) = some (as, threads₂)) :
    ∃ threads₁, step threads c = some (as, threads₁) ∧ quiet threads₁ xs = some threads₂ := by
  rcases Option.bind_eq_some_iff.mp h with ⟨⟨as', threads₁⟩, hstep, hmap⟩
  rcases Option.map_eq_some_iff.mp hmap with ⟨threads', hrest, heq⟩
  rcases Prod.mk.inj heq with ⟨rfl, rfl⟩
  exact ⟨threads₁, hstep, hrest⟩

end Ragel
end Lib
end Tiger
