import Tiger.Uri.Components

/-!
# URIs - what a run keeps

`Reads` follows the parser where its threads are known.  This module is about every run that
does not end in the error state: a property of the parser that each step keeps, and a member of
the URI that no thread has an action for.
-/

namespace Tiger
namespace Uri

open Lib.Ragel Lib.Ragel.Expr Grammar
open Http (Text text)

variable {s w rest : Text} {p : Nat} {ps ps' : Parser}

/-- What each step on a byte of the word keeps, the word keeps. -/
theorem exec_invariant {I : Nat → Parser → Prop}
    (hstep : ∀ c ∈ w, ∀ p ps as cs ps₁, I p ps → step ps.cs c = some (as, cs) →
      Parser.actions s p as ps = some ps₁ → I (p + 1) { ps₁ with cs := cs })
    (hI : I p ps) (h : Parser.exec s p (w ++ rest) ps = some (some ps')) :
    ∃ ps₁, I (p + w.length) ps₁ ∧ Parser.exec s (p + w.length) rest ps₁ = some (some ps') := by
  induction w generalizing p ps with
  | nil => exact ⟨ps, hI, h⟩
  | cons c w ih =>
      rw [List.cons_append, Parser.exec] at h
      split at h
      next => cases h
      next as cs hcs =>
          rcases Option.bind_eq_some_iff.mp h with ⟨ps₁, hacts, hrest⟩
          have hnext := hstep c List.mem_cons_self p ps as cs ps₁ hI hcs hacts
          rcases ih (fun d hd => hstep d (List.mem_cons_of_mem c hd)) hnext hrest with
            ⟨ps₂, hI₂, hexec⟩
          rw [List.length_cons, Nat.add_comm w.length 1, ← Nat.add_assoc]
          exact ⟨ps₂, hI₂, hexec⟩

/-- What each of some actions keeps, all of them keep. -/
theorem actions_invariant {I : Parser → Prop} {as : List UriAction}
    (haction : ∀ a ∈ as, ∀ ps ps₁, I ps → Parser.action s p ps a = some ps₁ → I ps₁) (hI : I ps)
    (h : Parser.actions s p as ps = some ps') : I ps' := by
  induction as generalizing ps with
  | nil =>
      cases h
      exact hI
  | cons a as ih =>
      rw [Parser.actions, List.foldlM_cons] at h
      rcases Option.bind_eq_some_iff.mp h with ⟨ps₁, ha, hrest⟩
      exact ih (fun b hb => haction b (List.mem_cons_of_mem a hb))
        (haction a List.mem_cons_self ps ps₁ hI ha) hrest

/-! ## Members without an action -/

/-- The member that an action sets, with a text or a number. -/
def UriAction.set (v : Text) (n : Int) (u : URI) : UriAction → URI
  | .marku => u
  | .markh => u
  | .saveScheme => { u with scheme := v }
  | .savePort => { u with port := n }
  | .saveUser => { u with user := v }
  | .saveHost => { u with host := v }
  | .savePath => { u with path := v }
  | .saveQuery => { u with query := v }
  | .saveFragment => { u with fragment := v }

/-- Saving sets the member or does nothing. -/
theorem save_uri {set : Text → URI → URI} :
    (ps.save s p set).uri = ps.uri ∨ ∃ v, (ps.save s p set).uri = set v ps.uri := by
  rw [Parser.save]
  split
  · exact .inr ⟨_, rfl⟩
  · exact .inl rfl

/-- An action sets its member, or none. -/
theorem action_uri {a : UriAction} (h : Parser.action s p ps a = some ps') :
    ps'.uri = ps.uri ∨ ∃ v n, ps'.uri = a.set v n ps.uri := by
  have hsaved : ∀ {set : Text → URI → URI}, (∀ v, set v ps.uri = a.set v 0 ps.uri) →
      ps' = ps.save s p set →
      ps'.uri = ps.uri ∨ ∃ v n, ps'.uri = a.set v n ps.uri := by
    rintro set hset rfl
    rcases @save_uri s p ps set with hsame | ⟨v, hv⟩
    · exact .inl hsame
    · exact .inr ⟨v, 0, hv.trans (hset v)⟩
  cases a with
  | marku | markh =>
      cases h
      exact .inl rfl
  | saveScheme =>
      simp only [Parser.action] at h
      split at h
      · cases h
        exact .inr ⟨_, 0, rfl⟩
      · cases h
  | savePort =>
      simp only [Parser.action] at h
      split at h
      · split at h
        · cases h
          exact .inr ⟨[], _, rfl⟩
        · cases h
          exact .inl rfl
      · cases h
  | saveUser | saveHost | savePath | saveQuery | saveFragment =>
      exact hsaved (fun _ => rfl) (Option.some.inj h).symm

section Keeps

variable {α : Type} {field : URI → α} {only : UriAction}

/-- The member of the URI is set by one action only. -/
def SetBy (field : URI → α) (only : UriAction) : Prop :=
  ∀ s p ps ps₁ a, a ≠ only → Parser.action s p ps a = some ps₁ → field ps₁.uri = field ps.uri

/-- Actions that do not set a member keep it. -/
theorem SetBy.actions (h : SetBy field only) {as : List UriAction} (has : ∀ a ∈ as, a ≠ only)
    (hacts : Parser.actions s p as ps = some ps') : field ps'.uri = field ps.uri := by
  refine actions_invariant (I := fun ps₁ => field ps₁.uri = field ps.uri) ?_ rfl hacts
  intro a ha ps₁ ps₂ hI haction
  exact (h s p ps₁ ps₂ a (has a ha) haction).trans hI

/-- No thread has the action. -/
def Without (only : UriAction) (cs : List E) : Prop :=
  ∀ t ∈ cs, t.avoids (fun a => a == only) = true

/-- A byte does none of the left out actions. -/
theorem Without.step {cs cs' : List E} (h : Without only cs) {c : UInt8} {as : List UriAction}
    (hstep : step cs c = some (as, cs')) : (∀ a ∈ as, a ≠ only) ∧ Without only cs' := by
  constructor
  · intro a ha
    rcases step_act hstep ha with ⟨t, ht, m, hm, -, n, hn⟩
    have havoids := (moveOf_of_mem hm).avoids (h t ht)
    simpa using havoids.1 (n, a) hn
  · intro t' ht'
    rcases step_next hstep ht' with ⟨t, ht, m, hm, rfl, -⟩
    exact ((moveOf_of_mem hm).avoids (h t ht)).2

/-- A run without the action keeps the member. -/
theorem exec_keeps (h : SetBy field only) (hcs : Without only ps.cs)
    (hexec : Parser.exec s p w ps = some (some ps')) :
    Without only ps'.cs ∧ field ps'.uri = field ps.uri := by
  have hsteps : ∀ c ∈ w, ∀ p ps₀ as cs ps₁, (Without only ps₀.cs ∧ field ps₀.uri = field ps.uri) →
      step ps₀.cs c = some (as, cs) → Parser.actions s p as ps₀ = some ps₁ →
      Without only cs ∧ field ps₁.uri = field ps.uri := by
    intro c _ p ps₀ as cs ps₁ hI hstep hacts
    have hwithout := hI.1.step hstep
    exact ⟨hwithout.2, (h.actions hwithout.1 hacts).trans hI.2⟩
  rw [← List.append_nil w] at hexec
  rcases exec_invariant (I := fun _ ps₀ => Without only ps₀.cs ∧ field ps₀.uri = field ps.uri)
    hsteps ⟨hcs, rfl⟩
    hexec with ⟨ps₁, hI, hend⟩
  cases hend
  exact hI

/-- The end of a run without the action keeps the member. -/
theorem atEof_keeps (h : SetBy field only) (hcs : Without only ps.cs) {u : URI}
    (hend : ps.atEof s = some (some u)) : field u = field ps.uri := by
  rw [Parser.atEof] at hend
  split at hend
  · rcases Option.map_eq_some_iff.mp hend with ⟨ps₁, hacts, hu⟩
    cases hu
    refine h.actions ?_ hacts
    intro a ha
    rcases mem_finalActions ha with ⟨t, ht, n, hn⟩
    simpa using avoids_out (hcs t ht) (n, a) hn
  · cases hend

/-- A member that only one action sets. -/
theorem setBy_of_set (h : ∀ a ≠ only, ∀ v n u, field (a.set v n u) = field u) :
    SetBy field only := by
  intro s p ps ps₁ a ha haction
  rcases action_uri haction with hsame | ⟨v, n, hset⟩
  · rw [hsame]
  · rw [hset, h a ha]

end Keeps

/-- The user is set by `save_user`. -/
theorem setBy_user : SetBy URI.user .saveUser := by
  apply setBy_of_set
  intro a ha v n u
  cases a <;> first | rfl | exact absurd rfl ha

/-- The scheme is set by `save_scheme`. -/
theorem setBy_scheme : SetBy URI.scheme .saveScheme := by
  apply setBy_of_set
  intro a ha v n u
  cases a <;> first | rfl | exact absurd rfl ha

end Uri
end Tiger
