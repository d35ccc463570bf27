import Tiger.Uri.Runs

/-!
# URIs - a colon in a user

The first colon behind the slashes ends the reading as a host: its action saves what has been
read and takes the mark away.  The reading as a user goes on without a mark, or with the one of
the port, so that `@` saves no user or only the end of it.
-/

namespace Tiger
namespace Uri

open Lib.Ragel Lib.Ragel.Expr Grammar
open Http (Text text)

variable {s w x y rest : Text} {p : Nat} {c : UInt8} {cs : List E} {ps ps' : Parser} {u : URI}
    {t : E}
  {m : Move UriAction}

/-! ## The user in front of the colon -/

/-- What a turn of `user` is without the colon. -/
def plainTurn : E := choice [chars unreserved, pctEncoded, chars subDelims]

/-- A character of a user is a plain one or a colon. -/
theorem mem_turn (h : c :: w ∈
    (choice [chars unreserved, pctEncoded, chars subDelims, lit [':']] : E).lang) :
    c :: w ∈ plainTurn.lang ∨ c = 58 := by
  rcases h with h | h | h | h
  · exact .inl (.inl h)
  · exact .inl (.inr (.inl h))
  · exact .inl (.inr (.inr h))
  · rcases cons_mem_lang_iff.mp h with ⟨m, hm, -⟩
    exact .inr ((mem_moves_lit (by decide)).mp hm).1

/-- A user up to its first colon is a host. -/
theorem regName_of_user (h : x ++ 58 :: y ∈ user.lang) (hx : 58 ∉ x) : x ∈ regName.lang := by
  -- induction on the length: a turn of `user` that is not the colon is one of `reg_name`
  induction hn : x.length using Nat.strong_induction_on generalizing x with
  | _ n ih =>
    cases x with
    | nil => exact Language.nil_mem_kstar _
    | cons c x =>
        rcases cons_mem_kstar_iff.mp h with ⟨a, b, hturn, hrest, hab⟩
        rw [List.mem_cons, not_or] at hx
        have hplain : c :: a ∈ plainTurn.lang := (mem_turn hturn).resolve_right (Ne.symm hx.1)
        have hnot : 58 ∉ a := fun hmem =>
          not_mem_of_without (by decide) hplain (List.mem_cons_of_mem c hmem)
        have hsplit : ∃ z, x = a ++ z ∧ b = z ++ 58 :: y := by
          rcases List.append_eq_append_iff.mp hab with ⟨z, hxz, hbz⟩ | ⟨z, haz, hyz⟩
          · exact ⟨z, hxz, hbz⟩
          · cases z with
            | nil => exact ⟨[], by simpa using haz.symm, by simpa using hyz.symm⟩
            | cons d z =>
                rw [haz, (List.cons.inj hyz).1] at hnot
                simp at hnot
        rcases hsplit with ⟨z, rfl, rfl⟩
        have hz : z ∈ regName.lang := by
          refine ih z.length ?_ hrest (fun hmem => hx.2 (List.mem_append_right a hmem)) rfl
          rw [← hn, List.length_cons, List.length_append]
          omega
        exact cons_mem_kstar_iff.mpr ⟨a, z, hplain, hz, rfl⟩

/-! ## The user behind the colon -/

/-- The threads behind the first colon of an authority. -/
def AfterColon (t : E) : Prop := AtPort t ∨ InPort t

/-- Behind a colon, a byte at most sets the mark. -/
theorem moves_afterColon (ht : AfterColon t) (hc : c ∉ 64 :: authorityEnds) (hm : m ∈ t.moves c) :
    (∀ k ∈ m.acts, k.2 = UriAction.markh) ∧ AfterColon m.next := by
  have hends : c ∉ authorityEnds := fun hmem => hc (List.mem_cons_of_mem _ hmem)
  rcases ht with (⟨x, hx, rfl⟩ | rfl) | ⟨x, hx, rfl⟩
  · rcases moves_inUser hx hm with ⟨-, hacts, hnext⟩ | ⟨rfl, -⟩
    · exact ⟨by simp [hacts], .inl (.inl hnext)⟩
    · exact absurd List.mem_cons_self hc
  · have hmove := moves_beforePort hends hm
    exact ⟨by simp [hmove.2.1], .inr hmove.2.2⟩
  · have hmove := moves_inPort hx hends hm
    exact ⟨by simp [hmove.2.1], .inr hmove.2.2⟩

/-- Behind a colon, the `@` saves the user. -/
theorem moves_afterColon_at (ht : AfterColon t) (hm : m ∈ t.moves 64) :
    m.acts = [(3, .saveUser)] ∧ m.next = inAuthority (cat hostPart portPart) := by
  rcases ht with (ht | rfl) | ⟨x, hx, rfl⟩
  · exact moves_inUser_at ht hm
  · exact absurd (by decide) (moves_beforePort (by decide) hm).1
  · exact absurd (by decide) (moves_inPort hx (by decide) hm).1

/-- Behind the colon at position `q`: there is no mark in front of it, and no user yet. -/
structure Lost (q : Nat) (ps : Parser) : Prop where
  threads : ∀ t ∈ ps.cs, AfterColon t
  mark : ∀ k ∈ ps.mark, q < k
  user : ps.uri.user = []

/-- The front of the user stays lost at the next byte. -/
theorem Lost.next {q : Nat} (h : Lost q ps) (hq : q < p) (hc : c ∉ 64 :: authorityEnds)
    {as : List UriAction}
    (hstep : step ps.cs c = some (as, cs)) (hacts : Parser.actions s p as ps = some ps') :
    Lost q { ps' with cs := cs } := by
  have hmarkh : ∀ a ∈ as, a = .markh := by
    intro a ha
    rcases step_act hstep ha with ⟨t, ht, m, hm, -, n, hn⟩
    exact (moves_afterColon (h.threads t ht) hc hm).1 (n, a) hn
  have hkept : (∀ k ∈ ps'.mark, q < k) ∧ ps'.uri.user = [] := by
    refine actions_invariant (I := fun ps => (∀ k ∈ ps.mark, q < k) ∧ ps.uri.user = []) ?_
      ⟨h.mark, h.user⟩ hacts
    intro a ha ps₁ ps₂ hI haction
    rw [hmarkh a ha] at haction
    cases haction
    refine ⟨?_, hI.2⟩
    rintro k ⟨⟩
    exact hq
  refine ⟨?_, hkept.1, hkept.2⟩
  intro t' ht'
  rcases step_next hstep ht' with ⟨t, ht, m, hm, rfl, -⟩
  exact (moves_afterColon (h.threads t ht) hc hm).2

/-- The `@` behind a user with a colon. -/
theorem Lost.save {q : Nat} (h : Lost q ps) (hq : q < p) {as : List UriAction}
    (hstep : step ps.cs 64 = some (as, cs)) (hacts : Parser.actions s p as ps = some ps') :
    Without .saveUser cs ∧ ps'.uri.user.length < p - q := by
  constructor
  · intro t' ht'
    rcases step_next hstep ht' with ⟨t, ht, m, hm, rfl, -⟩
    rw [(moves_afterColon_at (h.threads t ht) hm).2]
    decide
  · have hsave : ∀ a ∈ as, a = .saveUser := by
      intro a ha
      rcases step_act hstep ha with ⟨t, ht, m, hm, -, n, hn⟩
      rw [(moves_afterColon_at (h.threads t ht) hm).1, List.mem_singleton] at hn
      exact congrArg Prod.snd hn
    have hstart : (∀ k ∈ ps.mark, q < k) ∧ ps.uri.user.length < p - q := by
      refine ⟨h.mark, ?_⟩
      rw [h.user, List.length_nil]
      omega
    refine (actions_invariant (I := fun ps => (∀ k ∈ ps.mark, q < k) ∧ ps.uri.user.length < p - q)
      ?_ hstart hacts).2
    intro a ha ps₁ ps₂ hI haction
    rw [hsave a ha] at haction
    cases haction
    rw [Parser.save]
    split
    next k hk =>
        -- the text from the mark on is shorter than the text from the colon on
        have hlt := hI.1 k hk
        have hlength : (Parser.string s k p).length ≤ p - k := by
          rw [Parser.string]
          exact List.length_take_le _ _
        refine ⟨by simp, ?_⟩
        simp only
        omega
    next => exact hI

/-- The first colon behind the slashes. -/
theorem reads_colon (hx : x ∈ regName.lang) (hu : u.user = []) :
    ∃ cs v, Reads s p (x ++ [58]) ⟨[inAuthority (authority 2)], none, u⟩ ⟨cs, none, v⟩ ∧
      (∀ t ∈ cs, AtPort t) ∧ v.user = [] := by
  by_cases hne : x = []
  · subst hne
    have hstep : step [inAuthority (authority 2)] 58 =
        some ([.markh, .saveHost], [inUser user, inAuthority beforePort]) := by rfl
    refine ⟨_, _, reads_step hstep rfl, ?_, hu⟩
    intro t ht
    rcases List.mem_cons.mp ht with rfl | ht
    · exact .inl ⟨user, calm_user, rfl⟩
    · exact .inr (List.mem_singleton.mp ht)
  · rcases reads_host (.inl rfl) hx hne with ⟨cs, hreads, hbehind, -⟩
    rcases step_colon hbehind with ⟨cs', hstep, hT, -, -⟩
    exact ⟨cs', _, (hreads s p none u).append (reads_step hstep rfl), fun t ht => (hT t ht).2, hu⟩

/-- A user with a colon is not saved as a whole. -/
theorem user_lost (hw : x ++ 58 :: y ∈ user.lang) (hx : 58 ∉ x) (hu : u.user = [])
    (h : Parser.exec s p (x ++ 58 :: y ++ 64 :: rest) ⟨[inAuthority (authority 2)], none, u⟩ =
      some (some ps')) :
    Without .saveUser ps'.cs ∧ ps'.uri.user.length < (x ++ 58 :: y).length := by
  rcases reads_colon (s := s) (p := p) (regName_of_user hw hx) hu with ⟨cs, v, hreads, hcs, hv⟩
  have hsplit : x ++ 58 :: y ++ 64 :: rest = (x ++ [58]) ++ (y ++ 64 :: rest) := by simp
  rw [hsplit, hreads, List.length_append, List.length_singleton] at h
  -- no byte of the user is `@` or ends the authority
  have hkeep : ∀ c ∈ y, ∀ i ps as cs ps₁, (p + x.length < i ∧ Lost (p + x.length) ps) →
      step ps.cs c = some (as, cs) → Parser.actions s i as ps = some ps₁ →
      p + x.length < i + 1 ∧ Lost (p + x.length) { ps₁ with cs := cs } := by
    rintro c hc i ps as cs ps₁ ⟨hi, hlost⟩ hstep hacts
    have hbyte := calm_user.not_mem hw (List.mem_append_right x (List.mem_cons_of_mem 58 hc))
    exact ⟨by omega, hlost.next hi hbyte hstep hacts⟩
  have hlost : Lost (p + x.length) ⟨cs, none, v⟩ := ⟨fun t ht => .inl (hcs t ht), by simp, hv⟩
  rcases exec_invariant hkeep ⟨by omega, hlost⟩ h with ⟨ps₁, ⟨hlt, hlost₁⟩, hexec⟩
  rw [Parser.exec] at hexec
  split at hexec
  next => cases hexec
  next as cs₁ hstep =>
      rcases Option.bind_eq_some_iff.mp hexec with ⟨ps₂, hacts, hrest⟩
      have hsaved := hlost₁.save hlt hstep hacts
      have hwithout : Without .saveUser ({ ps₂ with cs := cs₁ } : Parser).cs := hsaved.1
      have hkept := exec_keeps setBy_user hwithout hrest
      refine ⟨hkept.1, ?_⟩
      rw [hkept.2, List.length_append, List.length_cons]
      have hlength := hsaved.2
      simp only
      omega

end Uri
end Tiger
