import Mathlib.Tactic
import Tiger.Lib.Loop

/-!
# Loops of short transfers

A call is asked to move some number of bytes and moves some of them, or fails with a result that
is not positive.  A loop of such calls goes on until a number of bytes has been moved; it may also
be left at a result.

Main results:

- Theorem `exits_exact`: a loop that is left at the first result that is not positive moves all
  bytes, or those in front of this result, and in both cases nothing else.
- Theorem `results_of_loop`: the results of a loop that returns and that no result leaves add up
  to the number of bytes at least.
-/

namespace Tiger
namespace Lib
namespace Transfer

variable {State Failure : Type}

/-- A call that is asked to move a number of bytes: its result and the state behind it. -/
abbrev Call (State Failure : Type) := State → Nat → Except Failure Int × State

/-- One round of a loop that moves `len` bytes.  The variable of the loop is the number of bytes
that are left; `stops` is the test of a result, and `cast` the conversion to the result type. -/
def round (call : Call State Failure) (stops : Int → Bool) (cast : Int → Int) (len : Nat)
    (p : Int × State) : (Int × State) ⊕ (Except Failure Int × State) :=
  if p.1 > 0 then
    match call p.2 p.1.toNat with
    | (.error e, s) => .inr (.error e, s)
    | (.ok r, s) => if stops r then .inr (.ok (cast r), s) else .inl (p.1 - r, s)
  else .inr (.ok (cast len), p.2)

variable {call : Call State Failure} {stops : Int → Bool} {cast : Int → Int} {len : Nat}

/-- With nothing left, the loop ends with the whole length. -/
theorem exits_done (s : State) :
    Exits (round call stops cast len) (((0 : Nat) : Int), s) (.ok (cast len), s) := by
  rw [exits_of_leave (r := (.ok (cast len), s))]
  exact if_neg (by simp)

/-- A call that transfers something leaves the rest for the next round. -/
theorem round_next (cast : Int → Int) (len : Nat) {left : Int} {r : Int} {s s' : State}
    (hleft : 0 < left)
    (hcall : call s left.toNat = (.ok r, s')) (hgo : stops r = false) :
    round call stops cast len (left, s) = .inl (left - r, s') := by
  simp only [round, gt_iff_lt, hleft, if_true, hcall, hgo, Bool.false_eq_true, if_false]

/-- A call that stops ends the loop with its result. -/
theorem round_stop (cast : Int → Int) (len : Nat) {left : Int} {r : Int} {s s' : State}
    (hleft : 0 < left)
    (hcall : call s left.toNat = (.ok r, s')) (hstop : stops r = true) :
    round call stops cast len (left, s) = .inr (.ok (cast r), s') := by
  simp only [round, gt_iff_lt, hleft, if_true, hcall, hstop]

/-- How a loop of transfers ends.  All bytes are moved, or the loop is left at the first result
that is not positive; `Moved` holds of the state behind the transfers, and `Failed` of the state
behind that result. -/
inductive Ends (body : Int × State → (Int × State) ⊕ (Except Failure Int × State))
    (first : Int × State) (cast : Int → Int) (len : Nat) (Moved : State → List Nat → Prop)
    (Failed : State → List Nat → Int → Prop) : Prop
  | whole {s : State} {ms : List Nat} (hms : ∀ m ∈ ms, 0 < m) (hsum : ms.sum = len)
      (hexits : Exits body first (.ok (cast len), s)) (hmoved : Moved s ms)
  | partly {s : State} {ms : List Nat} {r : Int} (hms : ∀ m ∈ ms, 0 < m) (hsum : ms.sum < len)
      (hr : r ≤ 0) (hexits : Exits body first (.ok (cast r), s)) (hfailed : Failed s ms r)

/-- The rest of a loop behind the transfers `ms`. -/
theorem ends_of_moved {Moved : State → List Nat → Prop} {Failed : State → List Nat → Int → Prop}
    (hcall : ∀ (s : State) (ms : List Nat) (left : Nat), Moved s ms → 0 < left →
      left + ms.sum = len →
      (∃ n s', 0 < n ∧ n ≤ left ∧ call s left = (.ok (n : Int), s') ∧ stops n = false ∧
        Moved s' (ms ++ [n])) ∨
      ∃ r s', r ≤ 0 ∧ call s left = (.ok r, s') ∧ stops r = true ∧ Failed s' ms r)
    {left : Nat} {s : State} {ms : List Nat} (hms : ∀ m ∈ ms, 0 < m) (hmoved : Moved s ms)
    (hsum : left + ms.sum = len) :
    Ends (round call stops cast len) ((left : Int), s) cast len Moved Failed := by
  induction left using Nat.strongRecOn generalizing s ms with
  | _ left ih =>
      rcases Nat.eq_zero_or_pos left with rfl | hpos
      · exact .whole hms (by omega) (exits_done s) hmoved
      · have hleft : (0 : Int) < left := by exact_mod_cast hpos
        obtain ⟨n, s', hn, hle, hrun, hgo, hmoved'⟩ | ⟨r, s', hr, hrun, hstop, hfailed⟩ :=
          hcall s ms left hmoved hpos hsum
        · have hround := round_next cast len hleft
            (by rw [Int.toNat_natCast]; exact hrun) hgo
          rw [← Nat.cast_sub hle] at hround
          have hms' : ∀ m ∈ ms ++ [n], 0 < m := by
            intro m hm
            rcases List.mem_append.mp hm with hm | hm
            · exact hms m hm
            · rwa [List.mem_singleton.mp hm]
          have hsum' : (ms ++ [n]).sum = ms.sum + n := by simp
          -- the rest of the loop ends as the loop does
          cases ih (left - n) (by omega) hms' hmoved' (by omega) with
          | whole hms hsum hexits hmoved =>
              exact .whole hms hsum ((exits_iff_of_next hround).mpr hexits) hmoved
          | partly hms hsum hr hexits hfailed =>
              exact .partly hms hsum hr ((exits_iff_of_next hround).mpr hexits) hfailed
        · have hround := round_stop cast len hleft
            (by rw [Int.toNat_natCast]; exact hrun) hstop
          exact .partly hms (by omega) hr ((exits_of_leave hround).mpr rfl) hfailed

/-- A loop whose calls move bytes, or fail and leave it, ends. -/
theorem exits_exact {Moved : State → List Nat → Prop} {Failed : State → List Nat → Int → Prop}
    (hcall : ∀ (s : State) (ms : List Nat) (left : Nat), Moved s ms → 0 < left →
      left + ms.sum = len →
      (∃ n s', 0 < n ∧ n ≤ left ∧ call s left = (.ok (n : Int), s') ∧ stops n = false ∧
        Moved s' (ms ++ [n])) ∨
      ∃ r s', r ≤ 0 ∧ call s left = (.ok r, s') ∧ stops r = true ∧ Failed s' ms r)
    {s : State} (hfirst : Moved s []) :
    Ends (round call stops cast len) ((len : Int), s) cast len Moved Failed :=
  ends_of_moved hcall (by simp) hfirst (by simp)

/-- A loop that no result leaves: what its calls return up to its end.  `Keeps` holds in front of
every call, and `Runs` holds of what is left if it holds behind a call that moves bytes. -/
theorem results_of_loop (results : State → List Int) (Keeps : State → Prop)
    (Runs : State → Int → Prop)
    (hcall : ∀ s n, Keeps s → ∃ r s', call s n = (.ok r, s') ∧ results s' = results s ++ [r] ∧
      Keeps s')
    (hgo : ∀ r, stops r = false) (hend : ∀ s left, left ≤ 0 → Runs s left)
    (hback : ∀ s s' left r, Keeps s → 0 < left → call s left.toNat = (.ok r, s') → 0 < r →
      Runs s' (left - r) → Runs s left)
    {n : Nat} {left ret : Int} {s s' : State}
    (hloop : loop (round call stops cast len) n (left, s) = some (.ok ret, s')) (hs : Keeps s) :
    ∃ rs, results s' = results s ++ rs ∧ left ≤ rs.sum ∧ ((∀ r ∈ rs, 0 < r) → Runs s left) := by
  induction n generalizing left s with
  | zero => cases hloop
  | succ n ih =>
      by_cases hleft : 0 < left
      · obtain ⟨r, s₁, hrun, hresults, hkeeps⟩ := hcall s left.toNat hs
        rw [loop, round_next cast len hleft hrun (hgo r)] at hloop
        obtain ⟨rs, hrs, hsum, hruns⟩ := ih hloop hkeeps
        refine ⟨r :: rs, ?_, ?_, ?_⟩
        · rw [hrs, hresults, List.append_assoc, List.singleton_append]
        · rw [List.sum_cons]
          omega
        · intro hall
          rw [List.forall_mem_cons] at hall
          exact hback s s₁ left r hs hleft hrun hall.1 (hruns hall.2)
      · have hround : round call stops cast len (left, s) = .inr (.ok (cast len), s) :=
          if_neg hleft
        rw [loop, hround] at hloop
        cases hloop
        exact ⟨[], by simp, by simpa using hleft, fun _ => hend _ left (not_lt.mp hleft)⟩

end Transfer
end Lib
end Tiger
