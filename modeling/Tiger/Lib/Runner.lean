import Tiger.Lib.Trace

/-!
# Parsers that run a machine over a buffer

A parser keeps the state of a machine of `Lib.Ragel` beside its own members, goes over the
bytes of a buffer and executes the actions of each step.  When the machine takes a part of the
text with some actions on the first byte, the parser executes these and goes on behind the part.

Main results:

- Theorem `Runner.Reads.append`: parts one after the other.
- Theorem `Runner.reads_takes`: a part of the text, with the actions on its first byte.
-/

namespace Tiger
namespace Lib
namespace Ragel

/-- A parser that runs a machine: `exec n p s` goes over at most `n` bytes from position `p` on,
and `acts p as s` executes actions at a position. -/
structure Runner (Act σ R : Type) [DecidableEq Act] where
  byteAt : Nat → UInt8
  exec : Nat → Nat → σ → R
  threads : σ → Option (List (Expr Act))
  goto : List (Expr Act) → σ → σ
  acts : Nat → List Act → σ → Option σ
  /-- the action that ends a run -/
  stop : Act
  threads_goto : ∀ t s, threads (goto t s) = some t
  goto_self : ∀ t s, threads s = some t → goto t s = s
  goto_goto : ∀ t t' s, goto t' (goto t s) = goto t' s
  acts_nil : ∀ p s, acts p [] s = some s
  exec_step : ∀ {n p s t as t' s'}, threads s = some t → step t (byteAt p) = some (as, t') →
    stop ∉ as → acts p as s = some s' → exec (n + 1) p s = exec n (p + 1) (goto t' s')

namespace Runner

variable {Act σ R : Type} [DecidableEq Act] (r : Runner Act σ R)

/-- The text stands at position `p` of the buffer. -/
def Stands (p : Nat) (xs : List UInt8) : Prop := ∀ i < xs.length, xs[i]? = some (r.byteAt (p + i))

/-- The parser takes the bytes of the text, which stands at position `p`. -/
def Reads (p : Nat) (xs : List UInt8) (s s' : σ) : Prop :=
  ∀ n, r.exec (n + xs.length) p s = r.exec n (p + xs.length) s'

variable {r} {p : Nat} {xs ys : List UInt8} {s s₁ s₂ : σ} {t t' : List (Expr Act)} {as : List Act}

/-- A text that stands at a position has its first byte there and the rest behind it. -/
theorem Stands.cons_inv {c : UInt8} (h : r.Stands p (c :: xs)) :
    r.byteAt p = c ∧ r.Stands (p + 1) xs := by
  constructor
  · have hfirst := h 0 (by simp)
    simpa using hfirst.symm
  · intro i hi
    have hrest := h (i + 1) (by simpa using hi)
    rwa [List.getElem?_cons_succ, show p + (i + 1) = p + 1 + i by omega] at hrest

theorem Reads.refl : r.Reads p [] s s := fun _ => rfl

/-- Reading two texts one after the other is reading both. -/
theorem Reads.append (hxs : r.Reads p xs s s₁) (hys : r.Reads (p + xs.length) ys s₁ s₂) :
    r.Reads p (xs ++ ys) s s₂ := by
  intro n
  rw [List.length_append, Nat.add_comm xs.length, ← Nat.add_assoc, hxs, hys]
  congr 1
  omega

theorem Reads.exec_append (hxs : r.Reads p xs s s₁) :
    r.exec (xs ++ ys).length p s = r.exec ys.length (p + xs.length) s₁ := by
  rw [List.length_append, Nat.add_comm, hxs]

/-- One byte and what is behind it. -/
theorem Reads.cons {c : UInt8} (hfirst : ∀ n, r.exec (n + 1) p s = r.exec n (p + 1) s₁)
    (hrest : r.Reads (p + 1) xs s₁ s₂) : r.Reads p (c :: xs) s s₂ := by
  intro n
  rw [List.length_cons, ← Nat.add_assoc, hfirst, hrest n]
  congr 1
  omega

/-- A part of the text without actions. -/
theorem reads_quiet (hs : r.threads s = some t) (hat : r.Stands p xs)
    (h : quiet t xs = some t') : r.Reads p xs s (r.goto t' s) := by
  induction xs generalizing p s t with
  | nil =>
      rw [← Option.some.inj h, r.goto_self t s hs]
      exact Reads.refl
  | cons c xs ih =>
      rcases hat.cons_inv with ⟨hc, hxs⟩
      rcases quiet_cons_inv h with ⟨t₁, hstep, hrest⟩
      rw [← hc] at hstep
      rw [← r.goto_goto t₁ t' s]
      exact Reads.cons (fun n => r.exec_step hs hstep (by simp) (r.acts_nil p s))
        (ih (r.threads_goto t₁ s) hxs hrest)

/-- A part of the text, with the actions on its first byte. -/
theorem reads_takes (hs : r.threads s = some t) (hat : r.Stands p xs)
    (h : takes t xs = some (as, t')) (hstop : r.stop ∉ as) (hacts : r.acts p as s = some s₁) :
    r.Reads p xs s (r.goto t' s₁) := by
  cases xs with
  | nil => simp [takes] at h
  | cons c xs =>
      rcases hat.cons_inv with ⟨hc, hxs⟩
      rcases takes_cons_inv h with ⟨t₁, hstep, hrest⟩
      rw [← hc] at hstep
      rw [← r.goto_goto t₁ t' s₁]
      exact Reads.cons (fun n => r.exec_step hs hstep hstop hacts)
        (reads_quiet (r.threads_goto t₁ s₁) hxs hrest)

end Runner
end Ragel
end Lib
end Tiger
