import Tiger.Lib.Machine

/-!
# What the bytes say of a parser

A machine of `Lib.Ragel` gives every text its trace: the actions on the bytes of
the text with their positions.  A tally goes over a trace without the parser.
It has a view of what the actions have stored, and it says which actions can be
executed behind it.  A parser whose actions keep to the view gets through a text
exactly when the tally admits the trace of the text.

Main results:

- Theorem `Executor.exec_tally`: whether a parser gets through a text, where it
  stops and what it has stored is what the tally says of the trace.
-/

namespace Tiger
namespace Lib
namespace Ragel

variable {Act View σ : Type}

/-! ## Traces -/

section Trace

variable [DecidableEq Act]

/-- The actions of a machine on a text that starts at position `p`, each with the
position of its byte, up to the action `stop` or a byte without a way on. -/
def trace (stop : Act) : Nat → List (Expr Act) → List UInt8 → List (Nat × Act)
  | _, _, [] => []
  | p, threads, c :: cs =>
      match step threads c with
      | none => []
      | some (as, threads') =>
          as.map (fun a => (p, a)) ++ if stop ∈ as then [] else trace stop (p + 1) threads' cs

/-- How many bytes a machine takes of a text of `length` bytes. -/
def Scan.taken (length : Nat) : Scan Act → Nat
  | .running _ => length
  | .stopped n _ => n
  | .failed n => n

/-- The state behind these bytes. -/
def Scan.threads : Scan Act → Option (List (Expr Act))
  | .running threads => some threads
  | .stopped _ threads => some threads
  | .failed _ => none

omit [DecidableEq Act] in
/-- A byte in front of a scan is one more byte taken. -/
theorem Scan.taken_shift (length : Nat) (r : Scan Act) :
    (r.shift 1).taken (length + 1) = r.taken length + 1 := by
  cases r with
  | running threads => rfl
  | stopped n threads => rfl
  | failed n => rfl

omit [DecidableEq Act] in
/-- A byte in front of a scan does not change where it ends. -/
theorem Scan.threads_shift (k : Nat) (r : Scan Act) : (r.shift k).threads = r.threads := by
  cases r with
  | running threads => rfl
  | stopped n threads => rfl
  | failed n => rfl

/-- A machine takes a byte of a text that is not empty, or it fails. -/
theorem scan_taken_pos {stop : Act} {threads : List (Expr Act)} {xs : List UInt8} (hne : xs ≠ [])
    (hgoes : (scan stop threads xs).threads ≠ none) :
    0 < (scan stop threads xs).taken xs.length := by
  cases hscan : scan stop threads xs with
  | running threads' => exact List.length_pos_iff.mpr hne
  | stopped n threads' => exact (scan_stopped_le hscan).1
  | failed n =>
      rw [hscan] at hgoes
      exact absurd rfl hgoes

end Trace

/-! ## Tallies -/

/-- What is known of a parser behind an action, and which actions it can execute. -/
structure Tally (Act View : Type) where
  admits : Nat → Act → View → Bool
  after : Nat → Act → View → View

namespace Tally

variable (T : Tally Act View)

/-- What is known behind a trace. -/
def behind : List (Nat × Act) → View → View
  | [], v => v
  | e :: es, v => behind es (T.after e.1 e.2 v)

/-- All actions of a trace can be executed, each behind those in front of it. -/
def admitsAll : List (Nat × Act) → View → Bool
  | [], _ => true
  | e :: es, v => T.admits e.1 e.2 v && admitsAll es (T.after e.1 e.2 v)

/-- What is known behind two traces is what is known of the second behind the first. -/
theorem behind_append (es fs : List (Nat × Act)) (v : View) :
    T.behind (es ++ fs) v = T.behind fs (T.behind es v) := by
  induction es generalizing v with
  | nil => rfl
  | cons e es ih => exact ih _

/-- Two traces are admitted when the first is, and the second behind it. -/
theorem admitsAll_append (es fs : List (Nat × Act)) (v : View) :
    T.admitsAll (es ++ fs) v = (T.admitsAll es v && T.admitsAll fs (T.behind es v)) := by
  induction es generalizing v with
  | nil => rfl
  | cons e es ih => rw [List.cons_append, admitsAll, admitsAll, behind, ih, Bool.and_assoc]

end Tally

/-! ## Parsers -/

/-- A parser that executes the actions of a machine: `exec n p s` goes over at most `n` bytes from
position `p` on, up to the byte with `stop`; it has no result when an action fails. -/
structure Executor (Act σ : Type) [DecidableEq Act] where
  byteAt : Nat → UInt8
  stop : Act
  threads : σ → Option (List (Expr Act))
  goto : Option (List (Expr Act)) → σ → σ
  act : Nat → Act → σ → Option σ
  acts : Nat → List Act → σ → Option σ
  exec : Nat → Nat → σ → Option (Nat × σ)
  threads_goto : ∀ t s, threads (goto t s) = t
  acts_nil : ∀ p s, acts p [] s = some s
  acts_cons : ∀ p a as s, acts p (a :: as) s = (act p a s).bind (acts p as)
  exec_zero : ∀ p s, exec 0 p s = some (p, s)
  exec_fail : ∀ {n p s t}, threads s = some t → step t (byteAt p) = none →
    exec (n + 1) p s = some (p, goto none s)
  exec_step : ∀ {n p s t as t'}, threads s = some t → step t (byteAt p) = some (as, t') →
    exec (n + 1) p s = (acts p as (goto (some t') s)).bind fun s' =>
      if stop ∈ as then some (p + 1, s') else exec n (p + 1) s'

namespace Executor

variable [DecidableEq Act] (X : Executor Act σ)

/-- The parser in front of a position and the view of it; actions at positions in front of `bound`
keep them together, and they fail exactly when the tally does not admit them. -/
structure Keeps (T : Tally Act View) (bound : Nat) (Rel : Nat → σ → View → Prop) : Prop where
  enter : ∀ {p s v} t, Rel p s v → Rel (p + 1) (X.goto (some t) s) v
  fail : ∀ {p s v}, Rel p s v → Rel p (X.goto none s) v
  act : ∀ {p s v} a, p < bound → Rel (p + 1) s v →
    (T.admits p a v = false ∧ X.act p a s = none) ∨
      T.admits p a v = true ∧ ∃ s', X.act p a s = some s' ∧ X.threads s' = X.threads s ∧
        Rel (p + 1) s' (T.after p a v)

variable {X} {T : Tally Act View} {bound : Nat} {Rel : Nat → σ → View → Prop}

/-- Actions at one position. -/
theorem acts_tally (hX : X.Keeps T bound Rel) {p : Nat} (hp : p < bound) (as : List Act) {s : σ}
    {v : View} (hrel : Rel (p + 1) s v) :
    (T.admitsAll (as.map fun a => (p, a)) v = false ∧ X.acts p as s = none) ∨
      T.admitsAll (as.map fun a => (p, a)) v = true ∧ ∃ s', X.acts p as s = some s' ∧
        X.threads s' = X.threads s ∧ Rel (p + 1) s' (T.behind (as.map fun a => (p, a)) v) := by
  induction as generalizing s v with
  | nil => exact .inr ⟨rfl, s, X.acts_nil p s, rfl, hrel⟩
  | cons a as ih =>
      rw [List.map_cons, Tally.admitsAll, Tally.behind, X.acts_cons]
      rcases hX.act a hp hrel with ⟨hbad, hact⟩ | ⟨hgood, s₁, hact, hthreads, hrel₁⟩
      · exact .inl ⟨by rw [hbad, Bool.false_and], by rw [hact, Option.bind_none]⟩
      · rw [hgood, Bool.true_and, hact, Option.bind_some]
        rcases ih hrel₁ with hrest | ⟨hall, s', hacts, hthreads', hrel'⟩
        · exact .inl hrest
        · exact .inr ⟨hall, s', hacts, hthreads'.trans hthreads, hrel'⟩

/-- A parser gets through a text exactly when the tally admits its trace; it stops where the
machine stops, and what it has stored is what the tally says. -/
theorem exec_tally (hX : X.Keeps T bound Rel) {xs : List UInt8} {p : Nat} {s : σ} {v : View}
    {t : List (Expr Act)} (ht : X.threads s = some t)
    (hxs : ∀ i < xs.length, xs[i]? = some (X.byteAt (p + i))) (hbound : p + xs.length ≤ bound)
    (hrel : Rel p s v) :
    (T.admitsAll (trace X.stop p t xs) v = false ∧ X.exec xs.length p s = none) ∨
      T.admitsAll (trace X.stop p t xs) v = true ∧ ∃ s',
        X.exec xs.length p s = some (p + (scan X.stop t xs).taken xs.length, s') ∧
        X.threads s' = (scan X.stop t xs).threads ∧
        Rel (p + (scan X.stop t xs).taken xs.length) s' (T.behind (trace X.stop p t xs) v) := by
  induction xs generalizing p s v t with
  | nil => exact .inr ⟨rfl, s, X.exec_zero p s, ht, hrel⟩
  | cons c xs ih =>
      have hc : c = X.byteAt p := by simpa using hxs 0 (by simp)
      have hrest : ∀ i < xs.length, xs[i]? = some (X.byteAt (p + 1 + i)) := by
        intro i hi
        have hsucc := hxs (i + 1) (by simpa using hi)
        rwa [List.getElem?_cons_succ, show p + (i + 1) = p + 1 + i by omega] at hsucc
      rw [List.length_cons] at hbound ⊢
      rw [trace, scan]
      cases hstep : step t c with
      | none =>
          rw [X.exec_fail ht (hc ▸ hstep)]
          exact .inr ⟨rfl, _, rfl, X.threads_goto none s, hX.fail hrel⟩
      | some r =>
          obtain ⟨as, t'⟩ := r
          simp only
          rw [X.exec_step ht (hc ▸ hstep), Tally.admitsAll_append, Tally.behind_append]
          rcases acts_tally hX (by omega) as (hX.enter t' hrel) with
            ⟨hbad, hacts⟩ | ⟨hgood, s₁, hacts, hthreads, hrel₁⟩
          · rw [hbad, hacts]
            exact .inl ⟨Bool.false_and _, rfl⟩
          · rw [hgood, hacts, Bool.true_and, Option.bind_some]
            by_cases hstop : X.stop ∈ as
            · simp only [if_pos hstop]
              exact .inr ⟨rfl, s₁, rfl, by rw [hthreads, X.threads_goto]; rfl, hrel₁⟩
            · simp only [if_neg hstop]
              have htaken : p + (scan X.stop t' xs).taken xs.length + 1 =
                  p + 1 + (scan X.stop t' xs).taken xs.length := by omega
              rw [Scan.taken_shift, Scan.threads_shift, ← Nat.add_assoc, htaken]
              exact ih (by rw [hthreads, X.threads_goto]) hrest (by omega) hrel₁

end Executor
end Ragel
end Lib
end Tiger
