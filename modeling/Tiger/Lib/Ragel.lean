import Mathlib.Data.List.Dedup
import Mathlib.Tactic

/-!
# State machines from regular expressions with embedded actions

This is the language of the Ragel state machine compiler, as far as parsers of
protocols use it: regular expressions over bytes, entering (`>`), leaving (`%`)
and finishing (`@`) actions, and priorities, from which the guarded
concatenations `:>` and `:>>` are made.

A machine state is the list of the expressions that the rest of the input may
match.  On a byte every expression makes its moves.  A move that is outranked
by another one under the same priority name is dropped, the actions of the
others are executed once each, in the order in which they were embedded, and
the machine fails when no move is left.

- An entering action is on the first move of its expression; when the
  expression matches no byte it becomes a leaving action.
- A leaving action waits until a move leaves its expression, and stays while
  the expressions that follow match no byte.
- A finishing action is on every move after which its expression may end.
-/

namespace Tiger
namespace Lib
namespace Ragel

/-! ## Bytes and classes -/

/-- The code of a character. -/
def byte (c : Char) : UInt8 := UInt8.ofNat c.toNat

/-- Sets of bytes. -/
inductive ByteClass
  | range (lo hi : Nat)
  | union (a b : ByteClass)
  | diff (a b : ByteClass)
deriving DecidableEq

/-- Membership in a class. -/
def ByteClass.mem : ByteClass → UInt8 → Bool
  | .range lo hi, c => decide (lo ≤ c.toNat) && decide (c.toNat ≤ hi)
  | .union a b, c => a.mem c || b.mem c
  | .diff a b, c => a.mem c && !b.mem c

/-- One character. -/
def ByteClass.char (c : Char) : ByteClass := .range c.toNat c.toNat

/-- One character of a list. -/
def ByteClass.oneOf : List Char → ByteClass
  | [] => .range 1 0
  | c :: cs => .union (.char c) (ByteClass.oneOf cs)

/-! ## Expressions -/

/-- Regular expressions with actions.  An action carries its number in the order
of embeddings: the compiler numbers an entering action before the actions
inside of its expression, and the others after them. -/
inductive Expr (Act : Type)
  | eps
  | chars (k : ByteClass)
  | cat (a b : Expr Act)
  | alt (a b : Expr Act)
  | star (a : Expr Act)
  | entering (ord : Nat) (act : Act) (e : Expr Act)
  | leaving (ord : Nat) (act : Act) (e : Expr Act)
  | finishing (ord : Nat) (act : Act) (e : Expr Act)
  | prioAll (name value : Nat) (e : Expr Act)
  | prioStart (name value : Nat) (e : Expr Act)
  | prioFinish (name value : Nat) (e : Expr Act)
deriving DecidableEq

namespace Expr

variable {Act : Type}

/-- A literal. -/
def lit : List Char → Expr Act
  | [] => eps
  | c :: cs => cat (chars (.char c)) (lit cs)

/-- A literal in any case. -/
def litNoCase : List Char → Expr Act
  | [] => eps
  | c :: cs => cat (chars (.oneOf [c.toLower, c.toUpper])) (litNoCase cs)

/-- A sequence of expressions. -/
def seq : List (Expr Act) → Expr Act
  | [] => eps
  | [e] => e
  | e :: es => cat e (seq es)

/-- A choice between expressions. -/
def choice : List (Expr Act) → Expr Act
  | [] => chars (.range 1 0)
  | [e] => e
  | e :: es => alt e (choice es)

/-- `e?` -/
def opt (e : Expr Act) : Expr Act := alt e eps

/-- `e+` -/
def plus (e : Expr Act) : Expr Act := cat e (star e)

/-- `e{n}` -/
def times : Nat → Expr Act → Expr Act
  | 0, _ => eps
  | n + 1, e => cat e (times n e)

/-- `e{,n}` -/
def upTo : Nat → Expr Act → Expr Act
  | 0, _ => eps
  | n + 1, e => opt (cat e (upTo n e))

/-- `e{m,n}` -/
def between (m n : Nat) (e : Expr Act) : Expr Act := cat (times m e) (upTo (n - m) e)

/-- `e{n,}` -/
def atLeast (n : Nat) (e : Expr Act) : Expr Act := cat (times n e) (star e)

/-- `a :> b`: entering `b` outranks going on in `a`. -/
def guardEntry (name : Nat) (a b : Expr Act) : Expr Act :=
  cat (prioAll name 0 a) (prioStart name 1 b)

/-- `a :>> b`: finishing `b` outranks going on in `a`. -/
def guardFinish (name : Nat) (a b : Expr Act) : Expr Act :=
  cat (prioAll name 0 a) (prioFinish name 1 b)

/-! ## Moves -/

/-- The expression matches the empty word. -/
def nullable : Expr Act → Bool
  | eps => true
  | chars _ => false
  | cat a b => a.nullable && b.nullable
  | alt a b => a.nullable || b.nullable
  | star _ => true
  | entering _ _ e => e.nullable
  | leaving _ _ e => e.nullable
  | finishing _ _ e => e.nullable
  | prioAll _ _ e => e.nullable
  | prioStart _ _ e => e.nullable
  | prioFinish _ _ e => e.nullable

/-- The actions that wait for the next move when the expression ends here. -/
def out : Expr Act → List (Nat × Act)
  | eps => []
  | chars _ => []
  | cat a b => a.out ++ b.out
  | alt a b => (if a.nullable then a.out else []) ++ (if b.nullable then b.out else [])
  | star a => if a.nullable then a.out else []
  | entering ord act e => (ord, act) :: e.out
  | leaving ord act e => e.out ++ [(ord, act)]
  | finishing _ _ e => e.out
  | prioAll _ _ e => e.out
  | prioStart _ _ e => e.out
  | prioFinish _ _ e => e.out

/-- Concatenation that drops an ended first part. -/
def andThen : Expr Act → Expr Act → Expr Act
  | eps, b => b
  | a, b => cat a b

/-- Wrappers that have no effect on an ended expression. -/
def wrap (f : Expr Act → Expr Act) : Expr Act → Expr Act
  | eps => eps
  | e => f e

end Expr

/-- One way to go on with a byte: the actions on it, its priorities, and what
is to be matched behind it. -/
structure Move (Act : Type) where
  acts : List (Nat × Act)
  prios : List (Nat × Nat)
  next : Expr Act

namespace Move

variable {Act : Type}

/-- The move with another expression behind it. -/
def mapNext (f : Expr Act → Expr Act) (m : Move Act) : Move Act := { m with next := f m.next }

/-- The move with actions added in front. -/
def addActs (acts : List (Nat × Act)) (m : Move Act) : Move Act :=
  { m with acts := acts ++ m.acts }

/-- The move with an action added when the expression may end behind it. -/
def addFinish (ord : Nat) (act : Act) (m : Move Act) : Move Act :=
  if m.next.nullable then { m with acts := m.acts ++ [(ord, act)] } else m

/-- The move with a priority. -/
def addPrio (name value : Nat) (m : Move Act) : Move Act :=
  { m with prios := (name, value) :: m.prios }

/-- The move with a priority when the expression may end behind it. -/
def addPrioFinish (name value : Nat) (m : Move Act) : Move Act :=
  if m.next.nullable then m.addPrio name value else m

/-- The other move has a higher value under a common name. -/
def outrankedBy (m m' : Move Act) : Bool :=
  m.prios.any fun p => m'.prios.any fun p' => p.1 == p'.1 && decide (p.2 < p'.2)

end Move

variable {Act : Type}

/-- The moves of an expression on a byte. -/
def Expr.moves (c : UInt8) : Expr Act → List (Move Act)
  | .eps => []
  | .chars k => if k.mem c then [⟨[], [], .eps⟩] else []
  | .cat a b =>
      (a.moves c).map (Move.mapNext (Expr.andThen · b)) ++
        (if a.nullable then (b.moves c).map (Move.addActs a.out) else [])
  | .alt a b => a.moves c ++ b.moves c
  | .star a =>
      let once := (a.moves c).map (Move.mapNext (Expr.andThen · (.star a)))
      -- an iteration that matches no byte leaves its actions on the next one
      once ++ (if a.nullable then once.map (Move.addActs a.out) else [])
  | .entering ord act e => (e.moves c).map (Move.addActs [(ord, act)])
  | .leaving ord act e => (e.moves c).map (Move.mapNext (.leaving ord act))
  | .finishing ord act e =>
      (e.moves c).map fun m => (m.addFinish ord act).mapNext (Expr.wrap (.finishing ord act))
  | .prioAll name value e =>
      (e.moves c).map fun m => (m.addPrio name value).mapNext (Expr.wrap (.prioAll name value))
  | .prioStart name value e => (e.moves c).map (Move.addPrio name value)
  | .prioFinish name value e =>
      (e.moves c).map fun m =>
        (m.addPrioFinish name value).mapNext (Expr.wrap (.prioFinish name value))

/-! ## Machines -/

/-- Insert an action by its number. -/
def insertAct (a : Nat × Act) : List (Nat × Act) → List (Nat × Act)
  | [] => [a]
  | b :: bs => if a.1 < b.1 then a :: b :: bs else b :: insertAct a bs

/-- The actions of the moves in order, the first appearance of each. -/
def actions [DecidableEq Act] (ms : List (Move Act)) : List Act :=
  (((ms.flatMap Move.acts).foldr insertAct []).map Prod.snd).eraseDups

/-- The moves that no other one outranks. -/
def survivors (ms : List (Move Act)) : List (Move Act) :=
  ms.filter fun m => !ms.any fun m' => m.outrankedBy m'

/-- One step of the machine; `none` is its error state. -/
def step [DecidableEq Act] (threads : List (Expr Act)) (c : UInt8) :
    Option (List Act × List (Expr Act)) :=
  let ms := survivors (threads.flatMap (Expr.moves c))
  if ms.isEmpty then none else some (actions ms, (ms.map Move.next).eraseDups)

/-- The start state of an expression. -/
def start (e : Expr Act) : List (Expr Act) := [e]

/-- The machine is in a final state. -/
def isFinal (threads : List (Expr Act)) : Bool := threads.any Expr.nullable

end Ragel
end Lib
end Tiger
