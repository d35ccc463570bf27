import Mathlib.Logic.Function.Basic
import Tiger.Lib.Simulation

/-!
# Coroutines - switching contexts

This module embeds `Coroutine` (`src/coroutine.cc`) for one thread.  The coroutine objects carry
a state and a saved context; a saved context says where `swapcontext` goes on when it is
restored.  Which flow of control is executing, and which one resumed a coroutine, is recorded
beside the variables of the code.  The functions of the coroutines are not part of the model:
what they do is the sequence of events.

Main results:

- Theorem `resumes_iff`: along every sequence of events, the running coroutine is the one that
  executes, it is the only one in state `RUNNING`, and control goes back to the context that
  resumed it, exactly if `resume` is called from the main context only.
-/

namespace Tiger
namespace Coroutine

open Lib

/-- `Coroutine::State` -/
inductive State
  | INIT
  | RUNNING
  | YIELD
  | TERMINAL
  | EXCEPT
  deriving DecidableEq, Repr

/-- The coroutine objects of a thread, and the flows of control: every coroutine has its own
stack, the main one is the thread's. -/
inductive Who
  | main
  | co (c : Nat)
  deriving DecidableEq, Repr

/-- What a saved `ucontext_t` goes on with. -/
inductive Context
  /-- `getcontext` in the constructor of the main coroutine, which has returned. -/
  | constructed
  /-- `makecontext`: `Coroutine::Run` on the stack of a coroutine. -/
  | entry (flow : Who)
  /-- Behind the `swapcontext` in `resume`. -/
  | inResume (flow : Who)
  /-- Behind the `swapcontext` in `yield`. -/
  | inYield (flow : Who)
  /-- Behind the `swapcontext` in `Run`, which then returns. -/
  | inRun (flow : Who)
  deriving DecidableEq, Repr

/-- `m_state` and `m_ctx` of a `Coroutine`. -/
structure Object where
  state : State
  ctx : Context
  deriving DecidableEq, Repr

/-- What stops a thread. -/
inductive End
  /-- A `TIGER_ASSERT` of `resume` or `yield` fails in a flow of control. -/
  | assertion (flow : Who)
  /-- A null pointer is dereferenced. -/
  | fault
  /-- A function that was started by `makecontext` returns, or the context of a function that
  has returned is restored. -/
  | exited
  deriving DecidableEq, Repr

/-- The thread's coroutines: `s_t_main_co` is null as long as `.main` is not on the heap. -/
structure Thread where
  heap : Who → Option Object
  /-- Number of the coroutines that have been created with a function. -/
  made : Nat
  /-- `s_t_running_co` -/
  running : Option Who
  /-- The flow of control that executes. -/
  executing : Who
  /-- The flow that called `resume` on a coroutine the last time. -/
  caller : Who → Who
  ended : Option End

namespace Thread

/-- A thread that has not created a coroutine yet. -/
def start : Thread where
  heap _ := none
  made := 0
  running := none
  executing := .main
  caller _ := .main
  ended := none

/-- `state` of a coroutine. -/
def state (s : Thread) (who : Who) : Option State :=
  (s.heap who).map Object.state

/-- An assignment through the pointer to a coroutine. -/
def modify (s : Thread) (who : Who) (f : Object → Object) : Thread :=
  { s with heap := Function.update s.heap who ((s.heap who).map f) }

/-- `who->m_state = state` -/
def setState (s : Thread) (who : Who) (state : State) : Thread :=
  s.modify who fun o => { o with state := state }

/-- `Coroutine::GetRunningCo` -/
def getRunningCo (s : Thread) : Option Who :=
  match s.running with
  | some who => some who
  | none => if (s.heap .main).isSome then some .main else none

/-- A saved context is restored.  Behind its `swapcontext`, `resume` makes the main coroutine
the running one. -/
def setcontext (s : Thread) : Context → Thread
  | .entry flow => { s with executing := flow }
  | .inYield flow => { s with executing := flow }
  | .inResume flow => { s.setState .main .RUNNING with executing := flow, running := some .main }
  | .inRun _ => { s with ended := some .exited }
  | .constructed => { s with ended := some .exited }

/-- `swapcontext(&(saved->m_ctx), &(restored->m_ctx))`: the context is saved before the other one
is read. -/
def swapcontext (s : Thread) (saved restored : Who) (here : Context) : Thread :=
  let s := s.modify saved fun o => { o with ctx := here }
  match s.heap saved, s.heap restored with
  | some _, some o => s.setcontext o.ctx
  | _, _ => { s with ended := some .fault }

/-- The constructor with a function.  The first one on a thread also constructs the main
coroutine. -/
def create (s : Thread) : Thread :=
  let s : Thread :=
    match s.heap .main with
    | some _ => s
    | none =>
        { s with
          heap := Function.update s.heap .main (some ⟨.RUNNING, .constructed⟩)
          running := some .main }
  { s with
    heap := Function.update s.heap (.co s.made) (some ⟨.INIT, .entry (.co s.made)⟩)
    made := s.made + 1 }

/-- `Coroutine::resume` -/
def resume (s : Thread) (this : Who) : Thread :=
  if s.state this = some .INIT ∨ s.state this = some .YIELD then
    let s := (s.setState .main .YIELD).setState this .RUNNING
    let s := { s with running := some this, caller := Function.update s.caller this s.executing }
    s.swapcontext .main this (.inResume s.executing)
  else
    { s with ended := some (.assertion s.executing) }

/-- `Coroutine::yield` -/
def yield (s : Thread) (this : Who) : Thread :=
  if s.running ≠ some .main then
    let s := (s.setState this .YIELD).setState .main .RUNNING
    let s := { s with running := some .main }
    s.swapcontext this .main (.inYield s.executing)
  else
    { s with ended := some (.assertion s.executing) }

/-- The static `Coroutine::Yield` -/
def yieldRunning (s : Thread) : Thread :=
  match s.running with
  | some who => s.yield who
  | none => s

/-- `Coroutine::Run` behind the function: `TERMINAL` where it returned, `EXCEPT` where it threw. -/
def finish (s : Thread) (state : State) : Thread :=
  match s.running with
  | some who => (s.setState who state).swapcontext who .main (.inRun s.executing)
  | none => { s with ended := some .fault }

/-- `Coroutine::reset` -/
def reset (s : Thread) (c : Nat) : Thread :=
  if s.state (.co c) = some .INIT ∨ s.state (.co c) = some .TERMINAL ∨
    s.state (.co c) = some .EXCEPT then
    s.modify (.co c) fun _ => ⟨.INIT, .entry (.co c)⟩
  else s

end Thread

/-- What the executing flow of control does. -/
inductive Event
  | create
  | resume (who : Who)
  | yield
  | reset (c : Nat)
  /-- The function of a coroutine returns. -/
  | returns
  /-- The function of a coroutine throws. -/
  | throws
  deriving DecidableEq, Repr

namespace Thread

/-- One event.  The main context is not inside the function of a coroutine. -/
def step (s : Thread) (e : Event) : Thread :=
  if s.ended ≠ none then s
  else
    match e with
    | .create => s.create
    | .resume who => s.resume who
    | .yield => s.yieldRunning
    | .reset c => s.reset c
    | .returns => if s.executing = .main then s else s.finish .TERMINAL
    | .throws => if s.executing = .main then s else s.finish .EXCEPT

/-- `resume` is called on coroutines in state `INIT` or `YIELD`. -/
def Resumable (s : Thread) : Event → Prop
  | .resume who => s.state who = some .INIT ∨ s.state who = some .YIELD
  | _ => True

/-- `resume` is called from the main context. -/
def FromMain (s : Thread) : Event → Prop
  | .resume _ => s.executing = .main
  | _ => True

/-- What is asked of a thread between two events. -/
structure Coherent (s : Thread) : Prop where
  /-- Nothing stops the thread but a `Yield` of the main context. -/
  alive : s.ended = none ∨ s.ended = some (.assertion .main)
  /-- `GetRunningCo` denotes what executes; it is null before the first coroutine. -/
  running : s.getRunningCo = if s.made = 0 then none else some s.executing
  /-- Exactly what executes is `RUNNING`. -/
  only : s.made ≠ 0 → ∀ who, s.state who = some .RUNNING ↔ who = s.executing
  /-- A coroutine can yield, return and throw, and control goes back to the context that
  resumed it. -/
  back : ∀ c, s.executing = .co c → ∀ e ∈ [Event.yield, .returns, .throws],
    (s.step e).ended = none ∧ (s.step e).executing = s.caller (.co c)

/-! ## What a switch does -/

variable {s : Thread} {c : Nat} {o : Object}

/-- The main context has gone on behind its `resume`, and the coroutine is left as given. -/
def left (s : Thread) (c : Nat) (o : Object) : Thread :=
  { s with
    heap := Function.update (Function.update s.heap (.co c) (some o)) .main
      (some ⟨.RUNNING, .inResume .main⟩)
    running := some .main
    executing := .main }

/-- The main context waits in `resume`, and the coroutine executes. -/
def entered (s : Thread) (c : Nat) (ctx : Context) : Thread :=
  { s with
    heap := Function.update (Function.update s.heap .main (some ⟨.YIELD, .inResume .main⟩)) (.co c)
      (some ⟨.RUNNING, ctx⟩)
    running := some (.co c)
    executing := .co c
    caller := Function.update s.caller (.co c) .main }

/-- A saved context belongs to the flow of its coroutine: a coroutine is suspended in `yield`,
the main one in `resume`. -/
def Ready (who : Who) (o : Object) : Prop :=
  match o.state with
  | .INIT => who ≠ .main ∧ o.ctx = .entry who
  | .YIELD => o.ctx = if who = .main then .inResume .main else .inYield who
  | _ => True

/-- An object is `RUNNING` exactly if its flow executes. -/
structure Fits (executing who : Who) (o : Object) : Prop where
  running : o.state = .RUNNING ↔ who = executing
  ready : Ready who o

/-- What holds between two events as long as `resume` is called from the main context. -/
structure Proper (s : Thread) : Prop where
  alive : s.ended = none ∨ s.ended = some (.assertion .main) ∧ s.executing = .main
  running : s.running = if s.made = 0 then none else some s.executing
  absent : ∀ c, s.made ≤ c → s.heap (.co c) = none
  main : (s.heap .main).isSome ↔ s.made ≠ 0
  fits : ∀ who o, s.heap who = some o → Fits s.executing who o
  waits : ∀ c, s.executing = .co c → (s.heap (.co c)).isSome ∧
    s.heap .main = some ⟨.YIELD, .inResume .main⟩ ∧ s.caller (.co c) = .main

/-- An update between two of one place comes in front of both. -/
theorem update_swap {β : Type} {f : Who → β} {a b : Who} (hab : a ≠ b) (x y z : β) :
    Function.update (Function.update (Function.update f a x) b y) a z =
      Function.update (Function.update f a z) b y := by
  rw [Function.update_comm hab, Function.update_idem, Function.update_comm hab.symm]

/-- `Yield` inside a coroutine. -/
theorem yield_eq_left (hc : s.executing = .co c) (hrunning : s.running = some (.co c))
    (hmain : s.heap .main = some ⟨.YIELD, .inResume .main⟩) (ho : s.heap (.co c) = some o) :
    s.yieldRunning = s.left c ⟨.YIELD, .inYield (.co c)⟩ := by
  simp [yieldRunning, yield, hrunning, swapcontext, setState, modify, hmain, ho, hc, setcontext,
    left, Function.update_of_ne, update_swap]

/-- `Run` behind the function of a coroutine. -/
theorem finish_eq_left (hc : s.executing = .co c) (hrunning : s.running = some (.co c))
    (hmain : s.heap .main = some ⟨.YIELD, .inResume .main⟩) (ho : s.heap (.co c) = some o)
    (st : State) :
    s.finish st = s.left c ⟨st, .inRun (.co c)⟩ := by
  simp [finish, hrunning, swapcontext, setState, modify, hmain, ho, hc, setcontext, left,
    Function.update_of_ne]

/-- A suspended or fresh coroutine goes on in its own flow. -/
theorem setcontext_of_ready (hst : o.state = .INIT ∨ o.state = .YIELD) (hready : Ready (.co c) o) :
    s.setcontext o.ctx = { s with executing := .co c } := by
  rcases hst with hst | hst
  · rw [Ready, hst] at hready
    rw [hready.2]
    rfl
  · rw [Ready, hst] at hready
    rw [hready]
    rfl

/-- `resume` on a suspended or fresh coroutine, from any context. -/
theorem resume_co {m : Object} (hmain : s.heap .main = some m)
    (ho : s.heap (.co c) = some o) (hst : o.state = .INIT ∨ o.state = .YIELD)
    (hready : Ready (.co c) o) :
    s.resume (.co c) =
      { s with
        heap := Function.update
          (Function.update s.heap .main (some ⟨.YIELD, .inResume s.executing⟩)) (.co c)
          (some ⟨.RUNNING, o.ctx⟩)
        running := some (.co c)
        executing := .co c
        caller := Function.update s.caller (.co c) s.executing } := by
  have hstate : s.state (.co c) = some .INIT ∨ s.state (.co c) = some .YIELD := by
    rw [state, ho, Option.map_some, Option.some.injEq, Option.some.injEq]
    exact hst
  rw [resume, if_pos hstate]
  simp [swapcontext, setState, modify, hmain, ho, Function.update_of_ne, update_swap,
    setcontext_of_ready hst hready]

/-! ## What the events keep -/

/-- A new thread is proper. -/
theorem start_proper : start.Proper where
  alive := .inl rfl
  running := rfl
  absent _ _ := rfl
  main := by simp [start]
  fits := by simp [start]
  waits := by simp [start]

/-- The objects behind a coroutine that has been left. -/
theorem left_heap (s : Thread) (c : Nat) (o : Object) (who : Who) :
    (s.left c o).heap who =
      if who = .main then some ⟨.RUNNING, .inResume .main⟩
      else if who = .co c then some o else s.heap who := by
  simp only [left, Function.update_apply]

/-- The objects behind a coroutine that has been entered. -/
theorem entered_heap (s : Thread) (c : Nat) (ctx : Context) (who : Who) :
    (s.entered c ctx).heap who =
      if who = .co c then some ⟨.RUNNING, ctx⟩
      else if who = .main then some ⟨.YIELD, .inResume .main⟩ else s.heap who := by
  simp only [entered, Function.update_apply]

namespace Proper

/-- A thread with an object has made one. -/
theorem made_ne_zero (h : s.Proper) {who : Who} (ho : s.heap who = some o) : s.made ≠ 0 := by
  cases who with
  | main => exact h.main.mp (by rw [ho]; rfl)
  | co c =>
      intro hmade
      rw [h.absent c (by omega)] at ho
      cases ho

/-- A coroutine has a number below those of the ones to come. -/
theorem lt_made (h : s.Proper) (ho : s.heap (.co c) = some o) : c < s.made := by
  by_contra hc
  rw [h.absent c (by omega)] at ho
  cases ho

/-- A thread that executes a coroutine has not ended. -/
theorem alive_of_executing (h : s.Proper) (hc : s.executing = .co c) : s.ended = none := by
  rcases h.alive with hended | ⟨-, hmain⟩
  · exact hended
  · rw [hc] at hmain
    cases hmain

/-- A coroutine gives control back. -/
theorem left (h : s.Proper) (hc : s.executing = .co c) (hst : o.state ≠ .RUNNING)
    (hready : Ready (.co c) o) :
    (s.left c o).Proper := by
  rcases Option.isSome_iff_exists.mp (h.waits c hc).1 with ⟨p, hp⟩
  have hmade := h.made_ne_zero hp
  have hlt := h.lt_made hp
  constructor
  case alive => exact .inl (h.alive_of_executing hc)
  case running => exact (if_neg hmade).symm
  case absent =>
    intro d hd
    have hdc : d ≠ c := by
      rintro rfl
      exact absurd hd (by simpa [Thread.left] using hlt)
    rw [left_heap, if_neg Who.noConfusion, if_neg (by simpa using hdc)]
    exact h.absent d hd
  case main => exact iff_of_true (by rw [left_heap, if_pos rfl]; rfl) hmade
  case fits =>
    intro who q hq
    rw [left_heap] at hq
    split at hq
    case isTrue hwho =>
      cases hq
      exact ⟨iff_of_true rfl hwho, trivial⟩
    case isFalse hwho =>
      split at hq
      case isTrue hself =>
        cases hq
        exact ⟨iff_of_false hst hwho, by rw [hself]; exact hready⟩
      case isFalse hself =>
        have hfits := h.fits who q hq
        rw [hc] at hfits
        exact ⟨iff_of_false (fun hrunning => hself (hfits.running.mp hrunning)) hwho, hfits.ready⟩
  case waits =>
    intro d hd
    cases hd

/-- The main context resumes a coroutine. -/
theorem entered (h : s.Proper) (halive : s.ended = none) (hexec : s.executing = .main)
    (ho : s.heap (.co c) = some o) (ctx : Context) : (s.entered c ctx).Proper := by
  have hmade := h.made_ne_zero ho
  have hlt := h.lt_made ho
  constructor
  case alive => exact .inl halive
  case running => exact (if_neg hmade).symm
  case absent =>
    intro d hd
    have hdc : d ≠ c := by
      rintro rfl
      exact absurd hd (by simpa [Thread.entered] using hlt)
    rw [entered_heap, if_neg (by simpa using hdc), if_neg Who.noConfusion]
    exact h.absent d hd
  case main =>
    exact iff_of_true (by rw [entered_heap, if_neg Who.noConfusion, if_pos rfl]; rfl) hmade
  case fits =>
    intro who q hq
    rw [entered_heap] at hq
    split at hq
    case isTrue hself =>
      cases hq
      exact ⟨iff_of_true rfl hself, trivial⟩
    case isFalse hself =>
      split at hq
      case isTrue hwho =>
        cases hq
        subst hwho
        exact ⟨iff_of_false State.noConfusion hself, rfl⟩
      case isFalse hwho =>
        have hfits := h.fits who q hq
        rw [hexec] at hfits
        exact ⟨iff_of_false (fun hrunning => hwho (hfits.running.mp hrunning)) hself, hfits.ready⟩
  case waits =>
    intro d hd
    cases hd
    exact ⟨by simp [Thread.entered], by simp [Thread.entered], by simp [Thread.entered]⟩

/-- A fresh object fits beside the executing flow of another one. -/
theorem fits_fresh {heap : Who → Option Object} {executing : Who}
    (hfits : ∀ who o, heap who = some o → Fits executing who o) (hc : executing ≠ .co c) (who : Who)
    (o : Object) (ho : Function.update heap (.co c) (some ⟨.INIT, .entry (.co c)⟩) who = some o) :
    Fits executing who o := by
  rw [Function.update_apply] at ho
  split at ho
  case isTrue hself =>
    cases ho
    subst hself
    exact ⟨iff_of_false State.noConfusion (Ne.symm hc), Who.noConfusion, rfl⟩
  case isFalse hself => exact hfits who o ho

/-- A coroutine is added or reset. -/
theorem fresh (h : s.Proper) (hmade : s.made ≠ 0) (hc : s.executing ≠ .co c) {made : Nat}
    (hlt : c < made) (hle : s.made ≤ made) :
    ({ s with
      heap := Function.update s.heap (.co c) (some ⟨.INIT, .entry (.co c)⟩)
      made := made } : Thread).Proper := by
  have hmain : Function.update s.heap (.co c) (some ⟨.INIT, .entry (.co c)⟩) .main = s.heap .main :=
    Function.update_of_ne Who.noConfusion _ _
  constructor
  case alive => exact h.alive
  case running =>
    refine h.running.trans ?_
    rw [if_neg hmade, if_neg (by simp only; omega)]
  case absent =>
    intro d hd
    have hdc : Who.co d ≠ .co c := by
      rintro ⟨⟩
      exact absurd hlt (Nat.not_lt.mpr hd)
    exact (Function.update_of_ne hdc _ _).trans (h.absent d (Nat.le_trans hle hd))
  case main =>
    simp only [hmain]
    exact iff_of_true (h.main.mpr hmade) (by omega)
  case fits => exact fits_fresh h.fits hc
  case waits =>
    intro d hd
    have hdc : Who.co d ≠ .co c := fun hdc => hc (hd.trans hdc)
    have hwaits := h.waits d hd
    refine ⟨?_, hmain.trans hwaits.2.1, hwaits.2.2⟩
    simp only [Function.update_of_ne hdc]
    exact hwaits.1

/-- Resetting a coroutine keeps a thread proper. -/
theorem reset (h : s.Proper) (c : Nat) : (s.reset c).Proper := by
  rw [Thread.reset]
  split
  case isFalse => exact h
  case isTrue hstate =>
    cases ho : s.heap (.co c) with
    | none => simp [state, ho] at hstate
    | some o =>
        have hst : o.state ≠ .RUNNING := by
          rw [state, ho, Option.map_some, Option.some.injEq, Option.some.injEq,
            Option.some.injEq] at hstate
          rcases hstate with hst | hst | hst <;> rw [hst] <;> exact State.noConfusion
        have hc : s.executing ≠ .co c := fun hc => hst ((h.fits _ _ ho).running.mpr hc.symm)
        rw [modify, ho]
        exact h.fresh (h.made_ne_zero ho) hc (h.lt_made ho) le_rfl

/-- Creating a coroutine keeps a thread proper. -/
theorem create (h : s.Proper) : s.create.Proper := by
  rw [Thread.create]
  cases hm : s.heap .main with
  | some m =>
      have hmade := h.made_ne_zero hm
      have hc : s.executing ≠ .co s.made := by
        intro hc
        have hsome := (h.waits _ hc).1
        rw [h.absent _ le_rfl] at hsome
        cases hsome
      exact h.fresh hmade hc (Nat.lt_succ_self _) (Nat.le_succ _)
  | none =>
      -- The main coroutine is constructed with the first one; it executes.
      have hmade : s.made = 0 := by
        by_contra hmade
        have hsome := h.main.mpr hmade
        rw [hm] at hsome
        cases hsome
      have hexec : s.executing = .main := by
        cases hexec : s.executing with
        | main => rfl
        | co c =>
            have hwaits := (h.waits c hexec).2.1
            rw [hm] at hwaits
            cases hwaits
      have hfits : ∀ who o,
          Function.update s.heap .main (some ⟨.RUNNING, .constructed⟩) who = some o →
          Fits s.executing who o := by
        intro who o ho
        rw [Function.update_apply] at ho
        split at ho
        case isTrue hwho =>
          cases ho
          exact ⟨iff_of_true rfl (hwho.trans hexec.symm), trivial⟩
        case isFalse hwho => exact h.fits who o ho
      simp only [hmade]
      constructor
      case alive => exact h.alive
      case running => simp [hexec]
      case absent =>
        intro d hd
        have hd0 : Who.co d ≠ .co 0 := by
          rintro ⟨⟩
          exact absurd hd (Nat.not_succ_le_zero 0)
        simp only [Function.update_of_ne hd0]
        exact (Function.update_of_ne Who.noConfusion _ _).trans (h.absent d (by omega))
      case main => simp [Function.update_of_ne]
      case fits => exact fits_fresh hfits (by rw [hexec]; exact Who.noConfusion)
      case waits =>
        intro d hd
        rw [hexec] at hd
        cases hd

/-- A coroutine that yields, returns or throws gives control back. -/
theorem leaves (h : s.Proper) (hc : s.executing = .co c) :
    ∀ e ∈ [Event.yield, .returns, .throws], ∃ o : Object, o.state ≠ .RUNNING ∧ Ready (.co c) o ∧
      s.step e = s.left c o := by
  rcases h.waits c hc with ⟨hsome, hmain, -⟩
  rcases Option.isSome_iff_exists.mp hsome with ⟨o, ho⟩
  have hrunning : s.running = some (.co c) := by
    rw [h.running, if_neg (h.made_ne_zero ho), hc]
  have hended := h.alive_of_executing hc
  have hexec : s.executing ≠ .main := by
    rw [hc]
    exact Who.noConfusion
  intro e he
  simp only [List.mem_cons, List.not_mem_nil, or_false] at he
  rcases he with rfl | rfl | rfl
  · refine ⟨⟨.YIELD, .inYield (.co c)⟩, State.noConfusion, rfl, ?_⟩
    rw [step, if_neg (not_not.mpr hended)]
    exact yield_eq_left hc hrunning hmain ho
  · refine ⟨⟨.TERMINAL, .inRun (.co c)⟩, State.noConfusion, trivial, ?_⟩
    rw [step, if_neg (not_not.mpr hended)]
    exact (if_neg hexec).trans (finish_eq_left hc hrunning hmain ho .TERMINAL)
  · refine ⟨⟨.EXCEPT, .inRun (.co c)⟩, State.noConfusion, trivial, ?_⟩
    rw [step, if_neg (not_not.mpr hended)]
    exact (if_neg hexec).trans (finish_eq_left hc hrunning hmain ho .EXCEPT)

/-- A `Yield` of the main context does nothing before the first coroutine, and fails the
assertion from then on. -/
theorem yield_main (h : s.Proper) (hexec : s.executing = .main) : s.yieldRunning.Proper := by
  rw [yieldRunning, h.running]
  by_cases hmade : s.made = 0
  · rw [if_pos hmade]
    exact h
  · have hrunning : s.running = some .main := by rw [h.running, if_neg hmade, hexec]
    rw [if_neg hmade]
    have hyield : s.yield s.executing = { s with ended := some (.assertion s.executing) } :=
      if_neg (not_not.mpr hrunning)
    simp only [hyield]
    exact ⟨.inr ⟨by rw [hexec], hexec⟩, h.running, h.absent, h.main, h.fits, h.waits⟩

/-- What can be resumed from the main context is a coroutine. -/
theorem exists_of_resumable (h : s.Proper) {who : Who} (hresumable : s.Resumable (.resume who)) :
    ∃ o, s.heap who = some o ∧ (o.state = .INIT ∨ o.state = .YIELD) ∧ who ≠ s.executing := by
  cases ho : s.heap who with
  | none => simp [Resumable, state, ho] at hresumable
  | some o =>
      rw [Resumable, state, ho, Option.map_some, Option.some.injEq, Option.some.injEq] at hresumable
      refine ⟨o, rfl, hresumable, ?_⟩
      intro hwho
      have hrunning := (h.fits who o ho).running.mpr hwho
      rw [hrunning] at hresumable
      rcases hresumable with hst | hst <;> cases hst

/-- An event keeps what holds as long as `resume` is called from the main context. -/
theorem step (h : s.Proper) {e : Event} (hresumable : s.Resumable e) (hfrom : s.FromMain e) :
    (s.step e).Proper := by
  by_cases hended : s.ended = none
  case neg =>
    have hsame : s.step e = s := if_pos hended
    rw [hsame]
    exact h
  case pos =>
  have hleaves : ∀ c, s.executing = .co c →
      ∀ e ∈ [Event.yield, .returns, .throws], (s.step e).Proper := by
    intro c hc e he
    rcases h.leaves hc e he with ⟨o, hst, hready, heq⟩
    rw [heq]
    exact h.left hc hst hready
  cases e with
  | create =>
      rw [Thread.step, if_neg (not_not.mpr hended)]
      exact h.create
  | reset c =>
      rw [Thread.step, if_neg (not_not.mpr hended)]
      exact h.reset c
  | resume who =>
      rcases h.exists_of_resumable hresumable with ⟨o, ho, hst, hwho⟩
      have hexec : s.executing = .main := hfrom
      rw [Thread.step, if_neg (not_not.mpr hended)]
      cases who with
      | main => exact absurd hexec.symm hwho
      | co c =>
          rcases Option.isSome_iff_exists.mp (h.main.mpr (h.made_ne_zero ho)) with ⟨m, hm⟩
          have heq := resume_co hm ho hst (h.fits _ _ ho).ready
          rw [hexec] at heq
          simp only [heq]
          exact h.entered hended hexec ho o.ctx
  | yield =>
      cases hexec : s.executing with
      | main =>
          rw [Thread.step, if_neg (not_not.mpr hended)]
          exact h.yield_main hexec
      | co c => exact hleaves c hexec _ (by simp)
  | returns =>
      cases hexec : s.executing with
      | main =>
          rw [Thread.step, if_neg (not_not.mpr hended)]
          simpa only [hexec, if_true] using h
      | co c => exact hleaves c hexec _ (by simp)
  | throws =>
      cases hexec : s.executing with
      | main =>
          rw [Thread.step, if_neg (not_not.mpr hended)]
          simpa only [hexec, if_true] using h
      | co c => exact hleaves c hexec _ (by simp)

/-- A proper thread is coherent. -/
theorem coherent (h : s.Proper) : s.Coherent where
  alive := h.alive.imp id And.left
  running := by
    rw [getRunningCo, h.running]
    by_cases hmade : s.made = 0
    · have hmain : ¬ (s.heap .main).isSome := fun hmain => h.main.mp hmain hmade
      simp only [if_pos hmade]
      exact if_neg hmain
    · simp only [if_neg hmade]
  only := by
    intro hmade who
    have hsome : (s.heap s.executing).isSome := by
      cases hexec : s.executing with
      | main => exact h.main.mpr hmade
      | co c => exact (h.waits c hexec).1
    constructor
    · intro hst
      rcases Option.map_eq_some_iff.mp hst with ⟨o, ho, hst⟩
      exact (h.fits who o ho).running.mp hst
    · rintro rfl
      rcases Option.isSome_iff_exists.mp hsome with ⟨o, ho⟩
      rw [state, ho, Option.map_some, (h.fits _ _ ho).running.mpr rfl]
  back := by
    intro c hc e he
    rcases h.leaves hc e he with ⟨o, -, -, heq⟩
    rw [heq, (h.waits c hc).2.2]
    exact ⟨h.alive_of_executing hc, rfl⟩

/-- A coroutine that resumes another one stays `RUNNING`; one that resumes the main coroutine
goes on as the main one. -/
theorem nested (h : s.Proper) {who : Who} (hresumable : s.Resumable (.resume who))
    (hc : s.executing = .co c) : ¬ (s.step (.resume who)).Coherent := by
  rcases h.exists_of_resumable hresumable with ⟨o, ho, hst, hwho⟩
  rcases h.waits c hc with ⟨hsome, hmain, -⟩
  rcases Option.isSome_iff_exists.mp hsome with ⟨p, hp⟩
  have hrunning := (h.fits _ _ hp).running.mpr hc.symm
  have hmade := h.made_ne_zero hp
  rw [Thread.step, if_neg (not_not.mpr (h.alive_of_executing hc))]
  intro hcoherent
  cases who with
  | co d =>
      rw [hc] at hwho
      simp only [resume_co hmain ho hst (h.fits _ _ ho).ready] at hcoherent
      have honly := (hcoherent.only hmade (.co c)).mp
      simp only [state, Function.update_of_ne hwho.symm,
        Function.update_of_ne (Who.noConfusion : Who.co c ≠ .main),
        hp, Option.map_some, hrunning] at honly
      exact hwho (honly trivial).symm
  | main =>
      have hstate : s.state .main = some .YIELD := by rw [state, hmain]; rfl
      have hrun := hcoherent.running
      simp [resume, hstate, swapcontext, setState, modify, hmain, setcontext, getRunningCo, hmade,
        hc] at hrun

end Proper

/-! ## Whole runs -/

/-- Between all events of a thread, the running coroutine is the one that executes, it alone is
`RUNNING`, and it gives control back to the context that resumed it, exactly if `resume` is
called from the main context only. -/
theorem resumes_iff (events : List Event) (hresumable : AllMeets step Resumable start events) :
    (∀ n, ((events.take n).foldl step start).Coherent) ↔ AllMeets step FromMain start events := by
  apply forall_take_iff_of_allowed Proper Coherent (fun _ h => h.coherent) _ _ events
    start_proper hresumable
  · intro s e h hallowed hfrom
    exact h.step hallowed hfrom
  · intro s e h hallowed hfrom
    cases e with
    | resume who =>
        cases hexec : s.executing with
        | main => exact absurd hexec hfrom
        | co c => exact h.nested hallowed hexec
    | create => exact absurd trivial hfrom
    | yield => exact absurd trivial hfrom
    | reset c => exact absurd trivial hfrom
    | returns => exact absurd trivial hfrom
    | throws => exact absurd trivial hfrom

/-- A coroutine is resumed twice, returns, is reset and throws. -/
theorem resumes_iff_again :
    let events := [Event.create, .resume (.co 0), .yield, .resume (.co 0), .returns, .reset 0,
      .resume (.co 0), .throws]
    AllMeets step Resumable start events ∧ ∀ n, ((events.take n).foldl step start).Coherent := by
  intro events
  have hresumable : AllMeets step Resumable start events :=
    ⟨trivial, .inl rfl, trivial, .inr rfl, trivial, trivial, .inl rfl, trivial, trivial⟩
  refine ⟨hresumable, (resumes_iff events hresumable).mpr ?_⟩
  exact ⟨trivial, rfl, trivial, rfl, trivial, trivial, rfl, trivial, trivial⟩

/-- A coroutine that resumes another one stays `RUNNING` beside it.  When the other one yields,
the first one goes on as the main coroutine, and its own `Yield` fails the assertion. -/
theorem resumes_fails :
    let events := [Event.create, .create, .resume (.co 0), .resume (.co 1), .yield]
    AllMeets step Resumable start events ∧
    ((events.take 4).foldl step start).state (.co 0) = some .RUNNING ∧
    ((events.take 4).foldl step start).state (.co 1) = some .RUNNING ∧
    (events.foldl step start).executing = .co 0 ∧
    (events.foldl step start).getRunningCo = some .main ∧
    ((events.foldl step start).step .yield).ended = some (.assertion (.co 0)) ∧
    ¬ ∀ n, ((events.take n).foldl step start).Coherent := by
  refine ⟨⟨trivial, trivial, .inl rfl, .inl rfl, trivial, trivial⟩, rfl, rfl, rfl, rfl, rfl, ?_⟩
  intro h
  have hrunning := (h 5).running
  revert hrunning
  decide

end Thread

end Coroutine
end Tiger
