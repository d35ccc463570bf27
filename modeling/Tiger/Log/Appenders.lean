import Mathlib.Tactic
import Tiger.Lib.Interleaving

/-!
# Log - loggers and appenders

This module embeds `Logger::log` and the appenders (`src/log.cc`), as they run side by side: a
call of `log` holds the lock of its logger and goes through the appenders one by one; appenders can
be shared by loggers and have a lock of their own.  A step is one that the thread in question takes
under a lock, or a test in front of it.

Main results:

- Theorem `step_dispatched`: the step lemma.
- Theorem `run_dispatched`: whatever the interleaving, each call of `log` reaches each appender of
  its logger once, in the order of the calls.
-/

namespace Tiger
namespace Log

open Lib (runSteps)

/-! ## Appenders -/

/-- `LogLevel::Level` -/
inductive Level
  | UNKNOW
  | DEBUG
  | INFO
  | WARN
  | ERROR
deriving DecidableEq

/-- The value of the enumerator. -/
def Level.toNat : Level → Nat
  | .UNKNOW => 0
  | .DEBUG => 1
  | .INFO => 2
  | .WARN => 3
  | .ERROR => 4

/-- `std::ofstream`, as far as opening and closing go. -/
structure Filestream where
  isOpen : Bool
  /-- neither `failbit` nor `badbit` is set -/
  good : Bool
deriving DecidableEq

namespace Filestream

/-- `close`, which fails on a stream that is not open. -/
def close (s : Filestream) : Filestream := ⟨false, s.good && s.isOpen⟩

/-- `open`, which fails on a stream that is open and clears the state when it succeeds. -/
def openFile (s : Filestream) (ok : Bool) : Filestream :=
  if s.isOpen then ⟨true, false⟩ else ⟨ok, ok⟩

/-- The stream behind `open_file`. -/
def reopen (s : Filestream) (ok : Bool) : Filestream :=
  let closed := if s.good then s.close else s
  closed.openFile ok

end Filestream

/-- A line that a file has taken: its event, the time of the test in front of it, and the time when
it was written. -/
structure Line (α : Type) where
  event : α
  tested : Int
  written : Int
deriving DecidableEq

/-- A file that was opened, with the lines that were written into it from then on. -/
structure Opening (α : Type) where
  start : Int
  lines : List (Line α)
deriving DecidableEq

/-- `FileLogAppender`.  The last member records the files, the newest first. -/
structure FileLogAppender (α : Type) where
  interval : Nat
  startTime : Int
  endTime : Int
  stream : Filestream
  openings : List (Opening α)
deriving DecidableEq

namespace FileLogAppender

variable {α : Type}

/-- `open_file`, at a time; `ok` is what the system says. -/
def openFile (f : FileLogAppender α) (now : Int) (ok : Bool) : FileLogAppender α :=
  let stream := f.stream.reopen ok
  { f with
    startTime := now
    endTime := now + f.interval
    stream := stream
    openings := if stream.good then ⟨now, []⟩ :: f.openings else f.openings }

/-- The constructor, at a time. -/
def create (interval : Nat) (now : Int) (ok : Bool) : FileLogAppender α :=
  let interval := if interval < 3600 then 3600 else interval / 3600 * 3600
  openFile ⟨interval, now - now % 3600, 0, ⟨false, true⟩, []⟩ now ok

/-- `m_formatter->format` into the file; `ok` says whether the stream takes all of it. -/
def write (f : FileLogAppender α) (line : Line α) (ok : Bool) : FileLogAppender α :=
  if f.stream.good then
    if ok then
      { f with openings := f.openings.modifyHead fun o => { o with lines := o.lines ++ [line] } }
    else { f with stream := { f.stream with good := false } }
  else f

end FileLogAppender

/-- A `LogAppender`: a `FileLogAppender`, or a `StdOutLogAppender`.  `out` records what was
formatted for it. -/
structure Appender (α : Type) where
  level : Level
  file : Option (FileLogAppender α)
  out : List α
deriving DecidableEq

/-- `level >= m_level` -/
def Appender.accepts {α : Type} (a : Appender α) (level : Level) : Bool :=
  decide (a.level.toNat ≤ level.toNat)

/-! ## Loggers -/

/-- Where a call of `Logger::log` is that holds the lock. -/
inductive Place (κ : Type)
  /-- in front of the level test of an appender, or behind the last one -/
  | next
  /-- behind `now > m_end_time` -/
  | rotate (a : κ) (tested : Int)
  /-- in front of the lock for the line -/
  | write (a : κ) (tested : Int)
deriving DecidableEq

/-- The appender that the call has yet to write to. -/
def Place.here {κ : Type} : Place κ → List κ
  | .next => []
  | .rotate a _ | .write a _ => [a]

/-- A call of `Logger::log` that holds the lock. -/
structure Walk (κ ε : Type) where
  level : Level
  event : ε
  place : Place κ
  /-- the appenders behind -/
  rest : List κ
deriving DecidableEq

/-- `Logger`, with the call that holds its lock. -/
structure Logger (κ ε : Type) where
  level : Level
  appenders : List κ
  walk : Option (Walk κ ε)
deriving DecidableEq

/-- A call that has got the lock, with the appenders that it found. -/
structure Call (κ ε : Type) where
  level : Level
  event : ε
  appenders : List κ
deriving DecidableEq

/-- The loggers and the appenders.  `calls` records the calls in the order in which they got the
lock of their logger. -/
structure Logging (ι κ ε : Type) where
  loggers : ι → Logger κ ε
  appenders : κ → Appender (ι × ε)
  now : Int
  calls : ι → List (Call κ ε)

/-- What the threads do. -/
inductive LogStep (ι κ ε : Type)
  /-- `log`, up to the lock -/
  | log (g : ι) (level : Level) (event : ε)
  /-- the tests of the next appender -/
  | test (g : ι)
  /-- `open_file` -/
  | rotate (g : ι) (ok : Bool)
  /-- the line is formatted -/
  | write (g : ι) (ok : Bool)
  /-- the end of `log` -/
  | unlock (g : ι)
  | addAppender (g : ι) (a : κ)
  | delAppender (g : ι) (a : κ)
  /-- the clock goes on -/
  | tick (seconds : Nat)
deriving DecidableEq

/-- Where the step opens a file, the system does so. -/
def LogStep.opens {ι κ ε : Type} : LogStep ι κ ε → Bool
  | .rotate _ ok => ok
  | _ => true

/-- How an appender is created: its level, and for a file its interval and what `open` says. -/
structure AppenderDefine where
  level : Level
  file : Option (Nat × Bool)
deriving DecidableEq

namespace Logging

variable {ι κ ε : Type} [DecidableEq ι] [DecidableEq κ]

/-- Loggers and appenders that were just created. -/
def start (now : Int) (loggers : ι → Level × List κ) (defines : κ → AppenderDefine) :
    Logging ι κ ε where
  loggers g := ⟨(loggers g).1, (loggers g).2, none⟩
  appenders a := ⟨(defines a).level, (defines a).file.map fun d => .create d.1 now d.2, []⟩
  now := now
  calls _ := []

/-- The call that holds the lock goes on. -/
def go (s : Logging ι κ ε) (g : ι) (walk : Option (Walk κ ε)) : Logging ι κ ε :=
  { s with loggers := Function.update s.loggers g { s.loggers g with walk := walk } }

/-- A call gets the lock. -/
def lock (s : Logging ι κ ε) (g : ι) (level : Level) (event : ε) : Logging ι κ ε :=
  let appenders := (s.loggers g).appenders
  { s.go g (some ⟨level, event, .next, appenders⟩) with
    calls := Function.update s.calls g (s.calls g ++ [⟨level, event, appenders⟩]) }

/-- The appender changes. -/
def setAppender (s : Logging ι κ ε) (a : κ) (appender : Appender (ι × ε)) : Logging ι κ ε :=
  { s with appenders := Function.update s.appenders a appender }

/-- The list of a logger whose lock is free changes. -/
def setAppenders (s : Logging ι κ ε) (g : ι) (appenders : List κ) : Option (Logging ι κ ε) :=
  if (s.loggers g).walk.isNone then
    some { s with
      loggers := Function.update s.loggers g { s.loggers g with appenders := appenders } }
  else none

/-- The tests of `StdOutLogAppender::log` and `FileLogAppender::log`. -/
def testPlace (s : Logging ι κ ε) (a : κ) (level : Level) : Place κ :=
  if (s.appenders a).accepts level then
    match (s.appenders a).file with
    | none => .write a s.now
    | some f => if f.endTime < s.now then .rotate a s.now else .write a s.now
  else .next

/-- The appender behind the line. -/
def written (s : Logging ι κ ε) (g : ι) (a : κ) (event : ε) (tested : Int) (ok : Bool) :
    Appender (ι × ε) :=
  { s.appenders a with
    file := (s.appenders a).file.map fun f => f.write ⟨(g, event), tested, s.now⟩ ok
    out := (s.appenders a).out ++ [(g, event)] }

/-- One step; `none` where it cannot be taken. -/
def step (s : Logging ι κ ε) : LogStep ι κ ε → Option (Logging ι κ ε)
  | .log g level event =>
      if level.toNat < (s.loggers g).level.toNat then some s
      else if (s.loggers g).walk.isNone then some (s.lock g level event)
      else none
  | .test g =>
      match (s.loggers g).walk with
      | some ⟨level, event, .next, a :: rest⟩ =>
          some (s.go g (some ⟨level, event, s.testPlace a level, rest⟩))
      | _ => none
  | .rotate g ok =>
      match (s.loggers g).walk with
      | some ⟨level, event, .rotate a tested, rest⟩ =>
          let appender := s.appenders a
          let file := appender.file.map fun f => f.openFile s.now ok
          some ((s.setAppender a { appender with file := file }).go g
            (some ⟨level, event, .write a tested, rest⟩))
      | _ => none
  | .write g ok =>
      match (s.loggers g).walk with
      | some ⟨level, event, .write a tested, rest⟩ =>
          some ((s.setAppender a (s.written g a event tested ok)).go g
            (some ⟨level, event, .next, rest⟩))
      | _ => none
  | .unlock g =>
      match (s.loggers g).walk with
      | some ⟨_, _, .next, []⟩ => some (s.go g none)
      | _ => none
  | .addAppender g a => s.setAppenders g ((s.loggers g).appenders ++ [a])
  | .delAppender g a => s.setAppenders g ((s.loggers g).appenders.erase a)
  | .tick seconds => some { s with now := s.now + seconds }

/-- Steps one after the other. -/
def run (s : Logging ι κ ε) (steps : List (LogStep ι κ ε)) : Option (Logging ι κ ε) :=
  runSteps step s steps

/-! ## Once and in order -/

/-- What was formatted for an appender on behalf of a logger. -/
def outOf (s : Logging ι κ ε) (g : ι) (a : κ) : List ε :=
  ((s.appenders a).out.filter fun line => decide (line.1 = g)).map (·.2)

/-- How often an appender is to get an event of a level from a list of appenders. -/
def times (s : Logging ι κ ε) (a : κ) (level : Level) (appenders : List κ) : Nat :=
  if (s.appenders a).accepts level then appenders.count a else 0

/-- What the calls of a logger have for an appender. -/
def due (s : Logging ι κ ε) (g : ι) (a : κ) : List ε :=
  (s.calls g).flatMap fun c => List.replicate (s.times a c.level c.appenders) c.event

/-- What the call that holds the lock has yet for an appender. -/
def pending (s : Logging ι κ ε) (g : ι) (a : κ) : List ε :=
  match (s.loggers g).walk with
  | none => []
  | some w => List.replicate (s.times a w.level (w.place.here ++ w.rest)) w.event

/-- Each call of `log` reaches each appender once; the call that holds a lock still has what is
missing.  An appender is in front of a call when it accepts the level. -/
structure Dispatched (s : Logging ι κ ε) : Prop where
  accounts : ∀ g a, s.outOf g a ++ s.pending g a = s.due g a
  accepted : ∀ g w, (s.loggers g).walk = some w →
    ∀ a ∈ w.place.here, (s.appenders a).accepts w.level = true

/-- At the start no event is due. -/
theorem start_dispatched (now : Int) (loggers : ι → Level × List κ) (defines : κ → AppenderDefine) :
    (start (ε := ε) now loggers defines).Dispatched where
  accounts _ _ := rfl
  accepted _ _ hw := by cases hw

section Steps

variable {s s' : Logging ι κ ε} {g g' : ι} {a : κ}

/-! ### What the updates change -/

omit [DecidableEq ι] in
theorem pending_of_walk {w : Walk κ ε} (hw : (s.loggers g).walk = some w) (a : κ) :
    s.pending g a = List.replicate (s.times a w.level (w.place.here ++ w.rest)) w.event := by
  rw [pending, hw]

omit [DecidableEq ι] in
theorem pending_of_none (hw : (s.loggers g).walk = none) (a : κ) : s.pending g a = [] := by
  rw [pending, hw]

omit [DecidableEq κ] in
theorem go_walk (s : Logging ι κ ε) (g : ι) (walk : Option (Walk κ ε)) :
    ((s.go g walk).loggers g).walk = walk := by
  simp only [go, Function.update_self]

omit [DecidableEq κ] in
theorem go_walk_of_ne (s : Logging ι κ ε) (walk : Option (Walk κ ε)) (hne : g' ≠ g) :
    ((s.go g walk).loggers g').walk = (s.loggers g').walk := by
  simp only [go, Function.update_of_ne hne]

/-- Other loggers keep what is pending. -/
theorem go_pending_of_ne (s : Logging ι κ ε) (walk : Option (Walk κ ε)) (hne : g' ≠ g) (a : κ) :
    (s.go g walk).pending g' a = s.pending g' a := by
  rw [pending, pending, go_walk_of_ne s walk hne]
  rfl

/-- The call of a logger goes on without a line. -/
theorem Dispatched.go (h : s.Dispatched) (walk : Option (Walk κ ε))
    (hpending : ∀ a, (s.go g walk).pending g a = s.pending g a)
    (haccepted : ∀ w, walk = some w → ∀ a ∈ w.place.here, (s.appenders a).accepts w.level = true) :
    (s.go g walk).Dispatched where
  accounts g' a := by
    have hg' : (s.go g walk).pending g' a = s.pending g' a := by
      by_cases hg : g' = g
      · rw [hg, hpending]
      · exact go_pending_of_ne s walk hg a
    rw [hg']
    exact h.accounts g' a
  accepted g' w hw := by
    by_cases hg : g' = g
    · rw [hg, go_walk] at hw
      exact haccepted w hw
    · rw [go_walk_of_ne s walk hg] at hw
      exact h.accepted g' w hw

section SetAppender

variable {appender : Appender (ι × ε)}

omit [DecidableEq ι] in
/-- An appender with the same level accepts the same. -/
theorem setAppender_accepts (hlevel : appender.level = (s.appenders a).level) (b : κ)
    (level : Level) :
    ((s.setAppender a appender).appenders b).accepts level = (s.appenders b).accepts level := by
  by_cases hb : b = a
  · simp only [setAppender, hb, Function.update_self, Appender.accepts, hlevel]
  · simp only [setAppender, Function.update_of_ne hb]

omit [DecidableEq ι] in
/-- An appender with the same level is reached as often. -/
theorem setAppender_times (hlevel : appender.level = (s.appenders a).level) (b : κ) (level : Level)
    (appenders : List κ) :
    (s.setAppender a appender).times b level appenders = s.times b level appenders := by
  rw [times, times, setAppender_accepts hlevel]

omit [DecidableEq ι] in
/-- An appender with the same level is due the same events. -/
theorem setAppender_due (hlevel : appender.level = (s.appenders a).level) (g : ι) (b : κ) :
    (s.setAppender a appender).due g b = s.due g b := by
  simp only [due, setAppender_times hlevel]
  rfl

omit [DecidableEq ι] in
/-- An appender with the same level has the same events pending. -/
theorem setAppender_pending (hlevel : appender.level = (s.appenders a).level) (g : ι) (b : κ) :
    (s.setAppender a appender).pending g b = s.pending g b := by
  simp only [pending, setAppender_times hlevel]
  rfl

/-- An appender with the same output has put out the same. -/
theorem setAppender_outOf (hout : appender.out = (s.appenders a).out) (g : ι) (b : κ) :
    (s.setAppender a appender).outOf g b = s.outOf g b := by
  by_cases hb : b = a
  · simp only [outOf, setAppender, hb, Function.update_self, hout]
  · simp only [outOf, setAppender, Function.update_of_ne hb]

/-- The file of an appender changes. -/
theorem Dispatched.setAppender (h : s.Dispatched) (hlevel : appender.level = (s.appenders a).level)
    (hout : appender.out = (s.appenders a).out) : (s.setAppender a appender).Dispatched where
  accounts g b := by
    rw [setAppender_outOf hout, setAppender_pending hlevel, setAppender_due hlevel]
    exact h.accounts g b
  accepted g w hw b hb := by
    rw [setAppender_accepts hlevel]
    exact h.accepted g w hw b hb

end SetAppender

omit [DecidableEq ι] in
/-- What the appenders of a list get, the first of them in front. -/
theorem times_cons (s : Logging ι κ ε) (a b : κ) (level : Level) (rest : List κ) :
    s.times b level (a :: rest) = s.times b level [a] + s.times b level rest := by
  rw [times, times, times]
  split
  · rw [List.count_cons, List.count_singleton, Nat.add_comm]
  · rfl

/-- What is formatted for an appender. -/
theorem outOf_written (s : Logging ι κ ε) (g g' : ι) (a b : κ) (event : ε) (tested : Int)
    (ok : Bool) :
    (s.setAppender a (s.written g a event tested ok)).outOf g' b =
      s.outOf g' b ++ if g = g' ∧ a = b then [event] else [] := by
  by_cases hb : b = a
  · subst hb
    by_cases hg : g = g'
    · simp [outOf, setAppender, written, hg]
    · simp [outOf, setAppender, written, hg]
  · have hb' : a ≠ b := fun h => hb h.symm
    simp [outOf, setAppender, Function.update_of_ne hb, hb']

/-- The line of the appender in front is formatted. -/
theorem Dispatched.write (h : s.Dispatched) {level : Level} {event : ε} {tested : Int}
    {rest : List κ} (hw : (s.loggers g).walk = some ⟨level, event, .write a tested, rest⟩)
    (ok : Bool) :
    ((s.setAppender a (s.written g a event tested ok)).go g
      (some ⟨level, event, .next, rest⟩)).Dispatched where
  accounts g' b := by
    have haccepted := h.accepted g _ hw a (by simp [Place.here])
    have hlevel : (s.written g a event tested ok).level = (s.appenders a).level := rfl
    have hdue : ((s.setAppender a (s.written g a event tested ok)).go g
        (some ⟨level, event, .next, rest⟩)).due g' b = s.due g' b :=
      setAppender_due hlevel g' b
    have hout : ((s.setAppender a (s.written g a event tested ok)).go g
        (some ⟨level, event, .next, rest⟩)).outOf g' b =
          s.outOf g' b ++ if g = g' ∧ a = b then [event] else [] :=
      outOf_written s g g' a b event tested ok
    rw [hdue, hout, ← h.accounts g' b, List.append_assoc, List.append_cancel_left_eq]
    by_cases hg : g' = g
    · subst hg
      have htimes : ((s.setAppender a (s.written g' a event tested ok)).go g'
          (some ⟨level, event, .next, rest⟩)).times b level rest = s.times b level rest :=
        setAppender_times hlevel b level rest
      have hone : s.times b level [a] = if a = b then 1 else 0 := by
        by_cases hb : a = b
        · subst hb
          simp [times, haccepted]
        · simp [times, hb]
      rw [pending_of_walk (go_walk ..), pending_of_walk hw]
      simp only [Place.here, List.nil_append, List.singleton_append, true_and]
      rw [htimes, times_cons, hone, List.replicate_add]
      split <;> rfl
    · have hg' : g ≠ g' := fun heq => hg heq.symm
      rw [go_pending_of_ne _ _ hg, setAppender_pending hlevel]
      simp [hg']
  accepted g' w hw' b hb := by
    have hlevel : (s.written g a event tested ok).level = (s.appenders a).level := rfl
    have hsame := setAppender_accepts hlevel b w.level
    by_cases hg : g' = g
    · rw [hg, go_walk] at hw'
      cases hw'
      cases hb
    · rw [go_walk_of_ne _ _ hg] at hw'
      exact hsame.trans (h.accepted g' w hw' b hb)

omit [DecidableEq ι] [DecidableEq κ] in
/-- The test of the level lets the accepted events through. -/
theorem testPlace_here (s : Logging ι κ ε) (a : κ) (level : Level) :
    (s.testPlace a level).here = if (s.appenders a).accepts level then [a] else [] := by
  unfold testPlace
  split
  · split
    · rfl
    · split <;> rfl
  · rfl

omit [DecidableEq ι] in
/-- An appender that does not accept the level is passed over. -/
theorem testPlace_times (s : Logging ι κ ε) (a b : κ) (level : Level) (rest : List κ) :
    s.times b level ((s.testPlace a level).here ++ rest) = s.times b level (a :: rest) := by
  rw [testPlace_here]
  split
  · rfl
  · rename_i haccepts
    rw [times_cons]
    by_cases hb : a = b
    · subst hb
      simp [times, haccepts]
    · simp [times, hb]

omit [DecidableEq κ] in
/-- A logger that takes its lock walks over its appenders. -/
theorem lock_walk (s : Logging ι κ ε) (g : ι) (level : Level) (event : ε) :
    ((s.lock g level event).loggers g).walk =
      some ⟨level, event, .next, (s.loggers g).appenders⟩ :=
  go_walk s g _

omit [DecidableEq κ] in
theorem lock_walk_of_ne (s : Logging ι κ ε) (level : Level) (event : ε) (hne : g' ≠ g) :
    ((s.lock g level event).loggers g').walk = (s.loggers g').walk :=
  go_walk_of_ne s _ hne

/-- A call gets the lock. -/
theorem Dispatched.lock (h : s.Dispatched) (hnone : (s.loggers g).walk = none) (level : Level)
    (event : ε) : (s.lock g level event).Dispatched where
  accounts g' b := by
    have haccounts := h.accounts g' b
    by_cases hg : g' = g
    · subst hg
      rw [pending_of_none hnone, List.append_nil] at haccounts
      have hdue : (s.lock g' level event).due g' b = s.due g' b ++
          List.replicate (s.times b level (s.loggers g').appenders) event := by
        simp only [due, Logging.lock, Function.update_self, List.flatMap_append,
          List.flatMap_singleton]
        rfl
      rw [pending_of_walk (lock_walk s g' level event), hdue, ← haccounts]
      rfl
    · have hdue : (s.lock g level event).due g' b = s.due g' b := by
        simp only [due, Logging.lock, Function.update_of_ne hg]
        rfl
      rw [hdue, ← haccounts, pending, lock_walk_of_ne s level event hg]
      rfl
  accepted g' w hw b hb := by
    by_cases hg : g' = g
    · rw [hg, lock_walk] at hw
      cases hw
      cases hb
    · rw [lock_walk_of_ne s level event hg] at hw
      exact h.accepted g' w hw b hb

/-- The list of a logger changes while no call holds the lock. -/
theorem Dispatched.setAppenders (h : s.Dispatched) {appenders : List κ}
    (hset : s.setAppenders g appenders = some s') : s'.Dispatched := by
  obtain ⟨-, hs⟩ := Option.ite_none_right_eq_some.mp hset
  cases hs
  have hwalk : ∀ g', (Function.update s.loggers g
      { s.loggers g with appenders := appenders } g').walk = (s.loggers g').walk := by
    intro g'
    by_cases hg : g' = g
    · rw [hg, Function.update_self]
    · rw [Function.update_of_ne hg]
  constructor
  · intro g' b
    rw [pending, hwalk]
    exact h.accounts g' b
  · intro g' w hw
    rw [hwalk] at hw
    exact h.accepted g' w hw

/-- The step lemma. -/
theorem step_dispatched {st : LogStep ι κ ε} (h : s.Dispatched) (hstep : step s st = some s') :
    s'.Dispatched := by
  cases st with
  | log g level event =>
      simp only [step] at hstep
      split at hstep
      · cases hstep
        exact h
      obtain ⟨hnone, hs⟩ := Option.ite_none_right_eq_some.mp hstep
      cases hs
      exact h.lock (Option.isNone_iff_eq_none.mp hnone) level event
  | test g =>
      simp only [step] at hstep
      split at hstep <;> cases hstep
      rename_i level event a rest hw
      apply h.go
      · intro b
        rw [pending_of_walk (go_walk ..), pending_of_walk hw]
        exact congrArg (List.replicate · event) (testPlace_times s a b level rest)
      · rintro _ ⟨⟩ b hb
        rw [testPlace_here] at hb
        split at hb
        · rename_i haccepts
          rw [List.mem_singleton.mp hb]
          exact haccepts
        · cases hb
  | rotate g ok =>
      simp only [step] at hstep
      split at hstep <;> cases hstep
      rename_i level event a tested rest hw
      have hset : (s.setAppender a { s.appenders a with
          file := (s.appenders a).file.map fun f => f.openFile s.now ok }).Dispatched :=
        h.setAppender rfl rfl
      have haccepted := hset.accepted g _ hw
      apply hset.go
      · intro b
        rw [pending_of_walk (go_walk ..)]
        exact (pending_of_walk (s := s.setAppender a _) hw b).symm
      · rintro _ ⟨⟩
        exact haccepted
  | write g ok =>
      simp only [step] at hstep
      split at hstep <;> cases hstep
      rename_i level event a tested rest hw
      exact h.write hw ok
  | unlock g =>
      simp only [step] at hstep
      split at hstep <;> cases hstep
      rename_i level event hw
      apply h.go
      · intro b
        rw [pending_of_none (go_walk ..), pending_of_walk hw]
        simp [Place.here, times]
      · rintro _ ⟨⟩
  | addAppender g a | delAppender g a => exact h.setAppenders hstep
  | tick seconds =>
      cases hstep
      exact ⟨h.accounts, h.accepted⟩

end Steps

/-- Whatever the interleaving, what an appender has got from a logger is what the calls of `log`
have for it, in the order of the calls and without the part that the call in progress has yet to
do. -/
theorem run_dispatched {now : Int} {loggers : ι → Level × List κ} {defines : κ → AppenderDefine}
    {steps : List (LogStep ι κ ε)} {s : Logging ι κ ε}
    (h : run (start now loggers defines) steps = some s) (g : ι) (a : κ) :
    s.outOf g a <+: s.due g a ∧
      ((s.loggers g).walk = none → s.outOf g a = s.due g a) := by
  have hs : s.Dispatched :=
    Lib.invariant_of_runSteps (fun _ _ _ hs hstep => step_dispatched hs hstep) h
      (start_dispatched now loggers defines)
  constructor
  · exact ⟨s.pending g a, hs.accounts g a⟩
  · intro hnone
    rw [← hs.accounts g a, pending_of_none hnone, List.append_nil]

/-- Two loggers share an appender, and log side by side. -/
def sharedSteps : List (LogStep Bool Unit Nat) :=
  [.log false .INFO 1, .log true .WARN 2, .test false, .test true, .write true true,
    .write false true, .unlock false, .log false .DEBUG 3, .unlock true, .log false .ERROR 4,
    .test false, .write false true, .unlock false]

/-- Two loggers over one appender. -/
theorem run_dispatched_shared :
    ∃ s, run (start 0 (fun _ => (.INFO, [()])) fun _ => ⟨.INFO, none⟩) sharedSteps = some s ∧
      (s.appenders ()).out = [(true, 2), (false, 1), (false, 4)] ∧
      s.outOf false () = s.due false () := by
  refine ⟨_, rfl, by decide, ?_⟩
  have hrun : run (start 0 (fun _ => (.INFO, [()])) fun _ => ⟨.INFO, none⟩) sharedSteps =
      some _ := rfl
  exact (run_dispatched hrun false ()).2 rfl

end Logging
end Log
end Tiger
