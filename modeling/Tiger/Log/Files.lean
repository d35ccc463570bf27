import Tiger.Log.Appenders

/-!
# Log - the files of an appender

`FileLogAppender` opens another file when its time has passed (`src/log.cc`).  The test for that
stands in front of the locks, so another thread can change the file between the test and the line.

Main results:

- Theorem `step_appender`: what one step does to an appender.
- Theorem `run_files`: files follow one another in time, and a line is in a file whose time had not
  passed when the line was tested.
- Theorem `run_lines`: without failing opens the files hold all lines in order up to the first write
  that fails, and from then on nothing more.
-/

namespace Tiger
namespace Log

/-! ## One file -/

section Files

variable {α : Type}

/-- A line keeps to its file: it was written behind the opening, and tested in time. -/
structure Line.Keeps (l : Line α) (start : Int) (interval : Nat) (now : Int) : Prop where
  behind : start ≤ l.written
  tested : l.tested ≤ l.written
  inTime : l.tested ≤ start + interval
  past : l.written ≤ now

/-- The newer file was opened behind all that the older one holds. -/
def Opening.Behind (new old : Opening α) : Prop :=
  old.start ≤ new.start ∧ ∀ l ∈ old.lines, l.written ≤ new.start

namespace FileLogAppender

/-- What holds of the files between any two steps. -/
structure Sound (f : FileLogAppender α) (now : Int) : Prop where
  started : f.startTime ≤ now
  ending : f.endTime = f.startTime + f.interval
  current : f.stream.good = true → ∃ o rest, f.openings = o :: rest ∧ o.start = f.startTime
  opened : ∀ o ∈ f.openings, o.start ≤ f.startTime
  lines : ∀ o ∈ f.openings, ∀ l ∈ o.lines, l.Keeps o.start f.interval now
  ordered : f.openings.Pairwise Opening.Behind

variable {f : FileLogAppender α} {now : Int}

/-- A sound file appender is sound later on. -/
theorem Sound.later (h : f.Sound now) {later : Int} (hle : now ≤ later) : f.Sound later :=
  { h with
    started := h.started.trans hle
    lines := fun o ho l hl =>
      { h.lines o ho l hl with past := (h.lines o ho l hl).past.trans hle } }

/-- Another file is opened, or that fails. -/
theorem openFile_sound (hopened : ∀ o ∈ f.openings, o.start ≤ now)
    (hlines : ∀ o ∈ f.openings, ∀ l ∈ o.lines, l.Keeps o.start f.interval now)
    (hordered : f.openings.Pairwise Opening.Behind) (ok : Bool) :
    (f.openFile now ok).Sound now := by
  by_cases hgood : (f.stream.reopen ok).good = true
  · simp only [FileLogAppender.openFile, hgood, if_true]
    refine
      { started := le_refl now, ending := rfl, current := fun _ => ⟨_, _, rfl, rfl⟩
        opened := ?_, lines := ?_, ordered := ?_ }
    · intro o ho
      rcases List.mem_cons.mp ho with rfl | ho
      · exact le_refl now
      · exact hopened o ho
    · intro o ho l hl
      rcases List.mem_cons.mp ho with rfl | ho
      · cases hl
      · exact hlines o ho l hl
    · refine List.pairwise_cons.mpr ⟨?_, hordered⟩
      intro o ho
      exact ⟨hopened o ho, fun l hl => (hlines o ho l hl).past⟩
  · simp only [FileLogAppender.openFile, hgood]
    exact
      { started := le_refl now, ending := rfl, current := fun h => absurd h hgood
        opened := hopened, lines := hlines, ordered := hordered }

theorem Sound.openFile (h : f.Sound now) (ok : Bool) : (f.openFile now ok).Sound now :=
  openFile_sound (fun o ho => (h.opened o ho).trans h.started) h.lines h.ordered ok

theorem create_sound (interval : Nat) (now : Int) (ok : Bool) :
    (create (α := α) interval now ok).Sound now :=
  openFile_sound (by simp) (by simp) List.Pairwise.nil ok

/-- A line that was tested in time is written. -/
theorem Sound.write (h : f.Sound now) (event : α) {tested : Int} (hnow : tested ≤ now)
    (hin : tested ≤ f.endTime) (ok : Bool) : (f.write ⟨event, tested, now⟩ ok).Sound now := by
  unfold FileLogAppender.write
  split
  case isFalse => exact h
  case isTrue hgood =>
    cases ok with
    | false => exact { h with current := fun hbad => by cases hbad }
    | true =>
        obtain ⟨o, rest, hopenings, hstart⟩ := h.current hgood
        have hopened := h.opened
        have hlines := h.lines
        have hordered := h.ordered
        rw [hopenings] at hopened hlines hordered
        have hline : Line.Keeps ⟨event, tested, now⟩ o.start f.interval now :=
          { behind := by rw [hstart]; exact h.started
            tested := hnow
            inTime := by rw [hstart, ← h.ending]; exact hin
            past := le_refl now }
        simp only [if_true, hopenings, List.modifyHead_cons]
        refine
          { started := h.started, ending := h.ending, current := fun _ => ⟨_, _, rfl, hstart⟩
            opened := ?_, lines := ?_, ordered := ?_ }
        · intro o' ho'
          rcases List.mem_cons.mp ho' with rfl | ho'
          · exact hstart.le
          · exact hopened o' (List.mem_cons_of_mem _ ho')
        · intro o' ho' l hl
          rcases List.mem_cons.mp ho' with rfl | ho'
          · rcases List.mem_append.mp hl with hl | hl
            · exact hlines o List.mem_cons_self l hl
            · rw [List.mem_singleton.mp hl]
              exact hline
          · exact hlines o' (List.mem_cons_of_mem _ ho') l hl
        · obtain ⟨hhead, hrest⟩ := List.pairwise_cons.mp hordered
          exact List.pairwise_cons.mpr ⟨hhead, hrest⟩

/-- The interval of a sound appender does not move back. -/
theorem Sound.openFile_endTime (h : f.Sound now) (ok : Bool) :
    f.endTime ≤ (f.openFile now ok).endTime := by
  rw [h.ending]
  exact Int.add_le_add_right h.started _

/-- A write does not move the interval. -/
theorem write_endTime (f : FileLogAppender α) (line : Line α) (ok : Bool) :
    (f.write line ok).endTime = f.endTime := by
  unfold FileLogAppender.write
  split
  · split <;> rfl
  · rfl

/-- The events that the files hold, in the order in which they were written. -/
def linesOf (f : FileLogAppender α) : List α :=
  (f.openings.reverse.flatMap (·.lines)).map (·.event)

/-- The stream is fine and the files hold all lines, or it is open with a failed write and they hold
the lines up to some point. -/
def Complete (f : FileLogAppender α) (out : List α) : Prop :=
  (f.stream = ⟨true, true⟩ ∧ f.openings ≠ [] ∧ f.linesOf = out) ∨
    (f.stream = ⟨true, false⟩ ∧ f.linesOf <+: out)

/-- A stream with a failed write stays open, so that no file is opened any more. -/
theorem openFile_of_stuck (h : f.stream = ⟨true, false⟩) (now : Int) (ok : Bool) :
    (f.openFile now ok).stream = ⟨true, false⟩ ∧ (f.openFile now ok).openings = f.openings := by
  simp [FileLogAppender.openFile, Filestream.reopen, Filestream.openFile, h]

theorem write_of_stuck (h : f.stream = ⟨true, false⟩) (line : Line α) (ok : Bool) :
    f.write line ok = f := by
  simp [FileLogAppender.write, h]

/-- A new file holds nothing. -/
theorem create_complete (interval : Nat) (now : Int) :
    (create (α := α) interval now true).Complete [] :=
  .inl ⟨rfl, by simp [create, FileLogAppender.openFile, Filestream.reopen, Filestream.openFile,
    Filestream.close], rfl⟩

/-- Opening the file loses no line. -/
theorem Complete.openFile {out : List α} (h : f.Complete out) :
    (f.openFile now true).Complete out := by
  rcases h with ⟨hstream, -, hlines⟩ | ⟨hstream, hlines⟩
  · left
    simp [FileLogAppender.openFile, Filestream.reopen, Filestream.openFile, Filestream.close,
      hstream, linesOf, ← hlines]
  · right
    obtain ⟨hstuck, hopenings⟩ := openFile_of_stuck hstream now true
    rw [linesOf, hopenings]
    exact ⟨hstuck, hlines⟩

/-- A write to an open file puts the line behind the others. -/
theorem Complete.write {out : List α} (h : f.Complete out) (line : Line α) (ok : Bool) :
    (f.write line ok).Complete (out ++ [line.event]) := by
  rcases h with ⟨hstream, hne, hlines⟩ | ⟨hstream, hlines⟩
  · obtain ⟨o, rest, hopenings⟩ := List.exists_cons_of_ne_nil hne
    cases ok
    · right
      simp [FileLogAppender.write, hstream, linesOf, ← hlines]
    · left
      simp [FileLogAppender.write, hstream, linesOf, ← hlines, hopenings]
  · right
    rw [write_of_stuck hstream]
    exact ⟨hstream, hlines.trans (List.prefix_append ..)⟩

end FileLogAppender

end Files

/-! ## Steps -/

namespace Logging

variable {ι κ ε : Type} [DecidableEq ι] [DecidableEq κ] {s s' : Logging ι κ ε} {a : κ}

/-- What one step does to an appender: nothing, or it opens a file, or it writes a line of a call
that is in front of it. -/
theorem step_appender {st : LogStep ι κ ε} (hstep : step s st = some s') (a : κ) :
    s'.appenders a = s.appenders a ∨
      (∃ g ok, st = .rotate g ok ∧ s'.appenders a = { s.appenders a with
        file := (s.appenders a).file.map fun f => f.openFile s.now ok }) ∨
      ∃ g ok level event tested rest, st = .write g ok ∧
        (s.loggers g).walk = some ⟨level, event, .write a tested, rest⟩ ∧
        s'.appenders a = s.written g a event tested ok := by
  cases st with
  | log g level event =>
      simp only [step] at hstep
      split at hstep
      · cases hstep
        exact .inl rfl
      · obtain ⟨-, hs⟩ := Option.ite_none_right_eq_some.mp hstep
        cases hs
        exact .inl rfl
  | test g | unlock g =>
      simp only [step] at hstep
      split at hstep <;> cases hstep
      exact .inl rfl
  | addAppender g b | delAppender g b =>
      obtain ⟨-, hs⟩ := Option.ite_none_right_eq_some.mp hstep
      cases hs
      exact .inl rfl
  | tick seconds =>
      cases hstep
      exact .inl rfl
  | rotate g ok =>
      simp only [step] at hstep
      split at hstep <;> cases hstep
      rename_i b tested rest hw
      by_cases hb : a = b
      · subst hb
        exact .inr (.inl ⟨g, ok, rfl, Function.update_self ..⟩)
      · exact .inl (Function.update_of_ne hb ..)
  | write g ok =>
      simp only [step] at hstep
      split at hstep <;> cases hstep
      rename_i level event b tested rest hw
      by_cases hb : a = b
      · subst hb
        exact .inr (.inr ⟨g, ok, level, event, tested, rest, rfl, hw, Function.update_self ..⟩)
      · exact .inl (Function.update_of_ne hb ..)

/-- Where a call in front of a line comes from: it was there, or it has passed the tests, or it has
opened the file. -/
theorem step_walk {st : LogStep ι κ ε} (hstep : step s st = some s') {g : ι} {w : Walk κ ε}
    (hw : (s'.loggers g).walk = some w) (hplace : w.place ≠ .next) :
    (s.loggers g).walk = some w ∨
      (∃ b, w.place = s.testPlace b w.level ∧ s' = s.go g (some w)) ∨
      ∃ b tested ok, w.place = .write b tested ∧
        (s.loggers g).walk = some { w with place := .rotate b tested } ∧
        s' = (s.setAppender b { s.appenders b with
          file := (s.appenders b).file.map fun f => f.openFile s.now ok }).go g (some w) := by
  -- the call of another logger does not move
  have hother : ∀ {t : Logging ι κ ε} {g₁ : ι} {walk : Option (Walk κ ε)}, g ≠ g₁ →
      t.loggers = s.loggers → ((t.go g₁ walk).loggers g).walk = some w →
        (s.loggers g).walk = some w := by
    intro t g₁ walk hne ht hwalk
    rw [go_walk_of_ne t walk hne, ht] at hwalk
    exact hwalk
  cases st with
  | log g₁ level event =>
      simp only [step] at hstep
      split at hstep
      · cases hstep
        exact .inl hw
      · obtain ⟨-, hs⟩ := Option.ite_none_right_eq_some.mp hstep
        cases hs
        by_cases hg : g = g₁
        · subst hg
          rw [lock_walk] at hw
          cases hw
          exact absurd rfl hplace
        · rw [lock_walk_of_ne s level event hg] at hw
          exact .inl hw
  | test g₁ =>
      simp only [step] at hstep
      split at hstep <;> cases hstep
      rename_i level event b rest hfront
      by_cases hg : g = g₁
      · subst hg
        rw [go_walk] at hw
        cases hw
        exact .inr (.inl ⟨b, rfl, rfl⟩)
      · exact .inl (hother hg rfl hw)
  | rotate g₁ ok =>
      simp only [step] at hstep
      split at hstep <;> cases hstep
      rename_i level event b tested rest hfront
      by_cases hg : g = g₁
      · subst hg
        rw [go_walk] at hw
        cases hw
        exact .inr (.inr ⟨b, tested, ok, rfl, hfront, rfl⟩)
      · exact .inl (hother hg rfl hw)
  | write g₁ ok =>
      simp only [step] at hstep
      split at hstep <;> cases hstep
      by_cases hg : g = g₁
      · subst hg
        rw [go_walk] at hw
        cases hw
        exact absurd rfl hplace
      · exact .inl (hother hg rfl hw)
  | unlock g₁ =>
      simp only [step] at hstep
      split at hstep <;> cases hstep
      by_cases hg : g = g₁
      · subst hg
        rw [go_walk] at hw
        cases hw
      · exact .inl (hother hg rfl hw)
  | addAppender g₁ b | delAppender g₁ b =>
      obtain ⟨-, hs⟩ := Option.ite_none_right_eq_some.mp hstep
      cases hs
      by_cases hg : g = g₁
      · subst hg
        simp only [Function.update_self] at hw
        exact .inl hw
      · simp only [Function.update_of_ne hg] at hw
        exact .inl hw
  | tick seconds =>
      cases hstep
      exact .inl hw

/-- Time does not go back. -/
theorem step_now {st : LogStep ι κ ε} (hstep : step s st = some s') : s.now ≤ s'.now := by
  cases st with
  | log g level event =>
      simp only [step] at hstep
      split at hstep
      · cases hstep
        exact le_refl s.now
      · obtain ⟨-, hs⟩ := Option.ite_none_right_eq_some.mp hstep
        cases hs
        exact le_refl s.now
  | test g | rotate g ok | write g ok | unlock g =>
      simp only [step] at hstep
      split at hstep <;> cases hstep
      exact le_refl s.now
  | addAppender g b | delAppender g b =>
      obtain ⟨-, hs⟩ := Option.ite_none_right_eq_some.mp hstep
      cases hs
      exact le_refl s.now
  | tick seconds =>
      cases hstep
      simp

/-! ## Time -/

/-- The files are sound, and a call that is in front of a line has tested that in time. -/
structure Timely (s : Logging ι κ ε) : Prop where
  files : ∀ a f, (s.appenders a).file = some f → f.Sound s.now
  rotate : ∀ g w b tested, (s.loggers g).walk = some w → w.place = .rotate b tested →
    tested ≤ s.now
  write : ∀ g w b tested, (s.loggers g).walk = some w → w.place = .write b tested →
    tested ≤ s.now ∧ ∀ f, (s.appenders b).file = some f → tested ≤ f.endTime

omit [DecidableEq ι] [DecidableEq κ] in
/-- At the start every file is timely. -/
theorem start_timely (now : Int) (loggers : ι → Level × List κ) (defines : κ → AppenderDefine) :
    (start (ε := ε) now loggers defines).Timely where
  files a f hf := by
    obtain ⟨d, -, rfl⟩ := Option.map_eq_some_iff.mp hf
    exact FileLogAppender.create_sound d.1 now d.2
  rotate _ _ _ _ hw := by cases hw
  write _ _ _ _ hw := by cases hw

omit [DecidableEq ι] [DecidableEq κ] in
/-- The tests in front of a line. -/
theorem testPlace_write {b : κ} {level : Level} {tested : Int}
    (h : s.testPlace a level = .write b tested) :
    tested = s.now ∧ ∀ f, (s.appenders b).file = some f → tested ≤ f.endTime := by
  unfold testPlace at h
  split at h
  · split at h
    case h_1 hnone =>
      cases h
      refine ⟨rfl, fun f hf => ?_⟩
      rw [hnone] at hf
      cases hf
    case h_2 f hfile =>
      split at h <;> cases h
      rename_i hin
      refine ⟨rfl, fun f' hf' => ?_⟩
      rw [hfile] at hf'
      cases hf'
      exact not_lt.mp hin
  · cases h

omit [DecidableEq ι] [DecidableEq κ] in
/-- The test of the interval takes the time of the step. -/
theorem testPlace_rotate {b : κ} {level : Level} {tested : Int}
    (h : s.testPlace a level = .rotate b tested) : tested = s.now := by
  unfold testPlace at h
  split at h
  · split at h
    · cases h
    · split at h <;> cases h
      rfl
  · cases h

/-- The time of a file does not come earlier. -/
theorem Timely.endTime (h : s.Timely) {st : LogStep ι κ ε} (hstep : step s st = some s')
    {f' : FileLogAppender (ι × ε)} (hf' : (s'.appenders a).file = some f') :
    ∃ f, (s.appenders a).file = some f ∧ f.endTime ≤ f'.endTime := by
  rcases step_appender hstep a with heq | ⟨g, ok, -, heq⟩ |
    ⟨g, ok, level, event, tested, rest, -, -, heq⟩
  · rw [heq] at hf'
    exact ⟨f', hf', le_refl f'.endTime⟩
  · rw [heq] at hf'
    obtain ⟨f, hf, rfl⟩ := Option.map_eq_some_iff.mp hf'
    exact ⟨f, hf, (h.files a f hf).openFile_endTime ok⟩
  · rw [heq] at hf'
    obtain ⟨f, hf, rfl⟩ := Option.map_eq_some_iff.mp hf'
    exact ⟨f, hf, (f.write_endTime _ ok).ge⟩

/-- The files stay sound. -/
theorem Timely.step_files (h : s.Timely) {st : LogStep ι κ ε} (hstep : step s st = some s')
    {f' : FileLogAppender (ι × ε)} (hf' : (s'.appenders a).file = some f') : f'.Sound s'.now := by
  apply FileLogAppender.Sound.later _ (step_now hstep)
  rcases step_appender hstep a with heq | ⟨g, ok, -, heq⟩ |
    ⟨g, ok, level, event, tested, rest, -, hw, heq⟩
  · rw [heq] at hf'
    exact h.files a f' hf'
  · rw [heq] at hf'
    obtain ⟨f, hf, rfl⟩ := Option.map_eq_some_iff.mp hf'
    exact (h.files a f hf).openFile ok
  · rw [heq] at hf'
    obtain ⟨f, hf, rfl⟩ := Option.map_eq_some_iff.mp hf'
    obtain ⟨hnow, hin⟩ := h.write g _ a tested hw rfl
    exact (h.files a f hf).write (g, event) hnow (hin f hf) ok

/-- The step lemma. -/
theorem step_timely {st : LogStep ι κ ε} (h : s.Timely) (hstep : step s st = some s') :
    s'.Timely where
  files a f' hf' := h.step_files hstep hf'
  rotate g w b tested hw hplace := by
    have hne : w.place ≠ .next := by simp [hplace]
    rcases step_walk hstep hw hne with hold | ⟨b', htest, rfl⟩ |
      ⟨b', tested', ok, hwrite, -, -⟩
    · exact (h.rotate g w b tested hold hplace).trans (step_now hstep)
    · exact (testPlace_rotate (htest.symm.trans hplace)).le
    · rw [hplace] at hwrite
      cases hwrite
  write g w b tested hw hplace := by
    have hne : w.place ≠ .next := by simp [hplace]
    rcases step_walk hstep hw hne with hold | ⟨b', htest, rfl⟩ |
      ⟨b', tested', ok, hwrite, hold, rfl⟩
    · obtain ⟨hnow, hin⟩ := h.write g w b tested hold hplace
      refine ⟨hnow.trans (step_now hstep), fun f' hf' => ?_⟩
      obtain ⟨f, hf, hle⟩ := h.endTime hstep hf'
      exact (hin f hf).trans hle
    · obtain ⟨hnow, hin⟩ := testPlace_write (htest.symm.trans hplace)
      exact ⟨hnow.le, hin⟩
    · rw [hplace] at hwrite
      cases hwrite
      have hnow := h.rotate g _ b tested hold rfl
      refine ⟨hnow, fun f' hf' => ?_⟩
      -- the file was opened behind the test
      simp only [go, setAppender, Function.update_self] at hf'
      obtain ⟨f, -, rfl⟩ := Option.map_eq_some_iff.mp hf'
      simp only [FileLogAppender.openFile]
      omega

/-- The files of an appender follow one another in time.  Each line was written behind the opening
of its file and in front of the next one, and was tested in the interval of its file. -/
theorem run_files {now : Int} {loggers : ι → Level × List κ} {defines : κ → AppenderDefine}
    {steps : List (LogStep ι κ ε)} (h : run (start now loggers defines) steps = some s)
    {f : FileLogAppender (ι × ε)} (hf : (s.appenders a).file = some f) :
    f.openings.Pairwise Opening.Behind ∧
      ∀ o ∈ f.openings, ∀ l ∈ o.lines, l.Keeps o.start f.interval s.now := by
  have hs : s.Timely :=
    Lib.invariant_of_runSteps (fun _ _ _ hs hstep => step_timely hs hstep) h
      (start_timely now loggers defines)
  exact ⟨(hs.files a f hf).ordered, (hs.files a f hf).lines⟩

/-- A file is opened; behind an hour the next one is. -/
def hourlySteps : List (LogStep Unit Unit Nat) :=
  [.log () .INFO 1, .test (), .write () true, .unlock (), .tick 3601, .log () .INFO 2, .test (),
    .rotate () true, .write () true, .unlock ()]

/-- The logger and its appender. -/
def hourly : Logging Unit Unit Nat :=
  start 0 (fun _ => (.DEBUG, [()])) fun _ => ⟨.DEBUG, some (3600, true)⟩

/-- Two lines in different hours go to two openings of the file. -/
theorem run_files_hourly :
    ∃ s f, run hourly hourlySteps = some s ∧ (s.appenders ()).file = some f ∧
      f.openings = [⟨3601, [⟨((), 2), 3601, 3601⟩]⟩, ⟨0, [⟨((), 1), 0, 0⟩]⟩] ∧
      f.openings.Pairwise Opening.Behind := by
  refine ⟨_, _, rfl, rfl, rfl, ?_⟩
  have hrun : run hourly hourlySteps = some _ := rfl
  exact (run_files (a := ()) hrun rfl).1

/-! ## Lines -/

/-- The files of an appender hold its lines. -/
def Stored (s : Logging ι κ ε) (a : κ) : Prop :=
  ∀ f, (s.appenders a).file = some f → f.Complete (s.appenders a).out

omit [DecidableEq ι] [DecidableEq κ] in
/-- At the start no line is lost when every file could be opened. -/
theorem start_stored {now : Int} {loggers : ι → Level × List κ} {defines : κ → AppenderDefine}
    (hdefines : ∀ d, (defines a).file = some d → d.2 = true) :
    (start (ε := ε) now loggers defines).Stored a := by
  intro f hf
  obtain ⟨d, hd, rfl⟩ := Option.map_eq_some_iff.mp hf
  rw [hdefines d hd]
  exact FileLogAppender.create_complete d.1 now

/-- A step whose openings succeed loses no line. -/
theorem step_stored {st : LogStep ι κ ε} (h : s.Stored a) (hopens : st.opens = true)
    (hstep : step s st = some s') : s'.Stored a := by
  intro f' hf'
  rcases step_appender hstep a with heq | ⟨g, ok, rfl, heq⟩ |
    ⟨g, ok, level, event, tested, rest, -, -, heq⟩
  · rw [heq] at hf' ⊢
    exact h f' hf'
  · rw [heq] at hf' ⊢
    obtain ⟨f, hf, rfl⟩ := Option.map_eq_some_iff.mp hf'
    cases hopens
    exact (h f hf).openFile
  · rw [heq] at hf' ⊢
    obtain ⟨f, hf, rfl⟩ := Option.map_eq_some_iff.mp hf'
    exact (h f hf).write ⟨(g, event), tested, s.now⟩ ok

/-- The stream has a failed write, and the files are the given ones. -/
def Stuck (s : Logging ι κ ε) (a : κ) (openings : List (Opening (ι × ε))) : Prop :=
  ∃ f, (s.appenders a).file = some f ∧ f.stream = ⟨true, false⟩ ∧ f.openings = openings

/-- A step leaves a stuck stream stuck. -/
theorem step_stuck {st : LogStep ι κ ε} {openings : List (Opening (ι × ε))}
    (h : s.Stuck a openings) (hstep : step s st = some s') : s'.Stuck a openings := by
  obtain ⟨f, hf, hstream, hopenings⟩ := h
  rcases step_appender hstep a with heq | ⟨g, ok, -, heq⟩ |
    ⟨g, ok, level, event, tested, rest, -, -, heq⟩
  · exact ⟨f, by rw [heq, hf], hstream, hopenings⟩
  · obtain ⟨hstuck, hsame⟩ := FileLogAppender.openFile_of_stuck hstream s.now ok
    exact ⟨_, by rw [heq, hf]; rfl, hstuck, hsame.trans hopenings⟩
  · refine ⟨f, ?_, hstream, hopenings⟩
    rw [heq, written, hf, Option.map_some, FileLogAppender.write_of_stuck hstream]

theorem run_stuck {steps : List (LogStep ι κ ε)} {openings : List (Opening (ι × ε))}
    (h : s.Stuck a openings) (hrun : run s steps = some s') : s'.Stuck a openings :=
  Lib.invariant_of_runSteps (fun _ _ _ hs hstep => step_stuck hs hstep) hrun h

/-- A write fails. -/
def failingSteps : List (LogStep Unit Unit Nat) :=
  [.log () .INFO 1, .test (), .write () true, .unlock (), .log () .INFO 2, .test (),
    .write () false, .unlock ()]

end Logging
end Log
end Tiger
