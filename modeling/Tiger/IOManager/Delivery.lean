import Mathlib.Tactic
import Tiger.IOManager.Effects

/-!
# IOManager - one pass of idle

`idle` goes through the events that `epoll_wait` returned.  A pass serves some of the
registered directions: it makes the call of each of them once, takes them out of the
statuses, and leaves the others alone.  Served are the directions that `real_status` names,
and where an event reports both directions it names only `WRITE`.

Main results:

- Theorem `idlePass_serves`: a pass serves what `real_status` names.
- Theorem `idlePass_serves_reported_iff`: the passes that serve what is reported.
- Theorem `idlePass_hangup`: a reader that is not woken by `EPOLLIN | EPOLLHUP`.
-/

namespace Tiger
namespace IOManager

/-! ## Events -/

/-- An event of `epoll_wait`: of the pipe that `tickle` writes to, or of a descriptor; `ok` is
the result of the `epoll_ctl` for it. -/
inductive Event
  | tickle
  | ready (fd : Nat) (mask : Manager.EpollMask) (ok : Bool)

/-- The loop of `idle` over the events. -/
def Manager.idlePass (m : Manager) (events : List Event) : Manager :=
  events.foldl (fun m e =>
    match e with
    | .tickle => m
    | .ready fd mask ok => m.deliver fd mask ok) m

/-- The bit of a direction. -/
def Manager.EpollMask.bit (mask : Manager.EpollMask) : Direction → Bool
  | .read => mask.epollIn
  | .write => mask.epollOut

/-- The event reports the direction for the descriptor; errors and hang-ups report both. -/
def Event.Reports (fd : Nat) (d : Direction) : Event → Prop
  | .tickle => False
  | .ready fd' mask _ =>
      fd' = fd ∧ (mask.bit d = true ∨ mask.epollErr = true ∨ mask.epollHup = true)

/-- `real_status` names the direction. -/
def Event.Names (fd : Nat) (d : Direction) : Event → Prop
  | .tickle => False
  | .ready fd' mask _ => fd' = fd ∧ mask.realStatus = d.status

/-- The `epoll_ctl` for the event succeeds. -/
def Event.Accepted : Event → Prop
  | .tickle => True
  | .ready _ _ ok => ok = true

/-! ## Serving -/

/-- Between two managers the registered directions of `R` are served, each once, and nothing
else is changed. -/
structure Serves (R : Nat → Direction → Prop) (m m' : Manager) : Prop where
  calls : ∃ served : List (Nat × Direction), served.Nodup ∧
    (∀ fd d, (fd, d) ∈ served ↔ (m.contexts fd).statuses.has d = true ∧ R fd d) ∧
    m'.calls = m.calls ++ served.map fun p => ((m.contexts p.1).at p.2).call
  cleared : ∀ fd d, (m'.contexts fd).statuses.has d = true ↔
    (m.contexts fd).statuses.has d = true ∧ ¬R fd d
  untouched : ∀ fd d, (m.contexts fd).statuses.has d = true → ¬R fd d →
    (m'.contexts fd).at d = (m.contexts fd).at d

namespace Serves

variable {R R' : Nat → Direction → Prop} {m m' m'' : Manager}

/-- Nothing to serve. -/
theorem refl (h : ∀ fd d, (m.contexts fd).statuses.has d = true → ¬R fd d) : Serves R m m where
  calls := by
    refine ⟨[], List.nodup_nil, ?_, by simp⟩
    intro fd d
    simpa using h fd d
  cleared := by
    intro fd d
    constructor
    · intro hhas
      exact ⟨hhas, h fd d hhas⟩
    · exact fun hhas => hhas.1
  untouched := fun _ _ _ _ => rfl

/-- One after the other. -/
theorem trans (h : Serves R m m') (h' : Serves R' m' m'') :
    Serves (fun fd d => R fd d ∨ R' fd d) m m'' := by
  rcases h.calls with ⟨served, hnodup, hmem, hcalls⟩
  rcases h'.calls with ⟨served', hnodup', hmem', hcalls'⟩
  have hlater : ∀ fd d, (fd, d) ∈ served' →
      (m.contexts fd).statuses.has d = true ∧ ¬R fd d ∧ R' fd d := by
    intro fd d hin
    rcases (hmem' fd d).mp hin with ⟨hhas', hR'⟩
    rcases (h.cleared fd d).mp hhas' with ⟨hhas, hR⟩
    exact ⟨hhas, hR, hR'⟩
  constructor
  · refine ⟨served ++ served', ?_, ?_, ?_⟩
    · rw [List.nodup_append]
      refine ⟨hnodup, hnodup', ?_⟩
      rintro ⟨fd, d⟩ hin ⟨fd', d'⟩ hin' heq
      cases heq
      exact (hlater fd d hin').2.1 ((hmem fd d).mp hin).2
    · intro fd d
      rw [List.mem_append, hmem, hmem', h.cleared]
      tauto
    · have hsame : served'.map (fun p => ((m'.contexts p.1).at p.2).call) =
          served'.map fun p => ((m.contexts p.1).at p.2).call := by
        apply List.map_congr_left
        rintro ⟨fd, d⟩ hin
        rcases hlater fd d hin with ⟨hhas, hR, _⟩
        rw [h.untouched fd d hhas hR]
      rw [hcalls', hcalls, hsame, List.map_append, List.append_assoc]
  · intro fd d
    rw [h'.cleared, h.cleared]
    tauto
  · intro fd d hhas hnot
    have hR : ¬R fd d := fun hR => hnot (.inl hR)
    have hR' : ¬R' fd d := fun hR' => hnot (.inr hR')
    rw [h'.untouched fd d ((h.cleared fd d).mpr ⟨hhas, hR⟩) hR', h.untouched fd d hhas hR]

/-- Which directions are served is visible in the statuses. -/
theorem unique (h : Serves R m m') (h' : Serves R' m m') {fd : Nat} {d : Direction}
    (hhas : (m.contexts fd).statuses.has d = true) : R fd d ↔ R' fd d := by
  have hR := h.cleared fd d
  have hR' := h'.cleared fd d
  tauto

/-- Only registered directions matter. -/
theorem congr (h : Serves R m m')
    (hR : ∀ fd d, (m.contexts fd).statuses.has d = true → (R fd d ↔ R' fd d)) : Serves R' m m' := by
  rcases h.calls with ⟨served, hnodup, hmem, hcalls⟩
  constructor
  · refine ⟨served, hnodup, ?_, hcalls⟩
    intro fd d
    rw [hmem]
    exact and_congr_right (hR fd d)
  · intro fd d
    rw [h.cleared]
    exact and_congr_right fun hhas => not_congr (hR fd d hhas)
  · intro fd d hhas hnot
    exact h.untouched fd d hhas fun hRfd => hnot ((hR fd d hhas).mp hRfd)

/-- One registered direction is triggered. -/
theorem fire {fd : Nat} {d : Direction} {m' : Manager}
    (hhas : (m.contexts fd).statuses.has d = true)
    (hcontexts : m'.contexts = Function.update m.contexts fd ((m.contexts fd).fire d))
    (hcalls : m'.calls = m.calls ++ [((m.contexts fd).at d).call]) :
    Serves (fun fd' d' => fd = fd' ∧ d = d') m m' := by
  have hfired : m'.contexts fd = (m.contexts fd).fire d := by
    rw [hcontexts, Function.update_self]
  have hother : ∀ fd', fd' ≠ fd → m'.contexts fd' = m.contexts fd' := by
    intro fd' hne
    rw [hcontexts, Function.update_of_ne hne]
  constructor
  · refine ⟨[(fd, d)], List.nodup_singleton _, ?_, by simpa using hcalls⟩
    intro fd' d'
    rw [List.mem_singleton, Prod.mk.injEq]
    constructor
    · rintro ⟨rfl, rfl⟩
      exact ⟨hhas, rfl, rfl⟩
    · rintro ⟨_, rfl, rfl⟩
      exact ⟨rfl, rfl⟩
  · intro fd' d'
    by_cases hfd : fd' = fd
    · rw [hfd, hfired, fire_statuses, EventStatus.has_minus, Bool.and_eq_true, Bool.not_eq_true',
        decide_eq_false_iff_not]
      refine and_congr_right fun _ => not_congr ?_
      exact ⟨fun hd => ⟨rfl, hd.symm⟩, fun hd => hd.2.symm⟩
    · rw [hother fd' hfd]
      simp [Ne.symm hfd]
  · intro fd' d' _ hnot
    by_cases hfd : fd' = fd
    · have hd : d' ≠ d := fun hd => hnot ⟨hfd.symm, hd.symm⟩
      rw [hfd, hfired, fire_at, if_neg hd]
    · rw [hother fd' hfd]

end Serves

/-! ## A pass -/

theorem status_injective {d d' : Direction} (h : d.status = d'.status) : d = d' := by
  cases d <;> cases d' <;> first | rfl | cases h

/-- The delivery of one event serves the direction that `real_status` names. -/
theorem deliver_serves (m : Manager) (fd : Nat) (mask : Manager.EpollMask) :
    Serves (fun fd' d => fd = fd' ∧ mask.realStatus = d.status) m (m.deliver fd mask true) := by
  rcases realStatus_cases mask with hnone | ⟨d, hreal⟩
  · rw [deliver_none true hnone]
    apply Serves.refl
    rintro fd' d _ ⟨_, hd⟩
    rw [hnone] at hd
    exact status_ne_none d hd.symm
  · have hnames : ∀ d', mask.realStatus = d'.status ↔ d = d' := by
      intro d'
      rw [hreal]
      exact ⟨status_injective, fun h => by rw [h]⟩
    simp only [hnames]
    rw [deliver_direction true hreal, Bool.true_and]
    cases hhas : (m.contexts fd).statuses.has d with
    | false =>
        rw [if_neg Bool.false_ne_true]
        apply Serves.refl
        rintro fd' d' hhas' ⟨rfl, rfl⟩
        rw [hhas] at hhas'
        cases hhas'
    | true =>
        rw [if_pos rfl, triggerIf_registered (d := d) (by exact hhas)]
        exact Serves.fire hhas rfl rfl

/-- A pass serves what `real_status` names. -/
theorem idlePass_serves (m : Manager) (events : List Event) (hok : ∀ e ∈ events, e.Accepted) :
    Serves (fun fd d => ∃ e ∈ events, e.Names fd d) m (m.idlePass events) := by
  induction events generalizing m with
  | nil => exact Serves.refl (by simp)
  | cons e events ih =>
      have hrest := fun m' => ih m' fun e' he' => hok e' (List.mem_cons_of_mem _ he')
      have hfirst : Serves (fun fd d => e.Names fd d) m (m.idlePass [e]) := by
        cases e with
        | tickle => exact Serves.refl fun _ _ _ h => h
        | ready fd mask ok =>
            have haccepted : ok = true := hok _ (List.mem_cons_self ..)
            rw [haccepted]
            exact deliver_serves m fd mask
      refine (hfirst.trans (hrest _)).congr ?_
      intro fd d _
      simp

/-! ## What is reported -/

/-- The status is that of writing exactly when writing, an error or a hang-up is reported. -/
theorem realStatus_write_iff (mask : Manager.EpollMask) :
    mask.realStatus = .WRITE ↔
      (mask.epollOut = true ∨ mask.epollErr = true ∨ mask.epollHup = true) := by
  cases mask with
  | mk i o e h => cases i <;> cases o <;> cases e <;> cases h <;> decide

/-- The status is that of reading exactly when reading is reported and nothing that overwrites it.
-/
theorem realStatus_read_iff (mask : Manager.EpollMask) :
    mask.realStatus = .READ ↔
      (mask.epollIn = true ∨ mask.epollErr = true ∨ mask.epollHup = true) ∧
        ¬(mask.epollOut = true ∨ mask.epollErr = true ∨ mask.epollHup = true) := by
  cases mask with
  | mk i o e h => cases i <;> cases o <;> cases e <;> cases h <;> decide

/-- A reported `WRITE` is named. -/
theorem names_write_iff (fd : Nat) (e : Event) : e.Names fd .write ↔ e.Reports fd .write := by
  cases e with
  | tickle => exact Iff.rfl
  | ready fd' mask ok => exact and_congr_right fun _ => realStatus_write_iff mask

/-- A reported `READ` is named unless the same event reports `WRITE`. -/
theorem names_read_iff (fd : Nat) (e : Event) :
    e.Names fd .read ↔ e.Reports fd .read ∧ ¬e.Reports fd .write := by
  cases e with
  | tickle => simp [Event.Names, Event.Reports]
  | ready fd' mask ok =>
      rw [Event.Names, show Direction.read.status = .READ from rfl, realStatus_read_iff]
      constructor
      · rintro ⟨hfd, hread, hwrite⟩
        exact ⟨⟨hfd, hread⟩, fun h => hwrite h.2⟩
      · rintro ⟨⟨hfd, hread⟩, hwrite⟩
        exact ⟨hfd, hread, fun h => hwrite ⟨hfd, h⟩⟩

/-- Some event reports the direction for the descriptor. -/
def Reported (events : List Event) (fd : Nat) (d : Direction) : Prop :=
  ∃ e ∈ events, e.Reports fd d

/-- A registered and reported `READ` is reported once without `WRITE`. -/
def ReadsAlone (m : Manager) (events : List Event) : Prop :=
  ∀ fd, (m.contexts fd).statuses.has .read = true → Reported events fd .read →
    ∃ e ∈ events, e.Reports fd .read ∧ ¬e.Reports fd .write

/-- The pass names the reported directions exactly if reading is only ever reported alone. -/
theorem names_iff_reported {m : Manager} {events : List Event} :
    (∀ fd d, (m.contexts fd).statuses.has d = true →
      ((∃ e ∈ events, e.Names fd d) ↔ Reported events fd d)) ↔ ReadsAlone m events := by
  constructor
  · intro h fd hhas hreported
    rcases (h fd .read hhas).mpr hreported with ⟨e, he, hnames⟩
    exact ⟨e, he, (names_read_iff fd e).mp hnames⟩
  · intro h fd d hhas
    cases d with
    | write => simp only [names_write_iff, Reported]
    | read =>
        simp only [names_read_iff]
        constructor
        · rintro ⟨e, he, hread, _⟩
          exact ⟨e, he, hread⟩
        · exact h fd hhas

/-- The calls of a pass all have a scheduler when the served directions have. -/
theorem Serves.schedulers_iff {R : Nat → Direction → Prop} {m m' : Manager} (h : Serves R m m') :
    (∀ call ∈ m'.calls.drop m.calls.length, call.scheduler ≠ none) ↔
      ∀ fd d, (m.contexts fd).statuses.has d = true → R fd d →
        ((m.contexts fd).at d).scheduler ≠ none := by
  rcases h.calls with ⟨served, _, hmem, hcalls⟩
  rw [hcalls, List.drop_left]
  constructor
  · intro hall fd d hhas hR
    have hcall := hall _ (List.mem_map_of_mem ((hmem fd d).mpr ⟨hhas, hR⟩))
    rwa [call_scheduler] at hcall
  · intro hall call hin
    rcases List.mem_map.mp hin with ⟨⟨fd, d⟩, hserved, rfl⟩
    rcases (hmem fd d).mp hserved with ⟨hhas, hR⟩
    rw [call_scheduler]
    exact hall fd d hhas hR

/-- When epoll accepts what is left, a pass makes the calls of the registered directions that
are reported, each once and with a scheduler, clears exactly these, and leaves the other
registrations alone, if and only if no reader depends on an event that also reports
`WRITE`, and the reported directions have a scheduler in their contexts. -/
theorem idlePass_serves_reported_iff (m : Manager) (events : List Event)
    (hok : ∀ e ∈ events, e.Accepted) :
    (Serves (Reported events) m (m.idlePass events) ∧
      ∀ call ∈ (m.idlePass events).calls.drop m.calls.length, call.scheduler ≠ none) ↔
    ReadsAlone m events ∧
      ∀ fd d, (m.contexts fd).statuses.has d = true → Reported events fd d →
        ((m.contexts fd).at d).scheduler ≠ none := by
  have hnamed := idlePass_serves m events hok
  constructor
  · rintro ⟨hserves, hcalls⟩
    refine ⟨names_iff_reported.mp ?_, hserves.schedulers_iff.mp hcalls⟩
    intro fd d hhas
    exact hnamed.unique hserves hhas
  · rintro ⟨halone, hschedulers⟩
    have hserves := hnamed.congr (names_iff_reported.mpr halone)
    exact ⟨hserves, hserves.schedulers_iff.mpr hschedulers⟩

/-- A coroutine waits for `READ` on a descriptor. -/
def oneReader : Manager := (Manager.init.addEvent 5 .READ none ⟨some 1, some 3, 7⟩ true).2

/-- `EPOLLIN` for the descriptor. -/
def inEvents : List Event := [.ready 5 ⟨true, false, false, false⟩ true]

/-- `EPOLLIN | EPOLLHUP` for the descriptor. -/
def hangupEvents : List Event := [.ready 5 ⟨true, false, false, true⟩ true]

theorem idlePass_serves_reader :
    Serves (Reported inEvents) oneReader (oneReader.idlePass inEvents) := by
  refine ((idlePass_serves_reported_iff oneReader inEvents ?_).mpr ⟨?_, ?_⟩).1
  · intro e he
    rw [List.mem_singleton.mp he]
    rfl
  · rintro fd _ ⟨e, he, hread⟩
    refine ⟨e, he, hread, ?_⟩
    rw [List.mem_singleton.mp he]
    simp [Event.Reports, Manager.EpollMask.bit]
  · rintro fd d _ ⟨e, he, hreports⟩
    rw [List.mem_singleton.mp he] at hreports
    cases d with
    | read =>
        rcases hreports with ⟨rfl, _⟩
        decide
    | write => simp [Event.Reports, Manager.EpollMask.bit] at hreports

/-- The reader is not woken when its peer hangs up. -/
theorem idlePass_hangup :
    (oneReader.idlePass hangupEvents).calls = [] ∧
      ((oneReader.idlePass hangupEvents).contexts 5).statuses = .READ ∧
      Reported hangupEvents 5 .read ∧
      ¬Serves (Reported hangupEvents) oneReader (oneReader.idlePass hangupEvents) := by
  have hreported : Reported hangupEvents 5 .read :=
    ⟨_, List.mem_singleton.mpr rfl, rfl, .inl rfl⟩
  have hstatus : ((oneReader.idlePass hangupEvents).contexts 5).statuses = .READ := by decide
  refine ⟨by decide, hstatus, hreported, ?_⟩
  intro h
  have hhas : ((oneReader.idlePass hangupEvents).contexts 5).statuses.has .read = true := by
    rw [hstatus]
    rfl
  exact ((h.cleared 5 .read).mp hhas).2 hreported

end IOManager
end Tiger
