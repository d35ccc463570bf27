import Tiger.Http.RequestGrammar
import Tiger.Lib.Machine

/-!
# HTTP - what the request machine can do

Facts about every run of the machine of `http_request_parser.rl`: where `done`
comes, and in which order the actions of header fields come.  Behind the
request line the machine is a small automaton; its states are named here.

Main results:

- Theorem `done_iff_isFinal`: `done` comes exactly when the machine gets to a
  final state.
- Theorem `done_byte`: `done` comes with a line feed or a NUL.
- Theorem `FieldPhase.step`: `write_value` never comes between `start_field` and
  `write_field`.
-/

namespace Tiger
namespace Http

open Lib.Ragel Lib.Ragel.Expr RequestGrammar

/-! ## The end of a header -/

/-- A state that the request machine is in before `done`. -/
abbrev RequestReach (r : Bool) (threads : List E) : Prop := Reach .done (main r) threads

/-- No thread inside a request does `done`. -/
private theorem body_avoids_done (r : Bool) :
    (choice [Request r, SocketRequest r]).avoids (fun a => a == .done) = true := by
  cases r with
  | false => decide +kernel
  | true => decide +kernel

/-- `done` comes exactly when the machine gets to a final state. -/
theorem done_iff_isFinal {r : Bool} {threads threads' : List E} (h : RequestReach r threads)
    {c : UInt8} {as : List RequestAction} (hstep : step threads c = some (as, threads')) :
    .done ∈ as ↔ isFinal threads' = true :=
  Reach.finishing_mem_iff (body_avoids_done r) h hstep

/-- The empty text is no request. -/
private theorem main_not_nullable (r : Bool) : (main r).nullable = false := by
  cases r with
  | false => decide +kernel
  | true => decide +kernel

/-- Before `done` the machine is not in a final state. -/
theorem RequestReach.not_isFinal {r : Bool} {threads : List E} (h : RequestReach r threads) :
    isFinal threads = false := by
  cases h with
  | start => simp [isFinal, start, main_not_nullable]
  | step hreach hstep hdone =>
      rw [done_iff_isFinal hreach hstep] at hdone
      simpa using hdone

/-- A request ends with a line feed or with the zero byte. -/
private theorem main_lastMem (r : Bool) :
    ∀ n < 256, (main r).lastMem (UInt8.ofNat n) = true → n = 10 ∨ n = 0 := by
  cases r with
  | false => decide +kernel
  | true => decide +kernel

/-- `done` comes with a line feed or a NUL. -/
theorem done_byte {r : Bool} {threads threads' : List E} (h : RequestReach r threads)
    {c : UInt8} {as : List RequestAction} (hstep : step threads c = some (as, threads'))
    (hdone : .done ∈ as) : c = 10 ∨ c = 0 := by
  have hlast := h.lastMem_of_isFinal hstep ((done_iff_isFinal h hstep).mp hdone)
  rw [← UInt8.ofNat_toNat (x := c)] at hlast ⊢
  rcases main_lastMem r c.toNat c.toNat_lt hlast with hc | hc
  · exact .inl (by rw [hc]; rfl)
  · exact .inr (by rw [hc]; rfl)

/-- Where the machine stops it is in a final state, behind a line feed or a NUL. -/
theorem RequestReach.stopped_spec {r : Bool} {threads threads' : List E}
    (h : RequestReach r threads) {xs : List UInt8} {n : Nat}
    (hscan : scan .done threads xs = .stopped n threads') :
    isFinal threads' = true ∧ (xs[n - 1]? = some 10 ∨ xs[n - 1]? = some 0) := by
  rcases h.stopped hscan with ⟨ths, c, as, hc, hreach, hstep, hdone⟩
  refine ⟨(done_iff_isFinal hreach hstep).mp hdone, ?_⟩
  rcases done_byte hreach hstep hdone with rfl | rfl
  · exact .inl hc
  · exact .inr hc

/-! ## Header fields -/

/-- What follows the request line. -/
def headerRest : E := cat (star messageHeader) CRLF

/-- The states of the machine behind the request line. -/
inductive HeaderState
  /-- at the start of a line -/
  | top
  /-- in a field name -/
  | name
  /-- behind a carriage return that may start a name or the last line -/
  | nameOrEnd
  /-- behind the colon -/
  | colon
  /-- in a value -/
  | value
  /-- in the blanks in front of a value -/
  | space
  /-- behind the carriage return of a line -/
  | lineEnd
  /-- in the blanks of a value -/
  | valueSpace
deriving DecidableEq

namespace HeaderState

/-- The rest of a line, and what follows it. -/
def inLine (x : E) : E := finishing 29 .done (cat (cat x (star messageHeader)) CRLF)

/-- The rest of a field, its end of line, and what follows it. -/
def inField (x : E) : E := inLine (cat (prioAll 0 0 x) (prioStart 0 1 CRLF))

def inName : E :=
  inField (cat (leaving 19 .writeField (star (chars token)))
    (seq [lit [':'], star lws, fieldValue]))

def inValue : E := inField (leaving 21 .writeValue (star content))

def inBlanks : E :=
  inField (leaving 21 .writeValue (cat (star (chars (.oneOf [' ', '\t']))) (star content)))

/-- The threads of the machine in a state. -/
def threads : HeaderState → List E
  | top => [finishing 29 .done headerRest]
  | name => [inName]
  | nameOrEnd => [inName, finishing 29 .done (lit ['\n'])]
  | colon => [inField (seq [star lws, fieldValue])]
  | value => [inValue]
  | space =>
      [inField (cat (cat (star (chars (.oneOf [' ', '\t']))) (star lws)) fieldValue), inValue,
        inBlanks]
  | lineEnd => [inLine (lit ['\n'])]
  | valueSpace => [inValue, inBlanks]

/-- A field name has started and not ended. -/
def pending : HeaderState → Bool
  | name => true
  | nameOrEnd => true
  | _ => false

/-- The state behind a byte that the machine takes without `done`. -/
def next (q : HeaderState) (c : UInt8) : HeaderState :=
  match q with
  | top => if c = 13 then nameOrEnd else name
  | name => if c = 58 then colon else name
  | nameOrEnd => if c = 58 then colon else name
  | colon => if c = 9 ∨ c = 32 then space else if c = 10 then top else if c = 13 then lineEnd
      else value
  | space => if c = 9 ∨ c = 32 then space else if c = 10 then top else if c = 13 then lineEnd
      else value
  | value => if c = 9 ∨ c = 32 then valueSpace else if c = 10 then top
      else if c = 13 then lineEnd else value
  | valueSpace => if c = 9 ∨ c = 32 then valueSpace else if c = 10 then top
      else if c = 13 then lineEnd else value
  | lineEnd => top

end HeaderState

/-- Whether a field name is pending behind some actions; `none` when
`write_value` comes while one is. -/
def fieldRun : Bool → List RequestAction → Option Bool
  | b, [] => some b
  | _, .startField :: as => fieldRun true as
  | _, .writeField :: as => fieldRun false as
  | b, .writeValue :: as => if b then none else fieldRun false as
  | b, _ :: as => fieldRun b as

/-- The check of one transition of the automaton. -/
def HeaderState.stepOk (q : HeaderState) (c : UInt8) : Bool :=
  match step q.threads c with
  | none => true
  | some (as, threads') =>
      if .done ∈ as then (fieldRun q.pending as).isSome
      else decide (threads' = (q.next c).threads) &&
        decide (fieldRun q.pending as = some (q.next c).pending)

/-- The classes of bytes behind the request line. -/
def headerClasses : List ByteClass :=
  [token, .diff any HTTPCTL, .oneOf [' ', '\t'], .char ':', .char '\r', .char '\n']

/-- One byte of each kind that these classes tell apart. -/
def kindOf (c : UInt8) : UInt8 :=
  if c = 9 ∨ c = 10 ∨ c = 13 ∨ c = 32 ∨ c = 58 then c
  else if HTTPCTL.mem c then 0
  else if token.mem c then 97
  else 200

private theorem kindOf_mem : ∀ n < 256, ∀ k ∈ headerClasses,
    k.mem (UInt8.ofNat n) = k.mem (kindOf (UInt8.ofNat n)) := by
  decide +kernel

/-- The five bytes the header machine names represent themselves, every other byte is one of three
kinds. -/
theorem kindOf_cases (c : UInt8) :
    kindOf c = c ∧ (c = 9 ∨ c = 10 ∨ c = 13 ∨ c = 32 ∨ c = 58) ∨
      (kindOf c = 0 ∨ kindOf c = 97 ∨ kindOf c = 200) ∧
        c ≠ 9 ∧ c ≠ 10 ∧ c ≠ 13 ∧ c ≠ 32 ∧ c ≠ 58 := by
  unfold kindOf
  split_ifs with hself hctl htoken
  · exact .inl ⟨rfl, hself⟩
  · exact .inr ⟨.inl rfl, by simpa using hself⟩
  · exact .inr ⟨.inr (.inl rfl), by simpa using hself⟩
  · exact .inr ⟨.inr (.inr rfl), by simpa using hself⟩

/-- A state moves on a byte as on its representative. -/
private theorem kindOf_next (q : HeaderState) (c : UInt8) : q.next c = q.next (kindOf c) := by
  rcases kindOf_cases c with ⟨hself, -⟩ | ⟨hkind, h9, h10, h13, h32, h58⟩
  · rw [hself]
  · rcases hkind with hkind | hkind | hkind <;> rw [hkind] <;>
      cases q <;> simp [HeaderState.next, h9, h10, h13, h32, h58]

private theorem threads_classes (q : HeaderState) :
    ∀ t ∈ q.threads, ∀ k ∈ t.classes, k ∈ headerClasses := by
  cases q <;> decide

/-- The classes hold the bytes of a kind or none of them. -/
theorem mem_kindOf {k : ByteClass} (hk : k ∈ headerClasses) (c : UInt8) :
    k.mem c = k.mem (kindOf c) := by
  have hmem := kindOf_mem c.toNat c.toNat_lt
  rw [UInt8.ofNat_toNat] at hmem
  exact hmem k hk

/-- A step behind the request line depends on the kind of the byte only. -/
theorem HeaderState.step_kindOf (q : HeaderState) (c : UInt8) :
    step q.threads c = step q.threads (kindOf c) :=
  step_congr fun t ht _ hk => mem_kindOf (threads_classes q t ht _ hk) c

private theorem stepOk_kinds (q : HeaderState) :
    ∀ d ∈ ([0, 9, 10, 13, 32, 58, 97, 200] : List UInt8), q.stepOk d = true := by
  cases q <;> decide +kernel

/-- The automaton does what the machine does. -/
theorem HeaderState.stepOk_all (q : HeaderState) (c : UInt8) : q.stepOk c = true := by
  have hkind : q.stepOk (kindOf c) = true := by
    refine stepOk_kinds q (kindOf c) ?_
    rcases kindOf_cases c with ⟨hself, hc⟩ | ⟨hkind, -⟩
    · rw [hself]
      rcases hc with rfl | rfl | rfl | rfl | rfl <;> decide
    · rcases hkind with hkind | hkind | hkind <;> rw [hkind] <;> decide
  rw [HeaderState.stepOk] at hkind ⊢
  rw [q.step_kindOf, kindOf_next]
  exact hkind

/-- The automaton of the header as a step rule. -/
theorem HeaderState.step_threads (q : HeaderState) {c : UInt8} {as : List RequestAction}
    {threads' : List E} (hstep : step q.threads c = some (as, threads')) :
    ∃ b, fieldRun q.pending as = some b ∧
      (.done ∈ as ∨ b = (q.next c).pending ∧ threads' = (q.next c).threads) := by
  have hok := q.stepOk_all c
  rw [HeaderState.stepOk, hstep] at hok
  simp only at hok
  split at hok
  next hdone =>
    rcases Option.isSome_iff_exists.mp hok with ⟨b, hb⟩
    exact ⟨b, hb, .inl hdone⟩
  next =>
    simp only [Bool.and_eq_true, decide_eq_true_eq] at hok
    exact ⟨_, hok.2, .inr ⟨rfl, hok.1⟩⟩

/-- The actions that use `field_start` and `field_len`. -/
def isFieldAct : RequestAction → Bool
  | .startField => true
  | .writeField => true
  | .writeValue => true
  | _ => false

/-- Actions outside the fields do not store a value. -/
theorem writeValue_not_mem {as : List RequestAction} (h : ∀ a ∈ as, isFieldAct a = false) :
    .writeValue ∉ as := by
  intro hmem
  have hwrite := h _ hmem
  cases hwrite

/-- Actions outside the fields leave the field as it is. -/
theorem fieldRun_of_avoid (b : Bool) {as : List RequestAction}
    (h : ∀ a ∈ as, isFieldAct a = false) : fieldRun b as = some b := by
  induction as with
  | nil => rfl
  | cons a as ih =>
      have ha := h a List.mem_cons_self
      have hrest := ih fun a' ha' => h a' (List.mem_cons_of_mem _ ha')
      cases a <;> first | exact hrest | simp [isFieldAct] at ha

/-- A thread in the request line. -/
def LineThread (t : E) : Prop :=
  ∃ x, t = finishing 29 .done (cat x headerRest) ∧ x.endsWith 10 = true ∧
    x.avoids isFieldAct = true

/-- How far the machine is, with whether a field name is pending. -/
inductive FieldPhase (r : Bool) : Bool → List E → Prop
  | start : FieldPhase r false (start (main r))
  | line {threads : List E} : (∀ t ∈ threads, LineThread t) → FieldPhase r false threads
  | socket {threads : List E} : (∀ t ∈ threads, t.avoids isFieldAct = true) →
      FieldPhase r false threads
  | header (q : HeaderState) : FieldPhase r q.pending q.threads

/-- The moves of a thread in the request line. -/
theorem LineThread.move {t : E} (h : LineThread t) {c : UInt8} {m : Move RequestAction}
    (hm : m ∈ t.moves c) :
    (∀ x ∈ m.acts, isFieldAct x.2 = false) ∧
      (c = 10 → m.next = finishing 29 .done headerRest) ∧ (c ≠ 10 → LineThread m.next) := by
  rcases h with ⟨x, rfl, hends, havoid⟩
  rcases List.mem_map.mp hm with ⟨m₁, hm₁, rfl⟩
  rcases List.mem_append.mp hm₁ with hm₁ | hm₁
  · rcases List.mem_map.mp hm₁ with ⟨m₀, hm₀, rfl⟩
    have hmove := moveOf_of_mem hm₀
    have hacts := hmove.avoids havoid
    have hnext := hmove.endsWith hends
    refine ⟨?_, ?_, ?_⟩
    · intro x hx
      rcases Move.mem_acts_addFinish hx with hx | rfl
      · exact hacts.1 x hx
      · rfl
    · intro hc
      simp [Move.mapNext, Move.next_addFinish, hnext.1 hc, andThen, wrap, headerRest]
    · intro hc
      have hx := hnext.2 hc
      refine ⟨m₀.next, ?_, hx, hacts.2⟩
      cases hcase : m₀.next <;>
        simp_all [Move.mapNext, Move.next_addFinish, andThen, wrap, endsWith]
  · rw [not_nullable_of_endsWith hends] at hm₁
    simp at hm₁

/-- A request line ends with a line feed. -/
private theorem requestLine_endsWith (r : Bool) : (RequestLine r).endsWith 10 = true := by
  cases r with
  | false => decide
  | true => decide

/-- The request line has no field action. -/
private theorem requestLine_avoids (r : Bool) : (RequestLine r).avoids isFieldAct = true := by
  cases r with
  | false => decide
  | true => decide

/-- A socket request has no field action. -/
private theorem socketRequest_avoids (r : Bool) : (SocketRequest r).avoids isFieldAct = true := by
  cases r with
  | false => decide
  | true => decide

/-- The byte is one that a socket request starts with. -/
def isSocketStart (c : UInt8) : Bool := decide (c = 60 ∨ c = 64)

/-- No byte starts a request and a socket request. -/
private theorem first_moves (r : Bool) : ∀ n < 256,
    (if isSocketStart (UInt8.ofNat n) then (Request r).moves (UInt8.ofNat n)
      else (SocketRequest r).moves (UInt8.ofNat n)).isEmpty = true := by
  cases r with
  | false => decide +kernel
  | true => decide +kernel

/-- The first step is one of a request or one of a socket request. -/
theorem step_main (r : Bool) (c : UInt8) :
    step (start (main r)) c =
      if isSocketStart c then step [finishing 29 .done (SocketRequest r)] c
      else step [finishing 29 .done (Request r)] c := by
  have hmoves : (choice [Request r, SocketRequest r]).moves c =
      (Request r).moves c ++ (SocketRequest r).moves c := rfl
  have hfirst := first_moves r c.toNat c.toNat_lt
  rw [UInt8.ofNat_toNat, List.isEmpty_iff] at hfirst
  split at hfirst
  next hsocket =>
    rw [if_pos hsocket]
    simp only [step, start, main, List.flatMap_singleton, moves, hmoves, hfirst, List.nil_append]
  next hsocket =>
    rw [if_neg hsocket]
    simp only [step, start, main, List.flatMap_singleton, moves, hmoves, hfirst, List.append_nil]

/-- A request starts with its request line. -/
theorem lineThread_request (r : Bool) :
    ∀ t ∈ [finishing 29 RequestAction.done (Request r)], LineThread t := by
  intro t ht
  rw [List.mem_singleton.mp ht]
  exact ⟨RequestLine r, rfl, requestLine_endsWith r, requestLine_avoids r⟩

/-- A socket request has no header fields. -/
theorem socketRequest_noFields (r : Bool) :
    ∀ t ∈ [finishing 29 RequestAction.done (SocketRequest r)], t.avoids isFieldAct = true := by
  intro t ht
  rw [List.mem_singleton.mp ht]
  simpa [avoids, isFieldAct] using socketRequest_avoids r

/-- How far the machine is in front of the header fields. -/
inductive InFront (r : Bool) : List E → Prop
  | start : InFront r (start (main r))
  | line {threads : List E} : (∀ t ∈ threads, LineThread t) → InFront r threads
  | socket {threads : List E} : (∀ t ∈ threads, t.avoids isFieldAct = true) → InFront r threads

/-- In the request line the machine does nothing with header fields, and the line feed ends it. -/
theorem step_line {threads : List E} (h : ∀ t ∈ threads, LineThread t) {c : UInt8}
    {as : List RequestAction} {threads' : List E} (hstep : step threads c = some (as, threads')) :
    (∀ a ∈ as, isFieldAct a = false) ∧ (c = 10 → threads' = HeaderState.top.threads) ∧
      (c ≠ 10 → ∀ t ∈ threads', LineThread t) := by
  refine ⟨?_, ?_, ?_⟩
  · intro a ha
    rcases step_act hstep ha with ⟨t, ht, m, hm, -, n, hn⟩
    exact ((h t ht).move hm).1 _ hn
  · intro hc
    exact step_single hstep fun t ht m hm => ((h t ht).move hm).2.1 hc
  · intro hc t' ht'
    rcases step_next hstep ht' with ⟨t, ht, m, hm, rfl, -⟩
    exact ((h t ht).move hm).2.2 hc

/-- Inside a socket request, no step has a field action. -/
theorem step_socket {threads : List E} (h : ∀ t ∈ threads, t.avoids isFieldAct = true)
    {c : UInt8} {as : List RequestAction} {threads' : List E}
    (hstep : step threads c = some (as, threads')) :
    (∀ a ∈ as, isFieldAct a = false) ∧ ∀ t ∈ threads', t.avoids isFieldAct = true := by
  constructor
  · intro a ha
    rcases step_act hstep ha with ⟨t, ht, m, hm, -, n, hn⟩
    exact ((moveOf_of_mem hm).avoids (h t ht)).1 _ hn
  · intro t' ht'
    rcases step_next hstep ht' with ⟨t, ht, m, hm, rfl, -⟩
    exact ((moveOf_of_mem hm).avoids (h t ht)).2

/-- A step inside the request line stays in front of the fields or reaches the first of them. -/
private theorem InFront.of_line {r : Bool} {threads : List E} (h : ∀ t ∈ threads, LineThread t)
    {c : UInt8} {as : List RequestAction} {threads' : List E}
    (hstep : Lib.Ragel.step threads c = some (as, threads')) :
    (∀ a ∈ as, isFieldAct a = false) ∧ (InFront r threads' ∨
      threads' = HeaderState.top.threads) := by
  rcases step_line h hstep with ⟨hacts, hfeed, hother⟩
  refine ⟨hacts, ?_⟩
  by_cases hc : c = 10
  · exact .inr (hfeed hc)
  · exact .inl (.line (hother hc))

/-- A step inside a socket request stays in front of the fields. -/
private theorem InFront.of_socket {r : Bool} {threads : List E}
    (h : ∀ t ∈ threads, t.avoids isFieldAct = true) {c : UInt8} {as : List RequestAction}
    {threads' : List E} (hstep : Lib.Ragel.step threads c = some (as, threads')) :
    (∀ a ∈ as, isFieldAct a = false) ∧ (InFront r threads' ∨
      threads' = HeaderState.top.threads) := by
  rcases step_socket h hstep with ⟨hacts, hnext⟩
  exact ⟨hacts, .inl (.socket hnext)⟩

/-- In front of the header fields the machine does nothing with them, and it gets to them at the
start of a line. -/
theorem InFront.step {r : Bool} {threads : List E} (h : InFront r threads) {c : UInt8}
    {as : List RequestAction} {threads' : List E} (hstep : step threads c = some (as, threads')) :
    (∀ a ∈ as, isFieldAct a = false) ∧ (InFront r threads' ∨
      threads' = HeaderState.top.threads) := by
  cases h with
  | start =>
      rw [step_main] at hstep
      split at hstep
      · exact InFront.of_socket (socketRequest_noFields r) hstep
      · exact InFront.of_line (lineThread_request r) hstep
  | line hline => exact InFront.of_line hline hstep
  | socket hsocket => exact InFront.of_socket hsocket hstep

/-- In front of the fields, no field is open. -/
theorem InFront.fieldPhase {r : Bool} {threads : List E} (h : InFront r threads) :
    FieldPhase r false threads := by
  cases h with
  | start => exact .start
  | line hline => exact .line hline
  | socket hsocket => exact .socket hsocket

/-- A step in front of the fields ends the request or keeps the phase. -/
private theorem InFront.fieldPhase_step {r : Bool} {threads : List E} (h : InFront r threads)
    {c : UInt8} {as : List RequestAction} {threads' : List E}
    (hstep : Lib.Ragel.step threads c = some (as, threads')) :
    ∃ b', fieldRun false as = some b' ∧ (.done ∈ as ∨ FieldPhase r b' threads') := by
  rcases h.step hstep with ⟨hacts, hnext⟩
  refine ⟨false, fieldRun_of_avoid false hacts, .inr ?_⟩
  rcases hnext with hnext | rfl
  · exact hnext.fieldPhase
  · exact .header .top

/-- `write_value` never comes while a field name is pending. -/
theorem FieldPhase.step {r b : Bool} {threads : List E} (h : FieldPhase r b threads) {c : UInt8}
    {as : List RequestAction} {threads' : List E} (hstep : step threads c = some (as, threads')) :
    ∃ b', fieldRun b as = some b' ∧ (.done ∈ as ∨ FieldPhase r b' threads') := by
  cases h with
  | start => exact InFront.start.fieldPhase_step hstep
  | line hline => exact (InFront.line hline).fieldPhase_step hstep
  | socket hsocket => exact (InFront.socket hsocket).fieldPhase_step hstep
  | header q =>
      rcases q.step_threads hstep with ⟨b', hrun, hdone | ⟨hb, hthreads⟩⟩
      · exact ⟨b', hrun, .inl hdone⟩
      · refine ⟨b', hrun, .inr ?_⟩
        rw [hb, hthreads]
        exact .header _

end Http
end Tiger
