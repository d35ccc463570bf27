import Tiger.Http.Cuts
import Tiger.Http.RequestTally

/-!
# HTTP - the end of the stream

`HTTPSession::recv_request` takes a read of 0 bytes for a read: when the peer
closes before the header is complete, the loop goes on for ever.  And it does
not return either when the parser throws or one of its asserts fails, which
happens in the second call at the latest, or when no string can have the length
of the body.  Which of these happens is read off the bytes of the first two
reads.

Main results:

- Theorem `recvRequest_returns_iff`: what the first two reads must bring for
  `recv_request` to return, and when it loops for ever.
-/

namespace Tiger
namespace Http

open Lib.Ragel HTTPRequestParser RequestGrammar SocketStream

/-- A request or `nullptr`. -/
inductive Received.Returned : Received → Prop
  | request (r : HTTPRequest) : Received.Returned (.request r)
  | null : Received.Returned .null

/-- The bytes of the first read. -/
def firstRead (bufferSize : Nat) (s : SocketStream) : Text := (s.read bufferSize).2.1

/-- The bytes of the second read. -/
def secondRead (bufferSize : Nat) (s : SocketStream) : Text :=
  firstRead bufferSize (s.read bufferSize).2.2

/-- The first call of the parser on `x`. -/
def firstCall (env : Env) (x : Text) : Executed :=
  executeMachine (store env.memory 0 x) x.length (HTTPRequestParser.init env)

/-! ## What the reads must bring -/

/-- The first call, on the bytes `x`. -/
def callOn (env : Env) (x : Text) : HeaderCall :=
  ⟨store env.memory 0 x, startState env, HeaderRead.fresh, 0, x⟩

namespace HeaderCall

/-- The next call, on the bytes `y`, when the grammar goes on from `threads`. -/
def next (c : HeaderCall) (threads : List E) (y : Text) : HeaderCall :=
  ⟨store c.memory 0 y, threads, c.read, c.count, y⟩

/-- How many bytes are left behind the call. -/
def rest (c : HeaderCall) : Nat := c.text.length - c.count

/-- The method or the version is refused, or the bytes that are left are taken for a full
buffer. -/
def GivesUp (bufferSize : Nat) (c : HeaderCall) : Prop :=
  c.read.refused = true ∨ (c.rest : Int) = toInt32 bufferSize

instance (bufferSize : Nat) (c : HeaderCall) : Decidable (c.GivesUp bufferSize) :=
  inferInstanceAs (Decidable (_ ∨ _))

/-- If the header ends in the text and is not given up, a string can have the length that it
announces. -/
def BodyFits (env : Env) (bufferSize : Nat) (c : HeaderCall) : Prop :=
  match c.scan with
  | .stopped _ _ => c.GivesUp bufferSize ∨ contentLength env c.read.fields < 2 ^ 62
  | _ => True

end HeaderCall

/-- The first read decides about the header, or a second read that is not empty does. -/
def HeaderDecided (env : Env) (bufferSize : Nat) (x y : Text) : Prop :=
  (callOn env x).Passes ∧
    match (callOn env x).scan with
    | .running threads =>
        (callOn env x).GivesUp bufferSize ∨ y ≠ [] ∧ ((callOn env x).next threads y).Passes ∧
          ((callOn env x).next threads y).BodyFits env bufferSize
    | _ => (callOn env x).BodyFits env bufferSize

/-- The first read leaves the header open, and no byte follows. -/
def HeaderStarved (env : Env) (bufferSize : Nat) (x y : Text) : Prop :=
  (callOn env x).Passes ∧ (∃ threads, (callOn env x).scan = .running threads) ∧
    ¬ (callOn env x).GivesUp bufferSize ∧ y = []

/-! ## One call -/

/-- What comes of the header loop; `s` is the stream where the loop leaves none. -/
def behindLoop (env : Env) (s : SocketStream) : HeaderPhase → Received × SocketStream
  | .null s => (.null, s)
  | .abort => (.abort, s)
  | .threw => (.threw, s)
  | .outOfFuel => (.outOfFuel, s)
  | .finished ps m offset s => recvBody (toInt64 (ps.getContentLength env)) ps m offset s

/-- What `recv_request` returns with `fuel` more rounds of its header loop. -/
def outcome (env : Env) (bufferSize : Nat) (ps : HTTPRequestParser) (m : Memory) (s : SocketStream)
    (fuel : Nat) : Received :=
  (behindLoop env s (recvHeader bufferSize fuel ps m 0 s)).1

/-- The result of `recv_request` is the outcome from its first round on. -/
theorem recvRequest_outcome (env : Env) (bufferSize fuel : Nat) (s : SocketStream) :
    (recvRequest env bufferSize fuel s).1 =
      outcome env bufferSize (HTTPRequestParser.init env) env.memory s fuel := by
  rw [recvRequest, outcome]
  cases recvHeader bufferSize fuel (HTTPRequestParser.init env) env.memory 0 s with
  | null s₁ => rfl
  | abort => rfl
  | threw => rfl
  | outOfFuel => rfl
  | finished ps m offset s₁ => rfl

/-- What the stream is where the loop leaves none makes no difference. -/
theorem behindLoop_stream (env : Env) (s s' : SocketStream) (h : HeaderPhase) :
    (behindLoop env s h).1 = (behindLoop env s' h).1 := by
  cases h with
  | null s₁ => rfl
  | abort => rfl
  | threw => rfl
  | outOfFuel => rfl
  | finished ps m offset s₁ => rfl

/-- The body is returned or given up, unless no string can have its length. -/
theorem recvBody_returned_iff (length : Int) (ps : HTTPRequestParser) (m : Memory) (offset : Nat)
    (s : SocketStream) :
    ((recvBody length ps m offset s).1.Returned ↔ length < 2 ^ 62) ∧
      (recvBody length ps m offset s).1 ≠ .outOfFuel := by
  unfold recvBody
  split
  · exact ⟨iff_of_true (.request _) (by omega), by simp⟩
  · split
    · exact ⟨iff_of_false (fun h => by cases h) (by omega), by simp⟩
    · split
      · exact ⟨iff_of_true (.request _) (by omega), by simp⟩
      · simp only
        split
        · exact ⟨iff_of_true .null (by omega), by simp⟩
        · exact ⟨iff_of_true (.request _) (by omega), by simp⟩

theorem firstRead_eq {s : SocketStream} {bytes : Text} (hs : CutStream s bytes) (bufferSize : Nat) :
    firstRead bufferSize s = bytes.take (s.readLength bufferSize) := by
  rw [firstRead, hs.read_eq]

theorem firstRead_length {s : SocketStream} {bytes : Text} (hs : CutStream s bytes)
    (bufferSize : Nat) : (firstRead bufferSize s).length = s.readLength bufferSize := by
  rw [firstRead_eq hs, hs.take_readLength_length]

/-- The second read is the first one behind the first. -/
theorem secondRead_eq {s : SocketStream} {bytes : Text} (hs : CutStream s bytes)
    (bufferSize : Nat) :
    secondRead bufferSize s = firstRead bufferSize (s.skip (s.readLength bufferSize)) := by
  rw [secondRead, hs.read_eq]

theorem memmove_none (m : Memory) (offset : Nat) : memmove m offset 0 = m := by
  funext i
  exact if_neg (Nat.not_lt_zero i)

namespace HeaderCall

variable {c : HeaderCall}

/-- A call leaves bytes behind only when the grammar does not get through the text. -/
theorem rest_of_running {threads : List E} (hscan : c.scan = .running threads) : c.rest = 0 := by
  rw [rest, count, hscan, Scan.taken]
  omega

/-- What the header loop makes of the result of a call. -/
def behindCall (bufferSize fuel : Nat) (c : HeaderCall) (s : SocketStream) : Executed → HeaderPhase
  | .abort => .abort
  | .threw => .threw
  | .ok nparse ps =>
      if ps.hasError then .null s.close
      else if ((c.text.length - nparse : Nat) : Int) = toInt32 bufferSize then .null s.close
      else
        let m := memmove c.memory nparse (c.text.length - nparse)
        if ps.isFinished then .finished ps m (c.text.length - nparse) s
        else recvHeader bufferSize fuel ps m (c.text.length - nparse) s

section Round

variable {env : Env} {bufferSize : Nat} {s : SocketStream} {bytes : Text}
  {ps ps' : HTTPRequestParser} {m : Memory}

/-- A round of the header loop, with its call. -/
theorem recvHeader_call (hs : CutStream s bytes) (htext : c.text = firstRead bufferSize s)
    (hmem : c.memory = store m 0 c.text) (fuel : Nat) :
    recvHeader bufferSize (fuel + 1) ps m 0 s =
      c.behindCall bufferSize fuel (s.skip c.text.length)
        (executeMachine c.memory c.text.length ps) := by
  have hread : bytes.take (s.readLength bufferSize) = c.text := by rw [htext, firstRead_eq hs]
  have hlen : s.readLength bufferSize = c.text.length := by rw [htext, firstRead_length hs]
  rw [recvHeader_round hs]
  simp only [hread]
  rw [hlen, ← hmem]
  cases executeMachine c.memory c.text.length ps with
  | abort => rfl
  | threw => rfl
  | ok nparse ps' => rfl

variable (env) in
/-- A call that does not return ends the program. -/
theorem outcome_broken (hs : CutStream s bytes) (htext : c.text = firstRead bufferSize s)
    (hmem : c.memory = store m 0 c.text)
    (hcall : ∀ nparse ps', executeMachine c.memory c.text.length ps ≠ .ok nparse ps')
    (fuel : Nat) :
    ¬ (outcome env bufferSize ps m s (fuel + 1)).Returned ∧
      outcome env bufferSize ps m s (fuel + 1) ≠ .outOfFuel := by
  rw [outcome, recvHeader_call hs htext hmem]
  cases hexec : executeMachine c.memory c.text.length ps with
  | ok nparse ps' => exact absurd hexec (hcall nparse ps')
  | abort => exact ⟨(fun h => by cases h), fun h => by cases h⟩
  | threw => exact ⟨(fun h => by cases h), fun h => by cases h⟩

/-- The tests behind a call that returns. -/
theorem recvHeader_tests (hs : CutStream s bytes) (htext : c.text = firstRead bufferSize s)
    (hmem : c.memory = store m 0 c.text)
    (hcall : executeMachine c.memory c.text.length ps = .ok c.count ps') (hps : c.Behind ps')
    (fuel : Nat) :
    recvHeader bufferSize (fuel + 1) ps m 0 s =
      if c.scan.threads = none ∨ c.GivesUp bufferSize then .null (s.skip c.text.length).close
      else if ps'.isFinished then
        .finished ps' (memmove c.memory c.count c.rest) c.rest (s.skip c.text.length)
      else recvHeader bufferSize fuel ps' (memmove c.memory c.count c.rest) c.rest
        (s.skip c.text.length) := by
  have herror : ps'.hasError = true ↔ c.read.refused = true ∨ c.scan.threads = none := by
    rw [← hps.1, ← hps.2.stored_eq, hasError, Bool.or_eq_true, Option.isNone_iff_eq_none]
    rfl
  rw [recvHeader_call hs htext hmem, hcall, behindCall]
  by_cases hbad : ps'.hasError = true
  · rw [if_pos hbad, if_pos]
    rcases herror.mp hbad with hrefused | hfailed
    · exact .inr (.inl hrefused)
    · exact .inl hfailed
  · rw [if_neg hbad]
    rw [herror, not_or] at hbad
    by_cases hfull : ((c.text.length - c.count : Nat) : Int) = toInt32 bufferSize
    · rw [if_pos hfull, if_pos (.inr (.inr hfull))]
    · have hgoes : ¬ (c.scan.threads = none ∨ c.GivesUp bufferSize) := by
        rintro (hfailed | hrefused | hrest)
        · exact hbad.2 hfailed
        · exact hbad.1 hrefused
        · exact hfull hrest
      rw [if_neg hfull, if_neg hgoes]
      rfl

/-- The parser behind a call that leaves the header open. -/
theorem Behind.open_header (hps : c.Behind ps') {r : Bool} (hreach : RequestReach r c.threads)
    {threads : List E} (hscan : c.scan = .running threads) (hopen : ¬ c.GivesUp bufferSize) :
    ps'.hasError = false ∧ ps'.isFinished = false ∧ toInt32 bufferSize ≠ 0 := by
  have hcs : ps'.cs = some threads := by rw [hps.1, hscan]; rfl
  rw [GivesUp, not_or, rest_of_running hscan] at hopen
  refine ⟨?_, ?_, fun hzero => hopen.2 hzero.symm⟩
  · have herror : ps'.error.isSome = c.read.refused := by rw [← hps.2.stored_eq]; rfl
    rw [hasError, hcs, herror, Option.isNone_some, Bool.or_false]
    exact Bool.eq_false_iff.mpr hopen.1
  · rw [isFinished, hcs]
    exact RequestReach.not_isFinal (hreach.running hscan)

/-- A call that leaves the header open does nothing else. -/
theorem outcome_open (hs : CutStream s bytes) (htext : c.text = firstRead bufferSize s)
    (hmem : c.memory = store m 0 c.text)
    (hcall : executeMachine c.memory c.text.length ps = .ok c.count ps') (hps : c.Behind ps')
    {r : Bool} (hreach : RequestReach r c.threads) {threads : List E}
    (hscan : c.scan = .running threads) (hopen : ¬ c.GivesUp bufferSize) (fuel : Nat) :
    outcome env bufferSize ps m s (fuel + 1) =
      outcome env bufferSize ps' c.memory (s.skip c.text.length) fuel := by
  have hfin := (hps.open_header hreach hscan hopen).2.1
  have hgoes : ¬ (c.scan.threads = none ∨ c.GivesUp bufferSize) := by
    rintro (hfailed | hgives)
    · rw [hscan] at hfailed
      cases hfailed
    · exact hopen hgives
  rw [outcome, recvHeader_tests hs htext hmem hcall hps, if_neg hgoes, hfin,
    rest_of_running hscan, memmove_none, outcome]
  exact behindLoop_stream env _ _ _

variable (env) in
/-- A call that does not leave the header open ends the loop, and then only the length of the body
matters. -/
theorem outcome_settled (hs : CutStream s bytes) (htext : c.text = firstRead bufferSize s)
    (hmem : c.memory = store m 0 c.text)
    (hcall : executeMachine c.memory c.text.length ps = .ok c.count ps') (hps : c.Behind ps')
    {r : Bool} (hreach : RequestReach r c.threads)
    (hclosed : c.GivesUp bufferSize ∨ ∀ threads, c.scan ≠ .running threads) (fuel : Nat) :
    ((outcome env bufferSize ps m s (fuel + 1)).Returned ↔ c.BodyFits env bufferSize) ∧
      outcome env bufferSize ps m s (fuel + 1) ≠ .outOfFuel := by
  rw [outcome, recvHeader_tests hs htext hmem hcall hps]
  by_cases hgives : c.GivesUp bufferSize
  · rw [if_pos (.inr hgives)]
    refine ⟨iff_of_true .null ?_, fun h => by cases h⟩
    rw [BodyFits]
    split
    · exact .inl hgives
    · trivial
  · cases hscan : c.scan with
    | running threads => exact absurd hscan (hclosed.resolve_left hgives threads)
    | failed k =>
        rw [if_pos (.inl rfl)]
        refine ⟨iff_of_true .null ?_, fun h => by cases h⟩
        rw [BodyFits, hscan]
        trivial
    | stopped k threads =>
        have hcs : ps'.cs = some threads := by rw [hps.1, hscan]; rfl
        have hfin : ps'.isFinished = true := by
          rw [isFinished, hcs]
          exact (RequestReach.stopped_spec hreach hscan).1
        have hfields : ps'.data.headers = c.read.fields := by
          rw [← hps.2.stored_eq]
          rfl
        have hgoes : ¬ ((Scan.stopped k threads).threads = none ∨ c.GivesUp bufferSize) := by
          rintro (hfailed | h)
          · cases hfailed
          · exact hgives h
        have hfits : c.BodyFits env bufferSize ↔ contentLength env c.read.fields < 2 ^ 62 := by
          rw [BodyFits, hscan]
          exact or_iff_right hgives
        rw [if_neg hgoes, if_pos hfin, behindLoop, contentLength_eq, hfields, hfits]
        exact recvBody_returned_iff _ _ _ _ _

end Round

end HeaderCall

/-! ## Two calls -/

section Calls

variable {env : Env} {bufferSize : Nat} {s : SocketStream} {bytes : Text}

/-- The parser in front of the first call. -/
theorem callOn_before (env : Env) (x : Text) : (callOn env x).Before (HTTPRequestParser.init env) :=
  ⟨rfl, rfl, rfl, Nat.zero_lt_one, Nat.zero_lt_one, Nat.zero_le _⟩

/-- The first call, on any number of bytes. -/
theorem firstCall_cases (env : Env) (x : Text) :
    (¬ (callOn env x).Passes ∧ ∀ nparse ps, firstCall env x ≠ .ok nparse ps) ∨
      (callOn env x).Passes ∧ ∃ ps, firstCall env x = .ok (callOn env x).count ps ∧
        (callOn env x).Behind ps := by
  cases x with
  | nil =>
      refine .inr ⟨⟨rfl, le_rfl, le_rfl⟩, HTTPRequestParser.init env, rfl, rfl, ?_⟩
      exact ⟨rfl, rfl, Nat.zero_lt_one, Nat.zero_lt_one, Nat.zero_le _⟩
  | cons b x =>
      exact HeaderCall.executeMachine_cases (c := callOn env (b :: x)) (Nat.succ_pos _)
        (slice_store_all env.memory (b :: x)) (callOn_before env (b :: x))

/-- A function that has the same outcome with every positive bound. -/
theorem returned_of_succ {f : Nat → Received} (hzero : f 0 = .outOfFuel) {P : Prop}
    (h : ∀ fuel, ((f (fuel + 1)).Returned ↔ P) ∧ f (fuel + 1) ≠ .outOfFuel) :
    ((∃ fuel, (f fuel).Returned) ↔ P) ∧ ¬ ∀ fuel, f fuel = .outOfFuel := by
  refine ⟨⟨?_, fun hP => ⟨1, (h 0).1.mpr hP⟩⟩, fun hall => (h 0).2 (hall 1)⟩
  rintro ⟨fuel, hret⟩
  cases fuel with
  | zero =>
      rw [hzero] at hret
      cases hret
  | succ fuel => exact (h fuel).1.mp hret

/-- A function whose first round is another function. -/
theorem returned_of_shift {f g : Nat → Received} (hzero : f 0 = .outOfFuel)
    (h : ∀ fuel, f (fuel + 1) = g fuel) :
    ((∃ fuel, (f fuel).Returned) ↔ ∃ fuel, (g fuel).Returned) ∧
      ((∀ fuel, f fuel = .outOfFuel) ↔ ∀ fuel, g fuel = .outOfFuel) := by
  refine ⟨⟨?_, ?_⟩, ⟨fun hall fuel => h fuel ▸ hall (fuel + 1), ?_⟩⟩
  · rintro ⟨fuel, hret⟩
    cases fuel with
    | zero =>
        rw [hzero] at hret
        cases hret
    | succ fuel => exact ⟨fuel, h fuel ▸ hret⟩
  · rintro ⟨fuel, hret⟩
    exact ⟨fuel + 1, (h fuel).symm ▸ hret⟩
  · intro hall fuel
    cases fuel with
    | zero => exact hzero
    | succ fuel => rw [h, hall]

/-- At the end of the stream, an open header stays open. -/
theorem outcome_atEnd (hs : CutStream s bytes) {ps : HTTPRequestParser}
    (hps : (callOn env (firstRead bufferSize s)).Behind ps) {threads : List E}
    (hscan : (callOn env (firstRead bufferSize s)).scan = .running threads)
    (hopen : ¬ (callOn env (firstRead bufferSize s)).GivesUp bufferSize)
    (hy : firstRead bufferSize (s.skip (s.readLength bufferSize)) = []) (m : Memory)
    (fuel : Nat) :
    outcome env bufferSize ps m (s.skip (s.readLength bufferSize)) fuel = .outOfFuel := by
  obtain ⟨herror, hfin, hfull⟩ := hps.open_header Reach.start hscan hopen
  have hnext := hs.skip (s.readLength bufferSize)
  have hbuf : 0 < bufferSize := by
    by_contra hzero
    have hzero : bufferSize = 0 := by omega
    subst hzero
    exact hfull rfl
  have hend : bytes.drop (s.readLength bufferSize) = [] := by
    by_contra hne
    have hpos := hnext.readLength_pos hbuf hne
    have hlen := firstRead_length hnext bufferSize
    rw [hy, List.length_nil] at hlen
    omega
  rw [hend] at hnext
  rw [outcome, recvHeader_idle hnext hfull herror hfin fuel m]
  rfl

/-- The second call, behind a first one that leaves the header open. -/
theorem outcome_second (hs : CutStream s bytes) {ps : HTTPRequestParser}
    {x : Text} (hx : x ≠ []) (hps : (callOn env x).Behind ps) {threads : List E}
    (hscan : (callOn env x).scan = .running threads) (hy : firstRead bufferSize s ≠ [])
    (fuel : Nat) :
    ((outcome env bufferSize ps (callOn env x).memory s (fuel + 1)).Returned ↔
        ((callOn env x).next threads (firstRead bufferSize s)).Passes ∧
          ((callOn env x).next threads (firstRead bufferSize s)).BodyFits env bufferSize) ∧
      outcome env bufferSize ps (callOn env x).memory s (fuel + 1) ≠ .outOfFuel := by
  let c := (callOn env x).next threads (firstRead bufferSize s)
  have hpos : 0 < (callOn env x).count := by
    rw [HeaderCall.count, hscan, Scan.taken]
    exact Nat.add_pos_right _ (List.length_pos_iff.mpr hx)
  have hreach : RequestReach env.uriRelaxed threads := Reach.running Reach.start hscan
  have hbefore : c.Before ps := by
    refine ⟨?_, hps.2⟩
    rw [hps.1, hscan]
    rfl
  rcases HeaderCall.executeMachine_cases (c := c) (List.length_pos_iff.mpr hy)
    (slice_store_all _ _) hbefore with ⟨hbad, hcall⟩ | ⟨hgood, ps', hcall, hps'⟩
  · obtain ⟨hret, hfuel⟩ := HeaderCall.outcome_broken env (c := c) hs rfl rfl hcall fuel
    exact ⟨iff_of_false hret fun h => hbad h.1, hfuel⟩
  · have hclosed : ∀ ths, c.scan ≠ .running ths := by
      intro ths hrun
      have hcount := hgood.2.1
      rw [HeaderCall.count, hrun, Scan.taken] at hcount
      have htaken : c.taken = (callOn env x).count := rfl
      omega
    obtain ⟨hret, hfuel⟩ := HeaderCall.outcome_settled env (c := c) hs rfl rfl hcall
      hps' hreach (.inr hclosed) fuel
    exact ⟨hret.trans ⟨fun h => ⟨hgood, h⟩, fun h => h.2⟩, hfuel⟩

/-- What `recv_request` returns on a finite stream, by the bytes of its first two reads. -/
theorem outcome_iff (hs : CutStream s bytes) (env : Env) (bufferSize : Nat) :
    ((∃ fuel, (outcome env bufferSize (HTTPRequestParser.init env) env.memory s fuel).Returned) ↔
      HeaderDecided env bufferSize (firstRead bufferSize s) (secondRead bufferSize s)) ∧
    ((∀ fuel, outcome env bufferSize (HTTPRequestParser.init env) env.memory s fuel =
        .outOfFuel) ↔
      HeaderStarved env bufferSize (firstRead bufferSize s) (secondRead bufferSize s)) := by
  have hzero : outcome env bufferSize (HTTPRequestParser.init env) env.memory s 0 = .outOfFuel :=
    rfl
  rcases firstCall_cases env (firstRead bufferSize s) with ⟨hbad, hcall⟩ | ⟨hgood, ps, hcall, hps⟩
  · -- the first call does not return
    obtain ⟨hret, hloops⟩ := returned_of_succ hzero fun fuel =>
      (HeaderCall.outcome_broken env (c := callOn env (firstRead bufferSize s)) hs rfl rfl hcall
        fuel).imp_left fun h => iff_of_false h id
    exact ⟨iff_of_false hret.mp fun h => hbad h.1, iff_of_false hloops fun h => hbad h.1⟩
  · by_cases hclosed : (callOn env (firstRead bufferSize s)).GivesUp bufferSize ∨
        ∀ threads, (callOn env (firstRead bufferSize s)).scan ≠ .running threads
    · -- it settles the header
      obtain ⟨hret, hloops⟩ := returned_of_succ hzero fun fuel =>
        HeaderCall.outcome_settled env (c := callOn env (firstRead bufferSize s)) hs rfl rfl
          hcall hps Reach.start hclosed fuel
      refine ⟨hret.trans ?_, iff_of_false hloops ?_⟩
      · rw [HeaderDecided]
        cases hscan : (callOn env (firstRead bufferSize s)).scan with
        | running threads =>
            have hgives := hclosed.resolve_right fun h => h threads hscan
            refine iff_of_true ?_ ⟨hgood, .inl hgives⟩
            rw [HeaderCall.BodyFits, hscan]
            trivial
        | stopped k threads => exact ⟨fun h => ⟨hgood, h⟩, fun h => h.2⟩
        | failed k => exact ⟨fun h => ⟨hgood, h⟩, fun h => h.2⟩
      · rintro ⟨-, ⟨threads, hscan⟩, hopen, -⟩
        exact hclosed.elim hopen fun h => h threads hscan
    · -- it leaves the header open
      rw [not_or, not_forall] at hclosed
      obtain ⟨hopen, threads, hscan⟩ := hclosed
      rw [not_not] at hscan
      have hlen : (firstRead bufferSize s).length = s.readLength bufferSize :=
        firstRead_length hs bufferSize
      have hshift := returned_of_shift hzero
        (HeaderCall.outcome_open (c := callOn env (firstRead bufferSize s)) hs rfl rfl hcall hps
          Reach.start hscan hopen)
      have hskip : s.skip (callOn env (firstRead bufferSize s)).text.length =
          s.skip (s.readLength bufferSize) := congrArg s.skip hlen
      rw [hskip] at hshift
      rw [hshift.1, hshift.2, secondRead_eq hs, HeaderDecided, HeaderStarved, hscan]
      by_cases hy : firstRead bufferSize (s.skip (s.readLength bufferSize)) = []
      · have hidle := outcome_atEnd hs hps hscan hopen hy
          (callOn env (firstRead bufferSize s)).memory
        refine ⟨iff_of_false ?_ ?_, iff_of_true hidle ⟨hgood, ⟨threads, rfl⟩, hopen, hy⟩⟩
        · rintro ⟨fuel, hret⟩
          rw [hidle] at hret
          cases hret
        · exact fun h => h.2.elim hopen fun h => h.1 hy
      · have hx : firstRead bufferSize s ≠ [] := by
          intro hnil
          rw [hnil, List.length_nil] at hlen
          rw [← hlen, hs.skip_zero] at hy
          exact hy hnil
        obtain ⟨hret, hloops⟩ := returned_of_succ rfl
          (outcome_second (hs.skip _) hx hps hscan hy)
        refine ⟨hret.trans ⟨fun h => ⟨hgood, .inr ⟨hy, h⟩⟩, fun h => ?_⟩,
          iff_of_false hloops fun h => hy h.2.2.2⟩
        exact (h.2.resolve_left hopen).2

end Calls

/-- `recv_request` on a finite stream that is then closed: it returns exactly
when the first two reads decide about the header, and it loops for ever exactly
when the stream ends with an open header. -/
theorem recvRequest_returns_iff (env : Env) (bufferSize : Nat) {cuts : List Text}
    (hcuts : ∀ c ∈ cuts, c ≠ []) :
    ((∃ fuel, (recvRequest env bufferSize fuel (ofCuts cuts)).1.Returned) ↔
        HeaderDecided env bufferSize (firstRead bufferSize (ofCuts cuts))
          (secondRead bufferSize (ofCuts cuts))) ∧
      ((∀ fuel, (recvRequest env bufferSize fuel (ofCuts cuts)).1 = .outOfFuel) ↔
        HeaderStarved env bufferSize (firstRead bufferSize (ofCuts cuts))
          (secondRead bufferSize (ofCuts cuts))) := by
  simp only [recvRequest_outcome]
  exact outcome_iff (ofCuts_cutStream hcuts) env bufferSize

/-- A request in one piece decides about the header. -/
theorem recvRequest_returns_get :
    ∃ fuel, (recvRequest plainEnv 4096 fuel (ofCuts [getText])).1.Returned := by
  refine (recvRequest_returns_iff plainEnv 4096 (by decide)).1.mpr ?_
  have hread : firstRead 4096 (ofCuts [getText]) = getText := by decide
  rw [hread]
  refine ⟨by decide, ?_⟩
  have hstops : (match (callOn plainEnv getText).scan with
      | .stopped _ _ => true
      | _ => false) = true := by decide
  have hlength : contentLength plainEnv (callOn plainEnv getText).read.fields < 2 ^ 62 := by
    unfold contentLength toInt64
    decide
  cases hscan : (callOn plainEnv getText).scan with
  | running threads => simp [hscan] at hstops
  | failed k => simp [hscan] at hstops
  | stopped k threads =>
      rw [HeaderCall.BodyFits, hscan]
      exact .inr hlength

/-- A peer that closes at once is waited for without end. -/
theorem recvRequest_returns_fails :
    ¬ ∃ fuel, (recvRequest plainEnv 4096 fuel (ofCuts [])).1.Returned := by
  rintro ⟨fuel, hret⟩
  have hs : CutStream (ofCuts []) [] := ofCuts_cutStream (fun c hc => absurd hc (by simp))
  rw [recvRequest_outcome, outcome, recvHeader_idle hs (by decide) rfl (by decide)] at hret
  cases hret

end Http
end Tiger
