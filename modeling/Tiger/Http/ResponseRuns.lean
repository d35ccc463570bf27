import Tiger.Http.Chunked
import Tiger.Http.ResponseWalk

/-!
# HTTP - whether receiving a response ends

The runs of `HTTPConnection::recv_response` (`src/servers/http/http_connection.cc`) on a peer that
sends finitely many bytes and closes.  A run goes from place to place, one round at a time, and
every round but the ones for the data of a chunk takes a byte.  It keeps to the way that the bytes
show.

Main results:

- Theorem `decided`: from every place on, the receiver ends or waits without end, and which of
  these it does is said by the bytes on the way.
- Theorem `recvResponse_returns_iff`: what the bytes must be for `recv_response` to return, and
  when it loops for ever.
-/

namespace Tiger
namespace Http

open Lib Lib.Ragel HTTPResponseParser SocketStream

/-! ## Runs -/

/-- The receiver in front of a round of the header loop, of a round of the loop for a size line,
and of the data of a chunk. -/
inductive Place
  | header (b : Buffered)
  | size (more : Bool) (b : Buffered) (body : Text)
  | data (b : Buffered) (body : Text)

namespace Place

/-- What the receiver returns from a place on. -/
def Outcome (env : ClientEnv) (bufferSize : Nat) :
    Place → Except Failure (Buffered × Text) → Prop
  | header b, r => SettlesThen (fun fuel => recvResponseHeader bufferSize fuel b)
      (fun b => Settles (fun fuel => recvBehindHeader env bufferSize fuel b) r) r
  | size more b body, r => SettlesThen (fun fuel => recvChunkSize bufferSize fuel more b)
      (fun b => SettlesThen (fun fuel => recvChunkData bufferSize fuel b body)
        (fun x => Settles (fun fuel => behindChunk bufferSize fuel x) r) r) r
  | data b body, r => SettlesThen (fun fuel => recvChunkData bufferSize fuel b body)
      (fun x => Settles (fun fuel => behindChunk bufferSize fuel x) r) r

/-- The receiver is where the bytes say. -/
inductive Stands : Place → Spot → Prop
  | header {b : Buffered} {c : LineCall} (hb : Holds b c.text) (hm : b.m = c.memory)
      (hps : c.Before true b.ps) : Stands (header b) (.header c b.s)
  | size {more : Bool} {b : Buffered} {front body : Text} (hb : Holds b front)
      (herror : b.ps.error = false) :
      Stands (size more b body) (.size more front body.length b.s)
  | data {b : Buffered} {front body : Text} (hb : Holds b front) (herror : b.ps.error = false) :
      Stands (data b body) (.data b.ps.contentLen b.ps.chunksDone front body.length b.s)

/-- What the stream and the buffer still hold bounds the rounds: a round of the header loop or of
the loop for a size line takes a byte. -/
def weight : Place → Text → Nat
  | header b, bytes => 2 * (b.len + bytes.length)
  | size _ b _, bytes => 2 * (b.len + bytes.length)
  | data b _, bytes => 2 * (b.len + bytes.length) + 1

/-- The stream of a place. -/
def stream : Place → SocketStream
  | header b => b.s
  | size _ b _ => b.s
  | data b _ => b.s

section

variable {env : ClientEnv} {bufferSize : Nat}

/-- The loop over the chunks, from a size line on. -/
theorem recvChunks_settles {b : Buffered} {body : Text} {r : Except Failure (Buffered × Text)}
    (h : Outcome env bufferSize (size false b body) r) :
    Settles (fun fuel => recvChunks bufferSize fuel b body) r := by
  refine Settles.of_succ ?_ fun fuel => recvChunks_succ fuel b body
  rcases h with ⟨e, hsize, rfl⟩ | ⟨b', hsize, ⟨e, hdata, rfl⟩ | ⟨x, hdata, hrest⟩⟩
  · exact hsize.succ.bind_error
  · exact hsize.succ.bind_ok hdata.succ.bind_error
  · exact hsize.succ.bind_ok (hdata.succ.bind_ok hrest)

/-- A body of a known length is returned or given up, unless no string can have the length. -/
theorem recvKnownLength_cases (env : ClientEnv) (b : Buffered) :
    (2 ^ 62 ≤ toInt64 (b.ps.getContentLength env) ∧ recvKnownLength env b = .error .threw) ∨
      ¬ 2 ^ 62 ≤ toInt64 (b.ps.getContentLength env) ∧ Answered (recvKnownLength env b) := by
  unfold recvKnownLength
  simp only
  split
  · exact .inr ⟨by omega, .response _⟩
  · split
    · next hlong => exact .inl ⟨hlong, rfl⟩
    · next hshort =>
        refine .inr ⟨hshort, ?_⟩
        split
        · exact .response _
        · split
          · exact .null _
          · exact .response _

/-! ## Rounds -/

/-- What comes of the call `c` in a round: it does not go through, the receiver gives up behind it,
or it goes on with what is left; `n` bounds the bytes that are left in all. -/
inductive Round (exact : Bool) (bufferSize : Nat) (c : LineCall) (s : SocketStream) (n : Nat) :
    Except Failure Buffered → Prop
  | breaks {e : Failure} (hbad : ¬ c.Passes) (he : Fatal e) :
      Round exact bufferSize c s n (.error e)
  | givesUp {s' : SocketStream} (hgood : c.Passes) (hgives : c.GivesUp bufferSize) :
      Round exact bufferSize c s n (.error (.null s'))
  | goesOn {b : Buffered} {bytes : Text} (hgoes : c.GoesOn bufferSize) (hps : c.Behind exact b.ps)
      (hm : exact = true → b.m = memmove c.memory c.count c.left.length) (hs : b.s = s)
      (hb : Holds b c.left) (hcut : CutStream b.s bytes) (hlt : b.len + bytes.length < n) :
      Round exact bufferSize c s n (.ok b)

/-- A call of the parser on a text that is not empty. -/
theorem parse_round {exact chunck : Bool} {c : LineCall} {b : Buffered} {bytes : Text}
    (hpos : 0 < c.text.length) (hb : Holds b c.text)
    (hsame : SameText exact c.text.length (terminate b.m c.text.length) c.memory)
    (hline : exact = false → c.taken = 0)
    (h : c.Before exact (if chunck then b.ps.reinit else b.ps)) (hcut : CutStream b.s bytes) :
    Round exact bufferSize c b.s (b.len + bytes.length) (parse bufferSize chunck b) := by
  rcases LineCall.parse_cases bufferSize hpos hb hsame hline h with
    ⟨hbad, e, he, hparse⟩ | ⟨hgood, hgives, s, hparse⟩ | ⟨hgood, hopen, ps, hps, hparse⟩
  · rw [hparse]
    exact .breaks hbad he
  · rw [hparse]
    exact .givesUp hgood hgives
  · have hcount := LineCall.count_pos hpos fun hfailed => hopen (.inl hfailed)
    have hleft := c.left_length
    have hle := hgood.2.1
    have hlen := hb.len_eq
    rw [hparse]
    refine .goesOn ⟨hgood, hopen⟩ hps (fun hexact => ?_) rfl ⟨rfl, ?_⟩ hcut ?_
    · cases hsame with
      | same hm => rw [hm]
      | text hfields _ =>
          rw [hfields] at hexact
          cases hexact
    · have hback := slice_memmove (terminate b.m c.text.length) hle
      rw [slice_terminate, hb.text_eq] at hback
      rw [hleft]
      exact hback
    · simp only
      omega

/-- A round of the header loop makes the call that the bytes say. -/
theorem header_round {b : Buffered} {c : LineCall} {bytes : Text} (hcut : CutStream b.s bytes)
    (hb : Holds b c.text) (hm : b.m = c.memory) (hps : c.Before true b.ps) :
    (Spot.call bufferSize (.header c b.s) = none ∧
      ∃ s, parsed bufferSize false (refill bufferSize b) = .error (.null s)) ∨
    ∃ c' s', Spot.call bufferSize (.header c b.s) = some (c', s') ∧
      Round true bufferSize c' s' (b.len + bytes.length)
        (parsed bufferSize false (refill bufferSize b)) := by
  rcases refill_cases bufferSize hcut hb with
    ⟨hend, s, hrefill⟩ | ⟨hread, b', bytes', hrefill, hps', hm', hs', hb', hcut', hlen⟩
  · exact .inl ⟨if_pos hend, s, by rw [hrefill]; rfl⟩
  · refine .inr ⟨_, _, if_neg hread, ?_⟩
    rw [hrefill, ← hlen, ← hs']
    refine parse_round (c := c.receive _) ?_ hb' (.same ?_)
      (fun h => absurd h.symm Bool.false_ne_true) ?_ hcut'
    · have hpos := List.length_pos_iff.mpr hread
      simp only [LineCall.receive, List.length_append]
      omega
    · simp only [LineCall.receive, hm', hm, List.length_append]
    · rw [hps']
      exact hps

/-- A call for a size line. -/
theorem line_round {b : Buffered} {front bytes : Text} (hpos : 0 < front.length)
    (hb : Holds b front) (herror : b.ps.error = false) (hcut : CutStream b.s bytes) :
    Round false bufferSize (LineCall.sizeLine front) b.s (b.len + bytes.length)
      (parse bufferSize true b) := by
  refine parse_round (c := LineCall.sizeLine front) hpos hb (.text rfl fun i hi => ?_)
    (fun _ => rfl) ?_ hcut
  · have hbyte := slice_getElem? b.m 0 front.length i hi
    rw [hb.text_eq, Nat.zero_add] at hbyte
    rw [terminate, if_neg (by omega)]
    simp only [LineCall.sizeLine, List.getD_eq_getElem?_getD, hbyte, Option.getD_some]
  · refine ⟨rfl, ?_⟩
    exact ⟨rfl, rfl, rfl, herror, rfl, rfl, rfl, fun h => absurd h Bool.false_ne_true, rfl,
      Nat.zero_lt_one, Nat.zero_lt_one, Nat.zero_le _⟩

/-- A round of the loop for a size line makes the call that the bytes say. -/
theorem size_round {more : Bool} {b : Buffered} {front bytes : Text} (hcut : CutStream b.s bytes)
    (hb : Holds b front) (herror : b.ps.error = false) (body : Nat) :
    (Spot.call bufferSize (.size more front body b.s) = none ∧
      ∃ s, parsed bufferSize true (fetch bufferSize more b) = .error (.null s)) ∨
    ∃ c' s', Spot.call bufferSize (.size more front body b.s) = some (c', s') ∧
      Round false bufferSize c' s' (b.len + bytes.length)
        (parsed bufferSize true (fetch bufferSize more b)) := by
  have hempty : (b.len == 0) = front.isEmpty := by
    rw [hb.len_eq]
    cases front with
    | nil => rfl
    | cons x xs => rfl
  by_cases hread : (more || front.isEmpty) = true
  · have hfetch : fetch bufferSize more b = refill bufferSize b := by
      rw [fetch, hempty, if_pos hread]
    rw [Spot.call, if_pos hread, hfetch]
    rcases refill_cases bufferSize hcut hb with
      ⟨hend, s, hrefill⟩ | ⟨hsome, b', bytes', hrefill, hps', hm', hs', hb', hcut', hlen⟩
    · exact .inl ⟨if_pos hend, s, by rw [hrefill]; rfl⟩
    · refine .inr ⟨_, _, if_neg hsome, ?_⟩
      rw [hrefill, ← hlen, ← hs']
      refine line_round ?_ hb' (hps' ▸ herror) hcut'
      have hpos := List.length_pos_iff.mpr hsome
      rw [List.length_append]
      omega
  · have hfetch : fetch bufferSize more b = .ok b := by rw [fetch, hempty, if_neg hread]
    rw [Spot.call, if_neg hread, hfetch]
    refine .inr ⟨_, _, rfl, line_round ?_ hb herror hcut⟩
    rw [Bool.or_eq_true, not_or] at hread
    exact List.length_pos_iff.mpr fun hnil => hread.2 (List.isEmpty_iff.mpr hnil)

/-! ## The verdict -/

/-- The receiver has an outcome from a place on, and what is on the way from its spot says which. -/
def Decided (env : ClientEnv) (bufferSize : Nat) (p : Place) (spot : Spot) : Prop :=
  ∃ r, Outcome env bufferSize p r ∧ Verdict env bufferSize spot r

/-- Behind a call that ends the header, the chunks or the body of a known length decide. -/
theorem header_finished {b b' : Buffered} {c c' : LineCall}
    (hheader : Settles (fun fuel => recvResponseHeader bufferSize fuel b) (.ok b'))
    (hps' : c'.Behind true b'.ps) (hgoes : c'.GoesOn bufferSize) (hfin : c'.Finished)
    (hnext : Spot.next bufferSize (.header c b.s) =
      if c'.read.chunked = true then some (.size false c'.left 0 b'.s) else none)
    (hbreaks : Spot.Breaks env bufferSize (.header c b.s) ↔
      ¬ c'.Passes ∨ c'.TooLong env bufferSize)
    (hchunks : b'.ps.error = false →
      Decided env bufferSize (size false b' []) (.size false c'.left 0 b'.s)) :
    Decided env bufferSize (header b) (.header c b.s) := by
  have hchunked : b'.ps.chunked = c'.read.chunked := hps'.2.chunked_eq
  have hlength : toInt64 (b'.ps.getContentLength env) = c'.bodyLength env := by
    rw [getContentLength, hps'.2.headers_eq rfl]
    rfl
  by_cases hch : c'.read.chunked = true
  · have herror : b'.ps.error = false := by
      rw [hps'.2.error_eq]
      exact Bool.eq_false_iff.mpr fun h => hgoes.2 (.inr (.inl h))
    obtain ⟨r, hr, hverdict⟩ := hchunks herror
    rw [if_pos hch] at hnext
    refine ⟨r, .inr ⟨b', hheader, ?_⟩, .next hnext (fun h => ?_) id hverdict⟩
    · simp only [recvBehindHeader, hchunked, if_pos hch]
      exact recvChunks_settles hr
    · rcases hbreaks.mp h with hbad | htoo
      · exact hbad hgoes.1
      · rw [htoo.2.2.1] at hch
        cases hch
  · have hbody : Settles (fun fuel => recvBehindHeader env bufferSize fuel b')
        (recvKnownLength env b') := by
      simp only [recvBehindHeader, hchunked, if_neg hch]
      exact settles_const _
    rw [if_neg hch] at hnext
    refine ⟨_, .inr ⟨b', hheader, hbody⟩, .last hnext id ?_⟩
    rcases recvKnownLength_cases env b' with ⟨hlong, hr⟩ | ⟨hshort, hr⟩
    · rw [hlength] at hlong
      refine .inl ⟨hbreaks.mpr (.inr ⟨hgoes, hfin, ?_, hlong⟩), .threw, .threw, hr⟩
      exact Bool.eq_false_iff.mpr hch
    · rw [hlength] at hshort
      refine .inr ⟨fun h => ?_, hr⟩
      rcases hbreaks.mp h with hbad | htoo
      · exact hbad hgoes.1
      · exact hshort htoo.2.2.2

/-- A round of the header loop. -/
theorem header_decided {b : Buffered} {c : LineCall} {bytes : Text} (hcut : CutStream b.s bytes)
    (hb : Holds b c.text) (hm : b.m = c.memory) (hps : c.Before true b.ps)
    (ih : ∀ q spot bytes', Stands q spot → CutStream (stream q) bytes' →
      q.weight bytes' < 2 * (b.len + bytes.length) → Decided env bufferSize q spot) :
    Decided env bufferSize (header b) (.header c b.s) := by
  have hfails : ∀ e, parsed bufferSize false (refill bufferSize b) = .error e →
      Outcome env bufferSize (header b) (.error e) := by
    intro e he
    refine .inl ⟨e, settles_of_succ_eq fun fuel => ?_, rfl⟩
    rw [recvResponseHeader_succ, he]
    rfl
  rcases header_round hcut hb hm hps with ⟨hcall, s, hend⟩ | ⟨c', s', hcall, hround⟩
  · obtain ⟨hlast, hgood⟩ := Spot.last_header env hcall
    exact ⟨_, hfails _ hend, .last hlast id (.inr ⟨hgood, .null s⟩)⟩
  · have hnext := Spot.next_of_call hcall
    have hbreaks := Spot.breaks_header_iff env hcall
    generalize hparsed : parsed bufferSize false (refill bufferSize b) = x at hround
    cases hround with
    | breaks hbad he =>
        refine ⟨_, hfails _ hparsed, .last ?_ id (.inl ⟨hbreaks.mpr (.inl hbad), _, he, rfl⟩)⟩
        rw [hnext, if_neg fun h => hbad h.1]
    | givesUp hgood hgives =>
        refine ⟨_, hfails _ hparsed, .last ?_ id (.inr ⟨fun h => ?_, .null _⟩)⟩
        · rw [hnext, if_neg fun h => h.2 hgives]
        · rcases hbreaks.mp h with hbad | htoo
          · exact hbad hgood
          · exact htoo.1.2 hgives
    | @goesOn b' bytes' hgoes hps' hm' hs' hb' hcut' hlt =>
        have hsucc : ∀ fuel, recvResponseHeader bufferSize (fuel + 1) b =
            if b'.ps.isFinished then .ok b' else recvResponseHeader bufferSize fuel b' := by
          intro fuel
          rw [recvResponseHeader_succ, hparsed]
          rfl
        have hfinished : b'.ps.isFinished = decide c'.Finished := by
          rw [isFinished, hps'.1]
          rfl
        rw [if_pos hgoes, Spot.behindCall] at hnext
        subst hs'
        by_cases hfin : c'.Finished
        · rw [if_pos hfin] at hnext
          have hheader : Settles (fun fuel => recvResponseHeader bufferSize fuel b) (.ok b') :=
            settles_of_succ_eq fun fuel => by rw [hsucc, hfinished, decide_eq_true hfin, if_pos rfl]
          refine header_finished hheader hps' hgoes hfin hnext hbreaks fun herror => ?_
          exact ih (size false b' []) _ bytes' (.size hb' herror) hcut' (by rw [weight]; omega)
        · rw [if_neg hfin] at hnext
          have hcs : c'.next.Before true b'.ps := by
            refine ⟨?_, hps'.2⟩
            rw [hps'.1, LineCall.next]
            cases hthreads : c'.scan.threads with
            | none => exact absurd (.inl hthreads) hgoes.2
            | some threads => rfl
          obtain ⟨r, hr, hverdict⟩ :=
            ih (header b') _ bytes' (.header (c := c'.next) hb' (hm' rfl) hcs) hcut'
              (by rw [weight]; omega)
          refine ⟨r, hr.of_succ fun fuel => ?_, .next hnext (fun h => ?_) id hverdict⟩
          · rw [hsucc, hfinished, decide_eq_false hfin, if_neg Bool.false_ne_true]
          · rcases hbreaks.mp h with hbad | htoo
            · exact hbad hgoes.1
            · exact hfin htoo.2.1

/-- A round of the loop for a size line. -/
theorem size_decided {more : Bool} {b : Buffered} {front body bytes : Text}
    (hcut : CutStream b.s bytes) (hb : Holds b front) (herror : b.ps.error = false)
    (ih : ∀ q spot bytes', Stands q spot → CutStream (stream q) bytes' →
      q.weight bytes' < 2 * (b.len + bytes.length) → Decided env bufferSize q spot) :
    Decided env bufferSize (size more b body) (.size more front body.length b.s) := by
  have hfails : ∀ e, parsed bufferSize true (fetch bufferSize more b) = .error e →
      Outcome env bufferSize (size more b body) (.error e) := by
    intro e he
    refine .inl ⟨e, settles_of_succ_eq fun fuel => ?_, rfl⟩
    rw [recvChunkSize_succ, he]
    rfl
  rcases size_round hcut hb herror body.length with ⟨hcall, s, hend⟩ | ⟨c, s, hcall, hround⟩
  · obtain ⟨hlast, hgood⟩ := Spot.last_size env hcall
    exact ⟨_, hfails _ hend, .last hlast id (.inr ⟨hgood, .null s⟩)⟩
  · have hnext := Spot.next_of_call hcall
    have hbreaks := Spot.breaks_size_iff env hcall
    generalize hparsed : parsed bufferSize true (fetch bufferSize more b) = x at hround
    cases hround with
    | breaks hbad he =>
        refine ⟨_, hfails _ hparsed, .last ?_ id (.inl ⟨hbreaks.mpr hbad, _, he, rfl⟩)⟩
        rw [hnext, if_neg fun h => hbad h.1]
    | givesUp hgood hgives =>
        refine ⟨_, hfails _ hparsed, .last ?_ id (.inr ⟨fun h => hbreaks.mp h hgood, .null _⟩)⟩
        rw [hnext, if_neg fun h => h.2 hgives]
    | @goesOn b' bytes' hgoes hps' _ hs' hb' hcut' hlt =>
        have hsucc : ∀ fuel, recvChunkSize bufferSize (fuel + 1) more b =
            if b'.ps.isFinished then .ok b' else recvChunkSize bufferSize fuel true b' := by
          intro fuel
          rw [recvChunkSize_succ, hparsed]
          rfl
        have hfinished : b'.ps.isFinished = decide c.Finished := by
          rw [isFinished, hps'.1]
          rfl
        have herror' : b'.ps.error = false := by
          rw [hps'.2.error_eq]
          exact Bool.eq_false_iff.mpr fun h => hgoes.2 (.inr (.inl h))
        have hgood : ¬ Spot.Breaks env bufferSize (.size more front body.length b.s) :=
          fun h => hbreaks.mp h hgoes.1
        rw [if_pos hgoes, Spot.behindCall] at hnext
        subst hs'
        by_cases hfin : c.Finished
        · obtain ⟨r, hr, hverdict⟩ := ih (data b' body) _ bytes' (.data hb' herror') hcut'
            (by rw [weight]; omega)
          rw [if_pos hfin, ← hps'.2.contentLen_eq, ← hps'.2.chunksDone_eq] at hnext
          refine ⟨r, .inr ⟨b', settles_of_succ_eq fun fuel => ?_, hr⟩,
            .next hnext hgood id hverdict⟩
          rw [hsucc, hfinished, decide_eq_true hfin, if_pos rfl]
        · obtain ⟨r, hr, hverdict⟩ := ih (size true b' body) _ bytes' (.size hb' herror') hcut'
            (by rw [weight]; omega)
          rw [if_neg hfin] at hnext
          refine ⟨r, hr.of_succ fun fuel => ?_, .next hnext hgood id hverdict⟩
          rw [hsucc, hfinished, decide_eq_false hfin, if_neg Bool.false_ne_true]

/-- The data of a chunk. -/
theorem data_decided {b : Buffered} {front body bytes : Text} (hcut : CutStream b.s bytes)
    (hb : Holds b front) (herror : b.ps.error = false)
    (ih : ∀ q spot bytes', Stands q spot → CutStream (stream q) bytes' →
      q.weight bytes' < 2 * (b.len + bytes.length) + 1 → Decided env bufferSize q spot) :
    Decided env bufferSize (data b body)
      (.data b.ps.contentLen b.ps.chunksDone front body.length b.s) := by
  have hnone : b.ps.chunksDone = true ∨ DataStarves bufferSize b.ps.contentLen front.length b.s ∨
      DataBreaks bufferSize b.ps.contentLen front.length body.length b.s →
      Spot.next bufferSize (.data b.ps.contentLen b.ps.chunksDone front body.length b.s) = none :=
    fun h => if_pos h
  rcases recvChunkData_cases bufferSize hcut hb body with
    ⟨hstarves, hall⟩ | ⟨hfed, ⟨hbad, e, he, hsettles⟩ |
      ⟨hgood, b', body', bytes', hsettles, hcut', hle, hps', hbehind⟩⟩
  · exact ⟨.error .outOfFuel, .inl ⟨_, ⟨0, fun fuel _ => hall fuel⟩, rfl⟩,
      .starves rfl ⟨_, .refl, hstarves⟩⟩
  · exact ⟨.error e, .inl ⟨e, hsettles, rfl⟩,
      .last (hnone (.inr (.inr hbad))) hfed (.inl ⟨hbad, e, he, rfl⟩)⟩
  · by_cases hdone : b.ps.chunksDone = true
    · refine ⟨.ok (b', body'), .inr ⟨_, hsettles, ?_⟩,
        .last (hnone (.inl hdone)) hfed (.inr ⟨hgood, .response _⟩)⟩
      simp only [behindChunk, hps', if_pos hdone]
      exact settles_const _
    · have hstands : Stands (size false b' body')
          (Spot.behindData bufferSize b.ps.contentLen front body.length b.s) := by
        rw [Spot.behindData]
        split
        · next hbuffered =>
            rw [if_pos hbuffered] at hbehind
            obtain ⟨hs', hb', hbody⟩ := hbehind
            rw [← hs', ← hbody]
            exact .size hb' (hps' ▸ herror)
        · next hbuffered =>
            rw [if_neg hbuffered] at hbehind
            obtain ⟨hs', hb', hbody⟩ := hbehind
            rw [← hs', ← hbody]
            exact .size hb' (hps' ▸ herror)
      obtain ⟨r, hr, hverdict⟩ := ih _ _ bytes' hstands hcut' (by rw [weight]; omega)
      have hnext : Spot.next bufferSize
          (.data b.ps.contentLen b.ps.chunksDone front body.length b.s) =
            some (Spot.behindData bufferSize b.ps.contentLen front body.length b.s) := by
        refine if_neg ?_
        rintro (hlast | hstarves | hbad)
        · exact hdone hlast
        · exact hfed hstarves
        · exact hgood hbad
      refine ⟨r, .inr ⟨_, hsettles, ?_⟩, .next hnext hgood hfed hverdict⟩
      simp only [behindChunk, hps', if_neg hdone]
      exact recvChunks_settles hr

/-- On a peer that closes, the receiver has a verdict from every place on. -/
theorem decided (env : ClientEnv) (bufferSize : Nat) (p : Place) {spot : Spot} {bytes : Text}
    (hstands : Stands p spot) (hcut : CutStream p.stream bytes) :
    Decided env bufferSize p spot := by
  induction hn : p.weight bytes using Nat.strong_induction_on generalizing p spot bytes with
  | _ n ih =>
      subst hn
      cases hstands with
      | header hb hm hps =>
          exact header_decided hcut hb hm hps fun q spot' bytes' hq hs hlt => ih _ hlt q hq hs rfl
      | size hb herror =>
          exact size_decided hcut hb herror fun q spot' bytes' hq hs hlt => ih _ hlt q hq hs rfl
      | data hb herror =>
          exact data_decided hcut hb herror fun q spot' bytes' hq hs hlt => ih _ hlt q hq hs rfl

end

end Place

open Place

section

variable {env : ClientEnv} {bufferSize : Nat} {cuts : List Text}

/-- What `recv_response` returns with enough rounds, and the verdict on it. -/
theorem recvResponse_decided (env : ClientEnv) (bufferSize : Nat) (hcuts : ∀ c ∈ cuts, c ≠ []) :
    ∃ r, Settles (fun fuel => recvResponse env bufferSize fuel (ofCuts cuts))
        (r.bind fun x => .ok (answer env x)) ∧
      Verdict env bufferSize (Spot.first env (ofCuts cuts)) r := by
  have hstands : Stands (header ⟨HTTPResponseParser.init, env.memory, 0, ofCuts cuts⟩)
      (Spot.first env (ofCuts cuts)) := by
    refine .header (c := LineCall.first env) ⟨rfl, rfl⟩ rfl ⟨rfl, ?_⟩
    exact ⟨rfl, rfl, rfl, rfl, rfl, rfl, rfl, fun _ => rfl, rfl, Nat.zero_lt_one, Nat.zero_lt_one,
      Nat.zero_le _⟩
  obtain ⟨r, hr, hverdict⟩ := decided env bufferSize _ hstands (ofCuts_cutStream hcuts)
  obtain ⟨least, hleast⟩ := SettlesThen.bind hr
  refine ⟨r, ⟨least, fun fuel hfuel => ?_⟩, hverdict⟩
  simp only [recvResponse_eq_bind, hleast fuel hfuel]

/-- A spot that waits for bytes that do not arrive is never left. -/
theorem recvResponse_outOfFuel (hcuts : ∀ c ∈ cuts, c ≠ []) {p : Spot}
    (hp : p.Reached env bufferSize (ofCuts cuts)) (hstarves : p.Starves bufferSize) (fuel : Nat) :
    recvResponse env bufferSize fuel (ofCuts cuts) = .error .outOfFuel := by
  obtain ⟨r, hsettles, hverdict⟩ := recvResponse_decided env bufferSize hcuts
  have hstable := @recvResponse_stable bufferSize env (ofCuts cuts)
  cases hverdict with
  | answers _ hall => exact absurd hstarves (hall p hp).2
  | breaks _ _ hall => exact absurd hstarves (hall p hp)
  | starves hr _ =>
      subst hr
      exact (hstable.forall_eq_bottom_iff hsettles).mpr rfl fuel

/-- The answer is made of what was received. -/
theorem answered_bind_iff (env : ClientEnv) {r : Except Failure (Buffered × Text)} :
    Answered (r.bind fun x => .ok (answer env x)) ↔ Answered r := by
  cases r with
  | ok x => exact ⟨fun _ => .response x, fun _ => .response _⟩
  | error e =>
      constructor
      · intro h
        cases h with
        | null s => exact .null s
      · intro h
        cases h with
        | null s => exact .null s

/-- `recv_response` on a finite stream that is then closed: it returns exactly when no spot on the
way through the bytes breaks or waits for bytes of a chunk that do not arrive, and it loops for
ever exactly when one of them waits for such bytes. -/
theorem recvResponse_returns_iff (env : ClientEnv) (bufferSize : Nat)
    (hcuts : ∀ c ∈ cuts, c ≠ []) :
    ((∃ fuel, Answered (recvResponse env bufferSize fuel (ofCuts cuts))) ↔
        ∀ p : Spot, p.Reached env bufferSize (ofCuts cuts) →
          ¬ p.Breaks env bufferSize ∧ ¬ p.Starves bufferSize) ∧
      ((∀ fuel, recvResponse env bufferSize fuel (ofCuts cuts) = .error .outOfFuel) ↔
        ∃ p : Spot, p.Reached env bufferSize (ofCuts cuts) ∧ p.Starves bufferSize) := by
  obtain ⟨r, hsettles, hverdict⟩ := recvResponse_decided env bufferSize hcuts
  have hstable := @recvResponse_stable bufferSize env (ofCuts cuts)
  constructor
  · rw [hstable.exists_iff hsettles (P := Answered) not_answered_outOfFuel,
      answered_bind_iff]
    cases hverdict with
    | answers hanswered hall => exact ⟨fun _ => hall, fun _ => hanswered⟩
    | breaks hfatal hbreaks _ =>
        obtain ⟨e, he, rfl⟩ := hfatal
        obtain ⟨q, hq, hbad⟩ := hbreaks
        exact ⟨fun h => absurd h he.not_answered, fun hgood => absurd hbad (hgood q hq).1⟩
    | starves hfuel hstarves =>
        subst hfuel
        obtain ⟨q, hq, hbad⟩ := hstarves
        exact ⟨fun h => absurd h not_answered_outOfFuel, fun hgood => absurd hbad (hgood q hq).2⟩
  · constructor
    · intro hall
      have hr := (hstable.forall_eq_bottom_iff hsettles).mp hall
      cases hverdict with
      | answers hanswered _ =>
          rw [← answered_bind_iff env, hr] at hanswered
          cases hanswered
      | breaks hfatal _ _ =>
          obtain ⟨e, he, rfl⟩ := hfatal
          cases hr
          cases he
      | starves _ hstarves => exact hstarves
    · rintro ⟨p, hp, hstarves⟩ fuel
      exact recvResponse_outOfFuel hcuts hp hstarves fuel

end

/-! ## A chunk that is cut off -/

/-- A chunked response in two pieces is returned, so no spot on its way waits. -/
theorem recvResponse_returns_abc :
    (∃ fuel, Answered (recvResponse plainClient 64 fuel
      (ofCuts [chunkedHeader, encodeChunks [abcChunk, zeroChunk]]))) ∧
    ¬ ∃ p : Spot, p.Reached plainClient 64
        (ofCuts [chunkedHeader, encodeChunks [abcChunk, zeroChunk]]) ∧ p.Starves 64 := by
  have hok : (match recvResponse plainClient 64 3
      (ofCuts [chunkedHeader, encodeChunks [abcChunk, zeroChunk]]) with
    | .ok _ => true
    | .error _ => false) = true := by
    decide +kernel
  have hanswered : ∃ fuel, Answered (recvResponse plainClient 64 fuel
      (ofCuts [chunkedHeader, encodeChunks [abcChunk, zeroChunk]])) := by
    refine ⟨3, ?_⟩
    split at hok
    · next a ha =>
        rw [ha]
        exact .response a
    · cases hok
  refine ⟨hanswered, ?_⟩
  rintro ⟨p, hp, hstarves⟩
  exact ((recvResponse_returns_iff plainClient 64 (by decide)).1.mp hanswered p hp).2 hstarves

/-- The second spot behind a spot waits for bytes that do not arrive. -/
def Spot.starvesBehind (bufferSize : Nat) (p : Spot) : Bool :=
  ((p.next bufferSize).bind fun q => q.next bufferSize).any fun q => decide (q.Starves bufferSize)

/-- A stream that starves behind the first call has a call that is reached and starves. -/
theorem Spot.reached_of_starvesBehind (env : ClientEnv) (bufferSize : Nat) (s : SocketStream)
    (h : (Spot.first env s).starvesBehind bufferSize = true) :
    ∃ p : Spot, p.Reached env bufferSize s ∧ p.Starves bufferSize := by
  rw [starvesBehind, Option.any_eq_true] at h
  obtain ⟨p, hp, hstarves⟩ := h
  obtain ⟨q, hq, hnext⟩ := Option.bind_eq_some_iff.mp hp
  exact ⟨p, .tail (.single hq) hnext, of_decide_eq_true hstarves⟩

/-- A peer that closes inside of the data of a chunk is waited for without end. -/
theorem recvResponse_returns_fails :
    ¬ ∃ fuel, Answered
      (recvResponse plainClient 64 fuel (ofCuts [chunkedHeader, text ['3', '\r', '\n', 'a']])) := by
  rintro ⟨fuel, hanswered⟩
  obtain ⟨p, hp, hstarves⟩ := Spot.reached_of_starvesBehind plainClient 64
    (ofCuts [chunkedHeader, text ['3', '\r', '\n', 'a']]) (by decide +kernel)
  rw [recvResponse_outOfFuel (by decide) hp hstarves] at hanswered
  cases hanswered

end Http
end Tiger
