import Tiger.WebSocket.Rounds

/-!
# WebSocket - frame synchronisation

`recv_message` is called again and again on one session.  This module records
where in the stream each call reads the head of a frame, and compares these
places with the places at which frames start.  Data frames are skipped whole;
of a PING, a PONG or a frame with a reserved opcode only the head is read, so
the masking key that a client has to send is taken for the next head.

Main results:

- Theorem `recvLoopHeads_snd`: recording the heads does not change the loop.
- Theorem `sessionHeads_inSync_iff`: the heads that are read are heads of frames
  exactly when the session ends before the first frame of these kinds.
-/

namespace Tiger
namespace WebSocket

open SocketStream

/-! ## Recording the heads -/

/-- The receive loop together with the stream positions at which it read the
head of a frame. -/
def recvLoopHeads (requireMask : Bool) (maxSize : UInt32) :
    Nat → Acc → SocketStream → List Nat × Recvd × SocketStream
  | 0, _, s => ([], .outOfFuel, s)
  | fuel + 1, acc, s =>
      let heads := if (s.readFixedSize 2).1 ≤ 0 then [] else [s.consumed]
      match recvRound requireMask maxSize acc s with
      | .again acc s =>
          let r := recvLoopHeads requireMask maxSize fuel acc s
          (heads ++ r.1, r.2)
      | .leave s => (heads, .null, s.close)
      | .done msg s => (heads, .message msg, s)
      | .fault s => (heads, .fault, s)

/-- Without the record it is the receive loop. -/
theorem recvLoopHeads_snd (requireMask : Bool) (maxSize : UInt32) (fuel : Nat) (acc : Acc)
    (s : SocketStream) :
    (recvLoopHeads requireMask maxSize fuel acc s).2 =
      recvLoop requireMask maxSize fuel acc s := by
  induction fuel generalizing acc s with
  | zero => rfl
  | succ fuel ih =>
      rw [recvLoopHeads, recvLoop]
      cases recvRound requireMask maxSize acc s with
      | again acc' s' => exact ih acc' s'
      | leave s' => rfl
      | done msg s' => rfl
      | fault s' => rfl

/-- The heads read by up to `calls` calls of `WSSession::recv_message`; as in
`WSServer::handle_client`, only a call that returned a message is followed by
another one. -/
def sessionHeads (maxSize : UInt32) : Nat → SocketStream → List Nat
  | 0, _ => []
  | calls + 1, s =>
      let r := recvLoopHeads true maxSize (s.pending + 1) Acc.init s
      r.1 ++
        match r.2 with
        | (.message _, s) => sessionHeads maxSize calls s
        | _ => []

/-- The heads of a call that is under way and of `calls` more calls. -/
def headsFrom (maxSize : UInt32) (calls : Nat) (r : List Nat × Recvd × SocketStream) :
    List Nat :=
  r.1 ++
    match r.2 with
    | (.message _, s) => sessionHeads maxSize calls s
    | _ => []

/-- The heads of a session are those of its calls. -/
theorem sessionHeads_succ (maxSize : UInt32) (calls : Nat) (s : SocketStream) :
    sessionHeads maxSize (calls + 1) s =
      headsFrom maxSize calls (recvLoopHeads true maxSize (s.pending + 1) Acc.init s) :=
  rfl

/-! ## Frames of a client -/

/-- A frame that a client may send: it is masked, and a control frame is not
fragmented and carries at most 125 bytes. -/
structure Frame.FromClient (f : Frame) : Prop where
  masked : f.mask.isSome = true
  control : 8 ≤ f.opcode → f.fin = true ∧ f.form = .short

/-- The bytes of a sequence of frames. -/
def framesWire : List Frame → List UInt8
  | [] => []
  | f :: fs => f.wire ++ framesWire fs

/-- The positions at which the frames start when the first starts at `pos`. -/
def frameStarts (pos : Nat) : List Frame → List Nat
  | [] => []
  | f :: fs => pos :: frameStarts (pos + f.wire.length) fs

/-- A PONG can be written. -/
def CanPong (s : SocketStream) : Prop := ¬ (pong s).1 ≤ 0

/-- With `cur` bytes of an unfinished message taken in, the session ends before
it answers or skips a control or reserved frame: at a CLOSE frame, at a PING
whose PONG cannot be written, at a data frame that reaches a limit, or at the
end of the stream. -/
def EndsInSync (maxSize : UInt32) (canPong : Prop) : Nat → List Frame → Prop
  | _, [] => True
  | cur, f :: fs =>
      f.opcode = WSFrameHead.CLOSE ∨
        (f.opcode = WSFrameHead.PING ∧ ¬ canPong) ∨
        (f.IsData ∧ (Stops maxSize cur f.payload.length ∨
          EndsInSync maxSize canPong (if f.fin then 0 else cur + f.payload.length) fs))

/-- Streams that send the same can pong alike. -/
theorem CanPong.congr {s s' : SocketStream} (h : SameWriter s s') : CanPong s' ↔ CanPong s := by
  have hres : (pong s').1 = (pong s).1 := by
    unfold pong
    simp only [writeFixedSize_sameWriter h]
    split
    · rfl
    · exact writeFixedSize_sameWriter h _
  rw [CanPong, CanPong, hres]

/-- A PONG that goes out leaves the receiving side alone. -/
theorem pong_sameReader {s : SocketStream} (h : CanPong s) : SameReader s (pong s).2 := by
  unfold CanPong pong at h
  unfold pong
  simp only at h ⊢
  split at h
  next hneg => exact absurd hneg h
  next hpos =>
    rw [if_neg hpos]
    exact writeFixedSize_sameReader s _

/-- The masking key makes four bytes behind the head. -/
theorem Frame.FromClient.tail_length {f : Frame} (h : f.FromClient) : 4 ≤ f.tail.length := by
  rcases Option.isSome_iff_exists.mp h.masked with ⟨m, hm⟩
  have hkey : f.maskBytes.length = 4 := by simp [Frame.maskBytes, hm]
  rw [Frame.tail, List.length_append, List.length_append, hkey]
  omega

theorem Frame.wire_length (f : Frame) : f.wire.length = 2 + f.tail.length := by
  rw [Frame.wire, List.length_append, WSFrameHead.toBytes_length]

/-! ## One round, with the record -/

section Rounds

variable {maxSize : UInt32} {calls fuel : Nat} {acc : Acc} {s : SocketStream}

/-- A round that ends the call records one head. -/
theorem headsFrom_of_ends (h : (recvRound true maxSize acc s).Ends)
    (hread : ¬ (s.readFixedSize 2).1 ≤ 0) :
    headsFrom maxSize calls (recvLoopHeads true maxSize (fuel + 1) acc s) = [s.consumed] := by
  rw [recvLoopHeads, if_neg hread]
  cases hround : recvRound true maxSize acc s with
  | again acc' s' => exact absurd h (by simp [hround, Turn.Ends])
  | leave s' => rfl
  | done m s' => exact absurd h (by simp [hround, Turn.Ends])
  | fault s' => rfl

/-- A round that goes on has read one head. -/
theorem headsFrom_of_again {acc' : Acc} {s' : SocketStream}
    (h : recvRound true maxSize acc s = .again acc' s') (hread : ¬ (s.readFixedSize 2).1 ≤ 0) :
    headsFrom maxSize calls (recvLoopHeads true maxSize (fuel + 1) acc s) =
      s.consumed :: headsFrom maxSize calls (recvLoopHeads true maxSize fuel acc' s') := by
  rw [recvLoopHeads, if_neg hread, h]
  rfl

/-- A round that returns a message has read one head. -/
theorem headsFrom_of_done {msg : WSFrameMessage} {s' : SocketStream}
    (h : recvRound true maxSize acc s = .done msg s') (hread : ¬ (s.readFixedSize 2).1 ≤ 0) :
    headsFrom maxSize calls (recvLoopHeads true maxSize (fuel + 1) acc s) =
      s.consumed :: sessionHeads maxSize calls s' := by
  rw [recvLoopHeads, if_neg hread, h]
  rfl

/-- Nothing is recorded at the end of the stream. -/
theorem headsFrom_of_end (hend : available s.incoming = []) :
    headsFrom maxSize calls (recvLoopHeads true maxSize fuel acc s) = [] := by
  cases fuel with
  | zero => rfl
  | succ fuel =>
      have hread : (s.readFixedSize 2).1 ≤ 0 := readFixedSize_none (by decide) (by decide) hend
      rw [recvLoopHeads, if_pos hread, recvRound]
      simp only [if_pos hread]
      rfl

/-- With two bytes ahead, a head is recorded. -/
theorem headsFrom_head {bytes : List UInt8} (hs : Ahead s bytes) (hlen : 2 ≤ bytes.length) :
    ∃ more, headsFrom maxSize calls (recvLoopHeads true maxSize (fuel + 1) acc s) =
      s.consumed :: more := by
  have havail : 2 ≤ (available s.incoming).length := by
    rw [hs.available_eq]
    exact hlen
  rcases readFixedSize_spec hs.connected (by decide) havail with ⟨rest, hrun, _⟩
  have hread : ¬ (s.readFixedSize 2).1 ≤ 0 := by
    rw [hrun]
    exact (by decide : ¬ toInt32 ((2 : Nat) : Int) ≤ 0)
  rw [recvLoopHeads, if_neg hread]
  cases recvRound true maxSize acc s with
  | again acc' s' => exact ⟨_, rfl⟩
  | leave s' => exact ⟨_, rfl⟩
  | done m s' => exact ⟨_, rfl⟩
  | fault s' => exact ⟨_, rfl⟩

/-- A data frame that is taken in: the next head is read behind it, by this call
or, when the message is complete, by the next one. -/
theorem headsFrom_data (fuel : Nat) {f : Frame} {rest data : List UInt8} (opcode : Int)
    (hs : Ahead s (f.wire ++ rest)) (hf : f.FromClient) (hdata : f.IsData)
    (hgo : ¬ Stops maxSize data.length f.payload.length) :
    ∃ s₁, (∀ calls, headsFrom maxSize calls
          (recvLoopHeads true maxSize (fuel + 1) (.after opcode data) s) =
        s.consumed :: (if f.fin then sessionHeads maxSize calls s₁
          else headsFrom maxSize calls (recvLoopHeads true maxSize fuel
            (.after (keepOpcode opcode f) (data ++ f.payload)) s₁))) ∧
      Ahead s₁ rest ∧ SameWriter s s₁ ∧ s₁.consumed = s.consumed + f.wire.length ∧
      (f.fin = false → s₁.pending < s.pending) := by
  rcases recvRound_data true opcode hs hdata (fun _ => hf.masked) hgo with
    ⟨s₁, hround, hs₁, hadv, hread⟩
  refine ⟨s₁, ?_, hs₁, ⟨hs₁.connected.trans hs.connected.symm, hadv.sends_eq⟩,
    hadv.consumed_eq, ?_⟩
  · intro calls
    cases hfin : f.fin with
    | true =>
        rw [hfin, if_pos rfl] at hround
        rw [headsFrom_of_done hround hread, if_pos rfl]
    | false =>
        rw [hfin, if_neg (by decide)] at hround
        rw [headsFrom_of_again hround hread, if_neg (by decide)]
  · intro hfin
    rw [hfin, if_neg (by decide)] at hround
    exact recvRound_again_pending hround

/-- A PING that is answered, or a frame that is skipped: the next head is read
two bytes behind it. -/
theorem headsFrom_skip {f : Frame} {rest : List UInt8} (hs : Ahead s (f.wire ++ rest))
    (hf : f.FromClient) (hping : f.opcode = WSFrameHead.PING → CanPong s) (hdata : ¬ f.IsData)
    (hclose : f.opcode ≠ WSFrameHead.CLOSE) (hfuel : s.pending < fuel) :
    ∃ more, headsFrom maxSize calls (recvLoopHeads true maxSize fuel acc s) =
      s.consumed :: (s.consumed + 2) :: more := by
  have hnext : ∃ s₁, recvRound true maxSize acc s = .again acc s₁ ∧ Ahead s₁ (f.tail ++ rest) ∧
      s₁.consumed = s.consumed + 2 ∧ ¬ (s.readFixedSize 2).1 ≤ 0 := by
    by_cases hop : f.opcode = WSFrameHead.PING
    · rcases recvRound_ping true maxSize acc hs hop with ⟨s₁, hround, hs₁, hadv, hread⟩
      have hsame : SameWriter s s₁ := ⟨hs₁.connected.trans hs.connected.symm, hadv.sends_eq⟩
      have hcan : CanPong s₁ := (CanPong.congr hsame).mpr (hping hop)
      have hkeep := pong_sameReader hcan
      rw [if_neg hcan] at hround
      refine ⟨(pong s₁).2, hround, ⟨hkeep.connected_eq.trans hs₁.connected, ?_⟩, ?_, hread⟩
      · rw [hkeep.incoming_eq, hs₁.available_eq]
      · rw [hkeep.consumed_eq, hadv.consumed_eq]
    · rcases recvRound_skip true maxSize acc hs hdata hop hclose with
        ⟨s₁, hround, hs₁, hadv, hread⟩
      exact ⟨s₁, hround, hs₁, hadv.consumed_eq, hread⟩
  rcases hnext with ⟨s₁, hround, hs₁, hcons, hread⟩
  have hless := recvRound_again_pending hround
  obtain ⟨k, rfl⟩ : ∃ k, fuel = k + 1 + 1 := ⟨fuel - 2, by omega⟩
  have hlen : 2 ≤ (f.tail ++ rest).length := by
    have := hf.tail_length
    rw [List.length_append]
    omega
  rcases headsFrom_head hs₁ hlen with ⟨more, hmore⟩
  exact ⟨more, by rw [headsFrom_of_again hround hread, hmore, hcons]⟩

end Rounds

/-! ## In step -/

/-- While the condition holds, only heads of frames are read.  The induction is
over the frames; `data` is what the unfinished message has so far. -/
theorem headsFrom_prefix {maxSize : UInt32} {canPong : Prop} {fs : List Frame}
    (hclient : ∀ f ∈ fs, f.FromClient) {opcode : Int} {data : List UInt8} {calls fuel : Nat}
    {s : SocketStream} (hs : Ahead s (framesWire fs)) (hpong : CanPong s ↔ canPong)
    (hcur : data.length ≤ 2 ^ 31) (hsync : EndsInSync maxSize canPong data.length fs) :
    headsFrom maxSize calls (recvLoopHeads true maxSize fuel (.after opcode data) s) <+:
      frameStarts s.consumed fs := by
  induction fs generalizing opcode data calls fuel s with
  | nil =>
      rw [headsFrom_of_end hs.available_eq]
      exact List.nil_prefix
  | cons f fs ih =>
      have hf : f.FromClient := hclient f List.mem_cons_self
      have hrest : ∀ g ∈ fs, g.FromClient := fun g hg => hclient g (List.mem_cons_of_mem _ hg)
      have hone : [s.consumed] <+: frameStarts s.consumed (f :: fs) :=
        List.prefix_append [s.consumed] _
      cases fuel with
      | zero => exact List.nil_prefix
      | succ fuel =>
          rcases hsync with hclose | ⟨hping, hno⟩ | ⟨hdata, hstops | hsync⟩
          · rcases recvRound_close true maxSize (.after opcode data) hs hclose with ⟨hends, hread⟩
            rw [headsFrom_of_ends hends hread]
            exact hone
          · rcases recvRound_ping true maxSize (.after opcode data) hs hping with
              ⟨s₁, hround, hs₁, hadv, hread⟩
            have hcant : (pong s₁).1 ≤ 0 := by
              have hsame : SameWriter s s₁ :=
                ⟨hs₁.connected.trans hs.connected.symm, hadv.sends_eq⟩
              by_contra hcan
              exact hno (hpong.mp ((CanPong.congr hsame).mp hcan))
            rw [if_pos hcant] at hround
            rw [headsFrom_of_ends (by rw [hround]; trivial) hread]
            exact hone
          · rcases recvRound_stops true opcode hs hdata hf.masked hcur hstops with ⟨hends, hread⟩
            rw [headsFrom_of_ends hends hread]
            exact hone
          · by_cases hstops : Stops maxSize data.length f.payload.length
            · rcases recvRound_stops true opcode hs hdata hf.masked hcur hstops with
                ⟨hends, hread⟩
              rw [headsFrom_of_ends hends hread]
              exact hone
            · rcases headsFrom_data fuel opcode hs hf hdata hstops with
                ⟨s₁, hheads, hs₁, hsame, hcons, _⟩
              have hpong₁ : CanPong s₁ ↔ canPong := (CanPong.congr hsame).trans hpong
              simp only [Stops, not_or] at hstops
              rw [frameStarts, ← hcons, hheads, List.cons_prefix_cons]
              refine ⟨rfl, ?_⟩
              cases hfin : f.fin with
              | true =>
                  rw [hfin, if_pos rfl] at hsync
                  rw [if_pos rfl]
                  cases calls with
                  | zero => exact List.nil_prefix
                  | succ calls =>
                      rw [sessionHeads_succ, Acc.init_eq]
                      exact ih hrest hs₁ hpong₁ (Nat.zero_le _) hsync
              | false =>
                  rw [hfin, if_neg (by decide), ← List.length_append] at hsync
                  rw [if_neg (by decide)]
                  refine ih hrest hs₁ hpong₁ ?_ hsync
                  rw [List.length_append]
                  omega

/-! ## Out of step -/

/-- The head read two bytes behind the start of a frame is not a frame's. -/
theorem not_prefix_frameStarts {f : Frame} (hf : f.FromClient) (pos : Nat) (fs : List Frame)
    (more : List Nat) : ¬ pos :: (pos + 2) :: more <+: frameStarts pos (f :: fs) := by
  intro hpre
  rw [frameStarts, List.cons_prefix_cons] at hpre
  have hlen := f.wire_length
  have htail := hf.tail_length
  cases fs with
  | nil => simp [frameStarts] at hpre
  | cons g gs =>
      rw [frameStarts, List.cons_prefix_cons] at hpre
      omega

/-- When the condition fails, some number of calls reads a head inside a frame. -/
theorem headsFrom_not_prefix {maxSize : UInt32} {canPong : Prop} {fs : List Frame}
    (hclient : ∀ f ∈ fs, f.FromClient) {opcode : Int} (data : List UInt8) {fuel : Nat}
    {s : SocketStream} (hs : Ahead s (framesWire fs)) (hpong : CanPong s ↔ canPong)
    (hfuel : s.pending < fuel) (hsync : ¬ EndsInSync maxSize canPong data.length fs) :
    ∃ calls, ¬ headsFrom maxSize calls
      (recvLoopHeads true maxSize fuel (.after opcode data) s) <+: frameStarts s.consumed fs := by
  induction fs generalizing opcode data fuel s with
  | nil => exact absurd trivial hsync
  | cons f fs ih =>
      have hf : f.FromClient := hclient f List.mem_cons_self
      have hrest : ∀ g ∈ fs, g.FromClient := fun g hg => hclient g (List.mem_cons_of_mem _ hg)
      simp only [EndsInSync, not_or, not_and, not_not] at hsync
      rcases hsync with ⟨hclose, hping, hdata⟩
      by_cases hd : f.IsData
      · rcases hdata hd with ⟨hstops, hsync⟩
        obtain ⟨k, rfl⟩ : ∃ k, fuel = k + 1 := ⟨fuel - 1, by omega⟩
        rcases headsFrom_data k opcode hs hf hd hstops with
          ⟨s₁, hheads, hs₁, hsame, hcons, hless⟩
        have hpong₁ : CanPong s₁ ↔ canPong := (CanPong.congr hsame).trans hpong
        cases hfin : f.fin with
        | true =>
            -- the message is complete, so the next call reads the next head
            rw [hfin, if_pos rfl] at hsync
            rcases ih hrest [] hs₁ hpong₁ (Nat.lt_succ_self _) hsync with
              ⟨calls, hnot⟩
            refine ⟨calls + 1, ?_⟩
            rw [hheads, frameStarts, ← hcons, List.cons_prefix_cons, hfin, if_pos rfl,
              sessionHeads_succ, Acc.init_eq]
            exact fun hpre => hnot hpre.2
        | false =>
            rw [hfin, if_neg (by decide), ← List.length_append] at hsync
            have hfuel₁ : s₁.pending < k := Nat.lt_of_lt_of_le (hless hfin) (by omega)
            rcases ih hrest _ hs₁ hpong₁ hfuel₁ hsync with ⟨calls, hnot⟩
            refine ⟨calls, ?_⟩
            rw [hheads, frameStarts, ← hcons, List.cons_prefix_cons, hfin, if_neg (by decide)]
            exact fun hpre => hnot hpre.2
      · refine ⟨0, ?_⟩
        rcases headsFrom_skip hs hf (fun h => hpong.mpr (hping h)) hd hclose hfuel with
          ⟨more, hheads⟩
        rw [hheads]
        exact not_prefix_frameStarts hf _ _ _

/-! ## Whole sessions -/

/-- Every head that the calls of `recv_message` on a session read, whatever
their number is, is the head of the next frame of the stream. -/
def InSync (maxSize : UInt32) (s : SocketStream) (fs : List Frame) : Prop :=
  ∀ calls, sessionHeads maxSize calls s <+: frameStarts s.consumed fs

/-- A session stays in step with the frames of a client exactly when it ends
before the first frame that is not a data frame. -/
theorem sessionHeads_inSync_iff {maxSize : UInt32} {s : SocketStream} {fs : List Frame}
    (hclient : ∀ f ∈ fs, f.FromClient) (hs : Ahead s (framesWire fs)) :
    InSync maxSize s fs ↔ EndsInSync maxSize (CanPong s) 0 fs := by
  constructor
  · intro hin
    by_contra hsync
    rcases headsFrom_not_prefix hclient [] hs Iff.rfl (Nat.lt_succ_self _) hsync with
      ⟨calls, hnot⟩
    exact hnot (hin (calls + 1))
  · intro hsync calls
    cases calls with
    | zero => exact List.nil_prefix
    | succ calls =>
        rw [sessionHeads_succ, Acc.init_eq]
        exact headsFrom_prefix hclient hs Iff.rfl (Nat.zero_le _) hsync

/-- A masked frame with the opcode `opcode` and a short payload. -/
def clientFrame (opcode : Nat) (h : opcode < 16) (payload : List UInt8)
    (hlen : payload.length < 126) : Frame :=
  ⟨true, opcode, some ⟨1, 2, 3, 4⟩, .short, payload, h, hlen⟩

theorem clientFrame_fromClient (opcode : Nat) (h : opcode < 16) (payload : List UInt8)
    (hlen : payload.length < 126) : (clientFrame opcode h payload hlen).FromClient :=
  ⟨rfl, fun _ => ⟨rfl, rfl⟩⟩

/-- A text frame and a CLOSE frame: the session ends in step. -/
theorem sessionHeads_inSync_text :
    InSync 1024
      ⟨true, [.bytes (framesWire [clientFrame WSFrameHead.TEXT_FRAME (by decide) [104] (by decide),
        clientFrame WSFrameHead.CLOSE (by decide) [3, 232] (by decide)])], 0, [], []⟩
      [clientFrame WSFrameHead.TEXT_FRAME (by decide) [104] (by decide),
        clientFrame WSFrameHead.CLOSE (by decide) [3, 232] (by decide)] := by
  refine (sessionHeads_inSync_iff ?_ ⟨rfl, by decide⟩).mpr ?_
  · intro f hf
    simp only [List.mem_cons, List.not_mem_nil, or_false] at hf
    rcases hf with rfl | rfl
    · exact clientFrame_fromClient _ _ _ _
    · exact clientFrame_fromClient _ _ _ _
  · exact Or.inr (Or.inr ⟨Or.inr (Or.inl rfl), Or.inr (Or.inl rfl)⟩)

/-- An empty masked PONG: its masking key is read as the head of a frame. -/
theorem sessionHeads_inSync_fails :
    (clientFrame WSFrameHead.PONG (by decide) [] (by decide)).FromClient ∧
      Ahead ⟨true, [.bytes (framesWire [clientFrame WSFrameHead.PONG (by decide) [] (by decide)])],
        0, [], []⟩ (framesWire [clientFrame WSFrameHead.PONG (by decide) [] (by decide)]) ∧
      ¬ InSync 1024
        ⟨true, [.bytes (framesWire [clientFrame WSFrameHead.PONG (by decide) [] (by decide)])],
          0, [], []⟩
        [clientFrame WSFrameHead.PONG (by decide) [] (by decide)] := by
  refine ⟨clientFrame_fromClient _ _ _ _, ⟨rfl, by decide⟩, ?_⟩
  intro hin
  exact absurd (hin 1) (by decide)

end WebSocket
end Tiger
