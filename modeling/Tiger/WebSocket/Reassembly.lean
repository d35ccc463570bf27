import Tiger.WebSocket.Rounds

/-!
# WebSocket - reassembly of fragmented messages

A message may arrive as several masked data frames with control frames in
between.  `WSSession::recv_message` puts the payloads together and answers the
PINGs, whatever the cuts of the stream are, as long as the lengths fit the
`int` variables it uses.

Main results:

- Theorem `recvLoop_message`: the loop reassembles a message whose lengths fit.
- Theorem `recvLoop_no_message`: it returns no message otherwise.
- Theorem `recvMessage_reassembles_iff`: the exact condition, for the whole
  call.
-/

namespace Tiger
namespace WebSocket

open SocketStream

/-! ## Sequences of frames -/

/-- An empty control frame without a mask. -/
def emptyControl (opcode : Nat) (h : opcode < 16) : Frame :=
  ⟨true, opcode, none, .short, [], h, by simp [LengthForm.Fits]⟩

/-- What a client sends while it transmits one message. -/
inductive Item
  | data (f : Frame)
  | ping
  | pong

/-- The frame of an item. -/
def Item.frame : Item → Frame
  | .data f => f
  | .ping => emptyControl WSFrameHead.PING WSFrameHead.PING_lt
  | .pong => emptyControl WSFrameHead.PONG WSFrameHead.PONG_lt

/-- The bytes of a sequence of items. -/
def wire : List Item → List UInt8
  | [] => []
  | i :: is => i.frame.wire ++ wire is

/-- The unmasked payloads of the data frames, in order. -/
def payload : List Item → List UInt8
  | [] => []
  | .data f :: is => f.payload ++ payload is
  | _ :: is => payload is

/-- One PONG frame for each PING. -/
def pongs : List Item → List UInt8
  | [] => []
  | .ping :: is => [0x8A, 0x00] ++ pongs is
  | _ :: is => pongs is

/-- One message: masked non-empty data frames, the first with opcode `op` and
the others with CONTINUE, `fin` on the last one only, and empty control frames
anywhere before it. -/
inductive IsMessage : Nat → List Item → Prop
  | last {op : Nat} {f : Frame} (hop : f.opcode = op) (hfin : f.fin = true)
      (hmask : f.mask.isSome = true) (hpos : f.payload ≠ []) : IsMessage op [.data f]
  | more {op : Nat} {f : Frame} {is : List Item} (hop : f.opcode = op) (hfin : f.fin = false)
      (hmask : f.mask.isSome = true) (hpos : f.payload ≠ [])
      (hrest : IsMessage WSFrameHead.CONTINUE is) : IsMessage op (.data f :: is)
  | ping {op : Nat} {is : List Item} (hrest : IsMessage op is) : IsMessage op (.ping :: is)
  | pong {op : Nat} {is : List Item} (hrest : IsMessage op is) : IsMessage op (.pong :: is)

/-- The lengths that the `int` variables of `recv_message` can hold: every frame
is shorter than `2 ^ 31` bytes, and all of them have at most `2 ^ 31`. -/
def FitsInt (cur : Nat) (is : List Item) : Prop :=
  (∀ f, Item.data f ∈ is → f.payload.length < 2 ^ 31) ∧ cur + (payload is).length ≤ 2 ^ 31

theorem FitsInt.ping_iff {cur : Nat} {is : List Item} :
    FitsInt cur (.ping :: is) ↔ FitsInt cur is := by
  simp [FitsInt, payload]

theorem FitsInt.pong_iff {cur : Nat} {is : List Item} :
    FitsInt cur (.pong :: is) ↔ FitsInt cur is := by
  simp [FitsInt, payload]

/-- Every item has a byte on the wire. -/
theorem length_le_wire (is : List Item) : is.length ≤ (wire is).length := by
  induction is with
  | nil => simp
  | cons i is ih =>
      have hhead : 2 ≤ i.frame.wire.length := by
        rw [Frame.wire, List.length_append, WSFrameHead.toBytes_length]
        omega
      rw [wire, List.length_append, List.length_cons]
      omega

theorem emptyControl_tail (opcode : Nat) (h : opcode < 16) : (emptyControl opcode h).tail = [] :=
  rfl

theorem emptyControl_wire_length (opcode : Nat) (h : opcode < 16) :
    (emptyControl opcode h).wire.length = 2 :=
  rfl

/-! ## Control frames inside a message -/

/-- A PING costs one round, is answered and leaves the variables alone. -/
theorem recvLoop_ping {s : SocketStream} {rest : List UInt8} {requireMask : Bool}
    {maxSize : UInt32} {fuel : Nat} {acc : Acc}
    (hs : Ahead s ((Item.frame .ping).wire ++ rest)) (hsends : s.SendsSucceed) :
    ∃ s', recvLoop requireMask maxSize (fuel + 1) acc s =
        recvLoop requireMask maxSize fuel acc s' ∧
      Ahead s' rest ∧ s'.SendsSucceed ∧ s'.sent = s.sent ++ [0x8A, 0x00] ∧
      s'.consumed = s.consumed + 2 := by
  rcases recvRound_ping requireMask maxSize acc hs rfl with ⟨s₁, hround, hs₁, hadv, _⟩
  rcases pong_spec hs₁.connected (hadv.sendsSucceed hsends) with ⟨sends, hpong, hgood⟩
  rw [hpong, if_neg (by decide : ¬ (2 : Int) ≤ 0)] at hround
  refine ⟨{ s₁ with sends := sends, sent := s₁.sent ++ [0x8A, 0x00] }, ?_,
    ⟨hs₁.connected, ?_⟩, hgood, ?_, hadv.consumed_eq⟩
  · rw [recvLoop, hround]
  · have h := hs₁.available_eq
    rwa [Item.frame, emptyControl_tail, List.nil_append] at h
  · change s₁.sent ++ _ = _
    rw [hadv.sent_eq]

/-- A PONG costs one round and changes nothing. -/
theorem recvLoop_pong {s : SocketStream} {rest : List UInt8} {requireMask : Bool}
    {maxSize : UInt32} {fuel : Nat} {acc : Acc}
    (hs : Ahead s ((Item.frame .pong).wire ++ rest)) :
    ∃ s', recvLoop requireMask maxSize (fuel + 1) acc s =
        recvLoop requireMask maxSize fuel acc s' ∧
      Ahead s' rest ∧ Advanced s s' 2 := by
  have hdata : ¬ (Item.frame .pong).IsData := by
    simp [Frame.IsData, Item.frame, emptyControl, WSFrameHead.CONTINUE, WSFrameHead.TEXT_FRAME,
      WSFrameHead.BIN_FRAME, WSFrameHead.PONG]
  rcases recvRound_skip requireMask maxSize acc hs hdata (by decide) (by decide) with
    ⟨s₁, hround, hs₁, hadv, _⟩
  rw [Item.frame, emptyControl_tail, List.nil_append] at hs₁
  exact ⟨s₁, by rw [recvLoop, hround], hs₁, hadv⟩

/-! ## The loop -/

/-- The opcodes of data frames. -/
def IsDataOpcode (op : Nat) : Prop :=
  op = WSFrameHead.CONTINUE ∨ op = WSFrameHead.TEXT_FRAME ∨ op = WSFrameHead.BIN_FRAME

/-- A frame with a data opcode is a data frame. -/
theorem IsDataOpcode.isData {op : Nat} {f : Frame} (h : IsDataOpcode op) (hf : f.opcode = op) :
    f.IsData := by
  rw [Frame.IsData, hf]
  exact h

section Loop

variable {maxSize : UInt32} {rest : List UInt8}

/-- The items behind a frame fit behind its length. -/
theorem FitsInt.tail {cur : Nat} {f : Frame} {is : List Item} (h : FitsInt cur (.data f :: is)) :
    FitsInt (cur + f.payload.length) is := by
  refine ⟨fun g hg => h.1 g (List.mem_cons_of_mem _ hg), ?_⟩
  have htotal := h.2
  rw [payload, List.length_append] at htotal
  omega

/-- The first data frame of a message that fits does not end the loop. -/
theorem FitsInt.not_stops {cur : Nat} {f : Frame} {is : List Item}
    (h : FitsInt cur (.data f :: is)) (hpos : f.payload ≠ [])
    (hmax : cur + (payload (.data f :: is)).length < maxSize.toNat) :
    ¬ Stops maxSize cur f.payload.length := by
  have hlen := h.1 f List.mem_cons_self
  have htotal := h.2
  have hposn := List.length_pos_iff.mpr hpos
  rw [payload, List.length_append] at hmax htotal
  simp only [Stops, not_or]
  omega

/-- When the first frame is taken in and the message does not fit, it is one of
the later frames that does not. -/
theorem FitsInt.not_tail {cur : Nat} {f : Frame} {is : List Item}
    (h : ¬ FitsInt cur (.data f :: is)) (hgo : ¬ Stops maxSize cur f.payload.length) :
    ¬ FitsInt (cur + f.payload.length) is := by
  intro htail
  simp only [Stops, not_or] at hgo
  apply h
  constructor
  · intro g hg
    rcases List.mem_cons.mp hg with hg | hg
    · rw [Item.data.inj hg]
      omega
    · exact htail.1 g hg
  · have htotal := htail.2
    rw [payload, List.length_append]
    omega

/-- The loop reassembles a message.  The induction is over the frames; `data`
is what came before, and `opcode` the value of the variable so far. -/
theorem recvLoop_message {op : Nat} {is : List Item} (hmsg : IsMessage op is)
    (hop : IsDataOpcode op) {opcode result : Int}
    (hopcode : (if opcode = 0 ∧ op ≠ WSFrameHead.CONTINUE then (op : Int) else opcode) = result)
    (data : List UInt8) {fuel : Nat} {s : SocketStream} (hfuel : is.length ≤ fuel)
    (hs : Ahead s (wire is ++ rest)) (hsends : s.SendsSucceed)
    (hmax : data.length + (payload is).length < maxSize.toNat) (hfits : FitsInt data.length is) :
    ∃ s', recvLoop true maxSize fuel (.after opcode data) s =
        (.message ⟨result, data ++ payload is⟩, s') ∧
      Ahead s' rest ∧ s'.sent = s.sent ++ pongs is ∧
      s'.consumed = s.consumed + (wire is).length := by
  induction hmsg generalizing opcode data fuel s with
  | @last op f hf hfin hmask hpos =>
      cases fuel with
      | zero => simp at hfuel
      | succ fuel =>
          rw [wire, List.append_assoc, Item.frame] at hs
          rcases recvRound_data true opcode hs (hop.isData hf) (fun _ => hmask)
            (hfits.not_stops hpos hmax) with ⟨s', hround, hs', hadv, _⟩
          refine ⟨s', ?_, hs', ?_, ?_⟩
          · rw [hfin, if_pos rfl, keepOpcode, hf, hopcode] at hround
            rw [recvLoop, hround]
            simp [payload]
          · simp [hadv.sent_eq, pongs]
          · simp [hadv.consumed_eq, wire, Item.frame]
  | @more op f is hf hfin hmask hpos hrest ih =>
      cases fuel with
      | zero => simp at hfuel
      | succ fuel =>
          have hgo := hfits.not_stops hpos hmax
          rw [wire, List.append_assoc, Item.frame] at hs
          rcases recvRound_data true opcode hs (hop.isData hf) (fun _ => hmask) hgo with
            ⟨s₁, hround, hs₁, hadv, _⟩
          rw [hfin, if_neg (by decide), keepOpcode, hf, hopcode] at hround
          have hfits₁ : FitsInt (data ++ f.payload).length is := by
            rw [List.length_append]
            exact hfits.tail
          have hmax₁ : (data ++ f.payload).length + (payload is).length < maxSize.toNat := by
            rw [payload, List.length_append] at hmax
            rw [List.length_append]
            omega
          rcases ih (Or.inl rfl) (if_neg (fun h => h.2 rfl)) _ (Nat.le_of_succ_le_succ hfuel) hs₁
            (hadv.sendsSucceed hsends) hmax₁ hfits₁ with ⟨s', hloop, hs', hsent, hcons⟩
          refine ⟨s', ?_, hs', ?_, ?_⟩
          · rw [recvLoop, hround]
            simp only
            rw [hloop, payload, List.append_assoc]
          · rw [hsent, hadv.sent_eq]
            rfl
          · rw [hcons, hadv.consumed_eq, wire, List.length_append, Item.frame]
            omega
  | @ping op is hrest ih =>
      cases fuel with
      | zero => simp at hfuel
      | succ fuel =>
          rw [wire, List.append_assoc] at hs
          rcases recvLoop_ping hs hsends with ⟨s₁, hround, hs₁, hsends₁, hsent₁, hcons₁⟩
          rcases ih hop hopcode data (Nat.le_of_succ_le_succ hfuel) hs₁ hsends₁ hmax
            (FitsInt.ping_iff.mp hfits) with ⟨s', hloop, hs', hsent, hcons⟩
          refine ⟨s', hround.trans hloop, hs', ?_, ?_⟩
          · rw [hsent, hsent₁, pongs, List.append_assoc]
          · rw [hcons, hcons₁, wire, List.length_append, Item.frame, emptyControl_wire_length]
            omega
  | @pong op is hrest ih =>
      cases fuel with
      | zero => simp at hfuel
      | succ fuel =>
          rw [wire, List.append_assoc] at hs
          rcases recvLoop_pong hs with ⟨s₁, hround, hs₁, hadv⟩
          rcases ih hop hopcode data (Nat.le_of_succ_le_succ hfuel) hs₁ (hadv.sendsSucceed hsends)
            hmax (FitsInt.pong_iff.mp hfits) with ⟨s', hloop, hs', hsent, hcons⟩
          refine ⟨s', hround.trans hloop, hs', ?_, ?_⟩
          · rw [hsent, hadv.sent_eq]
            rfl
          · rw [hcons, hadv.consumed_eq, wire, List.length_append, Item.frame,
              emptyControl_wire_length]
            omega

/-- A round that ends the loop returns no message. -/
theorem recvLoop_of_ends {requireMask : Bool} {fuel : Nat} {acc : Acc} {s : SocketStream}
    (h : (recvRound requireMask maxSize acc s).Ends) (msg : WSFrameMessage) :
    (recvLoop requireMask maxSize fuel acc s).1 ≠ .message msg := by
  cases fuel with
  | zero => simp [recvLoop]
  | succ fuel =>
      rw [recvLoop]
      cases hround : recvRound requireMask maxSize acc s with
      | again acc' s' => exact absurd h (by simp [hround, Turn.Ends])
      | leave s' => simp
      | done m s' => exact absurd h (by simp [hround, Turn.Ends])
      | fault s' => simp

/-- A message with a length that does not fit is not returned. -/
theorem recvLoop_no_message {op : Nat} {is : List Item} (hmsg : IsMessage op is)
    (hop : IsDataOpcode op) {opcode : Int} (data : List UInt8) {fuel : Nat} {s : SocketStream}
    (hs : Ahead s (wire is ++ rest)) (hsends : s.SendsSucceed) (hcur : data.length ≤ 2 ^ 31)
    (hfits : ¬ FitsInt data.length is) (msg : WSFrameMessage) :
    (recvLoop true maxSize fuel (.after opcode data) s).1 ≠ .message msg := by
  induction hmsg generalizing opcode data fuel s with
  | @last op f hf hfin hmask hpos =>
      rw [wire, List.append_assoc, Item.frame] at hs
      have hstops : Stops maxSize data.length f.payload.length := by
        by_contra hgo
        apply FitsInt.not_tail hfits hgo
        simp only [Stops, not_or] at hgo
        exact ⟨by simp, by simp only [payload, List.length_nil]; omega⟩
      exact recvLoop_of_ends
        (recvRound_stops true opcode hs (hop.isData hf) hmask hcur hstops).1 msg
  | @more op f is hf hfin hmask hpos hrest ih =>
      rw [wire, List.append_assoc, Item.frame] at hs
      by_cases hstops : Stops maxSize data.length f.payload.length
      · exact recvLoop_of_ends
          (recvRound_stops true opcode hs (hop.isData hf) hmask hcur hstops).1 msg
      · rcases recvRound_data true opcode hs (hop.isData hf) (fun _ => hmask) hstops with
          ⟨s₁, hround, hs₁, hadv, _⟩
        rw [hfin, if_neg (by decide)] at hround
        cases fuel with
        | zero => simp [recvLoop]
        | succ fuel =>
            have hfits₁ := FitsInt.not_tail hfits hstops
            simp only [Stops, not_or] at hstops
            rw [recvLoop, hround]
            rw [← List.length_append] at hfits₁
            exact ih (Or.inl rfl) _ hs₁ (hadv.sendsSucceed hsends)
              (by rw [List.length_append]; omega) hfits₁
  | @ping op is hrest ih =>
      rw [wire, List.append_assoc] at hs
      cases fuel with
      | zero => simp [recvLoop]
      | succ fuel =>
          rcases recvLoop_ping hs hsends with ⟨s₁, hround, hs₁, hsends₁, _, _⟩
          rw [hround]
          exact ih hop data hs₁ hsends₁ hcur (fun h => hfits (FitsInt.ping_iff.mpr h))
  | @pong op is hrest ih =>
      rw [wire, List.append_assoc] at hs
      cases fuel with
      | zero => simp [recvLoop]
      | succ fuel =>
          rcases recvLoop_pong hs with ⟨s₁, hround, hs₁, hadv⟩
          rw [hround]
          exact ih hop data hs₁ (hadv.sendsSucceed hsends) hcur
            (fun h => hfits (FitsInt.pong_iff.mpr h))

end Loop

/-! ## The whole call -/

/-- The bytes of a message are enough rounds for its frames. -/
theorem items_le_pending {s : SocketStream} {is : List Item} {rest : List UInt8}
    (hs : Ahead s (wire is ++ rest)) : is.length ≤ s.pending := by
  have havail := available_length_le s.incoming
  rw [hs.available_eq, List.length_append] at havail
  have hwire := length_le_wire is
  change is.length ≤ pendingBytes s.incoming
  omega

/-- A message with a length that does not fit is not returned by the call. -/
theorem recvMessage_no_message {maxSize : UInt32} {s : SocketStream} {op : Nat} {is : List Item}
    {rest : List UInt8} (hmsg : IsMessage op is) (hop : IsDataOpcode op)
    (hs : Ahead s (wire is ++ rest)) (hsends : s.SendsSucceed) (hfits : ¬ FitsInt 0 is)
    (msg : WSFrameMessage) : (WSSession.recvMessage maxSize s).1 ≠ .message msg :=
  recvLoop_no_message hmsg hop [] hs hsends (Nat.zero_le _) hfits msg

/-- What a receiver owes to a message on the stream: the data and the opcode of
the first frame are returned, exactly the frames are consumed, and exactly one
PONG is sent for each PING. -/
def Reassembles (maxSize : UInt32) (s : SocketStream) (op : Nat) (is : List Item)
    (rest : List UInt8) : Prop :=
  ∃ s', WSSession.recvMessage maxSize s = (.message ⟨op, payload is⟩, s') ∧ Ahead s' rest ∧
    s'.consumed = s.consumed + (wire is).length ∧ s'.sent = s.sent ++ pongs is

/-- `WSSession::recv_message` reassembles a fragmented message, whatever the
cuts of the stream are, exactly when its lengths fit the `int` variables. -/
theorem recvMessage_reassembles_iff {maxSize : UInt32} {s : SocketStream} {op : Nat}
    {is : List Item} {rest : List UInt8}
    (hop : op = WSFrameHead.TEXT_FRAME ∨ op = WSFrameHead.BIN_FRAME) (hmsg : IsMessage op is)
    (hmax : (payload is).length < maxSize.toNat) (hs : Ahead s (wire is ++ rest))
    (hsends : s.SendsSucceed) :
    Reassembles maxSize s op is rest ↔ FitsInt 0 is := by
  have hdata : IsDataOpcode op := Or.inr hop
  constructor
  · intro hgood
    rcases hgood with ⟨s', hrun, _⟩
    by_contra hfits
    exact recvMessage_no_message hmsg hdata hs hsends hfits _ (congrArg Prod.fst hrun)
  · intro hfits
    have hopcode : (if (0 : Int) = 0 ∧ op ≠ WSFrameHead.CONTINUE then (op : Int) else 0) = op := by
      rcases hop with rfl | rfl <;> rfl
    have hfuel : is.length ≤ s.pending + 1 := Nat.le_succ_of_le (items_le_pending hs)
    rcases recvLoop_message hmsg hdata hopcode [] hfuel hs hsends
      (by simpa using hmax) hfits with ⟨s', hrun, hs', hsent, hcons⟩
    exact ⟨s', hrun, hs', hcons, hsent⟩

/-- A masked text frame of `2 ^ 31` zero bytes, with a 64-bit length. -/
def hugeFrame : Frame :=
  ⟨true, WSFrameHead.TEXT_FRAME, some ⟨1, 2, 3, 4⟩, .long, List.replicate (2 ^ 31) 0, by decide,
    by rw [List.length_replicate]; norm_num [LengthForm.Fits]⟩

theorem hugeFrame_length : hugeFrame.payload.length = 2 ^ 31 := List.length_replicate

/-- Items are on the wire. -/
theorem wire_ne_nil {is : List Item} (h : is ≠ []) : wire is ≠ [] := by
  intro hnil
  have hlen := length_le_wire is
  rw [hnil] at hlen
  exact h (List.eq_nil_of_length_eq_zero (Nat.le_zero.mp hlen))

/-- With the largest configurable maximum, a frame of `2 ^ 31` bytes is below
the maximum and is not returned. -/
theorem recvMessage_reassembles_fails :
    IsMessage WSFrameHead.TEXT_FRAME [.data hugeFrame] ∧
      (payload [.data hugeFrame]).length < (0xFFFFFFFF : UInt32).toNat ∧
      Ahead (wholeStream (wire [.data hugeFrame])) (wire [.data hugeFrame] ++ []) ∧
      (wholeStream (wire [.data hugeFrame])).SendsSucceed ∧
      ¬ Reassembles 0xFFFFFFFF (wholeStream (wire [.data hugeFrame])) WSFrameHead.TEXT_FRAME
        [.data hugeFrame] [] := by
  have hlen := hugeFrame_length
  have hmsg : IsMessage WSFrameHead.TEXT_FRAME [.data hugeFrame] :=
    .last rfl rfl rfl (List.ne_nil_of_length_pos (by omega))
  have hs := wholeStream_ahead (wire_ne_nil (List.cons_ne_nil (.data hugeFrame) []))
  have hsends := wholeStream_sendsSucceed (wire [.data hugeFrame])
  refine ⟨hmsg, ?_, hs, hsends, ?_⟩
  · simp only [payload, List.append_nil, hlen]
    decide
  · intro hgood
    rcases hgood with ⟨s', hrun, _⟩
    have hfits : ¬ FitsInt 0 [.data hugeFrame] := by
      intro h
      have hlt := h.1 hugeFrame List.mem_cons_self
      omega
    exact recvMessage_no_message hmsg (Or.inr (Or.inl rfl)) hs hsends hfits _
      (congrArg Prod.fst hrun)

/-- Two fragments of a text message with a PING and a PONG between them. -/
def twoFragments : List Item :=
  [.data ⟨false, WSFrameHead.TEXT_FRAME, some ⟨1, 2, 3, 4⟩, .short, [104, 101], by decide,
      by simp [LengthForm.Fits]⟩,
    .ping, .pong,
    .data ⟨true, WSFrameHead.CONTINUE, some ⟨5, 6, 7, 8⟩, .medium, [108, 108, 111], by decide,
      by simp [LengthForm.Fits]⟩]

/-- The two fragments arrive in three reads and are put together. -/
theorem recvMessage_reassembles_two :
    Reassembles 1024
      ⟨true, [.bytes ((wire twoFragments).take 3), .bytes (((wire twoFragments).drop 3).take 6),
        .bytes ((wire twoFragments).drop 9)], 0, [], []⟩
      WSFrameHead.TEXT_FRAME twoFragments [] := by
  refine (recvMessage_reassembles_iff (Or.inl rfl) ?_ (by decide) ⟨rfl, by decide⟩ ?_).mpr ?_
  · exact .more rfl rfl rfl (by simp) (.ping (.pong (.last rfl rfl rfl (by simp))))
  · intro e he
    exact absurd he List.not_mem_nil
  · constructor
    · intro f hf
      simp only [twoFragments, List.mem_cons, Item.data.injEq, reduceCtorEq, false_or,
        List.not_mem_nil, or_false] at hf
      rcases hf with rfl | rfl <;> simp
    · decide

end WebSocket
end Tiger
