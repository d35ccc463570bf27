import Tiger.WebSocket.Session

/-!
# WebSocket - what one round of the receive loop does

`Frame` is a frame as RFC 6455 puts it on the wire.  The lemmas of this module
say what `recv_message` does when the stream goes on with such a frame: data
frames are taken in whole unless one of the stop conditions holds, and the
frames of every other kind end the round right behind the two bytes of their
head.

Main results:

- Theorem `recvRound_data`: a data frame below the limits is appended.
- Theorem `recvRound_stops`: a masked data frame at a limit ends the loop.
- Theorem `recvRound_control`: control and reserved frames consume two bytes.
- Theorem `recvMessage_ne_outOfFuel`: the receive loop ends.
-/

namespace Tiger
namespace WebSocket

open Lib SocketStream

/-! ## Frames on the wire -/

/-- The three encodings of the payload length. -/
inductive LengthForm
  | short
  | medium
  | long
deriving DecidableEq

namespace LengthForm

/-- The form can express `n`. -/
def Fits : LengthForm → Nat → Prop
  | short, n => n < 126
  | medium, n => n < 2 ^ 16
  | long, n => n < 2 ^ 63

/-- The seven-bit payload field. -/
def field : LengthForm → Nat → Nat
  | short, n => n % 128
  | medium, _ => 126
  | long, _ => 127

/-- The extended length in network order. -/
def ext : LengthForm → Nat → List UInt8
  | short, _ => []
  | medium, n => beBytes 2 n
  | long, n => beBytes 8 n

/-- A length field has seven bits. -/
theorem field_lt (form : LengthForm) (n : Nat) : form.field n < 128 := by
  cases form with
  | short => exact Nat.mod_lt _ (by decide)
  | medium => exact (by decide : 126 < 128)
  | long => exact (by decide : 127 < 128)

theorem Fits.lt {form : LengthForm} {n : Nat} (h : form.Fits n) : n < 2 ^ 63 := by
  cases form <;> simp only [Fits] at h <;> omega

end LengthForm

/-- A frame in RFC 6455 wire form, with reserved bits zero. -/
structure Frame where
  fin : Bool
  opcode : Nat
  mask : Option Mask
  form : LengthForm
  payload : List UInt8
  opcode_lt : opcode < 16
  fits : form.Fits payload.length

namespace Frame

/-- The first two bytes. -/
def head (f : Frame) : WSFrameHead where
  opcode := f.opcode
  rsv3 := false
  rsv2 := false
  rsv1 := false
  fin := f.fin
  payload := f.form.field f.payload.length
  mask := f.mask.isSome
  opcode_lt := f.opcode_lt
  payload_lt := f.form.field_lt _

/-- The masking key, if there is one. -/
def maskBytes (f : Frame) : List UInt8 := (f.mask.map Mask.bytes).getD []

/-- The payload as it is sent. -/
def body (f : Frame) : List UInt8 :=
  match f.mask with
  | some m => maskFrom m 0 f.payload
  | none => f.payload

/-- What follows the head. -/
def tail (f : Frame) : List UInt8 := f.form.ext f.payload.length ++ (f.maskBytes ++ f.body)

/-- The whole frame. -/
def wire (f : Frame) : List UInt8 := f.head.toBytes ++ f.tail

/-- A frame of a message: its opcode is CONTINUE, TEXT_FRAME or BIN_FRAME. -/
def IsData (f : Frame) : Prop :=
  f.opcode = WSFrameHead.CONTINUE ∨ f.opcode = WSFrameHead.TEXT_FRAME ∨
    f.opcode = WSFrameHead.BIN_FRAME

/-- The opcode of a data frame. -/
theorem IsData.head {f : Frame} (h : f.IsData) :
    f.head.opcode = WSFrameHead.CONTINUE ∨ f.head.opcode = WSFrameHead.TEXT_FRAME ∨
      f.head.opcode = WSFrameHead.BIN_FRAME :=
  h

@[simp]
theorem body_length (f : Frame) : f.body.length = f.payload.length := by
  unfold body
  split <;> simp

end Frame

/-! ## The head of a round -/

/-- Reading a head. -/
theorem recvRound_toBytes {s : SocketStream} {h : WSFrameHead} {rest : List UInt8}
    (requireMask : Bool) (maxSize : UInt32) (acc : Acc) (hs : Ahead s (h.toBytes ++ rest)) :
    ∃ s', recvRound requireMask maxSize acc s = recvFrame requireMask maxSize h acc s' ∧
      Ahead s' rest ∧ Advanced s s' 2 ∧ ¬ (s.readFixedSize 2).1 ≤ 0 := by
  rcases readFixedSize_ahead h.toBytes hs (by simp) with ⟨s', hrun, hs', hadv⟩
  rw [WSFrameHead.toBytes_length] at hrun hadv
  rcases h.ofBytes_toBytes with ⟨b0, b1, hbytes, hhead⟩
  have hpos : ¬ toInt32 ((2 : Nat) : Int) ≤ 0 := by decide
  refine ⟨s', ?_, hs', hadv, by rw [hrun]; exact hpos⟩
  unfold recvRound
  simp only [hrun, if_neg hpos, hbytes]
  change recvFrame requireMask maxSize (WSFrameHead.ofBytes b0 b1) acc s' = _
  rw [hhead]

/-- Reading the head of a frame. -/
theorem recvRound_head {s : SocketStream} {f : Frame} {rest : List UInt8}
    (requireMask : Bool) (maxSize : UInt32) (acc : Acc) (hs : Ahead s (f.wire ++ rest)) :
    ∃ s', recvRound requireMask maxSize acc s = recvFrame requireMask maxSize f.head acc s' ∧
      Ahead s' (f.tail ++ rest) ∧ Advanced s s' 2 ∧ ¬ (s.readFixedSize 2).1 ≤ 0 := by
  rw [Frame.wire, List.append_assoc] at hs
  exact recvRound_toBytes requireMask maxSize acc hs

/-! ## Data frames -/

/-- The branch for data frames. -/
theorem recvFrame_data {requireMask : Bool} {maxSize : UInt32} {h : WSFrameHead} {acc : Acc}
    {s : SocketStream}
    (hop : h.opcode = WSFrameHead.CONTINUE ∨ h.opcode = WSFrameHead.TEXT_FRAME ∨
      h.opcode = WSFrameHead.BIN_FRAME) :
    recvFrame requireMask maxSize h acc s =
      if requireMask && !h.mask then .leave s else recvData maxSize h acc s := by
  have hping : h.opcode ≠ WSFrameHead.PING := by
    rcases hop with h | h | h <;> rw [h] <;> decide
  have hpong : h.opcode ≠ WSFrameHead.PONG := by
    rcases hop with h | h | h <;> rw [h] <;> decide
  rw [recvFrame, if_neg hping, if_neg hpong, if_pos hop]

/-- The length field of a frame is read back. -/
theorem recvLength_spec {s : SocketStream} {f : Frame} {rest : List UInt8}
    (hs : Ahead s (f.form.ext f.payload.length ++ rest)) :
    ∃ s', recvLength f.head s = (some f.payload.length, s') ∧ Ahead s' rest ∧
      Advanced s s' (f.form.ext f.payload.length).length := by
  have hfits := f.fits
  unfold recvLength
  cases hform : f.form with
  | short =>
      rw [hform] at hs hfits
      have hlt : f.payload.length < 126 := hfits
      have hfield : f.head.payload = f.payload.length := by
        change f.form.field f.payload.length = _
        rw [hform]
        exact Nat.mod_eq_of_lt (by omega)
      rw [hfield, if_neg (by omega), if_neg (by omega)]
      exact ⟨s, rfl, hs, Advanced.refl s⟩
  | medium =>
      rw [hform] at hs hfits
      have hfield : f.head.payload = 126 := by
        change f.form.field f.payload.length = _
        rw [hform]
        rfl
      rcases readFixedSize_ahead (beBytes 2 f.payload.length) hs (by simp) with
        ⟨s', hrun, hs', hadv⟩
      rw [beBytes_length] at hrun
      have hvalue := beValue_beBytes (n := 2) (v := f.payload.length) hfits
      have hpos : ¬ toInt32 ((2 : Nat) : Int) ≤ 0 := by decide
      refine ⟨s', ?_, hs', hadv⟩
      simp only [if_pos hfield, hrun, if_neg hpos, hvalue]
  | long =>
      rw [hform] at hs hfits
      have hfield : f.head.payload = 127 := by
        change f.form.field f.payload.length = _
        rw [hform]
        rfl
      rcases readFixedSize_ahead (beBytes 8 f.payload.length) hs (by simp) with
        ⟨s', hrun, hs', hadv⟩
      rw [beBytes_length] at hrun
      have hlt : f.payload.length < 256 ^ 8 :=
        (LengthForm.Fits.lt f.fits).trans (by norm_num)
      have hvalue := beValue_beBytes hlt
      have hpos : ¬ toInt32 ((8 : Nat) : Int) ≤ 0 := by decide
      refine ⟨s', ?_, hs', hadv⟩
      simp only [hfield, hrun, if_neg hpos, hvalue]
      rfl

/-- The masking key of a frame is read back. -/
theorem recvMask_spec {s : SocketStream} {f : Frame} {rest : List UInt8}
    (hs : Ahead s (f.maskBytes ++ rest)) :
    ∃ rt s', (if f.head.mask then s.readFixedSize 4 else (1, [], s)) = (rt, f.maskBytes, s') ∧
      ¬ rt ≤ 0 ∧ Ahead s' rest ∧ Advanced s s' f.maskBytes.length := by
  have hhead : f.head.mask = f.mask.isSome := rfl
  cases hmask : f.mask with
  | none =>
      have hnil : f.maskBytes = [] := by simp [Frame.maskBytes, hmask]
      rw [hnil] at hs ⊢
      exact ⟨1, s, by simp [hhead, hmask], by decide, hs, Advanced.refl s⟩
  | some m =>
      have hbytes : f.maskBytes = m.bytes := by simp [Frame.maskBytes, hmask]
      rw [hbytes] at hs ⊢
      rcases readFixedSize_ahead m.bytes hs (by simp) with ⟨s', hrun, hs', hadv⟩
      exact ⟨_, s', by simpa [hhead, hmask] using hrun, by simp [toInt32], hs', hadv⟩

theorem resize_grow (data : List UInt8) (n : Nat) :
    resize data (data.length + n) = data ++ List.replicate n 0 := by
  simp [resize]

/-- Storing behind the old data fills the room that `resize` made. -/
theorem storeAt_grow (data bytes : List UInt8) :
    storeAt (data ++ List.replicate bytes.length 0) data.length bytes =
      some (data ++ bytes) := by
  unfold storeAt
  by_cases hnil : bytes = []
  · simp [hnil]
  · rw [if_neg hnil, if_pos (by simp)]
    simp

/-- Unmasking the new bytes recovers the payload. -/
theorem unmask_grow {m : Mask} {data payload : List UInt8}
    (hbound : data.length + payload.length ≤ 2 ^ 31) :
    unmask m (data ++ maskFrom m 0 payload) data.length payload.length =
      some (data ++ payload) := by
  unfold unmask
  by_cases hzero : payload.length = 0
  · have hnil := List.length_eq_zero_iff.mp hzero
    simp [hnil, maskFrom]
  · have hlen : ((data ++ maskFrom m 0 payload).length : Int) =
        (data.length : Int) + (payload.length : Int) := by
      simp
    rw [if_neg (by omega), if_neg (by rw [hlen]; omega)]
    simp only [Int.toNat_natCast, List.take_left, List.drop_left, Option.some.injEq]
    have hall : List.drop (data.length + payload.length) (data ++ maskFrom m 0 payload) = [] :=
      List.drop_eq_nil_of_le (by simp)
    rw [hall, List.append_nil, List.take_of_length_le (by simp), maskFrom_maskFrom]

/-- The opcode that the loop keeps after a data frame. -/
def keepOpcode (opcode : Int) (f : Frame) : Int :=
  if opcode = 0 ∧ f.opcode ≠ WSFrameHead.CONTINUE then f.opcode else opcode

/-- A data frame below all limits is appended to the data. -/
theorem recvData_spec {s : SocketStream} {f : Frame} {rest data : List UInt8} {maxSize : UInt32}
    (opcode : Int) (hs : Ahead s (f.tail ++ rest)) (hpos : f.payload ≠ [])
    (hlen : f.payload.length < 2 ^ 31) (hmax : data.length + f.payload.length < maxSize.toNat)
    (hint : data.length + f.payload.length ≤ 2 ^ 31) :
    ∃ s', recvData maxSize f.head ⟨opcode, data, data.length⟩ s =
        (if f.fin then .done ⟨keepOpcode opcode f, data ++ f.payload⟩ s'
          else .again ⟨keepOpcode opcode f, data ++ f.payload,
            toInt32 ((data.length + f.payload.length : Nat) : Int)⟩ s') ∧
      Ahead s' rest ∧ Advanced s s' f.tail.length := by
  have hpos' : 0 < f.payload.length := List.length_pos_iff.mpr hpos
  rw [Frame.tail, List.append_assoc] at hs
  rcases recvLength_spec hs with ⟨s₁, hlength, hs₁, hadv₁⟩
  rw [List.append_assoc] at hs₁
  rcases recvMask_spec hs₁ with ⟨rt, s₂, hmask, hrt, hs₂, hadv₂⟩
  rcases readFixedSize_ahead f.body hs₂ (by rw [Frame.body_length]; omega) with
    ⟨s₃, hbody, hs₃, hadv₃⟩
  rw [Frame.body_length, toInt32_of_lt hlen] at hbody
  refine ⟨s₃, ?_, hs₃, ?_⟩
  · have htotal : (toSizeT (data.length : Int) + f.payload.length) % 2 ^ 64 =
        data.length + f.payload.length := by
      rw [toSizeT_of_nonneg (by omega), Nat.mod_eq_of_lt (by omega)]
    have hstore : storeAt (resize data (data.length + f.payload.length))
        (toSizeT (data.length : Int)) f.body = some (data ++ f.body) := by
      rw [toSizeT_of_nonneg (by omega), resize_grow, ← Frame.body_length, storeAt_grow]
    have hunmask : (if f.head.mask then unmask (Mask.ofBytes f.maskBytes) (data ++ f.body)
        data.length (toInt32 f.payload.length) else some (data ++ f.body)) =
        some (data ++ f.payload) := by
      have hhead : f.head.mask = f.mask.isSome := rfl
      rw [toInt32_of_lt hlen, hhead]
      cases hm : f.mask with
      | none => simp [Frame.body, hm]
      | some m =>
          have hkey : Mask.ofBytes f.maskBytes = m := by simp [Frame.maskBytes, hm]
          rw [hkey]
          simpa [Frame.body, hm] using unmask_grow hint
    have hgood : ¬ ((f.payload.length : Nat) : Int) ≤ 0 := by omega
    unfold recvData
    simp only [hlength, htotal, if_neg (Nat.not_le.mpr hmax), hmask, if_neg hrt, hbody, hstore,
      if_neg hgood, hunmask]
    have hsum : (data.length : Int) + (f.payload.length : Int) =
        ((data.length + f.payload.length : Nat) : Int) := by
      push_cast
      rfl
    rw [hsum]
    rfl
  · have h := hadv₁.trans (hadv₂.trans hadv₃)
    have hlen : f.tail.length = (f.form.ext f.payload.length).length +
        (f.maskBytes.length + f.body.length) := by
      simp [Frame.tail]
    rwa [hlen]

/-- After `cur` bytes of data, a masked data frame of `len` bytes ends the loop:
it is empty, reaches the configured maximum, or does not fit an `int`. -/
def Stops (maxSize : UInt32) (cur len : Nat) : Prop :=
  len = 0 ∨ maxSize.toNat ≤ cur + len ∨ 2 ^ 31 ≤ len ∨ 2 ^ 31 < cur + len

instance (maxSize : UInt32) (cur len : Nat) : Decidable (Stops maxSize cur len) :=
  inferInstanceAs (Decidable (_ ∨ _ ∨ _ ∨ _))

/-- The variables once `data` was taken in. -/
def Acc.after (opcode : Int) (data : List UInt8) : Acc := ⟨opcode, data, toInt32 data.length⟩

theorem Acc.init_eq : Acc.init = Acc.after 0 [] := rfl

/-- A data frame that the session accepts, from the head on. -/
theorem recvRound_data {s : SocketStream} {f : Frame} {rest data : List UInt8} {maxSize : UInt32}
    (requireMask : Bool) (opcode : Int) (hs : Ahead s (f.wire ++ rest)) (hdata : f.IsData)
    (hmask : requireMask = true → f.mask.isSome = true)
    (hgo : ¬ Stops maxSize data.length f.payload.length) :
    ∃ s', recvRound requireMask maxSize (.after opcode data) s =
        (if f.fin then .done ⟨keepOpcode opcode f, data ++ f.payload⟩ s'
          else .again (.after (keepOpcode opcode f) (data ++ f.payload)) s') ∧
      Ahead s' rest ∧ Advanced s s' f.wire.length ∧ ¬ (s.readFixedSize 2).1 ≤ 0 := by
  simp only [Stops, not_or] at hgo
  have hpos : f.payload ≠ [] := List.ne_nil_of_length_pos (by omega)
  have hacc : Acc.after opcode data = ⟨opcode, data, data.length⟩ := by
    rw [Acc.after, toInt32_of_lt (by omega)]
  rcases recvRound_head requireMask maxSize ⟨opcode, data, data.length⟩ hs with
    ⟨s₁, hround, hs₁, hadv₁, hread⟩
  have hmax : data.length + f.payload.length < maxSize.toNat := by omega
  rcases recvData_spec opcode hs₁ hpos (by omega) hmax (by omega) with ⟨s₂, hrun, hs₂, hadv₂⟩
  rw [hacc, Acc.after, List.length_append]
  refine ⟨s₂, ?_, hs₂, ?_, hread⟩
  · have haccept : (requireMask && !f.head.mask) = false := by
      cases requireMask with
      | false => rfl
      | true => simpa [Frame.head] using hmask rfl
    rw [hround, ← hrun, recvFrame_data hdata.head, haccept]
    rfl
  · have h := hadv₁.trans hadv₂
    have hlen : f.wire.length = 2 + f.tail.length := by
      simp [Frame.wire]
    rwa [hlen]

/-! ## Limits -/

/-- The round is the last one of its call and returns no message. -/
def Turn.Ends : Turn → Prop
  | .again _ _ => False
  | .leave _ => True
  | .done _ _ => False
  | .fault _ => True

/-- Past the size check, a stop condition shows in the result of the payload
read or in the `int` index of the unmasking loop. -/
private theorem unmask_stops (m : Mask) {maxSize : UInt32} {cur len : Nat}
    (hcur : cur ≤ 2 ^ 31) (hlen : len < 2 ^ 63) (hstops : Stops maxSize cur len)
    (htotal : ¬ (toSizeT (toInt32 cur) + len) % 2 ^ 64 ≥ maxSize.toNat)
    (hread : ¬ toInt32 len ≤ 0) (data : List UInt8) :
    unmask m data (toInt32 cur) (toInt32 len) = none := by
  have hmax := maxSize.toNat_lt
  unfold unmask
  rw [if_neg hread, if_pos]
  rcases Nat.lt_or_eq_of_le hcur with hlt | heq
  · -- `cur_len` is still a non-negative `int`, so the sum is exact
    rw [toInt32_of_lt hlt, toSizeT_of_nonneg (by omega), Nat.mod_eq_of_lt (by omega)] at htotal
    have hsmall : len < 2 ^ 31 := by
      by_contra hbig
      rw [toInt32_neg (by omega) (by omega)] at hread
      omega
    rw [toInt32_of_lt hsmall] at hread ⊢
    rw [toInt32_of_lt hlt]
    rcases hstops with h | h | h | h
    · omega
    · omega
    · omega
    · exact Or.inr (Or.inl (by omega))
  · rw [heq, toInt32_neg le_rfl (by norm_num)]
    exact Or.inl (by norm_num)

/-- A payload that stops the receiver ends the message. -/
theorem recvData_stops {s : SocketStream} {f : Frame} {rest data : List UInt8}
    {maxSize : UInt32} (opcode : Int) (hs : Ahead s (f.tail ++ rest))
    (hmasked : f.mask.isSome = true) (hcur : data.length ≤ 2 ^ 31)
    (hstops : Stops maxSize data.length f.payload.length) :
    (recvData maxSize f.head (.after opcode data) s).Ends := by
  have hlen : f.payload.length < 2 ^ 63 := LengthForm.Fits.lt f.fits
  rw [Frame.tail, List.append_assoc] at hs
  rcases recvLength_spec hs with ⟨s₁, hlength, hs₁, _⟩
  rw [List.append_assoc] at hs₁
  rcases recvMask_spec hs₁ with ⟨rt, s₂, hmask, hrt, hs₂, _⟩
  rcases readFixedSize_ahead f.body hs₂ (by rw [Frame.body_length]; exact hlen) with
    ⟨s₃, hbody, _, _⟩
  rw [Frame.body_length] at hbody
  unfold recvData Acc.after
  simp only [hlength]
  by_cases htotal : (toSizeT (toInt32 data.length) + f.payload.length) % 2 ^ 64 ≥ maxSize.toNat
  · rw [if_pos htotal]
    trivial
  · simp only [if_neg htotal, hmask, if_neg hrt, hbody]
    have hhead : f.head.mask = true := hmasked
    have hunmask := unmask_stops (Mask.ofBytes f.maskBytes) hcur hlen hstops htotal
    generalize toInt32 (f.payload.length : Int) = rt at hunmask
    split
    next => trivial
    next stored _ =>
      by_cases hread : rt ≤ 0
      · rw [if_pos hread]
        trivial
      · rw [if_neg hread, if_pos hhead, hunmask hread]
        trivial

/-- A masked data frame at a limit ends the loop. -/
theorem recvRound_stops {s : SocketStream} {f : Frame} {rest data : List UInt8}
    {maxSize : UInt32} (requireMask : Bool) (opcode : Int) (hs : Ahead s (f.wire ++ rest))
    (hdata : f.IsData) (hmasked : f.mask.isSome = true) (hcur : data.length ≤ 2 ^ 31)
    (hstops : Stops maxSize data.length f.payload.length) :
    (recvRound requireMask maxSize (.after opcode data) s).Ends ∧
      ¬ (s.readFixedSize 2).1 ≤ 0 := by
  rcases recvRound_head requireMask maxSize (.after opcode data) hs with
    ⟨s₁, hround, hs₁, _, hread⟩
  refine ⟨?_, hread⟩
  have hrun := recvData_stops opcode hs₁ hmasked hcur hstops
  have haccept : (requireMask && !f.head.mask) = false := by
    have hhead : f.head.mask = true := hmasked
    rw [hhead, Bool.not_true, Bool.and_false]
  rw [hround, recvFrame_data hdata.head, haccept]
  exact hrun

/-! ## Other frames -/

/-- A PING frame: two bytes are read and a PONG is written. -/
theorem recvRound_ping {s : SocketStream} {f : Frame} {rest : List UInt8}
    (requireMask : Bool) (maxSize : UInt32) (acc : Acc) (hs : Ahead s (f.wire ++ rest))
    (hop : f.opcode = WSFrameHead.PING) :
    ∃ s', recvRound requireMask maxSize acc s =
        (if (pong s').1 ≤ 0 then .leave (pong s').2 else .again acc (pong s').2) ∧
      Ahead s' (f.tail ++ rest) ∧ Advanced s s' 2 ∧ ¬ (s.readFixedSize 2).1 ≤ 0 := by
  rcases recvRound_head requireMask maxSize acc hs with ⟨s', hround, hs', hadv, hread⟩
  refine ⟨s', ?_, hs', hadv, hread⟩
  have hhead : f.head.opcode = WSFrameHead.PING := hop
  rw [hround, recvFrame, if_pos hhead]

/-- PONG frames and frames of a reserved opcode: two bytes are read. -/
theorem recvRound_skip {s : SocketStream} {f : Frame} {rest : List UInt8}
    (requireMask : Bool) (maxSize : UInt32) (acc : Acc) (hs : Ahead s (f.wire ++ rest))
    (hdata : ¬ f.IsData) (hping : f.opcode ≠ WSFrameHead.PING)
    (hclose : f.opcode ≠ WSFrameHead.CLOSE) :
    ∃ s', recvRound requireMask maxSize acc s = .again acc s' ∧
      Ahead s' (f.tail ++ rest) ∧ Advanced s s' 2 ∧ ¬ (s.readFixedSize 2).1 ≤ 0 := by
  rcases recvRound_head requireMask maxSize acc hs with ⟨s', hround, hs', hadv, hread⟩
  refine ⟨s', ?_, hs', hadv, hread⟩
  have hhead : f.head.opcode = f.opcode := rfl
  rw [hround]
  unfold recvFrame
  rw [hhead, if_neg hping]
  by_cases hpong : f.opcode = WSFrameHead.PONG
  · rw [if_pos hpong]
  · have hnot : ¬ (f.opcode = WSFrameHead.CONTINUE ∨ f.opcode = WSFrameHead.TEXT_FRAME ∨
        f.opcode = WSFrameHead.BIN_FRAME) := hdata
    rw [if_neg hpong, if_neg hnot, if_neg hclose]

/-- A CLOSE frame ends the loop. -/
theorem recvRound_close {s : SocketStream} {f : Frame} {rest : List UInt8}
    (requireMask : Bool) (maxSize : UInt32) (acc : Acc) (hs : Ahead s (f.wire ++ rest))
    (hop : f.opcode = WSFrameHead.CLOSE) :
    (recvRound requireMask maxSize acc s).Ends ∧ ¬ (s.readFixedSize 2).1 ≤ 0 := by
  rcases recvRound_head requireMask maxSize acc hs with ⟨s', hround, _, _, hread⟩
  refine ⟨?_, hread⟩
  have hhead : f.head.opcode = WSFrameHead.CLOSE := hop
  rw [hround, recvFrame, hhead, if_neg (by decide), if_neg (by decide), if_neg (by decide),
    if_pos rfl]
  trivial

/-- A PONG goes out while sends succeed. -/
theorem pong_spec {s : SocketStream} (hconn : s.connected = true) (hsends : s.SendsSucceed) :
    ∃ sends, pong s = (2, { s with sends := sends, sent := s.sent ++ [0x8A, 0x00] }) ∧
      ∀ e ∈ sends, ∃ n, e = .accept n := by
  rcases writeFixedSize_spec hconn hsends
    (controlHead WSFrameHead.PONG WSFrameHead.PONG_lt).toBytes with ⟨sends, hrun, hgood⟩
  refine ⟨sends, ?_, hgood⟩
  unfold pong
  rw [hrun]
  rfl

/-! ## Termination -/

/-- A pong reads nothing. -/
theorem pong_pending (s : SocketStream) : (pong s).2.pending = s.pending := by
  have hin : (pong s).2.incoming = s.incoming := by
    unfold pong
    simp only
    split
    · exact (writeFixedSize_sameReader s _).incoming_eq
    · exact (writeFixedSize_sameReader s _).incoming_eq
  simp only [pending, hin]

/-- Reading a length puts nothing into the script. -/
private theorem recvLength_pending_le (head : WSFrameHead) (s : SocketStream) :
    (recvLength head s).2.pending ≤ s.pending := by
  unfold recvLength
  simp only
  split_ifs
  · exact readFixedSize_pending_le s 2
  · exact readFixedSize_pending_le s 2
  · exact readFixedSize_pending_le s 8
  · exact readFixedSize_pending_le s 8
  · exact le_rfl

/-- The stream when the round ends. -/
def Turn.stream : Turn → SocketStream
  | .again _ s => s
  | .leave s => s
  | .done _ s => s
  | .fault s => s

/-- Reading data puts nothing into the script. -/
private theorem recvData_pending_le (maxSize : UInt32) (head : WSFrameHead) (acc : Acc)
    (s : SocketStream) : (recvData maxSize head acc s).stream.pending ≤ s.pending := by
  have hlength := recvLength_pending_le head s
  unfold recvData
  rcases hrun : recvLength head s with ⟨o, s₁⟩
  rw [hrun] at hlength
  cases o with
  | none => exact hlength
  | some length =>
      have hmask : (if head.mask then s₁.readFixedSize 4 else (1, [], s₁)).2.2.pending ≤
          s₁.pending := by
        split
        · exact readFixedSize_pending_le s₁ 4
        · exact le_rfl
      simp only
      generalize (if head.mask then s₁.readFixedSize 4 else (1, [], s₁)) = rm at hmask
      have hbody := readFixedSize_pending_le rm.2.2 length
      generalize rm.2.2.readFixedSize length = r at hbody
      have hall : r.2.2.pending ≤ s.pending := (hbody.trans hmask).trans hlength
      split
      · exact hlength
      · split
        · exact hmask.trans hlength
        · split
          · exact hall
          · split
            · exact hall
            · generalize (if head.mask = true then unmask (Mask.ofBytes rm.2.1) _ acc.curLen
                (toInt32 length) else some _) = o
              cases o with
              | none => exact hall
              | some data =>
                  simp only
                  split
                  · exact hall
                  · exact hall

/-- Reading a frame puts nothing into the script. -/
theorem recvFrame_pending_le (requireMask : Bool) (maxSize : UInt32)
    (head : WSFrameHead) (acc : Acc) (s : SocketStream) :
    (recvFrame requireMask maxSize head acc s).stream.pending ≤ s.pending := by
  have hpong := (pong_pending s).le
  unfold recvFrame
  simp only
  split_ifs
  · exact hpong
  · exact hpong
  · exact le_rfl
  · exact le_rfl
  · exact recvData_pending_le maxSize head acc s
  · exact le_rfl
  · exact le_rfl

/-- A round that goes on has used up bytes of the stream. -/
theorem recvRound_again_pending {requireMask : Bool} {maxSize : UInt32} {acc acc' : Acc}
    {s s' : SocketStream} (h : recvRound requireMask maxSize acc s = .again acc' s') :
    s'.pending < s.pending := by
  unfold recvRound at h
  simp only at h
  split_ifs at h with hread
  have hframe := recvFrame_pending_le requireMask maxSize
    (WSFrameHead.ofBytes ((s.readFixedSize 2).2.1.getD 0 0) ((s.readFixedSize 2).2.1.getD 1 0))
    acc (s.readFixedSize 2).2.2
  rw [h] at hframe
  exact hframe.trans_lt (readFixedSize_pending_lt (by decide) (by decide) hread)

/-- The pending bytes are enough rounds. -/
theorem recvLoop_ne_outOfFuel {requireMask : Bool} {maxSize : UInt32} {fuel : Nat} {acc : Acc}
    {s : SocketStream} (hfuel : s.pending < fuel) :
    (recvLoop requireMask maxSize fuel acc s).1 ≠ .outOfFuel := by
  induction fuel generalizing acc s with
  | zero => omega
  | succ fuel ih =>
      rw [recvLoop]
      cases hround : recvRound requireMask maxSize acc s with
      | again acc' s' =>
          have hless := recvRound_again_pending hround
          exact ih (by omega)
      | leave s' => simp
      | done msg s' => simp
      | fault s' => simp

/-- `recv_message` comes to an end on every stream. -/
theorem recvMessage_ne_outOfFuel (requireMask : Bool) (maxSize : UInt32) (s : SocketStream) :
    (recvMessage requireMask maxSize s).1 ≠ .outOfFuel :=
  recvLoop_ne_outOfFuel (Nat.lt_succ_self _)

end WebSocket
end Tiger
