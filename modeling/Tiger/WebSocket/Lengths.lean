import Tiger.Streams.Arrival
import Tiger.WebSocket.Rounds

/-!
# WebSocket - announced lengths

`recv_message` adds an `int` and a `uint64_t`, compares the sum with the maximum, and uses it to
resize, to read and to unmask (`src/servers/http/ws_session.cc`,
`src/servers/http/ws_connection.cc`).  A length near `2 ^ 64` makes the sum wrap and passes the
comparison; the data then shrinks, and the read of so many bytes makes no round and returns a
negative `int`, so that the message is given up.

The invariant of the loop is that `cur_len` is the size of the data, which is the sum of the
lengths that were announced.

Main results:

- Theorem `recvData_keeps`: what one data frame does, whatever length it announces.
- Theorem `Rounds.sound`: the invariant in every state of a run.
- Theorem `recvMessage_lengths`: writes stay inside the data, the data below the maximum, and a
  message has the size that was announced.
-/

namespace Tiger
namespace WebSocket

open Lib SocketStream

/-! ## Conversions -/

/-- A length that makes the sum with a `cur_len` wrap is negative as an `int`. -/
theorem toInt32_of_wrap {n : Nat} (hlow : 2 ^ 64 - 2 ^ 31 ≤ n) (hhigh : n < 2 ^ 64) :
    toInt32 n < 0 := by
  unfold toInt32
  rw [Int.bmod_def]
  have hmod : (n : Int) % ((2 ^ 32 : Nat) : Int) = n - (2 ^ 64 - 2 ^ 32) := by omega
  rw [hmod, if_neg (by omega)]
  omega

theorem bswapOnLittleEndian_lt (n t : Nat) : bswapOnLittleEndian n t < 256 ^ n := by
  have h := ofLeBytes_lt (leBytes n t).reverse
  rwa [List.length_reverse, leBytes_length] at h

/-- An announced length is a `uint64_t`. -/
theorem recvLength_lt {head : WSFrameHead} {s s' : SocketStream} {n : Nat}
    (h : recvLength head s = (some n, s')) : n < 2 ^ 64 := by
  have hpayload := head.payload_lt
  rw [recvLength] at h
  split at h
  · have hlt := bswapOnLittleEndian_lt 2 (ofLeBytes (s.readFixedSize 2).2.1)
    simp only at h
    split at h
    · simp at h
    · rw [Prod.mk.injEq, Option.some.injEq] at h
      rw [← h.1]
      exact hlt.trans (by norm_num)
  · split at h
    · have hlt := bswapOnLittleEndian_lt 8 (ofLeBytes (s.readFixedSize 8).2.1)
      simp only at h
      split at h
      · simp at h
      · rw [Prod.mk.injEq, Option.some.injEq] at h
        rw [← h.1]
        exact hlt.trans_eq (by norm_num)
    · rw [Prod.mk.injEq, Option.some.injEq] at h
      omega

/-! ## The data -/

@[simp]
theorem resize_length (data : List UInt8) (n : Nat) : (resize data n).length = n := by
  rw [resize, List.length_append, List.length_take, List.length_replicate]
  omega

/-- Bytes that fit are stored, and the size stays. -/
theorem storeAt_of_le {data bytes : List UInt8} {off : Nat}
    (h : off + bytes.length ≤ data.length) :
    ∃ data', storeAt data off bytes = some data' ∧ data'.length = data.length := by
  rw [storeAt]
  by_cases hnil : bytes = []
  · rw [if_pos hnil]
    exact ⟨data, rfl, rfl⟩
  · rw [if_neg hnil, if_pos h]
    refine ⟨_, rfl, ?_⟩
    simp only [List.length_append, List.length_take, List.length_drop]
    omega

/-- Unmasking the end of the data keeps the size. -/
theorem unmask_of_le (m : Mask) {data : List UInt8} {cur n : Nat}
    (h : cur + n = data.length) (hint : data.length ≤ 2 ^ 31) :
    ∃ data', unmask m data cur n = some data' ∧ data'.length = data.length := by
  rw [unmask]
  split
  · exact ⟨data, rfl, rfl⟩
  · refine ⟨_, if_neg (by omega), ?_⟩
    simp only [List.length_append, List.length_take, List.length_drop, maskFrom_length,
      Int.toNat_natCast]
    omega

/-! ## One data frame -/

/-- What a data frame does to the data: the size it gives to it, and the bytes that it stores
from an offset on. -/
structure Touch where
  size : Nat
  offset : Nat
  stored : List UInt8

/-- The touch of a data frame behind its head; there is none if the frame ends the loop before
`data.resize`. -/
def payloadTouch (maxSize : UInt32) (head : WSFrameHead) (acc : Acc) (s : SocketStream) :
    Option Touch :=
  match recvLength head s with
  | (none, _) => none
  | (some length, s) =>
      let total := (toSizeT acc.curLen + length) % 2 ^ 64
      if total ≥ maxSize.toNat then none
      else
        let rm := if head.mask then s.readFixedSize 4 else (1, [], s)
        if rm.1 ≤ 0 then none
        else some ⟨total, toSizeT acc.curLen, (rm.2.2.readFixedSize length).2.1⟩

/-- The touch keeps below the maximum and inside the data. -/
def Touch.Safe (maxSize : UInt32) (t : Touch) : Prop :=
  t.size < maxSize.toNat ∧ (t.stored ≠ [] → t.offset + t.stored.length ≤ t.size)

/-- The state of the loop once frames announced `sum` bytes of data. -/
structure Acc.Holds (maxSize : UInt32) (acc : Acc) (lengths : List Nat) : Prop where
  size : acc.data.length = lengths.sum
  curLen : acc.curLen = lengths.sum
  below : lengths ≠ [] → lengths.sum < maxSize.toNat

/-- At first there is no frame. -/
theorem Acc.Holds.init (maxSize : UInt32) : Acc.init.Holds maxSize [] where
  size := rfl
  curLen := rfl
  below h := absurd rfl h

/-- The lengths add up to an `int`. -/
theorem Acc.Holds.lt {maxSize : UInt32} {acc : Acc} {lengths : List Nat}
    (h : acc.Holds maxSize lengths) (hmax : maxSize.toNat < 2 ^ 31) : lengths.sum < 2 ^ 31 := by
  by_cases hnil : lengths = []
  · rw [hnil]
    decide
  · exact (h.below hnil).trans hmax

/-- What a data frame does, whatever length it announces: it ends the loop without a message, or
its payload is appended.  All its bytes are stored inside the data. -/
theorem recvData_keeps {maxSize : UInt32} (hmax : maxSize.toNat < 2 ^ 31) (head : WSFrameHead)
    {acc : Acc} {lengths : List Nat} (h : acc.Holds maxSize lengths) (s : SocketStream) :
    (∀ t ∈ payloadTouch maxSize head acc s, t.Safe maxSize) ∧
      ((∃ s', recvData maxSize head acc s = .leave s') ∨
        ∃ length opcode data s', (recvLength head s).1 = some length ∧
          (Acc.mk opcode data data.length).Holds maxSize (lengths ++ [length]) ∧
          recvData maxSize head acc s =
            if head.fin then .done ⟨opcode, data⟩ s'
              else .again ⟨opcode, data, data.length⟩ s') := by
  have hsum := h.lt hmax
  have hcur : toSizeT acc.curLen = lengths.sum := by
    rw [h.curLen, toSizeT_of_nonneg (by omega)]
  rw [payloadTouch, recvData]
  rcases hlength : recvLength head s with ⟨_ | length, s₁⟩
  · exact ⟨by simp, Or.inl ⟨s₁, rfl⟩⟩
  · have hlt := recvLength_lt hlength
    simp only [hcur]
    by_cases htotal : (lengths.sum + length) % 2 ^ 64 ≥ maxSize.toNat
    · rw [if_pos htotal, if_pos htotal]
      exact ⟨by simp, Or.inl ⟨s₁, rfl⟩⟩
    · rw [if_neg htotal, if_neg htotal]
      generalize (if head.mask then s₁.readFixedSize 4 else (1, [], s₁)) = rm
      by_cases hmask : rm.1 ≤ 0
      · rw [if_pos hmask, if_pos hmask]
        exact ⟨by simp, Or.inl ⟨_, rfl⟩⟩
      · rw [if_neg hmask, if_neg hmask]
        by_cases hwrap : lengths.sum + length < 2 ^ 64
        · -- the sum is exact, so that the length is below the maximum too
          rw [Nat.mod_eq_of_lt hwrap] at htotal ⊢
          have hsmall : length < 2 ^ 31 := by omega
          obtain ⟨hle, hall⟩ := readFixedSize_stored rm.2.2 (by omega : length < 2 ^ 63)
          have hint : toInt32 length = length := toInt32_of_lt hsmall
          have hroom : lengths.sum + (rm.2.2.readFixedSize length).2.1.length ≤
              (resize acc.data (lengths.sum + length)).length := by
            rw [resize_length]
            omega
          obtain ⟨stored, hstore, hstored⟩ := storeAt_of_le hroom
          rw [resize_length] at hstored
          constructor
          · intro t ht
            rw [Option.mem_some] at ht
            subst ht
            exact ⟨by simp only; omega, fun _ => by simp only; omega⟩
          · rw [hstore]
            simp only
            by_cases hread : (rm.2.2.readFixedSize length).1 ≤ 0
            · rw [if_pos hread]
              exact Or.inl ⟨_, rfl⟩
            · rw [if_neg hread]
              obtain ⟨data, hdata, hsize⟩ : ∃ data, (if head.mask then
                  unmask (Mask.ofBytes rm.2.1) stored acc.curLen (toInt32 length)
                else some stored) = some data ∧ data.length = lengths.sum + length := by
                split
                · obtain ⟨data, hdata, hsize⟩ := unmask_of_le (Mask.ofBytes rm.2.1)
                    hstored.symm (by omega)
                  rw [h.curLen, hint]
                  exact ⟨data, hdata, hsize.trans hstored⟩
                · exact ⟨stored, rfl, hstored⟩
              rw [hdata]
              right
              have hcurLen : toInt32 (acc.curLen + length) = data.length := by
                rw [h.curLen, hsize, ← Int.natCast_add]
                exact toInt32_of_lt (by omega)
              rw [hcurLen]
              refine ⟨length, _, data, _, rfl, ⟨?_, ?_, ?_⟩, rfl⟩
              · rw [List.sum_append, List.sum_singleton]
                exact hsize
              · rw [List.sum_append, List.sum_singleton]
                exact congrArg _ hsize
              · intro _
                rw [List.sum_append, List.sum_singleton]
                omega
        · -- the read of so many bytes makes no round and is negative
          have hbig : ¬length < 2 ^ 63 := by omega
          have hneg := toInt32_of_wrap (n := length) (by omega) hlt
          rw [readFixedSize, if_neg hbig]
          constructor
          · intro t ht
            rw [Option.mem_some] at ht
            subst ht
            exact ⟨by simp only; omega, fun hne => absurd rfl hne⟩
          · rw [storeAt, if_pos rfl]
            simp only
            rw [if_pos hneg.le]
            exact Or.inl ⟨_, rfl⟩

/-! ## Runs -/

/-- A head of a data frame. -/
def WSFrameHead.IsData (head : WSFrameHead) : Prop :=
  head.opcode = CONTINUE ∨ head.opcode = TEXT_FRAME ∨ head.opcode = BIN_FRAME

instance (head : WSFrameHead) : Decidable head.IsData :=
  inferInstanceAs (Decidable (_ ∨ _ ∨ _))

/-- The head of the frame that the stream goes on with, and the stream behind it. -/
def headOf (s : SocketStream) : WSFrameHead × SocketStream :=
  let r := s.readFixedSize 2
  (WSFrameHead.ofBytes (r.2.1.getD 0 0) (r.2.1.getD 1 0), r.2.2)

/-- The length that this frame announces, if it is a data frame. -/
def announced (s : SocketStream) : List Nat :=
  let r := headOf s
  if r.1.IsData then (recvLength r.1 r.2).1.toList else []

/-- The rounds of `recv_message` on a stream: the lengths that the data frames announced, the
variables and the stream. -/
inductive Rounds (requireMask : Bool) (maxSize : UInt32) (s₀ : SocketStream) :
    List Nat → Acc → SocketStream → Prop
  | start : Rounds requireMask maxSize s₀ [] Acc.init s₀
  | round {lengths : List Nat} {acc acc' : Acc} {s s' : SocketStream}
      (h : Rounds requireMask maxSize s₀ lengths acc s)
      (hround : recvRound requireMask maxSize acc s = .again acc' s') :
      Rounds requireMask maxSize s₀ (lengths ++ announced s) acc' s'

/-- What a round can do: it ends the loop, or the variables take in what its frame announced, or
it returns a message of the size that was announced. -/
def Keeps (maxSize : UInt32) (lengths : List Nat) (turn : Turn) : Prop :=
  (∃ s', turn = .leave s') ∨
    (∃ acc' s', turn = .again acc' s' ∧ acc'.Holds maxSize lengths) ∨
    ∃ msg s', turn = .done msg s' ∧ msg.data.length = lengths.sum ∧
      msg.data.length < maxSize.toNat

/-- A data frame, from a state that satisfies the invariant. -/
theorem recvFrame_keeps_data {maxSize : UInt32} (hmax : maxSize.toNat < 2 ^ 31)
    (requireMask : Bool) {acc : Acc} {lengths : List Nat} (h : acc.Holds maxSize lengths)
    {head : WSFrameHead} (hop : head.IsData) (s : SocketStream) :
    Keeps maxSize (lengths ++ (recvLength head s).1.toList)
      (recvFrame requireMask maxSize head acc s) := by
  rw [recvFrame_data hop]
  by_cases hmask : (requireMask && !head.mask) = true
  · rw [if_pos hmask]
    exact Or.inl ⟨s, rfl⟩
  · rw [if_neg hmask]
    obtain ⟨-, ⟨s', hleave⟩ | ⟨length, opcode, data, s', hlength, hholds, hturn⟩⟩ :=
      recvData_keeps hmax head h s
    · exact Or.inl ⟨s', hleave⟩
    · rw [hturn, hlength, Option.toList_some]
      right
      by_cases hfin : head.fin = true
      · right
        refine ⟨_, _, if_pos hfin, hholds.size, ?_⟩
        rw [hholds.size]
        exact hholds.below (by simp)
      · left
        exact ⟨_, _, if_neg hfin, hholds⟩

/-- Any other frame leaves the variables alone. -/
theorem recvFrame_keeps_other (maxSize : UInt32) (requireMask : Bool) {acc : Acc}
    {lengths : List Nat} (h : acc.Holds maxSize lengths) {head : WSFrameHead}
    (hop : ¬head.IsData) (s : SocketStream) :
    Keeps maxSize lengths (recvFrame requireMask maxSize head acc s) := by
  rw [WSFrameHead.IsData] at hop
  rw [recvFrame, if_neg hop]
  split
  · simp only
    split
    · exact Or.inl ⟨_, rfl⟩
    · exact Or.inr (Or.inl ⟨_, _, rfl, h⟩)
  · split
    · exact Or.inr (Or.inl ⟨_, _, rfl, h⟩)
    · split
      · exact Or.inl ⟨_, rfl⟩
      · exact Or.inr (Or.inl ⟨_, _, rfl, h⟩)

/-- One round, from a state that satisfies the invariant. -/
theorem recvRound_keeps {maxSize : UInt32} (hmax : maxSize.toNat < 2 ^ 31) (requireMask : Bool)
    {acc : Acc} {lengths : List Nat} (h : acc.Holds maxSize lengths) (s : SocketStream) :
    Keeps maxSize (lengths ++ announced s) (recvRound requireMask maxSize acc s) := by
  rw [recvRound]
  by_cases hread : (s.readFixedSize 2).1 ≤ 0
  · left
    exact ⟨_, if_pos hread⟩
  · rw [if_neg hread, announced]
    by_cases hop : (headOf s).1.IsData
    · rw [if_pos hop]
      exact recvFrame_keeps_data hmax requireMask h hop _
    · rw [if_neg hop, List.append_nil]
      exact recvFrame_keeps_other maxSize requireMask h hop _

/-- The invariant holds in every state of a run. -/
theorem Rounds.sound {requireMask : Bool} {maxSize : UInt32} (hmax : maxSize.toNat < 2 ^ 31)
    {s₀ s : SocketStream} {lengths : List Nat} {acc : Acc}
    (h : Rounds requireMask maxSize s₀ lengths acc s) : acc.Holds maxSize lengths := by
  induction h with
  | start => exact Acc.Holds.init maxSize
  | round h hround ih =>
      obtain ⟨s', hleave⟩ | ⟨acc', s', hagain, hholds⟩ | ⟨msg, s', hdone, -⟩ :=
        recvRound_keeps hmax requireMask ih _
      · rw [hleave] at hround
        cases hround
      · rw [hagain] at hround
        cases hround
        exact hholds
      · rw [hdone] at hround
        cases hround

/-- The loop from a state of a run: there is no fault, and a message comes from a last round. -/
theorem recvLoop_keeps {requireMask : Bool} {maxSize : UInt32} (hmax : maxSize.toNat < 2 ^ 31)
    (fuel : Nat) {s₀ s : SocketStream} {lengths : List Nat} {acc : Acc}
    (h : Rounds requireMask maxSize s₀ lengths acc s) :
    (recvLoop requireMask maxSize fuel acc s).1 ≠ .fault ∧
      ∀ msg s', recvLoop requireMask maxSize fuel acc s = (.message msg, s') →
        ∃ lengths' acc' s₁, Rounds requireMask maxSize s₀ lengths' acc' s₁ ∧
          recvRound requireMask maxSize acc' s₁ = .done msg s' := by
  induction fuel generalizing lengths acc s with
  | zero => exact ⟨by simp [recvLoop], by simp [recvLoop]⟩
  | succ fuel ih =>
      rw [recvLoop]
      obtain ⟨s', hleave⟩ | ⟨acc', s', hagain, -⟩ | ⟨msg, s', hdone, -⟩ :=
        recvRound_keeps hmax requireMask (h.sound hmax) s
      · rw [hleave]
        exact ⟨by simp, by simp⟩
      · rw [hagain]
        exact ih (h.round hagain)
      · rw [hdone]
        refine ⟨by simp, ?_⟩
        intro msg' s'' heq
        rw [Prod.mk.injEq, Recvd.message.injEq] at heq
        obtain ⟨rfl, rfl⟩ := heq
        exact ⟨lengths, acc, s, h, hdone⟩

/-- With a maximum below `2 ^ 31`, in every run of `recv_message` on either side and whatever
lengths the frames announce: `cur_len` and the size of the data are the sum of the announced
lengths and below the maximum; the next frame resizes to less than the maximum and writes inside
the data; there is no access outside of the data and no overflow; and a message has the size
that its data frames announced. -/
theorem recvMessage_lengths {maxSize : UInt32} (hmax : maxSize.toNat < 2 ^ 31) (requireMask : Bool)
    (s₀ : SocketStream) :
    (∀ lengths acc s, Rounds requireMask maxSize s₀ lengths acc s →
      acc.curLen = lengths.sum ∧ acc.data.length = lengths.sum ∧
        (lengths ≠ [] → lengths.sum < maxSize.toNat) ∧
        ∀ t ∈ payloadTouch maxSize (headOf s).1 acc (headOf s).2, t.Safe maxSize) ∧
    (recvMessage requireMask maxSize s₀).1 ≠ .fault ∧
    ∀ msg s', recvMessage requireMask maxSize s₀ = (.message msg, s') →
      ∃ lengths acc s, Rounds requireMask maxSize s₀ lengths acc s ∧
        recvRound requireMask maxSize acc s = .done msg s' ∧
        msg.data.length = (lengths ++ announced s).sum ∧ msg.data.length < maxSize.toNat := by
  have hstart : Rounds requireMask maxSize s₀ [] Acc.init s₀ := .start
  have hloop := recvLoop_keeps hmax (s₀.pending + 1) hstart
  refine ⟨?_, hloop.1, ?_⟩
  · intro lengths acc s h
    have hholds := h.sound hmax
    exact ⟨hholds.curLen, hholds.size, hholds.below, (recvData_keeps hmax _ hholds _).1⟩
  · intro msg s' hrun
    obtain ⟨lengths, acc, s, hrounds, hdone⟩ := hloop.2 msg s' hrun
    refine ⟨lengths, acc, s, hrounds, hdone, ?_⟩
    obtain ⟨s', hleave⟩ | ⟨acc', s', hagain, -⟩ | ⟨msg', s', hdone', hlength⟩ :=
      recvRound_keeps hmax requireMask (hrounds.sound hmax) s
    · rw [hleave] at hdone
      cases hdone
    · rw [hagain] at hdone
      cases hdone
    · rw [hdone'] at hdone
      cases hdone
      exact hlength

/-- A frame of two bytes, and a last one that announces `2 ^ 64 - 1` bytes, with the default
maximum: the sum wraps to one byte, and the call gives up. -/
theorem recvMessage_lengths_wrap :
    (33554432 : UInt32).toNat < 2 ^ 31 ∧
      (recvMessage true 33554432 (wholeStream [0x01, 0x82, 1, 2, 3, 4, 105, 107,
        0x80, 0xFF, 255, 255, 255, 255, 255, 255, 255, 255, 1, 2, 3, 4])).1 = .null ∧
      (recvMessage true 33554432 (wholeStream [0x01, 0x82, 1, 2, 3, 4, 105, 107,
        0x80, 0xFF, 255, 255, 255, 255, 255, 255, 255, 255, 1, 2, 3, 4])).1 ≠ .fault :=
  ⟨by decide, by decide, (recvMessage_lengths (by decide) true _).2.1⟩

end WebSocket
end Tiger
