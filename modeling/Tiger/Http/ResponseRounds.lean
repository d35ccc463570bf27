import Tiger.Http.Connection
import Tiger.Lib.Fuel
import Tiger.Streams.Arrival
import Tiger.Streams.CutStream

/-!
# HTTP - the rounds of receiving a response

The loops of `HTTPConnection::recv_response` (`src/servers/http/http_connection.cc`), round by
round, on a peer that sends finitely many bytes and closes.  The loops for the header and for a
size line give up at a read of 0 bytes; the loop for the data of a chunk takes it for a read.

Main results:

- Theorem `recvResponse_stable`: more rounds change no result.
- Theorem `refill_cases`: a read into the buffer gives up, or it brings the next bytes.
- Theorem `recvChunkData_cases`: the data of a chunk is waited for without end exactly if bytes of
  it are missing that do not arrive.
-/

namespace Tiger
namespace Http

open Lib Lib.Ragel HTTPResponseParser SocketStream

/-! ## Rounds -/

/-- A call of the parser behind a read. -/
def parsed (bufferSize : Nat) (chunck : Bool) (r : Except Failure Buffered) :
    Except Failure Buffered :=
  r.bind (parse bufferSize chunck)

/-- The read in front of a call of the parser for a size line. -/
def fetch (bufferSize : Nat) (more : Bool) (b : Buffered) : Except Failure Buffered :=
  if more || b.len == 0 then refill bufferSize b else .ok b

/-- The read of the loop for the rest of a chunk. -/
def readLeft (bufferSize : Nat) (left : Int) (s : SocketStream) : Int × Text × SocketStream :=
  s.read (toSizeT (if left > toInt32 bufferSize then toInt32 bufferSize else left))

/-- The data of a chunk of `size` bytes and the line end behind it are in the buffer, which holds
`len` bytes. -/
def ChunkBuffered (size : Int) (len : Nat) : Prop := toInt32 (size + 2) ≤ len

instance (size : Int) (len : Nat) : Decidable (ChunkBuffered size len) :=
  inferInstanceAs (Decidable (_ ≤ _))

/-- How many bytes of the chunk and of its line end the stream has to bring. -/
def missing (size : Int) (len : Nat) : Int := size - len + 2

/-- What is behind the loop for the rest of a chunk. -/
def takeLineEnd (ps : HTTPResponseParser) (r : Text × Memory × SocketStream) :
    Except Failure (Buffered × Text) :=
  if r.1.length < 2 then .error .threw else .ok (⟨ps, r.2.1, 0, r.2.2⟩, r.1.take (r.1.length - 2))

/-- The loop over the chunks behind the data of a chunk. -/
def behindChunk (bufferSize fuel : Nat) (r : Buffered × Text) : Except Failure (Buffered × Text) :=
  if r.1.ps.chunksDone then .ok r else recvChunks bufferSize fuel r.1 r.2

/-- The body behind the header. -/
def recvBehindHeader (env : ClientEnv) (bufferSize fuel : Nat) (b : Buffered) :
    Except Failure (Buffered × Text) :=
  if b.ps.chunked then recvChunks bufferSize fuel b [] else recvKnownLength env b

/-- The response that `recv_response` returns. -/
def answer (env : ClientEnv) (r : Buffered × Text) : HTTPResponse × SocketStream :=
  (decodeBody env r.1.ps.data r.2, r.1.s)

section Rounds

variable {bufferSize : Nat}

/-- A round of the loop over the header. -/
theorem recvResponseHeader_succ (fuel : Nat) (b : Buffered) :
    recvResponseHeader bufferSize (fuel + 1) b =
      (parsed bufferSize false (refill bufferSize b)).bind fun b =>
        if b.ps.isFinished then .ok b else recvResponseHeader bufferSize fuel b := by
  rw [recvResponseHeader, parsed]
  cases refill bufferSize b with
  | error e => rfl
  | ok b₁ =>
      change _ = (parse bufferSize false b₁).bind _
      cases hparse : parse bufferSize false b₁ with
      | error e => simp only [hparse, Except.bind]
      | ok b₂ => simp only [hparse, Except.bind]

/-- A round of the loop over a size line. -/
theorem recvChunkSize_succ (fuel : Nat) (more : Bool) (b : Buffered) :
    recvChunkSize bufferSize (fuel + 1) more b =
      (parsed bufferSize true (fetch bufferSize more b)).bind fun b =>
        if b.ps.isFinished then .ok b else recvChunkSize bufferSize fuel true b := by
  have hfetch : (if more || b.len == 0 then refill bufferSize b else .ok b) =
      fetch bufferSize more b := rfl
  rw [recvChunkSize, parsed, hfetch]
  cases fetch bufferSize more b with
  | error e => rfl
  | ok b₁ =>
      change _ = (parse bufferSize true b₁).bind _
      cases hparse : parse bufferSize true b₁ with
      | error e => simp only [hparse, Except.bind]
      | ok b₂ => simp only [hparse, Except.bind]

/-- A round of the loop over the rest of a chunk. -/
theorem recvLeft_succ (fuel : Nat) (left : Int) (body : Text) (m : Memory) (s : SocketStream) :
    recvLeft bufferSize (fuel + 1) left body m s =
      if left ≤ 0 then .ok (body, m, s)
      else if (readLeft bufferSize left s).1 < 0 then
        .error (.null (readLeft bufferSize left s).2.2.close)
      else recvLeft bufferSize fuel (left - (readLeft bufferSize left s).1)
        (body ++ (readLeft bufferSize left s).2.1) (store m 0 (readLeft bufferSize left s).2.1)
        (readLeft bufferSize left s).2.2 :=
  rfl

/-- The data of a chunk that reaches behind the buffer. -/
theorem recvChunkData_left_eq {b : Buffered} (hleft : ¬ ChunkBuffered b.ps.contentLen b.len)
    (fuel : Nat) (body : Text) :
    recvChunkData bufferSize fuel b body =
      (recvLeft bufferSize fuel (missing b.ps.contentLen b.len) (body ++ slice b.m 0 b.len) b.m
        b.s).bind (takeLineEnd b.ps) := by
  rw [ChunkBuffered] at hleft
  have hmissing : b.ps.contentLen - b.len + 2 = missing b.ps.contentLen b.len := rfl
  rw [recvChunkData, if_neg hleft, hmissing]
  cases recvLeft bufferSize fuel (missing b.ps.contentLen b.len) (body ++ slice b.m 0 b.len) b.m
      b.s with
  | error e => rfl
  | ok r => rfl

/-- A round of the loop over the chunks. -/
theorem recvChunks_succ (fuel : Nat) (b : Buffered) (body : Text) :
    recvChunks bufferSize (fuel + 1) b body =
      (recvChunkSize bufferSize (fuel + 1) false b).bind fun b =>
        (recvChunkData bufferSize (fuel + 1) b body).bind (behindChunk bufferSize fuel) := by
  rw [recvChunks]
  cases recvChunkSize bufferSize (fuel + 1) false b with
  | error e => rfl
  | ok b₁ =>
      change _ = (recvChunkData bufferSize (fuel + 1) b₁ body).bind _
      cases hdata : recvChunkData bufferSize (fuel + 1) b₁ body with
      | error e => simp only [hdata, Except.bind]
      | ok r => simp only [hdata, Except.bind, behindChunk]

/-- `recv_response` is the header, the body and the answer. -/
theorem recvResponse_eq_bind (env : ClientEnv) (fuel : Nat) (s : SocketStream) :
    recvResponse env bufferSize fuel s =
      ((recvResponseHeader bufferSize fuel ⟨HTTPResponseParser.init, env.memory, 0, s⟩).bind
        (recvBehindHeader env bufferSize fuel)).bind fun r => .ok (answer env r) := by
  rw [recvResponse]
  cases recvResponseHeader bufferSize fuel ⟨HTTPResponseParser.init, env.memory, 0, s⟩ with
  | error e => rfl
  | ok b =>
      change _ = (recvBehindHeader env bufferSize fuel b).bind fun r => .ok (answer env r)
      rw [recvBehindHeader]
      simp only
      split
      · next hbody =>
          rw [hbody]
          rfl
      · next hbody =>
          rw [hbody]
          rfl

end Rounds

/-! ## More rounds -/

section Stable

variable {bufferSize : Nat}

/-- More fuel does not change what the loop over the header returns. -/
theorem recvResponseHeader_stable (b : Buffered) :
    Stable (.error .outOfFuel) fun fuel => recvResponseHeader bufferSize fuel b := by
  intro fuel
  induction fuel generalizing b with
  | zero => exact stableAt_zero rfl
  | succ fuel ih =>
      rw [stableAt_succ]
      simp only [recvResponseHeader_succ]
      refine (stableAt_const fuel).bind fun b' => ?_
      split
      · exact stableAt_const fuel
      · exact ih b'

/-- More fuel does not change what the loop over a size line returns. -/
theorem recvChunkSize_stable (more : Bool) (b : Buffered) :
    Stable (.error .outOfFuel) fun fuel => recvChunkSize bufferSize fuel more b := by
  intro fuel
  induction fuel generalizing more b with
  | zero => exact stableAt_zero rfl
  | succ fuel ih =>
      rw [stableAt_succ]
      simp only [recvChunkSize_succ]
      refine (stableAt_const fuel).bind fun b' => ?_
      split
      · exact stableAt_const fuel
      · exact ih true b'

/-- More fuel does not change what the loop over the rest of a chunk returns. -/
theorem recvLeft_stable (left : Int) (body : Text) (m : Memory) (s : SocketStream) :
    Stable (.error .outOfFuel) fun fuel => recvLeft bufferSize fuel left body m s := by
  intro fuel
  induction fuel generalizing left body m s with
  | zero => exact stableAt_zero rfl
  | succ fuel ih =>
      rw [stableAt_succ]
      simp only [recvLeft_succ]
      split
      · exact stableAt_const fuel
      · split
        · exact stableAt_const fuel
        · exact ih _ _ _ _

/-- More fuel does not change what the data of a chunk gives. -/
theorem recvChunkData_stable (b : Buffered) (body : Text) :
    Stable (.error .outOfFuel) fun fuel => recvChunkData bufferSize fuel b body := by
  intro fuel
  by_cases hbuffered : ChunkBuffered b.ps.contentLen b.len
  · rw [ChunkBuffered] at hbuffered
    simp only [recvChunkData, if_pos hbuffered]
    exact stableAt_const fuel
  · simp only [recvChunkData_left_eq hbuffered]
    exact (recvLeft_stable _ _ _ _ fuel).bind fun _ => stableAt_const fuel

/-- More fuel does not change what the loop over the chunks returns. -/
theorem recvChunks_stable (b : Buffered) (body : Text) :
    Stable (.error .outOfFuel) fun fuel => recvChunks bufferSize fuel b body := by
  intro fuel
  induction fuel generalizing b body with
  | zero => exact stableAt_zero rfl
  | succ fuel ih =>
      rw [stableAt_succ]
      simp only [recvChunks_succ]
      refine (stableAt_succ.mp (recvChunkSize_stable false b (fuel + 1))).bind fun b' => ?_
      refine (stableAt_succ.mp (recvChunkData_stable b' body (fuel + 1))).bind fun r => ?_
      simp only [behindChunk]
      split
      · exact stableAt_const fuel
      · exact ih _ _

/-- More fuel does not change what is returned behind the header. -/
theorem recvBehindHeader_stable (env : ClientEnv) (b : Buffered) :
    Stable (.error .outOfFuel) fun fuel => recvBehindHeader env bufferSize fuel b := by
  intro fuel
  simp only [recvBehindHeader]
  split
  · exact recvChunks_stable b [] fuel
  · exact stableAt_const fuel

/-- More fuel does not change what `recv_response` returns. -/
theorem recvResponse_stable (env : ClientEnv) (s : SocketStream) :
    Stable (.error .outOfFuel) fun fuel => recvResponse env bufferSize fuel s := by
  intro fuel
  simp only [recvResponse_eq_bind]
  exact ((recvResponseHeader_stable _ fuel).bind fun b => recvBehindHeader_stable env b fuel).bind
    fun _ => stableAt_const fuel

end Stable

/-! ## One round -/

/-- An assert, an exception, or memory behind the buffer. -/
inductive Fatal : Failure → Prop
  | abort : Fatal .abort
  | threw : Fatal .threw
  | wild : Fatal .wild

section Round

variable {bufferSize : Nat} {b : Buffered} {bytes : Text}

/-- A parser call that fails ends `recv_response` without an answer. -/
theorem execute_fatal {m : Memory} {length : Nat} {chunck : Bool} {ps : HTTPResponseParser}
    {e : Failure} (h : execute m length chunck ps = .error e) : Fatal e := by
  rw [execute] at h
  split at h
  · cases h
    exact .abort
  · split at h
    · cases h
      exact .threw
    · simp only at h
      split at h
      · cases h
        exact .abort
      · split at h
        · cases h
          exact .wild
        · cases h

/-- The text is what the buffer holds. -/
structure Holds (b : Buffered) (text : Text) : Prop where
  len_eq : b.len = text.length
  text_eq : slice b.m 0 text.length = text

/-- A read behind the bytes of the buffer. -/
theorem slice_store_behind (m : Memory) (pos : Nat) (xs : Text) :
    slice (store m pos xs) 0 (pos + xs.length) = slice m 0 pos ++ xs := by
  have hfront : slice (store m pos xs) 0 pos = slice m 0 pos := by
    refine slice_congr fun i _ hi => ?_
    rw [store, if_neg (by omega)]
  have hback : slice (store m pos xs) pos xs.length = xs := by
    apply List.ext_getElem?
    intro i
    by_cases hi : i < xs.length
    · rw [slice_getElem? _ _ _ _ hi, store, if_pos (by omega), Nat.add_sub_cancel_left,
        List.getD_eq_getElem?_getD, List.getElem?_eq_getElem hi, Option.getD_some]
    · rw [List.getElem?_eq_none (by rw [slice_length]; omega),
        List.getElem?_eq_none (by omega)]
  rw [slice_add, hfront, Nat.zero_add, hback]

@[simp] theorem terminate_self (m : Memory) (len : Nat) : terminate m len len = 0 := by
  simp [terminate]

/-- The zero byte is behind the text, not in it. -/
@[simp] theorem slice_terminate (m : Memory) (len : Nat) :
    slice (terminate m len) 0 len = slice m 0 len := by
  refine slice_congr ?_
  intro i _ hi
  rw [terminate, if_neg (by omega)]

/-- The bytes of a read into a buffer that holds `text`. -/
def bytesRead (bufferSize : Nat) (text : Text) (s : SocketStream) : Text :=
  (s.read (bufferSize - text.length)).2.1

/-- The stream behind this read. -/
def streamBehind (bufferSize : Nat) (text : Text) (s : SocketStream) : SocketStream :=
  (s.read (bufferSize - text.length)).2.2

/-- A read into the buffer gives up at the end of the stream, or it puts the next bytes behind those
in the buffer. -/
theorem refill_cases (bufferSize : Nat) (h : CutStream b.s bytes) {text : Text}
    (hb : Holds b text) :
    (bytesRead bufferSize text b.s = [] ∧ ∃ s, refill bufferSize b = .error (.null s)) ∨
    bytesRead bufferSize text b.s ≠ [] ∧ ∃ b' bytes', refill bufferSize b = .ok b' ∧
      b'.ps = b.ps ∧ b'.m = store b.m text.length (bytesRead bufferSize text b.s) ∧
      b'.s = streamBehind bufferSize text b.s ∧
      Holds b' (text ++ bytesRead bufferSize text b.s) ∧ CutStream b'.s bytes' ∧
      b'.len + bytes'.length = b.len + bytes.length := by
  have hbound := h.readLength_le (bufferSize - text.length)
  have hread : bytesRead bufferSize text b.s =
      bytes.take (b.s.readLength (bufferSize - text.length)) := by rw [bytesRead, h.read_eq]
  have hstream : streamBehind bufferSize text b.s =
      b.s.skip (b.s.readLength (bufferSize - text.length)) := by rw [streamBehind, h.read_eq]
  have hlen : (bytesRead bufferSize text b.s).length =
      b.s.readLength (bufferSize - text.length) := by
    rw [hread]
    exact h.take_readLength_length _
  have hround : b.s.read (bufferSize - text.length) =
      (((bytesRead bufferSize text b.s).length : Int), bytesRead bufferSize text b.s,
        streamBehind bufferSize text b.s) := by
    rw [hlen, hread, hstream]
    exact h.read_eq _
  rw [refill, hb.len_eq]
  simp only [hround]
  by_cases hend : bytesRead bufferSize text b.s = []
  · rw [hend]
    exact .inl ⟨rfl, _, rfl⟩
  · have hpos := List.length_pos_iff.mpr hend
    rw [if_neg (by omega)]
    refine .inr ⟨hend, _, _, rfl, rfl, rfl, rfl, ⟨?_, ?_⟩, hstream ▸ h.skip _, ?_⟩
    · simp only [Int.toNat_natCast, List.length_append]
    · simp only
      rw [List.length_append, slice_store_behind, hb.text_eq]
    · simp only [Int.toNat_natCast, List.length_drop]
      omega

end Round

/-! ## The data of a chunk -/

section Data

variable {bufferSize : Nat} {left : Int} {s : SocketStream} {bytes : Text}

/-- How many bytes the loop for the rest of a chunk asks for. -/
def ask (bufferSize : Nat) (left : Int) : Nat :=
  toSizeT (if left > toInt32 bufferSize then toInt32 bufferSize else left)

/-- A read asks for at least one byte. -/
theorem ask_pos (hleft : 0 < left) (hsize : toInt32 bufferSize ≠ 0) : 0 < ask bufferSize left := by
  have hlow := le_toInt32 bufferSize
  have hhigh := toInt32_lt bufferSize
  rw [ask, toSizeT]
  split
  · omega
  · omega

/-- A read of the rest of a chunk gives the first bytes of the stream. -/
theorem readLeft_eq (h : CutStream s bytes) (left : Int) :
    readLeft bufferSize left s = ((s.readLength (ask bufferSize left) : Int),
      bytes.take (s.readLength (ask bufferSize left)),
      s.skip (s.readLength (ask bufferSize left))) :=
  h.read_eq _

/-- A round of the loop, which never sees the end of the stream. -/
theorem recvLeft_round (h : CutStream s bytes) (hleft : 0 < left) (fuel : Nat) (body : Text)
    (m : Memory) :
    recvLeft bufferSize (fuel + 1) left body m s =
      recvLeft bufferSize fuel (left - s.readLength (ask bufferSize left))
        (body ++ bytes.take (s.readLength (ask bufferSize left)))
        (store m 0 (bytes.take (s.readLength (ask bufferSize left))))
        (s.skip (s.readLength (ask bufferSize left))) := by
  rw [recvLeft_succ, if_neg (by omega), readLeft_eq h]
  simp only
  rw [if_neg (by omega)]

/-- The loop goes on for ever when fewer bytes arrive than are left. -/
theorem recvLeft_starves (h : CutStream s bytes) (hleft : 0 < left)
    (hstarves : toInt32 bufferSize = 0 ∨ (bytes.length : Int) < left) (fuel : Nat) (body : Text)
    (m : Memory) : recvLeft bufferSize fuel left body m s = .error .outOfFuel := by
  induction fuel generalizing s bytes left body m with
  | zero => rfl
  | succ fuel ih =>
      have hbound := h.readLength_le (ask bufferSize left)
      have hzero : toInt32 bufferSize = 0 → ask bufferSize left = 0 := by
        intro hsize
        rw [ask, hsize, if_pos hleft]
        rfl
      rw [recvLeft_round h hleft]
      refine ih (h.skip _) ?_ ?_ _ _
      · omega
      · rw [List.length_drop]
        omega

/-- How many bytes the loop reads until `left` of them are there. -/
def leftTaken (bufferSize : Nat) : Nat → Int → SocketStream → Nat
  | 0, _, _ => 0
  | n + 1, left, s =>
      if left ≤ 0 then 0
      else
        let k := s.readLength (ask bufferSize left)
        k + leftTaken bufferSize n (left - k) (s.skip k)

/-- The loop over the rest of a chunk ends when all its bytes arrive. -/
theorem recvLeft_fed (h : CutStream s bytes)
    (hfed : left ≤ 0 ∨ toInt32 bufferSize ≠ 0 ∧ left ≤ bytes.length) (body : Text) (m : Memory)
    {n : Nat} (hn : left.toNat ≤ n) :
    left ≤ leftTaken bufferSize n left s ∧ leftTaken bufferSize n left s ≤ bytes.length ∧
      ∃ m', Settles (fun fuel => recvLeft bufferSize fuel left body m s)
        (.ok (body ++ bytes.take (leftTaken bufferSize n left s), m',
          s.skip (leftTaken bufferSize n left s))) := by
  induction n generalizing s bytes left body m with
  | zero =>
      refine ⟨?_, Nat.zero_le _, m, settles_of_succ_eq fun fuel => ?_⟩
      · rw [leftTaken]
        omega
      · rw [recvLeft_succ, if_pos (by omega), leftTaken, List.take_zero, List.append_nil,
          h.skip_zero]
  | succ n ih =>
      rw [leftTaken]
      by_cases hdone : left ≤ 0
      · rw [if_pos hdone]
        refine ⟨by omega, Nat.zero_le _, m, settles_of_succ_eq fun fuel => ?_⟩
        rw [recvLeft_succ, if_pos hdone, List.take_zero, List.append_nil, h.skip_zero]
      · obtain ⟨hsize, hle⟩ := hfed.resolve_left hdone
        have hne : bytes ≠ [] := by
          rintro rfl
          simp at hle
          omega
        have hpos := h.readLength_pos (ask_pos (by omega : 0 < left) hsize) hne
        have hbound := h.readLength_le (ask bufferSize left)
        have hround := @recvLeft_round bufferSize left s bytes h (by omega)
        rw [if_neg hdone]
        simp only
        generalize s.readLength (ask bufferSize left) = k at hpos hbound hround ⊢
        obtain ⟨hleft, hlen, m', hsettles⟩ := ih (h.skip k)
          (show left - k ≤ 0 ∨ toInt32 bufferSize ≠ 0 ∧ left - k ≤ (bytes.drop k).length by
            rw [List.length_drop]
            omega) (body ++ bytes.take k) (store m 0 (bytes.take k)) (by omega)
        rw [List.length_drop] at hlen
        refine ⟨by omega, by omega, m', ?_⟩
        rw [h.skip_skip, List.append_assoc, ← List.take_add] at hsettles
        exact hsettles.of_succ fun fuel => hround fuel body m

/-- Bytes of the chunk are missing that do not arrive. -/
def DataStarves (bufferSize : Nat) (size : Int) (len : Nat) (s : SocketStream) : Prop :=
  ¬ ChunkBuffered size len ∧ 0 < missing size len ∧
    (toInt32 bufferSize = 0 ∨ (s.arriving.length : Int) < missing size len)

instance (bufferSize : Nat) (size : Int) (len : Nat) (s : SocketStream) :
    Decidable (DataStarves bufferSize size len s) :=
  inferInstanceAs (Decidable (_ ∧ _ ∧ (_ ∨ _)))

/-- The bytes that the loop takes for the rest of a chunk. -/
def restTaken (bufferSize : Nat) (size : Int) (len : Nat) (s : SocketStream) : Nat :=
  leftTaken bufferSize (missing size len).toNat (missing size len) s

/-- The size of the chunk is negative or beyond an `int`, or the body, which has `body` bytes in
front of the chunk, has no two bytes that could be the line end. -/
def DataBreaks (bufferSize : Nat) (size : Int) (len body : Nat) (s : SocketStream) : Prop :=
  if ChunkBuffered size len then size < 0 ∨ len < size + 2
  else body + len + restTaken bufferSize size len s < 2

instance (bufferSize : Nat) (size : Int) (len body : Nat) (s : SocketStream) :
    Decidable (DataBreaks bufferSize size len body s) :=
  inferInstanceAs (Decidable (ite _ _ _))

/-- The data of a chunk on a peer that closes: it is waited for without end, or what comes of it
does not depend on the rounds.  Behind it are the bytes of the buffer behind the line end, or none
when the stream had to bring bytes. -/
theorem recvChunkData_cases (bufferSize : Nat) {b : Buffered} (h : CutStream b.s bytes)
    {text : Text} (hb : Holds b text) (body : Text) :
    (DataStarves bufferSize b.ps.contentLen text.length b.s ∧
      ∀ fuel, recvChunkData bufferSize fuel b body = .error .outOfFuel) ∨
    ¬ DataStarves bufferSize b.ps.contentLen text.length b.s ∧
      ((DataBreaks bufferSize b.ps.contentLen text.length body.length b.s ∧ ∃ e, Fatal e ∧
        Settles (fun fuel => recvChunkData bufferSize fuel b body) (.error e)) ∨
      ¬ DataBreaks bufferSize b.ps.contentLen text.length body.length b.s ∧ ∃ b' body' bytes',
        Settles (fun fuel => recvChunkData bufferSize fuel b body) (.ok (b', body')) ∧
        CutStream b'.s bytes' ∧ b'.len + bytes'.length ≤ b.len + bytes.length ∧ b'.ps = b.ps ∧
        if ChunkBuffered b.ps.contentLen text.length then
          b'.s = b.s ∧ Holds b' (text.drop (b.ps.contentLen.toNat + 2)) ∧
            body'.length = body.length + b.ps.contentLen.toNat
        else
          b'.s = b.s.skip (restTaken bufferSize b.ps.contentLen text.length b.s) ∧ Holds b' [] ∧
            body'.length = body.length + text.length +
              restTaken bufferSize b.ps.contentLen text.length b.s - 2) := by
  have harriving : b.s.arriving = bytes := by
    rw [arriving_of_connected h.connected, h.available_eq]
  have hlen := hb.len_eq
  by_cases hbuffered : ChunkBuffered b.ps.contentLen text.length
  · refine .inr ⟨fun hstarves => hstarves.1 hbuffered, ?_⟩
    simp only [DataBreaks, if_pos hbuffered]
    rw [ChunkBuffered, ← hlen] at hbuffered
    by_cases hneg : b.ps.contentLen < 0
    · refine .inl ⟨.inl hneg, .threw, .threw, 0, fun fuel _ => ?_⟩
      simp only [recvChunkData, if_pos hbuffered, if_pos hneg]
    · by_cases hwild : b.len < b.ps.contentLen + 2
      · refine .inl ⟨.inr (by omega), .wild, .wild, 0, fun fuel _ => ?_⟩
        simp only [recvChunkData, if_pos hbuffered, if_neg hneg, if_pos hwild]
      · let behind := b.ps.contentLen.toNat + 2
        refine .inr ⟨by omega,
          { b with m := memmove b.m behind (b.len - behind), len := b.len - behind },
          body ++ slice b.m 0 b.ps.contentLen.toNat, bytes, ⟨0, fun fuel _ => ?_⟩, h,
          Nat.add_le_add_right (Nat.sub_le _ _) _, rfl, rfl, ⟨?_, ?_⟩, ?_⟩
        · simp only [recvChunkData, if_pos hbuffered, if_neg hneg, if_neg hwild, behind]
        · simp only [List.length_drop, hlen, behind]
        · simp only [List.length_drop, ← hlen]
          rw [slice_memmove b.m (show behind ≤ b.len by omega), hlen, hb.text_eq]
        · rw [List.length_append, slice_length]
  · by_cases hstarves : DataStarves bufferSize b.ps.contentLen text.length b.s
    · refine .inl ⟨hstarves, fun fuel => ?_⟩
      have hlacks := hstarves.2.2
      have hmissing := hstarves.2.1
      rw [harriving] at hlacks
      rw [← hlen] at hbuffered hlacks hmissing
      rw [recvChunkData_left_eq hbuffered, recvLeft_starves h hmissing hlacks]
      rfl
    · have hfed : missing b.ps.contentLen text.length ≤ 0 ∨ toInt32 bufferSize ≠ 0 ∧
          missing b.ps.contentLen text.length ≤ bytes.length := by
        rw [DataStarves, harriving] at hstarves
        by_contra hnot
        exact hstarves ⟨hbuffered, by omega, by omega⟩
      obtain ⟨hle, htaken, m', hsettles⟩ :=
        recvLeft_fed h hfed (body ++ slice b.m 0 b.len) b.m le_rfl
      change _ ≤ ((restTaken bufferSize b.ps.contentLen text.length b.s : Nat) : Int) at hle
      change restTaken bufferSize b.ps.contentLen text.length b.s ≤ _ at htaken
      change Settles _ (Except.ok
        (_ ++ bytes.take (restTaken bufferSize b.ps.contentLen text.length b.s),
        m', b.s.skip (restTaken bufferSize b.ps.contentLen text.length b.s))) at hsettles
      refine .inr ⟨hstarves, ?_⟩
      simp only [DataBreaks, if_neg hbuffered]
      generalize restTaken bufferSize b.ps.contentLen text.length b.s = t at hle htaken hsettles ⊢
      have hlength : (body ++ slice b.m 0 b.len ++ bytes.take t).length =
          body.length + text.length + t := by
        rw [List.length_append, List.length_append, slice_length, List.length_take]
        omega
      rw [← hlen] at hbuffered hsettles
      have hrun : Settles (fun fuel => recvChunkData bufferSize fuel b body)
          (takeLineEnd b.ps (body ++ slice b.m 0 b.len ++ bytes.take t, m', b.s.skip t)) := by
        simp only [recvChunkData_left_eq hbuffered]
        exact hsettles.bind_ok ⟨0, fun fuel _ => rfl⟩
      rw [takeLineEnd, hlength] at hrun
      by_cases hshort : body.length + text.length + t < 2
      · rw [if_pos hshort] at hrun
        exact .inl ⟨hshort, .threw, .threw, hrun⟩
      · rw [if_neg hshort] at hrun
        refine .inr ⟨hshort, _, _, _, hrun, h.skip t, ?_, rfl, rfl, ⟨rfl, rfl⟩, ?_⟩
        · rw [List.length_drop]
          simp only
          omega
        · rw [List.length_take, hlength]
          omega

end Data

end Http
end Tiger
