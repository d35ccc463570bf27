import Tiger.Http.EndOfStream
import Tiger.Streams.Arrival

/-!
# HTTP - the body of a request

`HTTPSession::recv_request` (`src/servers/http/http_session.cc`) takes the bytes that it has read
behind the header into the body and reads the missing ones from the stream, which can have any
script here.

Main results:

- Theorem `recvHeader_completed`: a header that the first call completes.
- Theorem `recvBody_arrives`, `recvBody_lacks`: the body from the buffer and the stream.
- Theorem `recvRequest_body`: the body is what follows the header, and the request is given up
  exactly if too few bytes arrive.
-/

namespace Tiger
namespace SocketStream

/-- A read that does not fail returns the number of bytes that it stores, and has taken them off
the stream. -/
theorem read_length {s : SocketStream} {len : Nat} (h : 0 ≤ (s.read len).1) :
    (s.read len).1.toNat = (s.read len).2.1.length ∧
      (s.read len).2.2.consumed = s.consumed + (s.read len).2.1.length := by
  rw [read] at h ⊢
  split at h
  · simp at h
  · next hconn =>
      rw [if_neg hconn]
      split at h
      · exact ⟨rfl, rfl⟩
      · next rt rest hin =>
          simp only at h ⊢
          have hzero : rt = 0 := by omega
          exact ⟨by simp [hzero], rfl⟩
      · next chunk rest hin =>
          simp only [Int.toNat_natCast, List.length_take]
          omega

end SocketStream

namespace Http

open Lib.Ragel HTTPRequestParser SocketStream

/-! ## The header -/

/-- The first call of `execute` completes the header: it takes `nparse` bytes and leaves room in
the buffer. -/
structure HeaderCompletes (env : Env) (bufferSize : Nat) (s : SocketStream) (nparse : Nat)
    (ps : HTTPRequestParser) : Prop where
  read : 0 ≤ (s.read bufferSize).1
  call : firstCall env (firstRead bufferSize s) = .ok nparse ps
  error : ps.hasError = false
  room : (((firstRead bufferSize s).length - nparse : Nat) : Int) ≠ toInt32 bufferSize
  finished : ps.isFinished = true

/-- The bytes of the first read that follow the header. -/
def buffered (bufferSize : Nat) (s : SocketStream) (nparse : Nat) : Text :=
  (firstRead bufferSize s).drop nparse

/-- The stream behind the first read. -/
def afterFirst (bufferSize : Nat) (s : SocketStream) : SocketStream := (s.read bufferSize).2.2

/-- The bytes that follow the header, as far as they arrive. -/
def bytesBehindHeader (bufferSize : Nat) (s : SocketStream) (nparse : Nat) : Text :=
  buffered bufferSize s nparse ++ (afterFirst bufferSize s).arriving

section Body

variable {env : Env} {bufferSize nparse : Nat} {s : SocketStream} {ps : HTTPRequestParser}

/-- The header loop ends in its first round, with the bytes behind the header at the start of the
buffer. -/
theorem recvHeader_completed (h : HeaderCompletes env bufferSize s nparse ps) (fuel : Nat) :
    ∃ m, recvHeader bufferSize (fuel + 1) (HTTPRequestParser.init env) env.memory 0 s =
        .finished ps m (buffered bufferSize s nparse).length (afterFirst bufferSize s) ∧
      slice m 0 (buffered bufferSize s nparse).length = buffered bufferSize s nparse := by
  have hlen := (read_length h.read).1
  have hcall := h.call
  have hroom := h.room
  rw [firstCall, firstRead] at hcall
  rw [firstRead] at hroom
  refine ⟨memmove (store env.memory 0 (firstRead bufferSize s)) nparse
    ((firstRead bufferSize s).length - nparse), ?_, ?_⟩
  · rw [recvHeader, Nat.sub_zero]
    simp only
    rw [if_neg (by have := h.read; omega), Nat.add_zero, hlen, hcall]
    simp only
    rw [h.error, h.finished, if_neg (by simp), if_neg hroom, if_pos rfl, buffered, firstRead,
      List.length_drop]
    rfl
  · rw [buffered, List.length_drop]
    by_cases hle : nparse ≤ (firstRead bufferSize s).length
    · rw [slice_memmove _ hle, slice_store_all]
    · rw [Nat.sub_eq_zero_of_le (by omega), List.drop_eq_nil_of_le (by omega)]
      rfl

/-! ## The body -/

/-- A body that arrives is the bytes of the buffer and then of the stream, and no byte more is
taken off the stream. -/
theorem recvBody_arrives (ps : HTTPRequestParser) {m : Memory} {front : Text}
    (hfront : slice m 0 front.length = front) {n : Nat} (hpos : 0 < n) (hlt : n < 2 ^ 31)
    (harrives : n ≤ (front ++ s.arriving).length) :
    ∃ s', recvBody n ps m front.length s =
        (.request { ps.data with body := (front ++ s.arriving).take n }.init, s') ∧
      s'.consumed = s.consumed + (n - front.length) ∧
      s'.arriving = s.arriving.drop (n - front.length) := by
  rw [List.length_append] at harrives
  rw [recvBody, if_neg (by omega), if_neg (by omega)]
  by_cases hfits : n ≤ front.length
  · have hslice : slice m 0 n = front.take n := by
      have hsplit := slice_add m 0 n (front.length - n)
      rw [Nat.add_sub_cancel' hfits, hfront] at hsplit
      rw [hsplit, List.take_left' (slice_length _ _ _)]
    refine ⟨s, ?_, ?_, ?_⟩
    · rw [if_pos (by omega), Int.toNat_natCast, hslice, List.take_append_of_le_length hfits]
    · rw [Nat.sub_eq_zero_of_le hfits, Nat.add_zero]
    · rw [Nat.sub_eq_zero_of_le hfits, List.drop_zero]
  · have hmissing : ((n : Int) - (front.length : Nat)).toNat = n - front.length := by omega
    obtain ⟨s', hrun, harriving, -, hconsumed⟩ :=
      readFixedSize_full (by omega : n - front.length < 2 ^ 63)
        (by omega : n - front.length ≤ s.arriving.length)
    have hint : toInt32 ((n - front.length : Nat) : Int) = ((n - front.length : Nat) : Int) :=
      toInt32_of_lt (by omega)
    have htake : (front ++ s.arriving).take n = front ++ s.arriving.take (n - front.length) := by
      rw [List.take_append, List.take_of_length_le (l := front) (by omega)]
    refine ⟨s', ?_, hconsumed, harriving⟩
    rw [if_neg (by omega), hmissing, hrun, hint]
    simp only
    rw [if_neg (by omega), hfront, htake]

/-- A body that does not arrive ends the request and closes the session, behind the bytes that
did. -/
theorem recvBody_lacks (ps : HTTPRequestParser) (m : Memory) {front : Text} {n : Nat}
    (hlt : n < 2 ^ 31)
    (hlacks : (front ++ s.arriving).length < n) :
    ∃ s', recvBody n ps m front.length s = (.null, s') ∧ s'.connected = false ∧
      s'.consumed = s.consumed + s.arriving.length := by
  rw [List.length_append] at hlacks
  have hmissing : ((n : Int) - (front.length : Nat)).toNat = n - front.length := by omega
  obtain ⟨hresult, -, hconsumed⟩ :=
    readFixedSize_cut (by omega : n - front.length < 2 ^ 63)
      (by omega : s.arriving.length < n - front.length)
  refine ⟨(s.readFixedSize (n - front.length)).2.2.close, ?_, rfl, hconsumed⟩
  rw [recvBody, if_neg (by omega), if_neg (by omega), if_neg (by omega), hmissing]
  simp only
  rw [if_pos hresult]

/-- Initialising a request keeps its body. -/
theorem init_body (r : HTTPRequest) : r.init.body = r.body := by
  unfold HTTPRequest.init
  simp only
  split
  · rfl
  · rfl

/-- A request whose header the first call completes and that announces `n` bytes.  If so many
bytes follow the header, they are the body, and no byte behind them is taken off the stream; if
the stream ends or fails before that, the request is given up and the session closed. -/
theorem recvRequest_body (h : HeaderCompletes env bufferSize s nparse ps) {n : Nat}
    (hlength : toInt64 (ps.getContentLength env) = n) (hpos : 0 < n) (hlt : n < 2 ^ 31)
    (fuel : Nat) :
    (n ≤ (bytesBehindHeader bufferSize s nparse).length →
      ∃ r s', recvRequest env bufferSize (fuel + 1) s = (.request r, s') ∧
        r = { ps.data with body := (bytesBehindHeader bufferSize s nparse).take n }.init ∧
        r.body = (bytesBehindHeader bufferSize s nparse).take n ∧ r.body.length = n ∧
        s'.consumed = s.consumed + (firstRead bufferSize s).length +
          (n - (buffered bufferSize s nparse).length) ∧
        s'.arriving =
          (afterFirst bufferSize s).arriving.drop (n - (buffered bufferSize s nparse).length)) ∧
    ((bytesBehindHeader bufferSize s nparse).length < n →
      ∃ s', recvRequest env bufferSize (fuel + 1) s = (.null, s') ∧ s'.connected = false ∧
        s'.consumed = s.consumed + (firstRead bufferSize s).length +
          (afterFirst bufferSize s).arriving.length) := by
  obtain ⟨m, hheader, hslice⟩ := recvHeader_completed h fuel
  have hconsumed : (afterFirst bufferSize s).consumed =
      s.consumed + (firstRead bufferSize s).length := (read_length h.read).2
  rw [recvRequest, hheader]
  simp only [hlength]
  constructor
  · intro harrives
    obtain ⟨s', hrun, htaken, hrest⟩ := recvBody_arrives ps hslice hpos hlt harrives
    refine ⟨_, s', hrun, rfl, init_body _, ?_, ?_, hrest⟩
    · rw [init_body, List.length_take]
      exact Nat.min_eq_left harrives
    · rw [htaken, hconsumed]
  · intro hlacks
    obtain ⟨s', hrun, hclosed, htaken⟩ := recvBody_lacks ps m hlt hlacks
    exact ⟨s', hrun, hclosed, by rw [htaken, hconsumed]⟩

end Body

/-- A body of one byte in the second read, with a byte of the next request behind it. -/
theorem recvRequest_body_put :
    ∃ r s', recvRequest plainEnv 4096 1 (ofCuts [putText.take 33, text ['x', 'y']]) =
        (.request r, s') ∧ r.body = text ['x'] ∧ s'.arriving = text ['y'] := by
  have hread : firstRead 4096 (ofCuts [putText.take 33, text ['x', 'y']]) = putText.take 33 := by
    decide
  have hfirst : (match firstCall plainEnv (putText.take 33) with
      | .ok nparse ps => decide (nparse = 33) && !ps.hasError && ps.isFinished &&
          decide (ps.getContentLength plainEnv = 1)
      | _ => false) = true := by
    decide
  have hone : toInt64 1 = (1 : Nat) := by
    unfold toInt64
    decide
  cases hcall : firstCall plainEnv (putText.take 33) with
  | abort => simp [hcall] at hfirst
  | threw => simp [hcall] at hfirst
  | ok nparse ps =>
      simp only [hcall, Bool.and_eq_true, decide_eq_true_eq, Bool.not_eq_true'] at hfirst
      obtain ⟨⟨⟨rfl, herror⟩, hfinished⟩, hlength⟩ := hfirst
      have h : HeaderCompletes plainEnv 4096 (ofCuts [putText.take 33, text ['x', 'y']]) 33 ps :=
        ⟨by decide, by rw [hread, hcall], herror, by rw [hread]; decide, hfinished⟩
      obtain ⟨r, s', hrun, -, hbody, -, -, hrest⟩ :=
        (recvRequest_body h (by rw [hlength, hone]) (by decide) (by decide) 0).1 (by decide)
      exact ⟨r, s', hrun, by rw [hbody]; decide, by rw [hrest]; decide⟩

end Http
end Tiger
