import Tiger.ByteArray.Receive
import Tiger.Lib.Transfer
import Tiger.Streams.SocketStream

/-!
# Streams - transfers of a fixed size

This module embeds `Stream::read_fixed_size` and `Stream::write_fixed_size`, on a buffer and on a
`ByteArray` (`src/streams/stream.cc`), over the four members of `SocketStream` that move some of
the bytes (`src/streams/socket_stream.cc`).

The peer is arbitrary: it answers every call with a number of bytes, with zero or with an error,
and the stream may be closed in front of any call.  The loops are one loop with different calls
and tests.  The one that writes from a `ByteArray` tests `len` where the others test the result of
the call.

Main results:

- Theorem `exact_of_call`: a loop transfers what it is to transfer if its calls do.
- Theorem `delivers_of_exact`: the loop that writes from a `ByteArray` needs calls that do not fail.
- Theorem `fixedSize_iff`: when the four functions transfer what they are to transfer.
-/

namespace Tiger
namespace FixedSize

open Lib Lib.Transfer Tiger.ByteArray

/-! ## The peer -/

/-- What the socket returns for call `k` when it is offered `n` bytes, and whether the stream is
connected then. -/
structure Peer where
  connected : Nat → Bool
  answer : Nat → Nat → Int
  answer_le : ∀ k n, answer k n ≤ n
  answer_int : ∀ k n, -2 ^ 31 ≤ answer k n ∧ answer k n < 2 ^ 31

/-- What `SocketStream` returns for call `k`. -/
def Peer.result (peer : Peer) (k n : Nat) : Int :=
  if peer.connected k then peer.answer k n else -1

/-- Bytes of the incoming stream from a place on. -/
def chunk (data : Nat → UInt8) (start n : Nat) : List UInt8 :=
  (List.range n).map fun i => data (start + i)

/-- The memory that a loop works on, the bytes that were moved, and the results of the calls. -/
structure Run (Memory : Type) where
  memory : Memory
  moved : List UInt8
  results : List Int

/-- A call that returns `r` and moves `bytes`. -/
def Run.did {Memory : Type} (s : Run Memory) (memory : Memory) (bytes : List UInt8) (r : Int) :
    Run Memory :=
  ⟨memory, s.moved ++ bytes, s.results ++ [r]⟩

/-- `buffer` and `offset` of the loops on a buffer. -/
structure Buffer where
  bytes : List UInt8
  offset : Nat

section Calls

variable (peer : Peer) (data : Nat → UInt8)

/-- `read((char *)buffer + offset, n)`, and `offset += read_len` behind it. -/
def readBuffer : Call (Run Buffer) Failure := fun s n =>
  let r := peer.result s.results.length n
  let bytes := chunk data s.moved.length r.toNat
  (.ok r, s.did ⟨overwrite s.memory.bytes s.memory.offset bytes, s.memory.offset + r.toNat⟩ bytes r)

/-- `write((const char *)buffer + offset, n)`, and `offset += write_len` behind it. -/
def writeBuffer : Call (Run Buffer) Failure := fun s n =>
  let r := peer.result s.results.length n
  let bytes := (s.memory.bytes.drop s.memory.offset).take r.toNat
  (.ok r, s.did { s.memory with offset := s.memory.offset + r.toNat } bytes r)

/-- `SocketStream::read(ba, n)` -/
def readByteArray : Call (Run ByteArray) Failure := fun s n =>
  if ¬peer.connected s.results.length then (.ok (-1), s.did s.memory [] (-1))
  else
    let r := peer.answer s.results.length n
    let bytes := chunk data s.moved.length r.toNat
    match receive n bytes s.memory with
    | (.error e, ba) => (.error e, s.did ba [] r)
    | (.ok (), ba) => (.ok r, s.did ba bytes r)

/-- `SocketStream::write(ba, n)`: the regions may have fewer bytes than `n`. -/
def writeByteArray : Call (Run ByteArray) Failure := fun s n =>
  if ¬peer.connected s.results.length then (.ok (-1), s.did s.memory [] (-1))
  else
    match getEnableReadBuffers [] n s.memory with
    | (.error e, ba) => (.error e, s.did ba [] 0)
    | (.ok (iovs, _), ba) =>
        match gather ba.nodes iovs with
        | .error e => (.error e, s.did ba [] 0)
        | .ok offered =>
            let r := peer.answer s.results.length offered.length
            if r > 0 then
              match setPosition (ba.position + r.toNat) ba with
              | (.error e, ba) => (.error e, s.did ba [] r)
              | (.ok (), ba) => (.ok r, s.did ba (offered.take r.toNat) r)
            else (.ok r, s.did ba [] r)

end Calls

/-! ## The four loops -/

/-- A function on a memory: the loop from `left = len` on.  An `int64_t` holds the number of bytes
that are left. -/
def Returns {Memory : Type} (call : Call (Run Memory) Failure) (stops : Nat → Int → Bool)
    (memory : Memory) (len : Nat) (ret : Int) (s : Run Memory) : Prop :=
  Exits (round call (stops len) toInt32 len) ((len : Int), ⟨memory, [], []⟩) (.ok ret, s)

/-- `if (read_len <= 0)` -/
def stopsAtResult (_ : Nat) (r : Int) : Bool := decide (r ≤ 0)

/-- `if (len <= 0)` for a `size_t` -/
def stopsAtLength (len : Nat) (_ : Int) : Bool := decide (len ≤ 0)

/-- `read_fixed_size(buffer, len)` returns `ret`. -/
def ReadsBuffer (peer : Peer) (data : Nat → UInt8) (buffer : List UInt8) :
    Nat → Int → Run Buffer → Prop :=
  Returns (readBuffer peer data) stopsAtResult ⟨buffer, 0⟩

/-- `read_fixed_size(ba, len)` returns `ret`. -/
def ReadsByteArray (peer : Peer) (data : Nat → UInt8) (ba : ByteArray) :
    Nat → Int → Run ByteArray → Prop :=
  Returns (readByteArray peer data) stopsAtResult ba

/-- `write_fixed_size(buffer, len)` returns `ret`. -/
def WritesBuffer (peer : Peer) (buffer : List UInt8) : Nat → Int → Run Buffer → Prop :=
  Returns (writeBuffer peer) stopsAtResult ⟨buffer, 0⟩

/-- `write_fixed_size(ba, len)` returns `ret`. -/
def WritesByteArray (peer : Peer) (ba : ByteArray) : Nat → Int → Run ByteArray → Prop :=
  Returns (writeByteArray peer) stopsAtLength ba

/-! ## What the functions are to do -/

/-- A function returns when `len` bytes were moved, with `len`, or at the first result that is not
positive, with this result; the bytes that were moved are those of the results in front of it. -/
def Exact {Memory : Type} (returns : Int → Run Memory → Prop) (len : Nat)
    (Good : Run Memory → Prop) : Prop :=
  ∃ (ret : Int) (s : Run Memory) (ms : List Nat), returns ret s ∧ (∀ m ∈ ms, 0 < m) ∧
    s.moved.length = ms.sum ∧ Good s ∧
    ((ms.sum = len ∧ s.results = ms.map Nat.cast ∧ ret = len) ∨
      ms.sum < len ∧ ∃ r ≤ 0, s.results = ms.map Nat.cast ++ [r] ∧ ret = r)

/-- From call `k` on the peer takes `left` bytes without failing; `avail` bytes are there to be
sent. -/
inductive Delivers (peer : Peer) : Nat → Nat → Nat → Prop
  | done (k avail : Nat) : Delivers peer k 0 avail
  | more {k left avail n : Nat} (hleft : 0 < left) (hn : 0 < n)
      (hresult : peer.result k (min left avail) = n)
      (hrest : Delivers peer (k + 1) (left - n) (avail - n)) : Delivers peer k left avail

/-- The four functions, with what they are called on. -/
inductive Entry
  | readBuffer (buffer : List UInt8)
  | readByteArray (ba : ByteArray)
  | writeBuffer (buffer : List UInt8)
  | writeByteArray (ba : ByteArray)

namespace Entry

/-- A buffer has `len` bytes, and a `ByteArray` has its invariant. -/
def Valid (len : Nat) : Entry → Prop
  | readBuffer buffer => buffer.length = len
  | readByteArray ba => Inv ba
  | writeBuffer buffer => buffer.length = len
  | writeByteArray ba => Inv ba

/-- The function transfers what it is to transfer: the stream's bytes in order without a gap, into
the buffer or behind the cursor, or the bytes of the buffer or behind the cursor into the
stream. -/
def Transfers (peer : Peer) (data : Nat → UInt8) (len : Nat) : Entry → Prop
  | readBuffer buffer => Exact (ReadsBuffer peer data buffer len) len fun s =>
      s.moved = chunk data 0 s.moved.length ∧ s.memory.bytes = overwrite buffer 0 s.moved
  | readByteArray ba => Exact (ReadsByteArray peer data ba len) len fun s =>
      s.moved = chunk data 0 s.moved.length ∧
        s.memory.position = ba.position + s.moved.length ∧
        (flat s.memory).bytes = overwrite (flat ba).bytes ba.position s.moved
  | writeBuffer buffer => Exact (WritesBuffer peer buffer len) len fun s =>
      s.moved = buffer.take s.moved.length
  | writeByteArray ba => Exact (WritesByteArray peer ba len) len fun s =>
      s.moved = ((flat ba).bytes.drop ba.position).take s.moved.length ∧
        s.memory.position = ba.position + s.moved.length ∧
        (flat s.memory).bytes = (flat ba).bytes

/-- The condition for it. -/
def Condition (peer : Peer) (len : Nat) : Entry → Prop
  | writeByteArray ba => Delivers peer 0 len (ba.size - ba.position)
  | _ => True

end Entry

/-! ## The loops -/

/-- A loop that is exact with a property is exact with a weaker one. -/
theorem Exact.imp {Memory : Type} {returns : Int → Run Memory → Prop} {len : Nat}
    {Good Good' : Run Memory → Prop} (h : Exact returns len Good) (himp : ∀ s, Good s → Good' s) :
    Exact returns len Good' := by
  obtain ⟨ret, s, ms, hreturns, hms, hmoved, hgood, hend⟩ := h
  exact ⟨ret, s, ms, hreturns, hms, hmoved, himp s hgood, hend⟩

/-- The state behind the transfers `ms`. -/
def BehindMoves {Memory : Type} (Good : Run Memory → Prop) (s : Run Memory) (ms : List Nat) :
    Prop :=
  s.moved.length = ms.sum ∧ Good s ∧ s.results = ms.map Nat.cast

/-- The state behind the transfers `ms` and the result `r`. -/
def BehindFailure {Memory : Type} (Good : Run Memory → Prop) (s : Run Memory) (ms : List Nat)
    (r : Int) : Prop :=
  s.moved.length = ms.sum ∧ Good s ∧ s.results = ms.map Nat.cast ++ [r] ∧ toInt32 r = r

/-- A loop does what it is to do if every call that it makes does, and it is left at a result that
is not positive. -/
theorem exact_of_call {Memory : Type} {call : Call (Run Memory) Failure}
    {stops : Nat → Int → Bool} {len : Nat} {Good : Run Memory → Prop} {memory : Memory}
    (hlen : len < 2 ^ 31)
    (hcall : ∀ s n, Good s → 0 < n → n + s.moved.length = len →
      ∃ r memory' bytes, call s n = (.ok r, s.did memory' bytes r) ∧ bytes.length = r.toNat ∧
        r ≤ n ∧ (-2 ^ 31 ≤ r ∧ r < 2 ^ 31) ∧ stops len r = decide (r ≤ 0) ∧
        Good (s.did memory' bytes r))
    (hfirst : Good ⟨memory, [], []⟩) : Exact (Returns call stops memory len) len Good := by
  have hends : Ends (round call (stops len) toInt32 len) ((len : Int), ⟨memory, [], []⟩) toInt32 len
      (BehindMoves Good) (BehindFailure Good) := by
    apply exits_exact ?_ ⟨rfl, hfirst, rfl⟩
    rintro s ms left ⟨hlength, hgood, hresults⟩ hleft hsum
    obtain ⟨r, memory', bytes, hrun, hbytes, hle, hint, hstops, hgood'⟩ :=
      hcall s left hgood hleft (by omega)
    have hlength' : (s.did memory' bytes r).moved.length = ms.sum + r.toNat := by
      rw [Run.did, List.length_append, hlength, hbytes]
    by_cases hr : r ≤ 0
    · right
      rw [decide_eq_true hr] at hstops
      refine ⟨r, _, hr, hrun, hstops, ?_, hgood', ?_, toInt32_eq_self_iff.mpr hint⟩
      · omega
      · rw [Run.did, hresults]
    · left
      rw [decide_eq_false hr] at hstops
      have hcast : ((r.toNat : Nat) : Int) = r := Int.toNat_of_nonneg (by omega)
      refine ⟨r.toNat, _, by omega, by omega, ?_, ?_, ?_, hgood', ?_⟩
      · rw [hcast]
        exact hrun
      · rw [hcast]
        exact hstops
      · rw [hlength', List.sum_append, List.sum_singleton]
      · rw [Run.did, hresults, List.map_append, List.map_singleton, hcast]
  cases hends with
  | @whole s ms hms hsum hexits hmoved =>
      exact ⟨_, s, ms, hexits, hms, hmoved.1, hmoved.2.1,
        .inl ⟨hsum, hmoved.2.2, toInt32_of_lt hlen⟩⟩
  | @partly s ms r hms hsum hr hexits hfailed =>
      exact ⟨_, s, ms, hexits, hms, hfailed.1, hfailed.2.1,
        .inr ⟨hsum, r, hr, hfailed.2.2.1, hfailed.2.2.2⟩⟩

/-! ## The calls -/

section Specs

variable {peer : Peer} {data : Nat → UInt8} {len : Nat}

/-- A call moves at most what it is asked for. -/
theorem Peer.result_le (peer : Peer) (k n : Nat) : peer.result k n ≤ n := by
  rw [Peer.result]
  split
  · exact peer.answer_le k n
  · omega

/-- The result of a call is an `int`. -/
theorem Peer.result_int (peer : Peer) (k n : Nat) :
    -2 ^ 31 ≤ peer.result k n ∧ peer.result k n < 2 ^ 31 := by
  rw [Peer.result]
  split
  · exact peer.answer_int k n
  · decide

theorem chunk_length (data : Nat → UInt8) (start n : Nat) : (chunk data start n).length = n := by
  simp [chunk]

/-- Chunks follow each other. -/
theorem chunk_append (data : Nat → UInt8) (start a b : Nat) :
    chunk data start a ++ chunk data (start + a) b = chunk data start (a + b) := by
  rw [chunk, chunk, chunk, List.range_add, List.map_append, List.map_map]
  congr 2
  funext i
  rw [Function.comp_apply, Nat.add_assoc]

/-- What was read so far, and the next bytes of the stream. -/
theorem chunk_next {moved : List UInt8} (h : moved = chunk data 0 moved.length) (n : Nat) :
    moved ++ chunk data moved.length n = chunk data 0 (moved.length + n) := by
  have hnext := chunk_append data 0 moved.length n
  rwa [← h, Nat.zero_add] at hnext

/-- Reading into a buffer is exact. -/
theorem readsBuffer_exact (hlen : len < 2 ^ 31) (buffer : List UInt8) :
    Exact (ReadsBuffer peer data buffer len) len fun s =>
      s.moved = chunk data 0 s.moved.length ∧ s.memory.bytes = overwrite buffer 0 s.moved := by
  have hexact : Exact (ReadsBuffer peer data buffer len) len fun s =>
      s.moved = chunk data 0 s.moved.length ∧ s.memory.bytes = overwrite buffer 0 s.moved ∧
        s.memory.offset = s.moved.length := by
    apply exact_of_call hlen
    · rintro s n ⟨hmoved, hbytes, hoffset⟩ hn hleft
      refine ⟨peer.result s.results.length n, _, _, rfl, chunk_length data _ _,
        peer.result_le _ n, peer.result_int _ n, rfl, ?_, ?_, ?_⟩
      · rw [Run.did, List.length_append, chunk_length, chunk_next hmoved]
      · have hjoin := overwrite_overwrite s.moved
          (chunk data s.moved.length (peer.result s.results.length n).toNat)
            (Nat.zero_le buffer.length)
        rw [Nat.zero_add] at hjoin
        rw [Run.did, hbytes, hoffset]
        exact hjoin
      · rw [Run.did, List.length_append, chunk_length, hoffset]
    · exact ⟨rfl, (overwrite_nil buffer 0).symm, rfl⟩
  exact hexact.imp fun s h => ⟨h.1, h.2.1⟩

/-- Writing from a buffer is exact. -/
theorem writesBuffer_exact (hlen : len < 2 ^ 31) {buffer : List UInt8}
    (hbuffer : buffer.length = len) :
    Exact (WritesBuffer peer buffer len) len fun s => s.moved = buffer.take s.moved.length := by
  have hexact : Exact (WritesBuffer peer buffer len) len fun s =>
      s.moved = buffer.take s.moved.length ∧ s.memory.bytes = buffer ∧
        s.memory.offset = s.moved.length := by
    apply exact_of_call hlen
    · rintro s n ⟨hmoved, hbytes, hoffset⟩ hn hleft
      have hle := peer.result_le s.results.length n
      have hlength : ((s.memory.bytes.drop s.memory.offset).take
          (peer.result s.results.length n).toNat).length =
            (peer.result s.results.length n).toNat := by
        rw [List.length_take, List.length_drop, hbytes, hoffset]
        omega
      refine ⟨peer.result s.results.length n, _, _, rfl, hlength, hle, peer.result_int _ n, rfl, ?_,
        hbytes, ?_⟩
      · rw [Run.did, List.length_append, hlength, List.take_add, ← hmoved, hbytes, hoffset]
      · rw [Run.did, List.length_append, hlength, hoffset]
    · exact ⟨rfl, rfl, rfl⟩
  exact hexact.imp fun s h => h.1

/-- Reading into a byte array is exact. -/
theorem readsByteArray_exact (hlen : len < 2 ^ 31) {ba : ByteArray} (hba : Inv ba) :
    Exact (ReadsByteArray peer data ba len) len fun s =>
      s.moved = chunk data 0 s.moved.length ∧
        s.memory.position = ba.position + s.moved.length ∧
        (flat s.memory).bytes = overwrite (flat ba).bytes ba.position s.moved := by
  have hexact : Exact (ReadsByteArray peer data ba len) len fun s =>
      (s.moved = chunk data 0 s.moved.length ∧
        s.memory.position = ba.position + s.moved.length ∧
        (flat s.memory).bytes = overwrite (flat ba).bytes ba.position s.moved) ∧ Inv s.memory := by
    apply exact_of_call hlen
    · rintro s n ⟨⟨hmoved, hpos, hbytes⟩, hinv⟩ hn hleft
      by_cases hconn : peer.connected s.results.length
      · have hle := peer.answer_le s.results.length n
        obtain ⟨ba', hreceive, hinv', hpos', hbytes'⟩ := receive_spec hinv hn
          (chunk data s.moved.length (peer.answer s.results.length n).toNat)
          (by rw [chunk_length]; omega)
        refine ⟨peer.answer s.results.length n, ba',
          chunk data s.moved.length (peer.answer s.results.length n).toNat, ?_,
          chunk_length data _ _, hle,
          peer.answer_int _ n, rfl, ⟨?_, ?_, ?_⟩, hinv'⟩
        · simp only [readByteArray, hconn, not_true_eq_false, if_false, hreceive]
        · rw [Run.did, List.length_append, chunk_length, chunk_next hmoved]
        · rw [Run.did, hpos', hpos, List.length_append, Nat.add_assoc]
        · rw [Run.did, hbytes', hbytes, hpos]
          apply overwrite_overwrite
          rw [hba.flat_length]
          exact hba.position_le
      · refine ⟨-1, s.memory, [], ?_, rfl, by omega, by decide, rfl, ?_, hinv⟩
        · simp only [readByteArray, hconn, Bool.false_eq_true, not_false_eq_true, if_true]
        · simp only [Run.did, List.append_nil]
          exact ⟨hmoved, hpos, hbytes⟩
    · exact ⟨⟨rfl, rfl, (overwrite_nil _ _).symm⟩, hba⟩
  exact hexact.imp fun s h => h.1

/-! ## Writing from a `ByteArray` -/

/-- What holds in front of every call: the bytes behind the cursor were sent in order, and nothing
else was changed. -/
structure Sending (ba : ByteArray) (s : Run ByteArray) : Prop where
  inv : Inv s.memory
  moved_eq : s.moved = ((flat ba).bytes.drop ba.position).take s.moved.length
  position_eq : s.memory.position = ba.position + s.moved.length
  bytes_eq : (flat s.memory).bytes = (flat ba).bytes
  size_eq : s.memory.size = ba.size

theorem sending_first {ba : ByteArray} (hba : Inv ba) : Sending ba ⟨ba, [], []⟩ :=
  ⟨hba, by simp, rfl, rfl, rfl⟩

/-- A call that takes no byte. -/
theorem Sending.untaken {ba : ByteArray} {s : Run ByteArray} (h : Sending ba s) (r : Int) :
    Sending ba (s.did s.memory [] r) := by
  refine ⟨h.inv, ?_, ?_, h.bytes_eq, h.size_eq⟩
  · simpa only [Run.did, List.append_nil] using h.moved_eq
  · simpa only [Run.did, List.append_nil] using h.position_eq

/-- A call that takes `n` bytes moves the cursor behind them. -/
theorem Sending.taken {ba : ByteArray} {s : Run ByteArray} (h : Sending ba s) (r : Int) {n : Nat}
    (hn : s.memory.position + n ≤ s.memory.size) {taken : List UInt8} (hlength : taken.length = n)
    (htaken : taken = ((flat s.memory).bytes.drop s.memory.position).take n) :
    ∃ ba', setPosition (s.memory.position + n) s.memory = (.ok (), ba') ∧
      Sending ba (s.did ba' taken r) := by
  have hset := setPosition_eq h.inv (hn.trans h.inv.size_le)
  obtain ⟨ba', -, hset', hinv', -⟩ := setPosition_spec h.inv (hn.trans h.inv.size_le)
  rw [hset] at hset'
  cases hset'
  refine ⟨_, hset, hinv', ?_, ?_, ?_, ?_⟩
  · rw [Run.did, List.length_append, hlength, List.take_add, ← h.moved_eq, htaken, h.bytes_eq,
      h.position_eq, List.drop_drop]
  · rw [Run.did, List.length_append, hlength, ← Nat.add_assoc, ← h.position_eq]
  · rw [Run.did, ← h.bytes_eq]
    simp only [flat, max_eq_left hn]
  · rw [Run.did, ← h.size_eq]
    exact max_eq_left hn

/-- A call offers what is behind the cursor, up to `n` bytes of it. -/
theorem writeByteArray_spec (peer : Peer) {ba : ByteArray} {s : Run ByteArray} (h : Sending ba s)
    (n : Nat) :
    ∃ ba' bytes, writeByteArray peer s n =
        (.ok (peer.result s.results.length (min n (s.memory.size - s.memory.position))),
          s.did ba' bytes (peer.result s.results.length
            (min n (s.memory.size - s.memory.position)))) ∧
      bytes.length =
        (peer.result s.results.length (min n (s.memory.size - s.memory.position))).toNat ∧
      Sending ba (s.did ba' bytes
        (peer.result s.results.length (min n (s.memory.size - s.memory.position)))) := by
  set k := s.results.length with hk
  set offer := min n (s.memory.size - s.memory.position) with hoffer
  by_cases hconn : peer.connected k
  · rw [show peer.result k offer = peer.answer k offer from if_pos hconn]
    have hle := peer.answer_le k offer
    obtain ⟨iovs, hbuffers, hgather⟩ := getEnableReadBuffers_spec h.inv [] n
    have hlength : (((flat s.memory).bytes.drop s.memory.position).take n).length = offer := by
      rw [List.length_take, List.length_drop, h.inv.flat_length]
    by_cases hr : peer.answer k offer > 0
    · -- the bytes that are taken are in front of the end
      have htaken : (((flat s.memory).bytes.drop s.memory.position).take n).take
          (peer.answer k offer).toNat =
            ((flat s.memory).bytes.drop s.memory.position).take (peer.answer k offer).toNat := by
        rw [List.take_take, Nat.min_eq_left (by omega)]
      have hcount : ((((flat s.memory).bytes.drop s.memory.position).take n).take
          (peer.answer k offer).toNat).length = (peer.answer k offer).toNat := by
        rw [List.length_take, hlength]
        omega
      obtain ⟨ba', hset, hsending⟩ := h.taken (peer.answer k offer) (by omega) hcount htaken
      refine ⟨ba', _, ?_, hcount, hsending⟩
      simp only [writeByteArray, ← hk, hconn, not_true_eq_false, if_false, hbuffers, hgather,
        List.nil_append, hlength, if_pos hr, hset]
    · refine ⟨s.memory, [], ?_, by simp; omega, h.untaken _⟩
      simp only [writeByteArray, ← hk, hconn, not_true_eq_false, if_false, hbuffers, hgather,
        List.nil_append, hlength, if_neg hr]
  · rw [show peer.result k offer = -1 from if_neg hconn]
    refine ⟨s.memory, [], ?_, rfl, h.untaken _⟩
    simp only [writeByteArray, ← hk, hconn, Bool.false_eq_true, not_false_eq_true, if_true]

/-- The bytes that are left behind a call. -/
theorem Sending.avail_eq {ba : ByteArray} {s s' : Run ByteArray} {n : Nat} (h : Sending ba s)
    (h' : Sending ba s') (hmoved : s'.moved.length = s.moved.length + n) :
    s'.memory.size - s'.memory.position = s.memory.size - s.memory.position - n := by
  rw [h.size_eq, h'.size_eq, h.position_eq, h'.position_eq, hmoved]
  omega

/-- The loop takes any result for a transfer.  If it returns at a first result that is not positive,
then the results add up to less than it waits for. -/
theorem delivers_of_exact {ba : ByteArray} (hba : Inv ba) {Good : Run ByteArray → Prop}
    (h : Exact (WritesByteArray peer ba len) len Good) :
    Delivers peer 0 len (ba.size - ba.position) := by
  obtain ⟨ret, s', ms, ⟨fuel, hloop⟩, hms, -, -, hend⟩ := h
  rcases Nat.eq_zero_or_pos len with rfl | hlen
  · exact .done 0 _
  have hresults := results_of_loop Run.results (Sending ba)
    (fun s left => Delivers peer s.results.length left.toNat
      (s.memory.size - s.memory.position)) ?hcall ?hgo ?hend ?hback hloop (sending_first hba)
  case hcall =>
    intro s n hs
    obtain ⟨ba', bytes, hrun, -, hs'⟩ := writeByteArray_spec peer hs n
    exact ⟨_, _, hrun, rfl, hs'⟩
  case hgo =>
    intro r
    exact decide_eq_false (by omega)
  case hend =>
    intro s left hleft
    rw [Int.toNat_of_nonpos hleft]
    exact .done _ _
  case hback =>
    intro s s₁ left r hs hleft hrun hr hrest
    obtain ⟨ba', bytes, hrun', hbytes, hs'⟩ := writeByteArray_spec peer hs left.toNat
    rw [hrun] at hrun'
    obtain ⟨hresult, rfl⟩ := Prod.mk.inj hrun'
    rw [Except.ok.injEq] at hresult
    rw [← hresult] at hbytes hs' hrest
    rw [hs.avail_eq hs' (by rw [Run.did, List.length_append, hbytes])] at hrest
    refine .more (n := r.toNat) (by omega) (by omega) ?_ ?_
    · rw [← hresult, Int.toNat_of_nonneg hr.le]
    · rwa [Run.did, List.length_append, List.length_singleton,
        Int.toNat_sub'' hleft.le hr.le] at hrest
  obtain ⟨rs, hrs, hsum, hruns⟩ := hresults
  rcases hend with ⟨-, hall, -⟩ | ⟨hlt, r, hr, hall, -⟩
  · rw [hall, List.nil_append] at hrs
    apply hruns
    intro r hr
    rw [← hrs] at hr
    obtain ⟨m, hm, rfl⟩ := List.mem_map.mp hr
    exact_mod_cast hms m hm
  · rw [hall, List.nil_append] at hrs
    rw [← hrs, List.sum_append, List.sum_singleton, ← Nat.cast_list_sum] at hsum
    omega

/-- Without a failure the loop is as the others. -/
theorem exact_of_delivers (hlen : len < 2 ^ 31) {ba : ByteArray} (hba : Inv ba)
    (hdelivers : Delivers peer 0 len (ba.size - ba.position)) :
    Exact (WritesByteArray peer ba len) len (Sending ba) := by
  have hexact : Exact (WritesByteArray peer ba len) len fun s =>
      Sending ba s ∧ Delivers peer s.results.length (len - s.moved.length)
        (s.memory.size - s.memory.position) := by
    apply exact_of_call hlen
    · rintro s n ⟨hs, hrest⟩ hn hleft
      obtain ⟨ba', bytes, hrun, hbytes, hs'⟩ := writeByteArray_spec peer hs n
      rw [show len - s.moved.length = n by omega] at hrest
      cases hrest with
      | done => omega
      | @more _ _ _ m _ hm hresult hrest =>
          rw [hresult] at hrun hbytes hs'
          have hmoved : (s.did ba' bytes m).moved.length = s.moved.length + m := by
            rw [Run.did, List.length_append, hbytes, Int.toNat_natCast]
          have hle := peer.result_le s.results.length (min n (s.memory.size - s.memory.position))
          have hint := peer.result_int s.results.length (min n (s.memory.size - s.memory.position))
          rw [hresult] at hle hint
          refine ⟨m, ba', bytes, hrun, hbytes, by omega, hint, ?_, hs', ?_⟩
          · rw [stopsAtLength, decide_eq_false (by omega), decide_eq_false (by omega)]
          · rw [hs.avail_eq hs' hmoved, hmoved, Run.did, List.length_append,
              show len - (s.moved.length + m) = n - m by omega]
            exact hrest
    · exact ⟨sending_first hba, hdelivers⟩
  exact hexact.imp fun s h => h.1

end Specs

/-! ## The four functions -/

/-- Three of the functions transfer what they are to transfer on every stream.  The one that writes
from a `ByteArray` does so exactly if no call fails before all bytes are written. -/
theorem fixedSize_iff {len : Nat} {e : Entry} (peer : Peer) (data : Nat → UInt8)
    (hlen : len < 2 ^ 31) (hvalid : e.Valid len) :
    e.Transfers peer data len ↔ e.Condition peer len := by
  cases e with
  | readBuffer buffer => exact iff_of_true (readsBuffer_exact hlen buffer) trivial
  | readByteArray ba => exact iff_of_true (readsByteArray_exact hlen hvalid) trivial
  | writeBuffer buffer => exact iff_of_true (writesBuffer_exact hlen hvalid) trivial
  | writeByteArray ba =>
      constructor
      · exact delivers_of_exact hvalid
      · intro hdelivers
        exact (exact_of_delivers hlen hvalid hdelivers).imp fun s h =>
          ⟨h.moved_eq, h.position_eq, h.bytes_eq⟩

/-- A peer that is connected and takes up to two bytes at a time. -/
def twoAtATime : Peer where
  connected _ := true
  answer _ n := min n 2
  answer_le k n := min_le_left _ _
  answer_int k n := by omega

/-- A `ByteArray` that holds so many bytes, with the cursor in front of them. -/
def zeros (size : Nat) : ByteArray :=
  { (new (fun _ _ => 0) 4) with
    size := size
    capacity := 4
    nodes := [Node.new (fun _ => 0) 4, Node.new (fun _ => 0) 4] }

/-- The byte array of zeros is well formed. -/
theorem zeros_inv {size : Nat} (hsize : size ≤ 4) : Inv (zeros size) where
  base_pos := show 0 < 4 by decide
  node_size := by
    intro node hnode
    have hnode : node = Node.new (fun _ => 0) 4 := by simpa [zeros] using hnode
    rw [hnode]
    rfl
  nodes_bytes := rfl
  position_le := Nat.zero_le size
  size_le := hsize
  cur_eq := show (new (fun _ _ => 0) 4).cur = 0 / 4 from rfl

/-- Three bytes go out in two calls. -/
theorem fixedSize_iff_twoAtATime :
    (Entry.writeByteArray (zeros 3)).Transfers twoAtATime (fun _ => 0) 3 := by
  have hvalid : (Entry.writeByteArray (zeros 3)).Valid 3 := zeros_inv (by decide)
  refine (fixedSize_iff twoAtATime (fun _ => 0) (by decide) hvalid).mpr ?_
  exact .more (n := 2) (by decide) (by decide) rfl
    (.more (n := 1) (by decide) (by decide) rfl (.done 2 0))

/-- A peer that has closed the connection: every call returns an error. -/
def closedPeer : Peer where
  connected _ := true
  answer _ _ := -1
  answer_le k n := by omega
  answer_int k n := by decide

/-- One byte is to be written to a closed connection, and no round of the loop returns. -/
theorem not_transfers_closedPeer :
    (Entry.writeByteArray (zeros 1)).Valid 1 ∧
      ¬(Entry.writeByteArray (zeros 1)).Transfers closedPeer (fun _ => 0) 1 := by
  have hvalid : Inv (zeros 1) := zeros_inv (by decide)
  refine ⟨hvalid, fun h => ?_⟩
  cases delivers_of_exact hvalid h with
  | more hleft hn hresult hrest =>
      have hclosed : closedPeer.result 0 (min 1 ((zeros 1).size - (zeros 1).position)) = -1 := rfl
      rw [hclosed] at hresult
      omega

end FixedSize
end Tiger
