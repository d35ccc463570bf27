import Tiger.ByteArray.Views
import Tiger.Lib.Blocks

/-!
# Streams - compression into a list of buffers

This module embeds `ZlibStream` (`src/streams/zlib_stream.cc`): the loops of `encode` and `decode`,
`write` and `flush`, and the two functions that hand out what was written.

The library is arbitrary.  A call of `deflate` or `inflate` takes some of the bytes at `next_in`,
puts at most `avail_out` bytes at `next_out` and returns a code; what it does may depend on all
calls before it.  The stream keeps a record of the calls.  The loops take a bound on their rounds,
as a library that fills all the space it is offered keeps them running.

Main results:

- Theorem `round_spec`: one call of the library appends its bytes to the current buffer.
- Theorem `run_keeps`: without `Z_STREAM_ERROR` the buffers hold all bytes that the library
  emitted.
- Theorem `run_outcome`: a run returns codes, or uses up its rounds and has emitted as many bytes.
- Theorem `run_offers`: a run that returns `Z_OK` has offered every piece to the library.
- Theorem `written_spec`: what a run of writes leaves in the buffers, and that it ends.
-/

namespace Tiger
namespace Zlib

open Lib Tiger.ByteArray

/-! ## The library -/

/-- `Z_NO_FLUSH` and `Z_FINISH`. -/
inductive Flush
  | noFlush
  | finish
deriving DecidableEq

/-- `Z_OK` -/
def zOk : Int := 0

/-- `Z_STREAM_END` -/
def zStreamEnd : Int := 1

/-- `Z_NEED_DICT` -/
def zNeedDict : Int := 2

/-- `Z_STREAM_ERROR` -/
def zStreamError : Int := -2

/-- `Z_DATA_ERROR` -/
def zDataError : Int := -3

/-- `Z_MEM_ERROR` -/
def zMemError : Int := -4

/-- `Z_BUF_ERROR` -/
def zBufError : Int := -5

/-- What a call of `deflate` or `inflate` finds in `m_zstream`; `ended` is whether its state was
freed. -/
structure Request where
  nextIn : List UInt8
  availOut : Nat
  flush : Flush
  ended : Bool

/-- What such a call does: the number of bytes it takes, the bytes it emits, and its code. -/
structure Answer where
  consumed : Nat
  out : List UInt8
  code : Int
deriving DecidableEq

/-- The calls of a library, with their answers. -/
abbrev History := List (Request × Answer)

/-- All bytes that the library took, in order. -/
def takenBy (past : History) : List UInt8 := past.flatMap fun c => c.1.nextIn.take c.2.consumed

/-- All codes that the library returned, in order. -/
def codesOf (past : History) : List Int := past.map fun c => c.2.code

/-- `deflate` or `inflate`, behind the calls that were made. -/
structure Codec where
  answer : History → Request → Answer
  consumed_le : ∀ past q, (answer past q).consumed ≤ q.nextIn.length
  out_le : ∀ past q, (answer past q).out.length ≤ q.availOut

/-- The library of a stream, and what `malloc` hands out: `junk i` is the content of the `i`-th
block. -/
structure Library where
  deflate : Codec
  inflate : Codec
  junk : Nat → Nat → UInt8

/-- `z_stream`: the bytes at `next_in`, the space at `next_out`, whether `deflateEnd` or
`inflateEnd` was called, and the record of the calls. -/
structure ZStream where
  nextIn : List UInt8
  availOut : Nat
  ended : Bool
  calls : History

/-! ## The stream -/

/-- `struct iovec`: a block of `m_buff_size` bytes, and the number of bytes that are used. -/
structure Buffer where
  iovBase : List UInt8
  iovLen : Nat

/-- The bytes of a buffer that are used. -/
def Buffer.used (b : Buffer) : List UInt8 := b.iovBase.take b.iovLen

/-- The members of `ZlibStream`. -/
structure ZlibStream where
  encode : Bool
  buffSize : UInt32
  zstream : ZStream
  buffers : List Buffer

/-- Why a call does not return: its rounds are used up, or a `ByteArray` failed. -/
inductive Stop
  | rounds
  | failed (e : ByteArray.Failure)

/-- `ZlibStream(encode, buff_size)`, behind an `init` that succeeded. -/
def ZlibStream.create (encode : Bool) (buffSize : UInt32) : ZlibStream :=
  ⟨encode, buffSize, ⟨[], 0, false, []⟩, []⟩

namespace ZlibStream

/-- All bytes that the library emitted, in order. -/
def emitted (s : ZlibStream) : List UInt8 := s.zstream.calls.flatMap fun c => c.2.out

/-- All codes that the library returned, in order. -/
def codes (s : ZlibStream) : List Int := codesOf s.zstream.calls

/-- What the calls of the library found at `next_in`, in order. -/
def offered (s : ZlibStream) : List (List UInt8) := s.zstream.calls.map fun c => c.1.nextIn

/-- `ivc`, with the buffers in front of it: the last buffer if it has room, and a new one
otherwise. -/
def room (junk : Nat → Nat → UInt8) (s : ZlibStream) : List Buffer × Buffer :=
  let size := s.buffSize.toNat
  let vc : Buffer := ⟨(List.range size).map (junk s.buffers.length), 0⟩
  match s.buffers.getLast? with
  | none => (s.buffers, vc)
  | some back => if back.iovLen ≠ size then (s.buffers.dropLast, back) else (s.buffers, vc)

/-- The body of the inner loop: the code of the call, and the stream behind it. -/
def round (codec : Codec) (junk : Nat → Nat → UInt8) (flush : Flush) (s : ZlibStream) :
    Int × ZlibStream :=
  let front := (s.room junk).1
  let ivc := (s.room junk).2
  -- a `uint32_t` less a `size_t`, in an `unsigned int`
  let availOut := (((s.buffSize.toNat : Int) - ivc.iovLen) % 2 ^ 32).toNat
  let q : Request := ⟨s.zstream.nextIn, availOut, flush, s.zstream.ended⟩
  let a := codec.answer s.zstream.calls q
  let base := overwrite ivc.iovBase ivc.iovLen a.out
  let zstream : ZStream :=
    { s.zstream with
      nextIn := s.zstream.nextIn.drop a.consumed
      availOut := availOut - a.out.length
      calls := s.zstream.calls ++ [(q, a)] }
  let iovLen := if a.code = zStreamError then ivc.iovLen else s.buffSize.toNat - zstream.availOut
  (a.code, { s with zstream := zstream, buffers := front ++ [⟨base, iovLen⟩] })

/-- The inner loop.  It is left with `Z_STREAM_ERROR`, or with room in the current buffer. -/
def fill (codec : Codec) (junk : Nat → Nat → UInt8) (flush : Flush) :
    Nat → ZlibStream → Except Stop Int × ZlibStream
  | 0, s => (.error .rounds, s)
  | fuel + 1, s =>
      match s.round codec junk flush with
      | (code, s) =>
          if code = zStreamError then (.ok code, s)
          else if s.zstream.availOut = 0 then fill codec junk flush fuel s
          else (.ok zOk, s)

/-- The loop over the pieces of the input.  The length of a piece is an `unsigned int`. -/
def pieces (codec : Codec) (junk : Nat → Nat → UInt8) (fuel : Nat) (finish : Bool) :
    List (List UInt8) → ZlibStream → Except Stop Int × ZlibStream
  | [], s => (.ok zOk, s)
  | v :: vs, s =>
      let flush := if finish ∧ vs = [] then Flush.finish else .noFlush
      let nextIn := v.take (v.length % 2 ^ 32)
      match fill codec junk flush fuel
        { s with zstream := { s.zstream with nextIn := nextIn } } with
      | (.error e, s) => (.error e, s)
      | (.ok code, s) =>
          if code = zStreamError then (.ok code, s) else pieces codec junk fuel finish vs s

/-- `encode` and `decode`, which differ in the function of the library.  A count is a
`uint32_t`. -/
def transform (codec : Codec) (junk : Nat → Nat → UInt8) (fuel : Nat) (v : List (List UInt8))
    (finish : Bool) (s : ZlibStream) : Except Stop Int × ZlibStream :=
  let v := v.take (v.length % 2 ^ 32)
  match s.pieces codec junk fuel finish v with
  | (.error e, s) => (.error e, s)
  | (.ok code, s) =>
      if code = zStreamError then (.ok code, s)
      else if finish ∧ v ≠ [] then (.ok zOk, { s with zstream := { s.zstream with ended := true } })
      else (.ok zOk, s)

/-- `encode(v, len, finish)` if `m_encode` is set, and `decode(v, len, finish)` otherwise. -/
def code (lib : Library) (fuel : Nat) (v : List (List UInt8)) (finish : Bool) (s : ZlibStream) :
    Except Stop Int × ZlibStream :=
  if s.encode then s.transform lib.deflate lib.junk fuel v finish
  else s.transform lib.inflate lib.junk fuel v finish

/-- `write(buffer, len)` -/
def write (lib : Library) (fuel : Nat) (buffer : List UInt8) (s : ZlibStream) :
    Except Stop Int × ZlibStream :=
  s.code lib fuel [buffer] false

/-- The bytes of every region. -/
def regions (nodes : List Node) : List Iovec → Except Failure (List (List UInt8))
  | [] => .ok []
  | iov :: iovs =>
      match nodes[iov.block]? with
      | none => .error .nullNode
      | some node => do
          let bytes ← node.load iov.off iov.len
          let rest ← regions nodes iovs
          return bytes :: rest

/-- `write(ba, len)` -/
def writeByteArray (lib : Library) (fuel : Nat) (ba : ByteArray) (len : Nat) (s : ZlibStream) :
    Except Stop Int × ZlibStream :=
  match getEnableReadBuffers [] len ba with
  | (.error e, _) => (.error (.failed e), s)
  | (.ok (iovs, _), ba) =>
      match regions ba.nodes iovs with
      | .error e => (.error (.failed e), s)
      | .ok v => s.code lib fuel v false

/-- `flush()`, and `close()` -/
def flush (lib : Library) (fuel : Nat) (s : ZlibStream) : Except Stop Int × ZlibStream :=
  s.code lib fuel [[]] true

/-- `get_result()` -/
def getResult (s : ZlibStream) : List UInt8 := s.buffers.flatMap Buffer.used

/-- The loop of `get_byte_array`. -/
def writeBuffers : List Buffer → Op Unit
  | [], ba => (.ok (), ba)
  | b :: bs, ba =>
      match ByteArray.write b.used ba with
      | (.error e, ba) => (.error e, ba)
      | (.ok (), ba) => writeBuffers bs ba

/-- `get_byte_array()` -/
def getByteArray (junk : Nat → Nat → UInt8) (s : ZlibStream) : Except Failure Unit × ByteArray :=
  match writeBuffers s.buffers (ByteArray.new junk 4096) with
  | (.error e, ba) => (.error e, ba)
  | (.ok (), ba) => setPosition 0 ba

end ZlibStream

/-! ## Runs -/

/-- A call of a stream.  A `ByteArray` has its invariant. -/
inductive Call
  | write (buffer : List UInt8)
  | writeByteArray (ba : { ba : ByteArray // Inv ba }) (len : Nat)
  | flush

/-- What a call does. -/
def Call.apply (lib : Library) (fuel : Nat) (s : ZlibStream) : Call → Except Stop Int × ZlibStream
  | write buffer => s.write lib fuel buffer
  | writeByteArray ba len => s.writeByteArray lib fuel ba.1 len
  | flush => s.flush lib fuel

/-- `finish` -/
def Call.finish : Call → Bool
  | flush => true
  | _ => false

/-- `v`, the pieces of the input of a call. -/
def Call.vector : Call → List (List UInt8)
  | write buffer => [buffer]
  | writeByteArray ba len =>
      match getEnableReadBuffers [] len ba.1 with
      | (.ok (iovs, _), ba) =>
          match ZlibStream.regions ba.nodes iovs with
          | .ok v => v
          | .error _ => []
      | (.error _, _) => []
  | flush => [[]]

/-- What a call puts at `next_in`, one after the other. -/
def Call.offered (c : Call) : List (List UInt8) :=
  (c.vector.take (c.vector.length % 2 ^ 32)).map fun v => v.take (v.length % 2 ^ 32)

/-- Calls one after the other, and what they return. -/
def run (lib : Library) (fuel : Nat) : List Call → ZlibStream → Except Stop (List Int) × ZlibStream
  | [], s => (.ok [], s)
  | c :: cs, s =>
      match c.apply lib fuel s with
      | (.error e, s) => (.error e, s)
      | (.ok code, s) =>
          match run lib fuel cs s with
          | (.error e, s) => (.error e, s)
          | (.ok codes, s) => (.ok (code :: codes), s)

/-! ## Pieces -/

/-- The regions of a gathered text. -/
theorem regions_of_gather {nodes : List Node} {iovs : List Iovec} {bytes : List UInt8}
    (h : gather nodes iovs = .ok bytes) :
    ∃ v, ZlibStream.regions nodes iovs = .ok v ∧ v.flatten = bytes := by
  induction iovs generalizing bytes with
  | nil =>
      cases h
      exact ⟨[], rfl, rfl⟩
  | cons iov iovs ih =>
      rw [gather] at h
      rw [ZlibStream.regions]
      cases hnode : nodes[iov.block]? with
      | none =>
          rw [hnode] at h
          cases h
      | some node =>
          simp only [hnode, bind, Except.bind, pure, Except.pure] at h ⊢
          cases hload : node.load iov.off iov.len with
          | error e =>
              rw [hload] at h
              cases h
          | ok first =>
              rw [hload] at h
              cases hrest : gather nodes iovs with
              | error e =>
                  simp only [hrest] at h
                  cases h
              | ok rest =>
                  simp only [hrest, Except.ok.injEq] at h
                  obtain ⟨v, hv, rfl⟩ := ih hrest
                  exact ⟨first :: v, by simp [hv], by simp [← h]⟩

/-- A call on a `ByteArray` is one on the bytes behind its cursor. -/
theorem Call.vector_flatten (ba : { ba : ByteArray // Inv ba }) (len : Nat) :
    (Call.writeByteArray ba len).vector.flatten =
      ((flat ba.1).bytes.drop ba.1.position).take len := by
  obtain ⟨iovs, hbuffers, hgather⟩ := getEnableReadBuffers_spec ba.2 [] len
  obtain ⟨v, hregions, hflatten⟩ := regions_of_gather hgather
  rw [Call.vector, hbuffers]
  simp only [List.nil_append, hregions, hflatten]

/-- All calls come to `encode` or `decode`. -/
theorem Call.apply_eq (lib : Library) (fuel : Nat) (s : ZlibStream) (c : Call) :
    c.apply lib fuel s = s.code lib fuel c.vector c.finish := by
  cases c with
  | write buffer => rfl
  | writeByteArray ba len =>
      obtain ⟨iovs, hbuffers, hgather⟩ := getEnableReadBuffers_spec ba.2 [] len
      obtain ⟨v, hregions, -⟩ := regions_of_gather hgather
      rw [Call.apply, ZlibStream.writeByteArray, Call.vector, hbuffers]
      simp only [List.nil_append, hregions]
      rfl
  | flush => rfl

/-! ## Invariants -/

section Invariants

variable {lib : Library} {junk : Nat → Nat → UInt8} {P : ZlibStream → Prop}

/-- A call of the library keeps `P`, and so does what happens between two calls. -/
structure Kept (junk : Nat → Nat → UInt8) (P : ZlibStream → Prop) : Prop where
  round : ∀ codec flush s, P s → P (s.round codec junk flush).2
  nextIn : ∀ s nextIn, P s → P { s with zstream := { s.zstream with nextIn := nextIn } }
  ended : ∀ s, P s → P { s with zstream := { s.zstream with ended := true } }

/-- What a call of the library keeps, `fill` keeps. -/
theorem Kept.fill (h : Kept junk P) (codec : Codec) (flush : Flush) (fuel : Nat) {s : ZlibStream}
    (hs : P s) :
    P (s.fill codec junk flush fuel).2 := by
  induction fuel generalizing s with
  | zero => exact hs
  | succ fuel ih =>
      have hround := h.round codec flush s hs
      rw [ZlibStream.fill]
      simp only
      split
      · exact hround
      · split
        · exact ih hround
        · exact hround

/-- What a call of the library keeps, the loop over the pieces keeps. -/
theorem Kept.pieces (h : Kept junk P) (codec : Codec) (fuel : Nat) (finish : Bool)
    (vs : List (List UInt8))
    {s : ZlibStream} (hs : P s) : P (s.pieces codec junk fuel finish vs).2 := by
  induction vs generalizing s with
  | nil => exact hs
  | cons v vs ih =>
      have hfill := fun flush => h.fill codec flush fuel
        (h.nextIn s (v.take (v.length % 2 ^ 32)) hs)
      rw [ZlibStream.pieces]
      simp only
      split
      next s' hrun => exact (congrArg (P ∘ Prod.snd) hrun).mp (hfill _)
      next code s' hrun =>
        have hs' : P s' := (congrArg (P ∘ Prod.snd) hrun).mp (hfill _)
        split
        · exact hs'
        · exact ih hs'

/-- What a call of the library keeps, `encode` and `decode` keep. -/
theorem Kept.code (h : Kept lib.junk P) (fuel : Nat) (v : List (List UInt8)) (finish : Bool)
    {s : ZlibStream} (hs : P s) : P (s.code lib fuel v finish).2 := by
  have htransform : ∀ codec, P (s.transform codec lib.junk fuel v finish).2 := by
    intro codec
    have hpieces := h.pieces codec fuel finish (v.take (v.length % 2 ^ 32)) hs
    rw [ZlibStream.transform]
    simp only
    split
    next s' hrun => exact (congrArg (P ∘ Prod.snd) hrun).mp hpieces
    next code s' hrun =>
      have hs' : P s' := (congrArg (P ∘ Prod.snd) hrun).mp hpieces
      split_ifs
      · exact hs'
      · exact h.ended s' hs'
      · exact hs'
  rw [ZlibStream.code]
  split
  · exact htransform lib.deflate
  · exact htransform lib.inflate

/-- What a call of the library keeps, every call of the stream keeps. -/
theorem Kept.apply (h : Kept lib.junk P) (fuel : Nat) (c : Call) {s : ZlibStream} (hs : P s) :
    P (c.apply lib fuel s).2 := by
  rw [c.apply_eq]
  exact h.code fuel _ _ hs

/-- What calls of the library keep holds in every state of a run. -/
theorem Kept.run (h : Kept lib.junk P) (fuel : Nat) (calls : List Call) {s : ZlibStream}
    (hs : P s) : P (run lib fuel calls s).2 := by
  induction calls generalizing s with
  | nil => exact hs
  | cons c cs ih =>
      have happly := h.apply fuel c hs
      rw [Zlib.run]
      split
      next s' hrun => exact (congrArg (P ∘ Prod.snd) hrun).mp happly
      next code s' hrun =>
        have hrest := ih ((congrArg (P ∘ Prod.snd) hrun).mp happly)
        split
        next s' hrun => exact (congrArg (P ∘ Prod.snd) hrun).mp hrest
        next codes s' hrun => exact (congrArg (P ∘ Prod.snd) hrun).mp hrest

end Invariants

/-! ## One call of the library -/

section Rounds

variable {lib : Library} (codec : Codec) (junk : Nat → Nat → UInt8) {s : ZlibStream}

/-- The buffers as blocks of the bytes that are used. -/
def ZlibStream.blocks (s : ZlibStream) : List (List UInt8) := s.buffers.map Buffer.used

/-- Every buffer is a block of `m_buff_size` bytes and no more of them are used. -/
def Sized (s : ZlibStream) : Prop :=
  ∀ b ∈ s.buffers, b.iovBase.length = s.buffSize.toNat ∧ b.iovLen ≤ s.buffSize.toNat

theorem used_length {b : Buffer} {size : Nat} (h : b.iovBase.length = size ∧ b.iovLen ≤ size) :
    b.used.length = b.iovLen := by
  rw [Buffer.used, List.length_take, h.1, Nat.min_eq_left h.2]

/-- An overwrite inside a block. -/
theorem overwrite_length {bytes src : List UInt8} {off : Nat}
    (hfit : off + src.length ≤ bytes.length) : (overwrite bytes off src).length = bytes.length := by
  rw [overwrite, List.length_append, List.length_append, List.length_take, List.length_drop]
  omega

/-- The bytes up to the end of an overwrite. -/
theorem take_overwrite_end {bytes : List UInt8} (src : List UInt8) {off : Nat}
    (hoff : off ≤ bytes.length) :
    (overwrite bytes off src).take (off + src.length) = bytes.take off ++ src := by
  rw [List.take_add, take_overwrite_left src hoff, drop_overwrite src hoff]

/-- `ivc` is the current block of the buffers. -/
theorem room_spec (h : Sized s) :
    (s.room junk).1.map Buffer.used = (Blocks.current s.buffSize.toNat s.blocks).1 ∧
      (s.room junk).2.used = (Blocks.current s.buffSize.toNat s.blocks).2 ∧
      ∀ b ∈ (s.room junk).1 ++ [(s.room junk).2],
        b.iovBase.length = s.buffSize.toNat ∧ b.iovLen ≤ s.buffSize.toNat := by
  rw [ZlibStream.blocks]
  rcases List.eq_nil_or_concat' s.buffers with hnil | ⟨front, back, hconcat⟩
  · have hroom : s.room junk =
        ([], ⟨(List.range s.buffSize.toNat).map (junk s.buffers.length), 0⟩) := by
      simp [ZlibStream.room, hnil]
    rw [hroom, hnil]
    simp [Buffer.used, Blocks.current_nil]
  · have hback := h back (by simp [hconcat])
    have hmap : s.buffers.map Buffer.used = front.map Buffer.used ++ [back.used] := by
      simp [hconcat]
    by_cases hfull : back.iovLen = s.buffSize.toNat
    · have hroom : s.room junk =
          (s.buffers, ⟨(List.range s.buffSize.toNat).map (junk s.buffers.length), 0⟩) := by
        simp [ZlibStream.room, hconcat, hfull]
      rw [hroom, hmap, Blocks.current_concat_full ((used_length hback).trans hfull), ← hmap]
      refine ⟨rfl, by simp [Buffer.used], fun b hb => ?_⟩
      rcases List.mem_append.mp hb with hb | hb
      · exact h b hb
      · rw [List.mem_singleton.mp hb]
        exact ⟨by simp, Nat.zero_le _⟩
    · have hroom : s.room junk = (front, back) := by
        simp [ZlibStream.room, hconcat, hfull]
      rw [hroom, hmap, Blocks.current_concat_room (by rwa [used_length hback])]
      refine ⟨rfl, rfl, fun b hb => ?_⟩
      rw [← hconcat] at hb
      exact h b hb

/-- What a call of the library offers. -/
def ZlibStream.request (junk : Nat → Nat → UInt8) (flush : Flush) (s : ZlibStream) : Request :=
  ⟨s.zstream.nextIn, s.buffSize.toNat - (s.room junk).2.iovLen, flush, s.zstream.ended⟩

/-- What the library answers to it. -/
def ZlibStream.answer (codec : Codec) (junk : Nat → Nat → UInt8) (flush : Flush) (s : ZlibStream) :
    Answer :=
  codec.answer s.zstream.calls (s.request junk flush)

/-- The space that is offered is the rest of the buffer, as no buffer is over its end. -/
theorem round_eq (h : Sized s) (flush : Flush) :
    s.round codec junk flush =
      let ivc := (s.room junk).2
      let a := s.answer codec junk flush
      (a.code,
        { s with
          zstream :=
            { s.zstream with
              nextIn := s.zstream.nextIn.drop a.consumed
              availOut := s.buffSize.toNat - ivc.iovLen - a.out.length
              calls := s.zstream.calls ++ [(s.request junk flush, a)] }
          buffers := (s.room junk).1 ++ [⟨overwrite ivc.iovBase ivc.iovLen a.out,
            if a.code = zStreamError then ivc.iovLen else ivc.iovLen + a.out.length⟩] }) := by
  obtain ⟨-, -, hsized⟩ := room_spec junk h
  have hivc := (hsized (s.room junk).2 (by simp)).2
  have hsize := s.buffSize.toNat_lt
  have havail : (((s.buffSize.toNat : Int) - (s.room junk).2.iovLen) % 2 ^ 32).toNat =
      s.buffSize.toNat - (s.room junk).2.iovLen := by
    rw [Int.emod_eq_of_lt (by omega) (by omega)]
    omega
  have hle : (s.answer codec junk flush).out.length ≤ s.buffSize.toNat - (s.room junk).2.iovLen :=
    codec.out_le s.zstream.calls (s.request junk flush)
  have hlen : s.buffSize.toNat - (s.buffSize.toNat - (s.room junk).2.iovLen -
      (s.answer codec junk flush).out.length) =
        (s.room junk).2.iovLen + (s.answer codec junk flush).out.length := by
    omega
  simp only [ZlibStream.round, havail]
  rw [← hlen]
  rfl

/-- An answer of the library fits the room it was given. -/
theorem answer_out_le (h : Sized s) (flush : Flush) :
    (s.room junk).2.iovLen + (s.answer codec junk flush).out.length ≤ s.buffSize.toNat := by
  obtain ⟨-, -, hsized⟩ := room_spec junk h
  have hivc := (hsized (s.room junk).2 (by simp)).2
  have hle : (s.answer codec junk flush).out.length ≤ s.buffSize.toNat - (s.room junk).2.iovLen :=
    codec.out_le s.zstream.calls (s.request junk flush)
  omega

/-- A round keeps the buffers in their size. -/
theorem sized_round (h : Sized s) (flush : Flush) : Sized (s.round codec junk flush).2 := by
  obtain ⟨-, -, hsized⟩ := room_spec junk h
  have hivc := hsized (s.room junk).2 (by simp)
  have hout := answer_out_le codec junk h flush
  rw [round_eq codec junk h]
  intro b hb
  rcases List.mem_append.mp hb with hb | hb
  · exact hsized b (List.mem_append_left _ hb)
  · rw [List.mem_singleton.mp hb]
    constructor
    · rw [overwrite_length (by omega)]
      exact hivc.1
    · simp only
      split
      · exact hivc.2
      · exact hout

/-- A call without `Z_STREAM_ERROR` appends its bytes to the current block. -/
theorem round_spec (h : Sized s) {flush : Flush}
    (hcode : (s.answer codec junk flush).code ≠ zStreamError) :
    (s.round codec junk flush).2.blocks =
      Blocks.store s.buffSize.toNat s.blocks (s.answer codec junk flush).out := by
  obtain ⟨hfront, hcurrent, hsized⟩ := room_spec junk h
  have hivc := hsized (s.room junk).2 (by simp)
  rw [round_eq codec junk h, Blocks.store, ← hfront, ← hcurrent]
  simp only [ZlibStream.blocks, List.map_append, List.map_singleton, if_neg hcode]
  rw [Buffer.used, take_overwrite_end _ (by omega)]
  rfl

/-- Every call of the library is put on record. -/
theorem codes_round (s : ZlibStream) (flush : Flush) :
    (s.round codec junk flush).2.codes = s.codes ++ [(s.round codec junk flush).1] := by
  simp [ZlibStream.codes, codesOf, ZlibStream.round]

/-- The buffers hold what the library emitted, unless it returned `Z_STREAM_ERROR`. -/
structure Holds (size : Nat) (s : ZlibStream) : Prop where
  size_eq : s.buffSize.toNat = size
  sized : Sized s
  packed : zStreamError ∉ s.codes → Blocks.Packed size s.blocks
  flatten_eq : zStreamError ∉ s.codes → s.blocks.flatten = s.emitted

variable {size : Nat}

/-- A round keeps what the stream holds. -/
theorem holds_round (h : Holds size s) (flush : Flush) :
    Holds size (s.round codec junk flush).2 := by
  have hcode : (s.round codec junk flush).1 = (s.answer codec junk flush).code := by
    rw [round_eq codec junk h.sized]
  have hsplit : zStreamError ∉ (s.round codec junk flush).2.codes →
      zStreamError ∉ s.codes ∧ (s.answer codec junk flush).code ≠ zStreamError := by
    intro hnot
    rw [codes_round, hcode, List.mem_append, List.mem_singleton, not_or] at hnot
    exact ⟨hnot.1, Ne.symm hnot.2⟩
  refine ⟨h.size_eq, sized_round codec junk h.sized flush, fun hnot => ?_, fun hnot => ?_⟩
  · obtain ⟨hnot, hcode⟩ := hsplit hnot
    rw [round_spec codec junk h.sized hcode, h.size_eq]
    apply Blocks.packed_store (h.packed hnot)
    have hout := answer_out_le codec junk h.sized flush
    obtain ⟨-, hcurrent, hsized⟩ := room_spec junk h.sized
    rw [← h.size_eq, ← hcurrent, used_length (hsized _ (by simp))]
    omega
  · obtain ⟨hnot, hcode⟩ := hsplit hnot
    rw [round_spec codec junk h.sized hcode, h.size_eq, Blocks.flatten_store (h.packed hnot),
      h.flatten_eq hnot, round_eq codec junk h.sized]
    simp [ZlibStream.emitted]

/-- What the stream holds is kept by every call. -/
theorem kept_holds : Kept junk (Holds size) :=
  ⟨fun codec flush _ h => holds_round codec junk h flush,
    fun _ _ h => ⟨h.size_eq, h.sized, h.packed, h.flatten_eq⟩,
    fun _ h => ⟨h.size_eq, h.sized, h.packed, h.flatten_eq⟩⟩

theorem holds_create (encode : Bool) (buffSize : UInt32) :
    Holds buffSize.toNat (ZlibStream.create encode buffSize) :=
  ⟨rfl, by simp [Sized, ZlibStream.create], fun _ => Blocks.packed_nil, fun _ => rfl⟩

/-- Without `Z_STREAM_ERROR` the buffers of a run hold all bytes that the library emitted. -/
theorem run_keeps (fuel : Nat) (calls : List Call) (encode : Bool) (buffSize : UInt32) :
    Holds buffSize.toNat (run lib fuel calls (ZlibStream.create encode buffSize)).2 :=
  (kept_holds lib.junk).run fuel calls (holds_create encode buffSize)

/-- The buffer that a call works on has room. -/
theorem room_lt (h : Sized s) (hsize : 0 < s.buffSize.toNat) :
    (s.room junk).2.iovLen < s.buffSize.toNat := by
  rw [ZlibStream.room]
  split
  next => exact hsize
  next back hlast =>
    split
    next hne => exact lt_of_le_of_ne (h back (List.mem_of_getLast? hlast)).2 hne
    next => exact hsize

/-- A call that fills the buffer has emitted a byte. -/
theorem emitted_round (h : Sized s) (hsize : 0 < s.buffSize.toNat) (flush : Flush)
    (hfull : (s.round codec junk flush).2.zstream.availOut = 0) :
    s.emitted.length < (s.round codec junk flush).2.emitted.length := by
  have hroom := room_lt junk h hsize
  rw [round_eq codec junk h] at hfull ⊢
  simp only at hfull
  simp only [ZlibStream.emitted, List.flatMap_append, List.flatMap_singleton, List.length_append]
  omega

end Rounds

/-! ## How calls end -/

section Outcomes

variable {s s' : ZlibStream} {size fuel : Nat}

/-- How a call ends.  The code that it returns is `Z_STREAM_ERROR` exactly if one of its calls of
the library returned this; a call that uses up its rounds has emitted as many bytes, if the buffers
are not empty. -/
inductive Outcome (size fuel : Nat) (s s' : ZlibStream) : Except Stop Int → Prop
  | rounds (hemitted : 0 < size → fuel ≤ s'.emitted.length) :
      Outcome size fuel s s' (.error .rounds)
  | streamError {cs : List Int} (hcodes : s'.codes = s.codes ++ cs) (hmem : zStreamError ∈ cs) :
      Outcome size fuel s s' (.ok zStreamError)
  | ok {cs : List Int} (hcodes : s'.codes = s.codes ++ cs) (hnot : zStreamError ∉ cs) :
      Outcome size fuel s s' (.ok zOk)

/-- One call behind calls without `Z_STREAM_ERROR`. -/
theorem Outcome.after {s₁ : ZlibStream} {r : Except Stop Int} (h : Outcome size fuel s₁ s' r)
    {cs : List Int} (hcodes : s₁.codes = s.codes ++ cs) (hnot : zStreamError ∉ cs) :
    Outcome size fuel s s' r := by
  cases h with
  | rounds hemitted => exact .rounds hemitted
  | streamError hcodes' hmem =>
      rw [hcodes, List.append_assoc] at hcodes'
      exact .streamError hcodes' (List.mem_append_right _ hmem)
  | ok hcodes' hnot' =>
      rw [hcodes, List.append_assoc] at hcodes'
      exact .ok hcodes' (by simp [hnot, hnot'])

/-- An outcome with some fuel is one with less. -/
theorem Outcome.mono {fuel' : Nat} {r : Except Stop Int} (h : Outcome size fuel' s s' r)
    (hle : 0 < size → fuel ≤ fuel') : Outcome size fuel s s' r := by
  cases h with
  | rounds hemitted => exact .rounds fun hsize => (hle hsize).trans (hemitted hsize)
  | streamError hcodes hmem => exact .streamError hcodes hmem
  | ok hcodes hnot => exact .ok hcodes hnot

/-- The loop ends with room in the buffer or with an error, and every round that goes on emits a
byte. -/
theorem fill_outcome (codec : Codec) (junk : Nat → Nat → UInt8) (fuel : Nat) (h : Holds size s)
    (flush : Flush) :
    Outcome size (s.emitted.length + fuel) s (s.fill codec junk flush fuel).2
      (s.fill codec junk flush fuel).1 := by
  induction fuel generalizing s with
  | zero => exact .rounds fun _ => le_rfl
  | succ fuel ih =>
      have hcodes := codes_round codec junk s flush
      have hround := holds_round codec junk h flush
      have hemitted := fun hsize => emitted_round codec junk h.sized hsize flush
      rw [ZlibStream.fill]
      generalize s.round codec junk flush = r at hcodes hround hemitted
      obtain ⟨code, s₁⟩ := r
      simp only at hcodes hround hemitted ⊢
      by_cases hcode : code = zStreamError
      · rw [if_pos hcode]
        rw [hcode] at hcodes ⊢
        exact .streamError hcodes (List.mem_singleton_self _)
      · have hnot : zStreamError ∉ [code] := by
          rw [List.mem_singleton]
          exact Ne.symm hcode
        rw [if_neg hcode]
        by_cases hfull : s₁.zstream.availOut = 0
        · rw [if_pos hfull]
          refine ((ih hround).mono fun hsize => ?_).after hcodes hnot
          have hlt := hemitted (h.size_eq ▸ hsize) hfull
          omega
        · rw [if_neg hfull]
          exact .ok hcodes hnot

/-- The loop over the pieces ends with `Z_OK`, with `Z_STREAM_ERROR`, or when the fuel is used up.
-/
theorem pieces_outcome (codec : Codec) (junk : Nat → Nat → UInt8) (fuel : Nat) (h : Holds size s)
    (finish : Bool) (vs : List (List UInt8)) :
    Outcome size fuel s (s.pieces codec junk fuel finish vs).2
      (s.pieces codec junk fuel finish vs).1 := by
  induction vs generalizing s with
  | nil => exact .ok (List.append_nil _).symm List.not_mem_nil
  | cons v vs ih =>
      have hnext := (kept_holds junk).nextIn s (v.take (v.length % 2 ^ 32)) h
      have hfill := fun flush => (fill_outcome codec junk fuel hnext
        flush).mono fun _ => Nat.le_add_left fuel _
      have hholds := fun flush => (kept_holds junk).fill codec flush fuel hnext
      rw [ZlibStream.pieces]
      simp only
      generalize (if finish = true ∧ vs = [] then Flush.finish else Flush.noFlush) = flush
      have hfill := hfill flush
      have hholds := hholds flush
      generalize ZlibStream.fill codec junk flush fuel _ = r at hfill hholds
      obtain ⟨ret, s₁⟩ := r
      cases hfill with
      | rounds hemitted => exact .rounds hemitted
      | streamError hcodes hmem => exact .streamError hcodes hmem
      | ok hcodes hnot => exact (ih hholds).after hcodes hnot

/-- `encode` and `decode` end with `Z_OK`, with `Z_STREAM_ERROR`, or when the fuel is used up. -/
theorem code_outcome (lib : Library) (fuel : Nat) (h : Holds size s) (v : List (List UInt8))
    (finish : Bool) :
    Outcome size fuel s (s.code lib fuel v finish).2 (s.code lib fuel v finish).1 := by
  have htransform : ∀ codec, Outcome size fuel s (s.transform codec lib.junk fuel v finish).2
      (s.transform codec lib.junk fuel v finish).1 := by
    intro codec
    have hpieces := pieces_outcome codec lib.junk fuel h finish
      (v.take (v.length % 2 ^ 32))
    rw [ZlibStream.transform]
    simp only
    generalize ZlibStream.pieces codec lib.junk fuel finish _ s = r at hpieces
    obtain ⟨ret, s₁⟩ := r
    cases hpieces with
    | rounds hemitted => exact .rounds hemitted
    | streamError hcodes hmem => exact .streamError hcodes hmem
    | ok hcodes hnot =>
        simp only
        rw [if_neg (by decide)]
        split
        · exact .ok hcodes hnot
        · exact .ok hcodes hnot
  rw [ZlibStream.code]
  split
  · exact htransform lib.deflate
  · exact htransform lib.inflate

/-- A call returns a code or uses up its rounds. -/
theorem apply_outcome (lib : Library) (fuel : Nat) (h : Holds size s) (c : Call) :
    Outcome size fuel s (c.apply lib fuel s).2 (c.apply lib fuel s).1 := by
  rw [c.apply_eq]
  exact code_outcome lib fuel h _ _

/-- How a run of `n` calls ends: all calls return `Z_OK` exactly if the library never returned
`Z_STREAM_ERROR`. -/
inductive RunOutcome (size fuel n : Nat) (s s' : ZlibStream) : Except Stop (List Int) → Prop
  | rounds (hemitted : 0 < size → fuel ≤ s'.emitted.length) :
      RunOutcome size fuel n s s' (.error .rounds)
  | ok {results cs : List Int} (hlength : results.length = n) (hcodes : s'.codes = s.codes ++ cs)
      (hiff : (∀ r ∈ results, r = zOk) ↔ zStreamError ∉ cs) :
      RunOutcome size fuel n s s' (.ok results)

/-- Every call of a run ends with `Z_OK`, with `Z_STREAM_ERROR`, or when the fuel is used up. -/
theorem run_outcome (lib : Library) (fuel : Nat) (h : Holds size s) (calls : List Call) :
    RunOutcome size fuel calls.length s (run lib fuel calls s).2 (run lib fuel calls s).1 := by
  induction calls generalizing s with
  | nil => exact .ok rfl (List.append_nil _).symm (by simp)
  | cons c cs ih =>
      have happly := apply_outcome lib fuel h c
      have hholds := (kept_holds lib.junk).apply fuel c h
      rw [run]
      generalize c.apply lib fuel s = r at happly hholds
      obtain ⟨ret, s₁⟩ := r
      have hrest := ih hholds
      cases happly with
      | rounds hemitted => exact .rounds hemitted
      | @streamError first hcodes hmem =>
          simp only at hrest hcodes ⊢
          generalize run lib fuel cs s₁ = r at hrest
          obtain ⟨rets, s₂⟩ := r
          cases hrest with
          | rounds hemitted => exact .rounds hemitted
          | @ok results rest hlength hcodes' hiff =>
              simp only at hcodes' ⊢
              rw [hcodes, List.append_assoc] at hcodes'
              refine .ok (by simp [hlength]) hcodes' (iff_of_false ?_ ?_)
              · intro hall
                exact absurd (hall zStreamError List.mem_cons_self) (by decide)
              · exact not_not_intro (List.mem_append_left _ hmem)
      | @ok first hcodes hnot =>
          simp only at hrest hcodes ⊢
          generalize run lib fuel cs s₁ = r at hrest
          obtain ⟨rets, s₂⟩ := r
          cases hrest with
          | rounds hemitted => exact .rounds hemitted
          | @ok results rest hlength hcodes' hiff =>
              simp only at hcodes' ⊢
              rw [hcodes, List.append_assoc] at hcodes'
              refine .ok (by simp [hlength]) hcodes' ?_
              rw [List.forall_mem_cons, List.mem_append, not_or, ← hiff]
              exact and_congr (iff_of_true rfl hnot) Iff.rfl

/-- The calls of the library in the first part of a run. -/
theorem codes_prefix (lib : Library) (fuel : Nat) (s : ZlibStream) (first rest : List Call) :
    (run lib fuel first s).2.codes <+: (run lib fuel (first ++ rest) s).2.codes := by
  have hkept : ∀ codes : List Int, Kept lib.junk fun s => codes <+: s.codes := by
    intro codes
    refine ⟨fun codec flush s h => ?_, fun _ _ h => h, fun _ h => h⟩
    rw [codes_round]
    exact h.trans (List.prefix_append _ _)
  induction first generalizing s with
  | nil => exact (hkept _).run fuel rest (List.prefix_refl _)
  | cons c cs ih =>
      rw [List.cons_append, run, run]
      generalize c.apply lib fuel s = r
      obtain ⟨ret, s₁⟩ := r
      cases ret with
      | error e => exact List.prefix_refl _
      | ok code =>
          have hrest := ih (s := s₁)
          simp only
          generalize run lib fuel cs s₁ = r, run lib fuel (cs ++ rest) s₁ = r' at hrest
          obtain ⟨rets, s₂⟩ := r
          obtain ⟨rets', s₃⟩ := r'
          cases rets <;> cases rets' <;> exact hrest

end Outcomes

/-! ## What was offered -/

section Offers

variable {s s₁ s' : ZlibStream} {vs ws : List (List UInt8)}

/-- Between two states the pieces were offered to the library, one after the other. -/
def Offers (s s' : ZlibStream) (vs : List (List UInt8)) : Prop :=
  ∃ more, s'.offered = s.offered ++ more ∧ vs.Sublist more

theorem Offers.nil (s : ZlibStream) : Offers s s [] :=
  ⟨[], (List.append_nil _).symm, List.Sublist.refl _⟩

/-- What is offered comes one behind the other. -/
theorem Offers.trans (h : Offers s s₁ vs) (h' : Offers s₁ s' ws) : Offers s s' (vs ++ ws) := by
  obtain ⟨first, hfirst, hvs⟩ := h
  obtain ⟨second, hsecond, hws⟩ := h'
  exact ⟨first ++ second, by rw [hsecond, hfirst, List.append_assoc], hvs.append hws⟩

theorem offers_round (codec : Codec) (junk : Nat → Nat → UInt8) (s : ZlibStream) (flush : Flush) :
    Offers s (s.round codec junk flush).2 [s.zstream.nextIn] :=
  ⟨[s.zstream.nextIn], by simp [ZlibStream.offered, ZlibStream.round], List.Sublist.refl _⟩

/-- The first call of the loop is offered what is at `next_in`. -/
theorem fill_offers {codec : Codec} {junk : Nat → Nat → UInt8} {flush : Flush} {fuel : Nat}
    {code : Int} (h : s.fill codec junk flush fuel = (.ok code, s')) :
    Offers s s' [s.zstream.nextIn] := by
  induction fuel generalizing s with
  | zero => cases h
  | succ fuel ih =>
      have hround := offers_round codec junk s flush
      rw [ZlibStream.fill] at h
      generalize s.round codec junk flush = r at h hround
      obtain ⟨first, s₁⟩ := r
      simp only at h
      split at h
      · cases h
        exact hround
      · split at h
        · obtain ⟨more, hmore, -⟩ := ih h
          obtain ⟨own, hown, hsub⟩ := hround
          exact ⟨own ++ more, by rw [hmore, hown, List.append_assoc],
            hsub.trans (List.sublist_append_left own more)⟩
        · cases h
          exact hround

/-- The loop over the pieces offers each of them. -/
theorem pieces_offers {codec : Codec} {junk : Nat → Nat → UInt8} {fuel : Nat} {finish : Bool}
    {code : Int} (h : s.pieces codec junk fuel finish vs = (.ok code, s'))
    (hcode : code ≠ zStreamError) : Offers s s' (vs.map fun v => v.take (v.length % 2 ^ 32)) := by
  induction vs generalizing s with
  | nil =>
      cases h
      exact .nil _
  | cons v vs ih =>
      rw [ZlibStream.pieces] at h
      simp only at h
      split at h
      next => cases h
      next first s₁ hfill =>
        split at h
        next hfirst =>
          cases h
          exact absurd hfirst hcode
        next => exact (fill_offers hfill).trans (ih h)

/-- A call that succeeds offers its text. -/
theorem apply_offers {lib : Library} {fuel : Nat} {c : Call}
    (h : c.apply lib fuel s = (.ok zOk, s')) : Offers s s' c.offered := by
  have htransform : ∀ codec, s.transform codec lib.junk fuel c.vector c.finish = (.ok zOk, s') →
      Offers s s' c.offered := by
    intro codec hrun
    rw [ZlibStream.transform] at hrun
    simp only at hrun
    split at hrun
    next => cases hrun
    next code s₁ hpieces =>
      split at hrun
      next hcode =>
        rw [hcode] at hrun
        cases hrun
      next hcode =>
        have hoffers := pieces_offers hpieces hcode
        split at hrun
        · cases hrun
          exact hoffers
        · cases hrun
          exact hoffers
  rw [c.apply_eq, ZlibStream.code] at h
  split at h
  · exact htransform lib.deflate h
  · exact htransform lib.inflate h

/-- A run that returns `Z_OK` has offered every piece to the library, in order. -/
theorem run_offers {lib : Library} {fuel : Nat} {calls : List Call} {results : List Int}
    (h : run lib fuel calls s = (.ok results, s')) (hok : ∀ r ∈ results, r = zOk) :
    Offers s s' (calls.flatMap Call.offered) := by
  induction calls generalizing s results with
  | nil =>
      cases h
      exact .nil _
  | cons c cs ih =>
      rw [run] at h
      split at h
      next => cases h
      next code s₁ happly =>
        split at h
        next => cases h
        next codes s₂ hrest =>
          cases h
          obtain ⟨hcode, hcodes⟩ := List.forall_mem_cons.mp hok
          rw [hcode] at happly
          exact (apply_offers happly).trans (ih hrest hcodes)

end Offers

/-! ## What was written -/

/-- Writing buffers at the end of a `ByteArray`. -/
theorem writeBuffers_spec (bs : List Buffer) {ba : ByteArray} (h : Inv ba)
    (hend : ba.position = ba.size) :
    ∃ ba', ZlibStream.writeBuffers bs ba = (.ok (), ba') ∧ Inv ba' ∧
      (flat ba').bytes = (flat ba).bytes ++ bs.flatMap Buffer.used := by
  induction bs generalizing ba with
  | nil => exact ⟨ba, rfl, h, by simp⟩
  | cons b bs ih =>
      obtain ⟨ba₁, hwrite, hinv, -, -, hpos, hbytes⟩ := write_spec h b.used
      rw [hend, ← h.flat_length, overwrite_at_end] at hbytes
      have hend₁ : ba₁.position = ba₁.size := by
        rw [hpos, ← hinv.flat_length, hbytes, List.length_append, h.flat_length, hend]
      obtain ⟨ba', hrest, hinv', hbytes'⟩ := ih hinv hend₁
      refine ⟨ba', ?_, hinv', ?_⟩
      · rw [ZlibStream.writeBuffers, hwrite]
        exact hrest
      · rw [hbytes', hbytes, List.flatMap_cons, List.append_assoc]

/-- A `ByteArray` that holds the bytes of the buffers, with its cursor in front of them. -/
theorem getByteArray_spec (junk : Nat → Nat → UInt8) (s : ZlibStream) :
    ∃ ba, s.getByteArray junk = (.ok (), ba) ∧ Inv ba ∧ ba.position = 0 ∧
      (flat ba).bytes = s.getResult := by
  obtain ⟨ba, hwrite, hinv, hbytes⟩ := writeBuffers_spec s.buffers
    (inv_new junk (show 0 < 4096 by decide)) rfl
  obtain ⟨ba', extra, hset, hinv', -, -, hpos, -, hextra, hbytes'⟩ :=
    setPosition_spec hinv (Nat.zero_le _)
  rw [Nat.zero_sub, List.length_eq_zero_iff] at hextra
  refine ⟨ba', ?_, hinv', hpos, ?_⟩
  · rw [ZlibStream.getByteArray, hwrite]
    exact hset
  · rw [hbytes', hextra, List.append_nil, hbytes]
    simp [flat, ByteArray.new, ZlibStream.getResult]

/-- The buffers of a stream: all but the last are full, none is over `size`, and the two functions
that hand out their bytes hand out what the library emitted. -/
structure Written (size : Nat) (s : ZlibStream) : Prop where
  full : ∀ b ∈ s.buffers.dropLast, b.iovLen = size
  fits : ∀ b ∈ s.buffers, b.iovBase.length = size ∧ b.iovLen ≤ size
  result_eq : s.getResult = s.emitted
  byteArray : ∀ junk, ∃ ba, s.getByteArray junk = (.ok (), ba) ∧ Inv ba ∧ ba.position = 0 ∧
    (flat ba).bytes = s.emitted

/-- A stream without an error has written what it holds. -/
theorem Holds.written {size : Nat} {s : ZlibStream} (h : Holds size s)
    (hcodes : zStreamError ∉ s.codes) : Written size s := by
  have hresult : s.getResult = s.emitted := by
    rw [← h.flatten_eq hcodes, ZlibStream.getResult, ZlibStream.blocks, List.flatMap_def]
  have hsized : ∀ b ∈ s.buffers, b.iovBase.length = size ∧ b.iovLen ≤ size :=
    h.size_eq ▸ h.sized
  refine ⟨fun b hb => ?_, hsized, hresult, fun junk => ?_⟩
  · rw [← used_length (hsized b (List.mem_of_mem_dropLast hb))]
    apply (h.packed hcodes).full
    rw [ZlibStream.blocks, ← List.map_dropLast]
    exact List.mem_map_of_mem hb
  · rw [← hresult]
    exact getByteArray_spec junk s

/-- A run of writes and flushes in which the library emits finitely many bytes and never returns
`Z_STREAM_ERROR`: its buffers hold what was emitted at any time, and it ends, with every piece of
its input offered to the library. -/
theorem written_spec (lib : Library) (encode : Bool) {buffSize : UInt32}
    (hsize : 1 ≤ buffSize.toNat) (calls : List Call)
    (hfinite : ∃ most, ∀ fuel,
      (run lib fuel calls (ZlibStream.create encode buffSize)).2.emitted.length ≤ most)
    (hcodes : ∀ fuel,
      zStreamError ∉ (run lib fuel calls (ZlibStream.create encode buffSize)).2.codes) :
    (∀ fuel i, Written buffSize.toNat
      (run lib fuel (calls.take i) (ZlibStream.create encode buffSize)).2) ∧
    ∃ least, ∀ fuel ≥ least,
      (run lib fuel calls (ZlibStream.create encode buffSize)).1 =
        .ok (List.replicate calls.length zOk) ∧
      (calls.flatMap Call.offered).Sublist
        (run lib fuel calls (ZlibStream.create encode buffSize)).2.offered := by
  constructor
  · intro fuel i
    have hcut := codes_prefix lib fuel (ZlibStream.create encode buffSize) (calls.take i)
      (calls.drop i)
    rw [List.take_append_drop] at hcut
    exact (run_keeps fuel (calls.take i) encode buffSize).written
      fun hmem => hcodes fuel (hcut.subset hmem)
  · obtain ⟨most, hmost⟩ := hfinite
    refine ⟨most + 1, fun fuel hfuel => ?_⟩
    have houtcome := run_outcome lib fuel (holds_create encode buffSize) calls
    have hoffers := fun s' results => @run_offers (ZlibStream.create encode buffSize) s' lib fuel
      calls results
    specialize hcodes fuel
    specialize hmost fuel
    generalize run lib fuel calls (ZlibStream.create encode buffSize) = r at *
    obtain ⟨rets, s'⟩ := r
    cases houtcome with
    | rounds hemitted => exact absurd ((hemitted hsize).trans hmost) (by omega)
    | @ok results cs hlength hcodes' hiff =>
        have hnot : zStreamError ∉ cs := by
          intro hmem
          rw [hcodes'] at hcodes
          exact hcodes (List.mem_append_right _ hmem)
        obtain ⟨more, hmore, hsub⟩ := hoffers s' results rfl (hiff.mpr hnot)
        refine ⟨congrArg Except.ok (List.eq_replicate_iff.mpr ⟨hlength, hiff.mpr hnot⟩), ?_⟩
        rw [hmore]
        exact hsub

/-! ## A library -/

/-- The raw stream of one letter. -/
def letter : List UInt8 := [0x4b, 0x04, 0x00]

/-- The letter is known from the second byte on. -/
def letterOut (past : History) (q : Request) : List UInt8 :=
  if (takenBy past).length < 2 ∧ 2 ≤ (takenBy past ++ q.nextIn).length then [97] else []

/-- The library of letters puts out at most one byte. -/
theorem letterOut_length_le (past : History) (q : Request) : (letterOut past q).length ≤ 1 := by
  rw [letterOut]
  split
  · exact le_rfl
  · exact Nat.zero_le 1

/-- The code of a call that is not behind the end. -/
def letterCode (q : Request) : Int := if q.nextIn = [] then zBufError else zOk

/-- `inflate` on a raw stream of this letter, and on what is none. -/
def inflateLetter : Codec where
  answer past q :=
    if q.ended = true then ⟨0, [], zStreamError⟩
    else if zStreamEnd ∈ codesOf past then ⟨0, [], zStreamEnd⟩
    else if zDataError ∈ codesOf past then ⟨0, [], zDataError⟩
    else if q.availOut = 0 then ⟨0, [], zBufError⟩
    else if letter <+: takenBy past ++ q.nextIn then
      ⟨letter.length - (takenBy past).length, letterOut past q, zStreamEnd⟩
    else if takenBy past ++ q.nextIn <+: letter then
      ⟨q.nextIn.length, letterOut past q, letterCode q⟩
    else ⟨0, [], zDataError⟩
  consumed_le past q := by
    split_ifs with _ _ _ _ hwhole
    · exact Nat.zero_le _
    · exact Nat.zero_le _
    · exact Nat.zero_le _
    · exact Nat.zero_le _
    · have hle := hwhole.length_le
      rw [List.length_append] at hle
      simp only
      omega
    · exact le_rfl
    · exact Nat.zero_le _
  out_le past q := by
    have hout := letterOut_length_le past q
    split_ifs with _ _ _ hroom
    · exact Nat.zero_le _
    · exact Nat.zero_le _
    · exact Nat.zero_le _
    · exact Nat.zero_le _
    · exact hout.trans (Nat.one_le_iff_ne_zero.mpr hroom)
    · exact hout.trans (Nat.one_le_iff_ne_zero.mpr hroom)
    · exact Nat.zero_le _

/-- A stream that reads this, and its writes. -/
def letterLibrary : Library := ⟨inflateLetter, inflateLetter, fun _ _ => 0⟩

def letterCalls : List Call := [.write letter, .flush]

/-- The library of letters with a buffer of one byte. -/
theorem written_spec_letter :
    (∀ fuel i, Written (1 : UInt32).toNat
      (run letterLibrary fuel (letterCalls.take i) (ZlibStream.create false 1)).2) ∧
    ∃ least, ∀ fuel ≥ least,
      (run letterLibrary fuel letterCalls (ZlibStream.create false 1)).1 =
        .ok (List.replicate letterCalls.length zOk) ∧
      (letterCalls.flatMap Call.offered).Sublist
        (run letterLibrary fuel letterCalls (ZlibStream.create false 1)).2.offered := by
  -- the letter fills the first buffer, so two rounds are needed
  have hmore : ∀ fuel,
      (run letterLibrary (fuel + 2) letterCalls (ZlibStream.create false 1)).2.zstream.calls.map
        Prod.snd = [⟨3, [97], 1⟩, ⟨0, [], 1⟩, ⟨0, [], 1⟩] := fun _ => rfl
  apply written_spec letterLibrary false (by decide) letterCalls
  · refine ⟨1, fun fuel => ?_⟩
    match fuel with
    | 0 => decide
    | 1 => decide
    | fuel + 2 =>
        have hemitted := congrArg (List.flatMap Answer.out) (hmore fuel)
        rw [List.flatMap_map] at hemitted
        rw [ZlibStream.emitted, hemitted]
        decide
  · intro fuel
    match fuel with
    | 0 => decide
    | 1 => decide
    | fuel + 2 =>
        have hcodes := congrArg (List.map Answer.code) (hmore fuel)
        rw [List.map_map] at hcodes
        rw [ZlibStream.codes, codesOf]
        change zStreamError ∉ List.map (Answer.code ∘ Prod.snd) _
        rw [hcodes]
        decide

end Zlib
end Tiger
