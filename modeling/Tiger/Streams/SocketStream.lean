import Mathlib.Tactic

/-!
# Streams - fixed-size transfers over a socket

This module embeds `SocketStream::read` and `write` (`src/streams/socket_stream.cc`)
and the raw-buffer functions `Stream::read_fixed_size` and `write_fixed_size`
(`src/streams/stream.cc`).

The system side of a socket is a script.  Each coming `recv` either delivers
bytes of a chunk, as many as the caller's buffer holds, or returns a result
that is not positive; a script that is used up reads as a closed peer.  Each
coming `send` accepts some bytes or returns a result that is not positive; a
script that is used up accepts everything.  Quantifying over scripts covers
every way in which a byte stream can be cut into short transfers.

Main results:

- Theorem `readFixedSize_spec`: `read_fixed_size` takes exactly the next `len`
  bytes, however they are cut.
- Theorem `writeFixedSize_spec`: `write_fixed_size` passes on exactly its buffer
  while sends succeed.
-/

namespace Tiger

/-! ## Machine integers -/

/-- Conversion of an integer to `int`. -/
def toInt32 (v : Int) : Int := v.bmod (2 ^ 32)

/-- Conversion of an integer to `size_t` or `uint64_t`. -/
def toSizeT (v : Int) : Nat := (v % 2 ^ 64).toNat

theorem le_toInt32 (v : Int) : -2 ^ 31 ≤ toInt32 v := by
  have hle : -(2 ^ 32 / 2) ≤ toInt32 v := Int.le_bmod (by norm_num)
  omega

theorem toInt32_lt (v : Int) : toInt32 v < 2 ^ 31 := by
  have hlt : toInt32 v < (2 ^ 32 + 1) / 2 := Int.bmod_lt (by norm_num)
  omega

/-- The conversion keeps the values of the type `int`, and no others. -/
theorem toInt32_eq_self_iff {v : Int} : toInt32 v = v ↔ -2 ^ 31 ≤ v ∧ v < 2 ^ 31 := by
  constructor
  · intro h
    rw [← h]
    exact ⟨le_toInt32 v, toInt32_lt v⟩
  · intro h
    unfold toInt32
    exact Int.bmod_eq_of_le (by omega) (by omega)

/-- `toInt32` keeps a length exactly below `2 ^ 31`. -/
theorem toInt32_eq_iff (n : Nat) : toInt32 n = n ↔ n < 2 ^ 31 := by
  rw [toInt32_eq_self_iff]
  omega

theorem toInt32_of_lt {n : Nat} (h : n < 2 ^ 31) : toInt32 n = n :=
  (toInt32_eq_iff n).mpr h

/-- A size of `2 ^ 31` up to `2 ^ 32` turns negative as an `int`. -/
theorem toInt32_neg {n : Nat} (hlow : 2 ^ 31 ≤ n) (hhigh : n < 2 ^ 32) :
    toInt32 n = (n : Int) - 2 ^ 32 := by
  unfold toInt32
  rw [Int.bmod_def]
  have hmod : (n : Int) % ((2 ^ 32 : Nat) : Int) = n := Int.emod_eq_of_lt (by omega) (by omega)
  rw [hmod, if_neg (by omega)]
  rfl

theorem toSizeT_of_nonneg {n : Nat} (h : n < 2 ^ 64) : toSizeT n = n := by
  unfold toSizeT
  omega

/-! ## The socket -/

/-- What one `recv` call does. -/
inductive Recv
  /-- bytes are there, and the call hands out a prefix of them -/
  | bytes (chunk : List UInt8)
  /-- the call returns `-rt` and no bytes; `rt = 0` is an orderly shutdown -/
  | result (rt : Nat)
deriving DecidableEq

/-- What one `send` call does. -/
inductive Send
  /-- at most `n + 1` bytes are accepted -/
  | accept (n : Nat)
  /-- the call returns `-rt` and accepts nothing -/
  | result (rt : Nat)
deriving DecidableEq

/-- A connection: the scripts of the system, the count of bytes read and the
bytes sent so far. -/
structure SocketStream where
  connected : Bool
  incoming : List Recv
  consumed : Nat
  sends : List Send
  sent : List UInt8
deriving DecidableEq

namespace SocketStream

/-- Linux transfers at most this many bytes in one call. -/
def maxTransfer : Nat := 0x7ffff000

/-- `close()` -/
def close (s : SocketStream) : SocketStream := { s with connected := false }

/-- `SocketStream::read(buffer, len)`: the result and the bytes stored. -/
def read (s : SocketStream) (len : Nat) : Int × List UInt8 × SocketStream :=
  if !s.connected then (-1, [], s)
  else
    match s.incoming with
    | [] => (0, [], s)
    | .result rt :: rest => (-rt, [], { s with incoming := rest })
    | .bytes chunk :: rest =>
        let n := min (min len maxTransfer) chunk.length
        let rest := if n = chunk.length then rest else .bytes (chunk.drop n) :: rest
        (n, chunk.take n, { s with incoming := rest, consumed := s.consumed + n })

/-- A read gives at most what it is asked for. -/
theorem read_le (s : SocketStream) (len : Nat) : (s.read len).1 ≤ len := by
  unfold read
  split
  next => simp only; omega
  next =>
    split
    next => simp only; omega
    next => simp only; omega
    next => simp only; omega

/-- `SocketStream::write(buffer, len)` -/
def write (s : SocketStream) (buf : List UInt8) : Int × SocketStream :=
  if !s.connected then (-1, s)
  else
    match s.sends with
    | [] =>
        let n := min buf.length maxTransfer
        (n, { s with sent := s.sent ++ buf.take n })
    | .result rt :: rest => (-rt, { s with sends := rest })
    | .accept k :: rest =>
        let n := min (min buf.length maxTransfer) (k + 1)
        (n, { s with sends := rest, sent := s.sent ++ buf.take n })

/-- The loop of `read_fixed_size`; every round but the last transfers at least
one byte, so `fuel` rounds suffice for `fuel` bytes. -/
def readFixedLoop (len : Nat) :
    Nat → Nat → List UInt8 → SocketStream → Int × List UInt8 × SocketStream
  | 0, _, got, s => (toInt32 len, got, s)
  | fuel + 1, left, got, s =>
      if left = 0 then (toInt32 len, got, s)
      else
        let r := s.read left
        if r.1 ≤ 0 then (r.1, got ++ r.2.1, r.2.2)
        else readFixedLoop len fuel (left - r.1.toNat) (got ++ r.2.1) r.2.2

/-- `read_fixed_size(buffer, len)`.  The count `left` is an `int64_t`, so a
length of `2 ^ 63` or more makes no round at all. -/
def readFixedSize (s : SocketStream) (len : Nat) : Int × List UInt8 × SocketStream :=
  if len < 2 ^ 63 then readFixedLoop len len len [] s else (toInt32 len, [], s)

/-- The loop of `write_fixed_size`. -/
def writeFixedLoop (len : Nat) : Nat → List UInt8 → SocketStream → Int × SocketStream
  | 0, _, s => (toInt32 len, s)
  | fuel + 1, buf, s =>
      if buf.length = 0 then (toInt32 len, s)
      else
        let r := s.write buf
        if r.1 ≤ 0 then r
        else writeFixedLoop len fuel (buf.drop r.1.toNat) r.2

/-- `write_fixed_size(buffer, len)` -/
def writeFixedSize (s : SocketStream) (buf : List UInt8) : Int × SocketStream :=
  writeFixedLoop buf.length buf.length buf s

/-- All bytes that the script still holds. -/
def pendingBytes : List Recv → Nat
  | [] => 0
  | .bytes chunk :: rest => chunk.length + pendingBytes rest
  | .result _ :: rest => pendingBytes rest

/-- The number of bytes that can still arrive. -/
def pending (s : SocketStream) : Nat := pendingBytes s.incoming

/-! ## Reading what is available -/

/-- The bytes the coming reads deliver before one of them fails. -/
def available : List Recv → List UInt8
  | .bytes chunk :: rest => if chunk = [] then [] else chunk ++ available rest
  | _ => []

/-- The bytes of a script are among its pending ones. -/
theorem available_length_le (script : List Recv) :
    (available script).length ≤ pendingBytes script := by
  induction script with
  | nil => simp [available]
  | cons ev script ih =>
      cases ev with
      | result rt => simp [available]
      | bytes chunk =>
          rw [available, pendingBytes]
          split
          · simp
          · rw [List.length_append]
            omega

/-- A connected read takes a non-empty prefix of what is available. -/
theorem read_spec {s : SocketStream} {len : Nat} (hconn : s.connected = true)
    (hlen : 0 < len) (havail : available s.incoming ≠ []) :
    ∃ n rest, s.read len = (((n : Nat) : Int), (available s.incoming).take n,
        { s with incoming := rest, consumed := s.consumed + n }) ∧
      0 < n ∧ n ≤ len ∧ n ≤ (available s.incoming).length ∧
      available rest = (available s.incoming).drop n := by
  unfold read
  rw [if_neg (by simp [hconn])]
  cases hin : s.incoming with
  | nil => simp [hin, available] at havail
  | cons ev evs =>
      cases ev with
      | result rt => simp [hin, available] at havail
      | bytes chunk =>
          rw [hin] at havail
          by_cases hchunk : chunk = []
          · simp [available, hchunk] at havail
          · have hpos : 0 < chunk.length := List.length_pos_iff.mpr hchunk
            have hmax : 0 < maxTransfer := by decide
            have hall : available (.bytes chunk :: evs) = chunk ++ available evs := by
              simp [available, hchunk]
            simp only
            rw [hall]
            set n := min (min len maxTransfer) chunk.length with hn
            refine ⟨n, if n = chunk.length then evs else .bytes (chunk.drop n) :: evs,
              ?_, by omega, by omega, ?_, ?_⟩
            · rw [List.take_append_of_le_length (by omega)]
            · rw [List.length_append]
              omega
            · rw [List.drop_append_of_le_length (by omega)]
              split
              next hend =>
                rw [List.drop_eq_nil_of_le (by omega), List.nil_append]
              next hpart =>
                have hdrop : chunk.drop n ≠ [] := by
                  intro hnil
                  have := List.drop_eq_nil_iff.mp hnil
                  omega
                simp [available, hdrop]

/-- A read with nothing available returns a result that is not positive and
hands out no byte. -/
theorem read_none {s : SocketStream} (len : Nat) (havail : available s.incoming = []) :
    (s.read len).1 ≤ 0 ∧ (s.read len).2.1 = [] ∧ (s.read len).2.2.consumed = s.consumed := by
  unfold read
  split
  · exact ⟨by simp, rfl, rfl⟩
  · split
    next => exact ⟨le_rfl, rfl, rfl⟩
    next rt rest _ => exact ⟨by simp, rfl, rfl⟩
    next chunk rest hin =>
      have hnil : chunk = [] := by
        by_contra hne
        rw [hin] at havail
        simp [available, hne] at havail
      subst hnil
      simp

/-- A fixed read of what is available gives it. -/
private theorem readFixedLoop_spec {len : Nat} {fuel left : Nat} (got : List UInt8)
    {s : SocketStream} (hconn : s.connected = true) (hfuel : left ≤ fuel)
    (havail : left ≤ (available s.incoming).length) :
    ∃ rest, readFixedLoop len fuel left got s =
        (toInt32 len, got ++ (available s.incoming).take left,
          { s with incoming := rest, consumed := s.consumed + left }) ∧
      available rest = (available s.incoming).drop left := by
  induction fuel generalizing left got s with
  | zero =>
      have hzero : left = 0 := by omega
      subst hzero
      exact ⟨s.incoming, by simp [readFixedLoop], by simp⟩
  | succ fuel ih =>
      by_cases hzero : left = 0
      · subst hzero
        exact ⟨s.incoming, by simp [readFixedLoop], by simp⟩
      · have hne : available s.incoming ≠ [] := by
          intro hnil
          rw [hnil, List.length_nil] at havail
          omega
        rcases read_spec hconn (Nat.pos_of_ne_zero hzero) hne with
          ⟨n, rest, hread, hpos, hle, hlen, hrest⟩
        have hnot : ¬ ((n : Nat) : Int) ≤ 0 := by omega
        rw [readFixedLoop, if_neg hzero]
        simp only [hread, if_neg hnot, Int.toNat_natCast]
        have hconn' : ({ s with incoming := rest, consumed := s.consumed + n } :
            SocketStream).connected = true := hconn
        have hmore : left - n ≤ (available rest).length := by
          rw [hrest, List.length_drop]
          omega
        rcases ih (got ++ (available s.incoming).take n) hconn' (by omega) hmore with
          ⟨rest', hloop, hrest'⟩
        refine ⟨rest', ?_, ?_⟩
        · have hsum : s.consumed + n + (left - n) = s.consumed + left := by omega
          rw [hloop]
          simp only [hrest, hsum, List.append_assoc]
          rw [← List.take_add, Nat.add_sub_cancel' hle]
        · rw [hrest']
          simp only [hrest, List.drop_drop]
          rw [Nat.add_sub_cancel' hle]

/-- `read_fixed_size` returns the next `len` bytes whatever the cuts are. -/
theorem readFixedSize_spec {s : SocketStream} {len : Nat} (hconn : s.connected = true)
    (hlen : len < 2 ^ 63) (havail : len ≤ (available s.incoming).length) :
    ∃ rest, s.readFixedSize len =
        (toInt32 len, (available s.incoming).take len,
          { s with incoming := rest, consumed := s.consumed + len }) ∧
      available rest = (available s.incoming).drop len := by
  unfold readFixedSize
  rw [if_pos hlen]
  simpa using readFixedLoop_spec [] hconn le_rfl havail

/-- A non-empty read with nothing available fails. -/
theorem readFixedSize_none {s : SocketStream} {len : Nat} (hpos : 0 < len)
    (hlen : len < 2 ^ 63) (havail : available s.incoming = []) :
    (s.readFixedSize len).1 ≤ 0 := by
  unfold readFixedSize
  rw [if_pos hlen]
  obtain ⟨fuel, rfl⟩ : ∃ fuel, len = fuel + 1 := ⟨len - 1, by omega⟩
  have hread := read_none (fuel + 1) havail
  rw [readFixedLoop, if_neg (by omega)]
  simp only [if_pos hread.1]
  exact hread.1

/-- The stream is open and goes on with `bytes`. -/
structure Ahead (s : SocketStream) (bytes : List UInt8) : Prop where
  connected : s.connected = true
  available_eq : available s.incoming = bytes

/-- `s'` is `s` after `n` more bytes were read, and nothing else. -/
structure Advanced (s s' : SocketStream) (n : Nat) : Prop where
  consumed_eq : s'.consumed = s.consumed + n
  sends_eq : s'.sends = s.sends
  sent_eq : s'.sent = s.sent

theorem Advanced.refl (s : SocketStream) : Advanced s s 0 := ⟨rfl, rfl, rfl⟩

/-- Advances add up. -/
theorem Advanced.trans {s₁ s₂ s₃ : SocketStream} {m n : Nat} (h₁ : Advanced s₁ s₂ m)
    (h₂ : Advanced s₂ s₃ n) : Advanced s₁ s₃ (m + n) where
  consumed_eq := by rw [h₂.consumed_eq, h₁.consumed_eq, Nat.add_assoc]
  sends_eq := h₂.sends_eq.trans h₁.sends_eq
  sent_eq := h₂.sent_eq.trans h₁.sent_eq

/-- `read_fixed_size` in front of the bytes it asks for. -/
theorem readFixedSize_ahead {s : SocketStream} (xs : List UInt8) {rest : List UInt8}
    (hs : Ahead s (xs ++ rest)) (hlen : xs.length < 2 ^ 63) :
    ∃ s', s.readFixedSize xs.length = (toInt32 xs.length, xs, s') ∧ Ahead s' rest ∧
      Advanced s s' xs.length := by
  have havail := hs.available_eq
  rcases readFixedSize_spec hs.connected hlen (by rw [havail]; simp) with
    ⟨inc, hrun, hinc⟩
  rw [havail, List.take_left] at hrun
  rw [havail, List.drop_left] at hinc
  exact ⟨_, hrun, ⟨hs.connected, hinc⟩, ⟨rfl, rfl, rfl⟩⟩

/-! ## Reads use up the script -/

/-- A read takes its bytes out of the script. -/
theorem read_pending (s : SocketStream) (len : Nat) :
    (s.read len).2.2.pending + (s.read len).1.toNat = s.pending := by
  unfold read
  split
  · simp
  · split
    next => simp
    next rt rest hin => simp [pending, hin, pendingBytes]
    next chunk rest hin =>
      simp only [pending, hin, pendingBytes, Int.toNat_natCast]
      split
      next hall => omega
      next hpart =>
        simp only [pendingBytes, List.length_drop]
        omega

/-- A fixed read puts nothing into the script. -/
private theorem readFixedLoop_pending_le (len fuel left : Nat) (got : List UInt8)
    (s : SocketStream) : (readFixedLoop len fuel left got s).2.2.pending ≤ s.pending := by
  induction fuel generalizing left got s with
  | zero => exact le_rfl
  | succ fuel ih =>
      have hread := read_pending s left
      rw [readFixedLoop]
      split
      · exact le_rfl
      · simp only
        split
        · change (s.read left).2.2.pending ≤ _
          omega
        · exact (ih _ _ _).trans (by omega)

/-- `read_fixed_size` puts nothing into the script. -/
theorem readFixedSize_pending_le (s : SocketStream) (len : Nat) :
    (s.readFixedSize len).2.2.pending ≤ s.pending := by
  unfold readFixedSize
  split
  · exact readFixedLoop_pending_le len len len [] s
  · exact le_rfl

/-- A successful non-empty read makes the script shorter. -/
theorem readFixedSize_pending_lt {s : SocketStream} {len : Nat} (hpos : 0 < len)
    (hlen : len < 2 ^ 63) (hok : ¬ (s.readFixedSize len).1 ≤ 0) :
    (s.readFixedSize len).2.2.pending < s.pending := by
  obtain ⟨fuel, rfl⟩ : ∃ fuel, len = fuel + 1 := ⟨len - 1, by omega⟩
  have hread := read_pending s (fuel + 1)
  unfold readFixedSize at hok ⊢
  rw [if_pos hlen, readFixedLoop, if_neg (by omega)] at hok ⊢
  simp only at hok ⊢
  split at hok
  next hfail => exact absurd hfail hok
  next hgood =>
    rw [if_neg hgood]
    exact (readFixedLoop_pending_le _ _ _ _ _).trans_lt (by omega)

/-! ## Writing -/

/-- No coming `send` fails. -/
def SendsSucceed (s : SocketStream) : Prop := ∀ e ∈ s.sends, ∃ n, e = .accept n

/-- Reads leave the sends. -/
theorem Advanced.sendsSucceed {s s' : SocketStream} {n : Nat} (h : Advanced s s' n)
    (hsends : s.SendsSucceed) : s'.SendsSucceed := by
  intro e he
  rw [h.sends_eq] at he
  exact hsends e he

/-- A stream that delivers `bytes` in one piece. -/
def wholeStream (bytes : List UInt8) : SocketStream := ⟨true, [.bytes bytes], 0, [], []⟩

theorem wholeStream_ahead {bytes : List UInt8} (h : bytes ≠ []) :
    Ahead (wholeStream bytes) (bytes ++ []) :=
  ⟨rfl, by simp [wholeStream, available, h]⟩

theorem wholeStream_sendsSucceed (bytes : List UInt8) : (wholeStream bytes).SendsSucceed := by
  intro e he
  exact absurd he List.not_mem_nil

/-- A fixed write whose sends succeed sends the buffer. -/
private theorem writeFixedLoop_spec {len fuel : Nat} (buf : List UInt8) {s : SocketStream}
    (hconn : s.connected = true) (hsends : s.SendsSucceed) (hfuel : buf.length ≤ fuel) :
    ∃ sends, writeFixedLoop len fuel buf s =
        (toInt32 len, { s with sends := sends, sent := s.sent ++ buf }) ∧
      ∀ e ∈ sends, ∃ n, e = .accept n := by
  induction fuel generalizing buf s with
  | zero =>
      have hnil : buf = [] := List.length_eq_zero_iff.mp (by omega)
      subst hnil
      exact ⟨s.sends, by simp [writeFixedLoop], hsends⟩
  | succ fuel ih =>
      by_cases hzero : buf.length = 0
      · have hnil : buf = [] := List.length_eq_zero_iff.mp hzero
        subst hnil
        exact ⟨s.sends, by simp [writeFixedLoop], hsends⟩
      · -- one round accepts `n` bytes
        have hround : ∃ n sends, s.write buf = (((n : Nat) : Int),
            { s with sends := sends, sent := s.sent ++ buf.take n }) ∧ 0 < n ∧
            n ≤ buf.length ∧ ∀ e ∈ sends, ∃ n, e = .accept n := by
          have hmax : 0 < maxTransfer := by decide
          unfold write
          rw [if_neg (by simp [hconn])]
          cases hs : s.sends with
          | nil =>
              exact ⟨min buf.length maxTransfer, [], by simp, by omega, by omega, by simp⟩
          | cons e rest =>
              rcases hsends e (by simp [hs]) with ⟨k, rfl⟩
              refine ⟨_, rest, rfl, by omega, by omega, ?_⟩
              intro e he
              exact hsends e (by simp [hs, he])
        rcases hround with ⟨n, sends, hwrite, hpos, hle, hgood⟩
        have hnot : ¬ ((n : Nat) : Int) ≤ 0 := by omega
        rw [writeFixedLoop, if_neg hzero]
        simp only [hwrite, if_neg hnot, Int.toNat_natCast]
        have hconn' : ({ s with sends := sends, sent := s.sent ++ buf.take n } :
            SocketStream).connected = true := hconn
        rcases ih (buf.drop n) hconn' hgood (by rw [List.length_drop]; omega) with
          ⟨sends', hloop, hgood'⟩
        refine ⟨sends', ?_, hgood'⟩
        rw [hloop]
        simp only [List.append_assoc, List.take_append_drop]

/-- `s'` is `s` as far as reading goes. -/
structure SameReader (s s' : SocketStream) : Prop where
  connected_eq : s'.connected = s.connected
  incoming_eq : s'.incoming = s.incoming
  consumed_eq : s'.consumed = s.consumed

/-- Streams that read the same, one behind the other. -/
theorem SameReader.trans {s₁ s₂ s₃ : SocketStream} (h₁ : SameReader s₁ s₂)
    (h₂ : SameReader s₂ s₃) : SameReader s₁ s₃ where
  connected_eq := h₂.connected_eq.trans h₁.connected_eq
  incoming_eq := h₂.incoming_eq.trans h₁.incoming_eq
  consumed_eq := h₂.consumed_eq.trans h₁.consumed_eq

/-- `s'` is `s` as far as the results of writing go. -/
structure SameWriter (s s' : SocketStream) : Prop where
  connected_eq : s'.connected = s.connected
  sends_eq : s'.sends = s.sends

/-- Writing leaves the receiving side alone. -/
theorem write_sameReader (s : SocketStream) (buf : List UInt8) : SameReader s (s.write buf).2 := by
  unfold write
  split
  · exact ⟨rfl, rfl, rfl⟩
  · split
    · exact ⟨rfl, rfl, rfl⟩
    · exact ⟨rfl, rfl, rfl⟩
    · exact ⟨rfl, rfl, rfl⟩

/-- A fixed write leaves what is read. -/
private theorem writeFixedLoop_sameReader (len fuel : Nat) (buf : List UInt8)
    (s : SocketStream) : SameReader s (writeFixedLoop len fuel buf s).2 := by
  induction fuel generalizing buf s with
  | zero => exact ⟨rfl, rfl, rfl⟩
  | succ fuel ih =>
      rw [writeFixedLoop]
      split
      · exact ⟨rfl, rfl, rfl⟩
      · simp only
        split
        · exact write_sameReader s buf
        · exact (write_sameReader s buf).trans (ih _ _)

theorem writeFixedSize_sameReader (s : SocketStream) (buf : List UInt8) :
    SameReader s (s.writeFixedSize buf).2 :=
  writeFixedLoop_sameReader _ _ buf s

/-- What a write returns does not depend on the receiving side. -/
theorem write_sameWriter {s s' : SocketStream} (h : SameWriter s s') (buf : List UInt8) :
    (s'.write buf).1 = (s.write buf).1 ∧ SameWriter (s.write buf).2 (s'.write buf).2 := by
  unfold write
  rw [h.connected_eq, h.sends_eq]
  split
  · exact ⟨rfl, h⟩
  · split
    · exact ⟨rfl, rfl, rfl⟩
    · exact ⟨rfl, rfl, rfl⟩
    · exact ⟨rfl, rfl, rfl⟩

/-- A fixed write returns the same on streams that send the same. -/
private theorem writeFixedLoop_sameWriter (len fuel : Nat) (buf : List UInt8)
    {s s' : SocketStream} (h : SameWriter s s') :
    (writeFixedLoop len fuel buf s').1 = (writeFixedLoop len fuel buf s).1 := by
  induction fuel generalizing buf s s' with
  | zero => rfl
  | succ fuel ih =>
      rcases write_sameWriter h buf with ⟨hres, hnext⟩
      rw [writeFixedLoop, writeFixedLoop]
      simp only [hres]
      split
      · rfl
      · split
        · exact hres
        · exact ih _ hnext

theorem writeFixedSize_sameWriter {s s' : SocketStream} (h : SameWriter s s')
    (buf : List UInt8) : (s'.writeFixedSize buf).1 = (s.writeFixedSize buf).1 :=
  writeFixedLoop_sameWriter _ _ buf h

/-- `write_fixed_size` sends its buffer. -/
theorem writeFixedSize_spec {s : SocketStream} (hconn : s.connected = true)
    (hsends : s.SendsSucceed) (buf : List UInt8) :
    ∃ sends, s.writeFixedSize buf =
        (toInt32 buf.length, { s with sends := sends, sent := s.sent ++ buf }) ∧
      ∀ e ∈ sends, ∃ n, e = .accept n :=
  writeFixedLoop_spec buf hconn hsends le_rfl

end SocketStream
end Tiger
