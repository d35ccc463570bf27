import Tiger.Streams.FixedSize

/-!
# Sockets - receiving and sending

This module embeds the functions of `Socket` and `SSLSocket` that receive and send
(`src/socket.cc`), on one buffer and on a list of them, with and without an address.

A function of `Socket` makes one system call, which is offered all buffers.  The functions of
`SSLSocket` call `SSL_read` and `SSL_write`, which take one buffer and an `int` for its length; for
a list of buffers they are called in a loop.  What the calls return is arbitrary.

Main results:

- Theorem `once_proper`: one call that is offered all buffers with their lengths.
- Theorem `loop_proper_iff`: when a loop of `SSL_read` or `SSL_write` transfers what it says.
- Theorem `proper_iff`: when each of the functions does.
-/

namespace Tiger
namespace Transfers

open Tiger.ByteArray FixedSize

/-! ## The calls below -/

/-- The bytes that arrive, and what call `k` returns that is offered `n` bytes.  A system call
transfers less than `2 ^ 31` bytes. -/
structure System where
  incoming : Nat → UInt8
  answer : Nat → Int → Int
  answer_le : ∀ k n, answer k n ≤ max n 0
  answer_int : ∀ k n, -2 ^ 31 ≤ answer k n ∧ answer k n < 2 ^ 31

/-- Whether bytes are received or sent. -/
inductive Direction
  | receive
  | send
deriving DecidableEq

namespace Direction

/-- The next `n` bytes, behind `start` bytes that were moved before. -/
def bytes (sys : System) (start : Nat) (buffer : List UInt8) (n : Nat) : Direction → List UInt8
  | receive => chunk sys.incoming start n
  | send => buffer.take n

/-- A buffer behind the call that moved these bytes. -/
def behind (buffer moved : List UInt8) : Direction → List UInt8
  | receive => overwrite buffer 0 moved
  | send => buffer

end Direction

/-- A call of the system puts bytes into the buffers one after the other. -/
def scatter : List (List UInt8) → List UInt8 → List (List UInt8)
  | [], _ => []
  | b :: bs, bytes => overwrite b 0 (bytes.take b.length) :: scatter bs (bytes.drop b.length)

/-- How a function ends. -/
inductive Outcome
  | returned (ret : Int)
  /-- `TIGER_ASSERT_WITH_INFO(false, ..)` -/
  | aborted
  /-- a null pointer was used, or a buffer was written over its end -/
  | undefined
deriving DecidableEq

/-- What a function does: how it ends, the lengths that the first buffers were offered with, the
buffers behind it, and the bytes that it moved. -/
structure Effect where
  outcome : Outcome
  offers : List Int
  buffers : List (List UInt8)
  moved : List UInt8

section Definitions

variable (sys : System) (dir : Direction)

/-- A function that makes no call. -/
def noCall (outcome : Outcome) (buffers : List (List UInt8)) : Effect := ⟨outcome, [], buffers, []⟩

/-- One call that is offered all buffers. -/
def once (offers : List Int) (buffers : List (List UInt8)) : Effect :=
  let rt := sys.answer 0 offers.sum
  let moved := dir.bytes sys 0 buffers.flatten rt.toNat
  if buffers.flatten.length < moved.length then ⟨.undefined, offers, buffers, moved⟩
  else
    match dir with
    | .receive => ⟨.returned rt, offers, scatter buffers moved, moved⟩
    | .send => ⟨.returned rt, offers, buffers, moved⟩

/-- The loop over the buffers, from call `k` on and behind `start` bytes; `asked` is the length that
a buffer is offered with. -/
def loop (asked : List UInt8 → Int) : Nat → Nat → Int → List (List UInt8) → Effect
  | _, _, total, [] => ⟨.returned total, [], [], []⟩
  | k, start, total, b :: bs =>
      let tmp := sys.answer k (asked b)
      let moved := dir.bytes sys start b tmp.toNat
      if b.length < moved.length then ⟨.undefined, [asked b], b :: bs, moved⟩
      else if tmp ≤ 0 then ⟨.returned tmp, [asked b], b :: bs, []⟩
      else if tmp ≠ toInt32 b.length then
        ⟨.returned (toInt32 (total + tmp)), [asked b], dir.behind b moved :: bs, moved⟩
      else
        let rest := loop asked (k + 1) (start + moved.length) (toInt32 (total + tmp)) bs
        ⟨rest.outcome, asked b :: rest.offers, dir.behind b moved :: rest.buffers,
          moved ++ rest.moved⟩

end Definitions

/-! ## The functions -/

/-- The members that the functions look at: `is_connected()`, `m_ctx` and `m_ssl`. -/
structure Members where
  isConnected : Bool
  ctx : Bool
  ssl : Bool

/-- The length of a buffer, for the calls of the system. -/
def size (b : List UInt8) : Int := b.length

/-- The length of a buffer, for `SSL_read` and `SSL_write`. -/
def intSize (b : List UInt8) : Int := toInt32 b.length

namespace Socket

/-- One system call on a socket that is connected. -/
def call (sys : System) (dir : Direction) (m : Members) (offers : List Int)
    (buffers : List (List UInt8)) : Effect :=
  if m.isConnected then once sys dir offers buffers else noCall (.returned (-1)) buffers

variable (sys : System) (m : Members)

/-- `send(buffer, len, flags)` -/
def send (buffer : List UInt8) : Effect := call sys .send m [size buffer] [buffer]

/-- `send(buffers, len, flags)` -/
def sendBuffers (buffers : List (List UInt8)) : Effect :=
  call sys .send m (buffers.map size) buffers

/-- `send_to(buffer, len, to, flags)` -/
def sendTo (buffer : List UInt8) : Effect := call sys .send m [size buffer] [buffer]

/-- `send_to(buffers, len, to, flags)` -/
def sendBuffersTo (buffers : List (List UInt8)) : Effect :=
  call sys .send m (buffers.map size) buffers

/-- `recv(buffer, len, flags)` -/
def recv (buffer : List UInt8) : Effect := call sys .receive m [size buffer] [buffer]

/-- `recv(buffers, len, flags)` -/
def recvBuffers (buffers : List (List UInt8)) : Effect :=
  call sys .receive m (buffers.map size) buffers

/-- `recv_from(buffer, len, from, flags)`: inside of it `len` is the length of the address. -/
def recvFrom (buffer : List UInt8) (addrLen : Nat) : Effect :=
  call sys .receive m [(addrLen : Int)] [buffer]

/-- `recv_from(buffers, len, from, flags)` -/
def recvBuffersFrom (buffers : List (List UInt8)) : Effect :=
  call sys .receive m (buffers.map size) buffers

end Socket

namespace SSLSocket

variable (sys : System) (m : Members)

/-- `send(buffer, len, flags)` -/
def send (buffer : List UInt8) : Effect :=
  if m.ssl then once sys .send [intSize buffer] [buffer] else noCall (.returned (-1)) [buffer]

/-- `send(buffers, len, flags)` -/
def sendBuffers (buffers : List (List UInt8)) : Effect :=
  if ¬m.ssl then noCall (.returned (-1)) buffers else loop sys .send intSize 0 0 0 buffers

/-- `send_to(buffer, len, to, flags)` -/
def sendTo (buffer : List UInt8) : Effect := noCall .aborted [buffer]

/-- `send_to(buffers, len, to, flags)` -/
def sendBuffersTo (buffers : List (List UInt8)) : Effect := noCall .aborted buffers

/-- `recv(buffer, len, flags)`: it looks at `m_ctx`. -/
def recv (buffer : List UInt8) : Effect :=
  if m.ctx then
    if m.ssl then once sys .receive [intSize buffer] [buffer] else noCall .undefined [buffer]
  else noCall (.returned (-1)) [buffer]

/-- `recv(buffers, len, flags)`: every call is given the length of the first buffer. -/
def recvBuffers (buffers : List (List UInt8)) : Effect :=
  if ¬m.ssl then noCall (.returned (-1)) buffers
  else loop sys .receive (fun _ => intSize (buffers.headD [])) 0 0 0 buffers

/-- `recv_from(buffer, len, from, flags)` -/
def recvFrom (buffer : List UInt8) : Effect := noCall .aborted [buffer]

/-- `recv_from(buffers, len, from, flags)` -/
def recvBuffersFrom (buffers : List (List UInt8)) : Effect := noCall .aborted buffers

end SSLSocket

/-! ## What they are to do -/

/-- What a function is to do with its buffers behind `start` bytes: they are offered in order and
with their lengths, the bytes are those of the stream in the order of the buffers, and the function
returns their number, or a result that is not positive if there are none. -/
structure Proper (sys : System) (dir : Direction) (start : Nat) (buffers : List (List UInt8))
    (e : Effect) : Prop where
  defined : e.outcome ≠ .undefined
  offers_eq : e.offers <+: buffers.map size
  moved_eq : e.moved = dir.bytes sys start buffers.flatten e.moved.length
  buffers_eq : e.buffers.flatten = dir.behind buffers.flatten e.moved
  lengths_eq : e.buffers.map List.length = buffers.map List.length
  aborted : e.outcome = .aborted → e.moved = []
  positive : ∀ ret, e.outcome = .returned ret → 0 < ret → ret = (start + e.moved.length : Nat)
  failed : ∀ ret, e.outcome = .returned ret → ret ≤ 0 → start + e.moved.length = 0

/-- The two classes. -/
inductive Class
  | socket
  | sslSocket

/-- The functions of a class, with their buffers. -/
inductive Entry
  | send (buffer : List UInt8)
  | sendBuffers (buffers : List (List UInt8))
  | sendTo (buffer : List UInt8)
  | sendBuffersTo (buffers : List (List UInt8))
  | recv (buffer : List UInt8)
  | recvBuffers (buffers : List (List UInt8))
  | recvFrom (buffer : List UInt8) (addrLen : Nat)
  | recvBuffersFrom (buffers : List (List UInt8))

namespace Entry

def dir : Entry → Direction
  | send _ | sendBuffers _ | sendTo _ | sendBuffersTo _ => .send
  | recv _ | recvBuffers _ | recvFrom .. | recvBuffersFrom _ => .receive

def buffers : Entry → List (List UInt8)
  | send b | sendTo b | recv b | recvFrom b _ => [b]
  | sendBuffers bs | sendBuffersTo bs | recvBuffers bs | recvBuffersFrom bs => bs

def effect (sys : System) (m : Members) : Class → Entry → Effect
  | .socket, send b => Socket.send sys m b
  | .socket, sendBuffers bs => Socket.sendBuffers sys m bs
  | .socket, sendTo b => Socket.sendTo sys m b
  | .socket, sendBuffersTo bs => Socket.sendBuffersTo sys m bs
  | .socket, recv b => Socket.recv sys m b
  | .socket, recvBuffers bs => Socket.recvBuffers sys m bs
  | .socket, recvFrom b addrLen => Socket.recvFrom sys m b addrLen
  | .socket, recvBuffersFrom bs => Socket.recvBuffersFrom sys m bs
  | .sslSocket, send b => SSLSocket.send sys m b
  | .sslSocket, sendBuffers bs => SSLSocket.sendBuffers sys m bs
  | .sslSocket, sendTo b => SSLSocket.sendTo b
  | .sslSocket, sendBuffersTo bs => SSLSocket.sendBuffersTo bs
  | .sslSocket, recv b => SSLSocket.recv sys m b
  | .sslSocket, recvBuffers bs => SSLSocket.recvBuffers sys m bs
  | .sslSocket, recvFrom b _ => SSLSocket.recvFrom b
  | .sslSocket, recvBuffersFrom bs => SSLSocket.recvBuffersFrom bs

end Entry

/-- The calls of a loop from call `k` on, behind `start` bytes: every buffer that is offered is
offered with its length, no call fails behind a byte, and an `int` holds the number of bytes. -/
def Smooth (sys : System) (asked : List UInt8 → Int) : Nat → Nat → List (List UInt8) → Prop
  | _, _, [] => True
  | k, start, b :: bs =>
      asked b = size b ∧ (sys.answer k (size b) ≤ 0 → start = 0) ∧
        (0 < sys.answer k (size b) → start + sys.answer k (size b) < 2 ^ 31 ∧
          (sys.answer k (size b) = size b → Smooth sys asked (k + 1) (start + b.length) bs))

/-- The condition for a function to do what it is to do. -/
def Entry.Condition (sys : System) (m : Members) : Class → Entry → Prop
  | .socket, recvFrom b addrLen => m.isConnected → addrLen = b.length
  | .sslSocket, send b => m.ssl → b.length < 2 ^ 31
  | .sslSocket, sendBuffers bs => m.ssl → Smooth sys intSize 0 0 bs
  | .sslSocket, recv b => m.ctx → m.ssl ∧ b.length < 2 ^ 31
  | .sslSocket, recvBuffers bs =>
      m.ssl → Smooth sys (fun _ => intSize (bs.headD [])) 0 0 bs
  | _, _ => True

/-! ## One call -/

section Calls

variable {sys : System} {dir : Direction} {m : Members} {start : Nat}
  {n : Nat} {b : List UInt8} {buffers : List (List UInt8)}

/-- An operation without a call is proper when it reports nothing moved. -/
theorem noCall_proper {outcome : Outcome} (hdefined : outcome ≠ .undefined)
    (hfailed : ∀ ret, outcome = .returned ret → ret ≤ 0) :
    Proper sys dir 0 buffers (noCall outcome buffers) := by
  refine ⟨hdefined, List.nil_prefix, ?_, ?_, rfl, fun _ => rfl, fun ret hret hpos => ?_,
    fun _ _ _ => rfl⟩
  · cases dir <;> rfl
  · cases dir
    · exact (overwrite_nil _ _).symm
    · rfl
  · exact absurd (hfailed ret hret) (by omega)

/-- Scattering keeps the lengths of the buffers. -/
theorem scatter_lengths {bytes : List UInt8} (h : bytes.length ≤ buffers.flatten.length) :
    (scatter buffers bytes).map List.length = buffers.map List.length := by
  induction buffers generalizing bytes with
  | nil => rfl
  | cons b bs ih =>
      rw [List.flatten_cons, List.length_append] at h
      rw [scatter, List.map_cons, List.map_cons, ih (by rw [List.length_drop]; omega)]
      congr 1
      simp only [overwrite, List.length_append, List.length_take, List.length_drop]
      omega

/-- The call fills the buffers as if they were one. -/
theorem scatter_flatten {bytes : List UInt8} (h : bytes.length ≤ buffers.flatten.length) :
    (scatter buffers bytes).flatten = overwrite buffers.flatten 0 bytes := by
  induction buffers generalizing bytes with
  | nil =>
      have hnil : bytes = [] := List.length_eq_zero_iff.mp (by simpa using h)
      simp [hnil, scatter, overwrite]
  | cons b bs ih =>
      rw [List.flatten_cons, List.length_append] at h
      rw [scatter, List.flatten_cons, List.flatten_cons, ih (by rw [List.length_drop]; omega)]
      by_cases hb : bytes.length ≤ b.length
      · rw [List.take_of_length_le hb, List.drop_eq_nil_of_le hb, overwrite_nil,
          overwrite_append_left _ (by omega)]
      · -- the first buffer is filled, and the rest goes into the other ones
        have htake : (bytes.take b.length).length = b.length := by
          rw [List.length_take]
          omega
        simp only [overwrite, List.take_zero, List.nil_append, Nat.zero_add, htake,
          List.drop_length, List.append_nil, List.length_drop]
        rw [← List.append_assoc, List.take_append_drop, List.drop_append,
          List.drop_eq_nil_of_le (show b.length ≤ bytes.length by omega), List.nil_append]

/-- A call moves as many bytes as it says. -/
theorem direction_bytes_length (hstart : n ≤ b.length) : (dir.bytes sys start b n).length = n := by
  cases dir with
  | receive => exact chunk_length _ _ _
  | send => exact List.length_take_of_le hstart

/-- One call that is offered all buffers with their lengths. -/
theorem once_proper : Proper sys dir 0 buffers (once sys dir (buffers.map size) buffers) := by
  have hsum : (buffers.map size).sum = (buffers.flatten.length : Int) := by
    rw [List.length_flatten, Nat.cast_list_sum, List.map_map]
    rfl
  have hle := sys.answer_le 0 (buffers.map size).sum
  have hlength : (dir.bytes sys 0 buffers.flatten
      (sys.answer 0 (buffers.map size).sum).toNat).length =
        (sys.answer 0 (buffers.map size).sum).toNat :=
    direction_bytes_length (by omega)
  unfold once
  generalize sys.answer 0 (buffers.map size).sum = rt at hle hlength
  simp only
  rw [if_neg (by omega)]
  have hpositive : ∀ ret, Outcome.returned rt = .returned ret → 0 < ret →
      ret = ((0 + (dir.bytes sys 0 buffers.flatten rt.toNat).length : Nat) : Int) := by
    intro ret hret hpos
    rw [← Outcome.returned.inj hret] at hpos ⊢
    omega
  have hfailed : ∀ ret, Outcome.returned rt = .returned ret → ret ≤ 0 →
      0 + (dir.bytes sys 0 buffers.flatten rt.toNat).length = 0 := by
    intro ret hret hle
    rw [← Outcome.returned.inj hret] at hle
    omega
  cases dir with
  | receive =>
      have hfit : (Direction.receive.bytes sys 0 buffers.flatten rt.toNat).length ≤
          buffers.flatten.length := by
        omega
      exact ⟨by simp, List.prefix_refl _, by rw [hlength], scatter_flatten hfit,
        scatter_lengths hfit, by simp, hpositive, hfailed⟩
  | send =>
      exact ⟨by simp, List.prefix_refl _, by rw [hlength], rfl, rfl, by simp, hpositive, hfailed⟩

/-- One call that is offered one buffer with another length. -/
theorem once_not_proper {n : Int} (hn : n ≠ size b) :
    ¬Proper sys dir 0 [b] (once sys dir [n] [b]) := by
  intro h
  have hoffers : (once sys dir [n] [b]).offers = [n] := by
    unfold once
    simp only
    split
    · rfl
    · cases dir <;> rfl
  have hprefix := h.offers_eq
  rw [hoffers] at hprefix
  simp only [List.map_cons, List.map_nil, List.cons_prefix_cons] at hprefix
  exact hn hprefix.1

/-- A single call is proper exactly when it asks for the whole buffer. -/
theorem once_proper_iff {n : Int} : Proper sys dir 0 [b] (once sys dir [n] [b]) ↔ n = size b := by
  constructor
  · intro h
    by_contra hn
    exact once_not_proper hn h
  · rintro rfl
    exact once_proper

theorem intSize_eq_iff : intSize b = size b ↔ b.length < 2 ^ 31 := by
  rw [intSize, size]
  exact toInt32_eq_iff b.length

end Calls

/-! ## The loops over `SSL_read` and `SSL_write` -/

section Loops

variable {sys : System} {dir : Direction} {asked : List UInt8 → Int} {start : Nat}
  {b : List UInt8} {bs : List (List UInt8)}

/-- What a loop returns is an `int`. -/
theorem loop_returned_lt {k : Nat} {total : Int} (htotal : total < 2 ^ 31) {ret : Int}
    (h : (loop sys dir asked k start total bs).outcome = .returned ret) : ret < 2 ^ 31 := by
  induction bs generalizing k start total with
  | nil =>
      cases h
      exact htotal
  | cons b bs ih =>
      rw [loop] at h
      simp only at h
      split_ifs at h with hover hfail hshort
      · cases h
        exact (sys.answer_int _ _).2
      · cases h
        exact toInt32_lt _
      · exact ih (toInt32_lt _) h

/-- More bytes than an `int` counts are never returned as they are. -/
theorem lt_of_proper {e : Effect} (hret : ∀ ret, e.outcome = .returned ret → ret < 2 ^ 31)
    {buffers : List (List UInt8)} (h : Proper sys dir start buffers e)
    (haborted : e.outcome ≠ .aborted) : start + e.moved.length < 2 ^ 31 := by
  cases houtcome : e.outcome with
  | returned ret =>
      have hlt := hret ret houtcome
      have hpositive := h.positive ret houtcome
      have hfailed := h.failed ret houtcome
      omega
  | aborted => exact absurd houtcome haborted
  | undefined => exact absurd houtcome h.defined

/-- The loop over the buffers does not abort. -/
theorem loop_not_aborted {k : Nat} {total : Int} :
    (loop sys dir asked k start total bs).outcome ≠ .aborted := by
  induction bs generalizing k start total with
  | nil => simp [loop]
  | cons b bs ih =>
      rw [loop]
      simp only
      split_ifs
      · simp
      · simp
      · simp
      · exact ih

/-- The first buffer is offered with the length that is asked for. -/
theorem loop_offers (sys : System) (dir : Direction) (asked : List UInt8 → Int) (k start : Nat)
    (total : Int) (b : List UInt8) (bs : List (List UInt8)) :
    ∃ rest, (loop sys dir asked k start total (b :: bs)).offers = asked b :: rest := by
  rw [loop]
  simp only
  split_ifs
  · exact ⟨[], rfl⟩
  · exact ⟨[], rfl⟩
  · exact ⟨[], rfl⟩
  · exact ⟨_, rfl⟩

/-- The bytes of the first buffer, and those of the others. -/
theorem bytes_cons (b rest : List UInt8) (n : Nat) :
    dir.bytes sys start (b ++ rest) (b.length + n) =
      dir.bytes sys start b b.length ++ dir.bytes sys (start + b.length) rest n := by
  cases dir with
  | receive => exact (chunk_append _ _ _ _).symm
  | send =>
      change (b ++ rest).take (b.length + n) = b.take b.length ++ rest.take n
      rw [List.take_length_add_append, List.take_length]

/-- The first buffer when it is full, and the others. -/
theorem behind_cons {moved : List UInt8} (hmoved : moved.length = b.length)
    (rest more : List UInt8) :
    dir.behind (b ++ rest) (moved ++ more) = dir.behind b moved ++ dir.behind rest more := by
  cases dir with
  | receive =>
      simp only [Direction.behind, overwrite, List.take_zero, List.nil_append, Nat.zero_add,
        List.length_append, hmoved, List.drop_length, List.append_nil,
        List.drop_length_add_append, List.append_assoc]
  | send => rfl

/-- A call leaves a buffer of the same length. -/
theorem behind_length {moved : List UInt8} (hmoved : moved.length ≤ b.length) :
    (dir.behind b moved).length = b.length := by
  cases dir with
  | receive =>
      simp only [Direction.behind, overwrite, List.take_zero, List.nil_append, Nat.zero_add,
        List.length_append, List.length_drop]
      omega
  | send => rfl

/-- A buffer that was filled in front of the others. -/
theorem proper_cons_iff (bs : List (List UInt8)) (e : Effect) {moved : List UInt8}
    (hmoved : moved = dir.bytes sys start b b.length) (hlength : moved.length = b.length)
    (haborted : e.outcome ≠ .aborted) :
    Proper sys dir start (b :: bs)
        ⟨e.outcome, size b :: e.offers, dir.behind b moved :: e.buffers, moved ++ e.moved⟩ ↔
      Proper sys dir (start + b.length) bs e := by
  have hcount : start + (moved ++ e.moved).length = start + b.length + e.moved.length := by
    rw [List.length_append, hlength, Nat.add_assoc]
  have hbehind : (dir.behind b moved).length = b.length := behind_length hlength.le
  have hbytes : moved ++ e.moved = dir.bytes sys start (b :: bs).flatten (moved ++ e.moved).length ↔
      e.moved = dir.bytes sys (start + b.length) bs.flatten e.moved.length := by
    rw [List.flatten_cons, List.length_append, hlength, bytes_cons, ← hmoved,
      List.append_cancel_left_eq]
  have hbuffers : (dir.behind b moved :: e.buffers).flatten =
      dir.behind (b :: bs).flatten (moved ++ e.moved) ↔
        e.buffers.flatten = dir.behind bs.flatten e.moved := by
    rw [List.flatten_cons, List.flatten_cons, behind_cons hlength, List.append_cancel_left_eq]
  constructor
  · intro h
    refine ⟨h.defined, ?_, hbytes.mp h.moved_eq, hbuffers.mp h.buffers_eq, ?_, ?_, ?_, ?_⟩
    · exact (List.cons_prefix_cons.mp h.offers_eq).2
    · exact (List.cons.inj h.lengths_eq).2
    · exact fun habort => absurd habort haborted
    · exact fun ret hret hpos => (h.positive ret hret hpos).trans (congrArg Nat.cast hcount)
    · exact fun ret hret hle => hcount.symm.trans (h.failed ret hret hle)
  · intro h
    refine ⟨h.defined, ?_, hbytes.mpr h.moved_eq, hbuffers.mpr h.buffers_eq, ?_, ?_, ?_, ?_⟩
    · exact List.cons_prefix_cons.mpr ⟨rfl, h.offers_eq⟩
    · rw [List.map_cons, List.map_cons, h.lengths_eq, hbehind]
    · exact fun habort => absurd habort haborted
    · exact fun ret hret hpos => (h.positive ret hret hpos).trans (congrArg Nat.cast hcount.symm)
    · exact fun ret hret hle => hcount.trans (h.failed ret hret hle)

/-- A call that fails behind `start` bytes. -/
theorem proper_failed_iff {tmp : Int} (htmp : tmp ≤ 0) :
    Proper sys dir start (b :: bs) ⟨.returned tmp, [size b], b :: bs, []⟩ ↔ start = 0 := by
  constructor
  · intro h
    have hfailed := h.failed tmp rfl htmp
    simpa using hfailed
  · rintro rfl
    refine ⟨by simp, by simp, ?_, ?_, rfl, fun _ => rfl, fun ret hret hpos => ?_, fun _ _ _ => rfl⟩
    · cases dir <;> rfl
    · cases dir
      · exact (overwrite_nil _ _).symm
      · rfl
    · rw [← Outcome.returned.inj hret] at hpos
      omega

/-- A call that stops inside of a buffer. -/
theorem proper_short_iff {n : Nat} (hpos : 0 < n) (hle : n ≤ b.length) :
    Proper sys dir start (b :: bs) ⟨.returned (toInt32 (start + n)), [size b],
        dir.behind b (dir.bytes sys start b n) :: bs, dir.bytes sys start b n⟩ ↔
      start + n < 2 ^ 31 := by
  have hlength : (dir.bytes sys start b n).length = n := direction_bytes_length hle
  constructor
  · intro h
    have hlt := lt_of_proper (fun ret hret => by
      rw [← Outcome.returned.inj hret]
      exact toInt32_lt _) h (by simp)
    simpa only [hlength] using hlt
  · intro hlt
    have hret : toInt32 (start + n) = ((start + n : Nat) : Int) := by
      rw [← Nat.cast_add]
      exact toInt32_of_lt hlt
    rw [hret]
    refine ⟨by simp, by simp, ?_, ?_, ?_, by simp, ?_, ?_⟩
    · rw [hlength, List.flatten_cons]
      cases dir with
      | receive => rfl
      | send => exact (List.take_append_of_le_length hle).symm
    · rw [List.flatten_cons, List.flatten_cons]
      cases dir with
      | receive => exact (overwrite_append_left _ (by rw [hlength]; omega)).symm
      | send => rfl
    · rw [List.map_cons, List.map_cons, behind_length (by rw [hlength]; exact hle)]
    · intro ret hret _
      rw [← Outcome.returned.inj hret, hlength]
    · intro ret hret hle
      rw [← Outcome.returned.inj hret] at hle
      omega

/-- A loop over no buffers. -/
theorem loop_nil_proper (hstart : start < 2 ^ 31) (k : Nat) :
    Proper sys dir start [] (loop sys dir asked k start start []) := by
  refine ⟨by simp [loop], List.nil_prefix, ?_, ?_, rfl, fun _ => rfl, ?_, ?_⟩
  · cases dir <;> rfl
  · cases dir <;> rfl
  · intro ret hret _
    rw [← Outcome.returned.inj hret]
    rfl
  · intro ret hret hle
    rw [← Outcome.returned.inj hret] at hle
    simp only [loop, List.length_nil]
    omega

/-- A call that transfers bytes. -/
theorem smooth_cons_iff {k n : Nat} (hsize : asked b = size b) (hanswer : sys.answer k (size b) = n)
    (hpos : 0 < n) :
    Smooth sys asked k start (b :: bs) ↔
      start + n < 2 ^ 31 ∧ (n = b.length → Smooth sys asked (k + 1) (start + b.length) bs) := by
  rw [Smooth, hanswer]
  constructor
  · rintro ⟨-, -, h⟩
    obtain ⟨hlt, hrest⟩ := h (by omega)
    exact ⟨by omega, fun hfull => hrest (by rw [size, hfull])⟩
  · rintro ⟨hlt, hrest⟩
    refine ⟨hsize, fun hle => absurd hle (by omega), fun _ => ⟨by omega, fun hfull => hrest ?_⟩⟩
    rw [size] at hfull
    exact_mod_cast hfull

/-- A call that fails. -/
theorem smooth_failed_iff {k : Nat} (hsize : asked b = size b) (hfail : sys.answer k (size b) ≤ 0) :
    Smooth sys asked k start (b :: bs) ↔ start = 0 := by
  rw [Smooth]
  exact ⟨fun h => h.2.1 hfail, fun h => ⟨hsize, fun _ => h, fun hpos => absurd hfail (by omega)⟩⟩

/-- A loop transfers what it says exactly if its calls are smooth. -/
theorem loop_proper_iff (sys : System) (dir : Direction) (bs : List (List UInt8))
    (hstart : start < 2 ^ 31) (k : Nat) (hasked : ∀ b, asked b < 2 ^ 31) :
    Proper sys dir start bs (loop sys dir asked k start start bs) ↔
      Smooth sys asked k start bs := by
  induction bs generalizing k start with
  | nil => exact iff_of_true (loop_nil_proper hstart k) trivial
  | cons b bs ih =>
      by_cases hsize : asked b = size b
      · have hb : b.length < 2 ^ 31 := by
          have hlt := hasked b
          rw [hsize, size] at hlt
          exact_mod_cast hlt
        have hanswer := sys.answer_le k (size b)
        have hle : (sys.answer k (size b)).toNat ≤ b.length := by
          rw [size] at hanswer ⊢
          omega
        have hlength : (dir.bytes sys start b (sys.answer k (size b)).toNat).length =
            (sys.answer k (size b)).toNat := direction_bytes_length hle
        rw [loop]
        simp only [hsize]
        rw [if_neg (by omega)]
        by_cases hfail : sys.answer k (size b) ≤ 0
        · rw [if_pos hfail, proper_failed_iff hfail, smooth_failed_iff hsize hfail]
        · obtain ⟨n, hn⟩ : ∃ n : Nat, sys.answer k (size b) = n :=
            ⟨_, (Int.toNat_of_nonneg (by omega)).symm⟩
          rw [if_neg hfail, smooth_cons_iff hsize hn (by omega)]
          rw [hn, Int.toNat_natCast] at hle hlength ⊢
          rw [toInt32_of_lt hb]
          by_cases hshort : (n : Int) ≠ b.length
          · rw [if_pos hshort, proper_short_iff (by omega) hle]
            exact ⟨fun h => ⟨h, fun heq => absurd (congrArg Nat.cast heq) hshort⟩, fun h => h.1⟩
          · rw [if_neg hshort]
            obtain rfl : n = b.length := by omega
            have hcons := proper_cons_iff bs (loop sys dir asked (k + 1)
              (start + (dir.bytes sys start b b.length).length) (toInt32 (start + b.length)) bs)
              rfl hlength loop_not_aborted
            rw [hcons, hlength]
            by_cases hlt : start + b.length < 2 ^ 31
            · have htotal : toInt32 (start + b.length) = ((start + b.length : Nat) : Int) := by
                rw [← Nat.cast_add]
                exact toInt32_of_lt hlt
              rw [htotal, ih hlt (k + 1)]
              exact ⟨fun h => ⟨hlt, fun _ => h⟩, fun h => h.2 rfl⟩
            · refine iff_of_false (fun h => hlt ?_) fun h => hlt h.1
              have hmore := lt_of_proper (fun ret => loop_returned_lt (toInt32_lt _)) h
                loop_not_aborted
              omega
      · refine iff_of_false (fun h => ?_) fun h => hsize h.1
        obtain ⟨rest, hrest⟩ := loop_offers sys dir asked k start start b bs
        have hoffers := h.offers_eq
        rw [hrest, List.map_cons, List.cons_prefix_cons] at hoffers
        exact hsize hoffers.1

end Loops

/-! ## The functions of the two classes -/

section Functions

variable {sys : System} {m : Members}

/-- A socket that is closed makes no call. -/
theorem closed_proper (dir : Direction) (buffers : List (List UInt8)) :
    Proper sys dir 0 buffers (noCall (.returned (-1)) buffers) :=
  noCall_proper (by simp) fun ret hret => by
    rw [← Outcome.returned.inj hret]
    decide

theorem aborted_proper (dir : Direction) (buffers : List (List UInt8)) :
    Proper sys dir 0 buffers (noCall .aborted buffers) :=
  noCall_proper (by simp) (by simp)

/-- A function of `Socket` that offers its buffers with their lengths. -/
theorem call_proper (dir : Direction) (buffers : List (List UInt8)) :
    Proper sys dir 0 buffers (Socket.call sys dir m (buffers.map size) buffers) := by
  rw [Socket.call]
  split
  · exact once_proper
  · exact closed_proper dir buffers

/-- `recv_from` on a connected socket is proper exactly when the length it is given for the address
is that of the buffer. -/
theorem recvFrom_proper_iff (b : List UInt8) (addrLen : Nat) :
    Proper sys .receive 0 [b] (Socket.recvFrom sys m b addrLen) ↔
      (m.isConnected → addrLen = b.length) := by
  rw [Socket.recvFrom, Socket.call]
  split
  next hconnected =>
    rw [once_proper_iff, size, Nat.cast_inj]
    exact ⟨fun h _ => h, fun h => h hconnected⟩
  next hclosed => exact iff_of_true (closed_proper _ _) fun h => absurd h hclosed

/-- `send` over TLS is proper exactly on buffers below 2^31 bytes. -/
theorem send_proper_iff (b : List UInt8) :
    Proper sys .send 0 [b] (SSLSocket.send sys m b) ↔ (m.ssl → b.length < 2 ^ 31) := by
  rw [SSLSocket.send]
  split
  next hssl =>
    rw [once_proper_iff, intSize_eq_iff]
    exact ⟨fun h _ => h, fun h => h hssl⟩
  next hssl => exact iff_of_true (closed_proper _ _) fun h => absurd h hssl

/-- `SSLSocket::recv` looks at the context in place of the connection. -/
theorem recv_proper_iff (b : List UInt8) :
    Proper sys .receive 0 [b] (SSLSocket.recv sys m b) ↔
      (m.ctx → m.ssl ∧ b.length < 2 ^ 31) := by
  rw [SSLSocket.recv]
  split
  next hctx =>
    split
    next hssl =>
      rw [once_proper_iff, intSize_eq_iff]
      exact ⟨fun h _ => ⟨hssl, h⟩, fun h => (h hctx).2⟩
    next hssl => exact iff_of_false (fun h => h.defined rfl) fun h => hssl (h hctx).1
  next hctx => exact iff_of_true (closed_proper _ _) fun h => absurd h hctx

/-- `send` over several buffers is proper when no size is cut. -/
theorem sendBuffers_proper_iff (bs : List (List UInt8)) :
    Proper sys .send 0 bs (SSLSocket.sendBuffers sys m bs) ↔
      (m.ssl → Smooth sys intSize 0 0 bs) := by
  rw [SSLSocket.sendBuffers]
  split
  next hssl => exact iff_of_true (closed_proper _ _) fun h => absurd h hssl
  next hssl =>
    have hloop := loop_proper_iff sys .send bs (by decide : 0 < 2 ^ 31) 0 fun b =>
      (toInt32_lt _ : intSize b < 2 ^ 31)
    exact hloop.trans ⟨fun h _ => h, fun h => h (not_not.mp hssl)⟩

/-- `recv` over several buffers is proper when all have the size of the first. -/
theorem recvBuffers_proper_iff (bs : List (List UInt8)) :
    Proper sys .receive 0 bs (SSLSocket.recvBuffers sys m bs) ↔
      (m.ssl → Smooth sys (fun _ => intSize (bs.headD [])) 0 0 bs) := by
  rw [SSLSocket.recvBuffers]
  split
  next hssl => exact iff_of_true (closed_proper _ _) fun h => absurd h hssl
  next hssl =>
    have hloop := loop_proper_iff sys .receive bs (by decide : 0 < 2 ^ 31) 0 fun _ =>
      (toInt32_lt _ : intSize (bs.headD []) < 2 ^ 31)
    exact hloop.trans ⟨fun h _ => h, fun h => h (not_not.mp hssl)⟩

end Functions

/-- Every function transfers what it says exactly under its condition. -/
theorem proper_iff (sys : System) (m : Members) (c : Class) (e : Entry) :
    Proper sys e.dir 0 e.buffers (e.effect sys m c) ↔ e.Condition sys m c := by
  cases c with
  | socket =>
      cases e with
      | send b => exact iff_of_true (call_proper _ [b]) trivial
      | sendBuffers bs => exact iff_of_true (call_proper _ bs) trivial
      | sendTo b => exact iff_of_true (call_proper _ [b]) trivial
      | sendBuffersTo bs => exact iff_of_true (call_proper _ bs) trivial
      | recv b => exact iff_of_true (call_proper _ [b]) trivial
      | recvBuffers bs => exact iff_of_true (call_proper _ bs) trivial
      | recvFrom b addrLen => exact recvFrom_proper_iff b addrLen
      | recvBuffersFrom bs => exact iff_of_true (call_proper _ bs) trivial
  | sslSocket =>
      cases e with
      | send b => exact send_proper_iff b
      | sendBuffers bs => exact sendBuffers_proper_iff bs
      | sendTo b => exact iff_of_true (aborted_proper _ [b]) trivial
      | sendBuffersTo bs => exact iff_of_true (aborted_proper _ bs) trivial
      | recv b => exact recv_proper_iff b
      | recvBuffers bs => exact recvBuffers_proper_iff bs
      | recvFrom b addrLen => exact iff_of_true (aborted_proper _ [b]) trivial
      | recvBuffersFrom bs => exact iff_of_true (aborted_proper _ bs) trivial

/-- Every call fails but the first, which transfers up to `most` bytes. -/
def System.failsAfter (most : Nat) (hmost : most < 2 ^ 31) : System where
  incoming _ := 7
  answer k n := if k = 0 ∧ 0 < n then min n most else -1
  answer_le k n := by
    split_ifs
    · omega
    · omega
  answer_int k n := by
    split_ifs
    · omega
    · omega

/-- `recv_from` into four bytes offers the 16 bytes of an address; a list of a buffer of four bytes
and one of two is offered as two buffers of four; and a failure behind the first buffer is returned
though its bytes were sent. -/
theorem not_proper_entries :
    let sys := System.failsAfter 4 (by decide)
    let m : Members := ⟨true, true, true⟩
    (¬Proper sys .receive 0 [[0, 0, 0, 0]] (Socket.recvFrom sys m [0, 0, 0, 0] 16) ∧
      (Socket.recvFrom sys m [0, 0, 0, 0] 16).offers = [16]) ∧
    (¬Proper sys .receive 0 [[0, 0, 0, 0], [0, 0]]
        (SSLSocket.recvBuffers sys m [[0, 0, 0, 0], [0, 0]]) ∧
      (SSLSocket.recvBuffers sys m [[0, 0, 0, 0], [0, 0]]).offers = [4, 4]) ∧
    ¬Proper sys .send 0 [[1, 2], [3, 4]] (SSLSocket.sendBuffers sys m [[1, 2], [3, 4]]) ∧
      (SSLSocket.sendBuffers sys m [[1, 2], [3, 4]]).outcome = .returned (-1) ∧
      (SSLSocket.sendBuffers sys m [[1, 2], [3, 4]]).moved = [1, 2] := by
  refine ⟨⟨?_, by decide⟩, ⟨?_, by decide⟩, ?_, by decide, by decide⟩
  · rw [recvFrom_proper_iff]
    decide
  · intro h
    have hprefix := h.offers_eq
    revert hprefix
    decide
  · intro h
    have hfailed := h.failed (-1) (by decide) (by decide)
    revert hfailed
    decide

end Transfers
end Tiger
