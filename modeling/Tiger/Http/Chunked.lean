import Tiger.Http.ChunkSize
import Tiger.Http.ResponseRounds

/-!
# HTTP - receiving a chunked body

The parser is initialised anew in every call for a size line, and each call
takes all the bytes that are there of the line.  So a line has to be in the
buffer as a whole when the parser starts on it.  A body for whose lines this
holds is received as it was sent, however its data is cut; a line that is cut
behind its digits ends the receiver.

Main results:

- Theorem `recvChunks_whole`: the loop over the chunks returns their data.
- Theorem `recvChunks_cut`: it ends without a body when the first line that is
  cut is cut behind its digits.
- Theorem `recvResponse_chunked`: both for whole responses.
-/

namespace Tiger
namespace Http

open HTTPResponseParser ResponseGrammar SocketStream

/-! ## Encoded bodies -/

/-- A chunk with the digits of its size line. -/
structure Chunk where
  size : Text
  data : Text
  ne : size ≠ []
  digits : ∀ c ∈ size, xdigit.mem c = true
  value : digitsValue 16 size = data.length
  short : data.length < 2 ^ 31 - 2

namespace Chunk

/-- The length of the size line. -/
def lineLength (c : Chunk) : Nat := c.size.length + 2

/-- The bytes of a chunk. -/
def encode (c : Chunk) : Text := c.size ++ 13 :: 10 :: (c.data ++ [13, 10])

/-- The length of a chunk. -/
def length (c : Chunk) : Nat := c.lineLength + (c.data.length + 2)

theorem encode_length (c : Chunk) : c.encode.length = c.length := by
  simp [encode, length, lineLength]
  omega

end Chunk

/-- The bytes of chunks one after the other. -/
def encodeChunks (cs : List Chunk) : Text := (cs.map Chunk.encode).flatten

/-- The data of chunks one after the other. -/
def chunksData (cs : List Chunk) : Text := (cs.map Chunk.data).flatten

theorem encodeChunks_cons (c : Chunk) (cs : List Chunk) :
    encodeChunks (c :: cs) = c.encode ++ encodeChunks cs := by
  simp [encodeChunks]

theorem encodeChunks_singleton (c : Chunk) : encodeChunks [c] = c.encode := by
  simp [encodeChunks]

/-- What is in the buffer when the parser starts on a chunk: the `k` bytes that are
left there, or the bytes of one read. -/
def atLine (bufferSize k : Nat) (s : SocketStream) : Nat :=
  if k = 0 then s.readLength bufferSize else k

/-- The stream behind that read. -/
def atLineStream (bufferSize k : Nat) (s : SocketStream) : SocketStream :=
  if k = 0 then s.skip (s.readLength bufferSize) else s

/-- Every size line is in the buffer as a whole when the parser starts on it. -/
def LinesWhole (bufferSize : Nat) : List Chunk → Nat → SocketStream → Prop
  | [], _, _ => True
  | c :: cs, k, s =>
      c.lineLength ≤ atLine bufferSize k s ∧
        LinesWhole bufferSize cs (atLine bufferSize k s - c.length)
          ((atLineStream bufferSize k s).skip (c.length - atLine bufferSize k s))

/-- The first size line that is not in the buffer as a whole is there with all its
digits. -/
def CutBehindDigits (bufferSize : Nat) : List Chunk → Nat → SocketStream → Prop
  | [], _, _ => False
  | c :: cs, k, s =>
      if c.lineLength ≤ atLine bufferSize k s then
        CutBehindDigits bufferSize cs (atLine bufferSize k s - c.length)
          ((atLineStream bufferSize k s).skip (c.length - atLine bufferSize k s))
      else c.size.length ≤ atLine bufferSize k s

/-! ## The buffer and what comes -/

/-- The next bytes are `rest`: the first of them in the buffer, the others in the
stream. -/
structure Ahead (bufferSize : Nat) (b : Buffered) (rest : Text) : Prop where
  len_le_size : b.len ≤ bufferSize
  len_le : b.len ≤ rest.length
  buffered : slice b.m 0 b.len = rest.take b.len
  coming : CutStream b.s (rest.drop b.len)
  error_eq : b.ps.error = false

section

variable {bufferSize : Nat} {b : Buffered} {rest : Text}

/-- A read into an empty buffer. -/
theorem Ahead.refill (h : Ahead bufferSize b rest) (hsize : 0 < bufferSize) (hlen : b.len = 0)
    (hne : rest ≠ []) :
    ∃ b', refill bufferSize b = .ok b' ∧ Ahead bufferSize b' rest ∧ b'.ps = b.ps ∧
      b'.len = b.s.readLength bufferSize ∧ b'.s = b.s.skip (b.s.readLength bufferSize) ∧
      0 < b'.len := by
  have hcoming := h.coming
  rw [hlen, List.drop_zero] at hcoming
  have hpos := hcoming.readLength_pos hsize hne
  have hbound := hcoming.readLength_le bufferSize
  refine ⟨{ b with m := store b.m b.len (rest.take (b.s.readLength bufferSize)),
                   len := b.len + b.s.readLength bufferSize,
                   s := b.s.skip (b.s.readLength bufferSize) }, ?_, ?_, rfl, ?_, rfl, ?_⟩
  · rw [Http.refill, hlen, Nat.sub_zero]
    simp only [hcoming.read_eq, Int.toNat_natCast]
    rw [if_neg (by omega)]
  · refine ⟨?_, ?_, ?_, ?_, h.error_eq⟩
    · simp only [hlen]
      omega
    · simp only [hlen]
      omega
    · simp only [hlen, Nat.zero_add]
      have hall := slice_store_all b.m (rest.take (b.s.readLength bufferSize))
      rw [hcoming.take_readLength_length] at hall
      exact hall
    · simp only [hlen, Nat.zero_add]
      exact hcoming.skip _
  · simp only [hlen, Nat.zero_add]
  · simp only [hlen, Nat.zero_add]
    exact hpos

/-- The read in front of a size line. -/
theorem Ahead.fetch (h : Ahead bufferSize b rest) (hsize : 0 < bufferSize) {more : Bool}
    (hmore : more = true → b.len = 0) (hne : rest ≠ []) :
    ∃ b', (if more || b.len == 0 then Http.refill bufferSize b else .ok b) = .ok b' ∧
      Ahead bufferSize b' rest ∧ b'.ps = b.ps ∧ b'.len = atLine bufferSize b.len b.s ∧
      b'.s = atLineStream bufferSize b.len b.s ∧ 0 < b'.len := by
  by_cases hlen : b.len = 0
  · rcases h.refill hsize hlen hne with ⟨b', hrefill, hahead, hps, hlen', hs, hpos⟩
    refine ⟨b', ?_, hahead, hps, ?_, ?_, hpos⟩
    · simp only [hlen, beq_self_eq_true, Bool.or_true, if_true, hrefill]
    · simp only [atLine, hlen, if_true, hlen']
    · simp only [atLineStream, hlen, if_true, hs]
  · have hfalse : more = false := by
      cases more with
      | false => rfl
      | true => exact absurd (hmore rfl) hlen
    refine ⟨b, ?_, h, rfl, ?_, ?_, Nat.pos_of_ne_zero hlen⟩
    · simp [hfalse, hlen]
    · simp only [atLine, hlen, if_false]
    · simp only [atLineStream, hlen, if_false]

/-- A call of the parser that takes `n` bytes and finds no error. -/
theorem Ahead.parse (h : Ahead bufferSize b rest) (hsize : bufferSize < 2 ^ 31) {n : Nat}
    {ps : HTTPResponseParser} (hpos : 0 < n) (hle : n ≤ b.len) (herror : ps.hasError = false)
    (hexec : execute (terminate b.m b.len) b.len true b.ps =
      .ok (n, ps, memmove (terminate b.m b.len) n (b.len - n))) :
    ∃ b', parse bufferSize true b = .ok b' ∧ Ahead bufferSize b' (rest.drop n) ∧ b'.ps = ps ∧
      b'.len = b.len - n ∧ b'.s = b.s := by
  have hbound := h.len_le_size
  have hrest := h.len_le
  refine ⟨{ b with ps := ps, m := memmove (terminate b.m b.len) n (b.len - n),
                   len := b.len - n }, ?_, ?_, rfl, rfl, rfl⟩
  · rw [Http.parse, hexec]
    simp only [herror, Bool.false_eq_true, if_false]
    rw [if_neg (by rw [toInt32_of_lt hsize]; omega)]
  · refine ⟨?_, ?_, ?_, ?_, ?_⟩
    · exact le_trans (Nat.sub_le _ _) hbound
    · rw [List.length_drop]
      exact Nat.sub_le_sub_right hrest n
    · simp only
      rw [slice_memmove _ hle, slice_terminate, h.buffered, List.drop_take]
    · simp only
      rw [List.drop_drop, Nat.add_sub_cancel' hle]
      exact h.coming
    · rw [hasError, Bool.or_eq_false_iff] at herror
      exact herror.1

/-! ## Size lines -/

/-- The bytes of a chunk that are in the buffer. -/
theorem encode_take (c : Chunk) (rest : Text) {k : Nat} (hk : c.lineLength ≤ k) :
    (c.encode ++ rest).take k =
      c.size ++ 13 :: 10 :: (c.data ++ 13 :: 10 :: rest).take (k - c.lineLength) := by
  have hsplit : c.encode ++ rest = (c.size ++ [13, 10]) ++ (c.data ++ 13 :: 10 :: rest) := by
    simp [Chunk.encode]
  have hlength : (c.size ++ [13, 10]).length = c.lineLength := by simp [Chunk.lineLength]
  rw [hsplit, List.take_append, hlength, List.take_of_length_le (by omega)]
  simp

/-- Behind the size line of a chunk are its data and the line end. -/
theorem encode_drop (c : Chunk) (rest : Text) :
    (c.encode ++ rest).drop c.lineLength = c.data ++ 13 :: 10 :: rest := by
  have hsplit : c.encode ++ rest = (c.size ++ [13, 10]) ++ (c.data ++ 13 :: 10 :: rest) := by
    simp [Chunk.encode]
  rw [hsplit]
  exact List.drop_left' (by simp [Chunk.lineLength])

/-- The loop for a size line, when the line is in the buffer as a whole. -/
theorem recvChunkSize_whole {c : Chunk} (h : Ahead bufferSize b (c.encode ++ rest))
    (hpos : 0 < bufferSize) (hsize : bufferSize < 2 ^ 31)
    (hline : c.lineLength ≤ atLine bufferSize b.len b.s) (fuel : Nat) :
    ∃ b', recvChunkSize bufferSize (fuel + 1) false b = .ok b' ∧
      Ahead bufferSize b' (c.data ++ 13 :: 10 :: rest) ∧
      b'.ps = b.ps.afterLine c.data.length c.lineLength ∧
      b'.len = atLine bufferSize b.len b.s - c.lineLength ∧
      b'.s = atLineStream bufferSize b.len b.s := by
  have hne : c.encode ++ rest ≠ [] := by simp [Chunk.encode]
  have hmore : false = true → b.len = 0 := by simp
  rcases h.fetch hpos hmore hne with ⟨b₁, hfetch, h₁, hps₁, hlen₁, hs₁, -⟩
  rw [← hlen₁] at hline
  have hbuffered := h₁.buffered
  rw [encode_take c rest hline] at hbuffered
  have hshort := c.short
  have hexec : execute (terminate b₁.m b₁.len) b₁.len true b₁.ps = _ :=
    execute_line (terminate_self b₁.m b₁.len) ((slice_terminate _ _).trans hbuffered) c.ne c.digits
      (by rw [c.value]; omega)
  rw [c.value] at hexec
  have hlinePos : 0 < c.lineLength := by simp [Chunk.lineLength]
  have herror : (b₁.ps.afterLine c.data.length c.lineLength).hasError = false := by
    rw [afterLine_hasError, h₁.error_eq]
  rcases h₁.parse hsize hlinePos hline herror hexec with ⟨b₂, hparse, h₂, hps₂, hlen₂, hs₂⟩
  rw [encode_drop] at h₂
  refine ⟨b₂, ?_, h₂, by rw [hps₂, hps₁], by rw [hlen₂, hlen₁], by rw [hs₂, hs₁]⟩
  have hfinished : b₂.ps.isFinished = true := by
    rw [hps₂, afterLine_isFinished]
  rw [recvChunkSize, hfetch]
  simp only [hparse, hfinished, if_true]

/-- A call of the parser on the start of a line with all its digits takes what is
there and waits. -/
theorem execute_partial {c : Chunk} (h : Ahead bufferSize b (c.encode ++ rest))
    (hdigits : c.size.length ≤ b.len) (hcut : b.len < c.lineLength) :
    ∃ ps, execute (terminate b.m b.len) b.len true b.ps =
        .ok (b.len, ps, memmove (terminate b.m b.len) b.len (b.len - b.len)) ∧
      ps.hasError = false ∧ ps.isFinished = false := by
  have hend := terminate_self b.m b.len
  have hsplit : c.encode ++ rest = c.size ++ ([13] ++ 10 :: (c.data ++ 13 :: 10 :: rest)) := by
    simp [Chunk.encode]
  have hbuffered := (slice_terminate b.m b.len).trans h.buffered
  rw [hsplit, List.take_append, List.take_of_length_le hdigits] at hbuffered
  rw [Chunk.lineLength] at hcut
  rw [Nat.sub_self]
  by_cases hlen : b.len = c.size.length
  · rw [hlen] at hbuffered hend ⊢
    rw [Nat.sub_self, List.take_zero, List.append_nil] at hbuffered
    refine ⟨_, execute_digits hend hbuffered c.ne c.digits, ?_, ?_⟩
    · simp [hasError, afterDigits, reinit, h.error_eq]
    · simp [isFinished, afterDigits, afterDigit]
  · have hreturn : b.len = c.size.length + 1 := by omega
    rw [hreturn] at hbuffered hend ⊢
    rw [Nat.add_sub_cancel_left, List.take_left' (by simp)] at hbuffered
    have hcall : ∃ ps', execute _ _ true b.ps = _ ∧ _ := execute_return hend hbuffered c.ne c.digits
    rcases hcall with ⟨ps, hexec, hcs, herror⟩
    refine ⟨ps, hexec, ?_, ?_⟩
    · rw [hasError, hcs, herror, h.error_eq]
      rfl
    · rw [isFinished, hcs]
      simp [afterReturn]

/-- What is left of a line that is cut behind its digits. -/
theorem encode_drop_cut (c : Chunk) (rest : Text) {k : Nat} (hdigits : c.size.length ≤ k)
    (hcut : k < c.lineLength) :
    ∃ d rest', (c.encode ++ rest).drop k = d :: rest' ∧ (d = 13 ∨ d = 10) := by
  have hsplit : c.encode ++ rest = c.size ++ (13 :: 10 :: (c.data ++ 13 :: 10 :: rest)) := by
    simp [Chunk.encode]
  rw [Chunk.lineLength] at hcut
  rw [hsplit, List.drop_append, List.drop_eq_nil_of_le hdigits, List.nil_append]
  by_cases hk : k = c.size.length
  · rw [hk, Nat.sub_self]
    exact ⟨13, _, rfl, .inl rfl⟩
  · have hone : k - c.size.length = 1 := by omega
    rw [hone]
    exact ⟨10, _, rfl, .inr rfl⟩

/-- A round of the loop for a size line that starts on a line end. -/
theorem recvChunkSize_stuck {d : UInt8} (h : Ahead bufferSize b (d :: rest))
    (hpos : 0 < bufferSize) (hlen : b.len = 0) (hd : d = 13 ∨ d = 10) (fuel : Nat) :
    ∃ s', recvChunkSize bufferSize (fuel + 1) true b = .error (.null s') := by
  have hmore : true = true → b.len = 0 := fun _ => hlen
  rcases h.fetch hpos hmore (List.cons_ne_nil d rest) with ⟨b₁, hfetch, h₁, -, -, -, hpos₁⟩
  have hfirst : terminate b₁.m b₁.len 0 = d := by
    rcases Nat.exists_eq_add_of_lt hpos₁ with ⟨k, hk⟩
    have hbuffered := (slice_terminate b₁.m b₁.len).trans h₁.buffered
    rw [Nat.zero_add] at hk
    rw [hk, slice, List.take_succ_cons, List.cons.injEq] at hbuffered
    rw [hk]
    exact hbuffered.1
  have hstart : terminate b₁.m b₁.len 0 = 13 ∨ terminate b₁.m b₁.len 0 = 10 := by
    rw [hfirst]
    exact hd
  have hcall : ∃ n ps' m', execute _ _ true b₁.ps = .ok (n, ps', m') ∧ _ :=
    execute_stuck (terminate_self b₁.m b₁.len) hpos₁ hstart
  rcases hcall with ⟨n, ps, m, hexec, hcs⟩
  refine ⟨b₁.s.close, ?_⟩
  rw [recvChunkSize, hfetch]
  simp only [parse, hexec, hasError, hcs, Option.isNone_none, Bool.or_true, if_true]

/-- The loop for a size line, when the line is cut behind its digits: the parser
takes what is there, and then starts on the rest of the line end. -/
theorem recvChunkSize_cut {c : Chunk} (h : Ahead bufferSize b (c.encode ++ rest))
    (hpos : 0 < bufferSize) (hsize : bufferSize < 2 ^ 31)
    (hdigits : c.size.length ≤ atLine bufferSize b.len b.s)
    (hcut : atLine bufferSize b.len b.s < c.lineLength) (fuel : Nat) :
    ∃ s', recvChunkSize bufferSize (fuel + 2) false b = .error (.null s') := by
  have hne : c.encode ++ rest ≠ [] := by simp [Chunk.encode]
  have hmore : false = true → b.len = 0 := by simp
  rcases h.fetch hpos hmore hne with ⟨b₁, hfetch, h₁, hps₁, hlen₁, hs₁, hpos₁⟩
  rw [← hlen₁] at hdigits hcut
  rcases execute_partial h₁ hdigits hcut with ⟨ps, hexec, herror, hfinished⟩
  rcases h₁.parse hsize hpos₁ le_rfl herror hexec with ⟨b₂, hparse, h₂, hps₂, hlen₂, hs₂⟩
  rw [Nat.sub_self] at hlen₂
  rcases encode_drop_cut c rest hdigits hcut with ⟨d, rest', hrest, hd⟩
  rw [hrest] at h₂
  rcases recvChunkSize_stuck h₂ hpos hlen₂ hd fuel with ⟨s', hstuck⟩
  refine ⟨s', ?_⟩
  rw [recvChunkSize, hfetch]
  simp only [hparse, hps₂, hfinished, Bool.false_eq_true, if_false, hstuck]

/-! ## The data of a chunk -/

/-- The loop for the rest of a chunk takes the next bytes of the stream. -/
theorem recvLeft_eq {s : SocketStream} {bytes : Text} (h : CutStream s bytes)
    (hpos : 0 < bufferSize) (hsize : bufferSize < 2 ^ 31) {fuel left : Nat} (body : Text)
    (m : Memory)
    (hfuel : left < fuel) (hle : left ≤ bytes.length) (hleft : left < 2 ^ 31) :
    ∃ m', recvLeft bufferSize fuel left body m s =
      .ok (body ++ bytes.take left, m', s.skip left) := by
  induction fuel generalizing s bytes left body m with
  | zero => omega
  | succ fuel ih =>
      by_cases hzero : left = 0
      · subst hzero
        rw [recvLeft_succ, if_pos (by simp), List.take_zero, List.append_nil, h.skip_zero]
        exact ⟨m, rfl⟩
      · have hask : ask bufferSize left = min bufferSize left := by
          rw [ask, toInt32_of_lt hsize]
          split
          next hgt =>
            rw [toSizeT_of_nonneg (by omega)]
            omega
          next hle' =>
            rw [toSizeT_of_nonneg (by omega)]
            omega
        have hne : bytes ≠ [] := by
          rintro rfl
          simp at hle
          omega
        have hask' : 0 < min bufferSize left := by omega
        have hread := h.readLength_pos hask' hne
        have hbound := h.readLength_le (min bufferSize left)
        rw [recvLeft_round h (by omega), hask]
        generalize s.readLength (min bufferSize left) = k at hread hbound ⊢
        rw [show (left : Int) - (k : Int) = ((left - k : Nat) : Int) by omega]
        rcases ih (h.skip k) (body ++ bytes.take k) (store m 0 (bytes.take k))
          (show left - k < fuel by omega) (by rw [List.length_drop]; omega) (by omega) with
          ⟨m', hrest⟩
        refine ⟨m', ?_⟩
        rw [hrest, h.skip_skip, List.append_assoc, ← List.take_add,
          Nat.add_sub_cancel' (by omega)]

/-- Behind the data and the line end is the rest. -/
theorem lineEnd_drop (data rest : Text) :
    (data ++ 13 :: 10 :: rest).drop (data.length + 2) = rest := by
  have hsplit : data ++ 13 :: 10 :: rest = (data ++ [13, 10]) ++ rest := by simp
  rw [hsplit]
  exact List.drop_left' (by simp)

/-- A chunk that ends in the buffer. -/
theorem recvChunkData_buffered {data : Text} (h : Ahead bufferSize b (data ++ 13 :: 10 :: rest))
    (hdata : b.ps.contentLen = data.length) (hshort : data.length < 2 ^ 31 - 2)
    (hfits : data.length + 2 ≤ b.len) (fuel : Nat) (body : Text) :
    ∃ b', recvChunkData bufferSize fuel b body = .ok (b', body ++ data) ∧
      Ahead bufferSize b' rest ∧ b'.ps = b.ps ∧ b'.len = b.len - (data.length + 2) ∧
      b'.s = b.s := by
  have hbuffered := h.buffered
  have hcoming := h.coming
  have hcast : toInt32 ((data.length : Int) + 2) = ((data.length + 2 : Nat) : Int) :=
    toInt32_of_lt (n := data.length + 2) (by omega)
  have hbody : slice b.m 0 data.length = data := by
    have hadd : b.len = data.length + (b.len - data.length) := by omega
    rw [hadd, slice_add, List.take_append, List.take_of_length_le (by omega)] at hbuffered
    exact (List.append_inj hbuffered (by simp)).1
  rw [recvChunkData, hdata]
  simp only [hcast]
  rw [if_pos (by omega), if_neg (by omega), if_neg (by omega), Int.toNat_natCast, hbody]
  refine ⟨_, rfl, ⟨?_, ?_, ?_, ?_, h.error_eq⟩, rfl, rfl, rfl⟩
  · exact le_trans (Nat.sub_le _ _) h.len_le_size
  · have hrest := Nat.sub_le_sub_right h.len_le (data.length + 2)
    rw [← List.length_drop, lineEnd_drop] at hrest
    exact hrest
  · simp only
    rw [slice_memmove _ hfits, hbuffered, List.drop_take, lineEnd_drop]
  · simp only
    have hadd : b.len = data.length + 2 + (b.len - (data.length + 2)) := by omega
    rw [hadd, ← List.drop_drop, lineEnd_drop] at hcoming
    exact hcoming

/-- A chunk that goes on in the stream. -/
theorem recvChunkData_left {data : Text} (h : Ahead bufferSize b (data ++ 13 :: 10 :: rest))
    (hpos : 0 < bufferSize) (hsize : bufferSize < 2 ^ 31) (hdata : b.ps.contentLen = data.length)
    (hshort : data.length < 2 ^ 31 - 2) (hmore : b.len < data.length + 2) {fuel : Nat}
    (hfuel : data.length + 2 < fuel) (body : Text) :
    ∃ b', recvChunkData bufferSize fuel b body = .ok (b', body ++ data) ∧
      Ahead bufferSize b' rest ∧ b'.ps = b.ps ∧ b'.len = 0 ∧
      b'.s = b.s.skip (data.length + 2 - b.len) := by
  have hsplit : data ++ 13 :: 10 :: rest = (data ++ [13, 10]) ++ rest := by simp
  have hcount : (data ++ [13, 10]).length = data.length + 2 := by simp
  have hcast : toInt32 ((data.length : Int) + 2) = ((data.length + 2 : Nat) : Int) :=
    toInt32_of_lt (n := data.length + 2) (by omega)
  have hleft : (data.length : Int) - (b.len : Int) + 2 =
      ((data.length + 2 - b.len : Nat) : Int) := by
    omega
  have hcoming : (data ++ 13 :: 10 :: rest).drop b.len = (data ++ [13, 10]).drop b.len ++ rest := by
    rw [hsplit, List.drop_append_of_le_length (by omega)]
  have hlength : ((data ++ [13, 10]).drop b.len).length = data.length + 2 - b.len := by
    rw [List.length_drop, hcount]
  have hrecv : ∃ m', recvLeft bufferSize fuel ((data.length + 2 - b.len : Nat) : Int)
      (body ++ slice b.m 0 b.len) b.m b.s = .ok (_, m', _) :=
    recvLeft_eq h.coming hpos hsize (body ++ slice b.m 0 b.len) b.m (by omega)
      (by rw [hcoming, List.length_append, hlength]; omega) (by omega)
  rcases hrecv with ⟨m', hrecv⟩
  have htaken : body ++ slice b.m 0 b.len ++
      ((data ++ 13 :: 10 :: rest).drop b.len).take (data.length + 2 - b.len) =
      body ++ data ++ [13, 10] := by
    rw [hcoming, List.take_left' hlength, h.buffered, hsplit,
      List.take_append_of_le_length (by omega), List.append_assoc, List.take_append_drop,
      List.append_assoc]
  rw [htaken] at hrecv
  refine ⟨{ b with m := m', len := 0, s := b.s.skip (data.length + 2 - b.len) }, ?_, ?_, rfl, rfl,
    rfl⟩
  · rw [recvChunkData, hdata]
    simp only [hcast]
    rw [if_neg (by omega), hleft, hrecv]
    simp only
    rw [if_neg (by simp; omega), List.length_append, List.length_cons, List.length_cons,
      List.length_nil, Nat.add_sub_cancel, List.take_left' rfl]
  · refine ⟨Nat.zero_le _, Nat.zero_le _, rfl, ?_, h.error_eq⟩
    have hskip := h.coming.skip (data.length + 2 - b.len)
    rw [hcoming, List.drop_left' hlength] at hskip
    exact hskip

/-- The data of a chunk and the line end behind it are taken. -/
theorem recvChunkData_eq {data : Text} (h : Ahead bufferSize b (data ++ 13 :: 10 :: rest))
    (hpos : 0 < bufferSize) (hsize : bufferSize < 2 ^ 31) (hdata : b.ps.contentLen = data.length)
    (hshort : data.length < 2 ^ 31 - 2) {fuel : Nat} (hfuel : data.length + 2 < fuel)
    (body : Text) :
    ∃ b', recvChunkData bufferSize fuel b body = .ok (b', body ++ data) ∧
      Ahead bufferSize b' rest ∧ b'.ps = b.ps ∧ b'.len = b.len - (data.length + 2) ∧
      b'.s = b.s.skip (data.length + 2 - b.len) := by
  by_cases hfits : data.length + 2 ≤ b.len
  · rw [Nat.sub_eq_zero_of_le hfits, h.coming.skip_zero]
    exact recvChunkData_buffered h hdata hshort hfits fuel body
  · rw [Nat.sub_eq_zero_of_le (Nat.le_of_not_le hfits)]
    exact recvChunkData_left h hpos hsize hdata hshort (Nat.lt_of_not_le hfits) hfuel body

/-! ## The chunks -/

/-- A chunk whose size line is in the buffer as a whole. -/
theorem recvChunks_step {c : Chunk} (h : Ahead bufferSize b (c.encode ++ rest))
    (hpos : 0 < bufferSize) (hsize : bufferSize < 2 ^ 31)
    (hline : c.lineLength ≤ atLine bufferSize b.len b.s) {fuel : Nat} (hfuel : c.length ≤ fuel)
    (body : Text) :
    ∃ b', recvChunks bufferSize (fuel + 1) b body =
        (if c.data = [] then .ok (b', body) else recvChunks bufferSize fuel b' (body ++ c.data)) ∧
      Ahead bufferSize b' rest ∧ b'.ps.data = b.ps.data ∧
      b'.len = atLine bufferSize b.len b.s - c.length ∧
      b'.s = (atLineStream bufferSize b.len b.s).skip (c.length - atLine bufferSize b.len b.s) := by
  rcases recvChunkSize_whole h hpos hsize hline fuel with ⟨b₁, hrecv₁, h₁, hps₁, hlen₁, hs₁⟩
  have hcontent : b₁.ps.contentLen = c.data.length := by rw [hps₁, afterLine_contentLen]
  have hlong : c.data.length + 2 < fuel + 1 := by
    rw [Chunk.length] at hfuel
    omega
  rcases recvChunkData_eq h₁ hpos hsize hcontent c.short hlong body with
    ⟨b₂, hrecv₂, h₂, hps₂, hlen₂, hs₂⟩
  refine ⟨b₂, ?_, h₂, ?_, ?_, ?_⟩
  · rw [recvChunks, hrecv₁]
    simp only [hrecv₂, hps₂, hps₁, afterLine_chunksDone]
    by_cases hdata : c.data = []
    · simp [hdata]
    · have hdone : ¬ (c.data.length : Int) ≤ 0 := by
        have hpos := List.length_pos_iff.mpr hdata
        omega
      simp only [hdata, hdone, decide_false, Bool.false_eq_true, if_false]
  · rw [hps₂, hps₁, afterLine_data]
  · rw [hlen₂, hlen₁, Chunk.length]
    omega
  · rw [hs₂, hs₁, hlen₁, Chunk.length]
    congr 1
    omega

/-- The loop over the chunks returns their data when every size line is in the
buffer as a whole. -/
theorem recvChunks_whole {cs : List Chunk} {last : Chunk} (hdata : ∀ c ∈ cs, c.data ≠ [])
    (hlast : last.data = []) (h : Ahead bufferSize b (encodeChunks (cs ++ [last]) ++ rest))
    (hpos : 0 < bufferSize) (hsize : bufferSize < 2 ^ 31)
    (hwhole : LinesWhole bufferSize (cs ++ [last]) b.len b.s) {fuel : Nat}
    (hfuel : (encodeChunks (cs ++ [last])).length < fuel) (body : Text) :
    ∃ b', recvChunks bufferSize fuel b body = .ok (b', body ++ chunksData cs) ∧
      b'.ps.data = b.ps.data := by
  induction cs generalizing b fuel body with
  | nil =>
      rw [List.nil_append, encodeChunks_singleton] at h hfuel
      rw [last.encode_length] at hfuel
      cases fuel with
      | zero => omega
      | succ fuel =>
          rcases recvChunks_step h hpos hsize hwhole.1 (Nat.le_of_lt_succ hfuel) body with
            ⟨b', hrecv, -, hps, -, -⟩
          rw [if_pos hlast] at hrecv
          refine ⟨b', ?_, hps⟩
          rw [hrecv, chunksData, List.map_nil, List.flatten_nil, List.append_nil]
  | cons c cs ih =>
      rw [List.cons_append, encodeChunks_cons] at h hfuel
      rw [List.append_assoc] at h
      rw [List.length_append, c.encode_length] at hfuel
      cases fuel with
      | zero => omega
      | succ fuel =>
          rcases recvChunks_step h hpos hsize hwhole.1 (show c.length ≤ fuel by omega) body with
            ⟨b', hrecv, h', hps, hlen, hs⟩
          rw [if_neg (hdata c List.mem_cons_self)] at hrecv
          have hwhole' := hwhole.2
          rw [← hlen, ← hs] at hwhole'
          have hclen : 0 < c.length := by simp [Chunk.length]
          rcases ih (fun c' hc' => hdata c' (List.mem_cons_of_mem _ hc')) h' hwhole'
            (show _ < fuel by omega) (body ++ c.data) with ⟨b'', hrest, hps'⟩
          refine ⟨b'', ?_, hps'.trans hps⟩
          rw [hrecv, hrest, List.append_assoc, chunksData, chunksData, List.map_cons,
            List.flatten_cons]

/-- A chunk whose size line is cut behind its digits. -/
theorem recvChunks_cutLine {c : Chunk} (h : Ahead bufferSize b (c.encode ++ rest))
    (hpos : 0 < bufferSize) (hsize : bufferSize < 2 ^ 31)
    (hdigits : c.size.length ≤ atLine bufferSize b.len b.s)
    (hcut : atLine bufferSize b.len b.s < c.lineLength) (fuel : Nat) (body : Text) :
    ∃ s', recvChunks bufferSize (fuel + 2) b body = .error (.null s') := by
  rcases recvChunkSize_cut h hpos hsize hdigits hcut fuel with ⟨s', hrecv⟩
  refine ⟨s', ?_⟩
  rw [recvChunks, hrecv]

/-- The loop over the chunks ends without a body when the first size line that is
cut is cut behind its digits. -/
theorem recvChunks_cut {cs : List Chunk} {last : Chunk} (hdata : ∀ c ∈ cs, c.data ≠ [])
    (h : Ahead bufferSize b (encodeChunks (cs ++ [last]) ++ rest))
    (hpos : 0 < bufferSize) (hsize : bufferSize < 2 ^ 31)
    (hcut : CutBehindDigits bufferSize (cs ++ [last]) b.len b.s) {fuel : Nat}
    (hfuel : (encodeChunks (cs ++ [last])).length < fuel) (body : Text) :
    ∃ s', recvChunks bufferSize fuel b body = .error (.null s') := by
  induction cs generalizing b fuel body with
  | nil =>
      rw [List.nil_append, encodeChunks_singleton] at h hfuel
      rw [last.encode_length, Chunk.length] at hfuel
      rcases Nat.exists_eq_add_of_le (show 2 ≤ fuel by omega) with ⟨k, rfl⟩
      rw [Nat.add_comm 2]
      rw [List.nil_append, CutBehindDigits] at hcut
      by_cases hline : last.lineLength ≤ atLine bufferSize b.len b.s
      · rw [if_pos hline] at hcut
        exact hcut.elim
      · rw [if_neg hline] at hcut
        exact recvChunks_cutLine h hpos hsize hcut (Nat.lt_of_not_le hline) k body
  | cons c cs ih =>
      rw [List.cons_append, encodeChunks_cons] at h hfuel
      rw [List.append_assoc] at h
      rw [List.length_append, c.encode_length] at hfuel
      have hclen : 2 ≤ c.length := by
        rw [Chunk.length]
        omega
      rcases Nat.exists_eq_add_of_le (show 2 ≤ fuel by omega) with ⟨k, rfl⟩
      rw [Nat.add_comm 2] at hfuel ⊢
      rw [List.cons_append, CutBehindDigits] at hcut
      by_cases hline : c.lineLength ≤ atLine bufferSize b.len b.s
      · rw [if_pos hline] at hcut
        rcases recvChunks_step h hpos hsize hline (show c.length ≤ k + 1 by omega) body with
          ⟨b', hrecv, h', -, hlen, hs⟩
        rw [if_neg (hdata c List.mem_cons_self)] at hrecv
        rw [← hlen, ← hs] at hcut
        rw [hrecv]
        exact ih (fun c' hc' => hdata c' (List.mem_cons_of_mem _ hc')) h' hcut (by omega)
          (body ++ c.data)
      · rw [if_neg hline] at hcut
        exact recvChunks_cutLine h hpos hsize hcut (Nat.lt_of_not_le hline) k body

end

/-! ## The header -/

/-- The parser does not touch the body. -/
theorem act_body {m : Memory} {length p : Nat} {a : ResponseAction} {ps ps' : HTTPResponseParser}
    (h : act m length p a ps = some ps') : ps'.data.body = ps.data.body := by
  cases a with
  | writeValue =>
      simp only [act, onResponseHttpField] at h
      split at h
      next => cases h; rfl
      next =>
        split at h
        next => cases h; rfl
        next => cases h
  | httpVersion =>
      simp only [act, onResponseHttpVersion] at h
      split at h
      next => cases h; rfl
      next =>
        split at h
        next => cases h; rfl
        next =>
          rcases Option.map_eq_some_iff.mp h with ⟨v, -, rfl⟩
          rfl
  | reasonPhrase =>
      rcases Option.map_eq_some_iff.mp h with ⟨v, -, rfl⟩
      rfl
  | _ => cases h; rfl

/-- The actions leave the body alone. -/
theorem acts_body {m : Memory} {length p : Nat} {as : List ResponseAction}
    {ps ps' : HTTPResponseParser} (h : acts m length p as ps = some ps') :
    ps'.data.body = ps.data.body := by
  induction as generalizing ps with
  | nil =>
      cases h
      rfl
  | cons a as ih =>
      rcases Option.bind_eq_some_iff.mp h with ⟨ps₁, hact, hrest⟩
      rw [ih hrest, act_body hact]

/-- The machine leaves the body alone. -/
theorem exec_body {m : Memory} {length n p q : Nat} {ps ps' : HTTPResponseParser}
    (h : exec m length n p ps = some (q, ps')) : ps'.data.body = ps.data.body := by
  induction n generalizing p ps with
  | zero =>
      cases h
      rfl
  | succ n ih =>
      rw [exec] at h
      split at h
      next =>
        cases h
        rfl
      next =>
        split at h
        next =>
          cases h
          rfl
        next =>
          rcases Option.bind_eq_some_iff.mp h with ⟨ps₁, hacts, hrest⟩
          have hbody := acts_body hacts
          split at hrest
          next =>
            cases hrest
            exact hbody
          next => rw [ih hrest, hbody]

/-- A call of the parser leaves the body alone. -/
theorem execute_body {m m' : Memory} {length n : Nat} {ps ps' : HTTPResponseParser}
    (h : execute m length false ps = .ok (n, ps', m')) : ps'.data.body = ps.data.body := by
  rw [execute] at h
  split at h
  next => cases h
  next =>
    split at h
    next => cases h
    next p ps₁ hexec =>
      have hbody := exec_body hexec
      simp only at h
      split at h
      next => cases h
      next =>
        split at h
        next => cases h
        next =>
          cases h
          exact hbody

/-- A call of the parser with its tests, as the header loop needs it. -/
theorem parse_ok {bufferSize : Nat} {b b' : Buffered} (h : parse bufferSize false b = .ok b') :
    b'.ps.data.body = b.ps.data.body ∧ b'.ps.error = false ∧ b'.len ≤ b.len := by
  rw [parse] at h
  split at h
  next => cases h
  next n ps m hexec =>
    split at h
    next => cases h
    next herror =>
      split at h
      next => cases h
      next =>
        cases h
        rw [hasError, Bool.or_eq_true, not_or, Bool.not_eq_true] at herror
        exact ⟨execute_body hexec, herror.1, Nat.sub_le _ _⟩

/-- A read leaves the parser alone and fills the buffer at most. -/
theorem refill_ok {bufferSize : Nat} {b b' : Buffered} (h : refill bufferSize b = .ok b') :
    b'.ps = b.ps ∧ b'.len ≤ max b.len bufferSize ∧ 0 < bufferSize := by
  have hread := read_le b.s (bufferSize - b.len)
  rw [refill] at h
  split at h
  next => cases h
  next hpos =>
    cases h
    refine ⟨rfl, ?_, ?_⟩
    · simp only
      omega
    · omega

/-- What the header loop leaves behind. -/
theorem recvResponseHeader_ok {bufferSize fuel : Nat} {b b' : Buffered}
    (h : recvResponseHeader bufferSize fuel b = .ok b') (hlen : b.len ≤ bufferSize) :
    b'.ps.data.body = b.ps.data.body ∧ b'.ps.error = false ∧ b'.len ≤ bufferSize ∧
      0 < bufferSize := by
  induction fuel generalizing b with
  | zero => cases h
  | succ fuel ih =>
      rw [recvResponseHeader] at h
      split at h
      next => cases h
      next b₁ hrefill =>
        rcases refill_ok hrefill with ⟨hps₁, hlen₁, hpos⟩
        split at h
        next => cases h
        next b₂ hparse =>
          rcases parse_ok hparse with ⟨hbody₂, herror₂, hlen₂⟩
          have hlen' : b₂.len ≤ bufferSize := by omega
          split at h
          next =>
            cases h
            exact ⟨by rw [hbody₂, hps₁], herror₂, hlen', hpos⟩
          next =>
            have hrest := ih h hlen'
            rw [hbody₂, hps₁] at hrest
            exact hrest

/-- More rounds do not change how the header loop ends. -/
theorem recvResponseHeader_mono {bufferSize fuel fuel' : Nat} {b b' : Buffered}
    (h : recvResponseHeader bufferSize fuel b = .ok b') (hle : fuel ≤ fuel') :
    recvResponseHeader bufferSize fuel' b = .ok b' := by
  have hne : recvResponseHeader bufferSize fuel b ≠ .error .outOfFuel := by
    rw [h]
    nofun
  exact (recvResponseHeader_stable b fuel fuel' hle hne).trans h

/-! ## Responses -/

/-- The name of the field that asks for a decoding. -/
def contentEncoding : Text :=
  text ['c', 'o', 'n', 't', 'e', 'n', 't', '-', 'e', 'n', 'c', 'o', 'd', 'i', 'n', 'g']

/-- A body without an encoding is stored as it is. -/
theorem decodeBody_plain {env : ClientEnv} {r : HTTPResponse} (body : Text)
    (hplain : r.headers.find contentEncoding = none) (hbody : r.body = []) :
    decodeBody env r body = { r with body := body } := by
  rw [contentEncoding] at hplain
  rw [decodeBody]
  split
  next hempty =>
    rw [List.isEmpty_iff] at hempty
    rw [hempty, ← hbody]
  next =>
    simp only [hplain, Option.getD_none]
    rw [if_neg (by decide), if_neg (by decide)]

/-- A chunked body behind a complete header: the header loop ends with `b`, and what
is in the buffer there and what comes in the stream are the chunks. -/
structure ChunkedBody (env : ClientEnv) (bufferSize : Nat) (s : SocketStream) (b : Buffered)
    (cs : List Chunk) (last : Chunk) : Prop where
  header : ∃ rounds, recvResponseHeader bufferSize rounds
    ⟨HTTPResponseParser.init, env.memory, 0, s⟩ = .ok b
  chunked : b.ps.chunked = true
  plain : b.ps.data.headers.find contentEncoding = none
  data : ∀ c ∈ cs, c.data ≠ []
  last_data : last.data = []
  stream : ∃ bytes, CutStream b.s bytes ∧ slice b.m 0 b.len ++ bytes = encodeChunks (cs ++ [last])

/-- The response is returned with the data of the chunks. -/
def ReturnsChunks (env : ClientEnv) (bufferSize : Nat) (s : SocketStream) (b : Buffered)
    (cs : List Chunk) : Prop :=
  ∃ least, ∀ fuel ≥ least, ∃ s', recvResponse env bufferSize fuel s =
    .ok ({ b.ps.data with body := chunksData cs }, s')

/-- The null pointer is returned. -/
def ReturnsNull (env : ClientEnv) (bufferSize : Nat) (s : SocketStream) : Prop :=
  ∃ least, ∀ fuel ≥ least, ∃ s', recvResponse env bufferSize fuel s = .error (.null s')

/-- A receiver that gives up does not return the chunks. -/
theorem ReturnsNull.not_returnsChunks {env : ClientEnv} {bufferSize : Nat} {s : SocketStream}
    {b : Buffered} {cs : List Chunk} (h : ReturnsNull env bufferSize s) :
    ¬ ReturnsChunks env bufferSize s b cs := by
  rintro ⟨least', hchunks⟩
  rcases h with ⟨least, hnull⟩
  rcases hchunks (max least least') (Nat.le_max_right _ _) with ⟨s', hok⟩
  rcases hnull (max least least') (Nat.le_max_left _ _) with ⟨s'', herror⟩
  rw [hok] at herror
  cases herror

section

variable {env : ClientEnv} {bufferSize : Nat} {s : SocketStream} {b : Buffered} {cs : List Chunk}
  {last : Chunk}

/-- The chunks lie ahead when the header loop has ended. -/
theorem ChunkedBody.ahead (h : ChunkedBody env bufferSize s b cs last) :
    Ahead bufferSize b (encodeChunks (cs ++ [last]) ++ []) ∧ b.ps.data.body = [] ∧
      0 < bufferSize := by
  rcases h.header with ⟨rounds, hheader⟩
  rcases h.stream with ⟨bytes, hstream, hbytes⟩
  rcases recvResponseHeader_ok hheader (Nat.zero_le _) with ⟨hbody, herror, hlen, hpos⟩
  refine ⟨?_, hbody, hpos⟩
  rw [List.append_nil, ← hbytes]
  refine ⟨hlen, ?_, ?_, ?_, herror⟩
  · rw [List.length_append, slice_length]
    exact Nat.le_add_right _ _
  · rw [List.take_left' (slice_length _ _ _)]
  · rw [List.drop_left' (slice_length _ _ _)]
    exact hstream

/-- The receiver goes on with the chunks. -/
theorem ChunkedBody.recvResponse_eq (h : ChunkedBody env bufferSize s b cs last) :
    ∃ rounds, ∀ fuel ≥ rounds,
      (∀ b' body, recvChunks bufferSize fuel b [] = .ok (b', body) →
        recvResponse env bufferSize fuel s = .ok (decodeBody env b'.ps.data body, b'.s)) ∧
      (∀ e, recvChunks bufferSize fuel b [] = .error e →
        recvResponse env bufferSize fuel s = .error e) := by
  rcases h.header with ⟨rounds, hheader⟩
  refine ⟨rounds, ?_⟩
  intro fuel hfuel
  rw [recvResponse, recvResponseHeader_mono hheader hfuel]
  simp only [h.chunked, if_true]
  constructor
  · intro b' body hchunks
    simp only [hchunks]
  · intro e hchunks
    simp only [hchunks]

/-- A body whose size lines come whole is returned. -/
theorem ChunkedBody.returnsChunks (h : ChunkedBody env bufferSize s b cs last)
    (hsize : bufferSize < 2 ^ 31) (hwhole : LinesWhole bufferSize (cs ++ [last]) b.len b.s) :
    ReturnsChunks env bufferSize s b cs := by
  rcases h.ahead with ⟨hahead, hbody, hpos⟩
  rcases h.recvResponse_eq with ⟨rounds, hrecv⟩
  refine ⟨rounds + (encodeChunks (cs ++ [last])).length + 1, ?_⟩
  intro fuel hfuel
  rcases recvChunks_whole h.data h.last_data hahead hpos hsize hwhole (show _ < fuel by omega) []
    with ⟨b', hchunks, hps⟩
  refine ⟨b'.s, ?_⟩
  rw [(hrecv fuel (by omega)).1 b' _ hchunks, hps, List.nil_append,
    decodeBody_plain _ h.plain hbody]

/-- A body with a size line that is cut behind its digits is given up. -/
theorem ChunkedBody.returnsNull (h : ChunkedBody env bufferSize s b cs last)
    (hsize : bufferSize < 2 ^ 31) (hcut : CutBehindDigits bufferSize (cs ++ [last]) b.len b.s) :
    ReturnsNull env bufferSize s := by
  rcases h.ahead with ⟨hahead, hbody, hpos⟩
  rcases h.recvResponse_eq with ⟨rounds, hrecv⟩
  refine ⟨rounds + (encodeChunks (cs ++ [last])).length + 1, ?_⟩
  intro fuel hfuel
  rcases recvChunks_cut h.data hahead hpos hsize hcut (show _ < fuel by omega) [] with
    ⟨s', hchunks⟩
  exact ⟨s', (hrecv fuel (by omega)).2 _ hchunks⟩

/-- A chunked body is received as it was sent when every size line is in the buffer
as a whole at its turn.  When the first line that is cut is cut behind its digits,
there is no response. -/
theorem recvResponse_chunked (h : ChunkedBody env bufferSize s b cs last)
    (hsize : bufferSize < 2 ^ 31) :
    (LinesWhole bufferSize (cs ++ [last]) b.len b.s → ReturnsChunks env bufferSize s b cs) ∧
      (CutBehindDigits bufferSize (cs ++ [last]) b.len b.s → ReturnsNull env bufferSize s) :=
  ⟨h.returnsChunks hsize, h.returnsNull hsize⟩

end

/-! ## A body in two pieces -/

/-- The surroundings of a call that uses none of them. -/
def plainClient : ClientEnv := ⟨fun _ => 0, fun _ => none, id, id⟩

/-- A header that announces chunks. -/
def chunkedHeader : Text :=
  text ['H', 'T', 'T', 'P', '/', '1', '.', '1', ' ', '2', '0', '0', ' ', 'O', 'K', '\r', '\n',
    'T', 'r', 'a', 'n', 's', 'f', 'e', 'r', '-', 'E', 'n', 'c', 'o', 'd', 'i', 'n', 'g', ':',
    'c', 'h', 'u', 'n', 'k', 'e', 'd', '\r', '\n', '\r', '\n']

/-- The chunk with the data `abc`. -/
def abcChunk : Chunk :=
  ⟨[51], [97, 98, 99], by decide, List.forall_mem_singleton.mpr (by decide), by decide, by simp⟩

/-- The last chunk. -/
def zeroChunk : Chunk :=
  ⟨[48], [], by decide, List.forall_mem_singleton.mpr (by decide), by decide, by simp⟩

/-- The stream behind the header. -/
def behindHeader (cuts : List Text) : SocketStream :=
  (ofCuts (chunkedHeader :: cuts)).skip chunkedHeader.length

/-- The header loop has read a header of a chunked body and nothing else. -/
def headerAlone (cuts : List Text) : Except Failure Buffered → Bool
  | .ok b => b.ps.chunked && decide (b.ps.data.headers.find contentEncoding = none) && b.len == 0 &&
      decide (b.s = behindHeader cuts)
  | .error _ => false

/-- The test for a header that comes alone is exact. -/
theorem headerAlone_ok {cuts : List Text} {r : Except Failure Buffered}
    (h : headerAlone cuts r = true) :
    ∃ b, r = .ok b ∧ b.ps.chunked = true ∧ b.ps.data.headers.find contentEncoding = none ∧
      b.len = 0 ∧ b.s = behindHeader cuts := by
  cases r with
  | ok b =>
      simp only [headerAlone, Bool.and_eq_true, decide_eq_true_eq, beq_iff_eq] at h
      exact ⟨b, rfl, h.1.1.1, h.1.1.2, h.1.2, h.2⟩
  | error e => cases h

/-- A body in any pieces behind a header that comes alone. -/
theorem chunkedBody_of_cuts {cuts : List Text} (hne : ∀ c ∈ cuts, c ≠ [])
    (hbytes : cuts.flatten = encodeChunks [abcChunk, zeroChunk])
    (halone : headerAlone cuts (recvResponseHeader 64 1 ⟨HTTPResponseParser.init,
      plainClient.memory, 0, ofCuts (chunkedHeader :: cuts)⟩) = true) :
    ∃ b, ChunkedBody plainClient 64 (ofCuts (chunkedHeader :: cuts)) b [abcChunk] zeroChunk ∧
      b.len = 0 ∧ b.s = behindHeader cuts := by
  rcases headerAlone_ok halone with ⟨b, hheader, hchunked, hplain, hlen, hs⟩
  have hall : ∀ c ∈ chunkedHeader :: cuts, c ≠ [] := by
    intro c hc
    rcases List.mem_cons.mp hc with rfl | hc
    · simp [chunkedHeader, text]
    · exact hne c hc
  have hdata : ∀ c ∈ [abcChunk], c.data ≠ [] := by simp [abcChunk]
  have hskip := (ofCuts_cutStream hall).skip chunkedHeader.length
  rw [List.flatten_cons, List.drop_left' rfl] at hskip
  have hstream : CutStream b.s cuts.flatten := by
    rw [hs]
    exact hskip
  have hbuffer : slice b.m 0 b.len ++ cuts.flatten = encodeChunks ([abcChunk] ++ [zeroChunk]) := by
    rw [hlen, slice, List.nil_append, hbytes, List.singleton_append]
  exact ⟨b, ⟨⟨1, hheader⟩, hchunked, hplain, hdata, rfl, cuts.flatten, hstream, hbuffer⟩, hlen, hs⟩

/-- The chunks in one piece are received. -/
theorem recvResponse_chunked_abc :
    ∃ b, ReturnsChunks plainClient 64 (ofCuts [chunkedHeader, encodeChunks [abcChunk, zeroChunk]]) b
      [abcChunk] := by
  have hne : ∀ c ∈ [encodeChunks [abcChunk, zeroChunk]], c ≠ [] :=
    List.forall_mem_singleton.mpr (by decide)
  rcases chunkedBody_of_cuts hne (by simp) (by decide +kernel) with ⟨b, hbody, hlen, hs⟩
  refine ⟨b, (recvResponse_chunked hbody (by decide)).1 ?_⟩
  rw [hlen, hs]
  refine ⟨by decide, by decide, trivial⟩

/-- A size line that arrives in two pieces ends the receiver. -/
theorem recvResponse_chunked_fails :
    ∃ b, ChunkedBody plainClient 64
        (ofCuts [chunkedHeader, [51], (encodeChunks [abcChunk, zeroChunk]).drop 1]) b
        [abcChunk] zeroChunk ∧
      ¬ ReturnsChunks plainClient 64
        (ofCuts [chunkedHeader, [51], (encodeChunks [abcChunk, zeroChunk]).drop 1]) b
        [abcChunk] := by
  have hne : ∀ c ∈ [[51], (encodeChunks [abcChunk, zeroChunk]).drop 1], c ≠ [] := by
    simp [encodeChunks, Chunk.encode, abcChunk]
  rcases chunkedBody_of_cuts hne (by decide) (by decide +kernel) with ⟨b, hbody, hlen, hs⟩
  refine ⟨b, hbody, (hbody.returnsNull (by decide) ?_).not_returnsChunks⟩
  rw [hlen, hs, List.singleton_append, CutBehindDigits, if_neg (by decide)]
  decide

end Http
end Tiger
