import Tiger.Streams.SocketStream

/-!
# Streams - a finite stream in pieces

A peer that sends finitely many bytes and closes: every coming `recv` delivers
a non-empty piece, and behind the last piece the reads return 0.  The state of
such a stream is a position in its bytes, however the reads got there.

Main results:

- Theorem `CutStream.read_eq`: a read takes the next bytes and moves the position.
- Theorem `CutStream.readFixedSize_eq`: so does `read_fixed_size` when there are
  enough of them.
- Theorem `CutStream.readFixedSize_short`: it returns 0 when there are not.
-/

namespace Tiger
namespace SocketStream

/-- The script without its first `n` bytes. -/
def dropBytes : Nat → List Recv → List Recv
  | n, .bytes chunk :: rest =>
      if n < chunk.length then .bytes (chunk.drop n) :: rest else dropBytes (n - chunk.length) rest
  | _, script => script

/-- The stream when `n` more bytes have been read. -/
def skip (s : SocketStream) (n : Nat) : SocketStream :=
  { s with incoming := dropBytes n s.incoming, consumed := s.consumed + n }

/-- All coming reads deliver bytes. -/
def Pieces (script : List Recv) : Prop := ∀ ev ∈ script, ∃ chunk, chunk ≠ [] ∧ ev = .bytes chunk

theorem Pieces.cons_inv {ev : Recv} {script : List Recv} (h : Pieces (ev :: script)) :
    (∃ chunk, chunk ≠ [] ∧ ev = .bytes chunk) ∧ Pieces script :=
  ⟨h ev List.mem_cons_self, fun ev' hev' => h ev' (List.mem_cons_of_mem _ hev')⟩

/-- What is left of pieces are pieces. -/
theorem Pieces.dropBytes {script : List Recv} (h : Pieces script) (n : Nat) :
    Pieces (dropBytes n script) := by
  induction script generalizing n with
  | nil => exact h
  | cons ev script ih =>
      rcases h.cons_inv with ⟨⟨chunk, hne, rfl⟩, hrest⟩
      rw [SocketStream.dropBytes]
      split
      next hlt =>
        intro ev hev
        rcases List.mem_cons.mp hev with rfl | hev
        · exact ⟨chunk.drop n, by simpa using hlt, rfl⟩
        · exact hrest ev hev
      next => exact ih hrest _

/-- Nothing is dropped of no bytes. -/
theorem Pieces.dropBytes_zero {script : List Recv} (h : Pieces script) :
    SocketStream.dropBytes 0 script = script := by
  cases script with
  | nil => rfl
  | cons ev script =>
      rcases h.cons_inv with ⟨⟨chunk, hne, rfl⟩, -⟩
      rw [SocketStream.dropBytes, if_pos (List.length_pos_iff.mpr hne), List.drop_zero]

/-- Dropping bytes drops them from the stream. -/
theorem Pieces.available_dropBytes {script : List Recv} (h : Pieces script) (n : Nat) :
    available (SocketStream.dropBytes n script) = (available script).drop n := by
  induction script generalizing n with
  | nil => simp [SocketStream.dropBytes, available]
  | cons ev script ih =>
      rcases h.cons_inv with ⟨⟨chunk, hne, rfl⟩, hrest⟩
      have hall : available (.bytes chunk :: script) = chunk ++ available script := by
        simp [available, hne]
      rw [SocketStream.dropBytes, hall]
      split
      next hlt =>
        have hdrop : chunk.drop n ≠ [] := by simpa using hlt
        rw [List.drop_append_of_le_length (by omega)]
        simp [available, hdrop]
      next hge =>
        rw [ih hrest, List.drop_append, List.drop_eq_nil_of_le (Nat.le_of_not_lt hge),
          List.nil_append]

/-- Bytes are dropped one part behind the other. -/
theorem Pieces.dropBytes_add {script : List Recv} (h : Pieces script) (a b : Nat) :
    SocketStream.dropBytes b (SocketStream.dropBytes a script) =
      SocketStream.dropBytes (a + b) script := by
  induction script generalizing a with
  | nil => rfl
  | cons ev script ih =>
      rcases h.cons_inv with ⟨⟨chunk, hne, rfl⟩, hrest⟩
      rw [SocketStream.dropBytes]
      split
      next hlt =>
        rw [SocketStream.dropBytes, SocketStream.dropBytes, List.length_drop, List.drop_drop]
        by_cases hab : a + b < chunk.length
        · rw [if_pos (by omega), if_pos hab]
        · rw [if_neg (by omega), if_neg hab]
          congr 1
          omega
      next hge =>
        rw [ih hrest, SocketStream.dropBytes, if_neg (by omega)]
        congr 1
        omega

/-- An open stream that delivers `bytes` in pieces and then ends. -/
structure CutStream (s : SocketStream) (bytes : List UInt8) : Prop where
  connected : s.connected = true
  pieces : Pieces s.incoming
  available_eq : available s.incoming = bytes

/-- How many bytes a read of `len` takes. -/
def readLength (s : SocketStream) (len : Nat) : Nat := (s.read len).1.toNat

namespace CutStream

variable {s : SocketStream} {bytes : List UInt8}

/-- A cut stream is cut behind a read. -/
theorem skip (h : CutStream s bytes) (n : Nat) : CutStream (s.skip n) (bytes.drop n) where
  connected := h.connected
  pieces := h.pieces.dropBytes n
  available_eq := by
    rw [← h.available_eq]
    exact h.pieces.available_dropBytes n

theorem skip_zero (h : CutStream s bytes) : s.skip 0 = s := by
  rw [SocketStream.skip, h.pieces.dropBytes_zero, Nat.add_zero]

theorem skip_skip (h : CutStream s bytes) (a b : Nat) : (s.skip a).skip b = s.skip (a + b) := by
  simp only [SocketStream.skip, h.pieces.dropBytes_add, Nat.add_assoc]

/-- A read at the end takes nothing. -/
theorem read_nil (h : CutStream s bytes) (hin : s.incoming = []) (len : Nat) :
    s.read len = (0, [], s) := by
  simp [read, h.connected, hin]

/-- A read in front of a piece takes as much of it as fits. -/
theorem read_cons (h : CutStream s bytes) {chunk : List UInt8} {script : List Recv}
    (hin : s.incoming = .bytes chunk :: script) (len : Nat) :
    let n := min (min len maxTransfer) chunk.length
    s.read len = ((n : Int), bytes.take n, s.skip n) ∧ n ≤ bytes.length := by
  intro n
  have hpieces := h.pieces
  have havail := h.available_eq
  rw [hin] at hpieces havail
  rcases hpieces.cons_inv with ⟨⟨chunk, hne, hchunk⟩, hrest⟩
  cases hchunk
  have hall : available (.bytes chunk :: script) = chunk ++ available script := by
    simp [available, hne]
  rw [hall] at havail
  have hn : n ≤ chunk.length := Nat.min_le_right _ _
  have htake : bytes.take n = chunk.take n := by
    rw [← havail, List.take_append_of_le_length hn]
  have hdrop : SocketStream.dropBytes n (.bytes chunk :: script) =
      if n = chunk.length then script else .bytes (chunk.drop n) :: script := by
    rw [SocketStream.dropBytes]
    by_cases hend : n = chunk.length
    · rw [if_neg (by omega), if_pos hend, hend, Nat.sub_self, hrest.dropBytes_zero]
    · rw [if_pos (by omega), if_neg hend]
  constructor
  · rw [htake, SocketStream.skip, hin, hdrop]
    simp [read, h.connected, hin, n]
  · rw [← havail, List.length_append]
    omega

/-- A read takes the next bytes and moves the position. -/
theorem read_eq (h : CutStream s bytes) (len : Nat) :
    s.read len = ((s.readLength len : Int), bytes.take (s.readLength len),
      s.skip (s.readLength len)) := by
  cases hin : s.incoming with
  | nil => simp [readLength, h.read_nil hin, h.skip_zero]
  | cons ev script =>
      have hpieces := h.pieces
      rw [hin] at hpieces
      rcases hpieces.cons_inv with ⟨⟨chunk, hne, rfl⟩, -⟩
      simp only [readLength, (h.read_cons hin len).1, Int.toNat_natCast]

/-- The bounds of a read. -/
theorem readLength_le (h : CutStream s bytes) (len : Nat) :
    s.readLength len ≤ len ∧ s.readLength len ≤ bytes.length ∧ s.readLength len ≤ maxTransfer := by
  cases hin : s.incoming with
  | nil => simp [readLength, h.read_nil hin]
  | cons ev script =>
      have hpieces := h.pieces
      rw [hin] at hpieces
      rcases hpieces.cons_inv with ⟨⟨chunk, hne, rfl⟩, -⟩
      rcases h.read_cons hin len with ⟨hread, hle⟩
      rw [readLength, hread]
      simp only [Int.toNat_natCast]
      omega

/-- A read takes something when there is something. -/
theorem readLength_pos (h : CutStream s bytes) {len : Nat} (hlen : 0 < len) (hne : bytes ≠ []) :
    0 < s.readLength len := by
  rcases read_spec h.connected hlen (by rw [h.available_eq]; exact hne) with
    ⟨n, rest, hread, hpos, -⟩
  rw [readLength, hread]
  exact hpos

/-- The stream holds what a read gives. -/
theorem take_readLength_length (h : CutStream s bytes) (len : Nat) :
    (bytes.take (s.readLength len)).length = s.readLength len := by
  rw [List.length_take]
  exact Nat.min_eq_left (h.readLength_le len).2.1

/-- A fixed read gives the first bytes of the stream. -/
private theorem readFixedLoop_eq (h : CutStream s bytes) {len fuel left : Nat} (got : List UInt8)
    (hfuel : left ≤ fuel) (hle : left ≤ bytes.length) :
    readFixedLoop len fuel left got s = (toInt32 len, got ++ bytes.take left, s.skip left) := by
  induction fuel generalizing s bytes left got with
  | zero =>
      have hzero : left = 0 := by omega
      subst hzero
      simp [readFixedLoop, h.skip_zero]
  | succ fuel ih =>
      by_cases hzero : left = 0
      · subst hzero
        simp [readFixedLoop, h.skip_zero]
      · have hne : bytes ≠ [] := by
          rintro rfl
          simp at hle
          omega
        have hpos := h.readLength_pos (Nat.pos_of_ne_zero hzero) hne
        have hbound := h.readLength_le left
        rw [readFixedLoop, if_neg hzero]
        simp only [h.read_eq left]
        rw [if_neg (by omega), Int.toNat_natCast,
          ih (h.skip _) _ (by omega) (by rw [List.length_drop]; omega), h.skip_skip,
          List.append_assoc, ← List.take_add, Nat.add_sub_cancel' hbound.1]

/-- `read_fixed_size` takes the next `len` bytes when they are there. -/
theorem readFixedSize_eq (h : CutStream s bytes) {len : Nat} (hlen : len < 2 ^ 63)
    (hle : len ≤ bytes.length) :
    s.readFixedSize len = (toInt32 len, bytes.take len, s.skip len) := by
  rw [readFixedSize, if_pos hlen, readFixedLoop_eq h [] le_rfl hle, List.nil_append]

/-- A fixed read of more than the stream fails. -/
private theorem readFixedLoop_short (h : CutStream s bytes) {len fuel left : Nat}
    (got : List UInt8) (hfuel : left ≤ fuel) (hlt : bytes.length < left) :
    (readFixedLoop len fuel left got s).1 = 0 := by
  induction fuel generalizing s bytes left got with
  | zero => omega
  | succ fuel ih =>
      have hbound := h.readLength_le left
      rw [readFixedLoop, if_neg (by omega)]
      simp only [h.read_eq left]
      split
      next hend =>
        change ((s.readLength left : Nat) : Int) = 0
        omega
      next hmore =>
        rw [Int.toNat_natCast]
        exact ih (h.skip _) _ (by omega) (by rw [List.length_drop]; omega)

/-- `read_fixed_size` returns 0 when the bytes are not there. -/
theorem readFixedSize_short (h : CutStream s bytes) {len : Nat} (hlen : len < 2 ^ 63)
    (hlt : bytes.length < len) : (s.readFixedSize len).1 = 0 := by
  rw [readFixedSize, if_pos hlen]
  exact readFixedLoop_short h [] le_rfl hlt

end CutStream

/-- The stream that delivers the pieces one after the other. -/
def ofCuts (cuts : List (List UInt8)) : SocketStream := ⟨true, cuts.map .bytes, 0, [], []⟩

/-- The pieces of a stream are its bytes. -/
theorem available_map_bytes {cuts : List (List UInt8)} (h : ∀ c ∈ cuts, c ≠ []) :
    available (cuts.map .bytes) = cuts.flatten := by
  induction cuts with
  | nil => rfl
  | cons c cuts ih =>
      have hc := h c List.mem_cons_self
      rw [List.map_cons, available, if_neg hc, List.flatten_cons,
        ih fun c' hc' => h c' (List.mem_cons_of_mem _ hc')]

/-- A list of pieces is a cut stream. -/
theorem ofCuts_cutStream {cuts : List (List UInt8)} (h : ∀ c ∈ cuts, c ≠ []) :
    CutStream (ofCuts cuts) cuts.flatten where
  connected := rfl
  pieces := by
    intro ev hev
    rcases List.mem_map.mp hev with ⟨c, hc, rfl⟩
    exact ⟨c, h c hc, rfl⟩
  available_eq := available_map_bytes h

/-- Behind its first piece, a stream has the others. -/
theorem ofCuts_skip_incoming (c : List UInt8) (cuts : List (List UInt8))
    (h : ∀ c' ∈ cuts, c' ≠ []) : ((ofCuts (c :: cuts)).skip c.length).incoming =
      (ofCuts cuts).incoming := by
  have hpieces := (ofCuts_cutStream h).pieces
  rw [SocketStream.skip]
  simp only [ofCuts, List.map_cons, dropBytes, Nat.lt_irrefl, if_false, Nat.sub_self]
  exact hpieces.dropBytes_zero

/-- A read gives as much on streams with the same script. -/
theorem readLength_congr {s s' : SocketStream} (hconn : s.connected = s'.connected)
    (hin : s.incoming = s'.incoming) (len : Nat) : s.readLength len = s'.readLength len := by
  unfold readLength read
  rw [hconn, hin]
  split
  · rfl
  · split <;> rfl

/-- A read does not go beyond the first piece. -/
theorem readLength_ofCuts (c : List UInt8) (cuts : List (List UInt8)) (len : Nat) :
    (ofCuts (c :: cuts)).readLength len = min (min len maxTransfer) c.length := by
  simp only [readLength, ofCuts, read, List.map_cons, Bool.not_true, Bool.false_eq_true, if_false,
    Int.toNat_natCast]

end SocketStream
end Tiger
