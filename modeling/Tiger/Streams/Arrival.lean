import Tiger.Streams.SocketStream

/-!
# Streams - what still arrives

Reads of a fixed size from a stream with any script: the bytes that arrive before the first read
that fails or meets the end decide whether the read is complete.

Main results:

- Theorem `readFixedSize_full`: a read of bytes that arrive.
- Theorem `readFixedSize_cut`: a read of more bytes than arrive.
- Theorem `readFixedSize_stored`: what a read has stored, in both cases.
-/

namespace Tiger
namespace SocketStream

/-- The bytes that arrive before the first read that fails or meets the end. -/
def arriving (s : SocketStream) : List UInt8 := if s.connected then available s.incoming else []

theorem arriving_of_connected {s : SocketStream} (h : s.connected = true) :
    s.arriving = available s.incoming := by
  rw [arriving, if_pos h]

theorem arriving_of_closed {s : SocketStream} (h : s.connected = false) : s.arriving = [] := by
  rw [arriving, h]
  rfl

/-- A read with nothing left to arrive fails and stores nothing. -/
theorem read_of_arriving_nil {s : SocketStream} (len : Nat) (h : s.arriving = []) :
    (s.read len).1 ≤ 0 ∧ (s.read len).2.1 = [] ∧ (s.read len).2.2.consumed = s.consumed := by
  cases hconn : s.connected with
  | true =>
      rw [arriving_of_connected hconn] at h
      exact read_none len h
  | false =>
      rw [read, hconn]
      exact ⟨by simp, rfl, rfl⟩

/-- A read of bytes that arrive. -/
theorem readFixedSize_full {s : SocketStream} {len : Nat} (hlen : len < 2 ^ 63)
    (h : len ≤ s.arriving.length) :
    ∃ s', s.readFixedSize len = (toInt32 len, s.arriving.take len, s') ∧
      s'.arriving = s.arriving.drop len ∧ s'.connected = s.connected ∧
      s'.consumed = s.consumed + len := by
  cases hconn : s.connected with
  | true =>
      rw [arriving_of_connected hconn] at h ⊢
      obtain ⟨rest, hrun, hrest⟩ := readFixedSize_spec hconn hlen h
      refine ⟨_, hrun, ?_, hconn, rfl⟩
      simp only [arriving, hconn, if_true, hrest]
  | false =>
      rw [arriving_of_closed hconn] at h ⊢
      obtain rfl : len = 0 := by simpa using h
      exact ⟨s, rfl, arriving_of_closed hconn, hconn, rfl⟩

/-- A read that the stream cannot fill takes all of it and fails. -/
private theorem readFixedLoop_cut {len fuel left : Nat} (got : List UInt8) {s : SocketStream}
    (hfuel : left ≤ fuel) (h : s.arriving.length < left) :
    (readFixedLoop len fuel left got s).1 ≤ 0 ∧
      (readFixedLoop len fuel left got s).2.1 = got ++ s.arriving ∧
      (readFixedLoop len fuel left got s).2.2.consumed = s.consumed + s.arriving.length := by
  induction fuel generalizing left got s with
  | zero => omega
  | succ fuel ih =>
      rw [readFixedLoop, if_neg (by omega)]
      by_cases hnil : s.arriving = []
      · obtain ⟨hresult, hbytes, hconsumed⟩ := read_of_arriving_nil left hnil
        simp only [if_pos hresult, hbytes, hconsumed, hnil, List.length_nil, Nat.add_zero]
        exact ⟨hresult, trivial, trivial⟩
      · have hconn : s.connected = true := by
          by_contra hclosed
          exact hnil (arriving_of_closed (by simpa using hclosed))
        rw [arriving_of_connected hconn] at h hnil ⊢
        obtain ⟨n, rest, hread, hpos, hle, hle', hrest⟩ :=
          read_spec hconn (by omega : 0 < left) hnil
        have hgood : ¬((n : Nat) : Int) ≤ 0 := by omega
        simp only [hread, if_neg hgood, Int.toNat_natCast]
        have harrive : ({ s with incoming := rest, consumed := s.consumed + n } :
            SocketStream).arriving = (available s.incoming).drop n := by
          simp only [arriving, hconn, if_true, hrest]
        obtain ⟨hresult, hbytes, hconsumed⟩ := ih
          (got ++ (available s.incoming).take n)
          (s := { s with incoming := rest, consumed := s.consumed + n })
          (by omega : left - n ≤ fuel)
          (by rw [harrive, List.length_drop]; omega)
        rw [harrive] at hbytes hconsumed
        refine ⟨hresult, ?_, ?_⟩
        · rw [hbytes, List.append_assoc, List.take_append_drop]
        · rw [hconsumed, List.length_drop]
          simp only
          omega

/-- A read of more bytes than arrive fails behind all of them. -/
theorem readFixedSize_cut {s : SocketStream} {len : Nat} (hlen : len < 2 ^ 63)
    (h : s.arriving.length < len) :
    (s.readFixedSize len).1 ≤ 0 ∧ (s.readFixedSize len).2.1 = s.arriving ∧
      (s.readFixedSize len).2.2.consumed = s.consumed + s.arriving.length := by
  rw [readFixedSize, if_pos hlen]
  exact readFixedLoop_cut [] le_rfl h

/-- A read stores at most what it was asked for, and all of it if its result is positive. -/
theorem readFixedSize_stored (s : SocketStream) {len : Nat} (hlen : len < 2 ^ 63) :
    (s.readFixedSize len).2.1.length ≤ len ∧
      (0 < (s.readFixedSize len).1 → (s.readFixedSize len).2.1.length = len) := by
  by_cases h : len ≤ s.arriving.length
  · obtain ⟨s', hrun, -⟩ := readFixedSize_full hlen h
    rw [hrun, List.length_take, Nat.min_eq_left h]
    exact ⟨le_rfl, fun _ => rfl⟩
  · obtain ⟨hresult, hbytes, -⟩ := readFixedSize_cut hlen (Nat.lt_of_not_le h)
    rw [hbytes]
    refine ⟨by omega, ?_⟩
    intro hpos
    omega

end SocketStream
end Tiger
