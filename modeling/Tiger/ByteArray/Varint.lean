import Tiger.ByteArray.RoundTrip
import Tiger.ByteArray.Truncation

/-!
# ByteArray - base-128 integers

The written form of an unsigned integer, seven bits a byte, is the shortest byte string that the
reader takes for it: a reader that has consumed `k` bytes, whether the last of them ends the integer
or the accumulator is full, has collected no bit above `7 * k`.

Main results:

- Theorem `varintLoop_length_le`: a value of `7 * k` bits is written in `k` bytes.
- Theorem `readVarint_consumes`: what the reader has collected behind `k` bytes.
- Theorem `varint_shortest`: writer and reader of both widths.
-/

namespace Tiger
namespace ByteArray

/-! ## What is consumed -/

/-- The cursor has moved by `k` bytes, which were there to be read. -/
structure Consumed (s s' : ByteArray) (k : Nat) : Prop where
  position_eq : s'.position = s.position + k
  size_eq : s'.size = s.size
  within : k ≤ s.size - s.position

theorem Consumed.refl (s : ByteArray) : Consumed s s 0 :=
  ⟨rfl, rfl, Nat.zero_le _⟩

/-- Consumed bytes add up. -/
theorem Consumed.trans {s s' s'' : ByteArray} {k l : Nat} (h : Consumed s s' k)
    (h' : Consumed s' s'' l) : Consumed s s'' (k + l) := by
  have hposition := h'.position_eq
  have hwithin := h'.within
  rw [h.position_eq] at hposition hwithin
  rw [h.size_eq] at hwithin
  have hfirst := h.within
  exact ⟨by omega, h'.size_eq.trans h.size_eq, by omega⟩

/-- A byte that is read is consumed. -/
theorem readFixedUint8_consumes {s s' : ByteArray} {b : UInt8}
    (h : readFixedUint8 s = (.ok b, s')) : Consumed s s' 1 := by
  obtain ⟨bytes, s₁, hread, hrest⟩ := bind_eq_ok h
  have hleft : ¬ s.size - s.position < 1 := by
    intro hlt
    rw [read_throws hlt] at hread
    cases hread
  have hsame : s' = s₁ := by
    match bytes, hrest with
    | [_], hrest =>
      cases hrest
      rfl
  rcases read_cases 1 s with ⟨-, hrun⟩ | ⟨e, -, hrun⟩ | ⟨bytes', cur, hrun⟩
  · rw [hrun] at hread
    cases hread
  · rw [hrun] at hread
    cases hread
  · rw [hrun] at hread
    cases hread
    rw [hsame]
    exact ⟨rfl, rfl, by omega⟩

/-! ## The reader -/

/-- Seven more bits are collected. -/
theorem collect_lt {acc i d : Nat} (bits : Nat) (hacc : acc < 2 ^ i) (hd : d < 128) :
    acc ||| (d <<< i % 2 ^ bits) < 2 ^ (i + 7) := by
  have hpow : 2 ^ (i + 7) = 128 * 2 ^ i := by rw [Nat.pow_add, Nat.mul_comm]
  have hshift : d <<< i % 2 ^ bits < 2 ^ (i + 7) := by
    calc
      d <<< i % 2 ^ bits ≤ d <<< i := Nat.mod_le _ _
      _ = d * 2 ^ i := Nat.shiftLeft_eq d i
      _ < 128 * 2 ^ i := Nat.mul_lt_mul_of_pos_right hd (Nat.two_pow_pos i)
      _ = 2 ^ (i + 7) := hpow.symm
  have hlow : acc < 2 ^ (i + 7) := hacc.trans_le (Nat.pow_le_pow_right (by decide) (by omega))
  exact Nat.or_lt_two_pow hlow hshift

/-- Behind `k` bytes the reader has collected `7 * k` bits.  The induction follows its rounds; `acc`
holds the bits below `i`. -/
theorem readVarint_consumes {bits fuel i acc v : Nat} {s s' : ByteArray} (hi : i < bits + 7)
    (hacc : acc < 2 ^ i) (h : readVarint bits fuel i acc s = (.ok v, s')) :
    ∃ k, Consumed s s' k ∧ i + 7 * k < bits + 7 ∧ v < 2 ^ (i + 7 * k) ∧
      (0 < fuel → i < bits → 1 ≤ k) := by
  induction fuel generalizing i acc s with
  | zero =>
    cases h
    exact ⟨0, Consumed.refl _, by omega, by simpa using hacc, fun h => absurd h (by decide)⟩
  | succ fuel ih =>
    rw [readVarint] at h
    split at h
    · next hlt =>
      obtain ⟨b, s₁, hbyte, hrest⟩ := bind_eq_ok h
      have hfirst := readFixedUint8_consumes hbyte
      split at hrest
      · -- the last byte
        next hlast =>
        have hd : b.toNat < 128 := by
          rw [UInt8.lt_iff_toNat_lt] at hlast
          exact hlast
        cases hrest
        exact ⟨1, hfirst, by omega, collect_lt bits hacc hd, fun _ _ => le_rfl⟩
      · -- a byte with the continuation bit
        have hd : (b &&& 0x7F).toNat < 128 := by
          rw [UInt8.toNat_and]
          exact Nat.and_lt_two_pow b.toNat (n := 7) (by decide)
        obtain ⟨k, hmore, hbound, hv, -⟩ := ih (by omega) (collect_lt bits hacc hd) hrest
        refine ⟨1 + k, hfirst.trans hmore, by omega, ?_, fun _ _ => by omega⟩
        have hexp : i + 7 * (1 + k) = i + 7 + 7 * k := by omega
        rw [hexp]
        exact hv
    · next hge =>
      cases h
      exact ⟨0, Consumed.refl _, by omega, by simpa using hacc, fun _ h => absurd h hge⟩

/-! ## The written form -/

/-- A value of `7 * k` bits is written in `k` bytes. -/
theorem varintLoop_length_le {room v k : Nat} {bytes : List UInt8} (hk : 1 ≤ k)
    (hv : v < 2 ^ (7 * k)) (h : varintLoop room v = some bytes) : bytes.length ≤ k := by
  induction room generalizing v k bytes with
  | zero => cases h
  | succ room ih =>
    rw [varintLoop] at h
    split at h
    · next hbig =>
      obtain ⟨tail, htail, rfl⟩ := Option.map_eq_some_iff.mp h
      obtain ⟨k, rfl⟩ : ∃ m, k = m + 1 := ⟨k - 1, by omega⟩
      have hk' : 1 ≤ k := by
        by_contra hzero
        have hone : k = 0 := by omega
        rw [hone] at hv
        omega
      have hshift : v >>> 7 < 2 ^ (7 * k) := by
        rw [Nat.shiftRight_eq_div_pow, Nat.div_lt_iff_lt_mul (by decide), ← Nat.pow_add]
        exact hv
      have hlength := ih hk' hshift htail
      rw [List.length_cons]
      omega
    · cases h
      exact hk

/-! ## Writer and reader -/

/-- A writer and a reader of integers: the writer stores its form in a buffer of `room` bytes, the
reader takes it back, no shorter stream has the value in it, and what the reader takes is at least
as long as the form of what it returns. -/
structure Shortest {α : Type} (room : Nat) (form : α → Option (List UInt8)) (write : α → Op Unit)
    (read : Op α) : Prop where
  stores : ∀ v, ∃ bytes, form v = some bytes ∧ bytes.length ≤ room ∧
    ∀ order, Writes order (write v) bytes ∧ Reads order read v bytes
  shortest : ∀ v bytes, form v = some bytes →
    ∀ s : ByteArray, s.size - s.position < bytes.length → (read s).1 ≠ .ok v
  accepts : ∀ s v s', read s = (.ok v, s') → ∃ k ≤ room, Consumed s s' k ∧
    ∃ bytes, form v = some bytes ∧ bytes.length ≤ k

/-- What `write_uint32` stores in `tmp` -/
def formUint32 (v : UInt32) : Option (List UInt8) := varintLoop 5 v.toNat

/-- What `write_uint64` stores in `tmp` -/
def formUint64 (v : UInt64) : Option (List UInt8) := varintLoop 10 v.toNat

/-- Base-128 integers of `bits` bits, with a buffer of `room` bytes, are written in the shortest
form. -/
theorem varint_codec {α : Type} (toNat : α → Nat) (ofNat : Nat → α) {bits room : Nat}
    (hbits : 0 < bits) (hroom : bits ≤ 7 * (room + 1))
    (hrounds : ∀ k, 7 * k < bits + 7 → k ≤ room + 1) (hlt : ∀ v, toNat v < 2 ^ bits)
    (hof : ∀ v, ofNat (toNat v) = v) (hto : ∀ n, toNat (ofNat n) ≤ n) :
    Shortest (room + 1) (fun v => varintLoop (room + 1) (toNat v))
      (fun v => writeVarint (room + 1) (toNat v))
      (do let v ← readVarint bits bits 0 0; return ofNat v) := by
  have hfit (v : α) : toNat v < 2 ^ (7 * (room + 1)) :=
    (hlt v).trans_le (Nat.pow_le_pow_right (by decide) hroom)
  have haccepts : ∀ s v s',
      (do let v ← readVarint bits bits 0 0; return ofNat v : Op α) s = (.ok v, s') →
        ∃ k ≤ room + 1, Consumed s s' k ∧
          ∃ bytes, varintLoop (room + 1) (toNat v) = some bytes ∧ bytes.length ≤ k := by
    intro s v s' h
    obtain ⟨n, s₁, hread, hrest⟩ := bind_eq_ok h
    cases hrest
    obtain ⟨k, hconsumed, hbound, hn, hpos⟩ :=
      readVarint_consumes (by omega) (by decide : 0 < 2 ^ 0) hread
    rw [Nat.zero_add] at hbound hn
    obtain ⟨bytes, hbytes⟩ := varintLoop_isSome (hfit (ofNat n))
    have hlength := varintLoop_length_le (hpos hbits hbits) ((hto n).trans_lt hn) hbytes
    exact ⟨k, hrounds k hbound, hconsumed, bytes, hbytes, hlength⟩
  refine ⟨?_, ?_, haccepts⟩
  · intro v
    obtain ⟨bytes, hbytes⟩ := varintLoop_isSome (hfit v)
    refine ⟨bytes, hbytes, varintLoop_length_le (by omega) (hfit v) hbytes, ?_⟩
    intro order
    constructor
    · rw [writeVarint, hbytes]
      exact write_writes order bytes
    · have hread := varintLoop_reads order bits hbytes hbits (Nat.two_pow_pos 0)
        (by simpa using hlt v) (by omega)
      have hvalue := reads_map hread ofNat
      rw [pow_zero, Nat.mul_one, Nat.zero_add, hof] at hvalue
      exact hvalue
  · intro v bytes hbytes s hshort hok
    obtain ⟨k, -, hconsumed, bytes', hbytes', hlength⟩ :=
      haccepts s v _ (Prod.ext hok rfl)
    rw [hbytes] at hbytes'
    cases hbytes'
    have hwithin := hconsumed.within
    omega

/-- The unsigned integers of both widths. -/
theorem varint_shortest : Shortest 5 formUint32 writeUint32 readUint32 ∧
    Shortest 10 formUint64 writeUint64 readUint64 := by
  constructor
  · exact varint_codec UInt32.toNat UInt32.ofNat (by decide) (by decide) (fun k hk => by omega)
      (fun v => v.toNat_lt) (fun v => UInt32.ofNat_toNat) fun n => by
        rw [UInt32.toNat_ofNat']
        exact Nat.mod_le _ _
  · exact varint_codec UInt64.toNat UInt64.ofNat (by decide) (by decide) (fun k hk => by omega)
      (fun v => v.toNat_lt) (fun v => UInt64.ofNat_toNat) fun n => by
        rw [UInt64.toNat_ofNat']
        exact Nat.mod_le _ _

end ByteArray
end Tiger
