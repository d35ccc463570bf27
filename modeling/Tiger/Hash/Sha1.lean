import Tiger.Hash.Base64

/-!
# The accept value of a handshake

`tiger::SHA1` (`src/hash.cc`) lets OpenSSL write a digest to the start of a buffer on the
stack and makes a string of the buffer as if it were text: up to the first NUL, wherever
that is.  `WSSession::handle_shake` (`src/servers/http/ws_session.cc`) encodes this string.
The digest function is a parameter.

Main results:

- Theorem `takeWhile_eq_digest_iff`: when the text in the buffer is the digest.
- Theorem `accept_correct_iff`: when the accept value is the encoding of the digest.
-/

namespace Tiger
namespace Hash

/-- The GUID that `handle_shake` appends to the key,
`258EAFA5-E914-47DA-95CA-C5AB0DC85B11`. -/
def guid : List UInt8 :=
  ['2', '5', '8', 'E', 'A', 'F', 'A', '5', '-', 'E', '9', '1', '4', '-', '4', '7', 'D', 'A', '-',
    '9', '5', 'C', 'A', '-', 'C', '5', 'A', 'B', '0', 'D', 'C', '8', '5', 'B', '1', '1'].map
    fun c => c.toNat.toUInt8

/-- `std::string((char *)out)`: the bytes up to the first NUL, `none` if there is none in the
array. -/
def cString (out : List UInt8) : Option (List UInt8) :=
  if 0 ∈ out then some (out.takeWhile (· ≠ 0)) else none

/-- `tiger::SHA1`, with the digest function of OpenSSL and what the buffer held before. -/
def sha1 (digest : List UInt8 → Vector UInt8 20) (prior : Vector UInt8 1024) (s : List UInt8) :
    Option (List UInt8) :=
  cString ((digest s).toList ++ prior.toList.drop 20)

/-- The value of `Sec-WebSocket-Accept` that `handle_shake` computes for a key. -/
def secWebSocketAccept (digest : List UInt8 → Vector UInt8 20) (prior : Vector UInt8 1024)
    (key : List UInt8) : Option (List UInt8) :=
  (sha1 digest prior (key ++ guid)).map base64Encode

/-- The text in front of the first NUL is the first part exactly if it holds no NUL and one
follows it. -/
theorem takeWhile_eq_digest_iff {d rest : List UInt8} (hnul : 0 ∈ d ++ rest) :
    (d ++ rest).takeWhile (· ≠ 0) = d ↔ 0 ∉ d ∧ rest.head? = some 0 := by
  by_cases hd : 0 ∈ d
  · constructor
    · intro h
      have hmem : (0 : UInt8) ∈ (d ++ rest).takeWhile (· ≠ 0) := h.symm ▸ hd
      have hne : decide ((0 : UInt8) ≠ 0) = true := List.all_eq_true.mp List.all_takeWhile 0 hmem
      exact absurd hne (by simp)
    · exact fun h => absurd hd h.1
  · have hall : ∀ c ∈ d, decide (c ≠ 0) = true := by
      intro c hc
      exact decide_eq_true (ne_of_mem_of_not_mem hc hd)
    rw [List.takeWhile_append_of_pos hall]
    cases rest with
    | nil => simp [hd] at hnul
    | cons c rest => by_cases hc : c = 0 <;> simp [hc, hd]

/-- The accept value is the encoding of the whole digest, of 28 characters, exactly if the
digest contains no NUL and the byte behind it in the buffer was a NUL before. -/
theorem accept_correct_iff (digest : List UInt8 → Vector UInt8 20) (prior : Vector UInt8 1024)
    (key : List UInt8) :
    (∃ v, secWebSocketAccept digest prior key = some v ∧
      v = base64Encode (digest (key ++ guid)).toList ∧ v.length = 28) ↔
    0 ∉ (digest (key ++ guid)).toList ∧ prior[20] = 0 := by
  have hlength : (base64Encode (digest (key ++ guid)).toList).length = 28 := by
    rw [base64Encode_length, Vector.length_toList]
  have hhead : (prior.toList.drop 20).head? = some prior[20] := by
    rw [List.head?_drop, List.getElem?_eq_getElem (by simp)]
    simp
  have hbehind : prior[20] = 0 ↔ (prior.toList.drop 20).head? = some 0 := by
    rw [hhead, Option.some_inj]
  rw [hbehind]
  constructor
  · rintro ⟨v, hv, rfl, -⟩
    rcases Option.map_eq_some_iff.mp hv with ⟨s, hs, hencode⟩
    rw [sha1, cString] at hs
    split_ifs at hs with hnul
    have htext := Option.some.inj hs
    rw [base64Encode_injective hencode] at htext
    exact (takeWhile_eq_digest_iff hnul).mp htext
  · intro h
    have hnul : (0 : UInt8) ∈ (digest (key ++ guid)).toList ++ prior.toList.drop 20 :=
      List.mem_append_right _ (List.mem_of_mem_head? h.2)
    refine ⟨_, ?_, rfl, hlength⟩
    rw [secWebSocketAccept, sha1, cString, if_pos hnul, (takeWhile_eq_digest_iff hnul).mpr h,
      Option.map_some]

/-- A digest that begins with a NUL has an empty accept value, and behind one without a NUL
the buffer is read to its end and further if it held no NUL. -/
theorem accept_fails :
    (∀ prior, secWebSocketAccept
      (fun _ => #v[0, 1, 2, 3, 4, 5, 6, 7, 8, 9, 10, 11, 12, 13, 14, 15, 16, 17, 18, 19]) prior [] =
        some []) ∧
    secWebSocketAccept
      (fun _ => #v[1, 2, 3, 4, 5, 6, 7, 8, 9, 10, 11, 12, 13, 14, 15, 16, 17, 18, 19, 20])
      (Vector.replicate 1024 7) [] = none := by
  constructor
  · intro prior
    simp [secWebSocketAccept, sha1, cString, base64Encode]
  · rw [secWebSocketAccept, sha1, cString, if_neg, Option.map_none]
    rw [Vector.toList_replicate, List.drop_replicate, List.mem_append, List.mem_replicate]
    decide

end Hash
end Tiger
