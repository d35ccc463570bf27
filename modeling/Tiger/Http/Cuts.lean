import Tiger.Http.RequestRounds

/-!
# HTTP - a request in pieces

A byte string that `HTTPSession::recv_request` turns into a request when it
arrives in one read does not survive every cut: the offsets that the parser
keeps, and the count of bytes that it returns, belong to the buffer of an
earlier call.  The cuts that lose nothing are those behind the header.

Main results:

- Theorem `recvRequest_cut`: when the first read has the whole header, the rest
  may be cut at will; when it has not, a string without bytes behind the request
  is not turned into that request.
- Theorem `Accepts.exists_cut_fails`: every string has a cutting that loses it.
-/

namespace Tiger
namespace Http

open Lib.Ragel HTTPRequestParser RequestGrammar SocketStream

/-! ## One read -/

/-- `recv_request` turns the bytes into the request when they arrive in one read. -/
def Accepts (env : Env) (bufferSize : Nat) (bytes : Text) (r : HTTPRequest) : Prop :=
  bytes ≠ [] ∧ bytes.length ≤ bufferSize ∧ bytes.length ≤ maxTransfer ∧
    ∃ fuel s', recvRequest env bufferSize fuel (ofCuts [bytes]) = (.request r, s')

/-- The number of bytes up to the end of the header. -/
def headerLength (env : Env) (bytes : Text) : Nat :=
  match scan .done (startState env) bytes with
  | .stopped k _ => k
  | _ => bytes.length + 1

/-- The length of a header in front of a rest. -/
theorem headerLength_eq {env : Env} {hd : Text} (h : IsHeader env hd) (rest : Text) :
    headerLength env (hd ++ rest) = hd.length := by
  rcases h with ⟨threads, hscan⟩
  rw [headerLength, scan_append_stopped hscan]

/-- At the end of the stream an unfinished header is never finished. -/
theorem recvHeader_idle {s : SocketStream} (hs : CutStream s []) {bufferSize : Nat}
    (hfull : toInt32 bufferSize ≠ 0) {ps : HTTPRequestParser} (herr : ps.hasError = false)
    (hfin : ps.isFinished = false) (fuel : Nat) (m : Memory) :
    recvHeader bufferSize fuel ps m 0 s = .outOfFuel := by
  induction fuel generalizing m with
  | zero => rfl
  | succ fuel ih =>
      have hzero : s.readLength bufferSize = 0 := Nat.le_zero.mp (hs.readLength_le bufferSize).2.1
      rw [recvHeader_round hs]
      simp only [hzero, hs.skip_zero, executeMachine, if_true, herr, hfin, Nat.sub_zero,
        Bool.false_eq_true, if_false]
      rw [if_neg (by simpa using hfull.symm)]
      exact ih _

/-- A body that is in the buffer. -/
theorem recvBody_fits {env : Env} {ps : HTTPRequestParser} {m : Memory} {offset : Nat}
    {s : SocketStream} (hfits : (contentLength env ps.data.headers).toNat ≤ offset)
    (hsmall : (contentLength env ps.data.headers).toNat < 2 ^ 62) :
    recvBody (contentLength env ps.data.headers) ps m offset s =
      (.request (requestOf env ps (slice m 0 (contentLength env ps.data.headers).toNat)), s) := by
  unfold recvBody requestOf
  split
  · rfl
  · rw [if_neg (by omega), if_pos (by omega)]

/-- The header loop in one read. -/
theorem recvHeader_single {env : Env} {bufferSize : Nat} {bytes : Text} (hne : bytes ≠ [])
    (hsize : bytes.length ≤ bufferSize) (hmax : bytes.length ≤ maxTransfer) {fuel offset : Nat}
    {ps : HTTPRequestParser} {m' : Memory} {s' : SocketStream}
    (h : recvHeader bufferSize fuel (HTTPRequestParser.init env) env.memory 0 (ofCuts [bytes]) =
      .finished ps m' offset s') :
    ∃ k ths, scan .done (startState env) bytes = .stopped k ths ∧
      executeMachine (store env.memory 0 bytes) bytes.length (HTTPRequestParser.init env) =
        .ok k ps ∧ ps.hasError = false ∧
      m' = memmove (store env.memory 0 bytes) k (bytes.length - k) ∧ offset = bytes.length - k ∧
      ((bytes.length - k : Nat) : Int) ≠ toInt32 bufferSize ∧
      s' = (ofCuts [bytes]).skip bytes.length := by
  have hs : CutStream (ofCuts [bytes]) bytes := by
    simpa using ofCuts_cutStream (show ∀ c ∈ [bytes], c ≠ [] by simpa using hne)
  have hread : (ofCuts [bytes]).readLength bufferSize = bytes.length := by
    rw [readLength_ofCuts]
    omega
  have hpos : 0 < bytes.length := List.length_pos_iff.mpr hne
  cases fuel with
  | zero => simp [recvHeader] at h
  | succ fuel =>
      rw [recvHeader_round hs] at h
      simp only [hread, List.take_length] at h
      split at h
      · simp at h
      · simp at h
      · next nparse ps₁ hexec =>
        rcases executeMachine_cases hpos rfl Reach.start hexec with ⟨hle, -, hcase⟩
        rw [slice_store_all] at hcase
        split at h
        · simp at h
        · next herr =>
          split at h
          · simp at h
          · next hfull =>
            rcases hcase with ⟨ths, -, hparse, hcs, -, hfin⟩ | ⟨k, ths, hscan, hparse, hfin⟩ |
              ⟨k, -, herr'⟩
            · -- the header is not complete and the stream has ended
              have hzero : nparse = bytes.length := by
                rw [hparse]
                exact Nat.zero_add _
              have hidle : CutStream ((ofCuts [bytes]).skip bytes.length) [] := by
                simpa using hs.skip bytes.length
              rw [hzero, Nat.sub_self] at hfull
              rw [if_neg (by simp [hfin]), hzero, Nat.sub_self,
                recvHeader_idle hidle (fun hB => hfull hB.symm) (by simpa using herr) hfin] at h
              simp at h
            · have hk : nparse = k := by
                rw [hparse]
                exact Nat.zero_add _
              rw [if_pos hfin] at h
              simp only [HeaderPhase.finished.injEq] at h
              rcases h with ⟨rfl, rfl, rfl, rfl⟩
              subst hk
              exact ⟨nparse, ths, hscan, hexec, by simpa using herr, rfl, rfl, hfull, rfl⟩
            · simp [herr'] at herr

/-- An accepted string is a request and some bytes behind it. -/
theorem Accepts.message {env : Env} {bufferSize : Nat} {bytes : Text} {r : HTTPRequest}
    (h : Accepts env bufferSize bytes r) :
    ∃ hd bd rest, bytes = hd ++ bd ++ rest ∧ IsMessage env hd bd r := by
  rcases h with ⟨hne, hsize, hmax, fuel, s', hrun⟩
  have hs : CutStream (ofCuts [bytes]) bytes := by
    simpa using ofCuts_cutStream (show ∀ c ∈ [bytes], c ≠ [] by simpa using hne)
  rw [recvRequest] at hrun
  split at hrun
  · simp at hrun
  · simp at hrun
  · simp at hrun
  · simp at hrun
  · next ps m' offset s₁ hheader =>
    rcases recvHeader_single hne hsize hmax hheader with
      ⟨k, ths, hscan, hexec, herr, rfl, rfl, hfull, rfl⟩
    rw [contentLength_eq] at hrun
    have hk := (scan_stopped_le hscan).2
    have hhd : IsHeader env (bytes.take k) := by
      refine ⟨ths, ?_⟩
      rw [scan_take_stopped hscan le_rfl, List.length_take, Nat.min_eq_left hk]
    have hlen : (bytes.take k).length = k := by
      rw [List.length_take]
      omega
    have hcut : CutStream ((ofCuts [bytes]).skip bytes.length) [] := by
      simpa using hs.skip bytes.length
    rcases recvBody_consumed hcut hrun with ⟨-, -, hfits, hsmall, -⟩
    have hfits' : (contentLength env ps.data.headers).toNat ≤ bytes.length - k :=
      Nat.sub_eq_zero_iff_le.mp (Nat.le_zero.mp hfits)
    rw [recvBody_fits hfits' hsmall, slice_memmove_store _ _ (by omega)] at hrun
    simp only [Prod.mk.injEq, Received.request.injEq] at hrun
    refine ⟨bytes.take k, (bytes.drop k).take (contentLength env ps.data.headers).toNat,
      (bytes.drop k).drop (contentLength env ps.data.headers).toNat, ?_, hhd, ?_, ?_⟩
    · rw [List.append_assoc, List.take_append_drop, List.take_append_drop]
    · rw [hlen]
      exact hk.trans (hmax.trans (by decide))
    · have hparse := executeMachine_header hhd (by
        rw [hlen]
        exact hk.trans (hmax.trans (by decide))) env.memory env.memory (bytes.drop k)
      rw [List.take_append_drop, hexec] at hparse
      cases hrunhd : exec (store env.memory 0 (bytes.take k)) (bytes.take k).length 0
          (HTTPRequestParser.init env) with
      | none =>
          rw [hrunhd] at hparse
          simp at hparse
      | some res =>
          rcases res with ⟨q, ps₀⟩
          simp only [hrunhd, Executed.ok.injEq] at hparse
          rcases hparse with ⟨rfl, rfl⟩
          refine ⟨ps₀, ?_, herr, ?_, hrun.1.symm⟩
          · rw [hlen]
          · rw [List.length_take, List.length_drop]
            exact Nat.min_eq_left hfits'

/-! ## Any cut -/

/-- The first piece has the whole header, and the bytes behind it are not taken
for a full buffer.  The second part is about buffers of `2 ^ 31` bytes and more
only, whose size does not fit into an `int`. -/
def HeaderFirst (env : Env) (bufferSize : Nat) (bytes : Text) (cuts : List Text) : Prop :=
  headerLength env bytes ≤ (cuts.headD []).length ∧
    (((cuts.headD []).length - headerLength env bytes : Nat) : Int) ≠ toInt32 bufferSize

instance (env : Env) (bufferSize : Nat) (bytes : Text) (cuts : List Text) :
    Decidable (HeaderFirst env bufferSize bytes cuts) :=
  inferInstanceAs (Decidable (_ ∧ _))

/-- `recv_request` returns the request. -/
def Returns (env : Env) (bufferSize : Nat) (s : SocketStream) (r : HTTPRequest) : Prop :=
  ∃ fuel s', recvRequest env bufferSize fuel s = (.request r, s')

/-- A read takes the first piece. -/
theorem readLength_cuts {bufferSize : Nat} {cuts : List Text} (hne : cuts.flatten ≠ [])
    (hcuts : ∀ c ∈ cuts, c ≠ [] ∧ c.length ≤ bufferSize)
    (hmax : cuts.flatten.length ≤ maxTransfer) :
    (ofCuts cuts).readLength bufferSize = (cuts.headD []).length := by
  cases cuts with
  | nil => simp at hne
  | cons c cuts =>
      have hc := (hcuts c List.mem_cons_self).2
      rw [List.flatten_cons, List.length_append] at hmax
      rw [readLength_ofCuts, List.headD_cons]
      omega

/-- The parts of an accepted string and the first read of a cutting. -/
theorem Accepts.cutStream {env : Env} {bufferSize : Nat} {bytes : Text} {r : HTTPRequest}
    (hacc : Accepts env bufferSize bytes r) {cuts : List Text}
    (hcuts : ∀ c ∈ cuts, c ≠ [] ∧ c.length ≤ bufferSize) (hflat : cuts.flatten = bytes) :
    ∃ hd bd rest, IsMessage env hd bd r ∧ headerLength env bytes = hd.length ∧
      bytes.length = hd.length + bd.length + rest.length ∧
      CutStream (ofCuts cuts) (hd ++ bd ++ rest) ∧
      (ofCuts cuts).readLength bufferSize = (cuts.headD []).length := by
  rcases hacc.message with ⟨hd, bd, rest, hbytes, hmsg⟩
  refine ⟨hd, bd, rest, hmsg, ?_, ?_, ?_, ?_⟩
  · rw [hbytes, List.append_assoc]
    exact headerLength_eq hmsg.header _
  · rw [hbytes, List.length_append, List.length_append]
  · rw [← hbytes, ← hflat]
    exact ofCuts_cutStream fun c hc => (hcuts c hc).1
  · refine readLength_cuts ?_ hcuts ?_
    · rw [hflat]
      exact hacc.1
    · rw [hflat]
      exact hacc.2.2.1

/-- The second read of a cutting. -/
theorem readLength_second {bufferSize : Nat} {cuts : List Text}
    (hcuts : ∀ c ∈ cuts, c ≠ [] ∧ c.length ≤ bufferSize)
    (hmax : cuts.flatten.length ≤ maxTransfer) :
    ((ofCuts cuts).skip (cuts.headD []).length).readLength bufferSize =
      (cuts.tail.headD []).length := by
  cases cuts with
  | nil => rfl
  | cons c cuts =>
      have hrest : ∀ c' ∈ cuts, c' ≠ [] ∧ c'.length ≤ bufferSize :=
        fun c' hc' => hcuts c' (List.mem_cons_of_mem _ hc')
      rw [List.flatten_cons, List.length_append] at hmax
      have hsame := readLength_congr
        (show ((ofCuts (c :: cuts)).skip c.length).connected = (ofCuts cuts).connected from rfl)
        (ofCuts_skip_incoming c cuts fun c' hc' => (hrest c' hc').1) bufferSize
      rw [List.headD_cons, List.tail_cons, hsame]
      by_cases hnil : cuts = []
      · subst hnil
        rfl
      · refine readLength_cuts ?_ hrest (by omega)
        cases cuts with
        | nil => exact absurd rfl hnil
        | cons d ds => simp [(hrest d List.mem_cons_self).1]

/-- A request whose header is cut is lost, unless the second piece is as long as
the whole header and there are bytes behind the request. -/
theorem split_of_returns {env : Env} {bufferSize : Nat} {bytes : Text} {r : HTTPRequest}
    (hacc : Accepts env bufferSize bytes r) {cuts : List Text}
    (hcuts : ∀ c ∈ cuts, c ≠ [] ∧ c.length ≤ bufferSize) (hflat : cuts.flatten = bytes)
    (hsplit : (cuts.headD []).length < headerLength env bytes)
    (hret : Returns env bufferSize (ofCuts cuts) r) :
    headerLength env bytes ≤ (cuts.tail.headD []).length ∧
      headerLength env bytes + (contentLength env r.headers).toNat < bytes.length := by
  rcases hret with ⟨fuel, s', hrun⟩
  rcases hacc.cutStream hcuts hflat with ⟨hd, bd, rest, hmsg, hhead, htotal, hs, hread⟩
  rcases recvRequest_split hmsg hs (by omega) hrun with ⟨hmore, hbound, hsecond⟩
  rw [hread, readLength_second hcuts (by rw [hflat]; exact hacc.2.2.1)] at hsecond
  rw [List.length_append, List.length_append] at hbound
  rw [← hmsg.body_length]
  omega

/-- A string that is a request when it arrives in one read, and any cutting of
it.  With the whole header in the first piece it is the same request.  Without,
it can only be when the second piece is as long as the header and there are
bytes behind the request. -/
theorem recvRequest_cut {env : Env} {bufferSize : Nat} {bytes : Text} {r : HTTPRequest}
    (hacc : Accepts env bufferSize bytes r) {cuts : List Text}
    (hcuts : ∀ c ∈ cuts, c ≠ [] ∧ c.length ≤ bufferSize) (hflat : cuts.flatten = bytes) :
    (HeaderFirst env bufferSize bytes cuts → Returns env bufferSize (ofCuts cuts) r) ∧
      (Returns env bufferSize (ofCuts cuts) r → HeaderFirst env bufferSize bytes cuts ∨
        headerLength env bytes ≤ (cuts.tail.headD []).length ∧
          headerLength env bytes + (contentLength env r.headers).toNat < bytes.length) := by
  rcases hacc.cutStream hcuts hflat with ⟨hd, bd, rest, hmsg, hhead, htotal, hs, hread⟩
  have hmax : bytes.length ≤ 0x7ffff000 := hacc.2.2.1
  constructor
  · rintro ⟨hfirst, hfull⟩
    rw [hhead, ← hread] at hfirst hfull
    refine ⟨1, _, recvRequest_whole hmsg hs hfirst hfull (by omega) ?_ 0⟩
    intro hlt
    rw [toInt32_of_lt (by omega)]
    omega
  · intro hret
    by_cases hfirst : headerLength env bytes ≤ (cuts.headD []).length
    · rcases hret with ⟨fuel, s', hrun⟩
      have hinv := recvRequest_whole_inv hmsg hs (by omega) hrun
      rw [hread, ← hhead] at hinv
      exact .inl ⟨hfirst, hinv.1⟩
    · exact .inr (split_of_returns hacc hcuts hflat (by omega) hret)

/-- Every string is lost when its bytes come one by one. -/
theorem Accepts.exists_cut_fails {env : Env} {bufferSize : Nat} {bytes : Text} {r : HTTPRequest}
    (hacc : Accepts env bufferSize bytes r) :
    ∃ cuts : List Text, (∀ c ∈ cuts, c ≠ [] ∧ c.length ≤ bufferSize) ∧ cuts.flatten = bytes ∧
      ¬ Returns env bufferSize (ofCuts cuts) r := by
  have hflat : (bytes.map fun c => [c]).flatten = bytes := by
    rw [← List.flatMap_def]
    simp
  have hone : 1 ≤ bufferSize := (List.length_pos_iff.mpr hacc.1).trans_le hacc.2.1
  have hcuts : ∀ c ∈ bytes.map (fun c => [c]), c ≠ [] ∧ c.length ≤ bufferSize := by
    intro c hc
    rcases List.mem_map.mp hc with ⟨b, -, rfl⟩
    exact ⟨by simp, hone⟩
  refine ⟨bytes.map fun c => [c], hcuts, hflat, ?_⟩
  intro hret
  rcases hacc.message with ⟨hd, bd, rest, hbytes, hmsg⟩
  have htwo := hmsg.header.two_le
  have hhead : headerLength env bytes = hd.length := by
    rw [hbytes, List.append_assoc]
    exact headerLength_eq hmsg.header _
  have hpiece : ∀ l : Text, ((l.map fun c => [c]).headD []).length ≤ 1 := by
    intro l
    cases l with
    | nil => exact Nat.zero_le 1
    | cons c l => exact le_rfl
  have hfirst := hpiece bytes
  have hsecond := hpiece bytes.tail
  rw [List.map_tail] at hsecond
  have := (split_of_returns hacc hcuts hflat (by omega) hret).1
  omega

/-- Decimal numbers, as `boost::lexical_cast` reads them. -/
def decimal (v : Text) : Option UInt64 :=
  if v.isEmpty then none
  else v.foldl (fun acc c => acc.bind fun n =>
    if 48 ≤ c.toNat ∧ c.toNat ≤ 57 ∧ 10 * n + (c.toNat - 48) < 2 ^ 64 then
      some (10 * n + (c.toNat - 48)) else none) (some 0) |>.map UInt64.ofNat

/-- A setting for examples. -/
def plainEnv : Env := ⟨false, fun _ => 0, decimal⟩

/-- `GET / HTTP/1.1` -/
def getText : Text :=
  text ['G', 'E', 'T', ' ', '/', ' ', 'H', 'T', 'T', 'P', '/', '1', '.', '1', '\n', '\n']

/-- `PUT / HTTP/1.1` with a body of one byte -/
def putText : Text :=
  text ['P', 'U', 'T', ' ', '/', ' ', 'H', 'T', 'T', 'P', '/', '1', '.', '1', '\n',
    'C', 'o', 'n', 't', 'e', 'n', 't', '-', 'L', 'e', 'n', 'g', 't', 'h', ':', '1', '\n', '\n', 'x']

def putRequest : HTTPRequest :=
  { HTTPRequest.fresh with
    method := .PUT
    body := text ['x']
    headers := [(text ['C', 'o', 'n', 't', 'e', 'n', 't', '-', 'L', 'e', 'n', 'g', 't', 'h'],
      text ['1'])] }

private theorem accepts_put : Accepts plainEnv 4096 putText putRequest := by
  refine ⟨by decide, by decide, by decide, 1, ⟨true, [], 34, [], []⟩, ?_⟩
  decide +kernel

/-- The body in a read of its own. -/
theorem recvRequest_cut_put :
    Returns plainEnv 4096 (ofCuts [putText.take 33, putText.drop 33]) putRequest :=
  (recvRequest_cut accepts_put (by decide) (by decide)).1 (by decide)

private theorem accepts_get : Accepts plainEnv 4096 getText HTTPRequest.fresh := by
  refine ⟨by decide, by decide, by decide, 1, ⟨true, [], 16, [], []⟩, ?_⟩
  decide +kernel

/-- A request line in two reads. -/
theorem recvRequest_cut_fails :
    Accepts plainEnv 4096 getText HTTPRequest.fresh ∧
      [getText.take 8, getText.drop 8].flatten = getText ∧
      ¬ Returns plainEnv 4096 (ofCuts [getText.take 8, getText.drop 8]) HTTPRequest.fresh := by
  refine ⟨accepts_get, by decide, ?_⟩
  intro hret
  have hsecond := (split_of_returns accepts_get (by decide) (by decide) (by decide) hret).1
  exact absurd hsecond (by decide)

end Http
end Tiger
