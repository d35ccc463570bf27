import Tiger.Http.RequestRun
import Tiger.Streams.CutStream

/-!
# HTTP - the rounds of `recv_request`

The parser keeps `nread` over its calls and returns it, but the assert behind
the machine compares it with the length of one call, and the caller takes it
for the number of bytes to drop.  So a header that does not come with the first
read can only be completed by a second read that is longer than the whole
header, and then bytes behind the header are dropped.

Main results:

- Theorem `recvRequest_whole`: with the whole header in the first read the
  request is received.
- Theorem `recvRequest_split`: with a split header a received request takes more
  bytes from the stream than it has.
-/

namespace Tiger
namespace Http

open Lib.Ragel HTTPRequestParser RequestGrammar SocketStream

/-! ## One round -/

/-- One round of the header loop in front of an empty buffer. -/
theorem recvHeader_round {s : SocketStream} {bytes : Text} (hs : CutStream s bytes)
    (bufferSize fuel : Nat) (ps : HTTPRequestParser) (m : Memory) :
    recvHeader bufferSize (fuel + 1) ps m 0 s =
      let n := s.readLength bufferSize
      let m₁ := store m 0 (bytes.take n)
      match executeMachine m₁ n ps with
      | .abort => .abort
      | .threw => .threw
      | .ok nparse ps' =>
          let m₂ := memmove m₁ nparse (n - nparse)
          if ps'.hasError then .null (s.skip n).close
          else if ((n - nparse : Nat) : Int) = toInt32 bufferSize then .null (s.skip n).close
          else if ps'.isFinished then .finished ps' m₂ (n - nparse) (s.skip n)
          else recvHeader bufferSize fuel ps' m₂ (n - nparse) (s.skip n) := by
  have hread : ¬ ((s.readLength bufferSize : Nat) : Int) < 0 := by omega
  rw [recvHeader, Nat.sub_zero, hs.read_eq]
  cases hexec : executeMachine (store m 0 (bytes.take (s.readLength bufferSize)))
      (s.readLength bufferSize) ps with
  | ok nparse ps' => simp only [Int.toNat_natCast, Nat.add_zero, if_neg hread, hexec]
  | abort => simp only [Int.toNat_natCast, Nat.add_zero, if_neg hread, hexec]
  | threw => simp only [Int.toNat_natCast, Nat.add_zero, if_neg hread, hexec]

/-- The ways in which a call returns. -/
theorem executeMachine_cases {r : Bool} {m : Memory} {n nparse : Nat}
    {ps ps' : HTTPRequestParser} {threads : List E} (hn : 0 < n) (hcs : ps.cs = some threads)
    (hreach : RequestReach r threads) (h : executeMachine m n ps = .ok nparse ps') :
    nparse ≤ n ∧ ps'.nread = nparse ∧
      ((∃ ths, scan .done threads (slice m 0 n) = .running ths ∧ nparse = ps.nread + n ∧
          ps'.cs = some ths ∧ RequestReach r ths ∧ ps'.isFinished = false) ∨
        (∃ k ths, scan .done threads (slice m 0 n) = .stopped k ths ∧ nparse = ps.nread + k ∧
          ps'.isFinished = true) ∨
        (∃ k, scan .done threads (slice m 0 n) = .failed k ∧ ps'.hasError = true)) := by
  rcases executeMachine_ok hn hcs h with ⟨q, hq, hle, hnread, hstops⟩
  refine ⟨hle, hnread, ?_⟩
  cases hscan : scan .done threads (slice m 0 n) with
  | running ths =>
      rw [hscan] at hstops
      have hths : RequestReach r ths := hreach.running hscan
      refine .inl ⟨ths, rfl, ?_, hstops.2, hths, ?_⟩
      · have := hstops.1
        omega
      · rw [isFinished, hstops.2]
        exact RequestReach.not_isFinal hths
  | stopped k ths =>
      rw [hscan] at hstops
      refine .inr (.inl ⟨k, ths, rfl, ?_, ?_⟩)
      · have := hstops.1
        omega
      · rw [isFinished, hstops.2]
        exact (RequestReach.stopped_spec hreach hscan).1
  | failed k =>
      rw [hscan] at hstops
      exact .inr (.inr ⟨k, rfl, by simp [hasError, hstops.2]⟩)

/-- The bytes a read stores are the first of the stream. -/
theorem slice_store_take {s : SocketStream} {bytes : Text} (hs : CutStream s bytes) (m : Memory)
    (len : Nat) :
    slice (store m 0 (bytes.take (s.readLength len))) 0 (s.readLength len) =
      bytes.take (s.readLength len) := by
  have h := slice_store_all m (bytes.take (s.readLength len))
  rwa [hs.take_readLength_length] at h

/-! ## A second round -/

/-- A second call that returns a header has got more bytes than the header. -/
theorem recvHeader_again {r : Bool} {s s' : SocketStream} {bytes : Text} (hs : CutStream s bytes)
    {bufferSize fuel offset : Nat} {ps ps' : HTTPRequestParser} {m m' : Memory} {threads : List E}
    (hcs : ps.cs = some threads) (hreach : RequestReach r threads) (hnread : 0 < ps.nread)
    (hn : 0 < s.readLength bufferSize)
    (h : recvHeader bufferSize fuel ps m 0 s = .finished ps' m' offset s') :
    s' = s.skip (s.readLength bufferSize) ∧
      ∃ k ths, scan .done threads (bytes.take (s.readLength bufferSize)) = .stopped k ths ∧
        ps.nread + k + offset = s.readLength bufferSize := by
  cases fuel with
  | zero => simp [recvHeader] at h
  | succ fuel =>
      rw [recvHeader_round hs] at h
      simp only at h
      split at h
      · simp at h
      · simp at h
      · next nparse ps₁ hexec =>
        rcases executeMachine_cases hn hcs hreach hexec with ⟨hle, -, hcase⟩
        rw [slice_store_take hs] at hcase
        rcases hcase with ⟨ths, -, hparse, -⟩ | ⟨k, ths, hscan, hparse, hfin⟩ | ⟨k, -, herr⟩
        · omega
        · rw [if_pos hfin] at h
          split at h
          · simp at h
          · split at h
            · simp at h
            · simp only [HeaderPhase.finished.injEq] at h
              refine ⟨h.2.2.2.symm, k, ths, hscan, ?_⟩
              have := h.2.2.1
              omega
        · simp [herr] at h

/-- The first call on the beginning of a header takes all of it. -/
theorem executeMachine_part {env : Env} {hd : Text} (hhd : IsHeader env hd) {s : SocketStream}
    {rest : Text} (hs : CutStream s (hd ++ rest)) {len : Nat} (hpos : 0 < s.readLength len)
    (hlt : s.readLength len < hd.length) {m : Memory} {nparse : Nat} {ps : HTTPRequestParser}
    (h : executeMachine (store m 0 ((hd ++ rest).take (s.readLength len))) (s.readLength len)
      (HTTPRequestParser.init env) = .ok nparse ps) :
    nparse = s.readLength len ∧ ps.nread = nparse ∧ ps.isFinished = false ∧
      ∃ ths threads', ps.cs = some ths ∧ RequestReach env.uriRelaxed ths ∧
        scan .done ths (hd.drop (s.readLength len)) =
          .stopped (hd.length - s.readLength len) threads' := by
  rcases hhd with ⟨threads', hscan⟩
  rcases scan_take_running hscan hlt with ⟨ths, hrun, hrest⟩
  rcases executeMachine_cases hpos rfl Reach.start h with ⟨-, hnread, hcase⟩
  rw [slice_store_take hs, List.take_append_of_le_length (by omega)] at hcase
  change scan .done (start (main env.uriRelaxed)) _ = _ at hrun
  rcases hcase with ⟨ths', hscan', hparse, hcs, hreach, hfin⟩ | ⟨k, ths', hscan', -⟩ |
    ⟨k, hscan', -⟩
  · rw [hrun, Scan.running.injEq] at hscan'
    subst hscan'
    refine ⟨?_, hnread, hfin, ths, threads', hcs, hreach, hrest⟩
    rw [hparse]
    exact Nat.zero_add _
  · rw [hrun] at hscan'
    simp at hscan'
  · rw [hrun] at hscan'
    simp at hscan'

/-- Two texts of which one starts the other stop the machine at the same byte. -/
theorem scan_unique {threads t₁ t₂ : List E} {xs ys : Text} {j k : Nat}
    (hx : scan .done threads xs = .stopped j t₁) (hy : scan .done threads ys = .stopped k t₂)
    (hpre : xs <+: ys ∨ ys <+: xs) : j = k := by
  rcases hpre with ⟨zs, rfl⟩ | ⟨zs, rfl⟩
  · rw [scan_append_stopped hx zs] at hy
    simp only [Scan.stopped.injEq] at hy
    exact hy.1
  · rw [scan_append_stopped hy zs] at hx
    simp only [Scan.stopped.injEq] at hx
    exact hx.1.symm

/-- When the first read has a part of the header only, the header loop takes
that part once more from the bytes behind the header. -/
theorem recvHeader_split {env : Env} {hd rest : Text} (hhd : IsHeader env hd)
    {s s' : SocketStream} (hs : CutStream s (hd ++ rest)) {bufferSize fuel offset : Nat}
    (hlt : s.readLength bufferSize < hd.length) {ps' : HTTPRequestParser} {m m' : Memory}
    (h : recvHeader bufferSize fuel (HTTPRequestParser.init env) m 0 s =
      .finished ps' m' offset s') :
    0 < s.readLength bufferSize ∧
      (s.skip (s.readLength bufferSize)).readLength bufferSize = hd.length + offset ∧
      s.readLength bufferSize + hd.length + offset ≤ (hd ++ rest).length ∧
      s' = s.skip (s.readLength bufferSize + hd.length + offset) := by
  have hhdpos := hhd.length_pos
  have hne : hd ++ rest ≠ [] := by
    intro hnil
    rw [(List.append_eq_nil_iff.mp hnil).1] at hhdpos
    simp at hhdpos
  cases fuel with
  | zero => simp [recvHeader] at h
  | succ fuel =>
      rw [recvHeader_round hs] at h
      simp only at h
      split at h
      · simp at h
      · simp at h
      · next nparse ps₁ hexec =>
        by_cases hzero : s.readLength bufferSize = 0
        · -- an empty buffer is a full one
          have hbuf : bufferSize = 0 := by
            by_contra hbuf
            have := hs.readLength_pos (Nat.pos_of_ne_zero hbuf) hne
            omega
          subst hbuf
          rw [hzero] at h
          have hfull : (((0 - nparse : Nat) : Int) = toInt32 ((0 : Nat) : Int)) := by
            rw [Nat.zero_sub]
            rfl
          rw [if_pos hfull] at h
          split at h <;> simp at h
        · have hpos := Nat.pos_of_ne_zero hzero
          rcases executeMachine_part hhd hs hpos hlt hexec with
            ⟨hparse, hnread, hfin, ths, threads', hcs, hreach, hscan⟩
          have hdrop : (hd ++ rest).drop (s.readLength bufferSize) =
              hd.drop (s.readLength bufferSize) ++ rest :=
            List.drop_append_of_le_length (by omega)
          have hnext := hs.skip (s.readLength bufferSize)
          rw [hdrop] at hnext
          have hmore : hd.drop (s.readLength bufferSize) ++ rest ≠ [] := by
            intro hnil
            have := List.drop_eq_nil_iff.mp (List.append_eq_nil_iff.mp hnil).1
            omega
          have hbound := hs.readLength_le bufferSize
          have hpos₂ := hnext.readLength_pos (show 0 < bufferSize by omega) hmore
          simp only [hparse, Nat.sub_self, hfin] at h
          split at h
          · simp at h
          · split at h
            · simp at h
            · rw [if_neg (by simp)] at h
              rcases recvHeader_again hnext hcs hreach (by omega) hpos₂ h with
                ⟨hs', k, ths', hscan', hsum⟩
              have hk : hd.length - s.readLength bufferSize = k := by
                refine scan_unique (scan_append_stopped hscan rest) hscan' (.inr ?_)
                exact List.take_prefix _ _
              have hsum' : s.readLength bufferSize +
                  (s.skip (s.readLength bufferSize)).readLength bufferSize =
                    s.readLength bufferSize + hd.length + offset := by omega
              have hbound₂ := (hnext.readLength_le bufferSize).2.1
              rw [← hdrop, List.length_drop] at hbound₂
              refine ⟨hpos, by omega, by omega, ?_⟩
              rw [hs', hs.skip_skip, hsum']

/-! ## Bodies -/

/-- The content length as `recv_request` sees it. -/
def contentLength (env : Env) (headers : FieldMap) : Int :=
  toInt64 (getAs env.lexicalCast headers
    (text ['c', 'o', 'n', 't', 'e', 'n', 't', '-', 'l', 'e', 'n', 'g', 't', 'h']) 0)

theorem contentLength_eq (env : Env) (ps : HTTPRequestParser) :
    toInt64 (ps.getContentLength env) = contentLength env ps.data.headers := rfl

attribute [irreducible] contentLength

/-- Initialising a request keeps its headers. -/
@[simp] theorem init_headers (r : HTTPRequest) : r.init.headers = r.headers := by
  unfold HTTPRequest.init
  simp only
  split
  · rfl
  · rfl

/-- The request made of a parsed header and a body. -/
def requestOf (env : Env) (ps : HTTPRequestParser) (body : Text) : HTTPRequest :=
  if contentLength env ps.data.headers ≤ 0 then ps.data.init
  else { ps.data with body := body }.init

/-- The request has the headers of the parser. -/
theorem requestOf_headers (env : Env) (ps : HTTPRequestParser) (body : Text) :
    (requestOf env ps body).headers = ps.data.headers := by
  unfold requestOf
  split
  · rw [init_headers]
  · rw [init_headers]

/-- What a received body takes from the stream. -/
theorem recvBody_consumed {s s' : SocketStream} {bytes : Text} (hs : CutStream s bytes)
    {env : Env} {ps : HTTPRequestParser} {m : Memory} {offset : Nat} {r : HTTPRequest}
    (h : recvBody (contentLength env ps.data.headers) ps m offset s = (.request r, s')) :
    r.headers = ps.data.headers ∧
      s' = s.skip ((contentLength env ps.data.headers).toNat - offset) ∧
      (contentLength env ps.data.headers).toNat - offset ≤ bytes.length ∧
      (contentLength env ps.data.headers).toNat < 2 ^ 62 ∧
      ((contentLength env ps.data.headers).toNat ≤ offset ∨
        0 < toInt32 (((contentLength env ps.data.headers).toNat - offset : Nat) : Int)) := by
  unfold recvBody at h
  split at h
  next hnone =>
    simp only [Prod.mk.injEq, Received.request.injEq] at h
    have hzero : (contentLength env ps.data.headers).toNat - offset = 0 := by omega
    rw [hzero, hs.skip_zero, ← h.1, ← h.2]
    exact ⟨init_headers _, rfl, Nat.zero_le _, by omega, .inl (by omega)⟩
  next hsome =>
    split at h
    next => simp at h
    next hlt =>
    split at h
    next hfits =>
      simp only [Prod.mk.injEq, Received.request.injEq] at h
      have hzero : (contentLength env ps.data.headers).toNat - offset = 0 := by omega
      rw [hzero, hs.skip_zero, ← h.1, ← h.2]
      exact ⟨init_headers _, rfl, Nat.zero_le _, by omega, .inl (by omega)⟩
    next hmore =>
      have hlen : (contentLength env ps.data.headers - offset).toNat =
          (contentLength env ps.data.headers).toNat - offset := by omega
      simp only [hlen] at h
      split at h
      · simp at h
      · next hgood =>
        by_cases henough : (contentLength env ps.data.headers).toNat - offset ≤ bytes.length
        · have hread := hs.readFixedSize_eq (by omega) henough
          rw [hread] at h hgood
          simp only [Prod.mk.injEq, Received.request.injEq] at h
          rw [← h.1, ← h.2]
          exact ⟨init_headers _, rfl, henough, by omega, .inr (by simpa using hgood)⟩
        · have hshort := hs.readFixedSize_short
            (show (contentLength env ps.data.headers).toNat - offset < 2 ^ 63 by omega) (by omega)
          omega

/-! ## Requests on the wire -/

/-- The bytes of a well-formed request: a header that the parser takes without
an error, and a body of the length that the header announces. -/
structure IsMessage (env : Env) (hd bd : Text) (r : HTTPRequest) : Prop where
  header : IsHeader env hd
  size : hd.length ≤ 2 ^ 62
  parsed : ∃ ps, exec (store env.memory 0 hd) hd.length 0 (HTTPRequestParser.init env) =
      some (hd.length, ps) ∧ ps.hasError = false ∧
    bd.length = (contentLength env ps.data.headers).toNat ∧ r = requestOf env ps bd

/-- The body of a message has the length its headers state. -/
theorem IsMessage.body_length {env : Env} {hd bd : Text} {r : HTTPRequest}
    (h : IsMessage env hd bd r) : bd.length = (contentLength env r.headers).toNat := by
  rcases h.parsed with ⟨ps, -, -, hlen, hr⟩
  rw [hr, requestOf_headers]
  exact hlen

/-- The body behind a header that was parsed from a first read. -/
theorem recvBody_whole {s : SocketStream} {env : Env} {ps : HTTPRequestParser}
    {m : Memory} {hd bd rest : Text} {n : Nat} (hs : CutStream s ((hd ++ bd ++ rest).drop n))
    (hn : n ≤ (hd ++ bd ++ rest).length) (hfirst : hd.length ≤ n)
    (hlen : bd.length = (contentLength env ps.data.headers).toNat) (hbody : bd.length < 2 ^ 62)
    (hint : n < hd.length + bd.length →
      0 < toInt32 ((hd.length + bd.length - n : Nat) : Int)) :
    recvBody (contentLength env ps.data.headers) ps
        (memmove (store m 0 ((hd ++ bd ++ rest).take n)) hd.length (n - hd.length))
        (n - hd.length) s =
      (.request (requestOf env ps bd), s.skip (hd.length + bd.length - n)) := by
  have htake : ((hd ++ bd ++ rest).take n).length = n := by
    rw [List.length_take]
    omega
  unfold recvBody requestOf
  split
  next hnone =>
    have hzero : hd.length + bd.length - n = 0 := by omega
    rw [hzero, hs.skip_zero]
  next hsome =>
    rw [if_neg (by omega)]
    split
    next hfits =>
      have hzero : hd.length + bd.length - n = 0 := by omega
      have hslice : slice (memmove (store m 0 ((hd ++ bd ++ rest).take n)) hd.length
          (n - hd.length)) 0 (contentLength env ps.data.headers).toNat = bd := by
        have hmove := slice_memmove_store m ((hd ++ bd ++ rest).take n)
          (show hd.length + (contentLength env ps.data.headers).toNat ≤
            ((hd ++ bd ++ rest).take n).length by omega)
        rw [htake] at hmove
        rw [hmove, ← hlen, List.drop_take, List.take_take, Nat.min_eq_left (by omega),
          List.append_assoc, List.drop_left, List.take_left]
      rw [hzero, hs.skip_zero, hslice]
    next hmore =>
      have hleft : (contentLength env ps.data.headers - ((n - hd.length : Nat) : Int)).toNat =
          hd.length + bd.length - n := by omega
      have henough : hd.length + bd.length - n ≤ ((hd ++ bd ++ rest).drop n).length := by
        rw [List.length_drop, List.length_append, List.length_append]
        omega
      have hslice : slice (memmove (store m 0 ((hd ++ bd ++ rest).take n)) hd.length
          (n - hd.length)) 0 (n - hd.length) ++
            ((hd ++ bd ++ rest).drop n).take (hd.length + bd.length - n) = bd := by
        have hmove := slice_memmove_store m ((hd ++ bd ++ rest).take n)
          (show hd.length + (n - hd.length) ≤ ((hd ++ bd ++ rest).take n).length by omega)
        have hdrop : (hd ++ (bd ++ rest)).drop n = (bd ++ rest).drop (n - hd.length) := by
          rw [List.drop_append, List.drop_eq_nil_of_le hfirst, List.nil_append]
        have hsum : n - hd.length + (hd.length + bd.length - n) = bd.length := by omega
        rw [htake] at hmove
        rw [hmove, List.drop_take, List.take_take, Nat.min_self, List.append_assoc,
          List.drop_left, hdrop, ← List.take_add, hsum, List.take_left]
      simp only [hleft, hs.readFixedSize_eq (show hd.length + bd.length - n < 2 ^ 63 by omega)
        henough]
      rw [if_neg (not_le.mpr (hint (by omega))), hslice]

/-- What a first call makes of a whole header. -/
theorem executeMachine_message {env : Env} {hd bd : Text} {r : HTTPRequest}
    (hmsg : IsMessage env hd bd r) (m : Memory) (rest : Text) :
    ∃ ps, executeMachine (store m 0 (hd ++ rest)) (hd ++ rest).length
        (HTTPRequestParser.init env) = .ok hd.length ps ∧ ps.hasError = false ∧
      ps.isFinished = true ∧ bd.length = (contentLength env ps.data.headers).toNat ∧
      r = requestOf env ps bd := by
  rcases hmsg.parsed with ⟨ps, hexec, herr, hlen, hr⟩
  have hrun := executeMachine_header hmsg.header hmsg.size m env.memory rest
  rw [hexec] at hrun
  refine ⟨_, hrun, herr, ?_, hlen, hr⟩
  rcases hmsg.header with ⟨threads, hscan⟩
  have hstops := (exec_scan rfl hexec).2
  rw [slice_store_all] at hstops
  change Stops _ _ _ _ (scan .done (startState env) hd) at hstops
  rw [hscan] at hstops
  simp only [isFinished, hstops.2]
  exact (RequestReach.stopped_spec Reach.start hscan).1

/-- The header loop with the whole header in the first read. -/
theorem recvHeader_whole {env : Env} {hd bd rest : Text} {r : HTTPRequest}
    (hmsg : IsMessage env hd bd r) {s : SocketStream} (hs : CutStream s (hd ++ bd ++ rest))
    {bufferSize : Nat} (hfirst : hd.length ≤ s.readLength bufferSize) (fuel : Nat) :
    ∃ ps, bd.length = (contentLength env ps.data.headers).toNat ∧ r = requestOf env ps bd ∧
      recvHeader bufferSize (fuel + 1) (HTTPRequestParser.init env) env.memory 0 s =
        if ((s.readLength bufferSize - hd.length : Nat) : Int) = toInt32 bufferSize then
          .null (s.skip (s.readLength bufferSize)).close
        else .finished ps
          (memmove (store env.memory 0 ((hd ++ bd ++ rest).take (s.readLength bufferSize)))
            hd.length (s.readLength bufferSize - hd.length))
          (s.readLength bufferSize - hd.length) (s.skip (s.readLength bufferSize)) := by
  have hlen := hs.take_readLength_length bufferSize
  obtain ⟨xs, hxs⟩ : ∃ xs, (hd ++ bd ++ rest).take (s.readLength bufferSize) = hd ++ xs := by
    refine ⟨(bd ++ rest).take (s.readLength bufferSize - hd.length), ?_⟩
    rw [List.append_assoc, List.take_append, List.take_of_length_le hfirst]
  rcases executeMachine_message hmsg env.memory xs with ⟨ps, hrun, herr, hfin, hbd, hr⟩
  rw [← hxs, hlen] at hrun
  refine ⟨ps, hbd, hr, ?_⟩
  rw [recvHeader_round hs]
  simp only [hrun, herr, hfin, if_true, Bool.false_eq_true, if_false]

/-- With the whole header in the first read the request is received, and the
stream is behind the first read and the request. -/
theorem recvRequest_whole {env : Env} {hd bd rest : Text} {r : HTTPRequest}
    (hmsg : IsMessage env hd bd r) {s : SocketStream} (hs : CutStream s (hd ++ bd ++ rest))
    {bufferSize : Nat} (hfirst : hd.length ≤ s.readLength bufferSize)
    (hfull : ((s.readLength bufferSize - hd.length : Nat) : Int) ≠ toInt32 bufferSize)
    (hsmall : bd.length < 2 ^ 62)
    (hint : s.readLength bufferSize < hd.length + bd.length →
      0 < toInt32 ((hd.length + bd.length - s.readLength bufferSize : Nat) : Int)) (fuel : Nat) :
    recvRequest env bufferSize (fuel + 1) s =
      (.request r, s.skip (max (s.readLength bufferSize) (hd.length + bd.length))) := by
  have hbound := hs.readLength_le bufferSize
  rcases recvHeader_whole hmsg hs hfirst fuel with ⟨ps, hbd, hr, hheader⟩
  rw [if_neg hfull] at hheader
  have hbody := recvBody_whole (m := env.memory) (hs.skip (s.readLength bufferSize)) hbound.2.1
    hfirst hbd hsmall hint
  have hmax : s.readLength bufferSize + (hd.length + bd.length - s.readLength bufferSize) =
      max (s.readLength bufferSize) (hd.length + bd.length) := by omega
  rw [recvRequest, hheader]
  simp only
  rw [contentLength_eq, hbody, hs.skip_skip, ← hr, hmax]

/-- A request that is received with its header in the first read. -/
theorem recvRequest_whole_inv {env : Env} {hd bd rest : Text} {r r' : HTTPRequest}
    (hmsg : IsMessage env hd bd r) {s s' : SocketStream} (hs : CutStream s (hd ++ bd ++ rest))
    {bufferSize fuel : Nat} (hfirst : hd.length ≤ s.readLength bufferSize)
    (h : recvRequest env bufferSize fuel s = (.request r', s')) :
    ((s.readLength bufferSize - hd.length : Nat) : Int) ≠ toInt32 bufferSize ∧
      bd.length < 2 ^ 62 ∧
      (s.readLength bufferSize < hd.length + bd.length →
        0 < toInt32 ((hd.length + bd.length - s.readLength bufferSize : Nat) : Int)) := by
  cases fuel with
  | zero => simp [recvRequest, recvHeader] at h
  | succ fuel =>
      rcases recvHeader_whole hmsg hs hfirst fuel with ⟨ps, hbd, -, hheader⟩
      rw [recvRequest] at h
      by_cases hfull : ((s.readLength bufferSize - hd.length : Nat) : Int) = toInt32 bufferSize
      · rw [if_pos hfull] at hheader
        simp [hheader] at h
      · rw [if_neg hfull] at hheader
        rw [hheader] at h
        simp only at h
        rw [contentLength_eq] at h
        rcases recvBody_consumed (hs.skip _) h with ⟨-, -, -, hsmall, hcase⟩
        rw [← hbd] at hsmall hcase
        refine ⟨hfull, hsmall, ?_⟩
        intro hlt
        rcases hcase with hfits | hint
        · omega
        · have hrest : bd.length - (s.readLength bufferSize - hd.length) =
              hd.length + bd.length - s.readLength bufferSize := by omega
          rwa [hrest] at hint

/-- With a part of the header in the first read, a received request takes that
part once more. -/
theorem recvRequest_split {env : Env} {hd bd rest : Text} {r : HTTPRequest}
    (hmsg : IsMessage env hd bd r) {s s' : SocketStream} (hs : CutStream s (hd ++ bd ++ rest))
    {bufferSize fuel : Nat} (hlt : s.readLength bufferSize < hd.length)
    (h : recvRequest env bufferSize fuel s = (.request r, s')) :
    s.consumed + hd.length + bd.length < s'.consumed ∧
      s'.consumed ≤ s.consumed + (hd ++ bd ++ rest).length ∧
      hd.length ≤ (s.skip (s.readLength bufferSize)).readLength bufferSize := by
  rw [recvRequest] at h
  rw [List.append_assoc] at hs ⊢
  split at h
  · simp at h
  · simp at h
  · simp at h
  · simp at h
  · next ps m offset s₁ hheader =>
    rw [contentLength_eq] at h
    rcases recvHeader_split hmsg.header hs hlt hheader with ⟨hpos, hsecond, hbound, hs₁⟩
    have hcut := hs.skip (s.readLength bufferSize + hd.length + offset)
    rw [← hs₁] at hcut
    rcases recvBody_consumed hcut h with ⟨hheaders, hs', hbody, -, -⟩
    have hbd := hmsg.body_length
    rw [hheaders] at hbd
    have hcons : s'.consumed = s.consumed + (s.readLength bufferSize + hd.length + offset) +
        ((contentLength env ps.data.headers).toNat - offset) := by
      simp only [hs', hs₁, SocketStream.skip]
    rw [List.length_drop] at hbody
    generalize (contentLength env ps.data.headers).toNat = k at hbd hcons hbody
    omega

end Http
end Tiger
