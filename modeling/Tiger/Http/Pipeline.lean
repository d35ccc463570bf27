import Tiger.Http.Cuts

/-!
# HTTP - requests back to back

Every call of `HTTPSession::recv_request` has a buffer and a parser of its own,
and drops what it has read behind its request.  So requests that follow each
other on one connection are all received only when no read reaches over the end
of a request.

Main results:

- Theorem `receivesAll_iff`: successive calls receive a list of requests, each
  with exactly its bytes, if and only if the first read of each call ends between
  the end of the header and the end of the body.
-/

namespace Tiger
namespace Http

open Lib.Ragel HTTPRequestParser SocketStream

/-- A well-formed request on the wire, with what the server should see. -/
structure WireRequest (env : Env) where
  header : Text
  body : Text
  request : HTTPRequest
  isMessage : IsMessage env header body request

namespace WireRequest

variable {env : Env}

/-- The bytes of a request. -/
def bytes (q : WireRequest env) : Text := q.header ++ q.body

theorem bytes_length (q : WireRequest env) :
    q.bytes.length = q.header.length + q.body.length := List.length_append

/-- The first read of a call ends between the end of the header and the end of
the body.  The other conditions are about sizes of `2 ^ 31` bytes and more: that
the bytes behind the header are not taken for a full buffer, that a string can
have the length of the body, and that the rest of it is a positive `int`. -/
def Fits (q : WireRequest env) (bufferSize : Nat) (s : SocketStream) : Prop :=
  q.header.length ≤ s.readLength bufferSize ∧ s.readLength bufferSize ≤ q.bytes.length ∧
    ((s.readLength bufferSize - q.header.length : Nat) : Int) ≠ toInt32 bufferSize ∧
    q.body.length < 2 ^ 62 ∧
    (s.readLength bufferSize < q.bytes.length →
      0 < toInt32 ((q.bytes.length - s.readLength bufferSize : Nat) : Int))

/-- A call that returns the request and takes its bytes from the stream, no
fewer and no more. -/
def Received (q : WireRequest env) (bufferSize : Nat) (s s' : SocketStream) : Prop :=
  ∃ fuel, recvRequest env bufferSize fuel s = (.request q.request, s') ∧
    s'.consumed = s.consumed + q.bytes.length

/-- One call: the request is received exactly when the first read fits it. -/
theorem received_iff (q : WireRequest env) {rest : Text} {s : SocketStream}
    (hs : CutStream s (q.bytes ++ rest)) (bufferSize : Nat) (s' : SocketStream) :
    q.Received bufferSize s s' ↔ q.Fits bufferSize s ∧ s' = s.skip q.bytes.length := by
  have hlen := q.bytes_length
  constructor
  · rintro ⟨fuel, hrun, hcons⟩
    by_cases hfirst : q.header.length ≤ s.readLength bufferSize
    · have hinv := recvRequest_whole_inv q.isMessage hs hfirst hrun
      cases fuel with
      | zero => simp [recvRequest, recvHeader] at hrun
      | succ fuel =>
          rw [recvRequest_whole q.isMessage hs hfirst hinv.1 hinv.2.1 hinv.2.2 fuel] at hrun
          simp only [Prod.mk.injEq, true_and] at hrun
          have hmax : max (s.readLength bufferSize) (q.header.length + q.body.length) =
              q.bytes.length := by
            rw [← hrun] at hcons
            simp only [SocketStream.skip] at hcons
            omega
          rw [hmax] at hrun
          refine ⟨⟨hfirst, by omega, hinv.1, hinv.2.1, ?_⟩, hrun.symm⟩
          rw [hlen]
          exact hinv.2.2
    · have hsplit := recvRequest_split q.isMessage hs (by omega) hrun
      omega
  · rintro ⟨⟨hfirst, hend, hfull, hsmall, hint⟩, rfl⟩
    rw [hlen] at hint
    refine ⟨1, ?_, rfl⟩
    have hmax : max (s.readLength bufferSize) (q.header.length + q.body.length) =
        q.bytes.length := by omega
    rw [recvRequest_whole q.isMessage hs hfirst hfull hsmall hint 0, hmax]

end WireRequest

/-- Successive calls on a session return the requests in order, and each call
takes the bytes of its request. -/
def ReceivesAll {env : Env} (bufferSize : Nat) : List (WireRequest env) → SocketStream → Prop
  | [], _ => True
  | q :: qs, s => ∃ s', q.Received bufferSize s s' ∧ ReceivesAll bufferSize qs s'

/-- In front of every request the next read fits it. -/
def FitsAll {env : Env} (bufferSize : Nat) : List (WireRequest env) → SocketStream → Prop
  | [], _ => True
  | q :: qs, s => q.Fits bufferSize s ∧ FitsAll bufferSize qs (s.skip q.bytes.length)

/-- Requests back to back on one connection, in any cutting: the calls return
exactly these requests if and only if the reads fit them. -/
theorem receivesAll_iff {env : Env} (bufferSize : Nat) (qs : List (WireRequest env))
    {cuts : List Text} (hcuts : ∀ c ∈ cuts, c ≠ [])
    (hflat : cuts.flatten = qs.flatMap WireRequest.bytes) :
    ReceivesAll bufferSize qs (ofCuts cuts) ↔ FitsAll bufferSize qs (ofCuts cuts) := by
  have hs : CutStream (ofCuts cuts) (qs.flatMap WireRequest.bytes) := hflat ▸ ofCuts_cutStream hcuts
  generalize ofCuts cuts = s at hs
  clear hcuts hflat
  induction qs generalizing s with
  | nil => exact Iff.rfl
  | cons q qs ih =>
      rw [List.flatMap_cons] at hs
      have hnext := hs.skip q.bytes.length
      rw [List.drop_left] at hnext
      constructor
      · rintro ⟨s', hrec, hrest⟩
        rcases (q.received_iff hs bufferSize s').mp hrec with ⟨hfits, rfl⟩
        exact ⟨hfits, (ih _ hnext).mp hrest⟩
      · rintro ⟨hfits, hrest⟩
        exact ⟨_, (q.received_iff hs bufferSize _).mpr ⟨hfits, rfl⟩, (ih _ hnext).mpr hrest⟩

/-! ## Two requests -/

/-- The test whether the parser makes the request of the bytes. -/
def checkMessage (env : Env) (hd bd : Text) (r : HTTPRequest) : Bool :=
  (match scan .done (startState env) hd with
    | .stopped k _ => k == hd.length
    | _ => false) &&
  (match exec (store env.memory 0 hd) hd.length 0 (HTTPRequestParser.init env) with
    | some (q, ps) => decide (q = hd.length ∧ ps.hasError = false ∧
        bd.length = (contentLength env ps.data.headers).toNat ∧ r = requestOf env ps bd)
    | none => false)

/-- A text that passes the check is a message. -/
theorem isMessage_of_check {env : Env} {hd bd : Text} {r : HTTPRequest}
    (hsize : hd.length ≤ 2 ^ 62) (h : checkMessage env hd bd r = true) : IsMessage env hd bd r := by
  rw [checkMessage, Bool.and_eq_true] at h
  rcases h with ⟨hscan, hexec⟩
  refine ⟨?_, hsize, ?_⟩
  · cases hcase : scan .done (startState env) hd with
    | running ths => simp [hcase] at hscan
    | failed k => simp [hcase] at hscan
    | stopped k ths =>
        rw [hcase] at hscan
        simp only [beq_iff_eq] at hscan
        exact ⟨ths, hscan ▸ hcase⟩
  · cases hcase : exec (store env.memory 0 hd) hd.length 0 (HTTPRequestParser.init env) with
    | none => simp [hcase] at hexec
    | some res =>
        rcases res with ⟨q, ps⟩
        rw [hcase] at hexec
        simp only [decide_eq_true_eq] at hexec
        rcases hexec with ⟨rfl, herr, hlen, hr⟩
        exact ⟨ps, rfl, herr, hlen, hr⟩

/-- `GET / HTTP/1.1` -/
def getRequest : WireRequest plainEnv :=
  ⟨getText, [], HTTPRequest.fresh, isMessage_of_check (by decide) (by decide +kernel)⟩

/-- `PUT / HTTP/1.1` with a body of one byte -/
def putOne : WireRequest plainEnv :=
  ⟨putText.take 33, text ['x'], putRequest, isMessage_of_check (by decide) (by decide +kernel)⟩

/-- Two requests, each in a read of its own. -/
theorem receivesAll_two :
    ReceivesAll 4096 [putOne, getRequest] (ofCuts [putOne.bytes, getRequest.bytes]) := by
  refine (receivesAll_iff 4096 [putOne, getRequest] (by decide) (by decide)).mpr ?_
  exact ⟨⟨by decide, by decide, by decide, by decide, by decide⟩,
    ⟨by decide, by decide, by decide, by decide, by decide⟩, trivial⟩

/-- Two requests in one read: there is no second one. -/
theorem receivesAll_fails :
    ¬ ∃ fuel₁ fuel₂ s₁ s₂,
      recvRequest plainEnv 4096 fuel₁ (ofCuts [getRequest.bytes ++ getRequest.bytes]) =
        (.request getRequest.request, s₁) ∧
      recvRequest plainEnv 4096 fuel₂ s₁ = (.request getRequest.request, s₂) := by
  rintro ⟨fuel₁, fuel₂, s₁, s₂, hfirst, hsecond⟩
  have hs : CutStream (ofCuts [getRequest.bytes ++ getRequest.bytes])
      (getText ++ [] ++ getText) :=
    ofCuts_cutStream (show ∀ c ∈ [getRequest.bytes ++ getRequest.bytes], c ≠ [] by decide)
  cases fuel₁ with
  | zero => simp [recvRequest, recvHeader] at hfirst
  | succ fuel₁ =>
      rw [recvRequest_whole getRequest.isMessage hs (by decide) (by decide) (by decide)
        (by decide)] at hfirst
      simp only [Prod.mk.injEq] at hfirst
      have hend : CutStream s₁ [] := by
        rw [← hfirst.2]
        exact hs.skip 32
      rw [recvRequest, recvHeader_idle hend (by decide) rfl (by decide +kernel)] at hsecond
      simp at hsecond

end Http
end Tiger
