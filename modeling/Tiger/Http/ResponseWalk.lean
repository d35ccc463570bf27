import Tiger.Http.ResponseTally
import Mathlib.Logic.Relation

/-!
# HTTP - the way through the bytes of a response

The bytes that a server sends, with the places where they are cut, say by
themselves where the rounds of `HTTPConnection::recv_response` lead.  A spot
stands in front of a round: it has the bytes in the buffer, the rest of the
stream, and what is known of the line.  The grammar and the sizes of the chunks
give the next spot, without a parser.

Main results:

- Definition `Spot.next`: the spot behind a round.
- Definitions `Spot.Breaks` and `Spot.Starves`: the bytes of a round that
  `recv_response` does not get over.
- Theorems `Verdict.next` and `Verdict.last`: how a verdict is reached from the
  end of the way.
-/

namespace Tiger
namespace Http

open Lib Lib.Ragel HTTPResponseParser SocketStream

/-- A response or `nullptr`. -/
inductive Answered {α : Type} : Except Failure α → Prop
  | response (a : α) : Answered (.ok a)
  | null (s : SocketStream) : Answered (.error (.null s))

/-- A failure is not an answer. -/
theorem Fatal.not_answered {α : Type} {e : Failure} (h : Fatal e) :
    ¬ Answered (.error e : Except Failure α) := by
  intro hanswered
  cases hanswered with
  | null s => cases h

/-- A receiver that has used up its fuel has not answered. -/
theorem not_answered_outOfFuel {α : Type} : ¬ Answered (.error .outOfFuel : Except Failure α) := by
  intro hanswered
  cases hanswered

/-! ## The calls of a line -/

namespace LineCall

/-- In front of the first read of a header. -/
def first (env : ClientEnv) : LineCall :=
  ⟨env.memory, start ResponseGrammar.main, LineRead.fresh, 0, []⟩

/-- The call behind a read of the bytes `y`. -/
def receive (c : LineCall) (y : Text) : LineCall :=
  { c with
    memory := terminate (store c.memory c.text.length y) (c.text.length + y.length)
    text := c.text ++ y }

/-- In front of the read behind a call that leaves the header open. -/
def next (c : LineCall) : LineCall :=
  ⟨memmove c.memory c.count c.left.length, c.scan.threads.getD [], c.read, c.count, c.left⟩

/-- The call for a size line at the front of a text; nothing is known behind a call before. -/
def sizeLine (front : Text) : LineCall :=
  ⟨fun i => front.getD i 0, start ResponseGrammar.main, LineRead.fresh, 0, front⟩

/-- The receiver goes on behind the call. -/
def GoesOn (bufferSize : Nat) (c : LineCall) : Prop := c.Passes ∧ ¬ c.GivesUp bufferSize

instance (bufferSize : Nat) (c : LineCall) : Decidable (c.GoesOn bufferSize) :=
  inferInstanceAs (Decidable (_ ∧ _))

/-- The length that a header announces. -/
def bodyLength (env : ClientEnv) (c : LineCall) : Int :=
  toInt64 (getAs env.lexicalCast c.read.fields
    (Http.text ['c', 'o', 'n', 't', 'e', 'n', 't', '-', 'l', 'e', 'n', 'g', 't', 'h']) 0)

/-- The header is complete, and the body in one piece has a length that no string can have. -/
def TooLong (env : ClientEnv) (bufferSize : Nat) (c : LineCall) : Prop :=
  c.GoesOn bufferSize ∧ c.Finished ∧ c.read.chunked = false ∧ 2 ^ 62 ≤ c.bodyLength env

instance (env : ClientEnv) (bufferSize : Nat) (c : LineCall) :
    Decidable (c.TooLong env bufferSize) :=
  inferInstanceAs (Decidable (_ ∧ _ ∧ _ ∧ _))

end LineCall

/-! ## Spots -/

/-- What is in front of a round of the header loop, of a round of the loop for a size line (`more`
when it starts with a read), and of the data of a chunk: the bytes in the buffer, the length of the
body so far, and the rest of the stream. -/
inductive Spot
  | header (c : LineCall) (s : SocketStream)
  | size (more : Bool) (front : Text) (body : Nat) (s : SocketStream)
  | data (size : Int) (last : Bool) (front : Text) (body : Nat) (s : SocketStream)

namespace Spot

/-- The call of the parser in a round and the stream behind its read; there is none at the end of
the stream. -/
def call (bufferSize : Nat) : Spot → Option (LineCall × SocketStream)
  | header c s =>
      if bytesRead bufferSize c.text s = [] then none
      else some (c.receive (bytesRead bufferSize c.text s), streamBehind bufferSize c.text s)
  | size more front _ s =>
      if more || front.isEmpty then
        if bytesRead bufferSize front s = [] then none
        else some (LineCall.sizeLine (front ++ bytesRead bufferSize front s),
          streamBehind bufferSize front s)
      else some (LineCall.sizeLine front, s)
  | data _ _ _ _ _ => none

/-- The spot behind the call of a round. -/
def behindCall (c : LineCall) (s : SocketStream) : Spot → Option Spot
  | header _ _ =>
      if c.Finished then if c.read.chunked then some (size false c.left 0 s) else none
      else some (header c.next s)
  | size _ _ body _ =>
      if c.Finished then some (data c.read.size c.read.last c.left body s)
      else some (size true c.left body s)
  | data _ _ _ _ _ => none

/-- The spot behind the data of a chunk. -/
def behindData (bufferSize : Nat) (n : Int) (front : Text) (body : Nat) (s : SocketStream) : Spot :=
  if ChunkBuffered n front.length then
    size false (front.drop (n.toNat + 2)) (body + n.toNat) s
  else
    size false [] (body + front.length + restTaken bufferSize n front.length s - 2)
      (s.skip (restTaken bufferSize n front.length s))

/-- Bytes of a chunk are missing that do not arrive. -/
def Starves (bufferSize : Nat) : Spot → Prop
  | data n _ front _ s => DataStarves bufferSize n front.length s
  | _ => False

/-- The bytes of the round do not pass, no string can have the length of the body, or the data of a
chunk cannot be taken. -/
def Breaks (env : ClientEnv) (bufferSize : Nat) (p : Spot) : Prop :=
  match p with
  | header _ _ => ∃ r ∈ p.call bufferSize, ¬ r.1.Passes ∨ r.1.TooLong env bufferSize
  | size _ _ _ _ => ∃ r ∈ p.call bufferSize, ¬ r.1.Passes
  | data n _ front body s => DataBreaks bufferSize n front.length body s

instance (bufferSize : Nat) (p : Spot) : Decidable (p.Starves bufferSize) :=
  match p with
  | header _ _ => inferInstanceAs (Decidable False)
  | size _ _ _ _ => inferInstanceAs (Decidable False)
  | data n _ front _ s => inferInstanceAs (Decidable (DataStarves bufferSize n front.length s))

/-- The spot behind a round; there is none where the receiver ends, or never leaves. -/
def next (bufferSize : Nat) (p : Spot) : Option Spot :=
  match p with
  | data n last front body s =>
      if last = true ∨ DataStarves bufferSize n front.length s ∨
        DataBreaks bufferSize n front.length body s then none
      else some (behindData bufferSize n front body s)
  | _ =>
      (p.call bufferSize).bind fun r =>
        if r.1.GoesOn bufferSize then behindCall r.1 r.2 p else none

/-- The way on from a spot. -/
def Leads (bufferSize : Nat) : Spot → Spot → Prop :=
  Relation.ReflTransGen fun p q => p.next bufferSize = some q

/-- The spot in front of the first read. -/
def first (env : ClientEnv) (s : SocketStream) : Spot := header (LineCall.first env) s

/-- The spot is on the way through the bytes of a stream. -/
def Reached (env : ClientEnv) (bufferSize : Nat) (s : SocketStream) (p : Spot) : Prop :=
  Leads bufferSize (first env s) p

section

variable (env : ClientEnv) {bufferSize : Nat} {c c' : LineCall} {s s' : SocketStream} {p : Spot}

/-- A round with a call of the parser. -/
theorem next_of_call (h : p.call bufferSize = some (c, s)) :
    p.next bufferSize = if c.GoesOn bufferSize then behindCall c s p else none := by
  cases p with
  | header c₀ s₀ => simp only [next, h, Option.bind_some]
  | size more front body s₀ => simp only [next, h, Option.bind_some]
  | data n last front body s₀ => cases h

theorem breaks_header_iff (h : (header c s).call bufferSize = some (c', s')) :
    (header c s).Breaks env bufferSize ↔ ¬ c'.Passes ∨ c'.TooLong env bufferSize := by
  simp only [Breaks, h, Option.mem_some_iff, exists_eq_left']

/-- A call on a size line breaks when its line is refused. -/
theorem breaks_size_iff {more : Bool} {front : Text} {body : Nat}
    (h : (size more front body s).call bufferSize = some (c', s')) :
    (size more front body s).Breaks env bufferSize ↔ ¬ c'.Passes := by
  simp only [Breaks, h, Option.mem_some_iff, exists_eq_left']

/-- A read at the end of the stream, where the receiver gives up. -/
theorem last_header (h : (header c s).call bufferSize = none) :
    (header c s).next bufferSize = none ∧ ¬ (header c s).Breaks env bufferSize := by
  refine ⟨by simp only [next, h, Option.bind_none], ?_⟩
  rintro ⟨r, hr, -⟩
  rw [h] at hr
  cases hr

/-- A size line that the stream does not hold is the last place and does not break. -/
theorem last_size {more : Bool} {front : Text} {body : Nat}
    (h : (size more front body s).call bufferSize = none) :
    (size more front body s).next bufferSize = none ∧
      ¬ (size more front body s).Breaks env bufferSize := by
  refine ⟨by simp only [next, h, Option.bind_none], ?_⟩
  rintro ⟨r, hr, -⟩
  rw [h] at hr
  cases hr

end

end Spot

open Spot

/-! ## Verdicts -/

/-- How the receiver ends from a spot on, and what is on the way. -/
inductive Verdict (env : ClientEnv) (bufferSize : Nat) (p : Spot)
    (r : Except Failure (Buffered × Text)) : Prop
  | answers (h : Answered r)
      (hall : ∀ q, Leads bufferSize p q → ¬ q.Breaks env bufferSize ∧ ¬ q.Starves bufferSize)
  | breaks (h : ∃ e, Fatal e ∧ r = .error e)
      (hbreaks : ∃ q, Leads bufferSize p q ∧ q.Breaks env bufferSize)
      (hall : ∀ q, Leads bufferSize p q → ¬ q.Starves bufferSize)
  | starves (h : r = .error .outOfFuel)
      (hstarves : ∃ q, Leads bufferSize p q ∧ q.Starves bufferSize)

section

variable {env : ClientEnv} {bufferSize : Nat} {p q q' : Spot}
  {r : Except Failure (Buffered × Text)}

/-- The way leads through the next spot. -/
theorem Spot.Leads.of_next (h : p.next bufferSize = some q) (hq' : Leads bufferSize p q') :
    q' = p ∨ Leads bufferSize q q' := by
  rcases Relation.ReflTransGen.cases_head hq' with rfl | ⟨q₁, hnext, hrest⟩
  · exact .inl rfl
  · rw [h] at hnext
    cases hnext
    exact .inr hrest

/-- The way ends at a spot without a next one. -/
theorem Spot.Leads.of_last (h : p.next bufferSize = none) (hq : Leads bufferSize p q) : q = p := by
  rcases Relation.ReflTransGen.cases_head hq with rfl | ⟨q₁, hnext, -⟩
  · rfl
  · rw [h] at hnext
    cases hnext

/-- A verdict behind a round is one in front of it. -/
theorem Verdict.next (h : p.next bufferSize = some q) (hgood : ¬ p.Breaks env bufferSize)
    (hfed : ¬ p.Starves bufferSize) (hverdict : Verdict env bufferSize q r) :
    Verdict env bufferSize p r := by
  cases hverdict with
  | answers hr hall =>
      refine .answers hr fun q' hq' => ?_
      rcases Leads.of_next h hq' with rfl | hq'
      · exact ⟨hgood, hfed⟩
      · exact hall q' hq'
  | breaks hr hbreaks hall =>
      obtain ⟨q₁, hq₁, hbad⟩ := hbreaks
      refine .breaks hr ⟨q₁, hq₁.head h, hbad⟩ fun q' hq' => ?_
      rcases Leads.of_next h hq' with rfl | hq'
      · exact hfed
      · exact hall q' hq'
  | starves hr hstarves =>
      obtain ⟨q₁, hq₁, hbad⟩ := hstarves
      exact .starves hr ⟨q₁, hq₁.head h, hbad⟩

/-- The verdict on the last round. -/
theorem Verdict.last (hlast : p.next bufferSize = none) (hfed : ¬ p.Starves bufferSize)
    (hcase : p.Breaks env bufferSize ∧ (∃ e, Fatal e ∧ r = .error e) ∨
      ¬ p.Breaks env bufferSize ∧ Answered r) : Verdict env bufferSize p r := by
  rcases hcase with ⟨hbad, hr⟩ | ⟨hgood, hr⟩
  · refine .breaks hr ⟨p, .refl, hbad⟩ fun q hq => ?_
    rw [Leads.of_last hlast hq]
    exact hfed
  · refine .answers hr fun q hq => ?_
    rw [Leads.of_last hlast hq]
    exact ⟨hgood, hfed⟩

end

end Http
end Tiger
