import Tiger.Http.FieldCalls
import Tiger.Http.RequestRoundTrip

/-!
# HTTP - header lines

What `http_field` is called with, compared with the lines of the text: the lines between the
request line and the first empty line, each cut at its first colon, without the blanks in front of
the value.

`HTTP_CTL = (0 - 31) | 127` of the grammar is the bytes 0 and 127, so a name may have any other
control character but the tab, and a value any but CR and LF.  A line feed in a name is no end of
line for the machine: the name goes on in the next line.

Main results:

- Theorem `HeaderText.lines_iff`: the calls are those of the lines exactly if each line has a colon.
- Theorem `HeaderText.cleanFields_iff`: names are tokens and values are free of control characters
  exactly if the lines are.
- Theorems `oneCallPerLine_iff` and `cleanFields_of_accepted_iff`: for whole requests.
-/

namespace Tiger
namespace Http

open Lib.Ragel HTTPRequestParser RequestGrammar

/-! ## Lines of a text -/

/-- A line without the CR at its end. -/
def chomp (l : Text) : Text := if l.getLast? = some 13 then l.dropLast else l

/-- The lines in front of the first empty one. -/
def linesOf (xs : Text) : List Text :=
  ((xs.splitOn 10).map chomp).takeWhile fun l => !l.isEmpty

/-- The header lines of a request: those between the request line and the first empty line.  A
socket request has none. -/
def headerLines (xs : Text) : List Text :=
  if xs.head?.any isSocketStart then [] else linesOf ((xs.dropWhile (· ≠ 10)).drop 1)

/-- The bytes in front of the colon of a line, and those behind it without leading blanks. -/
def fieldOf (l : Text) : Text × Text :=
  (l.takeWhile (· ≠ 58), ((l.dropWhile (· ≠ 58)).drop 1).dropWhile isBlank)

theorem chomp_append_return (l : Text) : chomp (l ++ [13]) = l := by
  simp [chomp]

theorem chomp_of_last {l : Text} (h : l.getLast? ≠ some 13) : chomp l = l := if_neg h

/-- Nothing is added to a line. -/
theorem chomp_subset (l : Text) : chomp l ⊆ l := by
  rw [chomp]
  split
  · exact List.dropLast_subset l
  · exact List.Subset.refl l

/-- A line is empty only if it is an end of line. -/
theorem chomp_ne_nil {l : Text} (h : isLineStart (l ++ [10]) = false) : chomp l ≠ [] := by
  intro hempty
  rw [chomp] at hempty
  split at hempty
  next hlast =>
    rw [← List.dropLast_append_getLast? 13 hlast, hempty] at h
    simp [isLineStart] at h
  next =>
    rw [hempty] at h
    simp [isLineStart] at h

/-- The first line of a text. -/
theorem linesOf_cons {l : Text} (hl : 10 ∉ l) (hne : chomp l ≠ []) (xs : Text) :
    linesOf (l ++ 10 :: xs) = chomp l :: linesOf xs := by
  rw [linesOf, List.splitOn_append_cons_self_of_not_mem hl, List.map_cons,
    List.takeWhile_cons_of_pos (by simpa using hne)]
  rfl

/-- Behind an empty line there is no header line. -/
theorem linesOf_lineStart {xs : Text} (h : isLineStart xs = true) : linesOf xs = [] := by
  fun_cases isLineStart xs with
  | case1 rest =>
      have hsplit : (10 :: rest).splitOn 10 = [] :: rest.splitOn 10 :=
        List.splitOn_append_cons_self_of_not_mem List.not_mem_nil rest
      rw [linesOf, hsplit]
      rfl
  | case2 rest =>
      have hsplit : (13 :: 10 :: rest).splitOn 10 = [13] :: rest.splitOn 10 :=
        List.splitOn_append_cons_self_of_not_mem (by decide : (10 : UInt8) ∉ [13]) rest
      rw [linesOf, hsplit]
      rfl
  | case3 => simp [isLineStart] at h

/-- The header lines come behind the request line. -/
theorem headerLines_of_line {xs l rest : Text} (hsocket : xs.head?.any isSocketStart = false)
    (hxs : xs = l ++ 10 :: rest) (hl : 10 ∉ l) : headerLines xs = linesOf rest := by
  have hdrop : xs.dropWhile (· ≠ 10) = 10 :: rest := by
    rw [hxs, List.dropWhile_append_of_pos]
    · rfl
    · intro c hc
      simpa using fun h : c = 10 => hl (h ▸ hc)
  rw [headerLines, hsocket, if_neg (by simp), hdrop]
  rfl

/-! ## Lines of a header -/

section Line

variable {name v eol xs : Text}

/-- A field name has no colon. -/
theorem not_mem_of_isFieldName (h : isFieldName name = true) : 58 ∉ name := by
  intro hmem
  rw [isFieldName, Bool.and_eq_true, List.all_eq_true] at h
  exact absurd (h.2 58 hmem) (by decide)

theorem not_mem_of_valueBytes (h : v.all isValueByte = true) : 10 ∉ v ∧ 13 ∉ v := by
  rw [List.all_eq_true] at h
  exact ⟨fun hmem => absurd (h 10 hmem) (by decide), fun hmem => absurd (h 13 hmem) (by decide)⟩

/-- A line with its name in one piece. -/
theorem linesOf_line (hname : 10 ∉ name) (hv : v.all isValueByte = true) (heol : IsEol eol) :
    linesOf (name ++ 58 :: (v ++ (eol ++ xs))) = (name ++ 58 :: v) :: linesOf xs := by
  obtain ⟨hfeed, hreturn⟩ := not_mem_of_valueBytes hv
  have hline : 10 ∉ name ++ 58 :: v := by simp [hname, hfeed]
  rcases heol with rfl | rfl
  · have hchomp : chomp (name ++ 58 :: v) = name ++ 58 :: v := by
      refine chomp_of_last fun hlast => ?_
      rw [List.getLast?_append_cons] at hlast
      rcases List.mem_cons.mp (List.mem_of_getLast? hlast) with h | h
      · cases h
      · exact hreturn h
    have htext : name ++ 58 :: (v ++ ([10] ++ xs)) = (name ++ 58 :: v) ++ 10 :: xs := by simp
    rw [htext, linesOf_cons hline (by rw [hchomp]; simp), hchomp]
  · have hchomp := chomp_append_return (name ++ 58 :: v)
    have htext : name ++ 58 :: (v ++ ([13, 10] ++ xs)) =
        ((name ++ 58 :: v) ++ [13]) ++ 10 :: xs := by simp
    rw [htext, linesOf_cons (by simpa using hline) (by rw [hchomp]; simp), hchomp]

/-- A name with a line feed: its first line has no colon. -/
theorem linesOf_broken (hname : isFieldName name = true) (hstart : isLineStart name = false)
    (hfeed : 10 ∈ name) (rest : Text) :
    ∃ l ls, linesOf (name ++ rest) = l :: ls ∧ 58 ∉ l ∧ 10 ∉ l := by
  obtain ⟨a, b, rfl, ha⟩ := List.eq_append_cons_of_mem hfeed
  have hline : isLineStart (a ++ [10]) = false := by
    have hne : a ≠ [] := by
      rintro rfl
      simp [isLineStart] at hstart
    obtain ⟨c, a, rfl⟩ := List.exists_cons_of_ne_nil hne
    cases a with
    | nil =>
        rw [List.singleton_append, isLineStart_cons_cons] at hstart ⊢
        exact hstart
    | cons d a =>
        rw [List.cons_append, List.cons_append, isLineStart_cons_cons] at hstart ⊢
        exact hstart
  refine ⟨chomp a, linesOf (b ++ rest), ?_, ?_, fun hmem => ha (chomp_subset a hmem)⟩
  · rw [List.append_assoc, List.cons_append, linesOf_cons ha (chomp_ne_nil hline)]
  · intro hmem
    exact not_mem_of_isFieldName hname (List.mem_append_left _ (chomp_subset a hmem))

/-- The field of a line is split at the first colon. -/
theorem fieldOf_line (hname : 58 ∉ name) :
    fieldOf (name ++ 58 :: v) = (name, v.dropWhile isBlank) := by
  have hall : ∀ c ∈ name, decide (c ≠ 58) = true := by
    intro c hc
    simpa using fun h : c = 58 => hname (h ▸ hc)
  rw [fieldOf, List.takeWhile_append_of_pos hall, List.dropWhile_append_of_pos hall]
  simp

end Line

/-- The calls are those of the lines exactly if each line has a colon. -/
theorem HeaderText.lines_iff {es : List (Text × Text)} {xs : Text} (h : HeaderText es xs) :
    es = (linesOf xs).map fieldOf ↔ ∀ l ∈ linesOf xs, 58 ∈ l := by
  induction h with
  | finish hstart => simp [linesOf_lineStart hstart]
  | @line name v eol xs es hname hstart hv heol _ ih =>
      by_cases hfeed : 10 ∈ name
      · obtain ⟨l, ls, hlines, hcolon, hline⟩ :=
          linesOf_broken hname hstart hfeed (58 :: (v ++ (eol ++ xs)))
        rw [hlines]
        refine iff_of_false ?_ fun hall => hcolon (hall l List.mem_cons_self)
        -- the first call has the line feed in its name
        intro hcalls
        have hfirst : name = l.takeWhile (· ≠ 58) :=
          congrArg Prod.fst (List.cons.inj hcalls).1
        rw [hfirst] at hfeed
        exact hline ((List.takeWhile_sublist _).subset hfeed)
      · rw [linesOf_line hfeed hv heol, List.map_cons,
          fieldOf_line (not_mem_of_isFieldName hname), List.cons.injEq, ih, List.forall_mem_cons]
        simp

/-! ## Control characters -/

/-- A letter, a digit or one of the marks that HTTP allows in a token. -/
def isTchar (c : UInt8) : Bool :=
  alpha.mem c || digit.mem c ||
    [33, 35, 36, 37, 38, 39, 42, 43, 45, 46, 94, 95, 96, 124, 126].contains c

/-- No control character but the tab. -/
def isValueChar (c : UInt8) : Bool := decide (c = 9 ∨ 32 ≤ c ∧ c ≠ 127)

/-- Names are tokens, and values have no control character but the tab. -/
def CleanFields (es : List (Text × Text)) : Prop :=
  ∀ e ∈ es, e.1 ≠ [] ∧ e.1.all isTchar = true ∧ e.2.all isValueChar = true

/-- No control character below the blank but the tab. -/
def isPlain (c : UInt8) : Bool := decide (c = 9 ∨ 32 ≤ c)

private theorem tchar_table : ∀ n < 256, token.mem (UInt8.ofNat n) = true →
    isTchar (UInt8.ofNat n) = isPlain (UInt8.ofNat n) := by
  decide +kernel

/-- A byte of `token` is a token character unless it is a control character. -/
theorem isTchar_of_token {c : UInt8} (h : token.mem c = true) : isTchar c = isPlain c := by
  have hcase := tchar_table c.toNat c.toNat_lt
  rw [UInt8.ofNat_toNat] at hcase
  exact hcase h

/-- The bytes of values, told apart in the same way. -/
theorem isValueChar_of_valueByte {c : UInt8} (h : isValueByte c = true) :
    isValueChar c = isPlain c := by
  have hdel : c ≠ 127 := (of_decide_eq_true h).2.2.2
  simp [isValueChar, isPlain, hdel]

/-- Blanks are plain, so those in front of a value do not matter. -/
theorem all_isPlain_dropWhile (v : Text) :
    (v.dropWhile isBlank).all isPlain = true ↔ v.all isPlain = true := by
  induction v with
  | nil => rfl
  | cons c v ih =>
      by_cases hc : isBlank c = true
      · have hplain : isPlain c = true := by
          rcases of_decide_eq_true hc with rfl | rfl <;> rfl
        rw [List.dropWhile_cons_of_pos hc, ih, List.all_cons, hplain, Bool.true_and]
      · rw [List.dropWhile_cons_of_neg hc]

/-- Two tests agree on a text that passes a third one. -/
theorem all_congr_of_mem {v : Text} {f g h : UInt8 → Bool} (hv : v.all f = true)
    (hfg : ∀ c, f c = true → g c = h c) : v.all g = v.all h := by
  rw [List.all_eq_true] at hv
  rw [Bool.eq_iff_iff, List.all_eq_true, List.all_eq_true]
  exact forall₂_congr fun c hc => by rw [hfg c (hv c hc)]

/-- The name and the value of a line are clean exactly if the line is plain. -/
theorem cleanField_iff {name v : Text} (hname : isFieldName name = true)
    (hv : v.all isValueByte = true) :
    (name ≠ [] ∧ name.all isTchar = true ∧ (v.dropWhile isBlank).all isValueChar = true) ↔
      (name ++ 58 :: v).all isPlain = true := by
  rw [isFieldName, Bool.and_eq_true, Bool.not_eq_true', List.isEmpty_eq_false_iff] at hname
  have hvalue : (v.dropWhile isBlank).all isValueByte = true := by
    rw [List.all_eq_true] at hv ⊢
    intro c hc
    exact hv c ((List.dropWhile_sublist _).subset hc)
  rw [all_congr_of_mem hname.2 fun c => isTchar_of_token,
    all_congr_of_mem hvalue fun c => isValueChar_of_valueByte, all_isPlain_dropWhile,
    List.all_append, List.all_cons, show isPlain 58 = true from rfl, Bool.true_and,
    Bool.and_eq_true]
  exact and_iff_right hname.1

/-- The calls are clean exactly if each line has a colon and is plain. -/
theorem HeaderText.cleanFields_iff {es : List (Text × Text)} {xs : Text} (h : HeaderText es xs) :
    CleanFields es ↔ ∀ l ∈ linesOf xs, 58 ∈ l ∧ l.all isPlain = true := by
  induction h with
  | finish hstart => simp [CleanFields, linesOf_lineStart hstart]
  | @line name v eol xs es hname hstart hv heol _ ih =>
      by_cases hfeed : 10 ∈ name
      · obtain ⟨l, ls, hlines, hcolon, -⟩ :=
          linesOf_broken hname hstart hfeed (58 :: (v ++ (eol ++ xs)))
        rw [hlines]
        refine iff_of_false ?_ fun hall => hcolon (hall l List.mem_cons_self).1
        intro hclean
        have hfirst := (hclean _ List.mem_cons_self).2.1
        exact absurd (List.all_eq_true.mp hfirst 10 hfeed) (by decide)
      · rw [linesOf_line hfeed hv heol, CleanFields, List.forall_mem_cons, List.forall_mem_cons,
          cleanField_iff hname hv]
        refine and_congr ?_ ih
        simp

/-! ## Requests -/

/-- The calls of `http_field` in a call of `execute`. -/
def httpFields (m : Memory) (length : Nat) (ps : HTTPRequestParser) : List (Text × Text) :=
  match Watched.exec m length 0 ⟨ps, []⟩ with
  | some (_, w) => w.calls
  | none => []

/-- One call of `execute` accepts the text at the start of the buffer. -/
def Accepted (env : Env) (m : Memory) (xs : Text) : Prop :=
  ∃ nparse ps, execute (store m 0 xs) xs.length (HTTPRequestParser.init env) = .ok nparse ps ∧
    ps.hasError = false ∧ ps.isFinished = true

/-- The call has read a whole request without an error. -/
def HTTPRequestParser.Executed.accepts : Executed → Bool
  | .ok _ ps => !ps.hasError && ps.isFinished
  | _ => false

/-- The test for an accepted call is exact. -/
theorem HTTPRequestParser.Executed.accepts_iff (r : Executed) : r.accepts = true ↔
    ∃ nparse ps, r = .ok nparse ps ∧ ps.hasError = false ∧ ps.isFinished = true := by
  cases r with
  | ok nparse ps => simp [Executed.accepts]
  | abort => simp [Executed.accepts]
  | threw => simp [Executed.accepts]

instance (env : Env) (m : Memory) (xs : Text) : Decidable (Accepted env m xs) :=
  decidable_of_iff _ (Executed.accepts_iff _)

/-- `http_field` is called once for each header line, in order, with the bytes in front of the
colon and those behind it without leading blanks. -/
def OneCallPerLine (env : Env) (m : Memory) (xs : Text) : Prop :=
  httpFields (store m 0 xs) xs.length (HTTPRequestParser.init env) = (headerLines xs).map fieldOf

/-- A call that returns has run the machine. -/
theorem exec_of_execute {m : Memory} {length nparse : Nat} {ps ps' : HTTPRequestParser}
    (h : execute m length ps = .ok nparse ps') :
    ∃ e ps₀, exec m length 0 ps = some (e, ps₀) ∧ ps'.cs = ps₀.cs := by
  rw [execute] at h
  split at h
  · cases h
  · rw [executeMachine] at h
    split at h
    next hzero =>
      cases h
      exact ⟨0, ps, by rw [hzero]; rfl, rfl⟩
    next =>
      split at h
      · cases h
      next e ps₀ hexec =>
        simp only at h
        split at h
        · cases h
          exact ⟨e, ps₀, hexec, rfl⟩
        · cases h

/-- The header lines and the calls of a text that is accepted. -/
theorem Accepted.calls_cases {env : Env} {m : Memory} {xs : Text} (h : Accepted env m xs) :
    headerLines xs = [] ∧ httpFields (store m 0 xs) xs.length (HTTPRequestParser.init env) = [] ∨
      ∃ rest, headerLines xs = linesOf rest ∧
        HeaderText (httpFields (store m 0 xs) xs.length (HTTPRequestParser.init env)) rest := by
  obtain ⟨nparse, ps, hexecute, herror, hfinished⟩ := h
  have hsmall := execute_length_lt hexecute
  obtain ⟨e, ps₀, hexec, hcs⟩ := exec_of_execute hexecute
  have hwatched := Watched.exec_unwatched (store m 0 xs) xs.length 0
    ⟨HTTPRequestParser.init env, []⟩
  rw [hexec] at hwatched
  obtain ⟨⟨e', w⟩, hrun, hpair⟩ := Option.map_eq_some_iff.mp hwatched
  obtain ⟨rfl, rfl⟩ := Prod.mk.inj hpair
  have hfinal : w.Finished := by
    rw [isFinished, hcs] at hfinished
    rw [hasError, hcs, Bool.or_eq_false_iff] at herror
    split at hfinished
    next hnone =>
      rw [hnone] at herror
      cases herror.2
    next threads hthreads => exact ⟨threads, hthreads, hfinished⟩
  have hfields : httpFields (store m 0 xs) xs.length (HTTPRequestParser.init env) = w.calls := by
    rw [httpFields, hrun]
  have hcalls := calls_of_exec (at_store m xs) (by omega) hrun hfinal
  rw [hfields]
  split at hcalls
  next hsocket => exact .inl ⟨if_pos hsocket, hcalls⟩
  next hsocket =>
    obtain ⟨l, rest, hxs, hl, htext⟩ := hcalls
    exact .inr ⟨rest, headerLines_of_line (by simpa using hsocket) hxs hl, htext⟩

/-- For every text that is accepted, with every content of the buffer behind it, there is one call
of `http_field` for each header line, with its bytes, exactly if every line between the request
line and the first empty line has a colon. -/
theorem oneCallPerLine_iff {env : Env} {m : Memory} {xs : Text} (h : Accepted env m xs) :
    OneCallPerLine env m xs ↔ ∀ l ∈ headerLines xs, 58 ∈ l := by
  rw [OneCallPerLine]
  rcases h.calls_cases with ⟨hlines, hcalls⟩ | ⟨rest, hlines, htext⟩
  · rw [hlines, hcalls]
    simp
  · rw [hlines]
    exact htext.lines_iff

/-- `GET / HTTP/1.1` and its end of line. -/
def getLine : Text :=
  text ['G', 'E', 'T', ' ', '/', ' ', 'H', 'T', 'T', 'P', '/', '1', '.', '1', '\n']

/-- A value with an inner blank, no value, and blanks only. -/
def linesText : Text :=
  getLine ++ text ['A', ':', ' ', 'x', ' ', 'y', '\n', 'B', ':', '\r', '\n', 'C', ':', ' ', '\t',
    '\n', '\n']

private theorem linesText_accepted : Accepted plainEnv plainEnv.memory linesText := by
  decide

/-- The sample lines have one call each, for their fields. -/
theorem oneCallPerLine_iff_blanks :
    OneCallPerLine plainEnv plainEnv.memory linesText ∧
      (headerLines linesText).map fieldOf =
        [(text ['A'], text ['x', ' ', 'y']), (text ['B'], []), (text ['C'], [])] := by
  have hall : (headerLines linesText).all (fun l => l.contains 58) = true := by decide
  refine ⟨(oneCallPerLine_iff linesText_accepted).mpr ?_, by decide⟩
  intro l hl
  simpa using List.all_eq_true.mp hall l hl

/-- A line without a colon. -/
def brokenText : Text := getLine ++ text ['a', '\n', 'b', ':', 'c', '\n', '\n']

/-- The name is that of two lines. -/
theorem oneCallPerLine_fails :
    Accepted plainEnv plainEnv.memory brokenText ∧
      httpFields (store plainEnv.memory 0 brokenText) brokenText.length
        (HTTPRequestParser.init plainEnv) = [(text ['a', '\n', 'b'], text ['c'])] ∧
      headerLines brokenText = [text ['a'], text ['b', ':', 'c']] ∧
      ¬OneCallPerLine plainEnv plainEnv.memory brokenText := by
  refine ⟨by decide, by decide, by decide, ?_⟩
  unfold OneCallPerLine
  decide

/-- For every text that is accepted, the names that `http_field` is called with are tokens, and
the values have no control character but the tab, exactly if every line between the request line
and the first empty line has a colon and no control character below the blank but the tab. -/
theorem cleanFields_of_accepted_iff {env : Env} {m : Memory} {xs : Text} (h : Accepted env m xs) :
    CleanFields (httpFields (store m 0 xs) xs.length (HTTPRequestParser.init env)) ↔
      ∀ l ∈ headerLines xs, 58 ∈ l ∧ l.all isPlain = true := by
  rcases h.calls_cases with ⟨hlines, hcalls⟩ | ⟨rest, hlines, htext⟩
  · rw [hlines, hcalls]
    simp [CleanFields]
  · rw [hlines]
    exact htext.cleanFields_iff

/-- The fields of the sample lines are clean. -/
theorem cleanFields_of_accepted_iff_blanks :
    CleanFields (httpFields (store plainEnv.memory 0 linesText) linesText.length
      (HTTPRequestParser.init plainEnv)) := by
  have hall : (headerLines linesText).all (fun l => l.contains 58 && l.all isPlain) = true := by
    decide
  refine (cleanFields_of_accepted_iff linesText_accepted).mpr ?_
  intro l hl
  simpa using List.all_eq_true.mp hall l hl

/-- A control character in the name and one in the value. -/
def controlText : Text := getLine ++ [88, 1, 58, 1, 10, 10]

/-- A control character passes in a name and in a value. -/
theorem cleanFields_of_accepted_fails :
    Accepted plainEnv plainEnv.memory controlText ∧
      httpFields (store plainEnv.memory 0 controlText) controlText.length
        (HTTPRequestParser.init plainEnv) = [([88, 1], [1])] ∧
      ¬CleanFields (httpFields (store plainEnv.memory 0 controlText) controlText.length
        (HTTPRequestParser.init plainEnv)) := by
  have hfields : httpFields (store plainEnv.memory 0 controlText) controlText.length
      (HTTPRequestParser.init plainEnv) = [([88, 1], [1])] := by decide
  refine ⟨by decide, hfields, ?_⟩
  rw [hfields]
  intro hclean
  exact absurd (hclean _ List.mem_cons_self).2.1 (by decide)

end Http
end Tiger
