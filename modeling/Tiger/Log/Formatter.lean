import Tiger.Lib.Fuel
import Mathlib.Tactic

/-!
# Log - patterns of a formatter

This module embeds the constructor of `LogFormatter` and `LogFormatter::init` (`src/log.cc`).  The
outer loop collects literal text in `nstr`; at a percent sign the inner loop looks for the end of
the directive, and the outer one goes on where that has stopped.  Both loops are given a bound on
their rounds.

Main results:

- Theorems `scan_bare` and `scan_braced`: the inner loop at a directive.
- Theorem `initLoop_print`: the outer loop at printed items.
- Theorem `init_print`: printed items are taken back, and every pattern is left.
- Theorem `construct_default`: the items of the default pattern.
-/

namespace Tiger
namespace Log

open Lib (Settles settles_of_succ_eq)

/-! ## Texts -/

/-- A `std::string` -/
abbrev Text := List UInt8

/-- The bytes of an ASCII text. -/
def ascii (s : String) : Text := s.toList.map fun c => UInt8.ofNat c.toNat

/-- `%` -/
def percent : UInt8 := 0x25

/-- The opening brace -/
def openBrace : UInt8 := 0x7B

/-- The closing brace -/
def closeBrace : UInt8 := 0x7D

/-- `isalpha(c)` -/
def isalpha (c : UInt8) : Bool := (0x41 ≤ c && c ≤ 0x5A) || (0x61 ≤ c && c ≤ 0x7A)

/-- The characters at which the inner loop stops: neither a letter nor a brace. -/
def ends (c : UInt8) : Bool := !isalpha c && c != openBrace && c != closeBrace

/-- `s.substr(pos, n)` -/
def substr (s : Text) (pos n : Nat) : Text := (s.drop pos).take n

/-! ## Format items -/

/-- The classes of the format items that stand for directives. -/
inductive ItemClass
  | message
  | level
  | loggerName
  | threadId
  | newLine
  | dateTime
  | fileName
  | line
  | tab
  | coId
  | threadName
deriving DecidableEq

/-- A `FormatItem` with its `m_fmt` -/
inductive FormatItem
  /-- `StringFormatItem` -/
  | string (fmt : Text)
  /-- one of the other classes -/
  | item (cls : ItemClass) (fmt : Text)
deriving DecidableEq

/-- `s_format_items` -/
def sFormatItems : List (Text × ItemClass) :=
  [(ascii "m", .message), (ascii "p", .level), (ascii "c", .loggerName), (ascii "t", .threadId),
    (ascii "n", .newLine), (ascii "d", .dateTime), (ascii "f", .fileName), (ascii "l", .line),
    (ascii "T", .tab), (ascii "F", .coId), (ascii "N", .threadName)]

/-- An element of `vec`: `str`, `fmt` and the kind. -/
structure Piece where
  str : Text
  fmt : Text
  kind : Nat
deriving DecidableEq

/-- The loop over `vec`. -/
def buildItems (vec : List Piece) : List FormatItem :=
  vec.filterMap fun i =>
    if i.kind = 0 then some (.string i.str)
    else (sFormatItems.lookup i.str).map fun cls => .item cls i.fmt

/-! ## The loops -/

/-- The rounds of a loop are used up. -/
inductive Failure
  | outOfRounds
deriving DecidableEq

/-- The locals of the inner loop. -/
structure Scan where
  n : Nat
  fmtStatus : Nat
  fmtBegin : Nat
  str : Text
  fmt : Text
deriving DecidableEq

/-- The locals at the start of the inner loop, at the directive that begins at `i`. -/
def Scan.start (i : Nat) : Scan := ⟨i + 1, 0, 0, [], []⟩

/-- The end of a round of the inner loop. -/
def advance (pattern : Text) (i : Nat) (s : Scan) : Scan :=
  if s.n + 1 = pattern.length ∧ s.str = [] then
    { s with n := s.n + 1, str := pattern.drop (i + 1) }
  else { s with n := s.n + 1 }

/-- The inner loop. -/
def scan (pattern : Text) (i : Nat) : Nat → Scan → Except Failure Scan
  | 0, _ => .error .outOfRounds
  | rounds + 1, s =>
    match pattern[s.n]? with
    | none => .ok s
    | some c =>
      if s.fmtStatus = 0 ∧ ends c = true then
        .ok { s with str := substr pattern (i + 1) (s.n - i - 1) }
      else if s.fmtStatus = 0 ∧ c = openBrace then
        scan pattern i rounds {
          s with
          str := substr pattern (i + 1) (s.n - i - 1)
          fmtStatus := 1
          fmtBegin := s.n
          n := s.n + 1 }
      else if s.fmtStatus = 1 ∧ c = closeBrace then
        .ok {
          s with
          fmt := substr pattern (s.fmtBegin + 1) (s.n - s.fmtBegin - 1)
          fmtStatus := 0
          n := s.n + 1 }
      else scan pattern i rounds (advance pattern i s)

/-- `nstr` is added to `vec` if there is any. -/
def flush (nstr : Text) : List Piece := if nstr = [] then [] else [⟨nstr, [], 0⟩]

/-- The outer loop from `i` on, and what is done with `nstr` behind it. -/
def initLoop (pattern : Text) : Nat → Nat → Text → List Piece → Except Failure (List Piece)
  | 0, _, _, _ => .error .outOfRounds
  | rounds + 1, i, nstr, vec =>
    match pattern[i]? with
    | none => .ok (vec ++ flush nstr)
    | some c =>
      if c ≠ percent then initLoop pattern rounds (i + 1) (nstr ++ [c]) vec
      else if pattern[i + 1]? = some percent then
        initLoop pattern rounds (i + 2) (nstr ++ [percent]) vec
      else
        (scan pattern i rounds (.start i)).bind fun s =>
          if s.fmtStatus = 0 then
            -- `i = n - 1`, and the loop adds one
            initLoop pattern rounds s.n [] (vec ++ flush nstr ++ [⟨s.str, s.fmt, 1⟩])
          else
            initLoop pattern rounds (i + 1) nstr
              (vec ++ [⟨ascii "<<pattern_error>>", s.fmt, 0⟩])

/-- `init()` -/
def init (rounds : Nat) (pattern : Text) : Except Failure (List FormatItem) :=
  (initLoop pattern rounds 0 [] []).map buildItems

/-- The pattern that stands for the empty one -/
def defaultPattern : Text := ascii "%d{%Y-%m-%d %H:%M:%S} %t %N %F [%p] [%c] %f:%l %m%n"

/-- `LogFormatter(pattern)`, as its `m_items` -/
def construct (rounds : Nat) (pattern : Text) : Except Failure (List FormatItem) :=
  init rounds (if pattern = [] then defaultPattern else pattern)

/-! ## Pattern items -/

/-- The directives. -/
inductive Directive
  | m | p | c | t | n | d | f | l | T | F | N
deriving DecidableEq

namespace Directive

/-- The letter of a directive. -/
def letter : Directive → UInt8
  | m => 0x6D
  | p => 0x70
  | c => 0x63
  | t => 0x74
  | n => 0x6E
  | d => 0x64
  | f => 0x66
  | l => 0x6C
  | T => 0x54
  | F => 0x46
  | N => 0x4E

/-- The class of the item that a directive stands for. -/
def cls : Directive → ItemClass
  | m => .message
  | p => .level
  | c => .loggerName
  | t => .threadId
  | n => .newLine
  | d => .dateTime
  | f => .fileName
  | l => .line
  | T => .tab
  | F => .coId
  | N => .threadName

end Directive

/-- An argument in braces. -/
structure Argument where
  text : Text
  closeBrace_notMem : closeBrace ∉ text

/-- An item of a pattern. -/
inductive PatternItem
  | literal (text : Text)
  | bare (directive : Directive)
  | braced (directive : Directive) (arg : Argument)

/-- Literal text with its percent signs doubled. -/
def doubled (text : Text) : Text :=
  text.flatMap fun c => if c = percent then [percent, percent] else [c]

/-- An item as it stands in a pattern. -/
def PatternItem.print : PatternItem → Text
  | .literal text => doubled text
  | .bare directive => [percent, directive.letter]
  | .braced directive arg =>
    percent :: directive.letter :: openBrace :: arg.text ++ [closeBrace]

/-- Items as a pattern. -/
def print (items : List PatternItem) : Text := items.flatMap PatternItem.print

/-- A directive without argument ends in front of this text. -/
def EndsBefore (text : Text) : Prop := ∀ c ∈ text.head?, ends c = true

/-- Every directive without argument ends in front of what is printed behind it. -/
def Separated : List PatternItem → Prop
  | [] => True
  | .bare _ :: items => EndsBefore (print items) ∧ Separated items
  | .literal _ :: items => Separated items
  | .braced _ _ :: items => Separated items

/-- A pattern that is printed from its items. -/
structure Pattern where
  items : List PatternItem
  separated : Separated items

/-- The format item for an item of a pattern. -/
def PatternItem.formatItem : PatternItem → FormatItem
  | .literal text => .string text
  | .bare directive => .item directive.cls []
  | .braced directive arg => .item directive.cls arg.text

/-- A string item in front of others: it is merged with a string item, and left out if it is
empty. -/
def consString (text : Text) : List FormatItem → List FormatItem
  | .string more :: items => .string (text ++ more) :: items
  | items => if text = [] then items else .string text :: items

/-- Adjacent string items as one. -/
def mergeStrings : List FormatItem → List FormatItem
  | [] => []
  | .string text :: items => consString text (mergeStrings items)
  | .item cls fmt :: items => .item cls fmt :: mergeStrings items

/-- The format items of a pattern. -/
def Pattern.formatItems (p : Pattern) : List FormatItem :=
  mergeStrings (p.items.map PatternItem.formatItem)

variable {pattern before rest text nstr : Text} {vec : List Piece} {i : Nat} {s : Scan}

/-! ## Rounds of the inner loop -/

section Scan

variable {c : UInt8} {r : Except Failure Scan}

/-- The scan stops at the end of the pattern. -/
theorem scan_none (hc : pattern[s.n]? = none) :
    Settles (fun rounds => scan pattern i rounds s) (.ok s) := by
  refine settles_of_succ_eq fun rounds => ?_
  simp only [scan, hc]

/-- The scan stops at a byte that ends a directive. -/
theorem scan_stop (hc : pattern[s.n]? = some c) (hend : s.fmtStatus = 0 ∧ ends c = true) :
    Settles (fun rounds => scan pattern i rounds s)
      (.ok { s with str := substr pattern (i + 1) (s.n - i - 1) }) := by
  refine settles_of_succ_eq fun rounds => ?_
  simp only [scan, hc]
  exact if_pos hend

/-- The opening brace starts the argument. -/
theorem scan_open (hc : pattern[s.n]? = some c) (hend : ¬(s.fmtStatus = 0 ∧ ends c = true))
    (hopen : s.fmtStatus = 0 ∧ c = openBrace)
    (h : Settles (fun rounds => scan pattern i rounds {
      s with
      str := substr pattern (i + 1) (s.n - i - 1)
      fmtStatus := 1
      fmtBegin := s.n
      n := s.n + 1 }) r) :
    Settles (fun rounds => scan pattern i rounds s) r := by
  refine h.of_succ fun rounds => ?_
  simp only [scan, hc]
  exact (if_neg hend).trans (if_pos hopen)

/-- The closing brace ends it. -/
theorem scan_close (hc : pattern[s.n]? = some c) (hend : ¬(s.fmtStatus = 0 ∧ ends c = true))
    (hopen : ¬(s.fmtStatus = 0 ∧ c = openBrace)) (hclose : s.fmtStatus = 1 ∧ c = closeBrace) :
    Settles (fun rounds => scan pattern i rounds s) (.ok {
      s with
      fmt := substr pattern (s.fmtBegin + 1) (s.n - s.fmtBegin - 1)
      fmtStatus := 0
      n := s.n + 1 }) := by
  refine settles_of_succ_eq fun rounds => ?_
  simp only [scan, hc]
  exact (if_neg hend).trans ((if_neg hopen).trans (if_pos hclose))

/-- Every other byte is passed. -/
theorem scan_advance (hc : pattern[s.n]? = some c) (hend : ¬(s.fmtStatus = 0 ∧ ends c = true))
    (hopen : ¬(s.fmtStatus = 0 ∧ c = openBrace))
    (hclose : ¬(s.fmtStatus = 1 ∧ c = closeBrace))
    (h : Settles (fun rounds => scan pattern i rounds (advance pattern i s)) r) :
    Settles (fun rounds => scan pattern i rounds s) r := by
  refine h.of_succ fun rounds => ?_
  simp only [scan, hc]
  exact (if_neg hend).trans ((if_neg hopen).trans (if_neg hclose))

theorem advance_n (pattern : Text) (i : Nat) (s : Scan) : (advance pattern i s).n = s.n + 1 := by
  unfold advance
  split <;> rfl

/-- The inner loop is left, and not in front of where it begins. -/
theorem scan_settles (pattern : Text) (i : Nat) (s : Scan) :
    ∃ s', Settles (fun rounds => scan pattern i rounds s) (.ok s') ∧ s.n ≤ s'.n := by
  induction hleft : pattern.length - s.n using Nat.strong_induction_on generalizing s with
  | _ left ih =>
    cases hc : pattern[s.n]? with
    | none => exact ⟨s, scan_none hc, le_rfl⟩
    | some c =>
      have hlt : s.n < pattern.length := (List.getElem?_eq_some_iff.mp hc).1
      -- a round that goes on has moved by one
      have hmore (next : Scan) (hnext : next.n = s.n + 1) :
          ∃ s', Settles (fun rounds => scan pattern i rounds next) (.ok s') ∧ s.n ≤ s'.n := by
        obtain ⟨s', hsettles, hle⟩ := ih (pattern.length - next.n) (by omega) next rfl
        exact ⟨s', hsettles, by omega⟩
      by_cases hend : s.fmtStatus = 0 ∧ ends c = true
      · exact ⟨_, scan_stop hc hend, le_rfl⟩
      · by_cases hopen : s.fmtStatus = 0 ∧ c = openBrace
        · obtain ⟨s', hsettles, hle⟩ := hmore {
            s with
            str := substr pattern (i + 1) (s.n - i - 1)
            fmtStatus := 1
            fmtBegin := s.n
            n := s.n + 1 } rfl
          exact ⟨s', scan_open hc hend hopen hsettles, hle⟩
        · by_cases hclose : s.fmtStatus = 1 ∧ c = closeBrace
          · exact ⟨_, scan_close hc hend hopen hclose, Nat.le_succ _⟩
          · obtain ⟨s', hsettles, hle⟩ := hmore (advance pattern i s) (advance_n pattern i s)
            exact ⟨s', scan_advance hc hend hopen hclose hsettles, hle⟩

end Scan

/-! ## Rounds of the outer loop -/

/-- At the end of the pattern the last text is kept. -/
theorem initLoop_end (hc : pattern[i]? = none) :
    Settles (fun rounds => initLoop pattern rounds i nstr vec) (.ok (vec ++ flush nstr)) := by
  refine settles_of_succ_eq fun rounds => ?_
  rw [initLoop, hc]

/-- A plain byte goes to the text. -/
theorem initLoop_char {c : UInt8} {r : Except Failure (List Piece)} (hc : pattern[i]? = some c)
    (hne : c ≠ percent)
    (h : Settles (fun rounds => initLoop pattern rounds (i + 1) (nstr ++ [c]) vec) r) :
    Settles (fun rounds => initLoop pattern rounds i nstr vec) r := by
  refine h.of_succ fun rounds => ?_
  simp only [initLoop, hc, if_pos hne]

/-- Two percent signs stand for one. -/
theorem initLoop_percents {r : Except Failure (List Piece)} (hc : pattern[i]? = some percent)
    (hnext : pattern[i + 1]? = some percent)
    (h : Settles (fun rounds => initLoop pattern rounds (i + 2) (nstr ++ [percent]) vec) r) :
    Settles (fun rounds => initLoop pattern rounds i nstr vec) r := by
  refine h.of_succ fun rounds => ?_
  simp only [initLoop, hc, hnext, ne_eq, not_true_eq_false, if_false, if_true]

/-- A percent sign starts a directive. -/
theorem initLoop_directive {r : Except Failure (List Piece)} (hc : pattern[i]? = some percent)
    (hnext : pattern[i + 1]? ≠ some percent)
    (hscan : Settles (fun rounds => scan pattern i rounds (.start i)) (.ok s))
    (h : Settles (fun rounds =>
      if s.fmtStatus = 0 then
        initLoop pattern rounds s.n [] (vec ++ flush nstr ++ [⟨s.str, s.fmt, 1⟩])
      else
        initLoop pattern rounds (i + 1) nstr
          (vec ++ [⟨ascii "<<pattern_error>>", s.fmt, 0⟩])) r) :
    Settles (fun rounds => initLoop pattern rounds i nstr vec) r := by
  have hboth : Settles (fun rounds =>
      (scan pattern i rounds (.start i)).bind fun s =>
        if s.fmtStatus = 0 then
          initLoop pattern rounds s.n [] (vec ++ flush nstr ++ [⟨s.str, s.fmt, 1⟩])
        else
          initLoop pattern rounds (i + 1) nstr
            (vec ++ [⟨ascii "<<pattern_error>>", s.fmt, 0⟩])) r :=
    Settles.bind_ok hscan h
  refine hboth.of_succ fun rounds => ?_
  simp only [initLoop, hc, ne_eq, not_true_eq_false, if_false, if_neg hnext]

/-- The loop over the pattern returns. -/
theorem initLoop_settles (pattern : Text) (i : Nat) (nstr : Text) (vec : List Piece) :
    ∃ r, Settles (fun rounds => initLoop pattern rounds i nstr vec) (.ok r) := by
  induction hleft : pattern.length - i using Nat.strong_induction_on generalizing i nstr vec with
  | _ left ih =>
    cases hc : pattern[i]? with
    | none => exact ⟨_, initLoop_end hc⟩
    | some c =>
      have hlt : i < pattern.length := (List.getElem?_eq_some_iff.mp hc).1
      have hmore (j : Nat) (hj : i < j) (nstr : Text) (vec : List Piece) :
          ∃ r, Settles (fun rounds => initLoop pattern rounds j nstr vec) (.ok r) :=
        ih (pattern.length - j) (by omega) j nstr vec rfl
      by_cases hpercent : c = percent
      · rw [hpercent] at hc
        by_cases hnext : pattern[i + 1]? = some percent
        · obtain ⟨r, hr⟩ := hmore (i + 2) (by omega) (nstr ++ [percent]) vec
          exact ⟨r, initLoop_percents hc hnext hr⟩
        · -- the inner loop stops behind the percent sign
          obtain ⟨s, hscan, hle⟩ := scan_settles pattern i (.start i)
          by_cases hstatus : s.fmtStatus = 0
          · obtain ⟨r, hr⟩ := hmore s.n hle [] (vec ++ flush nstr ++ [⟨s.str, s.fmt, 1⟩])
            refine ⟨r, initLoop_directive hc hnext hscan ?_⟩
            simpa only [if_pos hstatus] using hr
          · obtain ⟨r, hr⟩ := hmore (i + 1) (by omega) nstr
              (vec ++ [⟨ascii "<<pattern_error>>", s.fmt, 0⟩])
            refine ⟨r, initLoop_directive hc hnext hscan ?_⟩
            simpa only [if_neg hstatus] using hr
      · obtain ⟨r, hr⟩ := hmore (i + 1) (by omega) (nstr ++ [c]) vec
        exact ⟨r, initLoop_char hc hpercent hr⟩

/-! ## The inner loop at a directive -/

variable {directive : Directive}

theorem Directive.isalpha_letter (directive : Directive) : isalpha directive.letter = true := by
  cases directive <;> rfl

theorem ends_of_isalpha {c : UInt8} (h : isalpha c = true) : ends c = false := by
  simp [ends, h]

/-- The character behind the first part of a text. -/
theorem getElem?_behind (before : Text) (c : UInt8) (rest : Text) :
    (before ++ c :: rest)[before.length]? = some c := by
  rw [List.getElem?_append_right le_rfl, Nat.sub_self]
  rfl

theorem substr_behind (front arg rest : Text) :
    substr (front ++ arg ++ rest) front.length arg.length = arg := by
  simp [substr]

/-- The inner loop reads the letter of a directive. -/
theorem scan_letter {r : Except Failure Scan}
    (hpattern : pattern = before ++ percent :: directive.letter :: rest)
    (h : Settles (fun rounds => scan pattern before.length rounds
      (advance pattern before.length (.start before.length))) r) :
    Settles (fun rounds => scan pattern before.length rounds (.start before.length)) r := by
  have hletter := directive.isalpha_letter
  have hc : pattern[(Scan.start before.length).n]? = some directive.letter := by
    simp [hpattern, Scan.start]
  refine scan_advance hc ?_ ?_ ?_ h
  · simp [ends_of_isalpha hletter]
  · rintro ⟨-, hopen⟩
    rw [hopen] at hletter
    exact absurd hletter (by decide)
  · rintro ⟨hstatus, -⟩
    simp [Scan.start] at hstatus

/-- Behind the letter the text of the directive has been taken only if the pattern ends there. -/
theorem advance_start (hpattern : pattern = before ++ percent :: directive.letter :: rest) :
    advance pattern before.length (.start before.length) =
      ⟨before.length + 2, 0, 0, if rest = [] then [directive.letter] else [], []⟩ := by
  rw [hpattern]
  cases rest with
  | nil => simp [advance, Scan.start]
  | cons c rest =>
    simp [advance, Scan.start]
    omega

/-- The letter of a directive, up to the place behind it. -/
theorem substr_letter (hpattern : pattern = before ++ percent :: directive.letter :: rest) :
    substr pattern (before.length + 1) (before.length + 2 - before.length - 1) =
      [directive.letter] := by
  have hone : before.length + 2 - before.length - 1 = 1 := by omega
  rw [hpattern, hone]
  simp [substr]

/-- The inner loop at a directive without argument. -/
theorem scan_bare (hends : EndsBefore rest)
    (hpattern : pattern = before ++ percent :: directive.letter :: rest) :
    Settles (fun rounds => scan pattern before.length rounds (.start before.length))
      (.ok ⟨before.length + 2, 0, 0, [directive.letter], []⟩) := by
  refine scan_letter hpattern ?_
  rw [advance_start hpattern]
  cases rest with
  | nil =>
    refine scan_none ?_
    simp [hpattern]
  | cons c rest =>
    have hc : pattern[before.length + 2]? = some c := by
      simp [hpattern]
    have hstop := scan_stop (s := ⟨before.length + 2, 0, 0, [], []⟩) (i := before.length) hc
      ⟨rfl, hends c rfl⟩
    rw [substr_letter hpattern] at hstop
    exact hstop

/-- The inner loop in an argument, which begins behind `front`. -/
theorem scan_argument (front arg str : Text) (start : Nat) (hclose : closeBrace ∉ arg)
    (hstr : str ≠ []) (hpattern : pattern = front ++ arg ++ closeBrace :: rest) :
    Settles (fun rounds => scan pattern i rounds ⟨front.length, 1, start, str, []⟩)
      (.ok ⟨(front ++ arg).length + 1, 0, start, str,
        substr pattern (start + 1) ((front ++ arg).length - start - 1)⟩) := by
  induction arg generalizing front with
  | nil =>
    rw [List.append_nil] at hpattern ⊢
    have hc : pattern[front.length]? = some closeBrace := by
      rw [hpattern]
      exact getElem?_behind front closeBrace rest
    exact scan_close hc (by simp) (by simp) ⟨rfl, rfl⟩
  | cons c arg ih =>
    have hne : c ≠ closeBrace := fun heq => hclose (by simp [heq])
    have hpattern' : pattern = front ++ [c] ++ arg ++ closeBrace :: rest := by
      rw [hpattern]
      simp
    have hc : pattern[front.length]? = some c := by
      rw [hpattern']
      simp
    have hmore := ih (front ++ [c]) (fun hmem => hclose (by simp [hmem])) hpattern'
    have hsame : front ++ [c] ++ arg = front ++ c :: arg := by simp
    rw [hsame] at hmore
    refine scan_advance hc (by simp) (by simp) (by simp [hne]) ?_
    simpa [advance, hstr] using hmore

/-- The inner loop at a directive with an argument. -/
theorem scan_braced (arg : Argument)
    (hpattern : pattern =
      before ++ percent :: directive.letter :: (openBrace :: arg.text ++ closeBrace :: rest)) :
    Settles (fun rounds => scan pattern before.length rounds (.start before.length))
      (.ok ⟨before.length + 4 + arg.text.length, 0, before.length + 2, [directive.letter],
        arg.text⟩) := by
  refine scan_letter hpattern ?_
  rw [advance_start hpattern, if_neg (by simp)]
  have hc : pattern[before.length + 2]? = some openBrace := by
    simp [hpattern]
  have hfront : pattern =
      before ++ [percent, directive.letter, openBrace] ++ arg.text ++ closeBrace :: rest := by
    simp [hpattern]
  have harg := scan_argument (i := before.length) (before ++ [percent, directive.letter, openBrace])
    arg.text [directive.letter] (before.length + 2) arg.closeBrace_notMem (by simp) hfront
  have hlength : (before ++ [percent, directive.letter, openBrace]).length = before.length + 3 := by
    simp
  have hbehind : (before ++ [percent, directive.letter, openBrace] ++ arg.text).length =
      before.length + 3 + arg.text.length := by
    simp
    omega
  have hfmt : substr pattern (before.length + 2 + 1)
      (before.length + 3 + arg.text.length - (before.length + 2) - 1) = arg.text := by
    have hcount : before.length + 3 + arg.text.length - (before.length + 2) - 1 =
        arg.text.length := by
      omega
    have hsubstr := substr_behind (before ++ [percent, directive.letter, openBrace]) arg.text
      (closeBrace :: rest)
    rw [hlength, ← hfront] at hsubstr
    rw [hcount]
    exact hsubstr
  rw [hbehind, hfmt, hlength] at harg
  refine scan_open hc (by simp [ends]) ⟨rfl, rfl⟩ ?_
  simp only [substr_letter hpattern]
  have hplace : before.length + 3 + arg.text.length + 1 = before.length + 4 + arg.text.length := by
    omega
  rw [hplace] at harg
  exact harg

/-! ## The outer loop at printed items -/

/-- The pieces of items, with literal text in front. -/
def pieces (nstr : Text) : List PatternItem → List Piece
  | [] => flush nstr
  | .literal text :: items => pieces (nstr ++ text) items
  | .bare directive :: items => flush nstr ++ ⟨[directive.letter], [], 1⟩ :: pieces [] items
  | .braced directive arg :: items =>
    flush nstr ++ ⟨[directive.letter], arg.text, 1⟩ :: pieces [] items

/-- The outer loop reads literal text. -/
theorem initLoop_doubled {r : Except Failure (List Piece)}
    (hpattern : pattern = before ++ doubled text ++ rest)
    (h : Settles (fun rounds =>
      initLoop pattern rounds (before ++ doubled text).length (nstr ++ text) vec) r) :
    Settles (fun rounds => initLoop pattern rounds before.length nstr vec) r := by
  induction text generalizing before nstr with
  | nil => simpa [doubled] using h
  | cons c text ih =>
    by_cases hc : c = percent
    · have hdoubled : doubled (c :: text) = percent :: percent :: doubled text := by
        simp [doubled, hc]
      have hfront : before ++ doubled (c :: text) =
          before ++ [percent, percent] ++ doubled text := by
        simp [hdoubled]
      have hnstr : nstr ++ c :: text = nstr ++ [percent] ++ text := by
        simp [hc]
      rw [hfront] at hpattern h
      rw [hnstr] at h
      have hmore := ih hpattern h
      refine initLoop_percents (by simp [hpattern]) (by simp [hpattern]) ?_
      simpa using hmore
    · have hfront : before ++ doubled (c :: text) = before ++ [c] ++ doubled text := by
        simp [doubled, hc]
      have hnstr : nstr ++ c :: text = nstr ++ [c] ++ text := by simp
      rw [hfront] at hpattern h
      rw [hnstr] at h
      have hmore := ih hpattern h
      refine initLoop_char (by simp [hpattern]) hc ?_
      simpa using hmore

/-- A directive is not behind another percent sign. -/
theorem Directive.letter_ne (directive : Directive) : directive.letter ≠ percent := by
  cases directive <;> decide

/-- The outer loop reads printed items: it leaves their pieces behind those that are there. -/
theorem initLoop_print (items : List PatternItem) (hseparated : Separated items)
    (hpattern : pattern = before ++ print items) (nstr : Text) (vec : List Piece) :
    Settles (fun rounds => initLoop pattern rounds before.length nstr vec)
      (.ok (vec ++ pieces nstr items)) := by
  induction items generalizing before nstr vec with
  | nil =>
    refine initLoop_end ?_
    simp [hpattern, print]
  | cons item items ih =>
    have hprint : print (item :: items) = item.print ++ print items := rfl
    rw [hprint] at hpattern
    cases item with
    | literal text =>
      rw [PatternItem.print, ← List.append_assoc] at hpattern
      exact initLoop_doubled hpattern (ih hseparated hpattern (nstr ++ text) vec)
    | bare directive =>
      have hfront : pattern = before ++ [percent, directive.letter] ++ print items := by
        simp [hpattern, PatternItem.print]
      have hmore := ih hseparated.2 hfront []
        (vec ++ flush nstr ++ [⟨[directive.letter], [], 1⟩])
      have hscan := scan_bare hseparated.1 hpattern
      refine initLoop_directive ?_ ?_ hscan ?_
      · simp [hfront]
      · simp [hfront, directive.letter_ne]
      · simpa [pieces] using hmore
    | braced directive arg =>
      have hfront : pattern =
          before ++ (PatternItem.braced directive arg).print ++ print items := by
        simp [hpattern]
      have hmore := ih hseparated hfront []
        (vec ++ flush nstr ++ [⟨[directive.letter], arg.text, 1⟩])
      have hbraced : pattern = before ++
          percent :: directive.letter :: (openBrace :: arg.text ++ closeBrace :: print items) := by
        simp [hpattern, PatternItem.print]
      refine initLoop_directive ?_ ?_ (scan_braced arg hbraced) ?_
      · simp [hbraced]
      · simp [hbraced, directive.letter_ne]
      · have hlength : (before ++ (PatternItem.braced directive arg).print).length =
            before.length + 4 + arg.text.length := by
          simp [PatternItem.print]
          omega
        rw [hlength] at hmore
        simpa [pieces] using hmore

/-! ## The items -/

theorem buildItems_append (vec more : List Piece) :
    buildItems (vec ++ more) = buildItems vec ++ buildItems more :=
  List.filterMap_append

/-- A directive of the table gives its item. -/
theorem buildItems_directive (directive : Directive) (fmt : Text) (vec : List Piece) :
    buildItems (⟨[directive.letter], fmt, 1⟩ :: vec) =
      .item directive.cls fmt :: buildItems vec := by
  have hlookup : sFormatItems.lookup [directive.letter] = some directive.cls := by
    cases directive <;> rfl
  simp [buildItems, hlookup]

theorem consString_nil (items : List FormatItem) : consString [] items = items := by
  unfold consString
  split <;> simp

/-- Texts that follow each other are one item. -/
theorem consString_consString (text more : Text) (items : List FormatItem) :
    consString text (consString more items) = consString (text ++ more) items := by
  have hskip : ∀ items : List FormatItem, (∀ fmt rest, items ≠ .string fmt :: rest) →
      ∀ text, consString text items = if text = [] then items else .string text :: items := by
    intro items hitems text
    unfold consString
    split
    · exact absurd rfl (hitems _ _)
    · rfl
  by_cases hitems : ∀ fmt rest, items ≠ .string fmt :: rest
  · rw [hskip items hitems more, hskip items hitems (text ++ more)]
    by_cases hmore : more = []
    · rw [if_pos hmore, hmore, List.append_nil, hskip items hitems]
    · simp [hmore, consString]
  · push Not at hitems
    obtain ⟨fmt, rest, rfl⟩ := hitems
    simp [consString]

/-- Literal text in front of a directive is an item of its own. -/
theorem consString_item (text : Text) (cls : ItemClass) (fmt : Text) (items : List FormatItem) :
    consString text (.item cls fmt :: items) =
      buildItems (flush text) ++ .item cls fmt :: items := by
  by_cases htext : text = []
  · simp [consString, flush, buildItems, htext]
  · simp [consString, flush, buildItems, htext]

/-- The items that are built from the pieces, with literal text in front. -/
theorem buildItems_pieces (items : List PatternItem) (nstr : Text) :
    buildItems (pieces nstr items) =
      consString nstr (mergeStrings (items.map PatternItem.formatItem)) := by
  induction items generalizing nstr with
  | nil => simp [pieces, mergeStrings, consString, flush, buildItems, apply_ite]
  | cons item items ih =>
    cases item with
    | literal text =>
      rw [pieces, ih]
      exact (consString_consString nstr text _).symm
    | bare directive =>
      rw [pieces, buildItems_append, buildItems_directive, ih, consString_nil]
      exact (consString_item nstr directive.cls [] _).symm
    | braced directive arg =>
      rw [pieces, buildItems_append, buildItems_directive, ih, consString_nil]
      exact (consString_item nstr directive.cls arg.text _).symm

/-! ## Patterns -/

/-- `init` builds the pieces of the loop. -/
theorem init_of_initLoop {vec : List Piece}
    (h : Settles (fun rounds => initLoop pattern rounds 0 [] []) (.ok vec)) :
    Settles (fun rounds => init rounds pattern) (.ok (buildItems vec)) := by
  obtain ⟨least, hleast⟩ := h
  refine ⟨least, fun rounds hrounds => ?_⟩
  have hloop := hleast rounds hrounds
  simp only [init, hloop]
  rfl

/-- The items that a pattern is printed from are built from it. -/
theorem init_pattern (p : Pattern) :
    Settles (fun rounds => init rounds (print p.items)) (.ok p.formatItems) := by
  have hloop := initLoop_print p.items p.separated (List.nil_append (print p.items)).symm [] []
  have hinit := init_of_initLoop hloop
  rw [List.nil_append, buildItems_pieces, consString_nil] at hinit
  exact hinit

/-- The items that a pattern is printed from are built from it, and the loops are left for every
pattern. -/
theorem init_print :
    (∀ p : Pattern, Settles (fun rounds => init rounds (print p.items)) (.ok p.formatItems)) ∧
      ∀ pattern : Text, ∃ items, Settles (fun rounds => init rounds pattern) (.ok items) := by
  refine ⟨init_pattern, ?_⟩
  intro pattern
  obtain ⟨vec, hloop⟩ := initLoop_settles pattern 0 [] []
  exact ⟨buildItems vec, init_of_initLoop hloop⟩

/-! ## The default pattern -/

theorem endsBefore_nil : EndsBefore [] := by simp [EndsBefore]

theorem endsBefore_cons {c : UInt8} : EndsBefore (c :: text) ↔ ends c = true := by
  simp [EndsBefore]

instance : (text : Text) → Decidable (EndsBefore text)
  | [] => isTrue endsBefore_nil
  | _ :: _ => decidable_of_iff _ endsBefore_cons.symm

instance decidableSeparated : (items : List PatternItem) → Decidable (Separated items)
  | [] => isTrue trivial
  | .bare _ :: items =>
    have := decidableSeparated items
    inferInstanceAs (Decidable (_ ∧ _))
  | .literal _ :: items => decidableSeparated items
  | .braced _ _ :: items => decidableSeparated items

/-- The default pattern as items. -/
def defaultItems : Pattern where
  items := [.braced .d ⟨ascii "%Y-%m-%d %H:%M:%S", by decide⟩, .literal (ascii " "), .bare .t,
    .literal (ascii " "), .bare .N, .literal (ascii " "), .bare .F, .literal (ascii " ["), .bare .p,
    .literal (ascii "] ["), .bare .c, .literal (ascii "] "), .bare .f, .literal (ascii ":"),
    .bare .l, .literal (ascii " "), .bare .m, .bare .n]
  separated := by decide

theorem print_defaultItems : print defaultItems.items = defaultPattern := by decide

/-- The constructor builds the items of the default pattern from the empty one. -/
theorem construct_default :
    Settles (fun rounds => construct rounds []) (.ok defaultItems.formatItems) := by
  have hinit := init_pattern defaultItems
  rw [print_defaultItems] at hinit
  exact hinit

end Log
end Tiger
