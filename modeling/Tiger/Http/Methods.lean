import Tiger.Http.RequestReads

/-!
# Methods of requests

`CharsToHTTPMethod` (`src/servers/http/http.cc`) gets a pointer into the receive buffer and no
length.  It compares the bytes there with the names of its table, in order, and takes the first
name that the bytes begin with.  The token that the grammar has found ends with a blank, and the
name of `MSEARCH` is the text that the preprocessor makes of `M - SEARCH`, with blanks in it.

Main results:

- Theorem `at_name_iff`: which names of the table the bytes of a token begin with.
- Theorem `methodRead_iff`: when the method of a token is the one with this name.
- Theorem `printsBack_iff`: which methods are printed as tokens that are read back.
- Theorem `methods_recognised_iff`: both.
-/

namespace Tiger
namespace Http

open Lib.Ragel HTTPRequestParser

/-! ## Tokens and names -/

/-- A method token of the grammar: 1 to 20 upper-case letters or digits. -/
def isMethodToken (tok : Text) : Bool :=
  decide (1 ≤ tok.length) && decide (tok.length ≤ 20) &&
    tok.all fun c => decide (65 ≤ c ∧ c ≤ 90) || decide (48 ≤ c ∧ c ≤ 57)

/-- The stringified `M - SEARCH`. -/
def searchName : List Char := ['M', ' ', '-', ' ', 'S', 'E', 'A', 'R', 'C', 'H']

/-- The names of the methods: those of the table, and `M-SEARCH`. -/
def standardName (e : HTTPMethod × List Char) : Text :=
  if e.1 = .MSEARCH then text ['M', '-', 'S', 'E', 'A', 'R', 'C', 'H'] else text e.2

/-- What is asked of `on_request_method` for a token: the method with this name is set, and
without one the error is reported. -/
def MethodRead (m : Memory) (p : Nat) (tok : Text) (ps : HTTPRequestParser) : Prop :=
  (∀ e ∈ httpMethodMap, standardName e = tok →
    onRequestMethod m p tok.length ps = some { ps with data := { ps.data with method := e.1 } }) ∧
  ((∀ e ∈ httpMethodMap, standardName e ≠ tok) →
    onRequestMethod m p tok.length ps = some { ps with error := some .INVALID_METHOD_ERROR })

/-- What is asked of `HTTPMethodToString`: the text is a token, and it is read as the method. -/
def PrintsBack (method : HTTPMethod) : Prop :=
  ∃ name, httpMethodToString method = some name ∧ isMethodToken name = true ∧
    ∀ m p, At m p (name ++ [32]) → charsToHTTPMethod m p = method

/-- No name of the table is a proper prefix of the token. -/
def extendsNoName (tok : Text) : Bool :=
  httpMethodMap.all fun e => !(text e.2).isPrefixOf tok || decide (text e.2 = tok)

/-! ## The table -/

/-- All names but one are tokens. -/
theorem names_tokens : httpMethodMap.all (fun e =>
    decide (e = (.MSEARCH, searchName)) || isMethodToken (text e.2) && isFieldName (text e.2) &&
      extendsNoName (text e.2) && decide (e.1 ≠ .MSEARCH)) = true := by
  decide

/-- Every name of the table but `M-SEARCH` is a token that extends no other name. -/
theorem name_cases {e : HTTPMethod × List Char} (he : e ∈ httpMethodMap) :
    e = (.MSEARCH, searchName) ∨ isMethodToken (text e.2) = true ∧
      isFieldName (text e.2) = true ∧ extendsNoName (text e.2) = true ∧ e.1 ≠ .MSEARCH := by
  have hcase := List.all_eq_true.mp names_tokens e he
  simpa [and_assoc] using hcase

/-- A method token has no blank. -/
theorem isMethodToken_no_blank {tok : Text} (h : isMethodToken tok = true) : 32 ∉ tok := by
  intro hmem
  rw [isMethodToken, Bool.and_eq_true, List.all_eq_true] at h
  exact absurd (h.2 32 hmem) (by decide)

section Token

variable {m : Memory} {p : Nat} {tok : Text}

/-- A name without a blank that the bytes at a token begin with is a prefix of the token. -/
theorem isPrefix_of_at (hat : At m p (tok ++ [32])) {name : Text} (hname : At m p name)
    (hblank : 32 ∉ name) : name <+: tok := by
  have htok := (at_append.mp hat).1
  rcases Nat.lt_or_ge tok.length name.length with hlt | hle
  · -- the name has the byte behind the token
    have hpre := hat.isPrefix hname (by simpa using hlt)
    exact absurd (hpre.subset (by simp)) hblank
  · exact hname.isPrefix htok hle

/-- The bytes at a token begin with a name of the table exactly if the token does, or if they are
those of `M - SEARCH`. -/
theorem at_name_iff (hat : At m p (tok ++ [32])) {e : HTTPMethod × List Char}
    (he : e ∈ httpMethodMap) :
    At m p (text e.2) ↔
      text e.2 <+: tok ∨ e = (.MSEARCH, searchName) ∧ At m p (text searchName) := by
  constructor
  · intro hname
    rcases name_cases he with rfl | ⟨htoken, -⟩
    · exact .inr ⟨rfl, hname⟩
    · exact .inl (isPrefix_of_at hat hname (isMethodToken_no_blank htoken))
  · rintro (⟨rest, hrest⟩ | ⟨rfl, hsearch⟩)
    · rw [← hrest, List.append_assoc] at hat
      exact (at_append.mp hat).1
    · exact hsearch

/-- No name is found exactly if the token begins with none and the bytes are not those of
`M - SEARCH`. -/
theorem charsToHTTPMethod_invalid_iff (hat : At m p (tok ++ [32])) :
    charsToHTTPMethod m p = .INVALID_METHOD ↔
      (∀ e ∈ httpMethodMap, ¬text e.2 <+: tok) ∧ ¬At m p (text searchName) := by
  have hvalid : ∀ e ∈ httpMethodMap, e.1 ≠ .INVALID_METHOD := by decide
  have hsearch : (HTTPMethod.MSEARCH, searchName) ∈ httpMethodMap := by decide
  have hfind : charsToHTTPMethod m p = .INVALID_METHOD ↔
      ∀ e ∈ httpMethodMap, ¬At m p (text e.2) := by
    rw [charsToHTTPMethod]
    cases hcase : httpMethodMap.find? fun e => strncmpEq m p e.2 e.2.length with
    | none =>
        refine iff_of_true rfl ?_
        intro e he hname
        exact List.find?_eq_none.mp hcase e he (strncmpEq_iff.mpr hname)
    | some e =>
        have he := List.mem_of_find?_eq_some hcase
        have hname : At m p (text e.2) := strncmpEq_iff.mp (List.find?_some
          (p := fun e : HTTPMethod × List Char => strncmpEq m p e.2 e.2.length) hcase)
        exact iff_of_false (hvalid e he) fun hnone => hnone e he hname
  rw [hfind]
  constructor
  · intro hnone
    refine ⟨?_, hnone _ hsearch⟩
    intro e he hpre
    exact hnone e he ((at_name_iff hat he).mpr (.inl hpre))
  · rintro ⟨hpre, hnot⟩ e he hname
    rcases (at_name_iff hat he).mp hname with hpre' | ⟨-, hname'⟩
    · exact hpre e he hpre'
    · exact hnot hname'

/-- `M - SEARCH` begins with the token `M`. -/
theorem token_of_search (htok : isMethodToken tok = true) (hat : At m p (tok ++ [32]))
    (hsearch : At m p (text searchName)) : tok = [77] := by
  have hblank := isMethodToken_no_blank htok
  obtain ⟨hfirst, hrest⟩ := at_cons.mp hsearch
  obtain ⟨hsecond, -⟩ := at_cons.mp hrest
  cases tok with
  | nil => exact absurd htok (by decide)
  | cons c rest =>
      obtain ⟨hc, hrest'⟩ := at_cons.mp hat
      cases rest with
      | nil =>
          rw [← hc, hfirst]
          rfl
      | cons c' rest =>
          -- the second byte of a longer token would be the blank
          obtain ⟨hc', -⟩ := at_cons.mp hrest'
          have hmem : 32 ∈ c :: c' :: rest := by
            rw [← hc', hsecond]
            exact List.mem_cons_of_mem _ List.mem_cons_self
          exact absurd hmem hblank

/-- A token that is the name of a method is a name of the table. -/
theorem standardName_eq {e : HTTPMethod × List Char} (he : e ∈ httpMethodMap)
    (htok : isMethodToken tok = true) (hname : standardName e = tok) :
    text e.2 = tok ∧ isFieldName (text e.2) = true ∧ extendsNoName (text e.2) = true := by
  rcases name_cases he with rfl | ⟨-, hfield, hextends, hne⟩
  · subst hname
    exact absurd htok (by decide)
  · rw [standardName, if_neg hne] at hname
    exact ⟨hname, hfield, hextends⟩

/-- A token that is no name of a method is no name of the table. -/
theorem text_ne_of_standardName {e : HTTPMethod × List Char} (he : e ∈ httpMethodMap)
    (htok : isMethodToken tok = true) (hname : standardName e ≠ tok) : text e.2 ≠ tok := by
  rcases name_cases he with rfl | ⟨-, -, -, hne⟩
  · rintro rfl
    exact absurd htok (by decide)
  · rwa [standardName, if_neg hne] at hname

/-- A token extends no name when the only name of the table it starts with is itself. -/
theorem extendsNoName_iff :
    extendsNoName tok = true ↔ ∀ e ∈ httpMethodMap, text e.2 <+: tok → text e.2 = tok := by
  simp only [extendsNoName, List.all_eq_true, Bool.or_eq_true, Bool.not_eq_true',
    decide_eq_true_eq, ← Bool.not_eq_true, List.isPrefixOf_iff_prefix, imp_iff_not_or]

/-- For a token in front of a blank, `on_request_method` sets the method with this name, or
reports that there is none, exactly if no name is a proper prefix of the token and the bytes are
not those of `M - SEARCH`. -/
theorem methodRead_iff (htok : isMethodToken tok = true) (hat : At m p (tok ++ [32]))
    {ps : HTTPRequestParser} (hok : ps.error = none) :
    MethodRead m p tok ps ↔ extendsNoName tok = true ∧ ¬At m p (text searchName) := by
  have hvalid : ∀ e ∈ httpMethodMap, e.1 ≠ .INVALID_METHOD := by decide
  by_cases hname : ∃ e ∈ httpMethodMap, standardName e = tok
  · obtain ⟨e, he, hstandard⟩ := hname
    obtain ⟨rfl, -, hextends⟩ := standardName_eq he htok hstandard
    refine iff_of_true ⟨?_, fun hnone => absurd hstandard (hnone e he)⟩ ⟨hextends, ?_⟩
    · intro e' he' hstandard'
      obtain ⟨heq, hfield, -⟩ := standardName_eq he' htok hstandard'
      rw [← heq] at hat
      rw [onRequestMethod, charsToHTTPMethod_at he' hfield hat]
      exact if_neg (hvalid e' he')
    · intro hsearch
      have hsingle := token_of_search htok hat hsearch
      have hnone : httpMethodMap.all (fun e => decide (text e.2 ≠ [77])) = true := by decide
      exact absurd hsingle (of_decide_eq_true (List.all_eq_true.mp hnone e he))
  · have hnone : ∀ e ∈ httpMethodMap, standardName e ≠ tok := fun e he heq => hname ⟨e, he, heq⟩
    have hextends : extendsNoName tok = true ↔ ∀ e ∈ httpMethodMap, ¬text e.2 <+: tok := by
      rw [extendsNoName_iff]
      constructor
      · intro h e he hpre
        exact text_ne_of_standardName he htok (hnone e he) (h e he hpre)
      · intro h e he hpre
        exact absurd hpre (h e he)
    rw [hextends, ← charsToHTTPMethod_invalid_iff hat, MethodRead]
    have hstring : string m p tok.length = some tok := by
      rw [isMethodToken, Bool.and_eq_true, Bool.and_eq_true] at htok
      have hle : tok.length ≤ 20 := of_decide_eq_true htok.1.2
      exact string_at (at_append.mp hat).1 (by omega)
    constructor
    · rintro ⟨-, hreports⟩
      by_contra hfound
      have herror := hreports hnone
      rw [onRequestMethod, if_neg hfound, Option.some.injEq] at herror
      have hnot := congrArg HTTPRequestParser.error herror
      rw [hok] at hnot
      cases hnot
    · intro hinvalid
      refine ⟨fun e he heq => absurd heq (hnone e he), fun _ => ?_⟩
      rw [onRequestMethod, if_pos hinvalid, hstring]
      rfl

end Token

/-! ## Printing -/

/-- All methods are printed as tokens that are read back, but `MSEARCH`, whose text has blanks,
and `INVALID_METHOD`, which has none. -/
theorem printsBack_iff (method : HTTPMethod) :
    PrintsBack method ↔ method ≠ .MSEARCH ∧ method ≠ .INVALID_METHOD := by
  constructor
  · rintro ⟨name, hprinted, htoken, -⟩
    constructor
    · rintro rfl
      have hname : text searchName = name := Option.some.inj hprinted
      rw [← hname] at htoken
      exact absurd htoken (by decide)
    · rintro rfl
      cases hprinted
  · rintro ⟨hsearch, hinvalid⟩
    obtain ⟨e, he, rfl⟩ : ∃ e ∈ httpMethodMap, e.1 = method := by
      cases method <;> first | exact absurd rfl hinvalid | decide
    have hprinted : httpMethodToString e.1 = some (text e.2) := by
      have hall : httpMethodMap.all (fun e => decide (httpMethodToString e.1 = some (text e.2))) =
          true := by decide
      exact of_decide_eq_true (List.all_eq_true.mp hall e he)
    rcases name_cases he with rfl | ⟨htoken, hfield, -, -⟩
    · exact absurd rfl hsearch
    · exact ⟨text e.2, hprinted, htoken, fun m p hat => charsToHTTPMethod_at he hfield hat⟩

/-! ## Both directions -/

/-- For every token in front of a blank, wherever it stands in whatever buffer, and every parser
without an error, the method is that of the whole token exactly if no name of the table is a
proper prefix of the token and the bytes are not those of `M - SEARCH`.  A method is printed as a
token that is read back exactly if it is neither `MSEARCH` nor `INVALID_METHOD`. -/
theorem methods_recognised_iff {m : Memory} {p : Nat} {tok : Text}
    (htok : isMethodToken tok = true) (hat : At m p (tok ++ [32])) {ps : HTTPRequestParser}
    (hok : ps.error = none) (method : HTTPMethod) :
    (MethodRead m p tok ps ↔ extendsNoName tok = true ∧ ¬At m p (text searchName)) ∧
      (PrintsBack method ↔ method ≠ .MSEARCH ∧ method ≠ .INVALID_METHOD) :=
  ⟨methodRead_iff htok hat hok, printsBack_iff method⟩

/-- A buffer with a text at its start. -/
def methodMemory (cs : List Char) : Memory := store (fun _ => 0) 0 (text cs)

/-- `GET` and a token that is no name. -/
theorem methods_recognised_iff_get :
    MethodRead (methodMemory ['G', 'E', 'T', ' ']) 0 (text ['G', 'E', 'T'])
        (HTTPRequestParser.init ⟨false, fun _ => 0, fun _ => none⟩) ∧
      MethodRead (methodMemory ['G', 'E', ' ']) 0 (text ['G', 'E'])
        (HTTPRequestParser.init ⟨false, fun _ => 0, fun _ => none⟩) ∧
      PrintsBack .PATCH := by
  have hget := methods_recognised_iff (show isMethodToken (text ['G', 'E', 'T']) = true by decide)
    (at_store (fun _ => 0) (text ['G', 'E', 'T', ' ']))
    (show (HTTPRequestParser.init ⟨false, fun _ => 0, fun _ => none⟩).error = none from rfl) .PATCH
  have hge := methods_recognised_iff (show isMethodToken (text ['G', 'E']) = true by decide)
    (at_store (fun _ => 0) (text ['G', 'E', ' ']))
    (show (HTTPRequestParser.init ⟨false, fun _ => 0, fun _ => none⟩).error = none from rfl) .PATCH
  exact ⟨hget.1.mpr ⟨by decide, by unfold At; decide⟩, hge.1.mpr ⟨by decide, by unfold At; decide⟩,
    hget.2.mpr (by decide)⟩

/-- `GETX` is read as `GET`, and `MSEARCH` is printed as a text that is no token. -/
theorem methods_recognised_fails :
    charsToHTTPMethod (methodMemory ['G', 'E', 'T', 'X', ' ']) 0 = .GET ∧
      ¬MethodRead (methodMemory ['G', 'E', 'T', 'X', ' ']) 0 (text ['G', 'E', 'T', 'X'])
        (HTTPRequestParser.init ⟨false, fun _ => 0, fun _ => none⟩) ∧
      httpMethodToString .MSEARCH = some (text searchName) ∧
      isMethodToken (text searchName) = false ∧ ¬PrintsBack .MSEARCH := by
  refine ⟨by decide, ?_, by decide, by decide, ?_⟩
  · have hiff := methodRead_iff (show isMethodToken (text ['G', 'E', 'T', 'X']) = true by decide)
      (at_store (fun _ => 0) (text ['G', 'E', 'T', 'X', ' ']))
      (show (HTTPRequestParser.init ⟨false, fun _ => 0, fun _ => none⟩).error = none from rfl)
    intro hread
    exact absurd (hiff.mp hread).1 (by decide)
  · rw [printsBack_iff]
    exact fun h => h.1 rfl

end Http
end Tiger
