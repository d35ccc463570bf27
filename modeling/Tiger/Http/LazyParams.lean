import Tiger.Http.FieldMap
import Tiger.Http.Params
import Tiger.Lib.Simulation

/-!
# HTTP - parameters and cookies are parsed on the first access

This module embeds the accessors of `HTTPRequest` for parameters and cookies
(`src/servers/http/http.cc`) on a request that was received.  The maps are empty at first.
The getters fill them from the query, the form body and the `Cookie` header; the setters and
the deletions do not.

What the accessors are for is two maps that are full from the start.  A deletion in front of
the first getter finds nothing to delete, `del_cookie` only erases what is not there, and a
parameter that is set in front of the first getter keeps the spelling of its name.

Main results:

- Theorems `Fills.set_iff`, `Fills.erase_iff`: when a change in front of filling a map is the
  same as the change behind it.
- Theorem `unobservable_iff`: the accessors answer as the full maps do exactly if all of them
  meet `Meets`.
-/

namespace Tiger
namespace Http

open Lib

/-! ## Filling a map -/

/-- Filling a map adds fields and leaves those that are there alone. -/
structure Fills (fill : FieldMap → FieldMap) : Prop where
  ordered : ∀ m, m.Ordered → (fill m).Ordered
  entry_eq : ∀ m, m.Ordered → ∀ k, (fill m).entry k = (m.entry k).or ((fill []).entry k)

namespace Fills

variable {fill fill' : FieldMap → FieldMap} {m : FieldMap} {key val : Text}

/-- Two fillings one after the other fill a map. -/
theorem comp (h' : Fills fill') (h : Fills fill) : Fills fun m => fill' (fill m) where
  ordered m hm := h'.ordered _ (h.ordered m hm)
  entry_eq m hm k := by
    rw [h'.entry_eq _ (h.ordered m hm), h'.entry_eq _ (h.ordered [] List.Pairwise.nil),
      h.entry_eq m hm, Option.or_assoc]

/-- Doing nothing fills a map. -/
theorem id : Fills fun m => m where
  ordered _ hm := hm
  entry_eq m _ k := by
    rw [show FieldMap.entry k [] = none from rfl, Option.or_none]

/-- A choice of two fillings fills a map. -/
theorem ite {p : Prop} [Decidable p] (h : Fills fill) (h' : Fills fill') :
    Fills fun m => if p then fill m else fill' m := by
  by_cases hp : p
  · simpa only [if_pos hp] using h
  · simpa only [if_neg hp] using h'

/-- Setting a field in front of filling the map is setting it behind that, unless the map gets
the field under another spelling of its name. -/
theorem set_iff (h : Fills fill) (hm : m.Ordered) :
    fill (m.set key val) = (fill m).set key val ↔
      (m.find key).isSome = true ∨ (fill []).spelling key = key := by
  have hset := hm.set key val
  have hmine : (fill (m.set key val)).entry key = some (m.spelling key, val) := by
    rw [h.entry_eq _ hset, FieldMap.entry_set_self hm, Option.some_or]
  have htheirs : ((fill m).set key val).entry key = some ((fill m).spelling key, val) :=
    FieldMap.entry_set_self (h.ordered m hm)
  have hspelling : m.spelling key = (fill m).spelling key ↔
      (m.find key).isSome = true ∨ (fill []).spelling key = key := by
    rw [FieldMap.find_eq_entry, FieldMap.spelling, FieldMap.spelling, h.entry_eq m hm]
    cases m.entry key with
    | some e => simp
    | none => simp [FieldMap.spelling, eq_comm]
  rw [← hspelling]
  constructor
  · intro heq
    rw [heq, htheirs] at hmine
    exact (congrArg Prod.fst (Option.some.inj hmine)).symm
  · intro heq
    refine (h.ordered _ hset).ext ((h.ordered m hm).set key val) fun k => ?_
    by_cases hk : caseKey k = caseKey key
    · rw [FieldMap.entry_congr hk, FieldMap.entry_congr hk, hmine, htheirs, heq]
    · rw [h.entry_eq _ hset, FieldMap.entry_set_of_ne _ hk, FieldMap.entry_set_of_ne _ hk,
        h.entry_eq m hm]

/-- Erasing a field in front of filling the map is erasing it behind that, unless the map gets
the field. -/
theorem erase_iff (h : Fills fill) (hm : m.Ordered) :
    fill (m.erase key) = (fill m).erase key ↔ (fill []).find key = none := by
  have herase := hm.erase key
  have hmine : (fill (m.erase key)).entry key = (fill []).entry key := by
    rw [h.entry_eq _ herase, FieldMap.entry_erase_self, Option.none_or]
  rw [FieldMap.find_eq_none_iff, ← hmine]
  constructor
  · intro heq
    rw [heq, FieldMap.entry_erase_self]
  · intro hnone
    refine (h.ordered _ herase).ext ((h.ordered m hm).erase key) fun k => ?_
    by_cases hk : caseKey k = caseKey key
    · rw [FieldMap.entry_congr hk, FieldMap.entry_congr hk, hnone, FieldMap.entry_erase_self]
    · rw [h.entry_eq _ herase, FieldMap.entry_erase_of_ne _ hk, FieldMap.entry_erase_of_ne _ hk,
        h.entry_eq m hm]

end Fills

/-- Erasing a field changes nothing exactly if it is not there. -/
theorem FieldMap.erase_eq_self_iff {m : FieldMap} {key : Text} (hm : m.Ordered) :
    m.erase key = m ↔ m.find key = none := by
  rw [find_eq_none_iff]
  constructor
  · intro heq
    rw [← heq, entry_erase_self]
  · intro hnone
    refine (hm.erase key).ext hm fun k => ?_
    by_cases hk : caseKey k = caseKey key
    · rw [entry_congr hk, entry_congr hk, entry_erase_self, hnone]
    · rw [entry_erase_of_ne m hk]

/-- `insert` adds a field that is not there. -/
theorem insert_fills (key val : Text) : Fills (FieldMap.insert key val) where
  ordered m hm := by
    rw [FieldMap.insert]
    split
    · exact hm
    · exact hm.set key val
  entry_eq m hm k := by
    have hone : (FieldMap.insert key val []).entry k = FieldMap.entry k [(key, val)] := rfl
    rw [hone, FieldMap.insert]
    by_cases hk : caseKey k = caseKey key
    · rw [FieldMap.entry_congr hk, FieldMap.entry_congr hk, FieldMap.entry_congr hk,
        FieldMap.entry_cons_of_eq rfl, FieldMap.find_eq_entry]
      cases hentry : m.entry key with
      | some e => exact hentry
      | none =>
          have hself : (m.set key val).entry key = some (m.spelling key, val) :=
            FieldMap.entry_set_self hm
          rw [FieldMap.spelling, hentry] at hself
          exact hself
    · rw [FieldMap.entry_cons_of_ne hk, show FieldMap.entry k [] = none from rfl, Option.or_none]
      split
      · rfl
      · exact FieldMap.entry_set_of_ne m hk

/-- One round of `PARSE_PARAM`: there is no name, or the last field, or a field and a rest. -/
theorem parseParam_cases (flag : UInt8) (trim : Text → Text) (str : Text) :
    (parseParam flag trim str = fun m => m) ∨
      (∃ key val, parseParam flag trim str = FieldMap.insert key val) ∨
      ∃ key val rest, rest.length < str.length ∧
        parseParam flag trim str = fun m => parseParam flag trim rest (m.insert key val) := by
  cases hkey : str.dropWhile (· != 61) with
  | nil =>
      left
      funext m
      rw [parseParam]
      split
      next => rfl
      next h => simp [hkey] at h
  | cons c value =>
      right
      have hvalue := (List.dropWhile_suffix (l := str) (· != 61)).length_le
      rw [hkey, List.length_cons] at hvalue
      cases hend : value.dropWhile (· != flag) with
      | nil =>
          refine .inl ⟨trim (str.takeWhile (· != 61)),
            urlEncode true (value.takeWhile (· != flag)), ?_⟩
          funext m
          rw [parseParam]
          split
          next h => simp [hkey] at h
          next h =>
            rw [hkey] at h
            rcases List.cons.inj h with ⟨rfl, rfl⟩
            split
            next => rfl
            next h' => simp [hend] at h'
      | cons d rest =>
          have hrest := (List.dropWhile_suffix (l := value) (· != flag)).length_le
          rw [hend, List.length_cons] at hrest
          refine .inr ⟨trim (str.takeWhile (· != 61)),
            urlEncode true (value.takeWhile (· != flag)), rest, by omega, ?_⟩
          funext m
          rw [parseParam]
          split
          next h => simp [hkey] at h
          next h =>
            rw [hkey] at h
            rcases List.cons.inj h with ⟨rfl, rfl⟩
            split
            next h' => simp [hend] at h'
            next h' =>
              rw [hend] at h'
              rcases List.cons.inj h' with ⟨rfl, rfl⟩
              rfl

/-- `PARSE_PARAM` adds the fields that are not there. -/
theorem parseParam_fills (flag : UInt8) (trim : Text → Text) (str : Text) :
    Fills (parseParam flag trim str) := by
  induction hlen : str.length using Nat.strong_induction_on generalizing str with
  | _ n ih =>
      rcases parseParam_cases flag trim str with heq | ⟨key, val, heq⟩
        | ⟨key, val, rest, hless, heq⟩
      · rw [heq]
        exact Fills.id
      · rw [heq]
        exact insert_fills key val
      · rw [heq]
        exact (ih rest.length (hlen ▸ hless) rest rfl).comp (insert_fills key val)

/-! ## The request -/

/-- `HTTPRequest` with the members for parameters and cookies. -/
structure ParamRequest where
  request : HTTPRequest
  parserParamFlag : UInt8
  params : FieldMap
  cookies : FieldMap

namespace ParamRequest

/-- A request that was received: nothing is parsed. -/
def received (r : HTTPRequest) : ParamRequest := ⟨r, 0, [], []⟩

/-- `strcasestr(haystack, needle) != nullptr` -/
def strcasestr (haystack needle : Text) : Bool := decide (caseKey needle <:+: caseKey haystack)

/-- `"application/x-www-form-urlencoded"` -/
def formUrlencoded : Text :=
  text ['a', 'p', 'p', 'l', 'i', 'c', 'a', 't', 'i', 'o', 'n', '/', 'x', '-', 'w', 'w', 'w',
    '-', 'f', 'o', 'r', 'm', '-', 'u', 'r', 'l', 'e', 'n', 'c', 'o', 'd', 'e', 'd']

/-- `init_query_param()` -/
def initQueryParam (s : ParamRequest) : ParamRequest :=
  if s.parserParamFlag &&& 0x1 ≠ 0 then s
  else
    { s with
      params := parseParam 38 id s.request.query s.params
      parserParamFlag := s.parserParamFlag ||| 0x1 }

/-- `init_body_param()` -/
def initBodyParam (s : ParamRequest) : ParamRequest :=
  if s.parserParamFlag &&& 0x2 ≠ 0 then s
  else
    let contentType := s.request.getHeader
      (text ['c', 'o', 'n', 't', 'e', 'n', 't', '-', 't', 'y', 'p', 'e'])
    if !strcasestr contentType formUrlencoded then
      { s with parserParamFlag := s.parserParamFlag ||| 0x2 }
    else
      { s with
        params := parseParam 38 id s.request.body s.params
        parserParamFlag := s.parserParamFlag ||| 0x2 }

/-- `init_cookies()` -/
def initCookies (s : ParamRequest) : ParamRequest :=
  if s.parserParamFlag &&& 0x4 ≠ 0 then s
  else
    let cookie := s.request.getHeader (text ['c', 'o', 'o', 'k', 'i', 'e'])
    if cookie.isEmpty then { s with parserParamFlag := s.parserParamFlag ||| 0x4 }
    else
      { s with
        cookies := parseParam 59 trim cookie s.cookies
        parserParamFlag := s.parserParamFlag ||| 0x4 }

/-- `init_param()` -/
def initParam (s : ParamRequest) : ParamRequest := s.initQueryParam.initBodyParam.initCookies

end ParamRequest

/-- The accessors for parameters and cookies. -/
inductive Accessor
  | getParams
  | getParam (key dflt : Text)
  | hasParam (key : Text)
  | setParam (key val : Text)
  | delParam (key : Text)
  | getCookies
  | getCookie (key dflt : Text)
  | hasCookie (key : Text)
  | setCookie (key val : Text)
  | delCookie (key : Text)

/-- What an accessor returns. -/
inductive Answer
  | fields (m : FieldMap)
  | value (v : Text)
  | found (b : Bool)
  | nothing
deriving DecidableEq

/-- One accessor on the request. -/
def ParamRequest.access (s : ParamRequest) : Accessor → Answer × ParamRequest
  | .getParams =>
      let s := s.initQueryParam.initBodyParam
      (.fields s.params, s)
  | .getParam key dflt =>
      let s := s.initQueryParam.initBodyParam
      (.value ((s.params.find key).getD dflt), s)
  | .hasParam key =>
      let s := s.initQueryParam.initBodyParam
      (.found (s.params.find key).isSome, s)
  | .setParam key val => (.nothing, { s with params := s.params.set key val })
  | .delParam key => (.nothing, { s with params := s.params.erase key })
  | .getCookies =>
      let s := s.initCookies
      (.fields s.cookies, s)
  | .getCookie key dflt =>
      let s := s.initCookies
      (.value ((s.cookies.find key).getD dflt), s)
  | .hasCookie key =>
      let s := s.initCookies
      (.found (s.cookies.find key).isSome, s)
  | .setCookie key val => (.nothing, { s with cookies := s.cookies.set key val })
  | .delCookie key =>
      -- the source erases the cookie when it is not there
      (.nothing, if (s.cookies.find key).isNone then { s with cookies := s.cookies.erase key }
        else s)

/-! ## The full maps -/

/-- What the accessors are for: two maps. -/
structure Maps where
  params : FieldMap
  cookies : FieldMap

namespace Maps

/-- The maps of a request, filled before the first access. -/
def full (r : HTTPRequest) : Maps :=
  ⟨(ParamRequest.received r).initParam.params, (ParamRequest.received r).initParam.cookies⟩

/-- One accessor on the maps. -/
def access (t : Maps) : Accessor → Answer × Maps
  | .getParams => (.fields t.params, t)
  | .getParam key dflt => (.value ((t.params.find key).getD dflt), t)
  | .hasParam key => (.found (t.params.find key).isSome, t)
  | .setParam key val => (.nothing, { t with params := t.params.set key val })
  | .delParam key => (.nothing, { t with params := t.params.erase key })
  | .getCookies => (.fields t.cookies, t)
  | .getCookie key dflt => (.value ((t.cookies.find key).getD dflt), t)
  | .hasCookie key => (.found (t.cookies.find key).isSome, t)
  | .setCookie key val => (.nothing, { t with cookies := t.cookies.set key val })
  | .delCookie key => (.nothing, { t with cookies := t.cookies.erase key })

end Maps

namespace ParamRequest

variable {s : ParamRequest} {key val : Text}

/-- The parameters that a getter would see. -/
def seenParams (s : ParamRequest) : FieldMap := s.initQueryParam.initBodyParam.params

/-- The cookies that a getter would see. -/
def seenCookies (s : ParamRequest) : FieldMap := s.initCookies.cookies

/-- The parameters of the query and the form that are still to be parsed. -/
def pendingParams (s : ParamRequest) : FieldMap := { s with params := [] }.seenParams

/-- The cookies of the header that are still to be parsed. -/
def pendingCookies (s : ParamRequest) : FieldMap := { s with cookies := [] }.seenCookies

/-- The setters name a field as the map does, or as what is still to be parsed; the deletions
do not name a field that is still to be parsed, and `del_cookie` no cookie at all. -/
def Meets (s : ParamRequest) : Accessor → Prop
  | .setParam key _ => (s.params.find key).isSome = true ∨ s.pendingParams.spelling key = key
  | .delParam key => s.pendingParams.find key = none
  | .setCookie key _ => (s.cookies.find key).isSome = true ∨ s.pendingCookies.spelling key = key
  | .delCookie key => s.cookies.find key = none ∧ s.pendingCookies.find key = none
  | _ => True

/-! ## Filling the maps of a request -/

/-- Parsing the query fills the parameters. -/
theorem initQueryParam_fills (s : ParamRequest) :
    Fills fun m => { s with params := m }.initQueryParam.params := by
  simp only [initQueryParam]
  by_cases hflag : s.parserParamFlag &&& 0x1 ≠ 0
  · simp only [if_pos hflag]
    exact Fills.id
  · simp only [if_neg hflag]
    exact parseParam_fills _ _ _

/-- Parsing the body fills the parameters. -/
theorem initBodyParam_fills (s : ParamRequest) :
    Fills fun m => { s with params := m }.initBodyParam.params := by
  simp only [initBodyParam]
  by_cases hflag : s.parserParamFlag &&& 0x2 ≠ 0
  · simp only [if_pos hflag]
    exact Fills.id
  · simp only [if_neg hflag, apply_ite params]
    apply Fills.id.ite
    exact parseParam_fills _ _ _

/-- A getter adds the parameters that are still to be parsed. -/
theorem seenParams_fills (s : ParamRequest) : Fills fun m => { s with params := m }.seenParams := by
  have hsplit : ∀ m, { s with params := m }.initQueryParam =
      { s.initQueryParam with params := { s with params := m }.initQueryParam.params } := by
    intro m
    simp only [initQueryParam]
    split <;> rfl
  have hseen : (fun m => { s with params := m }.seenParams) = fun m =>
      { s.initQueryParam with
        params := { s with params := m }.initQueryParam.params }.initBodyParam.params := by
    funext m
    rw [seenParams, hsplit]
  rw [hseen]
  exact (initBodyParam_fills s.initQueryParam).comp (initQueryParam_fills s)

/-- A getter adds the cookies that are still to be parsed. -/
theorem seenCookies_fills (s : ParamRequest) :
    Fills fun m => { s with cookies := m }.seenCookies := by
  simp only [seenCookies, initCookies]
  by_cases hflag : s.parserParamFlag &&& 0x4 ≠ 0
  · simp only [if_pos hflag]
    exact Fills.id
  · simp only [if_neg hflag, apply_ite cookies]
    apply Fills.id.ite
    exact parseParam_fills _ _ _

/-! ## Getters -/

/-- Each flag is set by its bit. -/
private theorem flags_set : ∀ n < 256,
    (UInt8.ofNat n ||| 0x1) &&& 0x1 ≠ 0 ∧ (UInt8.ofNat n ||| 0x2) &&& 0x2 ≠ 0 ∧
      (UInt8.ofNat n ||| 0x4) &&& 0x4 ≠ 0 := by
  decide +kernel

/-- Setting one flag keeps the others. -/
private theorem flags_kept : ∀ n < 256,
    ((UInt8.ofNat n ||| 0x1) &&& 0x2 = UInt8.ofNat n &&& 0x2 ∧
      (UInt8.ofNat n ||| 0x1) &&& 0x4 = UInt8.ofNat n &&& 0x4) ∧
    ((UInt8.ofNat n ||| 0x2) &&& 0x1 = UInt8.ofNat n &&& 0x1 ∧
      (UInt8.ofNat n ||| 0x2) &&& 0x4 = UInt8.ofNat n &&& 0x4) ∧
    ((UInt8.ofNat n ||| 0x4) &&& 0x1 = UInt8.ofNat n &&& 0x1 ∧
      (UInt8.ofNat n ||| 0x4) &&& 0x2 = UInt8.ofNat n &&& 0x2) := by
  decide +kernel

/-- What `init_query_param` does not touch. -/
theorem initQueryParam_frame (s : ParamRequest) :
    s.initQueryParam.request = s.request ∧ s.initQueryParam.cookies = s.cookies ∧
      s.initQueryParam.parserParamFlag &&& 0x1 ≠ 0 ∧
      s.initQueryParam.parserParamFlag &&& 0x2 = s.parserParamFlag &&& 0x2 ∧
      s.initQueryParam.parserParamFlag &&& 0x4 = s.parserParamFlag &&& 0x4 := by
  have hset := flags_set _ s.parserParamFlag.toNat_lt
  have hkept := flags_kept _ s.parserParamFlag.toNat_lt
  rw [UInt8.ofNat_toNat] at hset hkept
  rw [initQueryParam]
  split
  next hflag => exact ⟨rfl, rfl, hflag, rfl, rfl⟩
  next => exact ⟨rfl, rfl, hset.1, hkept.1⟩

/-- What `init_body_param` does not touch. -/
theorem initBodyParam_frame (s : ParamRequest) :
    s.initBodyParam.request = s.request ∧ s.initBodyParam.cookies = s.cookies ∧
      s.initBodyParam.parserParamFlag &&& 0x2 ≠ 0 ∧
      s.initBodyParam.parserParamFlag &&& 0x1 = s.parserParamFlag &&& 0x1 ∧
      s.initBodyParam.parserParamFlag &&& 0x4 = s.parserParamFlag &&& 0x4 := by
  have hset := flags_set _ s.parserParamFlag.toNat_lt
  have hkept := flags_kept _ s.parserParamFlag.toNat_lt
  rw [UInt8.ofNat_toNat] at hset hkept
  simp only [initBodyParam]
  split
  next hflag => exact ⟨rfl, rfl, hflag, rfl, rfl⟩
  next =>
    split
    · exact ⟨rfl, rfl, hset.2.1, hkept.2.1⟩
    · exact ⟨rfl, rfl, hset.2.1, hkept.2.1⟩

/-- What `init_cookies` does not touch. -/
theorem initCookies_frame (s : ParamRequest) :
    s.initCookies.request = s.request ∧ s.initCookies.params = s.params ∧
      s.initCookies.parserParamFlag &&& 0x4 ≠ 0 ∧
      s.initCookies.parserParamFlag &&& 0x1 = s.parserParamFlag &&& 0x1 ∧
      s.initCookies.parserParamFlag &&& 0x2 = s.parserParamFlag &&& 0x2 := by
  have hset := flags_set _ s.parserParamFlag.toNat_lt
  have hkept := flags_kept _ s.parserParamFlag.toNat_lt
  rw [UInt8.ofNat_toNat] at hset hkept
  simp only [initCookies]
  split
  next hflag => exact ⟨rfl, rfl, hflag, rfl, rfl⟩
  next =>
    split
    · exact ⟨rfl, rfl, hset.2.2, hkept.2.2⟩
    · exact ⟨rfl, rfl, hset.2.2, hkept.2.2⟩

/-- The cookies that a getter sees depend on the third flag only. -/
theorem seenCookies_congr {s s' : ParamRequest} (hrequest : s'.request = s.request)
    (hcookies : s'.cookies = s.cookies)
    (hflag : s'.parserParamFlag &&& 0x4 = s.parserParamFlag &&& 0x4) :
    s'.seenCookies = s.seenCookies := by
  simp only [seenCookies, initCookies, hrequest, hcookies, hflag, apply_ite cookies]

/-- The parameters that a getter sees depend on the first two flags only. -/
theorem seenParams_congr {s s' : ParamRequest} (hrequest : s'.request = s.request)
    (hparams : s'.params = s.params)
    (hquery : s'.parserParamFlag &&& 0x1 = s.parserParamFlag &&& 0x1)
    (hbody : s'.parserParamFlag &&& 0x2 = s.parserParamFlag &&& 0x2) :
    s'.seenParams = s.seenParams := by
  have hfirst : s'.initQueryParam.params = s.initQueryParam.params := by
    simp only [initQueryParam, hrequest, hparams, hquery, apply_ite params]
  have hflag : s'.initQueryParam.parserParamFlag &&& 0x2 =
      s.initQueryParam.parserParamFlag &&& 0x2 := by
    rw [(initQueryParam_frame s').2.2.2.1, (initQueryParam_frame s).2.2.2.1, hbody]
  have hsame : s'.initQueryParam.request = s.initQueryParam.request := by
    rw [(initQueryParam_frame s').1, (initQueryParam_frame s).1, hrequest]
  simp only [seenParams, initBodyParam, hsame, hfirst, hflag, apply_ite params]

/-- A getter of parameters changes nothing that a later getter sees. -/
theorem seen_initParams (s : ParamRequest) :
    s.initQueryParam.initBodyParam.seenParams = s.seenParams ∧
      s.initQueryParam.initBodyParam.seenCookies = s.seenCookies := by
  rcases initQueryParam_frame s with ⟨hrequest, hcookies, hparsed, -, hflag⟩
  rcases initBodyParam_frame s.initQueryParam with ⟨hrequest', hcookies', hparsed', hkept, hflag'⟩
  constructor
  · rw [← hkept] at hparsed
    rw [seenParams, initQueryParam, if_pos hparsed, initBodyParam, if_pos hparsed', seenParams]
  · exact seenCookies_congr (hrequest'.trans hrequest) (hcookies'.trans hcookies)
      (hflag'.trans hflag)

/-- A getter of cookies changes nothing that a later getter sees. -/
theorem seen_initCookies (s : ParamRequest) :
    s.initCookies.seenParams = s.seenParams ∧ s.initCookies.seenCookies = s.seenCookies := by
  rcases initCookies_frame s with ⟨hrequest, hparams, hparsed, hquery, hbody⟩
  constructor
  · exact seenParams_congr hrequest hparams hquery hbody
  · rw [seenCookies, initCookies, if_pos hparsed, seenCookies]

/-! ## The maps that getters see -/

/-- The maps that the getters see. -/
def seen (s : ParamRequest) : Maps := ⟨s.seenParams, s.seenCookies⟩

/-- A request sees the full maps. -/
theorem seen_received (r : HTTPRequest) : (received r).seen = Maps.full r := by
  rcases initCookies_frame (received r).initQueryParam.initBodyParam with ⟨-, hparams, -⟩
  rw [seen, Maps.full, initParam, hparams, ← (seen_initParams (received r)).2]
  rfl

/-- The maps of the request are ordered. -/
structure Ordered (s : ParamRequest) : Prop where
  params : s.params.Ordered
  cookies : s.cookies.Ordered

/-- Parsing the parameters keeps the maps ordered. -/
theorem Ordered.initParams (h : s.Ordered) : s.initQueryParam.initBodyParam.Ordered where
  params := (seenParams_fills s).ordered s.params h.params
  cookies := by
    rw [(initBodyParam_frame _).2.1, (initQueryParam_frame s).2.1]
    exact h.cookies

/-- Parsing the cookies keeps the maps ordered. -/
theorem Ordered.initCookies (h : s.Ordered) : s.initCookies.Ordered where
  params := by
    rw [(initCookies_frame s).2.1]
    exact h.params
  cookies := (seenCookies_fills s).ordered s.cookies h.cookies

/-- An access keeps the maps ordered. -/
theorem Ordered.access (h : s.Ordered) (a : Accessor) : (s.access a).2.Ordered := by
  cases a with
  | getParams | getParam key dflt | hasParam key => exact h.initParams
  | getCookies | getCookie key dflt | hasCookie key => exact h.initCookies
  | setParam key val => exact ⟨h.params.set key val, h.cookies⟩
  | delParam key => exact ⟨h.params.erase key, h.cookies⟩
  | setCookie key val => exact ⟨h.params, h.cookies.set key val⟩
  | delCookie key =>
      simp only [ParamRequest.access]
      split
      · exact ⟨h.params, h.cookies.erase key⟩
      · exact h

/-- An accessor answers as the maps that the getters see. -/
theorem access_answer (s : ParamRequest) (a : Accessor) : (s.access a).1 = (s.seen.access a).1 := by
  cases a <;> rfl

/-- The getters see the change of an accessor exactly if it meets its condition. -/
theorem access_seen_iff (h : s.Ordered) (a : Accessor) :
    (s.access a).2.seen = (s.seen.access a).2 ↔ s.Meets a := by
  have hiff : ∀ {t t' : Maps}, t = t' ↔ t.params = t'.params ∧ t.cookies = t'.cookies := by
    rintro ⟨p, c⟩ ⟨p', c'⟩
    simp
  rw [hiff]
  cases a with
  | getParams | getParam key dflt | hasParam key =>
      exact iff_of_true (seen_initParams s) trivial
  | getCookies | getCookie key dflt | hasCookie key =>
      exact iff_of_true (seen_initCookies s) trivial
  | setParam key val =>
      refine (and_iff_left ?_).trans ((seenParams_fills s).set_iff h.params)
      exact seenCookies_congr rfl rfl rfl
  | delParam key =>
      refine (and_iff_left ?_).trans ((seenParams_fills s).erase_iff h.params)
      exact seenCookies_congr rfl rfl rfl
  | setCookie key val =>
      refine (and_iff_right ?_).trans ((seenCookies_fills s).set_iff h.cookies)
      exact seenParams_congr rfl rfl rfl rfl
  | delCookie key =>
      -- the cookies stay as they are: what is erased is not there
      have hsame : (s.access (.delCookie key)).2 = s := by
        simp only [access]
        split
        next hnone =>
          rw [(FieldMap.erase_eq_self_iff h.cookies).mpr (Option.isNone_iff_eq_none.mp hnone)]
        next => rfl
      have hseen := seenCookies_fills s
      rw [hsame]
      refine (and_iff_right rfl).trans (eq_comm.trans ?_)
      refine (FieldMap.erase_eq_self_iff (hseen.ordered s.cookies h.cookies)).trans ?_
      rw [FieldMap.find_eq_none_iff, hseen.entry_eq s.cookies h.cookies, Option.or_eq_none_iff,
        ← FieldMap.find_eq_none_iff, ← FieldMap.find_eq_none_iff]
      rfl

theorem received_ordered (r : HTTPRequest) : (received r).Ordered :=
  ⟨List.Pairwise.nil, List.Pairwise.nil⟩

end ParamRequest

/-- Maps that answer alike are equal. -/
theorem Maps.eq_of_answers {t t' : Maps} (h : ∀ a, (t.access a).1 = (t'.access a).1) : t = t' := by
  obtain ⟨params, cookies⟩ := t
  obtain ⟨params', cookies'⟩ := t'
  have hparams : Answer.fields params = Answer.fields params' := h .getParams
  have hcookies : Answer.fields cookies = Answer.fields cookies' := h .getCookies
  rw [Answer.fields.inj hparams, Answer.fields.inj hcookies]

/-- On every request that was received, a sequence of accessors and any further accessor on the
way answer as on the full maps exactly if all of the sequence meet their conditions. -/
theorem unobservable_iff (r : HTTPRequest) (as : List Accessor) :
    AnswersAlike ParamRequest.access Maps.access (ParamRequest.received r) (Maps.full r) as ↔
      AllMeets (fun s a => (s.access a).2) ParamRequest.Meets (ParamRequest.received r) as := by
  rw [← ParamRequest.seen_received]
  exact answersAlike_iff_allMeets ParamRequest.seen (fun _ a hs => hs.access a)
    ParamRequest.access_answer (fun _ _ h => Maps.eq_of_answers h)
    (fun _ a hs => ParamRequest.access_seen_iff hs a) as (ParamRequest.received_ordered r)

/-- A request with the query `a=1`. -/
def queryRequest : HTTPRequest := { HTTPRequest.fresh with query := text ['a', '=', '1'] }

/-- A parameter that is deleted before the first getter is still there. -/
theorem unobservable_fails :
    (run ParamRequest.access (ParamRequest.received queryRequest)
        [.delParam (text ['a']), .hasParam (text ['a'])]).1 = [.nothing, .found true] ∧
      (run Maps.access (Maps.full queryRequest)
        [.delParam (text ['a']), .hasParam (text ['a'])]).1 = [.nothing, .found false] ∧
      ¬AnswersAlike ParamRequest.access Maps.access (ParamRequest.received queryRequest)
        (Maps.full queryRequest) [.delParam (text ['a'])] := by
  have hmine : (run ParamRequest.access (ParamRequest.received queryRequest)
      [.delParam (text ['a']), .hasParam (text ['a'])]).1 = [.nothing, .found true] := by
    decide +kernel
  have hfull : (run Maps.access (Maps.full queryRequest)
      [.delParam (text ['a']), .hasParam (text ['a'])]).1 = [.nothing, .found false] := by
    decide +kernel
  refine ⟨hmine, hfull, ?_⟩
  intro h
  have hsame := h 1 (.hasParam (text ['a']))
  change (run ParamRequest.access _ [.delParam (text ['a']), .hasParam (text ['a'])]).1 =
    (run Maps.access _ [.delParam (text ['a']), .hasParam (text ['a'])]).1 at hsame
  rw [hmine, hfull] at hsame
  cases hsame

end Http
end Tiger
