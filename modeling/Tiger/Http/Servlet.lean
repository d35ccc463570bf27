import Tiger.Lib.Loop
import Mathlib.Data.List.Basic
import Mathlib.Data.List.Nodup

/-!
# Dispatching to servlets

`ServletDispatch` (`src/servers/http/http_servlet.cc`) keeps servlets for exact paths and a
list of servlets for patterns.  Each of its four loops over the list reads an entry and never
advances its iterator, so a loop that does not find what it looks for at the first entry
does not end.

Main results:

- Theorem `getMatchedServlet_returns_iff`: when the lookup for a path ends, and with what.
- Theorem `lookup_correct_iff`: when both lookups find the right servlet.
- Theorem `globs_law_iff`: a sequence of registrations keeps the law of the list exactly if no
  call names a pattern while another one is registered.
-/

namespace Tiger
namespace Http

open Lib

/-- A `ServletDispatch`; a servlet is a pointer, `none` for null. -/
structure ServletDispatch (S : Type) where
  /-- `m_datas` -/
  datas : String → Option (Option S)
  /-- `m_globs` -/
  globs : List (String × Option S)
  /-- `m_default_servlet` -/
  defaultServlet : Option S

namespace ServletDispatch

variable {S : Type}

/-- A new dispatcher. -/
def new (notFound : S) : ServletDispatch S := ⟨fun _ => none, [], some notFound⟩

variable (d : ServletDispatch S)

/-- `add_servlet`. -/
def addServlet (path : String) (slt : Option S) : ServletDispatch S :=
  { d with datas := fun q => if q = path then some slt else d.datas q }

/-- `del_servlet`. -/
def delServlet (path : String) : ServletDispatch S :=
  { d with datas := fun q => if q = path then none else d.datas q }

/-- `set_default_servlet`. -/
def setDefaultServlet (slt : Option S) : ServletDispatch S := { d with defaultServlet := slt }

/-- A round of `add_glob_servlet` with its iterator, which is `end` where there is no entry.
Erasing moves the following entries to the place the iterator points to. -/
def addGlobBody (path : String) (s : List (String × Option S) × Nat) :
    (List (String × Option S) × Nat) ⊕ List (String × Option S) :=
  match s.1[s.2]? with
  | none => .inr s.1
  | some entry => if entry.1 = path then .inl (s.1.eraseIdx s.2, s.2) else .inl s

/-- `add_glob_servlet`, both overloads, after a number of rounds. -/
def addGlobServlet (path : String) (slt : Option S) (rounds : Nat) : Option (ServletDispatch S) :=
  (loop (addGlobBody path) rounds (d.globs, 0)).map fun globs =>
    { d with globs := globs ++ [(path, slt)] }

/-- A round of `del_glob_servlet`. -/
def delGlobBody (path : String) (s : List (String × Option S) × Nat) :
    (List (String × Option S) × Nat) ⊕ List (String × Option S) :=
  match s.1[s.2]? with
  | none => .inr s.1
  | some entry => if entry.1 = path then .inr (s.1.eraseIdx s.2) else .inl s

/-- `del_glob_servlet` after a number of rounds. -/
def delGlobServlet (path : String) (rounds : Nat) : Option (ServletDispatch S) :=
  (loop (delGlobBody path) rounds (d.globs, 0)).map fun globs => { d with globs := globs }

/-- A round of a lookup in `m_globs`, which leaves at an entry with a suitable pattern. -/
def lookupBody (suits : String → Bool) (globs : List (String × Option S)) (missing : Option S)
    (it : Nat) : Nat ⊕ Option S :=
  match globs[it]? with
  | none => .inr missing
  | some entry => if suits entry.1 then .inr entry.2 else .inl it

/-- `get_servlet`. -/
def getServlet (path : String) : Option S := (d.datas path).getD none

/-- `get_glob_servlet` after a number of rounds. -/
def getGlobServlet (path : String) (rounds : Nat) : Option (Option S) :=
  loop (lookupBody (fun pattern => decide (pattern = path)) d.globs none) rounds 0

/-- `get_matched_servlet` after a number of rounds; `fnmatch pattern path` says that the C
function of that name returns 0. -/
def getMatchedServlet (fnmatch : String → String → Bool) (path : String) (rounds : Nat) :
    Option (Option S) :=
  match d.datas path with
  | some slt => some slt
  | none =>
      loop (lookupBody (fun pattern => fnmatch pattern path) d.globs d.defaultServlet) rounds 0

/-- `handle` after a number of rounds: the servlet whose `handle` it calls. -/
def handle (fnmatch : String → String → Bool) (path : String) (rounds : Nat) : Option (List S) :=
  (d.getMatchedServlet fnmatch path rounds).map Option.toList

end ServletDispatch

open ServletDispatch

variable {S : Type}

/-! ## Lookups -/

/-- A lookup in `m_globs` ends in its first round or never. -/
theorem lookup_exits_iff (suits : String → Bool) (globs : List (String × Option S))
    (missing r : Option S) :
    Exits (lookupBody suits globs missing) 0 r ↔
      (globs = [] ∧ missing = r) ∨
        ∃ entry rest, globs = entry :: rest ∧ suits entry.1 = true ∧ entry.2 = r := by
  cases globs with
  | nil =>
      rw [exits_of_leave (r := missing) (by simp [lookupBody])]
      simp
  | cons entry rest =>
      by_cases hsuits : suits entry.1 = true
      · rw [exits_of_leave (r := entry.2) (by simp [lookupBody, hsuits])]
        simp [hsuits]
      · have hstuck : ¬Exits (lookupBody suits (entry :: rest) missing) 0 r :=
          not_exits_of_stuck (by simp [lookupBody, hsuits])
        simp [hstuck, hsuits]

/-- `get_glob_servlet` ends with a result. -/
theorem getGlobServlet_returns_iff {d : ServletDispatch S} {path : String} {r : Option S} :
    (∃ rounds, d.getGlobServlet path rounds = some r) ↔
      (d.globs = [] ∧ r = none) ∨
        ∃ entry rest, d.globs = entry :: rest ∧ entry.1 = path ∧ entry.2 = r := by
  have h := lookup_exits_iff (fun pattern => decide (pattern = path)) d.globs none r
  simp only [decide_eq_true_eq, eq_comm (a := (none : Option S))] at h
  exact h

/-- `get_matched_servlet` ends with a result. -/
theorem getMatchedServlet_returns_iff {d : ServletDispatch S} {fnmatch : String → String → Bool}
    {path : String} {r : Option S} :
    (∃ rounds, d.getMatchedServlet fnmatch path rounds = some r) ↔
      d.datas path = some r ∨ d.datas path = none ∧
        ((d.globs = [] ∧ d.defaultServlet = r) ∨
          ∃ entry rest, d.globs = entry :: rest ∧ fnmatch entry.1 path = true ∧ entry.2 = r) := by
  cases hexact : d.datas path with
  | some slt => simp [getMatchedServlet, hexact]
  | none =>
      have h := lookup_exits_iff (fun pattern => fnmatch pattern path) d.globs d.defaultServlet r
      rw [← h]
      simp [getMatchedServlet, hexact, Exits]

namespace ServletDispatch

/-- The servlet a path is meant for: the one of the exact path, else that of the first pattern
that matches, else the default. -/
def matchedServlet (d : ServletDispatch S) (fnmatch : String → String → Bool) (path : String) :
    Option S :=
  match d.datas path with
  | some slt => slt
  | none =>
      match d.globs.find? fun entry => fnmatch entry.1 path with
      | some entry => entry.2
      | none => d.defaultServlet

/-- The servlet that is registered under a pattern. -/
def globServlet (d : ServletDispatch S) (pattern : String) : Option S :=
  (d.globs.find? fun entry => decide (entry.1 = pattern)).elim none Prod.snd

end ServletDispatch

/-- `get_matched_servlet` finds the right servlet when it does not have to go past the first
pattern. -/
theorem getMatchedServlet_correct_iff (d : ServletDispatch S) (fnmatch : String → String → Bool)
    (path : String) :
    (∃ rounds, d.getMatchedServlet fnmatch path rounds = some (d.matchedServlet fnmatch path)) ↔
      (d.datas path).isSome = true ∨
        d.globs.head?.all (fun entry => fnmatch entry.1 path) = true := by
  rw [getMatchedServlet_returns_iff, matchedServlet]
  cases hexact : d.datas path with
  | some slt => simp
  | none =>
      cases hglobs : d.globs with
      | nil => simp
      | cons entry rest =>
          by_cases hmatch : fnmatch entry.1 path = true
          · simp [hmatch]
          · simp [hmatch]

/-- `get_glob_servlet` finds the right servlet when it does not have to go past the first
pattern. -/
theorem getGlobServlet_correct_iff (d : ServletDispatch S) (pattern : String) :
    (∃ rounds, d.getGlobServlet pattern rounds = some (d.globServlet pattern)) ↔
      d.globs.head?.all (fun entry => decide (entry.1 = pattern)) = true := by
  rw [getGlobServlet_returns_iff, globServlet]
  cases hglobs : d.globs with
  | nil => simp
  | cons entry rest =>
      by_cases hmatch : entry.1 = pattern
      · simp [hmatch]
      · simp [hmatch]

/-- Both lookups end with the right servlet exactly if there is an entry for the path itself
or the first pattern, if any, matches, and the first pattern, if any, is the one asked for. -/
theorem lookup_correct_iff (d : ServletDispatch S) (fnmatch : String → String → Bool)
    (path pattern : String) :
    ((∃ rounds, d.getMatchedServlet fnmatch path rounds = some (d.matchedServlet fnmatch path)) ∧
      ∃ rounds, d.getGlobServlet pattern rounds = some (d.globServlet pattern)) ↔
    ((d.datas path).isSome = true ∨
        d.globs.head?.all (fun entry => fnmatch entry.1 path) = true) ∧
      d.globs.head?.all (fun entry => decide (entry.1 = pattern)) = true := by
  rw [getMatchedServlet_correct_iff, getGlobServlet_correct_iff]

/-- With one pattern registered, a path that it does not match is looked up for ever. -/
theorem lookup_diverges :
    ∃ d : ServletDispatch Nat,
      (ServletDispatch.new 0).addGlobServlet "/a" (some 1) 1 = some d ∧
      (∀ rounds, d.getMatchedServlet (fun pattern path => decide (pattern = path)) "/b" rounds =
        none) ∧
      ∀ rounds, d.getGlobServlet "/b" rounds = none := by
  refine ⟨_, rfl, ?_, ?_⟩
  · intro rounds
    rw [Option.eq_none_iff_forall_ne_some]
    intro r hr
    have h := getMatchedServlet_returns_iff.mp ⟨rounds, hr⟩
    simp [ServletDispatch.new] at h
  · intro rounds
    rw [Option.eq_none_iff_forall_ne_some]
    intro r hr
    have h := getGlobServlet_returns_iff.mp ⟨rounds, hr⟩
    simp [ServletDispatch.new] at h

/-- `handle` calls the servlet of the lookup. -/
theorem handle_returns_iff {d : ServletDispatch S} {fnmatch : String → String → Bool}
    {path : String} {called : List S} :
    (∃ rounds, d.handle fnmatch path rounds = some called) ↔
      ∃ slt, (∃ rounds, d.getMatchedServlet fnmatch path rounds = some slt) ∧
        slt.toList = called := by
  constructor
  · rintro ⟨rounds, h⟩
    rcases Option.map_eq_some_iff.mp h with ⟨slt, hslt, hcalled⟩
    exact ⟨slt, ⟨rounds, hslt⟩, hcalled⟩
  · rintro ⟨slt, ⟨rounds, hslt⟩, hcalled⟩
    exact ⟨rounds, Option.map_eq_some_iff.mpr ⟨slt, hslt, hcalled⟩⟩

/-! ## Registrations -/

/-- The loop of `add_glob_servlet` ends when it can erase all there is. -/
theorem addGlobBody_exits_iff {path : String} {globs globs' : List (String × Option S)} :
    Exits (addGlobBody path) (globs, 0) globs' ↔
      (∀ entry ∈ globs, entry.1 = path) ∧ globs' = [] := by
  induction globs with
  | nil =>
      rw [exits_of_leave (r := []) (by simp [addGlobBody])]
      simp [eq_comm]
  | cons entry rest ih =>
      by_cases hpath : entry.1 = path
      · have hnext : addGlobBody path (entry :: rest, 0) = .inl (rest, 0) := by
          simp [addGlobBody, hpath]
        rw [exits_iff_of_next hnext, ih]
        simp [hpath]
      · have hstuck : ¬Exits (addGlobBody path) (entry :: rest, 0) globs' :=
          not_exits_of_stuck (by simp [addGlobBody, hpath])
        simp [hstuck, hpath]

/-- The loop of `del_glob_servlet` ends at the first entry or never. -/
theorem delGlobBody_exits_iff {path : String} {globs globs' : List (String × Option S)} :
    Exits (delGlobBody path) (globs, 0) globs' ↔
      globs.head?.all (fun entry => decide (entry.1 = path)) = true ∧ globs' = globs.tail := by
  cases globs with
  | nil =>
      rw [exits_of_leave (r := []) (by simp [delGlobBody])]
      simp [eq_comm]
  | cons entry rest =>
      by_cases hpath : entry.1 = path
      · rw [exits_of_leave (r := rest) (by simp [delGlobBody, hpath])]
        simp [hpath, eq_comm]
      · have hstuck : ¬Exits (delGlobBody path) (entry :: rest, 0) globs' :=
          not_exits_of_stuck (by simp [delGlobBody, hpath])
        simp [hstuck, hpath]

/-- The calls that change `m_globs`. -/
inductive GlobCmd (S : Type)
  | addGlob (path : String) (slt : Option S)
  | delGlob (path : String)

namespace GlobCmd

/-- The pattern a call names. -/
def path : GlobCmd S → String
  | addGlob path _ => path
  | delGlob path => path

/-- What is registered under that pattern afterwards. -/
def servlet : GlobCmd S → Option (Option S)
  | addGlob _ slt => some slt
  | delGlob _ => none

/-- A call after a number of rounds. -/
def exec (c : GlobCmd S) (d : ServletDispatch S) (rounds : Nat) : Option (ServletDispatch S) :=
  match c with
  | addGlob path slt => d.addGlobServlet path slt rounds
  | delGlob path => d.delGlobServlet path rounds

/-- The call ends and leaves this dispatcher. -/
def Calls (c : GlobCmd S) (d d' : ServletDispatch S) : Prop := ∃ rounds, c.exec d rounds = some d'

end GlobCmd

/-- A new dispatcher and calls that have ended. -/
inductive GlobRuns (notFound : S) : List (GlobCmd S) → ServletDispatch S → Prop
  | nil : GlobRuns notFound [] (ServletDispatch.new notFound)
  | snoc {pre : List (GlobCmd S)} {c : GlobCmd S} {d d' : ServletDispatch S} :
      GlobRuns notFound pre d → c.Calls d d' → GlobRuns notFound (pre ++ [c]) d'

/-- The servlet of the last call that names the pattern, if that call adds one. -/
def registeredGlob (cmds : List (GlobCmd S)) (pattern : String) : Option (Option S) :=
  cmds.foldl (fun slt c => if c.path = pattern then c.servlet else slt) none

/-- The last command on a pattern decides what is registered for it. -/
@[simp]
theorem registeredGlob_snoc (pre : List (GlobCmd S)) (c : GlobCmd S) (pattern : String) :
    registeredGlob (pre ++ [c]) pattern =
      if c.path = pattern then c.servlet else registeredGlob pre pattern := by
  rw [registeredGlob, List.foldl_append]
  rfl

/-- `add_glob` returns when no other pattern is registered. -/
theorem addGlob_calls_iff {path : String} {slt : Option S} {d d' : ServletDispatch S} :
    (GlobCmd.addGlob path slt).Calls d d' ↔
      (∀ entry ∈ d.globs, entry.1 = path) ∧ d' = { d with globs := [(path, slt)] } := by
  constructor
  · rintro ⟨rounds, h⟩
    rcases Option.map_eq_some_iff.mp h with ⟨globs, hglobs, rfl⟩
    rcases addGlobBody_exits_iff.mp ⟨rounds, hglobs⟩ with ⟨hall, rfl⟩
    exact ⟨hall, rfl⟩
  · rintro ⟨hall, rfl⟩
    rcases addGlobBody_exits_iff.mpr ⟨hall, rfl⟩ with ⟨rounds, hrounds⟩
    exact ⟨rounds, Option.map_eq_some_iff.mpr ⟨[], hrounds, rfl⟩⟩

/-- `del_glob` returns when the first pattern is the one it removes. -/
theorem delGlob_calls_iff {path : String} {d d' : ServletDispatch S} :
    (GlobCmd.delGlob path).Calls d d' ↔
      d.globs.head?.all (fun entry => decide (entry.1 = path)) = true ∧
        d' = { d with globs := d.globs.tail } := by
  constructor
  · rintro ⟨rounds, h⟩
    rcases Option.map_eq_some_iff.mp h with ⟨globs, hglobs, rfl⟩
    rcases delGlobBody_exits_iff.mp ⟨rounds, hglobs⟩ with ⟨hhead, rfl⟩
    exact ⟨hhead, rfl⟩
  · rintro ⟨hhead, rfl⟩
    rcases delGlobBody_exits_iff.mpr ⟨hhead, rfl⟩ with ⟨rounds, hrounds⟩
    exact ⟨rounds, Option.map_eq_some_iff.mpr ⟨d.globs.tail, hrounds, rfl⟩⟩

/-- Behind calls that have ended there is at most one entry, and it is the one registered. -/
structure GlobsInv (pre : List (GlobCmd S)) (d : ServletDispatch S) : Prop where
  single : d.globs.length ≤ 1
  entry : ∀ pattern slt, (pattern, slt) ∈ d.globs ↔ registeredGlob pre pattern = some slt

/-- At most one pattern is registered. -/
theorem GlobsInv.eq_nil_or_singleton {pre : List (GlobCmd S)} {d : ServletDispatch S}
    (h : GlobsInv pre d) : d.globs = [] ∨ ∃ entry, d.globs = [entry] := by
  cases hglobs : d.globs with
  | nil => exact Or.inl rfl
  | cons entry rest =>
      have hlength := h.single
      rw [hglobs, List.length_cons] at hlength
      have hrest : rest = [] := List.length_eq_zero_iff.mp (by omega)
      exact Or.inr ⟨entry, by rw [hrest]⟩

/-- Behind such calls the next one ends if there is no entry of another pattern. -/
theorem calls_iff {pre : List (GlobCmd S)} {c : GlobCmd S} {d d' : ServletDispatch S}
    (hinv : GlobsInv pre d) :
    c.Calls d d' ↔ (∀ entry ∈ d.globs, entry.1 = c.path) ∧
      d' = { d with globs := c.servlet.elim [] fun slt => [(c.path, slt)] } := by
  cases c with
  | addGlob path slt => exact addGlob_calls_iff
  | delGlob path =>
      rw [delGlob_calls_iff]
      rcases hinv.eq_nil_or_singleton with hglobs | ⟨entry, hglobs⟩
      · simp [hglobs, GlobCmd.servlet]
      · simp [hglobs, GlobCmd.servlet, GlobCmd.path]

/-- A command that returns keeps the law of the patterns. -/
theorem call_globsInv {pre : List (GlobCmd S)} {c : GlobCmd S} {d d' : ServletDispatch S}
    (hinv : GlobsInv pre d) (hcall : c.Calls d d') : GlobsInv (pre ++ [c]) d' := by
  rcases (calls_iff hinv).mp hcall with ⟨hall, rfl⟩
  -- a pattern that the call does not name is not registered
  have hother : ∀ pattern slt, c.path ≠ pattern → registeredGlob pre pattern ≠ some slt := by
    intro pattern slt hne hreg
    exact hne (hall _ ((hinv.entry pattern slt).mpr hreg)).symm
  cases c with
  | addGlob path slt =>
      refine ⟨Nat.le_refl 1, ?_⟩
      intro pattern slt'
      rw [registeredGlob_snoc]
      split_ifs with hpath
      · simp only [GlobCmd.path] at hpath
        simp [GlobCmd.servlet, GlobCmd.path, hpath, eq_comm]
      · simp only [GlobCmd.path] at hpath
        simp [GlobCmd.servlet, GlobCmd.path, hother pattern slt' hpath, Ne.symm hpath]
  | delGlob path =>
      refine ⟨Nat.zero_le 1, ?_⟩
      intro pattern slt'
      rw [registeredGlob_snoc]
      split_ifs with hpath
      · simp [GlobCmd.servlet]
      · simp [GlobCmd.servlet, hother pattern slt' hpath]

/-- The law of the patterns holds in every state reached. -/
theorem GlobRuns.globsInv {notFound : S} {pre : List (GlobCmd S)} {d : ServletDispatch S}
    (h : GlobRuns notFound pre d) : GlobsInv pre d := by
  induction h with
  | nil => exact ⟨Nat.zero_le 1, by simp [ServletDispatch.new, registeredGlob]⟩
  | snoc _ hcall ih => exact call_globsInv ih hcall

/-- What is asked of a call behind the calls `pre`. -/
structure GlobsLaw (pre : List (GlobCmd S)) (c : GlobCmd S) (d d' : ServletDispatch S) : Prop where
  /-- it ends -/
  call : c.Calls d d'
  /-- there is at most one entry for each pattern -/
  unique : (d'.globs.map Prod.fst).Nodup
  /-- the entry of a pattern is the servlet of its last add not followed by a del -/
  entry : ∀ pattern slt, (pattern, slt) ∈ d'.globs ↔ registeredGlob (pre ++ [c]) pattern = some slt
  /-- the entries of other patterns stay in their order -/
  others : d'.globs.filter (fun entry => decide (entry.1 ≠ c.path)) =
    d.globs.filter fun entry => decide (entry.1 ≠ c.path)
  /-- deleting an unknown pattern changes nothing -/
  unknown : c.servlet = none → (∀ entry ∈ d.globs, entry.1 ≠ c.path) → d' = d

/-- Every call of a sequence ends and keeps the law of `m_globs` exactly if none of them names
a pattern while another one is registered. -/
theorem globs_law_iff (notFound : S) (cmds : List (GlobCmd S)) :
    (∀ pre c post d, cmds = pre ++ c :: post → GlobRuns notFound pre d →
      ∃ d', GlobsLaw pre c d d') ↔
    ∀ pre c post d, cmds = pre ++ c :: post → GlobRuns notFound pre d →
      ∀ entry ∈ d.globs, entry.1 = c.path := by
  constructor
  · intro h pre c post d heq hrun
    rcases h pre c post d heq hrun with ⟨d', hlaw⟩
    exact ((calls_iff hrun.globsInv).mp hlaw.call).1
  · intro h pre c post d heq hrun
    have hall := h pre c post d heq hrun
    have hinv := hrun.globsInv
    have hcall : c.Calls d { d with globs := c.servlet.elim [] fun slt => [(c.path, slt)] } :=
      (calls_iff hinv).mpr ⟨hall, rfl⟩
    have hinv' := call_globsInv hinv hcall
    refine ⟨_, hcall, ?_, hinv'.entry, ?_, ?_⟩
    · cases c.servlet <;> simp
    · have hold : d.globs.filter (fun entry => decide (entry.1 ≠ c.path)) = [] :=
        List.filter_eq_nil_iff.mpr fun entry hentry => by simp [hall entry hentry]
      rw [hold, List.filter_eq_nil_iff]
      cases c.servlet <;> simp
    · intro hdel hunknown
      have hnil : d.globs = [] := by
        rw [List.eq_nil_iff_forall_not_mem]
        exact fun entry hentry => hunknown entry hentry (hall entry hentry)
      rw [hdel, Option.elim_none, ← hnil]

/-- A second pattern is added for ever, and so is an unknown one deleted. -/
theorem globs_law_fails :
    ∃ d : ServletDispatch Nat, GlobRuns 0 [.addGlob "/a" (some 1)] d ∧
      (∀ rounds, d.addGlobServlet "/b" (some 2) rounds = none) ∧
      ∀ rounds, d.delGlobServlet "/b" rounds = none := by
  refine ⟨_, GlobRuns.nil.snoc ⟨1, rfl⟩, ?_, ?_⟩
  · intro rounds
    rw [Option.eq_none_iff_forall_ne_some]
    intro d' hd'
    have h := addGlob_calls_iff.mp ⟨rounds, hd'⟩
    simp [ServletDispatch.new] at h
  · intro rounds
    rw [Option.eq_none_iff_forall_ne_some]
    intro d' hd'
    have h := delGlob_calls_iff.mp ⟨rounds, hd'⟩
    simp [ServletDispatch.new] at h

end Http
end Tiger
