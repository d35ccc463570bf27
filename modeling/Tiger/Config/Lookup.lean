import Tiger.Config.Load
import Tiger.Lib.Simulation

/-!
# Configuration - registering and looking up variables

This module embeds the two forms of `Config::Lookup` (`src/config.h`).  A variable is found by
its name and by its type; the form with a default registers a new variable when none is found.
Where the name is taken by a variable of another type, the registration replaces it, and the
callers that hold the old variable do not see what a file assigns to the name from then on.

Main results:

- Theorem `stored_iff`: along every sequence of calls, every variable that was returned is the
  one that is registered for its name, and gets what a file assigns to the name, exactly if no
  name is looked up with a default at another type than it is registered at.
-/

namespace Tiger
namespace Config

open Lib

variable {τ : Type} {Val : τ → Type}

namespace Registry

/-- No variable is registered. -/
def empty : Registry Val where
  datas _ := none
  objects := []
  datas_name := by simp

/-- `Config::Lookup<T>(name)`: null where the variable has another type. -/
def lookup [DecidableEq τ] (s : Registry Val) (t : τ) (name : Bytes) : Option Nat :=
  match s.datas name with
  | none => none
  | some var => if (s.objects[var]?).map ConfigVar.type = some t then some var else none

/-- `datas[name] = std::make_shared<ConfigVar<T>>(name, def, desc)` -/
def register (s : Registry Val) (t : τ) (name : Bytes) (dflt : Val t) : Registry Val where
  datas := Function.update s.datas name (some s.objects.length)
  objects := s.objects ++ [⟨name, t, dflt⟩]
  datas_name := by
    intro name' p hp
    by_cases hname : name' = name
    · subst hname
      rw [Function.update_self, Option.some.injEq] at hp
      rw [← hp]
      simp
    · rw [Function.update_of_ne hname] at hp
      have hold := s.datas_name name' p hp
      rcases Option.map_eq_some_iff.mp hold with ⟨v, hv, -⟩
      rw [List.getElem?_append_left (List.getElem?_eq_some_iff.mp hv).1]
      exact hold

end Registry

/-! ## Sequences of calls -/

/-- The calls. -/
inductive Call (Val : τ → Type)
  | lookup (t : τ) (name : Bytes)
  | lookupDefault (t : τ) (name : Bytes) (dflt : Val t)
  | loadFromYmal (name : Bytes) (root : Yaml)

/-- The registry, and the pointers that have been returned, with the names that they were
returned for. -/
structure Holders (Val : τ → Type) where
  registry : Registry Val
  held : List (Bytes × Nat)

namespace Holders

/-- Nothing has been called. -/
def start : Holders Val := ⟨.empty, []⟩

variable (conv : Conversions Val)

/-- One call.  `Lookup` with a default throws where the name is not valid. -/
def next [DecidableEq τ] (s : Holders Val) : Call Val → Holders Val
  | .lookup t name =>
      match s.registry.lookup t name with
      | some var => { s with held := (name, var) :: s.held }
      | none => s
  | .lookupDefault t name dflt =>
      match s.registry.lookup t name with
      | some var => { s with held := (name, var) :: s.held }
      | none =>
          if !isValidName name then s
          else ⟨s.registry.register t name dflt, (name, s.registry.objects.length) :: s.held⟩
  | .loadFromYmal name root => { s with registry := s.registry.loadFromYmal conv name root }

/-- What is asked of a pointer that was returned for a name: it is the one that is registered,
and whatever file is loaded, its variable gets the last value that the visited nodes of the
name convert to. -/
structure Stored (s : Registry Val) (name : Bytes) (var : Nat) : Prop where
  registered : s.datas name = some var
  observes : ∀ file root, (s.loadFromYmal conv file root).objects[var]? =
    (s.objects[var]?).map fun v =>
      { v with val := ((((listAllMember root file).filter fun e => e.1 == name).filterMap fun e =>
        conv.lexicalCast v.type (nodeText conv e.2)).getLast?).getD v.val }

/-- Every pointer that was returned is still the one that is registered for its name. -/
def AllStored (s : Holders Val) : Prop :=
  ∀ e ∈ s.held, Stored conv s.registry e.1 e.2

/-- A call does not register a name that is registered at another type. -/
def SameType (s : Holders Val) : Call Val → Prop
  | .lookupDefault t name _ => ∀ var, s.registry.datas name = some var →
      (s.registry.objects[var]?).map ConfigVar.type = some t
  | _ => True

/-! ## One call -/

variable {conv} {s : Registry Val} {name : Bytes} {var : Nat} {t : τ}

/-- The registered variable gets what a file assigns to its name. -/
theorem stored_of_registered (h : s.datas name = some var) : Stored conv s name var where
  registered := h
  observes file root := by
    have hname := s.datas_name name var h
    rw [Registry.loadFromYmal, foldl_assign_objects]
    cases hv : s.objects[var]? with
    | none => rfl
    | some v =>
        rw [hv, Option.map_some, Option.some.injEq] at hname
        subst hname
        rw [Option.map_some, Option.map_some, ConfigVar.behind, if_pos h]
        rfl

theorem allStored_iff {s : Holders Val} :
    AllStored conv s ↔ ∀ e ∈ s.held, s.registry.datas e.1 = some e.2 :=
  ⟨fun h e he => (h e he).registered, fun h e he => stored_of_registered (h e he)⟩

/-- What holds between calls: every registered variable has been returned, and its name is
valid. -/
structure Known (s : Holders Val) : Prop where
  returned : ∀ name var, s.registry.datas name = some var → (name, var) ∈ s.held
  valid : ∀ name var, s.registry.datas name = some var → isValidName name = true

theorem start_known : (start : Holders Val).Known where
  returned := by simp [start, Registry.empty]
  valid := by simp [start, Registry.empty]

variable [DecidableEq τ]

/-- What a lookup returns is registered under the name. -/
theorem registered_of_lookup (h : s.lookup t name = some var) : s.datas name = some var := by
  rw [Registry.lookup] at h
  split at h
  next => cases h
  next p hp =>
    split at h
    next =>
      cases h
      exact hp
    next => cases h

/-- A lookup by type finds the variable exactly if it has the type. -/
theorem lookup_eq_none (h : s.datas name = some var) (hnone : s.lookup t name = none) :
    (s.objects[var]?).map ConfigVar.type ≠ some t := by
  intro htype
  rw [Registry.lookup, h] at hnone
  simp [htype] at hnone

/-- Where a lookup finds nothing, the default registers a new variable. -/
theorem next_lookupDefault {s : Holders Val} (dflt : Val t)
    (hnone : s.registry.lookup t name = none) (hvalid : isValidName name = true) :
    s.next conv (.lookupDefault t name dflt) =
      ⟨s.registry.register t name dflt, (name, s.registry.objects.length) :: s.held⟩ := by
  simp only [next, hnone, hvalid, Bool.not_true, Bool.false_eq_true, if_false]

/-- A call keeps the handles known. -/
theorem next_known {s : Holders Val} (h : s.Known) (c : Call Val) : (s.next conv c).Known := by
  have hlonger : ∀ e, Known { s with held := e :: s.held } := fun e =>
    ⟨fun name var hvar => List.mem_cons_of_mem _ (h.returned name var hvar), h.valid⟩
  cases c with
  | lookup t name =>
      simp only [next]
      split
      · exact hlonger _
      · exact h
  | loadFromYmal name root =>
      have hdatas : (s.registry.loadFromYmal conv name root).datas = s.registry.datas :=
        foldl_assign_datas conv s.registry _
      exact ⟨fun n var hvar => h.returned n var (hdatas ▸ hvar),
        fun n var hvar => h.valid n var (hdatas ▸ hvar)⟩
  | lookupDefault t name dflt =>
      cases hlookup : s.registry.lookup t name with
      | some var =>
          simp only [next, hlookup]
          exact hlonger _
      | none =>
          by_cases hvalid : isValidName name = true
          · rw [next_lookupDefault dflt hlookup hvalid]
            constructor
            · intro n var hvar
              change Function.update s.registry.datas name _ n = some var at hvar
              by_cases hn : n = name
              · subst hn
                rw [Function.update_self, Option.some.injEq] at hvar
                rw [hvar]
                exact List.mem_cons_self
              · rw [Function.update_of_ne hn] at hvar
                exact List.mem_cons_of_mem _ (h.returned n var hvar)
            · intro n var hvar
              change Function.update s.registry.datas name _ n = some var at hvar
              by_cases hn : n = name
              · rwa [hn]
              · rw [Function.update_of_ne hn] at hvar
                exact h.valid n var hvar
          · simp only [next, hlookup]
            rw [if_pos (by simpa using hvalid)]
            exact h

/-- A call leaves every returned pointer registered exactly if it does not register a name at
another type. -/
theorem next_allStored_iff {s : Holders Val} (hknown : s.Known) (h : AllStored conv s)
    (c : Call Val) : AllStored conv (s.next conv c) ↔ s.SameType c := by
  have hheld := allStored_iff.mp h
  have hfound : ∀ {t name var}, s.registry.lookup t name = some var →
      AllStored conv { s with held := (name, var) :: s.held } := by
    intro t name var hvar
    refine allStored_iff.mpr fun e he => ?_
    rcases List.mem_cons.mp he with rfl | he
    · exact registered_of_lookup hvar
    · exact hheld e he
  cases c with
  | lookup t name =>
      refine iff_of_true ?_ trivial
      simp only [next]
      split
      next var hvar => exact hfound hvar
      next => exact h
  | loadFromYmal name root =>
      refine iff_of_true (allStored_iff.mpr fun e he => ?_) trivial
      have hdatas : (s.registry.loadFromYmal conv name root).datas = s.registry.datas :=
        foldl_assign_datas conv s.registry _
      exact hdatas ▸ hheld e he
  | lookupDefault t name dflt =>
      cases hlookup : s.registry.lookup t name with
      | some var =>
          have htype : s.SameType (.lookupDefault t name dflt) := by
            intro var' hvar'
            by_contra htype
            rw [Registry.lookup, hvar'] at hlookup
            simp [htype] at hlookup
          simp only [next, hlookup]
          exact iff_of_true (hfound hlookup) htype
      | none =>
          cases hdatas : s.registry.datas name with
          | none =>
              have htype : s.SameType (.lookupDefault t name dflt) := by
                intro var hvar
                rw [hdatas] at hvar
                cases hvar
              refine iff_of_true ?_ htype
              by_cases hvalid : isValidName name = true
              · rw [next_lookupDefault dflt hlookup hvalid]
                refine allStored_iff.mpr fun e he => ?_
                change Function.update s.registry.datas name _ e.1 = some e.2
                rcases List.mem_cons.mp he with rfl | he
                · exact Function.update_self _ _ _
                · have hne : e.1 ≠ name := by
                    intro heq
                    have hold := hheld e he
                    rw [heq, hdatas] at hold
                    cases hold
                  rw [Function.update_of_ne hne]
                  exact hheld e he
              · simp only [next, hlookup]
                rw [if_pos (by simpa using hvalid)]
                exact h
          | some var =>
              -- the name is taken: the holder of its variable loses it
              have hother := lookup_eq_none hdatas hlookup
              refine iff_of_false ?_ fun htype => hother (htype var hdatas)
              intro hstored
              rw [next_lookupDefault dflt hlookup (hknown.valid name var hdatas)] at hstored
              have hmem : (name, var) ∈ (name, s.registry.objects.length) :: s.held :=
                List.mem_cons_of_mem _ (hknown.returned name var hdatas)
              have hnew : Function.update s.registry.datas name (some s.registry.objects.length)
                  name = some var := allStored_iff.mp hstored (name, var) hmem
              rw [Function.update_self, Option.some.injEq] at hnew
              have hname := s.registry.datas_name name var hdatas
              rw [← hnew, List.getElem?_eq_none le_rfl] at hname
              cases hname

end Holders

/-- Along every sequence of calls from an empty registry, every variable that was returned for a
name is the one that is registered, and gets what files assign to the name, exactly if no name
is looked up with a default at another type than it is registered at. -/
theorem stored_iff [DecidableEq τ] (conv : Conversions Val) (cs : List (Call Val)) :
    (∀ n, Holders.AllStored conv ((cs.take n).foldl (Holders.next conv) Holders.start)) ↔
      AllMeets (Holders.next conv) Holders.SameType Holders.start cs :=
  forall_take_iff_allMeets Holders.Known (Holders.AllStored conv)
    (fun _ c h => Holders.next_known h c)
    (fun _ c hknown h => Holders.next_allStored_iff hknown h c) cs Holders.start_known
    (Holders.allStored_iff.mpr (by simp [Holders.start]))

/-- Two types whose values are read from one digit. -/
def digits : Conversions (fun _ : Bool => Nat) where
  print _ := []
  lexicalCast _ text :=
    match text with
    | [c] => some (c.toNat - 48)
    | _ => none

/-- The name `a` is looked up with a default at one type and then at the other. -/
def twoTypes : List (Call fun _ : Bool => Nat) :=
  [.lookupDefault true [97] 1, .lookupDefault false [97] 2]

/-- The second call replaces the variable of the first one, which a file then does not change. -/
theorem stored_fails :
    (twoTypes.foldl (Holders.next digits) Holders.start).held = [([97], 1), ([97], 0)] ∧
      (twoTypes.foldl (Holders.next digits) Holders.start).registry.datas [97] = some 1 ∧
      ((twoTypes ++ [Call.loadFromYmal [97] (.scalar [53])]).foldl (Holders.next digits)
        Holders.start).registry.objects.map ConfigVar.val = [1, 5] ∧
      ¬∀ n, Holders.AllStored digits ((twoTypes.take n).foldl (Holders.next digits)
        Holders.start) := by
  have hheld : (twoTypes.foldl (Holders.next digits) Holders.start).held =
      [([97], 1), ([97], 0)] := by decide
  have hdatas : (twoTypes.foldl (Holders.next digits) Holders.start).registry.datas [97] =
      some 1 := by decide
  refine ⟨hheld, hdatas, by decide, ?_⟩
  intro h
  have hmem : ([97], 0) ∈ (twoTypes.foldl (Holders.next digits) Holders.start).held := by
    rw [hheld]
    decide
  have hfirst := (h 2 ([97], 0) hmem).registered
  change (twoTypes.foldl (Holders.next digits) Holders.start).registry.datas [97] = some 0 at hfirst
  rw [hdatas] at hfirst
  cases hfirst

end Config
end Tiger
