import Tiger.Uri.Recovery

/-!
# URIs - parsing what was printed

`to_string` prints an address, which is a relative reference and has no scheme; `operator<<`
prints a colon first where there is no scheme, which is no reference at all.  So one of the two
texts never comes back.

Main results:

- Theorem `not_comesBack`: for no URI both texts are parsed into the same URI again.
- Theorem `print_comesBack_iff`: `operator<<` alone, for the components of a text.
-/

namespace Tiger
namespace Uri

open Lib.Ragel Lib.Ragel.Expr Grammar
open Http (Text text printNat marked digitsValue)

/-- The members of both URIs are the same. -/
structure Same (u v : URI) : Prop where
  scheme : v.scheme = u.scheme
  user : v.user = u.user
  host : v.host = u.host
  port : v.getPort = u.getPort
  path : v.getPath = u.getPath
  query : v.query = u.query
  fragment : v.fragment = u.fragment

/-- The text is parsed into the same URI. -/
def ComesBack (u : URI) (s : Text) : Prop := ∃ v, URI.create s = some (some v) ∧ Same u v

variable {c : UInt8} {w : Text} {u v : URI}

/-! ## Addresses -/

/-- A byte that starts no scheme is read as one of a relative reference. -/
theorem main_moves_of_not_scheme (hc : schemeText.moves c = []) :
    main.moves c = relativeRef.moves c := by
  have hmain : main.moves c = uri.moves c ++ relativeRef.moves c := rfl
  have huri : uri.moves c = [] := by
    apply List.eq_nil_iff_forall_not_mem.mpr
    intro m hm
    rcases mem_moves_cat.mp hm with ⟨m₁, hm₁, -⟩ | ⟨hnull, -⟩
    · rcases mem_moves_leaving.mp hm₁ with ⟨m₂, hm₂, -⟩
      rcases mem_moves_entering.mp hm₂ with ⟨m₃, hm₃, -⟩
      rw [hc] at hm₃
      cases hm₃
    · exact absurd hnull (by decide)
  rw [hmain, huri, List.nil_append]

/-- A text that does not begin as a scheme does gives a URI without a scheme. -/
theorem scheme_of_create (hc : schemeText.moves c = []) (h : URI.create (c :: w) = some (some v)) :
    v.scheme = [] := by
  rw [URI.create] at h
  rcases Option.bind_eq_some_iff.mp h with ⟨r, hexec, hend⟩
  cases r with
  | none => cases hend
  | some ps =>
      rw [Parser.exec] at hexec
      split at hexec
      next => cases hexec
      next as cs hstep =>
          rcases Option.bind_eq_some_iff.mp hexec with ⟨ps₁, hacts, hrest⟩
          have hrelative : step [relativeRef] c = some (as, cs) := by
            rw [← hstep]
            apply step_congr_moves
            simp only [Parser.init, start, List.flatMap_cons, List.flatMap_nil,
              main_moves_of_not_scheme hc]
          have hstart : Without .saveScheme [relativeRef] := by
            intro t ht
            rw [List.mem_singleton.mp ht]
            decide
          have hfirst := hstart.step hrelative
          have hwithout : Without .saveScheme ({ ps₁ with cs := cs } : Parser).cs := hfirst.2
          have hkept := exec_keeps setBy_scheme hwithout hrest
          rw [atEof_keeps setBy_scheme hkept.1 hend, hkept.2]
          exact setBy_scheme.actions hfirst.1 hacts

/-- `to_string` starts with a zero. -/
theorem toString_cons (u : URI) (address : Nat) : ∃ w, u.toString address = 48 :: w := by
  rw [URI.toString, URI.printPointer]
  split
  · exact ⟨[], rfl⟩
  · exact ⟨_, rfl⟩

/-- What `to_string` prints has no scheme to read back. -/
theorem scheme_of_toString {address : Nat} (h : ComesBack u (u.toString address)) :
    u.scheme = [] := by
  rcases h with ⟨v, hcreate, hsame⟩
  rcases toString_cons u address with ⟨w, hw⟩
  rw [hw] at hcreate
  rw [← hsame.scheme]
  exact scheme_of_create (by decide) hcreate

/-! ## Both texts -/

/-- Without a scheme the printed text is not accepted. -/
theorem create_print_of_scheme_nil (h : u.scheme = []) : URI.create u.print = some none := by
  have hprint : ∃ w, u.print = 58 :: w := by
    rw [URI.print, h]
    exact ⟨_, rfl⟩
  rcases hprint with ⟨w, hw⟩
  have hstep : step (start main) 58 = none := by rfl
  rw [hw, URI.create, Parser.exec]
  simp only [Parser.init, hstep, Option.bind_some]

/-- No URI comes back from both of its texts. -/
theorem not_comesBack (u : URI) (address : Nat) :
    ¬ (ComesBack u (u.toString address) ∧ ComesBack u u.print) := by
  rintro ⟨haddress, v, hcreate, -⟩
  rw [create_print_of_scheme_nil (scheme_of_toString haddress)] at hcreate
  cases hcreate

/-- `https://h:80/`: the port is dropped, and the one of the scheme takes its place. -/
theorem comesBack_fails :
    ∃ u, URI.create (text ['h', 't', 't', 'p', 's', ':', '/', '/', 'h', ':', '8', '0', '/']) =
      some (some u) ∧
      u.getPort = 80 ∧ u.print = text ['h', 't', 't', 'p', 's', ':', '/', '/', 'h', '/'] ∧
      ¬ ComesBack u u.print ∧ ¬ ComesBack u (u.toString 4096) := by
  have hcreate : URI.create (text ['h', 't', 't', 'p', 's', ':', '/', '/', 'h', '/']) =
      some (some ⟨text ['h', 't', 't', 'p', 's'], [], text ['h'], 0, text ['/'], [], []⟩) := by
        decide
  have hprint :
      (⟨text ['h', 't', 't', 'p', 's'], [], text ['h'], 80, text ['/'], [], []⟩ : URI).print =
      text ['h', 't', 't', 'p', 's', ':', '/', '/', 'h', '/'] := by decide
  refine ⟨_, by decide, by decide, hprint, ?_, ?_⟩
  · rintro ⟨v, hv, hsame⟩
    have hport := hsame.port
    rw [hprint, hcreate] at hv
    cases hv
    revert hport
    decide
  · intro h
    exact absurd (scheme_of_toString h) (by decide)

/-! ## `operator<<` alone -/

/-- A component that is printed: not the empty text. -/
def given (o : Option Text) : Option Text := o.filter fun w => !w.isEmpty

theorem given_getD (o : Option Text) : (given o).getD [] = o.getD [] := by
  rcases o with _ | _ | ⟨c, w⟩ <;> rfl

theorem led_given (c : UInt8) (o : Option Text) : led c (given o) = marked c (o.getD []) := by
  rcases o with _ | _ | ⟨d, w⟩ <;> rfl

theorem userText_given (o : Option Text) :
    userText (given o) = o.getD [] ++ (if (o.getD []).isEmpty then [] else text ['@']) := by
  rcases o with _ | _ | ⟨d, w⟩ <;> rfl

theorem mem_of_given {o : Option Text} (h : w ∈ given o) : w ∈ o :=
  (Option.filter_eq_some_iff.mp h).1

/-- Digits are a port. -/
theorem port_of_digits (h : ∀ c ∈ w, 48 ≤ c.toNat ∧ c.toNat ≤ 57) : w ∈ port.lang := by
  induction w with
  | nil => exact Language.nil_mem_kstar _
  | cons c w ih =>
      have hdigit : [c] ∈ (chars Http.RequestGrammar.digit : E).lang := by
        refine ⟨c, ?_, rfl⟩
        rw [Http.RequestGrammar.digit, ByteClass.mem, Bool.and_eq_true, decide_eq_true_eq,
          decide_eq_true_eq]
        exact h c List.mem_cons_self
      exact cons_mem_kstar_iff.mpr
        ⟨[], w, hdigit, ih fun d hd => h d (List.mem_cons_of_mem c hd), rfl⟩

namespace Components

variable (c : Components)

/-- A port is at least 0 and at most 65535. -/
theorem portValue_range : 0 ≤ c.portValue ∧ c.portValue ≤ 65535 := by
  rw [portValue]
  cases hp : c.port with
  | none => simp
  | some w =>
      have hvalue := c.port_value w hp
      simp only [Option.elim_some]
      omega

/-- The components of the printed text. -/
def printed : Components where
  scheme := c.scheme
  user := given c.user
  host := c.host
  port := if c.uri.isDefaultPort then none else some (printNat c.portValue.natAbs)
  path := c.path
  query := given c.query
  fragment := given c.fragment
  scheme_mem := c.scheme_mem
  user_mem := fun w hw => c.user_mem w (mem_of_given hw)
  host_mem := c.host_mem
  host_ne := c.host_ne
  port_mem := by
    intro w hw
    split at hw
    · cases hw
    · cases hw
      exact port_of_digits fun _ => Http.printNat_digit
  port_value := by
    intro w hw
    split at hw
    · cases hw
    · next hport =>
        cases hw
        have hrange := c.portValue_range
        have hne : c.portValue ≠ 0 := by
          intro hzero
          apply hport
          rw [URI.isDefaultPort, if_pos]
          exact hzero
        rw [Http.digitsValue_printNat]
        omega
  path_mem := c.path_mem
  query_mem := fun w hw => c.query_mem w (mem_of_given hw)
  fragment_mem := fun w hw => c.fragment_mem w (mem_of_given hw)

/-- The port is printed when it is not the default one. -/
theorem led_port : led 58 c.printed.port =
    if c.uri.isDefaultPort then [] else Http.text [':'] ++ URI.printInt c.uri.port := by
  have hsign : URI.printInt c.portValue = printNat c.portValue.natAbs := by
    have hrange := c.portValue_range
    rw [URI.printInt, if_neg (by omega)]
  have hport : c.uri.port = c.portValue := rfl
  rw [printed, hport, hsign]
  split <;> rfl

/-- `operator<<` prints the components. -/
theorem print_eq : c.uri.print = c.printed.text := by
  rw [URI.print, Components.text, rest, led_port]
  simp only [printed, userText_given, led_given, uri, List.append_assoc]
  rfl

/-- The port that is read back is zero when it is the default one. -/
theorem portValue_printed :
    c.printed.portValue = if c.uri.isDefaultPort then 0 else c.portValue := by
  rw [portValue, printed]
  split
  · rfl
  · have hrange := c.portValue_range
    simp only [Option.elim_some, Http.digitsValue_printNat]
    omega

theorem create_print (hcolon : ∀ w ∈ c.user, 58 ∉ w) :
    URI.create c.uri.print = some (some c.printed.uri) := by
  rw [print_eq]
  exact c.printed.create_text fun w hw => hcolon w (mem_of_given hw)

/-- Printing keeps every part when it keeps the port. -/
theorem same_printed (hport : c.printed.uri.getPort = c.uri.getPort) :
    Same c.uri c.printed.uri where
  scheme := rfl
  user := given_getD c.user
  host := rfl
  port := hport
  path := rfl
  query := given_getD c.query
  fragment := given_getD c.fragment

/-- A port is zero when none is given. -/
theorem portValue_eq_zero_iff : c.portValue = 0 ↔ c.port = none := by
  rw [portValue]
  cases hp : c.port with
  | none => simp
  | some w =>
      have hvalue := c.port_value w hp
      simp only [Option.elim_some, reduceCtorEq, iff_false]
      omega

/-- The port that is left out is not the one of the scheme: 80 and 443 are interchanged. -/
theorem getPort_of_default (hport : c.portValue ≠ 0) (hdefault : c.uri.isDefaultPort = true) :
    c.printed.uri.getPort ≠ c.uri.getPort := by
  have hzero : c.printed.uri.port = 0 := c.portValue_printed.trans (if_pos hdefault)
  have hport' : c.uri.port ≠ 0 := hport
  have hsecure : c.printed.uri.isSecure = c.uri.isSecure := rfl
  have hplain : c.printed.uri.isPlain = c.uri.isPlain := rfl
  rw [URI.isDefaultPort, if_neg hport'] at hdefault
  rw [URI.getPort, URI.getPort, hzero, if_neg (by simp), if_pos hport', hsecure, hplain]
  split at hdefault
  next hs =>
      rw [of_decide_eq_true hdefault, if_pos hs]
      decide
  next hs =>
      rw [if_neg hs]
      split at hdefault
      next hp =>
          rw [of_decide_eq_true hdefault, if_pos hp]
          decide
      next => cases hdefault

/-- Printing keeps the port unless the default one is given. -/
theorem getPort_printed :
    c.printed.uri.getPort = c.uri.getPort ↔ (c.port ≠ none → c.uri.isDefaultPort = false) := by
  constructor
  · intro hsame hport
    by_contra hdefault
    rw [Bool.not_eq_false] at hdefault
    exact c.getPort_of_default
      (fun hzero => hport (c.portValue_eq_zero_iff.mp hzero)) hdefault hsame
  · intro h
    have hport : c.printed.uri.port = c.uri.port := by
      refine c.portValue_printed.trans ?_
      split
      next hdefault =>
          have hnone : c.port = none := by
            by_contra hport
            rw [h hport] at hdefault
            cases hdefault
          exact (c.portValue_eq_zero_iff.mpr hnone).symm
      next => rfl
    rw [URI.getPort, URI.getPort, hport]
    rfl

/-- A URI whose user has no colon comes back from `operator<<` exactly if its port is printed. -/
theorem print_comesBack_iff (hcolon : ∀ w ∈ c.user, 58 ∉ w) :
    ComesBack c.uri c.uri.print ↔ (c.port ≠ none → c.uri.isDefaultPort = false) := by
  rw [← c.getPort_printed]
  constructor
  · rintro ⟨v, hcreate, hsame⟩
    rw [c.create_print hcolon] at hcreate
    cases hcreate
    exact hsame.port
  · intro hport
    exact ⟨_, c.create_print hcolon, c.same_printed hport⟩

end Components

end Uri
end Tiger
