import Tiger.Uri.Colon

/-!
# URIs - the components of a text

A text that is put together from a scheme, an authority, a path, a query and a fragment of the
grammar is parsed into these components again, unless its user has a colon.
-/

namespace Tiger
namespace Uri

open Lib.Ragel Lib.Ragel.Expr Grammar
open Http (Text text digitsValue)

/-- The components of a URI with an authority, each a word of its rule in the grammar. -/
structure Components where
  scheme : Text
  user : Option Text
  host : Text
  port : Option Text
  path : Text
  query : Option Text
  fragment : Option Text
  scheme_mem : scheme ∈ schemeText.lang
  user_mem : ∀ w ∈ user, w ∈ Grammar.user.lang
  host_mem : host ∈ regName.lang
  host_ne : host ≠ []
  port_mem : ∀ w ∈ port, w ∈ Grammar.port.lang
  port_value : ∀ w ∈ port, 1 ≤ digitsValue 10 w ∧ digitsValue 10 w ≤ 65535
  path_mem : path ∈ pathAbempty.lang
  query_mem : ∀ w ∈ query, w ∈ queryText.lang
  fragment_mem : ∀ w ∈ fragment, w ∈ queryText.lang

/-- A component with the byte in front of it. -/
def led (c : UInt8) : Option Text → Text
  | some w => c :: w
  | none => []

/-- A user with the `@` behind it. -/
def userText : Option Text → Text
  | some w => w ++ [64]
  | none => []

namespace Components

/-- What stands behind the authority. -/
def rest (c : Components) : Text := c.path ++ (led 63 c.query ++ led 35 c.fragment)

/-- `scheme://user@host:port path ?query #fragment` -/
def text (c : Components) : Text :=
  (c.scheme ++ Http.text [':', '/', '/']) ++ (userText c.user ++
    ((c.host ++ led 58 c.port) ++ c.rest))

/-- The number of the port, 0 if there is none. -/
def portValue (c : Components) : Int := c.port.elim 0 fun w => digitsValue 10 w

/-- The URI with these components. -/
def uri (c : Components) : URI :=
  ⟨c.scheme, c.user.getD [], c.host, c.portValue, c.path, c.query.getD [], c.fragment.getD []⟩

/-- `URI::Create` takes the text, and the members of `URI` return the components. -/
def Recovered (c : Components) : Prop :=
  ∃ u, URI.create c.text = some (some u) ∧ u.scheme = c.scheme ∧ u.user = c.user.getD [] ∧
    u.host = c.host ∧ u.port = c.portValue ∧ (c.port ≠ none → u.getPort = c.portValue) ∧
    u.getPath = (if c.path = [] then Http.text ['/'] else c.path) ∧
    u.query = c.query.getD [] ∧ u.fragment = c.fragment.getD []

end Components

variable {s w rest : Text} {p : Nat} {ps : Parser} {u v : URI} {t : E}

/-! ## Parts -/

/-- A text that is read to its end is parsed. -/
theorem create_of_reads {ps : Parser} (h : Reads s 0 s Parser.init ps)
    (hend : ps.atEof s = some (some u)) :
    URI.create s = some (some u) := by
  have hexec : Parser.exec s 0 s Parser.init = some (some ps) := by
    have hrun := h []
    rw [List.append_nil] at hrun
    exact hrun
  rw [URI.create, hexec]
  exact hend

/-- The user, if there is one. -/
theorem reads_userText {o : Option Text} {scheme : Text} (ho : ∀ w ∈ o, w ∈ user.lang)
    (hcolon : ∀ w ∈ o, 58 ∉ w)
    (hs : s.drop p = userText o ++ rest) :
    ∃ t, AtHost t ∧ Reads s p (userText o)
      ⟨[inAuthority (authority 2)], none, { URI.fresh with scheme := scheme }⟩
      ⟨[t], none, { URI.fresh with scheme := scheme, user := o.getD [] }⟩ := by
  cases o with
  | none => exact ⟨_, .inl rfl, Reads.refl⟩
  | some w =>
      rw [userText, List.append_assoc] at hs
      exact ⟨_, .inr rfl, reads_user (ho w rfl) (hcolon w rfl) hs⟩

/-- A port is made of digits. -/
theorem digit_of_port (hw : w ∈ port.lang) : ∀ c ∈ w, 48 ≤ c.toNat ∧ c.toNat ≤ 57 := by
  induction w with
  | nil => simp
  | cons d w ih =>
      rcases cons_mem_kstar_iff.mp hw with ⟨a, b, ⟨k, hk, hcons⟩, hrest, rfl⟩
      cases hcons
      intro c hc
      rcases List.mem_cons.mp hc with rfl | hc
      · rw [Http.RequestGrammar.digit, ByteClass.mem, Bool.and_eq_true, decide_eq_true_eq,
          decide_eq_true_eq] at hk
        exact hk
      · exact ih hrest c hc

/-- The host, and the port if there is one. -/
theorem reads_hostPort {o : Option Text} {host : Text} (ht : AtHost t) (hhost : host ∈ regName.lang)
    (hne : host ≠ []) (ho : ∀ w ∈ o, w ∈ port.lang)
    (hvalue : ∀ w ∈ o, 1 ≤ digitsValue 10 w ∧ digitsValue 10 w ≤ 65535) (hu : u.port = 0)
    (hs : s.drop p = (host ++ led 58 o) ++ rest) (hrest : ∀ c ∈ rest.head?, c ∈ authorityEnds) :
    ∃ ps, Reads s p (host ++ led 58 o) ⟨[t], none, u⟩ ps ∧
      AuthorityEnded s (p + (host ++ led 58 o).length) ps
        { u with host := host, port := o.elim 0 fun w => digitsValue 10 w } := by
  rcases reads_host ht hhost hne with ⟨cs, hreads, hbehind, -⟩
  rw [List.append_assoc] at hs
  cases o with
  | none =>
      refine ⟨_, by simpa [led] using hreads s p none u, ?_⟩
      rw [led, List.append_nil]
      have hended := authorityEnded_host (u := u) hbehind hs
      rwa [← hu]
  | some w =>
      have hwne : w ≠ [] := by
        rintro rfl
        exact absurd (hvalue [] rfl).1 (by decide)
      rcases step_colon hbehind with ⟨cs₁, hstep, hT, hmem, -⟩
      rcases reads_port hT hmem (ho w rfl) hwne with ⟨cs₂, hport, hbehind₂⟩
      have hcolon : Reads s (p + host.length) [58] ⟨cs, some p, u⟩
          ⟨cs₁, none, { u with host := host }⟩ :=
        reads_step hstep (congrArg some (save_eq hs fun v u => { u with host := v }))
      have hs₁ : s.drop (p + host.length + 1) = w ++ rest := drop_succ (drop_add hs)
      refine ⟨_, (hreads s p none u).append (hcolon.cons (hport s _ none _)), ?_⟩
      have hended := authorityEnded_port (u := { u with host := host }) hbehind₂ hs₁ hwne
        (digit_of_port (ho w rfl))
        (hvalue w rfl).2 hrest
      have hlength : p + host.length + 1 + w.length = p + (host ++ led 58 (some w)).length := by
        rw [led, List.length_append, List.length_cons]
        omega
      rwa [hlength] at hended

/-- The fragment, if there is one, and the end of the text. -/
theorem Ended.reads_fragmentText {o : Option Text} {bytes : List UInt8} {after : E}
    (h : Ended s p bytes after ps v)
    (hbytes : 35 ∈ bytes) (hmoves : after.moves 35 = [⟨[], [], fragment 12⟩])
    (hnull : after.nullable = true)
    (hout : after.out = []) (ho : ∀ w ∈ o, w ∈ queryText.lang) (hv : v.fragment = [])
    (hs : s.drop p = led 35 o)
    (hp : s.length = p + (led 35 o).length) :
    ∃ ps', Reads s p (led 35 o) ps ps' ∧
      ps'.atEof s = some (some { v with fragment := o.getD [] }) := by
  cases o with
  | none =>
      have hend : p = s.length := hp.symm
      subst hend
      refine ⟨ps, Reads.refl, ?_⟩
      rw [h.atEof hnull hout, Option.getD_none, ← hv]
  | some w =>
      have hhash := h.reads hbytes hmoves
      have hp₁ : s.length = p + 1 + w.length := by
        rw [hp, led, List.length_cons]
        omega
      rcases reads_fragment (v := v) (ho w rfl) (drop_succ hs) hp₁ with ⟨ps', hreads, hend⟩
      exact ⟨ps', hhash.cons hreads, hend⟩

/-- The query and the fragment, if there are any, and the end of the text. -/
theorem Ended.reads_rest {q f : Option Text} (h : Ended s p [63, 35] tail ps v)
    (hq : ∀ w ∈ q, w ∈ queryText.lang)
    (hf : ∀ w ∈ f, w ∈ queryText.lang) (hv : v.query = [] ∧ v.fragment = [])
    (hs : s.drop p = led 63 q ++ led 35 f) (hp : s.length = p + (led 63 q ++ led 35 f).length) :
    ∃ ps', Reads s p (led 63 q ++ led 35 f) ps ps' ∧
      ps'.atEof s = some (some { v with query := q.getD [], fragment := f.getD [] }) := by
  cases q with
  | none =>
      rcases h.reads_fragmentText (by decide) tail_hash rfl rfl hf hv.2 hs hp with
        ⟨ps', hreads, hend⟩
      refine ⟨ps', hreads, ?_⟩
      rw [hend, Option.getD_none, ← hv.1]
  | some w =>
      have hmark := h.reads (by decide) tail_question
      have hs₁ : s.drop (p + 1) = w ++ led 35 f := drop_succ hs
      rcases reads_query (v := v) (hq w rfl) hs₁ with ⟨ps₁, hreads₁, hended⟩
      have hp₁ : s.length = p + 1 + w.length + (led 35 f).length := by
        rw [hp, led, List.length_append, List.length_cons]
        omega
      rcases hended.reads_fragmentText (by decide) rfl rfl rfl hf hv.2 (drop_add hs₁) hp₁ with
        ⟨ps', hreads, hend⟩
      exact ⟨ps', hmark.cons (hreads₁.append hreads), hend⟩

/-! ## The whole text -/

namespace Components

variable (c : Components)

/-- What stands behind the authority starts with one of its ends. -/
theorem head_of_rest : ∀ b ∈ c.rest.head?, b ∈ authorityEnds := by
  intro b hb
  cases hpath : c.path with
  | nil =>
      rw [rest, hpath, List.nil_append] at hb
      cases hquery : c.query with
      | none =>
          cases hfragment : c.fragment with
          | none => simp [hquery, hfragment, led] at hb
          | some w =>
              simp only [hquery, hfragment, led, List.nil_append, List.head?_cons,
                Option.mem_some_iff] at hb
              rw [← hb]
              decide
      | some w =>
          simp only [hquery, led, List.cons_append, List.head?_cons, Option.mem_some_iff] at hb
          rw [← hb]
          decide
  | cons d w =>
      have hmem := c.path_mem
      rw [hpath] at hmem
      simp only [rest, hpath, List.cons_append, List.head?_cons, Option.mem_some_iff] at hb
      rw [← hb, head_of_path hmem]
      decide

/-- The scheme with what is behind it. -/
theorem reads_start : Reads c.text 0 (c.scheme ++ Http.text [':', '/', '/']) Parser.init
    ⟨[inAuthority (authority 2)], none, { URI.fresh with scheme := c.scheme }⟩ := by
  apply reads_scheme c.scheme_mem
  rw [List.drop_zero, text, List.append_assoc]

/-- Without a colon in the user all components are found. -/
theorem create_text (hcolon : ∀ w ∈ c.user, 58 ∉ w) : URI.create c.text = some (some c.uri) := by
  have hs₀ : c.text.drop 0 = (c.scheme ++ Http.text [':', '/', '/']) ++
      (userText c.user ++ ((c.host ++ led 58 c.port) ++ c.rest)) := rfl
  have hs₁ := drop_add hs₀
  have hs₂ := drop_add hs₁
  have hs₃ := drop_add hs₂
  have hs₄ := drop_add hs₃
  rcases reads_userText c.user_mem hcolon hs₁ with ⟨t, ht, huser⟩
  rcases reads_hostPort
    (u := { URI.fresh with scheme := c.scheme, user := c.user.getD [] }) ht c.host_mem
    c.host_ne c.port_mem c.port_value rfl hs₂ c.head_of_rest with ⟨ps₁, hhost, hauthority⟩
  rcases hauthority.reads_path c.path_mem hs₃ with ⟨ps₂, hpath, hended⟩
  have hlength : c.text.length =
      0 + (c.scheme ++ Http.text [':', '/', '/']).length + (userText c.user).length +
      (c.host ++ led 58 c.port).length + c.path.length +
        (led 63 c.query ++ led 35 c.fragment).length := by
    simp only [text, rest, List.length_append]
    omega
  rcases hended.reads_rest c.query_mem c.fragment_mem ⟨rfl, rfl⟩ hs₄ hlength with ⟨ps₃, hrest, hend⟩
  exact create_of_reads
    (c.reads_start.append (huser.append ((hhost.append (hpath.append hrest))))) hend

/-- With a colon in the user, the user is not found. -/
theorem user_of_create {w : Text} (huser : c.user = some w) (hcolon : 58 ∈ w) {u : URI}
    (h : URI.create c.text = some (some u)) : u.user ≠ w := by
  rcases List.eq_append_cons_of_mem hcolon with ⟨x, y, rfl, hx⟩
  rw [URI.create] at h
  rcases Option.bind_eq_some_iff.mp h with ⟨r, hexec, hend⟩
  cases r with
  | none => cases hend
  | some ps =>
      have hstart := c.reads_start (userText c.user ++ ((c.host ++ led 58 c.port) ++ c.rest))
      rw [← text, hexec, huser, userText, List.append_assoc, List.singleton_append] at hstart
      have hlost := user_lost (c.user_mem _ huser) hx rfl hstart.symm
      have hkept := atEof_keeps setBy_user hlost.1 hend
      intro heq
      have hlt := hlost.2
      rw [← hkept, heq] at hlt
      exact absurd hlt (Nat.lt_irrefl _)

/-- The port of a parsed URI is the one it was given. -/
theorem getPort_uri (hport : c.port ≠ none) : c.uri.getPort = c.portValue := by
  rw [URI.getPort, if_pos]
  · rfl
  · cases hp : c.port with
    | none => exact absurd hp hport
    | some w =>
        have hvalue := c.port_value w hp
        simp only [uri, portValue, hp, Option.elim_some]
        omega

/-- The components of a text are found exactly if its user has no colon. -/
theorem recovered_iff (c : Components) : c.Recovered ↔ ∀ w ∈ c.user, 58 ∉ w := by
  constructor
  · rintro ⟨u, hcreate, -, huser, -⟩ w hw hcolon
    refine c.user_of_create hw hcolon hcreate ?_
    rw [huser, Option.mem_def.mp hw, Option.getD_some]
  · intro hcolon
    refine ⟨c.uri, c.create_text hcolon, rfl, rfl, rfl, rfl, c.getPort_uri, ?_, rfl, rfl⟩
    simp only [URI.getPath, uri, List.isEmpty_iff]

/-- `http://a:b@h/` -/
def withPassword : Components where
  scheme := Http.text ['h', 't', 't', 'p']
  user := some (Http.text ['a', ':', 'b'])
  host := Http.text ['h']
  port := none
  path := Http.text ['/']
  query := none
  fragment := none
  scheme_mem := by decide
  user_mem := by
    rintro w ⟨⟩
    decide
  host_mem := by decide
  host_ne := by decide
  port_mem := by simp
  port_value := by simp
  path_mem := by decide
  query_mem := by simp
  fragment_mem := by simp

/-- The user is saved as the empty text. -/
theorem recovered_fails :
    URI.create withPassword.text =
      some (some ⟨Http.text ['h', 't', 't', 'p'], [], Http.text ['h'], 0,
      Http.text ['/'], [], []⟩) ∧ ¬ withPassword.Recovered := by
  have hcreate : URI.create withPassword.text =
      some (some ⟨Http.text ['h', 't', 't', 'p'], [], Http.text ['h'], 0,
      Http.text ['/'], [], []⟩) := by decide
  refine ⟨hcreate, ?_⟩
  rintro ⟨u, hu, -, huser, -⟩
  rw [hcreate] at hu
  cases hu
  revert huser
  decide

end Components

end Uri
end Tiger
